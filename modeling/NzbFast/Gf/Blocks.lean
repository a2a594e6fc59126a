import Mathlib.Data.List.Range

/-!
# Loops over the blocks of an array

An array is a function on its indices. A loop that treats one block after the other,
each by an operation that stays within its block, has at every index the result of
that index's own block; so such a loop is undone by undoing its blocks, and a loop of
steps by the steps undone in reverse.
-/

namespace NzbFast.Gf

open Function List

variable {V : Type*}

/-- `for (b, base) in (0..n).step_by(size).enumerate()`. -/
def blocks (n size : Nat) (op : Nat → Nat → (Nat → V) → Nat → V) (a : Nat → V) : Nat → V :=
  (List.range ((n + size - 1) / size)).foldl (fun a b => op b (b * size) a) a

/-- Reads and writes only the `size` entries from `base`. -/
structure Local (base size : Nat) (op : (Nat → V) → Nat → V) : Prop where
  outside : ∀ a j, j < base ∨ base + size ≤ j → op a j = a j
  inside : ∀ {a a'}, (∀ j, base ≤ j → j < base + size → a j = a' j) →
    ∀ j, base ≤ j → j < base + size → op a j = op a' j

theorem Local.foldl {ι : Type*} {base size : Nat} {f : ι → (Nat → V) → Nat → V} {l : List ι}
    (h : ∀ t ∈ l, Local base size (f t)) : Local base size fun a => l.foldl (fun a t => f t a) a := by
  induction l with
  | nil => exact ⟨fun _ _ _ => rfl, fun h j hj hj' => h j hj hj'⟩
  | cons t l ih =>
    have ht := h t mem_cons_self
    have hl := ih fun t' ht' => h t' (mem_cons_of_mem t ht')
    refine ⟨fun a j hj => ?_, fun {a a'} haa j hj hj' => ?_⟩
    · rw [foldl_cons]
      exact (hl.outside _ j hj).trans (ht.outside a j hj)
    · rw [foldl_cons, foldl_cons]
      exact hl.inside (ht.inside haa) j hj hj'

theorem div_eq_iff_mem {size b j : Nat} (hsize : 0 < size) :
    j / size = b ↔ b * size ≤ j ∧ j < b * size + size := by
  rw [Nat.div_eq_iff hsize]
  omega

theorem foldl_blocks {size m : Nat} (hsize : 0 < size) {op : Nat → (Nat → V) → Nat → V}
    (h : ∀ b < m, Local (b * size) size (op b)) (a : Nat → V) (j : Nat) :
    (List.range m).foldl (fun a b => op b a) a j = if j / size < m then op (j / size) a j else a j := by
  induction m generalizing j with
  | zero => rw [if_neg (Nat.not_lt_zero _), range_zero, foldl_nil]
  | succ m ih =>
    have ih := fun j => ih (fun b hb => h b (Nat.lt_succ_of_lt hb)) j
    have hm := h m (Nat.lt_succ_self m)
    rw [range_succ, foldl_append, foldl_cons, foldl_nil]
    by_cases hj : j / size = m
    · obtain ⟨hlo, hhi⟩ := (div_eq_iff_mem hsize).mp hj
      rw [if_pos (by omega), hj]
      refine hm.inside (fun i hlo hhi => ?_) j hlo hhi
      rw [ih, if_neg (by rw [(div_eq_iff_mem hsize).mpr ⟨hlo, hhi⟩]; exact lt_irrefl m)]
    · have hout : j < m * size ∨ m * size + size ≤ j := by
        by_contra hin
        exact hj ((div_eq_iff_mem hsize).mpr (by omega))
      rw [hm.outside _ j hout, ih]
      refine if_congr ?_ rfl rfl
      omega

/-- Every index sees its own block's operation. -/
theorem blocks_apply {n size m : Nat} (hsize : 0 < size) (hn : n = m * size)
    {op : Nat → Nat → (Nat → V) → Nat → V} (h : ∀ b < m, Local (b * size) size (op b (b * size)))
    (a : Nat → V) (j : Nat) :
    blocks n size op a j = if j < n then op (j / size) (j / size * size) a j else a j := by
  have hcount : (n + size - 1) / size = m := by
    rw [div_eq_iff_mem hsize]
    omega
  unfold blocks
  rw [hcount, foldl_blocks hsize h, hn]
  exact if_congr (Nat.div_lt_iff_lt_mul hsize) rfl rfl

/-- Only the entries of the array are read. -/
theorem blocks_congr {n size m : Nat} (hsize : 0 < size) (hn : n = m * size)
    {op : Nat → Nat → (Nat → V) → Nat → V} (h : ∀ b < m, Local (b * size) size (op b (b * size)))
    {a a' : Nat → V} (haa : ∀ j < n, a j = a' j) :
    ∀ j < n, blocks n size op a j = blocks n size op a' j := by
  intro j hj
  rw [blocks_apply hsize hn h, blocks_apply hsize hn h, if_pos hj, if_pos hj]
  have hb : j / size < m := by rwa [Nat.div_lt_iff_lt_mul hsize, ← hn]
  obtain ⟨hlo, hhi⟩ := (div_eq_iff_mem hsize).mp (Eq.refl (j / size))
  refine (h _ hb).inside (fun i hlo hhi => haa i ?_) j hlo hhi
  rwa [hn, ← Nat.div_lt_iff_lt_mul hsize, (div_eq_iff_mem hsize).mpr ⟨hlo, hhi⟩]

theorem blocks_undo {n size m : Nat} (hsize : 0 < size) (hn : n = m * size)
    {op undo : Nat → Nat → (Nat → V) → Nat → V}
    (h : ∀ b < m, Local (b * size) size (op b (b * size)))
    (h' : ∀ b < m, Local (b * size) size (undo b (b * size)))
    (hundo : ∀ b < m, ∀ a, undo b (b * size) (op b (b * size) a) = a) (a : Nat → V) :
    blocks n size undo (blocks n size op a) = a := by
  funext j
  rw [blocks_apply hsize hn h']
  split
  case isFalse hj => rw [blocks_apply hsize hn h, if_neg hj]
  case isTrue hj =>
    have hb : j / size < m := by rwa [Nat.div_lt_iff_lt_mul hsize, ← hn]
    obtain ⟨hlo, hhi⟩ := (div_eq_iff_mem hsize).mp (Eq.refl (j / size))
    conv_rhs => rw [← hundo (j / size) hb a]
    refine (h' _ hb).inside (fun i hlo hhi => ?_) j hlo hhi
    have hi : i / size = j / size := (div_eq_iff_mem hsize).mpr ⟨hlo, hhi⟩
    have hin : i < n := by rwa [hn, ← Nat.div_lt_iff_lt_mul hsize, hi]
    rw [blocks_apply hsize hn h, if_pos hin, hi]

theorem range_reverse_succ (n : Nat) : (List.range (n + 1)).reverse = n :: (List.range n).reverse := by
  rw [range_succ, reverse_append]
  rfl

theorem foldl_undo {α ι : Type*} {f g : ι → α → α} {l : List ι}
    (h : ∀ t ∈ l, ∀ a, g t (f t a) = a) (a : α) :
    l.foldl (fun a t => g t a) (l.reverse.foldl (fun a t => f t a) a) = a := by
  induction l generalizing a with
  | nil => rfl
  | cons t l ih =>
    rw [reverse_cons, foldl_append, foldl_cons, foldl_cons, foldl_nil, h t mem_cons_self]
    exact ih (fun t' ht' => h t' (mem_cons_of_mem t ht')) a

/-! ## The two halves of a block -/

/-- Treats entry `j` of the low half together with entry `j` of the high half. -/
def pairs (half base : Nat) (f : Nat → V → V → V × V) (a : Nat → V) : Nat → V :=
  (List.range half).foldl (fun a j =>
    let p := f j (a (base + j)) (a (base + half + j))
    update (update a (base + j) p.1) (base + half + j) p.2) a

theorem foldl_pairs {half base : Nat} (f : Nat → V → V → V × V) (a : Nat → V) (n : Nat)
    (hn : n ≤ half) (j : Nat) :
    (List.range n).foldl (fun a j =>
      let p := f j (a (base + j)) (a (base + half + j))
      update (update a (base + j) p.1) (base + half + j) p.2) a j =
    if base ≤ j ∧ j < base + n then (f (j - base) (a j) (a (j + half))).1
    else if base + half ≤ j ∧ j < base + half + n then
      (f (j - (base + half)) (a (j - half)) (a j)).2
    else a j := by
  induction n generalizing j with
  | zero => rw [if_neg (by omega), if_neg (by omega), range_zero, foldl_nil]
  | succ n ih =>
    have ih := ih (by omega)
    rw [range_succ, foldl_append, foldl_cons, foldl_nil]
    have hlow := ih (base + n)
    rw [if_neg (by omega), if_neg (by omega)] at hlow
    have hhigh := ih (base + half + n)
    rw [if_neg (by omega), if_neg (by omega)] at hhigh
    rw [hlow, hhigh]
    by_cases h1 : j = base + half + n
    · rw [h1, update_self, if_neg (by omega), if_pos (by omega), Nat.add_sub_cancel_left]
      congr 3
      omega
    · rw [update_of_ne h1]
      by_cases h2 : j = base + n
      · rw [h2, update_self, if_pos (by omega), Nat.add_sub_cancel_left]
        congr 3
        omega
      · rw [update_of_ne h2, ih]
        refine if_congr (by omega) rfl (if_congr (by omega) rfl rfl)

section Pairs

variable (half base : Nat) (f : Nat → V → V → V × V)

theorem pairs_apply (a : Nat → V) (j : Nat) :
    pairs half base f a j =
      if base ≤ j ∧ j < base + half then (f (j - base) (a j) (a (j + half))).1
      else if base + half ≤ j ∧ j < base + half + half then
        (f (j - (base + half)) (a (j - half)) (a j)).2
      else a j :=
  foldl_pairs f a half (le_refl half) j

variable {half base}

theorem pairs_low {r : Nat} (a : Nat → V) (hr : r < half) :
    pairs half base f a (base + r) = (f r (a (base + r)) (a (base + half + r))).1 := by
  rw [pairs_apply, if_pos (by omega), Nat.add_right_comm, Nat.add_sub_cancel_left]

theorem pairs_high {r : Nat} (a : Nat → V) (hr : r < half) :
    pairs half base f a (base + half + r) = (f r (a (base + r)) (a (base + half + r))).2 := by
  rw [pairs_apply, if_neg (by omega), if_pos (by omega), Nat.add_sub_cancel_left]
  congr 3
  omega

theorem local_pairs : Local base (2 * half) (pairs half base f) where
  outside a j hj := by rw [pairs_apply, if_neg (by omega), if_neg (by omega)]
  inside {a a'} haa j hj hj' := by
    rw [pairs_apply, pairs_apply]
    by_cases hlow : base ≤ j ∧ j < base + half
    · rw [if_pos hlow, if_pos hlow, haa j hj hj', haa (j + half) (by omega) (by omega)]
    · rw [if_neg hlow, if_neg hlow, if_pos (by omega), if_pos (by omega), haa j hj hj',
        haa (j - half) (by omega) (by omega)]

theorem pairs_undo {g : Nat → V → V → V × V} (h : ∀ j u v, g j (f j u v).1 (f j u v).2 = (u, v))
    (a : Nat → V) : pairs half base g (pairs half base f a) = a := by
  funext j
  rw [pairs_apply]
  split
  case isTrue hj =>
    obtain ⟨r, rfl⟩ := Nat.exists_eq_add_of_le hj.1
    rw [Nat.add_right_comm, pairs_low f a (by omega), pairs_high f a (by omega),
      Nat.add_sub_cancel_left, h]
  case isFalse hlow =>
    split
    case isTrue hj =>
      obtain ⟨r, rfl⟩ := Nat.exists_eq_add_of_le hj.1
      have hsub : base + half + r - half = base + r := by omega
      rw [hsub, pairs_low f a (by omega), pairs_high f a (by omega), Nat.add_sub_cancel_left, h]
    case isFalse hhigh => rw [pairs_apply, if_neg hlow, if_neg hhigh]

end Pairs

end NzbFast.Gf
