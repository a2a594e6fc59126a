import Mathlib.Tactic

/-!
# Ordered maps

`BTreeMap` over natural keys as its entries in key order. Lookups, neighbours and
ranges are filters of the entries; a map is reasoned about through membership of
its entries, and sums over its values through `sum_insert` and `sum_remove`.
-/

namespace NzbFast.Rust

open List

/-- The entries of a map, in key order. -/
structure BTreeMap (α : Type) where
  entries : List (Nat × α)
  sorted : entries.Pairwise fun x y => x.1 < y.1
  deriving DecidableEq

namespace BTreeMap

variable {α : Type}

instance : Membership (Nat × α) (BTreeMap α) := ⟨fun m x => x ∈ m.entries⟩

variable {x y : Nat × α} {m : BTreeMap α} {k : Nat} {v : α} {l : List (Nat × α)}

theorem mem_entries : x ∈ m.entries ↔ x ∈ m := Iff.rfl

def empty : BTreeMap α := ⟨[], .nil⟩

def get (m : BTreeMap α) (k : Nat) : Option α := (m.entries.find? fun x => x.1 == k).map (·.2)

/-- The entries whose keys satisfy `p`. -/
def keep (m : BTreeMap α) (p : Nat → Bool) : BTreeMap α :=
  ⟨m.entries.filter fun x => p x.1, m.sorted.filter _⟩

def remove (m : BTreeMap α) (k : Nat) : BTreeMap α := m.keep fun k' => decide (k' ≠ k)

def insert (m : BTreeMap α) (k : Nat) (v : α) : BTreeMap α where
  entries := (m.keep (decide <| · < k)).entries ++ (k, v) :: (m.keep (decide <| k < ·)).entries
  sorted := by
    have hlo : ∀ x ∈ (m.keep (decide <| · < k)).entries, x.1 < k := fun x hx =>
      of_decide_eq_true (List.mem_filter.mp hx).2
    have hhi : ∀ x ∈ (m.keep (decide <| k < ·)).entries, k < x.1 := fun x hx =>
      of_decide_eq_true (List.mem_filter.mp hx).2
    refine List.pairwise_append.mpr ⟨(m.keep _).sorted,
      List.pairwise_cons.mpr ⟨hhi, (m.keep _).sorted⟩, fun x hx y hy => ?_⟩
    rcases List.mem_cons.mp hy with rfl | hy
    · exact hlo x hx
    · exact Nat.lt_trans (hlo x hx) (hhi y hy)

/-- Every value changed in place. -/
def mapVals (m : BTreeMap α) (f : Nat → α → α) : BTreeMap α where
  entries := m.entries.map fun x => (x.1, f x.1 x.2)
  sorted := List.pairwise_map.mpr m.sorted

/-- `range(..k).next_back()`. -/
def lastLT (m : BTreeMap α) (k : Nat) : Option (Nat × α) := (m.keep (decide <| · < k)).entries.getLast?

/-- `range(..=k).next_back()`. -/
def lastLE (m : BTreeMap α) (k : Nat) : Option (Nat × α) := m.lastLT (k + 1)

/-- `range(k + 1..).next()`. -/
def firstGT (m : BTreeMap α) (k : Nat) : Option (Nat × α) := (m.keep (decide <| k < ·)).entries.head?

/-- `range(k..).next()`. -/
def firstGE (m : BTreeMap α) (k : Nat) : Option (Nat × α) := (m.keep (decide <| k ≤ ·)).entries.head?

/-- `retain`: the entries the closure answers for, with the values it leaves. -/
def retain (m : BTreeMap α) (f : Nat → α → Option α) : BTreeMap α where
  entries := m.entries.filterMap fun x => (f x.1 x.2).map (x.1, ·)
  sorted := by
    refine List.Pairwise.filterMap _ (fun x y hxy x' hx y' hy => ?_) m.sorted
    obtain ⟨_, -, rfl⟩ := Option.map_eq_some_iff.mp hx
    obtain ⟨_, -, rfl⟩ := Option.map_eq_some_iff.mp hy
    exact hxy

/-- `range(lo..hi)`. -/
def range (m : BTreeMap α) (lo hi : Nat) : List (Nat × α) :=
  (m.keep fun k => decide (lo ≤ k) && decide (k < hi)).entries

def sum (m : BTreeMap α) (size : α → Nat) : Nat := (m.entries.map fun x => size x.2).sum

/-! ## Membership -/

@[simp] theorem not_mem_empty (x : Nat × α) : x ∉ (empty : BTreeMap α) := not_mem_nil

@[simp] theorem mem_keep {p : Nat → Bool} : x ∈ m.keep p ↔ x ∈ m ∧ p x.1 = true := mem_filter

@[simp] theorem mem_remove : x ∈ m.remove k ↔ x ∈ m ∧ x.1 ≠ k := by
  rw [remove, mem_keep, decide_eq_true_eq]

@[simp] theorem mem_insert : x ∈ m.insert k v ↔ x = (k, v) ∨ (x ∈ m ∧ x.1 ≠ k) := by
  have happ : x ∈ m.insert k v ↔
      x ∈ m.keep (decide <| · < k) ∨ x = (k, v) ∨ x ∈ m.keep (decide <| k < ·) := by
    rw [← mem_entries, insert, mem_append, mem_cons]
    exact Iff.rfl
  rw [happ, mem_keep, mem_keep, decide_eq_true_eq, decide_eq_true_eq]
  constructor
  · rintro (⟨hx, hlt⟩ | rfl | ⟨hx, hlt⟩)
    · exact .inr ⟨hx, ne_of_lt hlt⟩
    · exact .inl rfl
    · exact .inr ⟨hx, ne_of_gt hlt⟩
  · rintro (rfl | ⟨hx, hne⟩)
    · exact .inr (.inl rfl)
    · rcases lt_or_gt_of_ne hne with hlt | hgt
      · exact .inl ⟨hx, hlt⟩
      · exact .inr (.inr ⟨hx, hgt⟩)

@[simp] theorem mem_mapVals {f : Nat → α → α} :
    x ∈ m.mapVals f ↔ ∃ v, (x.1, v) ∈ m ∧ x.2 = f x.1 v := by
  constructor
  · intro h
    obtain ⟨⟨k, v⟩, hm, rfl⟩ := mem_map.mp h
    exact ⟨v, hm, rfl⟩
  · rintro ⟨v, hm, he⟩
    exact mem_map.mpr ⟨_, hm, Prod.ext rfl he.symm⟩

theorem mem_mapVals_of_mem (f : Nat → α → α) (h : x ∈ m) :
    (x.1, f x.1 x.2) ∈ m.mapVals f := mem_mapVals.mpr ⟨x.2, h, rfl⟩

theorem mem_range {lo hi : Nat} : x ∈ m.range lo hi ↔ x ∈ m ∧ lo ≤ x.1 ∧ x.1 < hi := by
  rw [range, mem_entries, mem_keep, Bool.and_eq_true, decide_eq_true_eq, decide_eq_true_eq]

theorem range_sorted (m : BTreeMap α) (lo hi : Nat) :
    (m.range lo hi).Pairwise fun x y => x.1 < y.1 := (m.keep _).sorted

theorem mem_unique (hx : x ∈ m) (hy : y ∈ m) (h : x.1 = y.1) : x = y := by
  by_contra hne
  have hpair : m.entries.Pairwise fun x y => x.1 < y.1 ∨ y.1 < x.1 := m.sorted.imp .inl
  have hlt := @List.Pairwise.forall _ _ _ ⟨fun _ _ => Or.symm⟩ hpair x hx y hy hne
  omega

theorem get_eq_some : m.get k = some v ↔ (k, v) ∈ m := by
  constructor
  · intro h
    obtain ⟨⟨k', v'⟩, hfind, rfl⟩ := Option.map_eq_some_iff.mp h
    obtain rfl : k' = k := by simpa using find?_some hfind
    exact mem_of_find?_eq_some hfind
  · intro h
    obtain ⟨x, hfind⟩ := Option.isSome_iff_exists.mp
      (find?_isSome (p := fun x : Nat × α => x.1 == k).mpr ⟨(k, v), h, beq_self_eq_true k⟩)
    have hkey : x.1 = k := by simpa using find?_some hfind
    have hx := mem_unique (mem_of_find?_eq_some hfind) h hkey
    rw [get, hfind, hx, Option.map_some]

theorem get_eq_none : m.get k = none ↔ ∀ x ∈ m, x.1 ≠ k := by
  constructor
  · rintro h ⟨k', v⟩ hx rfl
    rw [get_eq_some.mpr hx] at h
    cases h
  · intro h
    cases hg : m.get k with
    | none => rfl
    | some v => exact absurd rfl (h _ (get_eq_some.mp hg))

theorem get_insert (m : BTreeMap α) (k : Nat) (v : α) (n : Nat) :
    (m.insert k v).get n = if n = k then some v else m.get n := by
  by_cases h : n = k
  · rw [if_pos h, get_eq_some]
    exact mem_insert.mpr (.inl (by rw [h]))
  · rw [if_neg h]
    cases hg : m.get n with
    | some w => exact get_eq_some.mpr (mem_insert.mpr (.inr ⟨get_eq_some.mp hg, h⟩))
    | none =>
      refine get_eq_none.mpr fun x hx => ?_
      rcases mem_insert.mp hx with rfl | ⟨hx, -⟩
      · exact fun e => h e.symm
      · exact get_eq_none.mp hg x hx

@[simp] theorem get_empty (n : Nat) : (empty : BTreeMap α).get n = none := rfl

/-- A key past the others goes to the end. -/
theorem entries_insert_last (v : α) (h : ∀ x ∈ m, x.1 < k) :
    (m.insert k v).entries = m.entries ++ [(k, v)] := by
  have hlo : (m.keep (decide <| · < k)).entries = m.entries :=
    filter_eq_self.mpr fun x hx => decide_eq_true (h x hx)
  have hhi : (m.keep (decide <| k < ·)).entries = [] :=
    filter_eq_nil_iff.mpr fun x hx => by simpa using le_of_lt (h x hx)
  show (m.keep _).entries ++ (k, v) :: (m.keep _).entries = _
  rw [hlo, hhi]

/-! ## Neighbours -/

theorem le_getLast (hs : l.Pairwise fun x y => x.1 < y.1) (h : l.getLast? = some x) (hy : y ∈ l) :
    y.1 ≤ x.1 := by
  induction l using reverseRecOn with
  | nil => cases hy
  | append_singleton l z _ =>
    obtain rfl : z = x := by simpa using h
    rcases mem_append.mp hy with hy | hy
    · exact le_of_lt ((pairwise_append.mp hs).2.2 y hy z (mem_singleton.mpr rfl))
    · exact (mem_singleton.mp hy) ▸ le_refl _

theorem lastLT_some (h : m.lastLT k = some x) : x ∈ m ∧ x.1 < k ∧ ∀ y ∈ m, y.1 < k → y.1 ≤ x.1 := by
  have hx := mem_keep.mp (mem_of_getLast? h)
  rw [decide_eq_true_eq] at hx
  exact ⟨hx.1, hx.2, fun y hy hlt =>
    le_getLast (m.keep _).sorted h (mem_keep.mpr ⟨hy, decide_eq_true hlt⟩)⟩

theorem lastLT_none (h : m.lastLT k = none) (hy : y ∈ m) : k ≤ y.1 := by
  by_contra hlt
  have hnil := getLast?_eq_none_iff.mp h
  have hmem : y ∈ m.keep (decide <| · < k) := mem_keep.mpr ⟨hy, decide_eq_true (Nat.lt_of_not_le hlt)⟩
  rw [← mem_entries, hnil] at hmem
  cases hmem

theorem lastLE_some (h : m.lastLE k = some x) : x ∈ m ∧ x.1 ≤ k ∧ ∀ y ∈ m, y.1 ≤ k → y.1 ≤ x.1 := by
  obtain ⟨hx, hlt, hmax⟩ := lastLT_some h
  exact ⟨hx, Nat.le_of_lt_succ hlt, fun y hy hle => hmax y hy (Nat.lt_succ_of_le hle)⟩

theorem lastLE_none (h : m.lastLE k = none) (hy : y ∈ m) : k < y.1 := lastLT_none h hy

theorem head_le (hs : l.Pairwise fun x y => x.1 < y.1) (h : l.head? = some x) (hy : y ∈ l) :
    x.1 ≤ y.1 := by
  obtain ⟨t, rfl⟩ := head?_eq_some_iff.mp h
  rcases mem_cons.mp hy with rfl | hy
  · exact le_refl _
  · exact le_of_lt ((pairwise_cons.mp hs).1 y hy)

theorem firstGT_some (h : m.firstGT k = some x) :
    x ∈ m ∧ k < x.1 ∧ ∀ y ∈ m, k < y.1 → x.1 ≤ y.1 := by
  have hx := mem_keep.mp (mem_of_head? h)
  rw [decide_eq_true_eq] at hx
  exact ⟨hx.1, hx.2, fun y hy hlt =>
    head_le (m.keep _).sorted h (mem_keep.mpr ⟨hy, decide_eq_true hlt⟩)⟩

theorem firstGT_none (h : m.firstGT k = none) (hy : y ∈ m) : y.1 ≤ k := by
  by_contra hlt
  have hmem : y ∈ m.keep (decide <| k < ·) := mem_keep.mpr ⟨hy, decide_eq_true (Nat.lt_of_not_le hlt)⟩
  rw [← mem_entries, head?_eq_none_iff.mp h] at hmem
  cases hmem

/-- The first entry from `lo` on, below `hi`. -/
theorem head_range_some {lo hi : Nat} (h : (m.range lo hi).head? = some x) :
    x ∈ m ∧ lo ≤ x.1 ∧ x.1 < hi ∧ ∀ y ∈ m, lo ≤ y.1 → x.1 ≤ y.1 := by
  obtain ⟨hx, hlo, hhi⟩ := mem_range.mp (mem_of_head? h)
  refine ⟨hx, hlo, hhi, fun y hy hle => ?_⟩
  by_cases hyhi : y.1 < hi
  · exact head_le (m.range_sorted lo hi) h (mem_range.mpr ⟨hy, hle, hyhi⟩)
  · exact le_trans (le_of_lt hhi) (Nat.le_of_not_lt hyhi)

/-! ## Sums -/

variable (size : α → Nat)

theorem sum_filter_split (l : List (Nat × α)) (p : Nat × α → Bool) :
    (l.map fun x => size x.2).sum =
      ((l.filter p).map fun x => size x.2).sum + ((l.filter fun x => !p x).map fun x => size x.2).sum := by
  induction l with
  | nil => rfl
  | cons x l ih =>
    cases hp : p x <;> simp only [filter_cons, hp, map_cons, sum_cons, ih,
      Bool.not_true, Bool.not_false, Bool.false_eq_true, ite_true, ite_false] <;> omega

theorem sum_remove (h : (k, v) ∈ m) : m.sum size = (m.remove k).sum size + size v := by
  have hone : m.entries.filter (fun x => !decide (x.1 ≠ k)) = [(k, v)] := by
    have hmem : ∀ x, x ∈ m.entries.filter (fun x => !decide (x.1 ≠ k)) ↔ x = (k, v) := fun x => by
      rw [mem_filter, Bool.not_eq_true', decide_eq_false_iff_not, not_not]
      exact ⟨fun hx => mem_unique hx.1 h hx.2, fun hx => hx ▸ ⟨h, rfl⟩⟩
    have hnodup : (m.entries.filter (fun x => !decide (x.1 ≠ k))).Nodup :=
      (m.sorted.imp fun hlt heq => absurd (heq ▸ hlt) (lt_irrefl _)).filter _
    exact perm_singleton.mp ((perm_ext_iff_of_nodup hnodup (nodup_singleton _)).mpr
      fun x => by rw [hmem, mem_singleton])
  have hsplit := sum_filter_split size m.entries fun x => decide (x.1 ≠ k)
  rw [hone] at hsplit
  exact hsplit

theorem le_sum (h : x ∈ m) : size x.2 ≤ m.sum size := by
  rw [sum_remove size h]
  exact Nat.le_add_left _ _

theorem remove_of_get_none (h : m.get k = none) : m.remove k = m := by
  have hall : m.entries.filter (fun x => decide (x.1 ≠ k)) = m.entries :=
    filter_eq_self.mpr fun x hx => decide_eq_true (get_eq_none.mp h x hx)
  cases m
  exact BTreeMap.mk.injEq .. ▸ hall

/-- What is left without the first entry. -/
theorem remove_head (h : m.entries = x :: l) : (m.remove x.1).entries = l := by
  have hsorted := m.sorted
  rw [h] at hsorted
  have hrest := (pairwise_cons.mp hsorted).1
  change m.entries.filter _ = l
  rw [h, filter_cons_of_neg (by simp)]
  exact filter_eq_self.mpr fun y hy => decide_eq_true (ne_of_gt (hrest y hy))

theorem sum_insert (m : BTreeMap α) (k : Nat) (v : α) :
    (m.insert k v).sum size = (m.remove k).sum size + size v := by
  have hsplit := sum_filter_split size (m.remove k).entries fun x => decide (x.1 < k)
  have hlo : (m.remove k).entries.filter (fun x => decide (x.1 < k)) =
      (m.keep (decide <| · < k)).entries := by
    rw [remove, keep, keep, filter_filter]
    refine filter_congr fun x _ => ?_
    by_cases hlt : x.1 < k
    · simp [hlt, ne_of_lt hlt]
    · simp [hlt]
  have hhi : (m.remove k).entries.filter (fun x => !decide (x.1 < k)) =
      (m.keep (decide <| k < ·)).entries := by
    rw [remove, keep, keep, filter_filter]
    refine filter_congr fun x _ => ?_
    by_cases hlt : k < x.1
    · simp [hlt, ne_of_gt hlt, not_lt_of_gt hlt]
    · by_cases heq : x.1 = k
      · simp [heq]
      · simp [hlt, show x.1 < k by omega]
  rw [hlo, hhi] at hsplit
  rw [sum, insert, map_append, sum_append, map_cons, sum_cons, sum, hsplit]
  exact Nat.add_left_comm _ _ _ ▸ Nat.add_comm _ _

end BTreeMap

end NzbFast.Rust
