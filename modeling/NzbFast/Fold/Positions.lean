import NzbFast.Fold.SetFold
import Mathlib.Tactic

/-!
# Positions in a list, and an index of them

`positions p l` is the ascending list of the places of `l` whose entry passes
`p`. `indexBy key l` is a table from a key to its places, built by one pass;
`bucket_indexBy` says that a bucket is the scan for its key. `mergeWalk` visits
two ascending lists in one ascending pass and an element of both only once;
`mergeWalk_eq_positions` is the walk of two scans as one scan for either.
-/

namespace Fold

open List hiding lt_of_le_of_lt

/-! ## Scans -/

section Positions

variable {A : Type}

/-- The places of `l` that pass `p`, in order. -/
def positions (p : Nat → A → Bool) (l : List A) : List Nat :=
  (l.zipIdx.filter fun x => p x.2 x.1).map (·.2)

theorem mem_positions {p : Nat → A → Bool} {l : List A} {i : Nat} :
    i ∈ positions p l ↔ ∃ a, l[i]? = some a ∧ p i a := by
  simp only [positions, mem_map, mem_filter, Prod.exists, mem_zipIdx_iff_getElem?]
  constructor
  · rintro ⟨a, j, ⟨ha, hp⟩, rfl⟩
    exact ⟨a, ha, hp⟩
  · rintro ⟨a, ha, hp⟩
    exact ⟨a, i, ⟨ha, hp⟩, rfl⟩

theorem pairwise_zipIdx (l : List A) (n : Nat) : ((l.zipIdx n).map (·.2)).Pairwise (· < ·) := by
  rw [zipIdx_map_snd]
  exact pairwise_lt_range'

theorem pairwise_positions (p : Nat → A → Bool) (l : List A) :
    (positions p l).Pairwise (· < ·) :=
  (pairwise_zipIdx l 0).sublist (List.Sublist.map _ filter_sublist)

/-- An ascending list with the members of a scan is the scan. -/
theorem eq_positions {p : Nat → A → Bool} {l : List A} {r : List Nat} (hr : r.Pairwise (· < ·))
    (h : ∀ i, i ∈ r ↔ ∃ a, l[i]? = some a ∧ p i a) : r = positions p l :=
  List.Pairwise.eq_of_mem_iff hr (pairwise_positions p l) fun i => by rw [h, mem_positions]

theorem filter_positions (p q : Nat → A → Bool) (l : List A) (f : Nat → Bool)
    (hf : ∀ i a, l[i]? = some a → p i a = true → f i = q i a) :
    (positions p l).filter f = positions (fun i a => p i a && q i a) l := by
  apply eq_positions ((pairwise_positions p l).sublist filter_sublist)
  intro i
  rw [mem_filter, mem_positions]
  constructor
  · rintro ⟨⟨a, ha, hp⟩, hfi⟩
    exact ⟨a, ha, by rw [hp, ← hf i a ha hp, hfi]; rfl⟩
  · rintro ⟨a, ha, hpq⟩
    rw [Bool.and_eq_true] at hpq
    exact ⟨⟨a, ha, hpq.1⟩, by rw [hf i a ha hpq.1, hpq.2]⟩

theorem positions_congr {p q : Nat → A → Bool} {l : List A}
    (h : ∀ i a, l[i]? = some a → p i a = q i a) : positions p l = positions q l := by
  apply eq_positions (pairwise_positions p l)
  intro i
  rw [mem_positions]
  constructor
  · rintro ⟨a, ha, hp⟩
    exact ⟨a, ha, h i a ha ▸ hp⟩
  · rintro ⟨a, ha, hq⟩
    exact ⟨a, ha, (h i a ha).symm ▸ hq⟩

end Positions

/-! ## Indexes -/

section Index

variable {A K : Type} [DecidableEq K]

/-- The places a key is filed under; a key that was never filed has none. -/
def bucket (t : Table K (List Nat)) (k : K) : List Nat := (t.lookup k).getD []

def fileUnder (key : A → K) (t : Table K (List Nat)) (x : A × Nat) : Table K (List Nat) :=
  t.step (key x.1) [] (· ++ [x.2])

def indexBy (key : A → K) (l : List A) : Table K (List Nat) := l.zipIdx.foldl (fileUnder key) ∅

theorem bucket_foldl (key : A → K) (k : K) (l : List (A × Nat)) (t : Table K (List Nat)) :
    bucket (l.foldl (fileUnder key) t) k =
      bucket t k ++ (l.filter fun x => key x.1 = k).map (·.2) :=
  Table.getD_foldl_push (fun x : A × Nat => key x.1) (·.2) l t k

theorem bucket_indexBy (key : A → K) (l : List A) (k : K) :
    bucket (indexBy key l) k = positions (fun _ a => key a = k) l := by
  unfold indexBy
  rw [bucket_foldl]
  simp [bucket, positions]

end Index

/-! ## Two ascending lists in one pass -/

/-- The least of two ascending lists, taken off both. -/
def popLeast : List Nat → List Nat → Option (Nat × List Nat × List Nat)
  | [], [] => none
  | a :: l, [] => some (a, l, [])
  | [], b :: r => some (b, [], r)
  | a :: l, b :: r => if a ≤ b then some (a, l, if b = a then r else b :: r) else some (b, a :: l, r)

theorem popLeast_cons (a : Nat) (l : List Nat) (b : Nat) (r : List Nat) :
    popLeast (a :: l) (b :: r) =
      if a ≤ b then some (a, l, if b = a then r else b :: r) else some (b, a :: l, r) := rfl

/-- What a walk by `popLeast` visits. -/
def mergeWalk : Nat → List Nat → List Nat → List Nat
  | 0, _, _ => []
  | n + 1, l, r =>
    match popLeast l r with
    | none => []
    | some (a, l, r) => a :: mergeWalk n l r

/-- The least comes first, what is left is ascending above it, and nothing else is lost. -/
theorem popLeast_spec {l r : List Nat} (hl : l.Pairwise (· < ·)) (hr : r.Pairwise (· < ·)) :
    match popLeast l r with
    | none => l = [] ∧ r = []
    | some (a, l', r') =>
      (∀ x, (x ∈ l ∨ x ∈ r) ↔ x = a ∨ x ∈ l' ∨ x ∈ r') ∧ (∀ x, x ∈ l' ∨ x ∈ r' → a < x) ∧
        l'.Pairwise (· < ·) ∧ r'.Pairwise (· < ·) ∧ l'.length + r'.length < l.length + r.length := by
  cases l with
  | nil =>
    cases r with
    | nil => exact ⟨rfl, rfl⟩
    | cons b r =>
      rw [pairwise_cons] at hr
      refine ⟨by simp, ?_, List.Pairwise.nil, hr.2, by simp⟩
      rintro x (hx | hx)
      · exact absurd hx not_mem_nil
      · exact hr.1 x hx
  | cons a l =>
    rw [pairwise_cons] at hl
    cases r with
    | nil =>
      refine ⟨by simp, ?_, hl.2, List.Pairwise.nil, by simp⟩
      rintro x (hx | hx)
      · exact hl.1 x hx
      · exact absurd hx not_mem_nil
    | cons b r =>
      rw [pairwise_cons] at hr
      rw [popLeast_cons]
      by_cases hab : a ≤ b
      · rw [if_pos hab]
        by_cases hba : b = a
        · -- the same place heads both lists
          rw [if_pos hba]
          subst hba
          refine ⟨fun x => by simp only [mem_cons]; tauto, ?_, hl.2, hr.2, ?_⟩
          · rintro x (hx | hx)
            · exact hl.1 x hx
            · exact hr.1 x hx
          · simp only [length_cons]
            omega
        · rw [if_neg hba]
          refine ⟨fun x => by simp only [mem_cons]; tauto, ?_, hl.2,
            pairwise_cons.mpr hr, by simp⟩
          rintro x (hx | hx)
          · exact hl.1 x hx
          · rcases mem_cons.mp hx with rfl | hx
            · omega
            · exact lt_of_le_of_lt hab (hr.1 x hx)
      · rw [if_neg hab]
        refine ⟨fun x => by simp only [mem_cons]; tauto, ?_, pairwise_cons.mpr hl, hr.2,
          by simp⟩
        rintro x (hx | hx)
        · rcases mem_cons.mp hx with rfl | hx
          · omega
          · have := hl.1 x hx
            omega
        · exact hr.1 x hx

theorem mem_mergeWalk {n : Nat} {l r : List Nat} (hl : l.Pairwise (· < ·))
    (hr : r.Pairwise (· < ·)) (hn : l.length + r.length ≤ n) (x : Nat) :
    x ∈ mergeWalk n l r ↔ x ∈ l ∨ x ∈ r := by
  induction n generalizing l r with
  | zero =>
    have h1 : l = [] := length_eq_zero_iff.mp (by omega)
    have h2 : r = [] := length_eq_zero_iff.mp (by omega)
    simp [mergeWalk, h1, h2]
  | succ n ih =>
    have h := popLeast_spec hl hr
    unfold mergeWalk
    cases hp : popLeast l r with
    | none =>
      rw [hp] at h
      simp [h.1, h.2]
    | some y =>
      rw [hp] at h
      obtain ⟨hmem, -, hl', hr', hlen⟩ := h
      rw [hmem, mem_cons, ih hl' hr' (by omega)]

theorem pairwise_mergeWalk {n : Nat} {l r : List Nat} (hl : l.Pairwise (· < ·))
    (hr : r.Pairwise (· < ·)) (hn : l.length + r.length ≤ n) :
    (mergeWalk n l r).Pairwise (· < ·) := by
  induction n generalizing l r with
  | zero => exact List.Pairwise.nil
  | succ n ih =>
    have h := popLeast_spec hl hr
    unfold mergeWalk
    cases hp : popLeast l r with
    | none => exact List.Pairwise.nil
    | some y =>
      rw [hp] at h
      obtain ⟨-, hlt, hl', hr', hlen⟩ := h
      refine pairwise_cons.mpr ⟨fun x hx => hlt x ?_, ih hl' hr' (by omega)⟩
      exact (mem_mergeWalk hl' hr' (by omega) x).mp hx

/-- Walking the scans for `p` and for `q` is the scan for either. -/
theorem mergeWalk_eq_positions {A : Type} (p q : Nat → A → Bool) (l : List A) {n : Nat}
    (hn : (positions p l).length + (positions q l).length ≤ n) :
    mergeWalk n (positions p l) (positions q l) = positions (fun i a => p i a || q i a) l := by
  have hp := pairwise_positions p l
  have hq := pairwise_positions q l
  apply eq_positions (pairwise_mergeWalk hp hq hn)
  intro i
  rw [mem_mergeWalk hp hq hn, mem_positions, mem_positions]
  constructor
  · rintro (⟨a, ha, h⟩ | ⟨a, ha, h⟩)
    · exact ⟨a, ha, by simp [h]⟩
    · exact ⟨a, ha, by simp [h]⟩
  · rintro ⟨a, ha, h⟩
    rw [Bool.or_eq_true] at h
    rcases h with h | h
    · exact Or.inl ⟨a, ha, h⟩
    · exact Or.inr ⟨a, ha, h⟩

end Fold
