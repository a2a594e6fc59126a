import NzbFast.Live.Runs
import NzbFast.Rust.BTreeMap
import Mathlib.Data.List.TakeWhile

/-!
# The two containers of a run list

A store of runs is a sorted `Vec` while it is short and a `BTreeMap` once an insert
leaves it longer than `RUNS_TREE_AT`. `Store` has both arms with the searches the
source makes in each. Every operation answers from `inOrder`, the runs in start
order, as the operation of `Runs` does, so neither the arm nor the moment of the
promotion shows.

* `Runs.split_at`: an ordered list around a key, from which the operations compute.
* `Store.before_eq`, `Store.atOrAfter_eq`, `Store.inOrder_insert`, …: each operation
  against the list.
-/

namespace NzbFast.Live

open NzbFast.Rust List Nat

/-! ## Ordered run lists -/

namespace Runs

variable {V : Type}

/-- Every start comes once, in order. -/
def Ordered (r : Runs V) : Prop := r.Pairwise fun x y => x.1 < y.1

variable {r : Runs V}

/-- An ordered list falls apart at a key. -/
theorem split_at (h : r.Ordered) (k : Nat) :
    ∃ front back, r = front ++ back ∧ (∀ x ∈ front, x.1 < k) ∧ ∀ x ∈ back, k ≤ x.1 := by
  refine ⟨r.takeWhile (·.1 < k), r.dropWhile (·.1 < k), (takeWhile_append_dropWhile).symm,
    fun x hx => by simpa using mem_takeWhile_imp hx, ?_⟩
  have hord : (r.dropWhile (·.1 < k)).Pairwise fun x y => x.1 < y.1 :=
    List.Pairwise.sublist (dropWhile_sublist _) h
  cases hb : r.dropWhile (·.1 < k) with
  | nil => exact fun x hx => absurd hx not_mem_nil
  | cons a back =>
    have ha : k ≤ a.1 := by
      have := head?_dropWhile_not (·.1 < k) r
      rw [hb] at this
      simpa using this
    rw [hb] at hord
    intro x hx
    rcases mem_cons.mp hx with rfl | hx
    · exact ha
    · exact le_trans ha (le_of_lt ((pairwise_cons.mp hord).1 x hx))

section Around

variable {front back : Runs V} {k : Nat} (hf : ∀ x ∈ front, x.1 < k) (hb : ∀ x ∈ back, k ≤ x.1)
include hf

theorem takeWhile_around (hb : ∀ x ∈ back, k ≤ x.1) :
    (front ++ back).takeWhile (·.1 < k) = front := by
  rw [takeWhile_append_of_pos (fun x hx => by simpa using hf x hx)]
  cases back with
  | nil => simp
  | cons a back =>
    rw [takeWhile_cons_of_neg (by simpa using hb a mem_cons_self), append_nil]

theorem dropWhile_around (hb : ∀ x ∈ back, k ≤ x.1) :
    (front ++ back).dropWhile (·.1 < k) = back := by
  rw [dropWhile_append_of_pos (fun x hx => by simpa using hf x hx)]
  cases back with
  | nil => rfl
  | cons a back => rw [dropWhile_cons_of_neg (by simpa using hb a mem_cons_self)]

theorem before_around (hb : ∀ x ∈ back, k ≤ x.1) : (front ++ back : Runs V).before k = front.getLast? := by
  rw [before, takeWhile_around hf hb]

theorem atOrAfter_around (hb : ∀ x ∈ back, k ≤ x.1) :
    (front ++ back : Runs V).atOrAfter k = back.head? := by
  rw [atOrAfter, dropWhile_around hf hb]

/-- A run of another start goes between. -/
theorem insert_around (hb : ∀ x ∈ back, k < x.1) (v : V) :
    (front ++ back : Runs V).insert k v = front ++ (k, v) :: back := by
  induction front with
  | nil =>
    cases back with
    | nil => rfl
    | cons a back =>
      have := hb a mem_cons_self
      rw [nil_append, insert, if_neg (by omega), if_neg (by omega), nil_append]
  | cons a front ih =>
    rw [cons_append, insert, if_pos (hf a mem_cons_self),
      ih fun x hx => hf x (mem_cons_of_mem a hx), cons_append]

/-- A run of the same start is replaced. -/
theorem insert_over (v w : V) :
    (front ++ (k, w) :: back : Runs V).insert k v = front ++ (k, v) :: back := by
  induction front with
  | nil => rw [nil_append, insert, if_neg (lt_irrefl k), if_pos rfl, nil_append]
  | cons a front ih =>
    rw [cons_append, insert, if_pos (hf a mem_cons_self),
      ih fun x hx => hf x (mem_cons_of_mem a hx), cons_append]

theorem remove_around (v : V) : (front ++ (k, v) :: back : Runs V).remove k = front ++ back := by
  unfold remove
  rw [eraseP_append_right _ fun x hx => by simpa using Nat.ne_of_lt (hf x hx),
    eraseP_cons_of_pos (by simp)]

theorem remove_absent (hb : ∀ x ∈ back, k < x.1) :
    (front ++ back : Runs V).remove k = front ++ back := by
  refine eraseP_of_forall_not fun x hx => ?_
  rcases mem_append.mp hx with hx | hx
  · simpa using Nat.ne_of_lt (hf x hx)
  · simpa using ne_of_gt (hb x hx)

end Around

/-- What starts at or behind `k` is a run at `k` and what starts behind it, or the latter only. -/
theorem back_cases {back : Runs V} {k : Nat} (ho : Ordered back) (hb : ∀ x ∈ back, k ≤ x.1) :
    (∃ v rest, back = (k, v) :: rest ∧ ∀ x ∈ rest, k < x.1) ∨ ∀ x ∈ back, k < x.1 := by
  cases back with
  | nil => exact .inr fun x hx => absurd hx not_mem_nil
  | cons a back =>
    obtain ⟨s, v⟩ := a
    have hrest := (pairwise_cons.mp ho).1
    rcases eq_or_lt_of_le (hb (s, v) mem_cons_self) with heq | hlt
    · dsimp only at heq
      subst heq
      exact .inl ⟨v, back, rfl, hrest⟩
    · refine .inr fun x hx => ?_
      rcases mem_cons.mp hx with rfl | hx
      · exact hlt
      · exact lt_trans hlt (hrest x hx)

/-- Keep the runs the closure answers for, having let it edit the value. -/
def retain (f : Nat → V → Option V) (r : Runs V) : Runs V :=
  r.filterMap fun x => (f x.1 x.2).map (x.1, ·)

theorem ordered_retain (h : r.Ordered) (f : Nat → V → Option V) : (r.retain f).Ordered := by
  refine List.Pairwise.filterMap _ (fun x y hxy x' hx y' hy => ?_) h
  obtain ⟨_, -, rfl⟩ := Option.map_eq_some_iff.mp hx
  obtain ⟨_, -, rfl⟩ := Option.map_eq_some_iff.mp hy
  exact hxy

theorem ordered_insert (h : r.Ordered) (k : Nat) (v : V) : (r.insert k v).Ordered := by
  obtain ⟨front, back, rfl, hf, hb⟩ := split_at h k
  obtain ⟨hof, hob, hfb⟩ := pairwise_append.mp h
  have hput : ∀ rest : Runs V, rest.Ordered → (∀ x ∈ rest, k < x.1) →
      Ordered (front ++ (k, v) :: rest) := fun rest hrest hk =>
    pairwise_append.mpr ⟨hof, pairwise_cons.mpr ⟨hk, hrest⟩, fun x hx y hy => by
      rcases mem_cons.mp hy with rfl | hy
      · exact hf x hx
      · exact lt_trans (hf x hx) (hk y hy)⟩
  rcases back_cases hob hb with ⟨w, rest, rfl, hrest⟩ | hb
  · rw [insert_over hf]
    exact hput rest (pairwise_cons.mp hob).2 hrest
  · rw [insert_around hf hb]
    exact hput back hob hb

theorem ordered_remove (h : r.Ordered) (k : Nat) : (r.remove k).Ordered :=
  List.Pairwise.sublist eraseP_sublist h

end Runs

/-! ## The store -/

def RUNS_TREE_AT : Nat := 32

inductive Store (V : Type) where
  | few (v : List (Nat × V))
  | many (m : BTreeMap V)

/-- `partition_point` of the runs that start before `k`. -/
def startsBefore {V : Type} (v : List (Nat × V)) (k : Nat) : Nat := (v.takeWhile (·.1 < k)).length

/-- `binary_search_by_key` over starts that come once, in order. -/
def binarySearchByKey {V : Type} (v : List (Nat × V)) (k : Nat) : Except Nat Nat :=
  let i := startsBefore v k
  if (v[i]?).any (·.1 == k) then .ok i else .error i

namespace Store

variable {V : Type}

def new : Store V := few []

def len : Store V → Nat
  | few v => v.length
  | many m => m.entries.length

def first : Store V → Option (Nat × V)
  | few v => v.head?
  | many m => m.entries.head?

/-- The greatest run starting strictly before `k`. -/
def before : Store V → Nat → Option (Nat × V)
  | few v, k =>
    let i := startsBefore v k
    if 0 < i then v[i - 1]? else none
  | many m, k => m.lastLT k

/-- The least run starting at or after `k`. -/
def atOrAfter : Store V → Nat → Option (Nat × V)
  | few v, k => v[startsBefore v k]?
  | many m, k => m.firstGE k

def remove : Store V → Nat → Store V
  | few v, k =>
    match binarySearchByKey v k with
    | .ok i => few (v.eraseIdx i)
    | .error _ => few v
  | many m, k => many (m.remove k)

/-- Insert or replace the run starting at `k`; a `Vec` that outgrows `limit` becomes a tree. -/
def insert (limit : Nat) : Store V → Nat → V → Store V
  | few v, k, val =>
    let v := match binarySearchByKey v k with
      | .ok i => v.set i (k, val)
      | .error i => v.insertIdx i (k, val)
    if limit < v.length then many (v.foldl (fun m x => m.insert x.1 x.2) .empty) else few v
  | many m, k, val => many (m.insert k val)

def retain (f : Nat → V → Option V) : Store V → Store V
  | few v => few (v.filterMap fun x => (f x.1 x.2).map (x.1, ·))
  | many m => many (m.retain f)

/-- `in_order`: the runs in start order. -/
def inOrder : Store V → Runs V
  | few v => v
  | many m => m.entries

/-- The searches of the `Vec` find what they look for. -/
def Sorted (s : Store V) : Prop := s.inOrder.Ordered

theorem sorted_new : (new : Store V).Sorted := List.Pairwise.nil

theorem len_eq (s : Store V) : s.len = s.inOrder.length := by
  cases s with
  | few v => rfl
  | many m => rfl

theorem first_eq (s : Store V) : s.first = s.inOrder.head? := by
  cases s with
  | few v => rfl
  | many m => rfl

variable {back front : Runs V} {s : Store V}

theorem startsBefore_around {k : Nat} (hf : ∀ x ∈ front, x.1 < k) (hb : ∀ x ∈ back, k ≤ x.1) :
    startsBefore (front ++ back) k = front.length := by
  rw [startsBefore, Runs.takeWhile_around hf hb]

theorem filter_around {p : Nat × V → Bool} (hf : ∀ x ∈ front, p x = true)
    (hb : ∀ x ∈ back, p x = false) : (front ++ back).filter p = front := by
  rw [filter_append, filter_eq_self.mpr hf,
    filter_eq_nil_iff.mpr fun x hx => by simp [hb x hx], append_nil]

theorem filter_behind {p : Nat × V → Bool} (hf : ∀ x ∈ front, p x = false)
    (hb : ∀ x ∈ back, p x = true) : (front ++ back).filter p = back := by
  rw [filter_append, filter_eq_self.mpr hb,
    filter_eq_nil_iff.mpr fun x hx => by simp [hf x hx], nil_append]

theorem before_eq (h : s.Sorted) (k : Nat) : s.before k = s.inOrder.before k := by
  obtain ⟨front, back, hs, hf, hb⟩ := Runs.split_at h k
  rw [hs, Runs.before_around hf hb]
  cases s with
  | few v =>
    subst hs
    unfold before
    dsimp only
    rw [startsBefore_around hf hb]
    cases hl : front.length with
    | zero => rw [length_eq_zero_iff.mp hl]; rfl
    | succ n =>
      rw [if_pos (Nat.succ_pos n), Nat.add_sub_cancel, getElem?_append_left (by omega),
        getLast?_eq_getElem?, hl, Nat.add_sub_cancel]
  | many m =>
    change m.entries = front ++ back at hs
    change (m.entries.filter fun x => decide (x.1 < k)).getLast? = _
    rw [hs, filter_around (fun x hx => decide_eq_true (hf x hx))
      fun x hx => decide_eq_false (not_lt.mpr (hb x hx))]

theorem atOrAfter_eq (h : s.Sorted) (k : Nat) : s.atOrAfter k = s.inOrder.atOrAfter k := by
  obtain ⟨front, back, hs, hf, hb⟩ := Runs.split_at h k
  rw [hs, Runs.atOrAfter_around hf hb]
  cases s with
  | few v =>
    subst hs
    change (front ++ back)[startsBefore (front ++ back) k]? = _
    rw [startsBefore_around hf hb, getElem?_append_right (Nat.le_refl _), Nat.sub_self,
      head?_eq_getElem?]
  | many m =>
    change m.entries = front ++ back at hs
    change (m.entries.filter fun x => decide (k ≤ x.1)).head? = _
    rw [hs, filter_behind (fun x hx => decide_eq_false (not_le.mpr (hf x hx)))
      fun x hx => decide_eq_true (hb x hx)]

theorem binarySearchByKey_around {k : Nat} (hf : ∀ x ∈ front, x.1 < k) (hb : ∀ x ∈ back, k < x.1) :
    binarySearchByKey (front ++ back) k = .error front.length ∧
      ∀ w, binarySearchByKey (front ++ (k, w) :: back) k = .ok front.length := by
  have hle : ∀ x ∈ back, k ≤ x.1 := fun x hx => le_of_lt (hb x hx)
  unfold binarySearchByKey
  dsimp only
  constructor
  · rw [startsBefore_around hf hle, getElem?_append_right (Nat.le_refl _), Nat.sub_self]
    cases back with
    | nil => rfl
    | cons a back =>
      have := hb a mem_cons_self
      rw [getElem?_cons_zero, Option.any_some, beq_eq_false_iff_ne.mpr (by omega)]
      rfl
  · intro w
    rw [startsBefore_around hf fun x hx => by
        rcases mem_cons.mp hx with rfl | hx
        · exact le_refl k
        · exact hle x hx,
      getElem?_append_right (Nat.le_refl _), Nat.sub_self, getElem?_cons_zero,
      Option.any_some, beq_self_eq_true]
    rfl

theorem inOrder_remove (h : s.Sorted) (k : Nat) : (s.remove k).inOrder = s.inOrder.remove k := by
  obtain ⟨front, back, hs, hf, hb⟩ := Runs.split_at h k
  have hob : back.Ordered := by
    unfold Sorted Runs.Ordered at h
    rw [hs] at h
    exact (pairwise_append.mp h).2.1
  rw [hs]
  rcases Runs.back_cases hob hb with ⟨w, rest, rfl, hrest⟩ | hb
  · rw [Runs.remove_around hf]
    cases s with
    | few v =>
      subst hs
      dsimp only [remove]
      rw [(binarySearchByKey_around hf hrest).2 w]
      change (front ++ (k, w) :: rest).eraseIdx front.length = _
      rw [eraseIdx_append_of_length_le (Nat.le_refl _), Nat.sub_self, eraseIdx_cons_zero]
    | many m =>
      change m.entries = _ at hs
      change (m.entries.filter fun x => decide (x.1 ≠ k)) = _
      rw [hs, filter_append, filter_cons_of_neg (by simp),
        filter_eq_self.mpr fun x hx => decide_eq_true (Nat.ne_of_lt (hf x hx)),
        filter_eq_self.mpr fun x hx => decide_eq_true (ne_of_gt (hrest x hx))]
  · rw [Runs.remove_absent hf hb]
    cases s with
    | few v =>
      subst hs
      dsimp only [remove]
      rw [(binarySearchByKey_around hf hb).1]
      rfl
    | many m =>
      change m.entries = _ at hs
      change (m.entries.filter fun x => decide (x.1 ≠ k)) = _
      rw [hs, filter_eq_self.mpr fun x hx => ?_]
      rcases mem_append.mp hx with hx | hx
      · exact decide_eq_true (Nat.ne_of_lt (hf x hx))
      · exact decide_eq_true (ne_of_gt (hb x hx))

/-- The entries collected from an ordered `Vec` are the `Vec`'s. -/
theorem entries_collect {v : List (Nat × V)} (h : Runs.Ordered v) :
    (v.foldl (fun m x => m.insert x.1 x.2) (.empty : BTreeMap V)).entries = v := by
  induction v using reverseRecOn with
  | nil => rfl
  | append_singleton v x ih =>
    obtain ⟨hv, -, hx⟩ := pairwise_append.mp h
    rw [foldl_append, foldl_cons, foldl_nil, BTreeMap.entries_insert_last, ih hv]
    intro y hy
    rw [← BTreeMap.mem_entries, ih hv] at hy
    exact hx y hy x (mem_singleton_self x)

theorem insertIdx_between (front back : List (Nat × V)) (x : Nat × V) :
    (front ++ back).insertIdx front.length x = front ++ x :: back := by
  induction front with
  | nil => rfl
  | cons a front ih =>
    rw [cons_append, length_cons, insertIdx_succ_cons, ih, cons_append]

theorem inOrder_insert {s : Store V} (h : s.Sorted) (limit k : Nat) (val : V) :
    (s.insert limit k val).inOrder = s.inOrder.insert k val := by
  have hordered := Runs.ordered_insert h k val
  obtain ⟨front, back, hs, hf, hb⟩ := Runs.split_at h k
  have hob : back.Ordered := by
    unfold Sorted Runs.Ordered at h
    rw [hs] at h
    exact (pairwise_append.mp h).2.1
  cases s with
  | few v =>
    -- The `Vec` the search leaves is the list's own insertion.
    have hvec : (match binarySearchByKey v k with
        | .ok i => v.set i (k, val)
        | .error i => v.insertIdx i (k, val)) = Runs.insert v k val := by
      subst hs
      rcases Runs.back_cases hob hb with ⟨w, rest, rfl, hrest⟩ | hb
      · rw [(binarySearchByKey_around hf hrest).2 w, Runs.insert_over hf]
        dsimp only
        rw [set_append_right _ _ (Nat.le_refl _), Nat.sub_self, set_cons_zero]
      · rw [(binarySearchByKey_around hf hb).1, Runs.insert_around hf hb]
        exact insertIdx_between front back (k, val)
    unfold insert
    dsimp only
    rw [hvec]
    split
    · exact entries_collect hordered
    · rfl
  | many m =>
    change m.entries = _ at hs
    change (m.insert k val).entries = Runs.insert m.entries k val
    have hlow : (m.keep (decide <| · < k)).entries = front := by
      change (m.entries.filter fun x => decide (x.1 < k)) = _
      rw [hs, filter_around (fun x hx => decide_eq_true (hf x hx))
        fun x hx => decide_eq_false (not_lt.mpr (hb x hx))]
    change (m.keep (decide <| · < k)).entries ++ (k, val) :: (m.keep (decide <| k < ·)).entries = _
    rw [hlow]
    change front ++ (k, val) :: (m.entries.filter fun x => decide (k < x.1)) = _
    rcases Runs.back_cases hob hb with ⟨w, rest, rfl, hrest⟩ | hb
    · rw [hs, Runs.insert_over hf, append_cons front (k, w) rest,
        filter_behind _ fun x hx => decide_eq_true (hrest x hx)]
      intro x hx
      rcases mem_append.mp hx with hx | hx
      · exact decide_eq_false (not_lt.mpr (le_of_lt (hf x hx)))
      · rw [mem_singleton.mp hx]
        exact decide_eq_false (lt_irrefl k)
    · rw [hs, Runs.insert_around hf hb,
        filter_behind (fun x hx => decide_eq_false (not_lt.mpr (le_of_lt (hf x hx))))
          fun x hx => decide_eq_true (hb x hx)]

theorem inOrder_retain (s : Store V) (f : Nat → V → Option V) :
    (s.retain f).inOrder = s.inOrder.retain f := by
  cases s with
  | few v => rfl
  | many m => rfl

theorem sorted_insert (h : s.Sorted) (limit k : Nat) (val : V) : (s.insert limit k val).Sorted := by
  unfold Sorted
  rw [inOrder_insert h]
  exact Runs.ordered_insert h k val

theorem sorted_remove (h : s.Sorted) (k : Nat) : (s.remove k).Sorted := by
  unfold Sorted
  rw [inOrder_remove h]
  exact Runs.ordered_remove h k

theorem sorted_retain (h : s.Sorted) (f : Nat → V → Option V) : (s.retain f).Sorted := by
  unfold Sorted
  rw [inOrder_retain]
  exact Runs.ordered_retain h f

end Store

end NzbFast.Live
