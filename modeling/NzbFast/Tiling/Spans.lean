import Mathlib.Data.List.GetD
import Mathlib.Data.Multiset.Bind
import Mathlib.Data.Multiset.Range

/-!
# Intervals cut into windows

Two loops cut an interval: one walks it in steps until it ends (`spans`), one takes a given
number of pieces of a given width and leaves what is over (`cuts`). Either way the windows,
read one after another, list the interval once (`flatMap_spans`, `flatMap_cuts`), so work
done window by window is work done point by point (`bind_spans`).
-/

namespace Tiling

open Multiset

variable {α β : Type} {step width hi lo n : Nat} {s : Nat × Nat}

def between (s : Nat × Nat) : List Nat := List.range' s.1 (s.2 - s.1)

theorem mem_between {x : Nat} : x ∈ between s ↔ s.1 ≤ x ∧ x < s.2 := by
  rw [between, List.mem_range'_1]
  omega

theorem between_append {a b c : Nat} (hab : a ≤ b) (hbc : b ≤ c) :
    between (a, b) ++ between (b, c) = between (a, c) := by
  obtain ⟨k, rfl⟩ := Nat.exists_eq_add_of_le hab
  obtain ⟨l, rfl⟩ := Nat.exists_eq_add_of_le hbc
  unfold between
  rw [Nat.add_sub_cancel_left, Nat.add_sub_cancel_left, List.range'_append_1, Nat.add_assoc,
    Nat.add_sub_cancel_left]

/-- Work on a list is work on those that pass a test and work on the others. -/
theorem bind_filter_not (l : List α) (p : α → Bool) (f : α → Multiset β) :
    (l : Multiset α).bind f = ((l.filter p : List α) : Multiset α).bind f +
      ((l.filter fun x => !p x : List α) : Multiset α).bind f := by
  induction l with
  | nil => rfl
  | cons a l ih =>
    rw [← cons_coe, cons_bind, ih]
    cases hp : p a with
    | true =>
      rw [List.filter_cons_of_pos hp, List.filter_cons_of_neg (by simp [hp]), ← cons_coe,
        cons_bind, add_assoc]
    | false =>
      rw [List.filter_cons_of_neg (by simp [hp]), List.filter_cons_of_pos (by simp [hp]),
        ← cons_coe (a := a), cons_bind, add_left_comm]

/-- Only one of the numbers below `n` makes a given element. -/
theorem count_bind_range [DecidableEq β] {b : β} {f : Nat → Multiset β} (x : Nat)
    (h : ∀ y, y ≠ x → (f y).count b = 0) :
    ((Multiset.range n).bind f).count b = if x < n then (f x).count b else 0 := by
  induction n with
  | zero => rw [range_zero, zero_bind, count_zero, if_neg (Nat.not_lt_zero x)]
  | succ n ih =>
    rw [range_succ, cons_bind, count_add, ih]
    rcases lt_trichotomy x n with hlt | rfl | hgt
    · rw [h n (ne_of_gt hlt), if_pos hlt, if_pos (Nat.lt_succ_of_lt hlt), zero_add]
    · rw [if_neg (lt_irrefl x), if_pos (Nat.lt_succ_self x), add_zero]
    · rw [h n (ne_of_lt hgt), if_neg (not_lt_of_gt hgt), if_neg (by omega)]

/-! ## In steps -/

def spansFrom (step hi : Nat) : Nat → Nat → List (Nat × Nat)
  | 0, _ => []
  | fuel + 1, lo =>
    if lo < hi then (lo, min (lo + step) hi) :: spansFrom step hi fuel (min (lo + step) hi) else []

/-- The windows of `while lo < hi` with `lo = min(lo + step, hi)`, from zero. Each is at least a point
wide, so `hi` rounds do. -/
def spans (step hi : Nat) : List (Nat × Nat) := spansFrom step hi hi 0

theorem flatMap_spansFrom (hstep : 0 < step) (fuel : Nat) :
    ∀ {lo : Nat}, lo ≤ hi → hi ≤ lo + fuel →
      (spansFrom step hi fuel lo).flatMap between = between (lo, hi) := by
  induction fuel with
  | zero =>
    intro lo hle hfuel
    have heq : lo = hi := by omega
    rw [spansFrom, heq, between, Nat.sub_self, List.range'_zero, List.flatMap_nil]
  | succ fuel ih =>
    intro lo hle hfuel
    rw [spansFrom]
    split
    case isTrue hlt =>
      rw [List.flatMap_cons, ih (by omega) (by omega)]
      exact between_append (by omega) (by omega)
    case isFalse hge =>
      have heq : lo = hi := by omega
      rw [heq, between, Nat.sub_self, List.range'_zero, List.flatMap_nil]

theorem flatMap_spans (hstep : 0 < step) (hi : Nat) :
    (spans step hi).flatMap between = List.range hi := by
  rw [spans, flatMap_spansFrom hstep hi (Nat.zero_le hi) (by omega), List.range_eq_range']
  rfl

theorem spansFrom_self (fuel : Nat) : spansFrom step hi fuel hi = [] := by
  cases fuel with
  | zero => rfl
  | succ fuel => rw [spansFrom, if_neg (lt_irrefl hi)]

theorem mem_spansFrom (hstep : 0 < step) {fuel : Nat} : ∀ {lo : Nat}, step ∣ lo →
    s ∈ spansFrom step hi fuel lo → s.1 < s.2 ∧ s.2 ≤ hi ∧ step ∣ s.1 ∧ (step ∣ s.2 ∨ s.2 = hi) := by
  induction fuel with
  | zero =>
    intro lo _ hs
    cases hs
  | succ fuel ih =>
    intro lo hlo hs
    rw [spansFrom] at hs
    split at hs
    case isTrue hlt =>
      rcases le_total (lo + step) hi with hle | hle
      · have hnext : step ∣ lo + step := Nat.dvd_add hlo (dvd_refl step)
        rw [min_eq_left hle] at hs
        rcases List.mem_cons.mp hs with rfl | hs
        · exact ⟨Nat.lt_add_of_pos_right hstep, hle, hlo, .inl hnext⟩
        · exact ih hnext hs
      · rw [min_eq_right hle, spansFrom_self] at hs
        obtain rfl := List.mem_singleton.mp hs
        exact ⟨hlt, le_refl hi, hlo, .inr rfl⟩
    case isFalse => cases hs

/-- A window of the loop is not empty, lies in the interval, and starts and ends on a multiple of the
step, or at the end. -/
theorem mem_spans (hstep : 0 < step) (hs : s ∈ spans step hi) :
    s.1 < s.2 ∧ s.2 ≤ hi ∧ step ∣ s.1 ∧ (step ∣ s.2 ∨ s.2 = hi) :=
  mem_spansFrom hstep (Nat.dvd_zero step) hs

/-- What is done window by window is done once for every point. -/
theorem bind_spans (hstep : 0 < step) (hi : Nat) (f : Nat → Multiset β) :
    ((spans step hi : Multiset (Nat × Nat)).bind fun s => (between s : Multiset Nat).bind f) =
      (Multiset.range hi).bind f := by
  rw [← bind_assoc, coe_bind, flatMap_spans hstep]
  rfl

/-! ## In pieces -/

/-- `n` windows of at most `width` from `lo` on; those past the end are empty. -/
def cuts (width hi : Nat) : Nat → Nat → List (Nat × Nat)
  | 0, _ => []
  | n + 1, lo => (lo, lo + min (hi - lo) width) :: cuts width hi n (lo + min (hi - lo) width)

theorem flatMap_cuts (n : Nat) : ∀ {lo : Nat}, lo ≤ hi → hi ≤ lo + n * width →
    (cuts width hi n lo).flatMap between = between (lo, hi) := by
  induction n with
  | zero =>
    intro lo hle hwide
    have heq : lo = hi := by omega
    rw [cuts, heq, between, Nat.sub_self, List.range'_zero, List.flatMap_nil]
  | succ n ih =>
    intro lo hle hwide
    rw [Nat.succ_mul] at hwide
    have hrest : hi ≤ lo + min (hi - lo) width + n * width := by omega
    rw [cuts, List.flatMap_cons, ih (by omega) hrest]
    exact between_append (by omega) (by omega)

theorem bind_cuts (hwide : hi ≤ n * width) (f : Nat → Multiset β) :
    ((cuts width hi n 0 : Multiset (Nat × Nat)).bind fun s => (between s : Multiset Nat).bind f) =
      (Multiset.range hi).bind f := by
  rw [← bind_assoc, coe_bind, flatMap_cuts n (Nat.zero_le hi) (by omega), between,
    Nat.sub_zero, ← List.range_eq_range']
  rfl

@[simp] theorem length_cuts (n : Nat) : ∀ lo : Nat, (cuts width hi n lo).length = n := by
  induction n with
  | zero => exact fun _ => rfl
  | succ n ih =>
    intro lo
    rw [cuts, List.length_cons, ih]

/-- Where the window number `i` starts, and how far it goes. -/
theorem getElem?_cuts {i : Nat} (n : Nat) : ∀ {lo : Nat}, lo ≤ hi → (cuts width hi n lo)[i]? = some s →
    s.1 = min (lo + i * width) hi ∧ s.2 = min (lo + (i + 1) * width) hi := by
  induction i generalizing n with
  | zero =>
    intro lo hle hs
    cases n with
    | zero => cases hs
    | succ n =>
      cases hs
      refine ⟨by dsimp only; omega, by dsimp only; omega⟩
  | succ i ih =>
    intro lo hle hs
    cases n with
    | zero => cases hs
    | succ n =>
      obtain ⟨hfst, hsnd⟩ := ih n (by omega) hs
      have hsplit : (i + 1) * width = i * width + width := Nat.succ_mul i width
      have hsplit' : (i + 1 + 1) * width = (i + 1) * width + width := Nat.succ_mul (i + 1) width
      refine ⟨by omega, by omega⟩

/-! ## Row by row -/

/-- An entry of a table of `m` rows of `n` entries, laid out row by row. -/
theorem getD_rows {m a i j : Nat} (f : Nat → Nat → α) (d : α) (hj : j < m) (hi : i < n) :
    ((List.range m).flatMap fun j => (List.range' a n).map (f j)).getD (j * n + i) d = f j (a + i) := by
  have hlen : ∀ k, ((List.range k).flatMap fun j => (List.range' a n).map (f j)).length = k * n := by
    intro k
    induction k with
    | zero => rw [List.range_zero, List.flatMap_nil, List.length_nil, Nat.zero_mul]
    | succ k ih =>
      rw [List.range_succ, List.flatMap_append, List.length_append, ih, List.flatMap_singleton,
        List.length_map, List.length_range', Nat.succ_mul]
  induction m with
  | zero => exact absurd hj (Nat.not_lt_zero j)
  | succ m ih =>
    rw [List.range_succ, List.flatMap_append, List.flatMap_singleton]
    rcases Nat.lt_succ_iff_lt_or_eq.mp hj with hlt | rfl
    · have hin : j * n + i < m * n := by
        have := Nat.mul_le_mul_right n (Nat.succ_le_of_lt hlt)
        rw [Nat.succ_mul] at this
        omega
      rw [List.getD_append _ _ _ _ (by rw [hlen]; exact hin)]
      exact ih hlt
    · rw [List.getD_append_right _ _ _ _ (by rw [hlen]; omega), hlen, Nat.add_sub_cancel_left,
        List.getD_eq_getElem?_getD, List.getElem?_map, List.getElem?_range' (by simpa using hi)]
      simp

end Tiling
