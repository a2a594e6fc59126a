import NzbFast.Gf.Blocks
import Mathlib.Algebra.Polynomial.BigOperators

/-!
# Loops over coefficients

Polynomials over a commutative ring, held as their sequences of coefficients:
multiplication by a linear factor in place, division by one, Horner's rule, and
the interpolation basis the division leads to.
-/

namespace NzbFast.Gf

open Function Polynomial Finset

variable {R : Type*} [CommRing R]

/-! ## Lists of coefficients -/

noncomputable def ofCoeffs (l : List R) : R[X] :=
  ∑ i ∈ Finset.range l.length, monomial i (l.getD i 0)

theorem getD_eq_zero {l : List R} {i : Nat} (h : l.length ≤ i) : l.getD i 0 = 0 := by
  rw [List.getD_eq_getElem?_getD, List.getElem?_eq_none h, Option.getD_none]

@[simp] theorem coeff_ofCoeffs (l : List R) (i : Nat) : (ofCoeffs l).coeff i = l.getD i 0 := by
  rw [ofCoeffs, finsetSum_coeff]
  simp only [coeff_monomial]
  rw [sum_ite_eq']
  split
  case isTrue => rfl
  case isFalse h =>
    rw [mem_range, not_lt] at h
    exact (getD_eq_zero h).symm

theorem degree_ofCoeffs_lt (l : List R) : (ofCoeffs l).degree < l.length :=
  (degree_lt_iff_coeff_zero _ _).mpr fun i hi => by rw [coeff_ofCoeffs, getD_eq_zero hi]

variable {m n : Nat} {P : R[X]}

theorem eval_ofCoeffs {l : List R} (h : l.length ≤ n) (x : R) :
    (ofCoeffs l).eval x = ∑ i ∈ Finset.range n, l.getD i 0 * x ^ i := by
  obtain ⟨d, rfl⟩ := Nat.exists_eq_add_of_le h
  rw [sum_range_add, ofCoeffs, eval_finsetSum, sum_eq_zero (s := range d)
    fun i _ => ?_, add_zero]
  · exact sum_congr rfl fun i _ => eval_monomial
  · rw [getD_eq_zero (Nat.le_add_right _ _), zero_mul]

/-- Lists of one length are told apart by their polynomials. -/
theorem eq_of_ofCoeffs {l l' : List R} (hlen : l.length = l'.length) (h : ofCoeffs l = ofCoeffs l') :
    l = l' := by
  refine List.ext_getElem hlen fun i hi hi' => ?_
  have hcoeff := congrArg (fun P => P.coeff i) h
  simp only [coeff_ofCoeffs, List.getD_eq_getElem?_getD, List.getElem?_eq_getElem hi,
    List.getElem?_eq_getElem hi', Option.getD_some] at hcoeff
  exact hcoeff

/-- The first coefficients of a polynomial of small degree are all of it. -/
theorem ofCoeffs_map_coeff (h : P.degree < n) : ofCoeffs ((List.range n).map P.coeff) = P := by
  ext i
  rw [coeff_ofCoeffs, List.getD_eq_getElem?_getD, List.getElem?_map]
  by_cases hi : i < n
  · rw [List.getElem?_range hi]
    rfl
  · rw [List.getElem?_eq_none (by simpa using hi), (degree_lt_iff_coeff_zero _ _).mp h i (by omega)]
    rfl

theorem eval_eq_sum (h : P.degree < n) (x : R) :
    P.eval x = ∑ i ∈ Finset.range n, P.coeff i * x ^ i := by
  have hlen : ((List.range n).map P.coeff).length ≤ n := by simp
  rw [← ofCoeffs_map_coeff h, eval_ofCoeffs hlen]
  exact sum_congr rfl fun i _ => by rw [coeff_ofCoeffs]

/-! ## A linear factor -/

/-- Multiplies by `z + g` in place, walking down from `deg`. -/
def mulLinear (p : Nat → R) (deg : Nat) (g : R) : Nat → R :=
  let p := update p (deg + 1) (p deg)
  let p := (List.range deg).reverse.foldl (fun p i => update p (i + 1) (p i + g * p (i + 1))) p
  update p 0 (g * p 0)

/-- Divides by `z - g`, the quotient having `m + 1` coefficients. -/
def divLinear (p : Nat → R) (m : Nat) (g : R) : Nat → R :=
  (List.range m).reverse.foldl (fun q i => update q i (p (i + 1) + g * q (i + 1)))
    (update (fun _ => 0) m (p (m + 1)))

/-- Horner's rule on `m` coefficients. -/
def horner (q : Nat → R) (m : Nat) (g : R) : R :=
  (List.range m).reverse.foldl (fun d i => g * d + q i) 0

theorem foldl_shift (g : R) (n : Nat) : ∀ (p : Nat → R) (j : Nat),
    (List.range n).reverse.foldl (fun p i => update p (i + 1) (p i + g * p (i + 1))) p j =
      if 1 ≤ j ∧ j ≤ n then p (j - 1) + g * p j else p j := by
  induction n with
  | zero => exact fun p j => (if_neg (by omega)).symm
  | succ n ih =>
    intro p j
    rw [range_reverse_succ, List.foldl_cons, ih]
    by_cases hlast : j = n + 1
    · rw [if_neg (by omega), if_pos (by omega), hlast, update_self, Nat.add_sub_cancel]
    · rw [update_of_ne hlast]
      by_cases hj : 1 ≤ j ∧ j ≤ n
      · rw [if_pos hj, if_pos (by omega), update_of_ne (by omega)]
      · rw [if_neg hj, if_neg (by omega)]

theorem mulLinear_coeff {deg : Nat} (h : P.natDegree ≤ deg) (g : R) :
    mulLinear P.coeff deg g = (P * (X + C g)).coeff := by
  funext j
  have hbeyond : ∀ j, deg < j → P.coeff j = 0 := fun j hj =>
    coeff_eq_zero_of_natDegree_lt (lt_of_le_of_lt h hj)
  rw [mul_add, coeff_add, coeff_mul_C]
  unfold mulLinear
  cases j with
  | zero =>
    rw [update_self, foldl_shift, if_neg (by omega), update_of_ne (by omega), coeff_mul_X_zero,
      zero_add, mul_comm]
  | succ j =>
    rw [update_of_ne (Nat.succ_ne_zero j), foldl_shift, coeff_mul_X, Nat.succ_sub_one]
    rcases lt_trichotomy j deg with hlt | rfl | hgt
    · rw [if_pos (by omega), update_of_ne (by omega), update_of_ne (by omega), mul_comm]
    · rw [if_neg (by omega), update_self, hbeyond (j + 1) (by omega), zero_mul, add_zero]
    · rw [if_neg (by omega), update_of_ne (by omega), hbeyond j hgt, hbeyond (j + 1) (by omega),
        zero_mul, add_zero]

omit [CommRing R] in
/-- A loop that writes the coefficients of `Q` from the top down. -/
theorem foldl_down {Q : Nat → R} (step : (Nat → R) → Nat → R)
    (hstep : ∀ q, ∀ i < m, (∀ j, i < j → j ≤ m → q j = Q j) → step q i = Q i) :
    ∀ n ≤ m, ∀ q, (∀ j, n ≤ j → j ≤ m → q j = Q j) → ∀ j ≤ m,
      (List.range n).reverse.foldl (fun q i => update q i (step q i)) q j = Q j := by
  intro n
  induction n with
  | zero => exact fun _ q hq j hj => hq j (Nat.zero_le j) hj
  | succ n ih =>
    intro hn q hq
    rw [range_reverse_succ, List.foldl_cons]
    refine ih (by omega) _ fun j hnj hjm => ?_
    by_cases h : j = n
    · rw [h, update_self, hstep q n (by omega) hq]
    · rw [update_of_ne h, hq j (by omega) hjm]

theorem divLinear_coeff {Q : R[X]} (h : Q.natDegree ≤ m) (g : R) {i : Nat} (hi : i ≤ m) :
    divLinear (Q * (X - C g)).coeff m g i = Q.coeff i := by
  have hcoeff : ∀ i, (Q * (X - C g)).coeff (i + 1) = Q.coeff i - Q.coeff (i + 1) * g := fun _ =>
    coeff_mul_X_sub_C
  refine foldl_down (m := m) (fun q i => (Q * (X - C g)).coeff (i + 1) + g * q (i + 1))
    (fun q i hi hq => ?_) m (le_refl m) _ (fun j hmj hjm => ?_) i hi
  · rw [hcoeff, hq (i + 1) (by omega) (by omega)]
    ring
  · have hlast : Q.coeff (m + 1) = 0 := coeff_eq_zero_of_natDegree_lt (by omega)
    rw [le_antisymm hjm hmj, update_self, hcoeff, hlast, zero_mul, sub_zero]

theorem horner_eq_sum (q : Nat → R) (g : R) (m : Nat) :
    horner q m g = ∑ i ∈ Finset.range m, q i * g ^ i := by
  have hfold : ∀ d, (List.range m).reverse.foldl (fun d i => g * d + q i) d =
      d * g ^ m + ∑ i ∈ range m, q i * g ^ i := by
    induction m with
    | zero => exact fun d => by simp
    | succ m ih =>
      intro d
      rw [range_reverse_succ, List.foldl_cons, ih, sum_range_succ]
      ring
  rw [horner, hfold, zero_mul, zero_add]

theorem horner_congr {q q' : Nat → R} (h : ∀ i < m, q i = q' i) (g : R) :
    horner q m g = horner q' m g := by
  rw [horner_eq_sum, horner_eq_sum]
  exact sum_congr rfl fun i hi => by rw [h i (mem_range.mp hi)]

theorem horner_coeff {Q : R[X]} (h : Q.natDegree < m) (g : R) :
    horner Q.coeff m g = Q.eval g := by rw [horner_eq_sum, eval_eq_sum_range' h]

/-! ## The product of linear factors -/

theorem natDegree_factor_le (g : R) : (X + C g).natDegree ≤ 1 := by
  rw [← neg_neg g, C_neg, ← sub_eq_add_neg]
  exact natDegree_X_sub_C_le _

/-- The product of `z + g` for each `g`, one factor after the other. -/
theorem foldl_mulLinear (gs : List R) :
    gs.zipIdx.foldl (fun p g => mulLinear p g.2 g.1) (coeff 1) =
      ((gs.map fun g => X + C g).prod).coeff ∧
    ((gs.map fun g => X + C g).prod).natDegree ≤ gs.length := by
  induction gs using List.reverseRecOn with
  | nil => exact ⟨rfl, natDegree_one.le⟩
  | append_singleton gs g ih =>
    obtain ⟨hfold, hdeg⟩ := ih
    rw [List.zipIdx_append, List.foldl_append, hfold, List.map_append, List.prod_append,
      List.map_singleton, List.prod_singleton, List.length_append]
    refine ⟨?_, ?_⟩
    · rw [List.zipIdx_singleton, List.foldl_cons, List.foldl_nil, zero_add, mulLinear_coeff hdeg]
    · calc ((gs.map fun g => X + C g).prod * (X + C g)).natDegree
          ≤ ((gs.map fun g => X + C g).prod).natDegree + (X + C g).natDegree := natDegree_mul_le
        _ ≤ gs.length + 1 := add_le_add hdeg (natDegree_factor_le g)

/-- The product without the factor at `c`. -/
noncomputable def others {m : Nat} (g : Fin m → R) (c : Fin m) : R[X] :=
  ∏ k ∈ Finset.univ.erase c, (X + C (g k))

theorem others_mul (g : Fin m → R) (c : Fin m) : others g c * (X + C (g c)) = ∏ k, (X + C (g k)) :=
  prod_erase_mul _ _ (mem_univ c)

theorem natDegree_others_le (g : Fin m → R) (c : Fin m) : (others g c).natDegree ≤ m - 1 := by
  calc (others g c).natDegree
      ≤ ∑ k ∈ univ.erase c, natDegree (X + C (g k)) := natDegree_prod_le _ _
    _ ≤ ∑ k ∈ univ.erase c, 1 := sum_le_sum fun k _ => natDegree_factor_le _
    _ = m - 1 := by simp

end NzbFast.Gf
