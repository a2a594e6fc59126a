import Mathlib.Algebra.CharP.Two
import Mathlib.Algebra.BigOperators.Intervals
import Mathlib.Data.Nat.Bitwise
import Mathlib.Tactic.Ring

/-!
# Cantor bases

A field of characteristic two with a Cantor basis. The subspace polynomials of the
levels are additive with binomial coefficients; that of a level is 1 at its own basis
vector and 0 at the earlier ones, so the sums of basis vectors are distinct points.
-/

namespace NzbFast.Gf

open Function Finset Finset

variable {F : Type*} [Field F] [CharP F 2]

/-! ## The subspace polynomials -/

/-- The subspace polynomial of a level: the previous one, squared and added to itself. -/
def subspace : Nat → F → F
  | 0, x => x
  | i + 1, x => subspace i x * subspace i x + subspace i x

@[simp] theorem subspace_add (i : Nat) (x y : F) :
    subspace i (x + y) = subspace i x + subspace i y := by
  induction i with
  | zero => rfl
  | succ i ih =>
    rw [subspace, subspace, subspace, ih, CharTwo.add_mul_self]
    ring

def subspaceHom (i : Nat) : F →+ F := AddMonoidHom.mk' (subspace i) (subspace_add i)

@[simp] theorem subspace_zero (i : Nat) : subspace i (0 : F) = 0 := (subspaceHom i).map_zero

theorem subspace_sum {ι : Type*} (i : Nat) (s : Finset ι) (f : ι → F) :
    subspace i (∑ k ∈ s, f k) = ∑ k ∈ s, subspace i (f k) := map_sum (subspaceHom i) f s

omit [CharP F 2] in
theorem subspace_succ' (i : Nat) (x : F) : subspace (i + 1) x = subspace i (x * x + x) := by
  induction i with
  | zero => rfl
  | succ i ih => rw [subspace, ih, subspace]

theorem cast_mul_self (n : Nat) : (n : F) * n = n := by
  rcases CharTwo.natCast_cases (R := F) n with h | h <;> rw [h]
  · exact mul_zero 0
  · exact mul_one 1

theorem subspace_eq_sum (i : Nat) (x : F) :
    subspace i x = ∑ j ∈ range (i + 1), (i.choose j : F) * x ^ 2 ^ j := by
  induction i with
  | zero => simp [subspace]
  | succ i ih =>
    have hsq : subspace i x * subspace i x =
        ∑ j ∈ range (i + 1), (i.choose j : F) * x ^ 2 ^ (j + 1) := by
      rw [ih, CharTwo.sum_mul_self]
      refine sum_congr rfl fun j _ => ?_
      rw [mul_mul_mul_comm, cast_mul_self, ← pow_add, ← two_mul, ← pow_succ']
    have hlast : ∑ j ∈ range (i + 1), (i.choose j : F) * x ^ 2 ^ j =
        ∑ j ∈ range (i + 1), (i.choose (j + 1) : F) * x ^ 2 ^ (j + 1) + x := by
      rw [sum_range_succ', sum_range_succ _ i, Nat.choose_succ_self]
      simp
    rw [subspace, hsq, ih, hlast, sum_range_succ' _ (i + 1), ← add_assoc, ← sum_add_distrib]
    congr 1
    · refine sum_congr rfl fun j _ => ?_
      rw [Nat.choose_succ_succ, Nat.cast_add, add_mul]
    · simp

/-! ## The basis and its points -/

/-- A Cantor basis of `levels` vectors. -/
structure Cantor (c : Nat → F) (levels : Nat) : Prop where
  one : c 0 = 1
  step : ∀ i, i + 1 < levels → c (i + 1) * c (i + 1) + c (i + 1) = c i

/-- The sum of the basis vectors an index selects. -/
def point (c : Nat → F) (levels p : Nat) : F :=
  ∑ t ∈ range levels, if p.testBit t then c t else 0

variable {c : Nat → F} {levels : Nat}

namespace Cantor

omit [CharP F 2] in
theorem subspace_self (hc : Cantor c levels) {i : Nat} (hi : i < levels) : subspace i (c i) = 1 := by
  induction i with
  | zero => exact hc.one
  | succ i ih => rw [subspace_succ', hc.step i hi, ih (by omega)]

theorem subspace_lt (hc : Cantor c levels) {i j : Nat} (hj : j < i) (hi : i ≤ levels) :
    subspace i (c j) = 0 := by
  induction i generalizing j with
  | zero => exact absurd hj (Nat.not_lt_zero j)
  | succ i ih =>
    rw [subspace_succ']
    cases j with
    | zero => rw [hc.one, mul_one, CharTwo.add_self_eq_zero, subspace_zero]
    | succ j => rw [hc.step j (by omega), ih (by omega) (by omega)]

end Cantor

theorem point_xor (c : Nat → F) (levels p q : Nat) :
    point c levels (p ^^^ q) = point c levels p + point c levels q := by
  unfold point
  rw [← sum_add_distrib]
  refine sum_congr rfl fun t _ => ?_
  rw [Nat.testBit_xor]
  cases p.testBit t <;> cases q.testBit t <;> simp [CharTwo.add_self_eq_zero]

omit [CharP F 2] in
theorem point_two_pow {t : Nat} (ht : t < levels) : point c levels (2 ^ t) = c t := by
  unfold point
  rw [sum_eq_single t, if_pos (Nat.testBit_two_pow_self)]
  · intro u _ hu
    rw [Nat.testBit_two_pow_of_ne (Ne.symm hu)]
    exact if_neg Bool.false_ne_true
  · exact fun h => absurd (mem_range.mpr ht) h

omit [CharP F 2] in
/-- An index has the point of the vectors that can select it. -/
theorem point_levels {k p : Nat} (hk : k ≤ levels) (hp : p < 2 ^ k) :
    point c levels p = point c k p := by
  obtain ⟨d, rfl⟩ := Nat.exists_eq_add_of_le hk
  unfold point
  rw [sum_range_add, sum_eq_zero (s := range d) fun t _ => ?_, add_zero]
  have hlt : p < 2 ^ (k + t) := Nat.lt_of_lt_of_le hp (Nat.pow_le_pow_right (by decide) (by omega))
  rw [Nat.testBit_lt_two_pow hlt, if_neg Bool.false_ne_true]

/-- An aligned base and an offset in its block do not overlap. -/
theorem point_add {i base r : Nat} (hbase : 2 ^ i ∣ base) (hr : r < 2 ^ i) :
    point c levels (base + r) = point c levels base + point c levels r := by
  obtain ⟨b, rfl⟩ := hbase
  have hxor : 2 ^ i * b + r = (2 ^ i * b) ^^^ r := by
    refine Nat.eq_of_testBit_eq fun t => ?_
    rw [Nat.testBit_two_pow_mul_add b hr, Nat.testBit_xor, Nat.testBit_two_pow_mul]
    split
    case isTrue h => simp [not_le.mpr h]
    case isFalse h =>
      have hlt : r < 2 ^ t := lt_of_lt_of_le hr (Nat.pow_le_pow_right (by decide) (by omega))
      simp [not_lt.mp h, Nat.testBit_lt_two_pow hlt]
  rw [hxor, point_xor]

theorem subspace_point (hc : Cantor c levels) {i r : Nat} (hi : i ≤ levels) (hr : r < 2 ^ i) :
    subspace i (point c levels r) = 0 := by
  unfold point
  rw [subspace_sum]
  refine sum_eq_zero fun t _ => ?_
  by_cases ht : t < i
  · split
    · exact hc.subspace_lt ht hi
    · exact subspace_zero i
  · have hlt : r < 2 ^ t := lt_of_lt_of_le hr (Nat.pow_le_pow_right (by decide) (by omega))
    rw [Nat.testBit_lt_two_pow hlt, if_neg Bool.false_ne_true, subspace_zero]

theorem point_injOn (hc : Cantor c levels) {p q : Nat} (hp : p < 2 ^ levels) (hq : q < 2 ^ levels)
    (h : point c levels p = point c levels q) : p = q := by
  have hzero : point c levels (p ^^^ q) = 0 := by rw [point_xor, h, CharTwo.add_self_eq_zero]
  have hlt : p ^^^ q < 2 ^ levels := Nat.xor_lt_two_pow hp hq
  by_contra hne
  have hpos : p ^^^ q ≠ 0 := fun h0 => hne (Nat.xor_eq_zero_iff.mp h0)
  -- the leading basis vector is all that its level's polynomial keeps
  have hlog := Nat.log2_lt hpos |>.mpr hlt
  have hlow := Nat.log2_self_le hpos
  have hhigh : p ^^^ q < 2 ^ ((p ^^^ q).log2 + 1) := Nat.lt_log2_self
  generalize (p ^^^ q).log2 = t at hlog hlow hhigh
  obtain ⟨r, hr⟩ := Nat.exists_eq_add_of_le hlow
  have hsplit : point c levels (p ^^^ q) = c t + point c levels r := by
    rw [hr, point_add (dvd_refl _) (by omega), point_two_pow hlog]
  have hone : subspace t (point c levels (p ^^^ q)) = 1 := by
    rw [hsplit, subspace_add, hc.subspace_self hlog, subspace_point hc hlog.le (by omega), add_zero]
  rw [hzero, subspace_zero] at hone
  exact zero_ne_one hone

end NzbFast.Gf
