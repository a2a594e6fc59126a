import Mathlib.LinearAlgebra.Matrix.NonsingularInverse

/-!
# Gauss-Jordan elimination

A square matrix over a field and the row operations applied to it, side by side. Rows
need not move: the pivots are a partial injection from the columns to the rows. Once
every column has a pivot, the recorded operations hold the inverse, row by pivot; a
column with no pivot left has a kernel vector of the matrix.
-/

namespace NzbFast.Gf

open Function Finset Finset

variable {ι F : Type*}

/-- A matrix in reduction and the operations so far. -/
@[ext]
structure Tableau (ι F : Type*) where
  a : ι → ι → F
  inv : ι → ι → F

namespace Tableau

section Operations

variable [DecidableEq ι] [Field F]

/-- Row `p` times `f`. -/
def scale (s : Tableau ι F) (p : ι) (f : F) : Tableau ι F :=
  ⟨update s.a p (f • s.a p), update s.inv p (f • s.inv p)⟩

/-- Every row but `p` less what it has of row `p` in column `col`. -/
def clear (s : Tableau ι F) (p col : ι) : Tableau ι F where
  a r := if r = p then s.a r else s.a r - s.a r col • s.a p
  inv r := if r = p then s.inv r else s.inv r - s.a r col • s.inv p

theorem clear_a (s : Tableau ι F) (p col r : ι) :
    (s.clear p col).a r = if r = p then s.a r else s.a r - s.a r col • s.a p := rfl

theorem clear_inv (s : Tableau ι F) (p col r : ι) :
    (s.clear p col).inv r = if r = p then s.inv r else s.inv r - s.a r col • s.inv p := rfl

def permute (s : Tableau ι F) (e : ι ≃ ι) : Tableau ι F := ⟨s.a ∘ e, s.inv ∘ e⟩

omit [DecidableEq ι] [Field F] in
theorem permute_a (s : Tableau ι F) (e : ι ≃ ι) (r : ι) : (s.permute e).a r = s.a (e r) := rfl

theorem scale_one {s : Tableau ι F} {p col : ι} (hp : s.a p col ≠ 0) :
    (s.scale p (s.a p col)⁻¹).a p col = 1 := by
  unfold scale
  dsimp only
  rw [update_self, Pi.smul_apply, smul_eq_mul, inv_mul_cancel₀ hp]

end Operations

/-! ## What the operations keep -/

/-- Reached from `A` by row operations that can be undone. -/
structure From [Fintype ι] [Field F] (s : Tableau ι F) (A : ι → ι → F) : Prop where
  factor : ∀ r j, ∑ k, s.inv r k * A k j = s.a r j
  kernel : ∀ v : ι → F, (∀ r, ∑ j, s.a r j * v j = 0) → ∀ r, ∑ j, A r j * v j = 0

/-- The columns that have a pivot are reduced. -/
structure Reduced [DecidableEq ι] [Field F] (s : Tableau ι F) (piv : ι → Option ι) : Prop where
  column : ∀ {col p}, piv col = some p → ∀ r, s.a r col = if r = p then 1 else 0
  injective : ∀ {col col' p}, piv col = some p → piv col' = some p → col = col'

section From

variable [Fintype ι] [DecidableEq ι] [Field F] {s : Tableau ι F} {A : ι → ι → F}

theorem from_start (A : ι → ι → F) : From ⟨A, fun r k => if k = r then 1 else 0⟩ A where
  factor r j := by
    simp only [ite_mul, one_mul, zero_mul]
    rw [sum_ite_eq', if_pos (mem_univ r)]
  kernel _ h := h

theorem From.scale (h : s.From A) (p : ι) {f : F} (hf : f ≠ 0) : (s.scale p f).From A where
  factor r j := by
    unfold Tableau.scale
    dsimp only
    by_cases hr : r = p
    · rw [hr, update_self, update_self, Pi.smul_apply, smul_eq_mul, ← h.factor p j, mul_sum]
      exact sum_congr rfl fun k _ => by rw [Pi.smul_apply, smul_eq_mul, mul_assoc]
    · rw [update_of_ne hr, update_of_ne hr]
      exact h.factor r j
  kernel v hv := by
    refine h.kernel v fun r => ?_
    have hrow := hv r
    unfold Tableau.scale at hrow
    dsimp only at hrow
    by_cases hr : r = p
    · rw [hr, update_self] at hrow
      simp only [Pi.smul_apply, smul_eq_mul, mul_assoc] at hrow
      rw [← mul_sum] at hrow
      rw [hr]
      exact (mul_eq_zero.mp hrow).resolve_left hf
    · rwa [update_of_ne hr] at hrow

theorem From.clear (h : s.From A) (p col : ι) : (s.clear p col).From A where
  factor r j := by
    unfold Tableau.clear
    dsimp only
    split
    case isTrue => exact h.factor r j
    case isFalse =>
      rw [Pi.sub_apply, Pi.smul_apply, smul_eq_mul, ← h.factor r j, ← h.factor p j, mul_sum,
        ← sum_sub_distrib]
      exact sum_congr rfl fun k _ => by rw [Pi.sub_apply, Pi.smul_apply, smul_eq_mul]; ring
  kernel v hv := by
    unfold Tableau.clear at hv
    dsimp only at hv
    have hp : ∑ j, s.a p j * v j = 0 := by simpa using hv p
    refine h.kernel v fun r => ?_
    have hrow := hv r
    by_cases hr : r = p
    · rwa [hr]
    · rw [if_neg hr] at hrow
      -- the old row is the new one and a multiple of the pivot row
      calc ∑ j, s.a r j * v j
          = ∑ j, (s.a r - s.a r col • s.a p) j * v j + s.a r col * ∑ j, s.a p j * v j := by
            rw [mul_sum, ← sum_add_distrib]
            exact sum_congr rfl fun j _ => by rw [Pi.sub_apply, Pi.smul_apply, smul_eq_mul]; ring
        _ = 0 := by rw [hrow, hp, mul_zero, add_zero]

omit [DecidableEq ι] in
theorem From.permute (h : s.From A) (e : ι ≃ ι) : (s.permute e).From A where
  factor r := h.factor (e r)
  kernel v hv := h.kernel v fun r => by
    have hrow := hv (e.symm r)
    unfold Tableau.permute at hrow
    simpa using hrow

end From

section Reduced

variable [DecidableEq ι] [Field F] {s : Tableau ι F} {piv : ι → Option ι}

theorem reduced_start (s : Tableau ι F) : s.Reduced fun _ => none :=
  ⟨fun h => (by cases h), fun h => (by cases h)⟩

theorem Reduced.scale (h : s.Reduced piv) {p : ι} (hp : ∀ col, piv col ≠ some p) (f : F) :
    (s.scale p f).Reduced piv where
  column {col q} hq r := by
    unfold Tableau.scale
    dsimp only
    by_cases hr : r = p
    · have hpq : p ≠ q := fun heq => hp col (heq ▸ hq)
      rw [hr, update_self, Pi.smul_apply, h.column hq, if_neg hpq, smul_zero]
    · rw [update_of_ne hr]
      exact h.column hq r
  injective := h.injective

/-- A pivot step reduces its column and leaves the reduced ones. -/
theorem Reduced.clear (h : s.Reduced piv) {p col : ι} (hp : ∀ col, piv col ≠ some p)
    (hone : s.a p col = 1) : (s.clear p col).Reduced (update piv col (some p)) where
  column {c q} hq r := by
    unfold Tableau.clear
    dsimp only
    by_cases hc : c = col
    · rw [hc, update_self, Option.some.injEq] at hq
      subst hc hq
      split
      case isTrue hr => rw [hr, hone]
      case isFalse => rw [Pi.sub_apply, Pi.smul_apply, smul_eq_mul, hone, mul_one, sub_self]
    · rw [update_of_ne hc] at hq
      have hpq : p ≠ q := fun heq => hp c (heq ▸ hq)
      split
      case isTrue => exact h.column hq r
      case isFalse =>
        rw [Pi.sub_apply, Pi.smul_apply, h.column hq, h.column hq, if_neg hpq, smul_zero, sub_zero]
  injective {c c' q} hq hq' := by
    by_cases hc : c = col
    · by_cases hc' : c' = col
      · rw [hc, hc']
      · rw [hc, update_self] at hq
        rw [update_of_ne hc'] at hq'
        exact absurd (hq'.trans hq.symm) (hp c')
    · rw [update_of_ne hc] at hq
      by_cases hc' : c' = col
      · rw [hc', update_self] at hq'
        exact absurd (hq.trans hq'.symm) (hp c)
      · rw [update_of_ne hc'] at hq'
        exact h.injective hq hq'

end Reduced

/-! ## What is left at the end -/

section Outcome

variable [Fintype ι] [DecidableEq ι] [Field F] {s : Tableau ι F} {A : ι → ι → F} {piv : ι → Option ι}

theorem Reduced.left_inverse (h : s.Reduced piv) (hA : s.From A) {p : ι → ι}
    (hp : ∀ col, piv col = some (p col)) :
    (Matrix.of fun col => s.inv (p col)) * Matrix.of A = 1 := by
  ext col j
  rw [Matrix.mul_apply]
  simp only [Matrix.of_apply]
  rw [hA.factor, h.column (hp j), Matrix.one_apply]
  exact if_congr ⟨fun heq => h.injective (hp col) (heq ▸ hp j), fun heq => heq ▸ rfl⟩ rfl rfl

/-- A column with nothing left outside the pivot rows is a combination of the reduced ones. -/
theorem Reduced.singular (h : s.Reduced piv) (hA : s.From A) {col : ι} (hcol : piv col = none)
    (hzero : ∀ r, (∀ c, piv c ≠ some r) → s.a r col = 0) : ∃ v : ι → F, v ≠ 0 ∧
      Matrix.mulVec (Matrix.of A) v = 0 := by
  refine ⟨fun j => if j = col then 1 else match piv j with
    | some p => -s.a p col
    | none => 0, fun hv => ?_, funext fun r => hA.kernel _ (fun r => ?_) r⟩
  · have hone := congrFun hv col
    simp at hone
  · have hterm : ∀ j, s.a r j * (if j = col then 1 else match piv j with
        | some p => -s.a p col
        | none => 0) = (if j = col then s.a r col else 0) + if piv j = some r then -s.a r col else 0 := by
      intro j
      by_cases hj : j = col
      · rw [if_pos hj, if_pos hj, hj, hcol, if_neg (Option.some_ne_none r).symm, mul_one, add_zero]
      · rw [if_neg hj, if_neg hj, zero_add]
        cases hp : piv j with
        | none => rw [if_neg (Option.some_ne_none r).symm]; exact mul_zero _
        | some p =>
          rw [h.column hp]
          by_cases hr : r = p
          · rw [if_pos hr, one_mul, hr, if_pos rfl]
          · rw [if_neg hr, zero_mul, if_neg fun heq => hr (Option.some.inj heq).symm]
    rw [sum_congr rfl fun j _ => hterm j, sum_add_distrib, sum_ite_eq',
      if_pos (mem_univ col)]
    by_cases hr : ∃ c, piv c = some r
    · obtain ⟨c, hc⟩ := hr
      rw [sum_eq_single_of_mem c (mem_univ c) fun j _ hj =>
        if_neg fun heq => hj (h.injective heq hc), if_pos hc, add_neg_cancel]
    · rw [hzero r (not_exists.mp hr), zero_add]
      exact sum_eq_zero fun j _ => if_neg (not_exists.mp hr j)

theorem left_inverse_unique {X Y A : Matrix ι ι F} (hX : X * A = 1) (hY : Y * A = 1) : X = Y :=
  (left_inv_eq_right_inv hY (mul_eq_one_comm.mp hX)).symm

theorem mulVec_injective {X A : Matrix ι ι F} (hX : X * A = 1) {v : ι → F} (hv : A.mulVec v = 0) :
    v = 0 := by
  rw [← Matrix.one_mulVec v, ← hX, ← Matrix.mulVec_mulVec, hv, Matrix.mulVec_zero]

end Outcome

end Tableau

end NzbFast.Gf
