import NzbFast.Gf.Field
import Mathlib.LinearAlgebra.Vandermonde

/-!
# Relabelled progressions

`progression_parameters` (`crates/nzbkit-base/src/par2repair/reconstruct.rs`) turns
recovery exponents in an arithmetic progression into consecutive ones: the step
goes into the base logs, and the first exponent is divided by it. The division is
the loop of the extended Euclidean algorithm on the step and the group order,
which is composite, so a step may have no inverse.
-/

namespace NzbFast.Repair

open Gf16 Matrix
open List hiding lt_trans

/-! ## The relabelling -/

/-- `u32::checked_sub`. -/
def checkedSub (a b : UInt32) : Option UInt32 := if b ≤ a then some (a - b) else none

/-- The `while b != 0` loop: `a` and `x` at its end. -/
def euclid (a b x y : Int) : Int × Int :=
  if _h : b = 0 then (a, x)
  else
    let q := a.tdiv b
    euclid b (a - q * b) y (x - q * y)
termination_by b.natAbs
decreasing_by
  have hrem : a - a.tdiv b * b = a.tmod b := by
    rw [Int.tdiv_mul_self]
    omega
  rw [hrem, Int.natAbs_tmod]
  exact Nat.mod_lt _ (Int.natAbs_pos.mpr _h)

def progressionParameters (ks exps : List UInt32) : Option (List UInt32 × UInt32) :=
  match exps with
  | e0 :: e1 :: _ => do
    let step ← checkedSub e1 e0
    if step = 0 ∨ !(exps.zip exps.tail).all (fun w => checkedSub w.2 w.1 == some step) then none
    else
      let (a, x) := euclid (step.toNat % 65535) 65535 1 0
      if a ≠ 1 then none
      else
        let inverse := (x % 65535).toNat
        some (ks.map fun k => UInt32.ofNat (k.toNat * step.toNat % ORDER),
          UInt32.ofNat (e0.toNat * inverse % ORDER))
  | _ => none

/-! ## The inverse of the step -/

/-- The loop ends at the greatest common divisor and a cofactor of `s`. -/
theorem euclid_spec {s m a b x y : Int} (ha : 0 ≤ a) (hb : 0 ≤ b) (hx : m ∣ a - x * s)
    (hy : m ∣ b - y * s) :
    (euclid a b x y).1 = Int.gcd a b ∧ m ∣ (euclid a b x y).1 - (euclid a b x y).2 * s := by
  fun_induction euclid a b x y with
  | case1 a x y =>
    rw [Int.gcd_zero_right, Int.natAbs_of_nonneg ha]
    exact ⟨rfl, hx⟩
  | case2 a b x y hne q ih =>
    have hrem : a - q * b = a % b := by
      rw [Int.tdiv_mul_self, Int.tmod_eq_emod_of_nonneg ha]
      omega
    have hnonneg : 0 ≤ a - q * b := hrem ▸ Int.emod_nonneg a hne
    have hdvd : m ∣ (a - q * b) - (x - q * y) * s := by
      have hcomb : (a - q * b) - (x - q * y) * s = (a - x * s) - q * (b - y * s) := by ring
      rw [hcomb]
      exact hx.sub (hy.mul_left q)
    obtain ⟨hgcd, hcof⟩ := ih hb hnonneg hy hdvd
    refine ⟨?_, hcof⟩
    rw [hgcd, hrem, Int.gcd_comm b, Int.gcd_emod]

theorem order_eq : (ORDER : Int) = 65535 := rfl

/-- The step is coprime to the order exactly when the loop ends at 1, and then `x` is its inverse. -/
theorem euclid_step (step : Nat) :
    ((euclid (step % 65535) 65535 1 0).1 = 1 ↔ step.Coprime ORDER) ∧
      (step.Coprime ORDER →
        step * ((euclid (step % 65535) 65535 1 0).2 % 65535).toNat % ORDER = 1) := by
  have hnonneg : 0 ≤ (step : Int) % 65535 := Int.emod_nonneg _ (by decide)
  obtain ⟨hgcd, hcof⟩ := @euclid_spec step 65535 (step % 65535) 65535 1 0 hnonneg (by decide)
    (by rw [one_mul]; exact ⟨-(step / 65535), by omega⟩) (by rw [zero_mul, sub_zero])
  have hone : (euclid (step % 65535) 65535 1 0).1 = 1 ↔ step.Coprime ORDER := by
    rw [hgcd, Int.gcd_emod]
    have hnat : Int.gcd (step : Int) 65535 = Nat.gcd step ORDER := Int.gcd_natCast_natCast step ORDER
    omega
  refine ⟨hone, fun hco => ?_⟩
  generalize (euclid (step % 65535) 65535 1 0).2 = x at hcof
  have hx : ((x % 65535).toNat : Int) = x % 65535 := Int.toNat_of_nonneg (Int.emod_nonneg x (by decide))
  have hmod : ((step * (x % 65535).toNat % ORDER : Nat) : Int) = 1 := by
    rw [Int.natCast_emod, Nat.cast_mul, hx, order_eq, Int.mul_emod, Int.emod_emod_of_dvd _ dvd_rfl,
      ← Int.mul_emod, mul_comm]
    omega
  exact_mod_cast hmod

/-! ## What is relabelled -/

def Progression (exps : List UInt32) : Prop :=
  2 ≤ exps.length ∧ ∃ step : Nat, 0 < step ∧ step.Coprime ORDER ∧
    ∀ r e e', exps[r]? = some e → exps[r + 1]? = some e' → e'.toNat = e.toNat + step

theorem checkedSub_eq_some {a b d : UInt32} :
    checkedSub a b = some d ↔ a.toNat = b.toNat + d.toNat := by
  unfold checkedSub
  constructor
  · intro h
    split at h
    case isTrue hle =>
      cases h
      rw [UInt32.toNat_sub_of_le _ _ hle]
      have := UInt32.le_iff_toNat_le.mp hle
      omega
    case isFalse => cases h
  · intro h
    have hle : b ≤ a := UInt32.le_iff_toNat_le.mpr (by omega)
    rw [if_pos hle, Option.some_inj, ← UInt32.toNat_inj, UInt32.toNat_sub_of_le _ _ hle]
    omega

theorem windows_all {exps : List UInt32} {step : UInt32} :
    (exps.zip exps.tail).all (fun w => checkedSub w.2 w.1 == some step) = true ↔
      ∀ r e e', exps[r]? = some e → exps[r + 1]? = some e' → e'.toNat = e.toNat + step.toNat := by
  rw [all_eq_true]
  constructor
  · intro h r e e' he he'
    have hmem : (e, e') ∈ exps.zip exps.tail := by
      refine mem_of_getElem? (i := r) ?_
      rw [getElem?_zip_eq_some, getElem?_tail]
      exact ⟨he, he'⟩
    exact checkedSub_eq_some.mp (beq_iff_eq.mp (h _ hmem))
  · rintro h ⟨e, e'⟩ hmem
    obtain ⟨r, hr⟩ := mem_iff_getElem?.mp hmem
    rw [getElem?_zip_eq_some, getElem?_tail] at hr
    rw [beq_iff_eq, checkedSub_eq_some]
    exact h r e e' hr.1 hr.2

theorem exp_of_steps {exps : List UInt32} {e0 : UInt32} {step : Nat} (h0 : exps[0]? = some e0)
    (h : ∀ r e e', exps[r]? = some e → exps[r + 1]? = some e' → e'.toNat = e.toNat + step) :
    ∀ r e, exps[r]? = some e → e.toNat = e0.toNat + step * r := by
  intro r
  induction r with
  | zero =>
    intro e he
    rw [h0] at he
    cases he
    rw [Nat.mul_zero, add_zero]
  | succ r ih =>
    intro e he
    obtain ⟨e', he'⟩ : ∃ e', exps[r]? = some e' := by
      have hlt := (List.getElem?_eq_some_iff.mp he).1
      exact ⟨_, getElem?_eq_getElem (by omega)⟩
    rw [h r e' e he' he, ih e' he']
    ring

theorem progressionParameters_of (ks : List UInt32) {e0 e1 : UInt32} {rest : List UInt32}
    {step : Nat} (hpos : 0 < step) (hco : step.Coprime ORDER)
    (h : ∀ r e e', (e0 :: e1 :: rest)[r]? = some e → (e0 :: e1 :: rest)[r + 1]? = some e' →
      e'.toNat = e.toNat + step) :
    progressionParameters ks (e0 :: e1 :: rest) =
      some (ks.map fun k => UInt32.ofNat (k.toNat * step % ORDER),
        UInt32.ofNat
          (e0.toNat * ((euclid (step % 65535) 65535 1 0).2 % 65535).toNat % ORDER)) := by
  have hfirst : e1.toNat = e0.toNat + step := h 0 e0 e1 rfl rfl
  have hstep : (UInt32.ofNat step).toNat = step :=
    UInt32.toNat_ofNat_of_lt' (lt_of_le_of_lt (by omega) e1.toNat_lt)
  have hsub : checkedSub e1 e0 = some (UInt32.ofNat step) :=
    checkedSub_eq_some.mpr (by rw [hstep, hfirst])
  have hne : UInt32.ofNat step ≠ 0 := by
    intro h0
    rw [h0] at hstep
    exact absurd hstep.symm (pos_iff_ne_zero.mp hpos)
  have hall : ((e0 :: e1 :: rest).zip (e0 :: e1 :: rest).tail).all
      (fun w => checkedSub w.2 w.1 == some (UInt32.ofNat step)) = true :=
    windows_all.mpr (by rw [hstep]; exact h)
  have hone := (euclid_step step).1.mpr hco
  unfold progressionParameters
  dsimp only
  rw [hsub, Option.bind_eq_bind, Option.bind_some, if_neg (by rw [hall]; simp [hne]), hstep,
    if_neg (not_not.mpr hone)]

theorem progression_of_isSome {ks exps : List UInt32}
    (h : (progressionParameters ks exps).isSome = true) : Progression exps := by
  unfold progressionParameters at h
  split at h
  case h_1 e0 e1 rest =>
    rw [Option.bind_eq_bind] at h
    cases hsub : checkedSub e1 e0 with
    | none =>
      rw [hsub] at h
      cases h
    | some step =>
      rw [hsub, Option.bind_some] at h
      split at h
      case isTrue => cases h
      case isFalse hgate =>
        rw [not_or] at hgate
        have hall := hgate.2
        rw [Bool.not_eq_true, Bool.not_eq_false'] at hall
        dsimp only at h
        split at h
        case isTrue => cases h
        case isFalse hone =>
          have hpos : step.toNat ≠ 0 := fun h0 => hgate.1 (UInt32.toNat_inj.mp h0)
          exact ⟨by simp, step.toNat, pos_of_ne_zero hpos,
            (euclid_step step.toNat).1.mp (not_not.mp hone), windows_all.mp hall⟩
  case h_2 => cases h

theorem exists_cons_cons {α : Type} {l : List α} (h : 2 ≤ l.length) :
    ∃ a b t, l = a :: b :: t := by
  cases l with
  | nil => exact absurd h (Nat.not_succ_le_zero _)
  | cons a l =>
    cases l with
    | nil => exact absurd h (Nat.lt_irrefl _)
    | cons b t => exact ⟨a, b, t, rfl⟩

theorem progression_isSome_iff (ks exps : List UInt32) :
    (progressionParameters ks exps).isSome = true ↔ Progression exps := by
  refine ⟨progression_of_isSome, ?_⟩
  rintro ⟨hlen, step, hpos, hco, h⟩
  obtain ⟨e0, e1, rest, rfl⟩ := exists_cons_cons hlen
  rw [progressionParameters_of ks hpos hco h]
  rfl

/-- The matrix `a` of `BackSubPlan::compute`: a row for each exponent, a column for each base. -/
def coefficients (ks exps : List UInt32) : Matrix (Fin exps.length) (Fin ks.length) Gf16 :=
  fun r c => pow2 (ks[c].toNat * exps[r].toNat)

/-- The matrix of `n` consecutive exponents from `e0`. -/
def consecutive (ks : List UInt32) (e0 : UInt32) (n : Nat) : Matrix (Fin n) (Fin ks.length) Gf16 :=
  fun r c => pow2 (ks[c].toNat * (e0.toNat + r))

/-- Distinct bases make a square consecutive matrix invertible: it is a Vandermonde matrix with
its columns scaled. -/
theorem isUnit_det_consecutive {ks : List UInt32} (e0 : UInt32)
    (h : (ks.map (·.toNat % ORDER)).Nodup) : IsUnit (consecutive ks e0 ks.length).det := by
  have hinj : Function.Injective fun c : Fin ks.length => gen ^ ks[c].toNat := by
    intro c c' hc
    have hmod : ks[c].toNat % ORDER = ks[c'].toNat % ORDER := gen_pow_inj hc
    have hget : (c.cast (by simp) : Fin (ks.map (·.toNat % ORDER)).length) = c'.cast (by simp) :=
      nodup_iff_injective_get.mp h (by simpa using hmod)
    exact Fin.ext (by simpa using congrArg Fin.val hget)
  have hfactor : consecutive ks e0 ks.length = of fun r c =>
      (gen ^ ks[c].toNat) ^ e0.toNat *
        (vandermonde fun c : Fin ks.length => gen ^ ks[c].toNat).transpose r c := by
    ext1 r c
    rw [of_apply, transpose_apply, vandermonde_apply, ← pow_mul, ← pow_mul, ← pow_add, ← mul_add]
    exact pow2_eq _
  rw [hfactor, det_mul_row, det_transpose, isUnit_iff_ne_zero]
  refine mul_ne_zero (Finset.prod_ne_zero_iff.mpr fun c _ => ?_)
    (det_vandermonde_ne_zero_iff.mpr hinj)
  exact pow_ne_zero _ (pow_ne_zero _ gen_ne_zero)

theorem toNat_reduced (n : Nat) : (UInt32.ofNat (n % ORDER)).toNat = n % ORDER := by
  have := Nat.mod_lt n generates.pos
  exact UInt32.toNat_ofNat_of_lt' (lt_trans this (by decide))

/-- The relabelled exponent is the old one: the step goes from the exponents to the bases. -/
theorem relabelled_modEq {k e0 step inv r : Nat} (hinv : step * inv ≡ 1 [MOD ORDER]) :
    k * step % ORDER * (e0 * inv % ORDER + r) ≡ k * (e0 + step * r) [MOD ORDER] := by
  calc k * step % ORDER * (e0 * inv % ORDER + r)
      ≡ k * step * (e0 * inv + r) [MOD ORDER] :=
        (Nat.mod_modEq _ _).mul ((Nat.mod_modEq _ _).add_right r)
    _ = k * (e0 * (step * inv) + step * r) := by ring
    _ ≡ k * (e0 * 1 + step * r) [MOD ORDER] :=
        ((hinv.mul_left e0).add_right _).mul_left k
    _ = k * (e0 + step * r) := by rw [mul_one]

theorem nodup_relabelled {ks : List UInt32} {step : Nat} (hco : step.Coprime ORDER)
    (h : (ks.map (·.toNat % ORDER)).Nodup) :
    ((ks.map fun k => UInt32.ofNat (k.toNat * step % ORDER)).map (·.toNat % ORDER)).Nodup := by
  have hmap : (ks.map fun k => UInt32.ofNat (k.toNat * step % ORDER)).map (·.toNat % ORDER) =
      (ks.map (·.toNat % ORDER)).map fun n => n * step % ORDER := by
    rw [List.map_map, List.map_map]
    refine map_congr_left fun k _ => ?_
    rw [Function.comp_apply, Function.comp_apply, toNat_reduced, Nat.mod_mod, Nat.mod_mul_mod]
  rw [hmap]
  refine h.map_on fun m hm n hn hmn => ?_
  obtain ⟨k, -, rfl⟩ := mem_map.mp hm
  obtain ⟨k', -, rfl⟩ := mem_map.mp hn
  have hcancel : k.toNat % ORDER ≡ k'.toNat % ORDER [MOD ORDER] :=
    Nat.ModEq.cancel_right_of_coprime (Nat.coprime_comm.mp hco) hmn
  rwa [Nat.ModEq, Nat.mod_mod, Nat.mod_mod] at hcancel

/-- `progression_parameters` answers exactly on progressions with a step coprime to the order, and
then its consecutive system is the one it was asked about, row by row and column by column. -/
theorem progression_relabels (ks exps : List UInt32) :
    ((progressionParameters ks exps).isSome = true ↔ Progression exps) ∧
      ∀ ks' e0', progressionParameters ks exps = some (ks', e0') →
        ks'.length = ks.length ∧
        (∀ (r c : Nat) (k k' e : UInt32), ks[c]? = some k → ks'[c]? = some k' →
          exps[r]? = some e → k'.toNat * (e0'.toNat + r) % ORDER = k.toNat * e.toNat % ORDER) ∧
        ((ks.map (·.toNat % ORDER)).Nodup → (ks'.map (·.toNat % ORDER)).Nodup) ∧
        (∀ (r : Fin exps.length) (c : Fin ks.length) (c' : Fin ks'.length), c'.val = c.val →
          consecutive ks' e0' exps.length r c' = coefficients ks exps r c) ∧
        ((ks.map (·.toNat % ORDER)).Nodup → IsUnit (consecutive ks' e0' ks'.length).det) := by
  refine ⟨progression_isSome_iff ks exps, fun ks' e0' h => ?_⟩
  obtain ⟨hlen, step, hpos, hco, hsteps⟩ :=
    progression_of_isSome (h ▸ rfl : (progressionParameters ks exps).isSome = true)
  obtain ⟨e0, e1, rest, rfl⟩ := exists_cons_cons hlen
  rw [progressionParameters_of ks hpos hco hsteps, Option.some_inj, Prod.mk.injEq] at h
  obtain ⟨rfl, rfl⟩ := h
  have hinv : step * ((euclid (step % 65535) 65535 1 0).2 % 65535).toNat ≡ 1 [MOD ORDER] :=
    (euclid_step step).2 hco
  have hentry : ∀ (r c : Nat) (k k' e : UInt32), ks[c]? = some k →
      (ks.map fun k => UInt32.ofNat (k.toNat * step % ORDER))[c]? = some k' →
      (e0 :: e1 :: rest)[r]? = some e →
      k'.toNat * ((UInt32.ofNat (e0.toNat *
        ((euclid (step % 65535) 65535 1 0).2 % 65535).toNat % ORDER)).toNat + r) % ORDER =
          k.toNat * e.toNat % ORDER := by
    intro r c k k' e hk hk' he
    rw [getElem?_map, hk, Option.map_some, Option.some_inj] at hk'
    rw [← hk', toNat_reduced, toNat_reduced, exp_of_steps rfl hsteps r e he]
    exact relabelled_modEq hinv
  have hnodup := @nodup_relabelled ks step hco
  refine ⟨length_map _, hentry, hnodup, fun r c c' hc => ?_,
    fun hks => isUnit_det_consecutive _ (hnodup hks)⟩
  have hk : ks[c'.val]? = some ks[c] := by
    rw [hc]
    exact getElem?_eq_getElem c.isLt
  have h := hentry r c' _ _ _ hk (getElem?_eq_getElem c'.isLt)
    (getElem?_eq_getElem r.isLt)
  exact congrArg tables.exp h

end NzbFast.Repair
