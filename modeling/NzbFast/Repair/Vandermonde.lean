import NzbFast.Gf.Coefficients
import NzbFast.Repair.Progression

/-!
# The Vandermonde inverse

`invert_vandermonde` (`crates/nzbkit-base/src/par2repair/linalg.rs`) inverts the
coefficient matrix of consecutive exponents: the master polynomial of the bases
once, then for each column a synthetic division, a Horner evaluation and a scale.
The rows it builds are the interpolation polynomials of the bases, scaled by the
first exponent.
-/

namespace NzbFast.Repair

open Function Gf16 Gf MulTable List

/-! ## The inverse -/

/-- The `for (deg, &g)` loop: the coefficients of the product of `z + g`. -/
def master (bases : List Gf16) : Nat → Gf16 :=
  bases.zipIdx.foldl (fun p x =>
    let (g, deg) := x
    let t := MulTable.new g
    let p := update p (deg + 1) (p deg)
    let p := (List.range deg).reverse.foldl
      (fun p i => update p (i + 1) (p i + t.mul (p (i + 1)))) p
    update p 0 (t.mul (p 0)))
    (update (fun _ => 0) 0 1)

/-- The synthetic division of `p` by `z + g`. -/
def synthetic (p : Nat → Gf16) (m : Nat) (t : MulTable) : Nat → Gf16 :=
  (List.range (m - 1)).reverse.foldl (fun q i => update q i (p (i + 1) + t.mul (q (i + 1))))
    (update (fun _ => 0) (m - 1) (p m))

/-- The closure `build_row`. -/
def buildRow (ks : List UInt32) (bases : List Gf16) (p : Nat → Gf16) (e0 : UInt32) (c : Nat) :
    Option (List Gf16) :=
  let m := ks.length
  let t := MulTable.new (bases.getD c 0)
  let q := synthetic p m t
  let d := (List.range m).reverse.foldl (fun d i => t.mul d + q i) 0
  if d = 0 then none
  else
    let negE0 := ORDER - (ks.getD c 0).toNat * e0.toNat % ORDER
    let scale := Gf16.mul (Gf16.inv d) (pow2 negE0)
    -- `xor_mul_words` into a row of zeros
    some ((List.range m).map fun i => 0 + (MulTable.new scale).mul (q i))

/-- Slots dealt out in chunks, `chunks_mut(chunk).enumerate()`: slot `i` of chunk `w` is built
from `w * chunk + i`. -/
def inChunks {β : Type} (m chunk : Nat) (build : Nat → β) : List β :=
  (List.range ((m + chunk - 1) / chunk)).flatMap fun w =>
    (List.range (min chunk (m - w * chunk))).map fun i => build (w * chunk + i)

/-- `invert_vandermonde`, where `cpu_workers()` answers `workers`. -/
def invertVandermonde (workers : Nat) (ks : List UInt32) (e0 : UInt32) :
    Option (List (List Gf16)) :=
  let m := ks.length
  let bases := ks.map fun k => pow2 k.toNat
  let p := master bases
  let threads := max (min workers (m / 64)) 1
  let build := buildRow ks bases p e0
  let rows :=
    if threads < 2 then (List.range m).map build
    else inChunks m ((m + threads - 1) / threads) build
  rows.mapM id

/-! ## The rows in chunks -/

theorem flatMap_chunks {β : Type} (m chunk : Nat) (build : Nat → β) (n : Nat) :
    ((range n).flatMap fun w =>
      (range (min chunk (m - w * chunk))).map fun i => build (w * chunk + i)) =
      (range (min (n * chunk) m)).map build := by
  induction n with
  | zero => simp
  | succ n ih =>
    rw [range_succ, flatMap_append, ih, flatMap_singleton, Nat.succ_mul]
    rcases le_total (n * chunk) m with hle | hge
    · have hsplit : min (n * chunk + chunk) m = n * chunk + min chunk (m - n * chunk) := by omega
      rw [hsplit, min_eq_left hle, range_add, map_append, map_map]
      rfl
    · rw [Nat.sub_eq_zero_of_le hge, min_zero, range_zero, map_nil, append_nil,
        min_eq_right hge, min_eq_right (by omega)]

theorem inChunks_eq {β : Type} {m chunk : Nat} (hchunk : 0 < chunk) (build : Nat → β) :
    inChunks m chunk build = (range m).map build := by
  unfold inChunks
  have hceil : m ≤ (m + chunk - 1) / chunk * chunk := by
    have hdiv := Nat.div_add_mod (m + chunk - 1) chunk
    have hmod := Nat.mod_lt (m + chunk - 1) hchunk
    rw [mul_comm] at hdiv
    omega
  rw [flatMap_chunks, min_eq_right hceil]

/-- Every worker count builds the same rows. -/
theorem invertVandermonde_eq (workers : Nat) (ks : List UInt32) (e0 : UInt32) :
    invertVandermonde workers ks e0 =
      (range ks.length).mapM
        (buildRow ks (ks.map fun k => pow2 k.toNat) (master (ks.map fun k => pow2 k.toNat)) e0) := by
  unfold invertVandermonde
  dsimp only
  generalize buildRow ks (ks.map fun k => pow2 k.toNat) (master (ks.map fun k => pow2 k.toNat)) e0 =
    build
  have hmap : ((range ks.length).map build).mapM id = (range ks.length).mapM build :=
    mapM_map
  split
  case isTrue => exact hmap
  case isFalse hthreads =>
    rw [inChunks_eq _ build, hmap]
    exact Nat.div_pos (by omega) (by omega)

theorem mapM_eq_some {α β : Type} {f : α → Option β} {g : α → β} : ∀ {l : List α},
    (∀ a ∈ l, f a = some (g a)) → l.mapM f = some (l.map g)
  | [], _ => rfl
  | a :: l, h => by
    rw [mapM_cons, h a mem_cons_self,
      mapM_eq_some fun b hb => h b (mem_cons_of_mem a hb)]
    rfl

theorem mapM_eq_none {α β : Type} {f : α → Option β} {a : α} (ha : f a = none) : ∀ {l : List α},
    a ∈ l → l.mapM f = none
  | b :: l, h => by
    rw [mapM_cons]
    rcases mem_cons.mp h with rfl | h
    · rw [ha]
      rfl
    · rw [mapM_eq_none ha h]
      cases f b with
      | none => rfl
      | some _ => rfl

/-! ## One row -/

section Rows

open Polynomial

def base (ks : List UInt32) (c : Fin ks.length) : Gf16 := gen ^ (ks.get c).toNat

theorem prod_bases (ks : List UInt32) :
    ((ks.map fun k => pow2 k.toNat).map fun g => X + C g).prod = ∏ c, (X + C (base ks c)) := by
  rw [map_map, ← prod_ofFn]
  congr 1
  refine ext_getElem (by simp) fun i h _ => ?_
  rw [List.getElem_map, List.getElem_ofFn, comp_apply, pow2_eq]
  rfl

theorem coeff_one_eq : update (fun _ => 0) 0 1 = (1 : Gf16[X]).coeff := by
  funext i
  rw [coeff_one, update_apply]

theorem master_coeff (bases : List Gf16) :
    master bases = (bases.map fun g => X + C g).prod.coeff := by
  rw [← (foldl_mulLinear bases).1, ← coeff_one_eq]
  unfold master
  simp only [mul_new]
  rfl

theorem master_eq (ks : List UInt32) :
    master (ks.map fun k => pow2 k.toNat) = (∏ c, (X + C (base ks c))).coeff := by
  rw [master_coeff, prod_bases]

theorem synthetic_eq (ks : List UInt32) (c : Fin ks.length) {i : Nat} (hi : i < ks.length) :
    synthetic (∏ k, (X + C (base ks k))).coeff ks.length (MulTable.new (base ks c)) i =
      (Gf.others (base ks) c).coeff i := by
  have hsub : (X + C (base ks c) : Gf16[X]) = X - C (base ks c) := by
    rw [sub_eq_add_neg, ← C_neg, Gf16.neg_eq]
  have hlast : ks.length - 1 + 1 = ks.length := by omega
  rw [← divLinear_coeff (natDegree_others_le (base ks) c) (base ks c) (by omega), ← hsub,
    others_mul]
  unfold synthetic divLinear
  simp only [mul_new, hlast]

theorem eval_others (ks : List UInt32) (c c' : Fin ks.length) :
    (Gf.others (base ks) c).eval (base ks c') =
      ∏ k ∈ Finset.univ.erase c, (base ks c' + base ks k) := by
  rw [others, eval_prod]
  exact Finset.prod_congr rfl fun k _ => by rw [eval_add, eval_X, eval_C]

theorem eval_others_eq_zero_iff (ks : List UInt32) (c c' : Fin ks.length) :
    (Gf.others (base ks) c).eval (base ks c') = 0 ↔ ∃ k, k ≠ c ∧ base ks k = base ks c' := by
  rw [eval_others, Finset.prod_eq_zero_iff]
  refine exists_congr fun k => ?_
  rw [Finset.mem_erase, ← Gf16.sub_eq, sub_eq_zero]
  exact ⟨fun ⟨⟨hne, _⟩, he⟩ => ⟨hne, he.symm⟩, fun ⟨hne, he⟩ => ⟨⟨hne, Finset.mem_univ k⟩, he.symm⟩⟩

/-- The negative power of the generator, reduced. -/
theorem pow2_neg (e : Nat) : pow2 (ORDER - e % ORDER) = (gen ^ e)⁻¹ := by
  have hlt := Nat.mod_lt e generates.pos
  rw [pow2_eq]
  refine eq_inv_of_mul_eq_one_left ?_
  rw [← gen_pow_mod e, ← pow_add, Nat.sub_add_cancel hlt.le, gen_pow_order]

/-- The row a column's interpolation polynomial gives. -/
noncomputable def inverseRow (ks : List UInt32) (e0 : UInt32) (c : Fin ks.length) : List Gf16 :=
  (List.range ks.length).map fun i =>
    ((Gf.others (base ks) c).eval (base ks c))⁻¹ * (base ks c ^ e0.toNat)⁻¹ *
      (Gf.others (base ks) c).coeff i

theorem buildRow_eq (ks : List UInt32) (e0 : UInt32) (c : Fin ks.length) :
    buildRow ks (ks.map fun k => pow2 k.toNat) (master (ks.map fun k => pow2 k.toNat)) e0 c =
      if (Gf.others (base ks) c).eval (base ks c) = 0 then none
      else some (inverseRow ks e0 c) := by
  have hbase : (ks.map fun k => pow2 k.toNat).getD c 0 = base ks c := by
    rw [getD_eq_getElem?_getD, getElem?_map, getElem?_eq_getElem c.isLt,
      Option.map_some, Option.getD_some, pow2_eq]
    rfl
  have hk : ks.getD c 0 = ks[c] := by
    rw [getD_eq_getElem?_getD, getElem?_eq_getElem c.isLt, Option.getD_some]
    rfl
  have hpow : base ks c ^ e0.toNat = gen ^ (ks[c].toNat * e0.toNat) := (pow_mul _ _ _).symm
  have hhorner : (range ks.length).reverse.foldl (fun d i => (new (base ks c)).mul d +
      synthetic (∏ k, (X + C (base ks k))).coeff ks.length (new (base ks c)) i) 0 =
        (others (base ks) c).eval (base ks c) := by
    have hdeg : (others (base ks) c).natDegree < ks.length := by
      have := natDegree_others_le (base ks) c
      have := c.isLt
      omega
    simp only [mul_new]
    exact (horner_congr (fun i hi => synthetic_eq ks c hi) _).trans (horner_coeff hdeg _)
  unfold buildRow
  dsimp only
  rw [hbase, hk, master_eq, hhorner]
  by_cases hd : (others (base ks) c).eval (base ks c) = 0
  · rw [if_pos hd, if_pos hd]
  · rw [if_neg hd, if_neg hd, inv_eq hd, pow2_neg, ← hpow]
    refine congrArg some (map_congr_left fun i hi => ?_)
    rw [mul_new, zero_add, synthetic_eq ks c (mem_range.mp hi)]
    rfl

/-! ## The inverse matrix -/

def toMatrix (m : Nat) (rows : List (List Gf16)) : Matrix (Fin m) (Fin m) Gf16 :=
  fun r c => (rows.getD r []).getD c 0

theorem row_mul_consecutive (ks : List UInt32) (e0 : UInt32) (c c' : Fin ks.length) (s : Gf16) :
    ∑ r : Fin ks.length, s * (Gf.others (base ks) c).coeff r * consecutive ks e0 ks.length r c' =
      s * base ks c' ^ e0.toNat * (Gf.others (base ks) c).eval (base ks c') := by
  have hdeg : (others (base ks) c).natDegree < ks.length := by
    have := natDegree_others_le (base ks) c
    have := c.isLt
    omega
  rw [eval_eq_sum_range' hdeg, Finset.mul_sum, ← Fin.sum_univ_eq_sum_range
    (fun r => s * base ks c' ^ e0.toNat * ((others (base ks) c).coeff r * base ks c' ^ r))]
  refine Finset.sum_congr rfl fun r _ => ?_
  have hentry : consecutive ks e0 ks.length r c' = base ks c' ^ e0.toNat * base ks c' ^ r.val := by
    rw [base, ← pow_add, ← pow_mul]
    exact pow2_eq _
  rw [hentry]
  ring

theorem base_injective {ks : List UInt32} (hks : ∀ k ∈ ks, k.toNat < 65535) (h : ks.Nodup) :
    Function.Injective (base ks) := by
  intro c c' hc
  have hmod : ks[c].toNat % ORDER = ks[c'].toNat % ORDER := gen_pow_inj hc
  have hlt : ∀ c : Fin ks.length, ks[c].toNat < ORDER := fun c => hks _ (getElem_mem c.isLt)
  rw [Nat.mod_eq_of_lt (hlt c), Nat.mod_eq_of_lt (hlt c')] at hmod
  exact nodup_iff_injective_get.mp h (UInt32.toNat_inj.mp hmod)

/-- `invert_vandermonde` answers the inverse of the coefficient matrix when the base logs are
distinct, and nothing when two of them are the same. -/
theorem invertVandermonde_inverts (workers : Nat) (ks : List UInt32) (e0 : UInt32)
    (hks : ∀ k ∈ ks, k.toNat < 65535) :
    (ks.Nodup → ∃ B, invertVandermonde workers ks e0 = some B ∧ B.length = ks.length ∧
      (∀ row ∈ B, row.length = ks.length) ∧
      toMatrix ks.length B * consecutive ks e0 ks.length = 1) ∧
    (¬ ks.Nodup → invertVandermonde workers ks e0 = none) := by
  rw [invertVandermonde_eq]
  refine ⟨fun hnodup => ?_, fun hdup => ?_⟩
  · have hinj := base_injective hks hnodup
    have hden : ∀ c, (others (base ks) c).eval (base ks c) ≠ 0 := fun c hzero => by
      obtain ⟨k, hne, he⟩ := (eval_others_eq_zero_iff ks c c).mp hzero
      exact hne (hinj he)
    have hrows := mapM_eq_some (g := fun c => if h : c < ks.length then inverseRow ks e0 ⟨c, h⟩ else [])
      fun c (hc : c ∈ range ks.length) => by
        have hlt := mem_range.mp hc
        rw [dif_pos hlt]
        exact (buildRow_eq ks e0 ⟨c, hlt⟩).trans (if_neg (hden _))
    refine ⟨_, hrows, by rw [length_map, length_range], fun row hrow => ?_, ?_⟩
    · obtain ⟨c, hc, rfl⟩ := mem_map.mp hrow
      rw [dif_pos (mem_range.mp hc), inverseRow, length_map, length_range]
    · ext1 c c'
      have hentry : ∀ r : Fin ks.length, toMatrix ks.length ((range ks.length).map fun c =>
          if h : c < ks.length then inverseRow ks e0 ⟨c, h⟩ else []) c r =
            ((others (base ks) c).eval (base ks c))⁻¹ * (base ks c ^ e0.toNat)⁻¹ *
              (others (base ks) c).coeff r := by
        intro r
        simp [toMatrix, inverseRow]
      rw [Matrix.mul_apply]
      simp only [hentry]
      rw [row_mul_consecutive]
      by_cases h : c = c'
      · have hpow : base ks c ^ e0.toNat ≠ 0 := pow_ne_zero _ (pow_ne_zero _ gen_ne_zero)
        rw [← h, Matrix.one_apply_eq, mul_assoc _ _ (base ks c ^ e0.toNat), inv_mul_cancel₀ hpow,
          mul_one, inv_mul_cancel₀ (hden c)]
      · rw [Matrix.one_apply_ne h, (eval_others_eq_zero_iff ks c c').mpr ⟨c', fun he => h he.symm, rfl⟩,
          mul_zero]
  · rw [nodup_iff_injective_get, not_injective_iff] at hdup
    obtain ⟨c, c', he, hne⟩ := hdup
    have hzero : (others (base ks) c).eval (base ks c) = 0 :=
      (eval_others_eq_zero_iff ks c c).mpr
        ⟨c', fun h => hne h.symm, congrArg (fun k : UInt32 => gen ^ k.toNat) he.symm⟩
    refine mapM_eq_none (a := c.val) ?_ (mem_range.mpr c.isLt)
    rw [buildRow_eq]
    exact if_pos hzero

/-- Two bases on two workers. -/
theorem invertVandermonde_two : ∃ B, invertVandermonde 2 [1, 2] 3 = some B ∧
    toMatrix 2 B * consecutive [1, 2] 3 2 = 1 := by
  obtain ⟨B, hB, -, -, hone⟩ :=
    (invertVandermonde_inverts 2 [1, 2] 3 (by simp)).1 (by decide)
  exact ⟨B, hB, hone⟩

end Rows

end NzbFast.Repair
