import NzbFast.Forney.Whole
import NzbFast.Repair.Vandermonde

/-!
# The Hankel correlation

`crates/nzbkit-base/src/par2repair/forney/whole.rs`, `peel.rs`, `tail.rs` and the
stage-1 body of `joint.rs`: each row of the additive product inside its band is a
coefficient of the exact polynomial product, and the three arms (whole kernel, one
peeled term, a short tail) leave the same correlation of the syndromes with the locator.
-/

namespace NzbFast.Forney

open Function Gf16 Polynomial Gf Finset Option

variable {w : Nat}

/-! ## The exact product -/

/-- Column `c` of the first `count` rows, as a polynomial in the row. -/
noncomputable def column (x : Nat → Row w) (count : Nat) (c : Fin w) : Gf16[X] :=
  Gf.ofCoeffs ((List.range count).map fun j => x j c)

/-- The rows of the product of `b` with the first `count` rows. -/
noncomputable def convolve (b : List Gf16) (x : Nat → Row w) (count r : Nat) : Row w := fun c =>
  (Gf.ofCoeffs b * column x count c).coeff r

theorem degree_convolve_lt (b : List Gf16) (x : Nat → Row w) (count : Nat) (c : Fin w) :
    (Gf.ofCoeffs b * column x count c).degree < (b.length + count - 1 : Nat) := by
  have h := degree_mul_lt b ((List.range count).map fun j => x j c)
  rwa [List.length_map, List.length_range] at h

/-- Rows past the degree of the product are zero. -/
theorem convolve_eq_zero {b : List Gf16} (x : Nat → Row w) {count r : Nat} (hr : b.length + count - 1 ≤ r) : convolve b x count r = 0 :=
  funext fun c => (degree_lt_iff_coeff_zero _ _).mp (degree_convolve_lt b x count c) r hr

theorem eval_column {x : Nat → Row w} {count n : Nat} (hn : count ≤ n)
    (hzero : ∀ r, count ≤ r → x r = 0) (c : Fin w) (a : Gf16) :
    (column x count c).eval a = ∑ t ∈ Finset.range n, a ^ t * x t c := by
  rw [column, eval_ofCoeffs (n := n) (by rwa [List.length_map, List.length_range])]
  refine sum_congr rfl fun t _ => ?_
  rw [mul_comm]
  by_cases ht : t < count
  · rw [getD_map_range _ _ ht]
  · rw [hzero t (by omega), getD_eq_zero (by rw [List.length_map, List.length_range]; omega)]
    rfl

/-- The product's rows, as a polynomial with rows for coefficients. -/
theorem value_convolve {b : List Gf16} {x : Nat → Row w} {count k : Nat} (hk : 1 ≤ k)
    (hlen : b.length ≤ 2 ^ (k - 1)) (hcount : 0 < count) (hle : count ≤ 2 ^ (k - 1))
    (hzero : ∀ r, count ≤ r → x r = 0) (a : Gf16) :
    Gf.value k (convolve b x count) 0 a = (Gf.ofCoeffs b).eval a • Gf.value (k - 1) x 0 a := by
  have hpow : 2 ^ k = 2 * 2 ^ (k - 1) := by
    rw [← pow_succ']
    congr 1
    omega
  funext c
  have hdeg : (ofCoeffs b * column x count c).degree < (2 ^ k : Nat) :=
    (degree_convolve_lt b x count c).trans_le (Nat.cast_le.mpr (by omega))
  have hcolumn : value (k - 1) x 0 a c = (column x count c).eval a := by
    rw [eval_column hle hzero, value, Finset.sum_apply]
    exact sum_congr rfl fun t _ => by rw [zero_add]; rfl
  rw [Pi.smul_apply, smul_eq_mul, hcolumn, ← eval_mul, eval_eq_sum hdeg, value, Finset.sum_apply]
  exact sum_congr rfl fun t _ => by rw [zero_add, mul_comm]; rfl

/-! ## The whole product -/

theorem scale_eq (c : Gf16) (row : Row w) : scale c row = c • row := by
  unfold scale
  by_cases h1 : c = 1
  · rw [if_pos h1, h1, one_smul]
  · rw [if_neg h1]
    by_cases h0 : c = 0
    · rw [if_pos h0, h0, zero_smul]
    · rw [if_neg h0]

section Kernel

variable {K : Kernel} {b : List Gf16} {k : Nat} (hK : K.For b k)

include hK

theorem Kernel.For.half_n : K.n / 2 = 2 ^ (k - 1) := by
  have hpow : 2 ^ k = 2 ^ (k - 1) * 2 := by
    rw [← pow_succ]
    congr 1
    have := hK.pos
    omega
  rw [hK.n, hpow, Nat.mul_div_cancel _ (by decide)]

theorem Kernel.For.level {i : Nat} (hi : i < k) : Gf.Terms Gf16 (submasks i) i :=
  terms_submasks (hi.trans_le hK.le)

/-- The forward pass over the low half, copied into the high half and combined, evaluates the
input at every point of the domain. -/
theorem Kernel.For.spectrum (x : Nat → Row w) {p : Nat} (hp : p < 2 ^ k) :
    (List.range (k - 1)).reverse.foldl
      (fun a i => Gf.combineLevel (2 ^ k) i (fun b => (K.tw.getD i []).getD b 0) a)
      (fun r =>
        let lo := (List.range (k - 1)).reverse.foldl
          (fun a i => Gf.divideLevel (2 ^ (k - 1)) i (submasks i) a) x
        if 2 ^ (k - 1) ≤ r ∧ r < 2 ^ k then lo (r - 2 ^ (k - 1)) else lo r) p =
      Gf.value (k - 1) x 0 (domain p) := by
  have hpow : 2 ^ k = 2 ^ (k - 1) + 2 ^ (k - 1) := by
    rw [← two_mul, ← pow_succ']
    congr 1
    have := hK.pos
    omega
  have hbase : p - p % 2 ^ (k - 1) = 0 ∨ p - p % 2 ^ (k - 1) = 2 ^ (k - 1) := by
    rcases lt_or_ge p (2 ^ (k - 1)) with h | h
    · rw [Nat.mod_eq_of_lt h, Nat.sub_self]
      exact .inl rfl
    · rw [Nat.mod_eq_sub_mod h, Nat.mod_eq_of_lt (by omega)]
      omega
  rw [combineLevels_apply (cantor hK.le) hp hK.tw (k - 1) (Nat.sub_le k 1), domain,
    point_levels hK.le hp]
  generalize point (C.getD · 0) k p = a
  have hlow : value (k - 1) x 0 a = mixed 0 (k - 1) ((List.range (k - 1)).reverse.foldl
      (fun a i => divideLevel (2 ^ (k - 1)) i (submasks i) a) x) 0 a := by
    rw [mixed_divideLevels (fun i hi => hK.level (by omega)) a (k - 1) le_rfl, Nat.sub_self]
    rfl
  rw [hlow]
  generalize (List.range (k - 1)).reverse.foldl
      (fun a i => divideLevel (2 ^ (k - 1)) i (submasks i) a) x = lo
  have hcopy : ∀ r < 2 ^ (0 + (k - 1)),
      (if 2 ^ (k - 1) ≤ p - p % 2 ^ (k - 1) + r ∧ p - p % 2 ^ (k - 1) + r < 2 ^ k then
        lo (p - p % 2 ^ (k - 1) + r - 2 ^ (k - 1)) else lo (p - p % 2 ^ (k - 1) + r)) =
        lo (0 + r) + (0 : Gf16) • lo (0 + r) := by
    intro r hr
    rw [zero_add] at hr
    rw [zero_smul, add_zero, zero_add]
    rcases hbase with h | h
    · rw [h, zero_add, if_neg (by omega)]
    · rw [h, if_pos (by omega), Nat.add_sub_cancel_left]
  calc _ = mixed 0 (k - 1) lo 0 a + (0 : Gf16) • mixed 0 (k - 1) lo 0 a :=
        mixed_combine (k - 1) hcopy
    _ = mixed 0 (k - 1) lo 0 a := by rw [zero_smul, add_zero]

/-- The product of the values is the transform of the product. -/
theorem Kernel.For.pointwise (hb : b ≠ []) {x : Nat → Row w} (hzero : ∀ r, b.length ≤ r → x r = 0)
    {p : Nat} (hp : p < 2 ^ k) :
    K.bhat.getD p 0 • Gf.value (k - 1) x 0 (domain p) =
      Gf.forward k submasks (fun i b => (K.tw.getD i []).getD b 0) (convolve b x b.length) p := by
  have hlen := List.length_pos_iff.mpr hb
  rw [forward_apply (cantor hK.le) hp (fun _ => hK.level) hK.tw, ← point_levels hK.le hp,
    hK.bhat p hp]
  exact (value_convolve hK.pos hK.half hlen hK.half hzero (domain p)).symm

/-- Either inverse, and the clipped conversion, bring the transform of a product back on the band. -/
theorem Kernel.For.back (hb : b ≠ []) {P a : Nat → Row w} (hzero : ∀ r, 2 * b.length - 1 ≤ r → P r = 0)
    (ha : ∀ p < 2 ^ k, a p = Gf.forward k submasks (fun i b => (K.tw.getD i []).getD b 0) P p)
    (demand : Bool) {r : Nat} (hr : b.length - 1 ≤ r) (hr' : r ≤ 2 * b.length - 2) :
    backwardBand K (if demand then Demand.apply (2 ^ k) K.tw K.demand a else inverseFull K a)
      (b.length - 1) (2 * b.length - 2) r = P r := by
  have hlen := List.length_pos_iff.mpr hb
  have hhalf := hK.half
  have hpow : 2 ^ k = 2 * 2 ^ (k - 1) := by
    rw [← pow_succ']
    congr 1
    have := hK.pos
    omega
  have hlt : ∀ i < k, ∀ j ∈ submasks i, j < i := fun i hi => (hK.level hi).lt
  have hdivided : ∀ r, 2 * b.length - 1 ≤ r → (List.range k).reverse.foldl
      (fun a i => divideLevel (2 ^ k) i (submasks i) a) P r = 0 := divideLevels_eq_zero hlt hzero
  have hundone :=
    foldl_undo (fun i hi a => undivideLevel_divideLevel Gf16 (List.mem_range.mp hi)
      (hlt i (List.mem_range.mp hi)) a) P
  have hfull := uncombineLevels_forward submasks (fun i b => (K.tw.getD i []).getD b 0) ha
  have hinverse : ∀ r, b.length - 1 ≤ r → r ≤ 2 * b.length - 2 →
      (List.range k).reverse.foldl (fun a i => divideLevel (2 ^ k) i (submasks i) a) P r =
        (if demand then Demand.apply (2 ^ k) K.tw K.demand a else inverseFull K a) r := by
    intro r hr hr'
    rw [← hfull r (by omega)]
    cases demand with
    | true =>
      rw [if_pos rfl, hK.demand, Demand.plan, hK.length_tw]
      exact (Demand.stages_agree K.tw a k (le_refl k) _ r (by omega)
        (decide_eq_true ⟨hr, by omega⟩)).symm
    | false =>
      rw [if_neg Bool.false_ne_true, inverseFull, hK.levels, hK.n]
      simp only [butterfly_inverse, Nat.one_shiftLeft]
      rfl
  have hband : Band (b.length - 1) (2 * b.length - 2) _
      (if demand then Demand.apply (2 ^ k) K.tw K.demand a else inverseFull K a) :=
    ⟨hinverse, fun r hr => hdivided r (by omega)⟩
  have hlevels := hband.levels hK (by omega) (by omega)
  rw [hundone] at hlevels
  exact (hlevels.agree r hr hr').symm

/-- `linear_impl` leaves the exact product on the band. -/
theorem Kernel.For.linearImpl_convolve (hb : b ≠ []) (hpos : 0 < w) (hw : 16 ∣ w) {x : Nat → Row w}
    (hzero : ∀ r, b.length ≤ r → x r = 0) (demand : Bool) :
    ∃ out, linearImpl true K x b.length demand = some out ∧
      ∀ r, b.length - 1 ≤ r → r ≤ 2 * b.length - 2 → out r = convolve b x b.length r := by
  have hlen := List.length_pos_iff.mpr hb
  have hdead : Dead (x, fun r => decide (r < b.length)) := fun r hr =>
    hzero r (not_lt.mp (of_decide_eq_false hr))
  unfold linearImpl
  rw [hK.half_n, if_neg (not_not.mpr ⟨hpos, hw, hK.half, hlen, rfl⟩)]
  refine ⟨_, rfl, fun r hr hr' => ?_⟩
  rw [forwardRows_eq hK x _ hdead, hK.n, hK.levels]
  simp only [butterfly_forward, Nat.one_shiftLeft]
  refine hK.back (P := convolve b x b.length) hb
    (fun r hr => convolve_eq_zero x (by omega)) (fun p hp => ?_) demand hr hr'
  rw [if_pos hp, scale_eq, ← hK.pointwise hb hzero hp, ← hK.spectrum x hp]
  rfl

end Kernel

/-! ## The split product -/

theorem coeff_ofCoeffs_mul (l : List Gf16) (P : Gf16[X]) (r : Nat) :
    (Gf.ofCoeffs l * P).coeff r =
      ∑ i ∈ Finset.range l.length, if i ≤ r then l.getD i 0 * P.coeff (r - i) else 0 := by
  rw [ofCoeffs, sum_mul, finsetSum_coeff]
  refine sum_congr rfl fun i _ => ?_
  rw [← C_mul_X_pow_eq_monomial, mul_assoc, coeff_C_mul, coeff_X_pow_mul', mul_ite, mul_zero]

theorem ofCoeffs_split (l : List Gf16) (d : Nat) :
    Gf.ofCoeffs l = Gf.ofCoeffs (l.take d) + X ^ d * Gf.ofCoeffs (l.drop d) := by
  refine Polynomial.ext fun i => ?_
  rw [coeff_add, coeff_X_pow_mul', coeff_ofCoeffs, coeff_ofCoeffs, coeff_ofCoeffs]
  simp only [List.getD_eq_getElem?_getD, List.getElem?_take, List.getElem?_drop]
  by_cases h : d ≤ i
  · rw [if_neg (by omega), if_pos h, getD_none, zero_add, Nat.add_sub_cancel' h]
  · rw [if_pos (by omega), if_neg h, add_zero]

/-- The rows of the correlation, against the rows taken in reverse. -/
theorem convolve_apply (b : List Gf16) (x : Nat → Row w) (count r : Nat) :
    convolve b x count r =
      ∑ j ∈ Finset.range count, if j ≤ r then b.getD (r - j) 0 • x j else 0 := by
  funext c
  rw [convolve, mul_comm, column, coeff_ofCoeffs_mul, List.length_map, List.length_range,
    Finset.sum_apply]
  refine sum_congr rfl fun j hj => ?_
  rw [getD_map_range _ _ (mem_range.mp hj), coeff_ofCoeffs, mul_comm]
  split
  · rfl
  · rfl

/-- The top `q` terms peeled off both factors. -/
theorem convolve_split {b : List Gf16} {d q : Nat} (hlen : b.length = d + q) (hq : 1 ≤ q)
    (x : Nat → Row w) {r : Nat} (hr : d + q ≤ r + 1) :
    convolve b x (d + q) r = convolve (b.take d) x d r +
      ((∑ j ∈ Finset.range q, if r - d - j < d then b.getD (d + j) 0 • x (r - d - j) else 0) +
        ∑ j ∈ Finset.range q, b.getD (r - d - j) 0 • x (d + j)) := by
  have hlow : convolve b x d r = convolve (b.take d) x d r +
      ∑ j ∈ range q, if r - d - j < d then b.getD (d + j) 0 • x (r - d - j) else 0 := by
    funext c
    rw [convolve, ofCoeffs_split b d, add_mul, coeff_add, mul_assoc, coeff_X_pow_mul', if_pos (by omega),
      coeff_ofCoeffs_mul (b.drop d), List.length_drop, hlen, Nat.add_sub_cancel_left, Pi.add_apply,
      Finset.sum_apply]
    refine congrArg _ (sum_congr rfl fun j hj => ?_)
    have hjq := mem_range.mp hj
    rw [if_pos (by omega), column, coeff_ofCoeffs, List.getD_eq_getElem?_getD, List.getElem?_drop,
      ← List.getD_eq_getElem?_getD]
    by_cases h : r - d - j < d
    · rw [if_pos h, getD_map_range _ _ h]
      rfl
    · have hlen : ((List.range d).map fun j => x j c).length ≤ r - d - j := by
        rw [List.length_map, List.length_range]
        omega
      rw [if_neg h, getD_eq_zero hlen, mul_zero]
      rfl
  rw [convolve_apply, sum_range_add, ← convolve_apply, hlow, add_assoc]
  refine congrArg _ (congrArg _ (sum_congr rfl fun j hj => ?_))
  have hjq := mem_range.mp hj
  rw [if_pos (by omega), Nat.sub_add_eq]

/-! ## The peeled term -/

namespace Peel

structure Plan where
  kernel : Kernel
  coeffs : List Gf16

/-- `peel::Plan::new`; nothing when an assertion fails. -/
def Plan.new (b : List Gf16) : Option (Option Plan) :=
  if b.length < 2 ∨ 32768 < b.length ∨ ¬ (b.length - 1).isPowerOfTwo ∨ b.getLast? ≠ some 1 then some none
  else
    let d := b.length - 1
    (Kernel.new (b.take d)).map fun kernel => some { kernel, coeffs := b.take d }

def Plan.count (p : Plan) : Nat := p.coeffs.length

def Plan.finishRow (p : Plan) (high low : Row w) (residual : Option (Row w)) (j : Nat) : Row w :=
  let dst := scale (p.coeffs.getD j 0) high
  let dst := dst + low
  match residual with
  | some residual => dst + residual
  | none => dst

end Peel

/-! ## The short tail -/

namespace Tail

def MAX_Q : Nat := 8

structure Plan where
  kernel : Kernel
  d : Nat
  q : Nat
  coeffs : List Gf16

/-- `tail::Plan::new`; nothing when an assertion fails. -/
def Plan.new (b : List Gf16) : Option (Option Plan) :=
  let m := b.length
  if ¬ (3 ≤ m ∧ m ≤ 32768) ∨ m.isPowerOfTwo ∨ b.getLast? ≠ some 1 then some none
  else
    let d := nextPowerOfTwo m / 2
    let q := m - d
    if MAX_Q < q then some none
    else (Kernel.new (b.take d)).map fun kernel => some { kernel, d, q, coeffs := b }

/-- `gf16::xor_mul_multi_prepared`, which covers the first `covered` words. -/
def xorMulMultiPrepared (covered : Nat) (dst : Row w) (src : List (Row w × Gf16)) : Row w := fun c =>
  if c < covered then src.foldl (fun v s => v + Gf16.mul s.2 (s.1 c)) (dst c) else dst c

/-- `FoldTable::xor_mul_into` from word `done` on. -/
def xorMulInto (done : Nat) (dst : Row w) (s : Row w × Gf16) : Row w := fun c =>
  if c < done then dst c else dst c + Gf16.mul s.2 (s.1 c)

/-- `finish_row_stripe`; nothing when an assertion fails. -/
def Plan.finishRowStripe (covered : Nat) (p : Plan) (syn : List (Row w)) (r : Nat)
    (residual : Option (Row w)) : Option (Row w) :=
  let m := p.d + p.q
  if ¬ (syn.length = m ∧ m - 1 ≤ r ∧ r < 2 * m - 1) then none
  else
    let dst := residual.getD 0
    let src := (List.range p.q).foldl (fun src j =>
      let k := r - p.d - j
      let src := if k < p.d then src ++ [(syn.getD (m - 1 - k) 0, p.coeffs.getD (p.d + j) 0)] else src
      if k < m then src ++ [(syn.getD (p.q - 1 - j) 0, p.coeffs.getD k 0)] else src) []
    let dst := xorMulMultiPrepared covered dst src
    some (if covered < w then
      src.foldl (fun dst s => if s.2 ≠ 0 then xorMulInto covered dst s else dst) dst
    else dst)

end Tail

/-! ## Stage 1 -/

structure JointPlan where
  whole : Kernel
  peeled : Option Peel.Plan
  tail : Option Tail.Plan

/-- `JointPlan::new` for `m` rows and their locator; nothing when an assertion fails. -/
def JointPlan.new (locator : List Gf16) (m : Nat) : Option JointPlan :=
  let q := if m.isPowerOfTwo then 0 else m - nextPowerOfTwo m / 2
  let b := locator.drop 1
  (Kernel.new b).bind fun whole =>
    (if q = 1 then Peel.Plan.new b else some none).bind fun peeled =>
      (if 2 ≤ q ∧ q ≤ Tail.MAX_Q then Tail.Plan.new b else some none).map fun tail =>
        { whole, peeled, tail }

/-- `joint_hankel_stripe`; nothing when an assertion fails. -/
def jointHankelStripe (available : Bool) (covered : Nat) (joint : JointPlan) (m : Nat)
    (syn : List (Row w)) : Option (List (Row w)) :=
  match joint.tail, joint.peeled with
  | some p, _ =>
    (linearImpl available p.kernel (fun j => if j < p.d then syn.getD (m - 1 - j) 0 else 0) p.d
      false).bind fun buf =>
      (List.range m).mapM fun t =>
        let r := m - 1 + t
        let residual := if r < 2 * p.d - 1 then some (buf r) else none
        p.finishRowStripe covered syn r residual
  | none, some p =>
    let d := m - 1
    if p.count ≠ d then none
    else
      (linearImpl available p.kernel (fun j => if j < d then syn.getD (d - j) 0 else 0) d
        false).map fun buf =>
        let high := syn.getD 0 0
        (List.range d).map (fun j =>
          let residual := if j < d - 1 then some (buf (d + j)) else none
          p.finishRow high (syn.getD (d - j) 0) residual j) ++ [high]
  | none, none =>
    (linearImpl available joint.whole (fun j => if j < m then syn.getD (m - 1 - j) 0 else 0) m
      true).map fun buf => (List.range m).map fun i => buf (m - 1 + i)

/-! ## The correlation -/

def hankel (locator : List Gf16) (syn : List (Row w)) (t : Nat) : Row w :=
  ∑ r ∈ Finset.range syn.length, locator.getD (r + t + 1) 0 • syn.getD r 0

theorem convolve_congr {b : List Gf16} {x x' : Nat → Row w} {count : Nat}
    (h : ∀ j < count, x j = x' j) (r : Nat) : convolve b x count r = convolve b x' count r := by
  rw [convolve_apply, convolve_apply]
  exact sum_congr rfl fun j hj => by rw [h j (mem_range.mp hj)]

/-- The correlation is the top half of the product with the rows reversed. -/
theorem hankel_eq_convolve (locator : List Gf16) {syn : List (Row w)} {m : Nat} (hm : syn.length = m)
    (t : Nat) : hankel locator syn t =
      convolve (locator.drop 1) (fun j => syn.getD (m - 1 - j) 0) m (m - 1 + t) := by
  rw [hankel, convolve_apply, hm, ← sum_range_reflect]
  refine sum_congr rfl fun j hj => ?_
  have hjm := mem_range.mp hj
  rw [if_pos (by omega), List.getD_eq_getElem?_getD (l := locator.drop 1), List.getElem?_drop,
    ← List.getD_eq_getElem?_getD]
  congr 2
  omega

/-! ## The arms -/

namespace Peel

/-- What a peeled plan for `b` holds. -/
structure Plan.For (p : Plan) (b : List Gf16) : Prop where
  two : 2 ≤ b.length
  last : b.getD (b.length - 1) 0 = 1
  kernel : ∃ k, p.kernel.For (b.take (b.length - 1)) k
  coeffs : p.coeffs = b.take (b.length - 1)

theorem Plan.new_eq (b : List Gf16) : ∃ o, Plan.new b = some o ∧ (∀ p, o = some p → p.For b) ∧
    (2 ≤ b.length → b.length ≤ 32768 → (b.length - 1).isPowerOfTwo → b.getLast? = some 1 →
      o.isSome) := by
  unfold new
  split
  case isTrue hrefuse =>
    refine ⟨none, rfl, fun _ h => (by cases h), fun hlow hhigh hpow hlast => ?_⟩
    rcases hrefuse with h | h | h | h
    · omega
    · omega
    · exact absurd hpow h
    · exact absurd hlast h
  case isFalse hadmit =>
    simp only [not_or, not_lt, not_not] at hadmit
    obtain ⟨hlow, hhigh, -, hlast⟩ := hadmit
    have htake : (b.take (b.length - 1)).length = b.length - 1 := by
      rw [List.length_take, min_eq_left (Nat.sub_le _ _)]
    obtain ⟨K, k, hK, hfor⟩ := Kernel.new_eq (b := b.take (b.length - 1)) (by omega) (by omega)
    dsimp only
    rw [hK]
    refine ⟨_, rfl, fun p hp => ?_, fun _ _ _ _ => rfl⟩
    cases hp
    refine ⟨hlow, ?_, ⟨k, hfor⟩, rfl⟩
    rw [List.getD_eq_getElem?_getD, ← List.getLast?_eq_getElem?, hlast]
    rfl

theorem Plan.finishRow_eq (p : Plan) (high low : Row w) (residual : Option (Row w)) (j : Nat) :
    p.finishRow high low residual j = residual.getD 0 + (low + p.coeffs.getD j 0 • high) := by
  unfold finishRow
  rw [scale_eq, add_comm low]
  cases residual with
  | none => exact (zero_add _).symm
  | some residual => exact add_comm _ _

/-- The rows of the peeled arm, given the rows of its kernel. -/
theorem Plan.For.rows_eq {p : Plan} {b : List Gf16} (hp : p.For b) (x : Nat → Row w) {j : Nat}
    (hj : j < b.length - 1) {residual : Option (Row w)}
    (hres : residual.getD 0 = convolve (b.take (b.length - 1)) x (b.length - 1) (b.length - 1 + j)) :
    p.finishRow (x (b.length - 1)) (x j) residual j = convolve b x b.length (b.length - 1 + j) := by
  have hlen : b.length = b.length - 1 + 1 := by omega
  have hsplit := convolve_split hlen (le_refl 1) x (r := b.length - 1 + j) (by omega)
  rw [← hlen, sum_range_one, sum_range_one, Nat.add_sub_cancel_left, Nat.sub_zero,
    if_pos hj, add_zero, hp.last, one_smul] at hsplit
  rw [Plan.finishRow_eq, hsplit, hres, hp.coeffs, List.getD_eq_getElem?_getD, List.getElem?_take, if_pos hj,
    ← List.getD_eq_getElem?_getD]

theorem Plan.For.last_row {p : Plan} {b : List Gf16} (hp : p.For b) (x : Nat → Row w) :
    x (b.length - 1) = convolve b x b.length (b.length - 1 + (b.length - 1)) := by
  have htwo := hp.two
  have hlen : b.length = b.length - 1 + 1 := by omega
  have htake : (b.take (b.length - 1)).length = b.length - 1 := by
    rw [List.length_take, min_eq_left (Nat.sub_le _ _)]
  have htop : convolve (b.take (b.length - 1)) x (b.length - 1) (b.length - 1 + (b.length - 1)) = 0 :=
    convolve_eq_zero x (by omega)
  have hsplit := convolve_split hlen (le_refl 1) x (r := b.length - 1 + (b.length - 1)) (by omega)
  rw [← hlen, sum_range_one, sum_range_one, Nat.add_sub_cancel_left, Nat.sub_zero,
    if_neg (lt_irrefl _), add_zero, hp.last, one_smul, htop, zero_add, zero_add] at hsplit
  exact hsplit.symm

end Peel

namespace Tail

theorem skipZero_apply (done : Nat) (row : Row w) (s : Row w × Gf16) (c : Fin w) :
    (if s.2 ≠ 0 then xorMulInto done row s else row) c =
      row c + if c < done then 0 else s.2 * s.1 c := by
  by_cases h : s.2 = 0
  · rw [if_neg (not_not.mpr h), h, zero_mul, ite_self, add_zero]
  · rw [if_pos h, xorMulInto, ← mul_eq]
    split
    · exact (add_zero _).symm
    · rfl

/-- However many words the fused kernel covers, every source is added to every word. -/
theorem fold_sources (covered : Nat) (dst : Row w) (src : List (Row w × Gf16)) :
    (if covered < w then
      src.foldl (fun dst s => if s.2 ≠ 0 then xorMulInto covered dst s else dst)
        (xorMulMultiPrepared covered dst src)
    else xorMulMultiPrepared covered dst src) = dst + (src.map fun s => s.2 • s.1).sum := by
  have hfused : ∀ (c : Fin w) (v : Gf16), src.foldl (fun v s => v + Gf16.mul s.2 (s.1 c)) v =
      v + (src.map fun s => s.2 • s.1).sum c := by
    intro c
    induction src with
    | nil => exact fun v => (add_zero v).symm
    | cons s src ih =>
      intro v
      rw [List.foldl_cons, ih, List.map_cons, List.sum_cons, ← mul_eq, Pi.add_apply, ← add_assoc]
      rfl
  have htail : ∀ (c : Fin w) (row : Row w),
      src.foldl (fun dst s => if s.2 ≠ 0 then xorMulInto covered dst s else dst) row c =
        row c + if c < covered then 0 else (src.map fun s => s.2 • s.1).sum c := by
    intro c
    clear hfused
    induction src with
    | nil => exact fun row => by rw [List.map_nil, List.sum_nil, Pi.zero_apply, ite_self, add_zero]; rfl
    | cons s src ih =>
      intro row
      rw [List.foldl_cons, ih, skipZero_apply, List.map_cons, List.sum_cons, add_assoc]
      congr 1
      split
      · exact add_zero 0
      · rfl
  funext c
  rw [Pi.add_apply]
  by_cases hall : covered < w
  · rw [if_pos hall, htail, xorMulMultiPrepared]
    by_cases hc : c < covered
    · rw [if_pos hc, if_pos hc, hfused, add_zero]
    · rw [if_neg hc, if_neg hc]
  · rw [if_neg hall, xorMulMultiPrepared, if_pos (by omega), hfused]

theorem sum_sources (p : Plan) (syn : List (Row w)) (r n : Nat) :
    (((List.range n).foldl (fun src j =>
      let k := r - p.d - j
      let src := if k < p.d then
        src ++ [(syn.getD (p.d + p.q - 1 - k) 0, p.coeffs.getD (p.d + j) 0)] else src
      if k < p.d + p.q then src ++ [(syn.getD (p.q - 1 - j) 0, p.coeffs.getD k 0)] else src)
      []).map fun s => s.2 • s.1).sum =
    (∑ j ∈ Finset.range n, if r - p.d - j < p.d then
        p.coeffs.getD (p.d + j) 0 • syn.getD (p.d + p.q - 1 - (r - p.d - j)) 0 else 0) +
      ∑ j ∈ Finset.range n, if r - p.d - j < p.d + p.q then
        p.coeffs.getD (r - p.d - j) 0 • syn.getD (p.q - 1 - j) 0 else 0 := by
  induction n with
  | zero => exact (add_zero _).symm
  | succ n ih =>
    rw [List.range_succ, List.foldl_append, List.foldl_cons, List.foldl_nil, sum_range_succ,
      sum_range_succ, add_add_add_comm, ← ih]
    dsimp only
    split
    · split
      · rw [List.append_assoc, List.map_append, List.sum_append]
        simp
      · rw [List.map_append, List.sum_append]
        simp
    · split
      · rw [List.map_append, List.sum_append]
        simp
      · simp

/-- What a tail plan for `b` holds. -/
structure Plan.For (p : Plan) (b : List Gf16) : Prop where
  pos : 1 ≤ p.d
  q : 1 ≤ p.q
  length : b.length = p.d + p.q
  kernel : ∃ k, p.kernel.For (b.take p.d) k
  coeffs : p.coeffs = b

theorem Plan.new_eq (b : List Gf16) : ∃ o, Plan.new b = some o ∧ (∀ p, o = some p → p.For b) ∧
    (3 ≤ b.length → b.length ≤ 32768 → ¬ b.length.isPowerOfTwo → b.getLast? = some 1 →
      b.length - nextPowerOfTwo b.length / 2 ≤ MAX_Q → o.isSome) := by
  unfold new
  dsimp only
  split
  case isTrue hrefuse =>
    refine ⟨none, rfl, fun _ h => (by cases h), fun hlow hhigh hpow hlast _ => ?_⟩
    rcases hrefuse with h | h | h
    · exact absurd ⟨hlow, hhigh⟩ h
    · exact absurd h hpow
    · exact absurd hlast h
  case isFalse hadmit =>
    have hclog : 1 ≤ Nat.clog 2 b.length := Nat.clog_pos (by decide) (by omega)
    have hd : nextPowerOfTwo b.length / 2 = 2 ^ (Nat.clog 2 b.length).pred := by
      rw [nextPowerOfTwo, ← Nat.succ_pred_eq_of_pos hclog, Nat.pow_succ, Nat.mul_div_cancel _ (by decide),
        Nat.succ_pred_eq_of_pos hclog]
    have hlt : 2 ^ (Nat.clog 2 b.length).pred < b.length := Nat.pow_pred_clog_lt_self (by decide) (by omega)
    have hpos := Nat.two_pow_pos (Nat.clog 2 b.length).pred
    split
    case isTrue hlong =>
      exact ⟨none, rfl, fun _ h => (by cases h), fun _ _ _ _ hshort => absurd hlong (not_lt.mpr hshort)⟩
    case isFalse =>
      rw [hd]
      have htake : (b.take (2 ^ (Nat.clog 2 b.length).pred)).length = 2 ^ (Nat.clog 2 b.length).pred := by
        rw [List.length_take, min_eq_left hlt.le]
      obtain ⟨K, k, hK, hfor⟩ := Kernel.new_eq (b := b.take (2 ^ (Nat.clog 2 b.length).pred))
        (by omega) (by omega)
      rw [hK]
      refine ⟨_, rfl, fun p hp => ?_, fun _ _ _ _ _ => rfl⟩
      cases hp
      exact ⟨hpos, by dsimp only; omega, by dsimp only; omega, ⟨k, hfor⟩, rfl⟩

/-- A row of the tail arm, given the row of its kernel. -/
theorem Plan.For.finishRowStripe_eq {p : Plan} {b : List Gf16} (hp : p.For b) (covered : Nat)
    {syn : List (Row w)} (hsyn : syn.length = b.length) {r : Nat} (hr : b.length - 1 ≤ r)
    (hr' : r < 2 * b.length - 1) {residual : Option (Row w)}
    (hres : residual.getD 0 =
      convolve (b.take p.d) (fun j => syn.getD (b.length - 1 - j) 0) p.d r) :
    p.finishRowStripe covered syn r residual =
      some (convolve b (fun j => syn.getD (b.length - 1 - j) 0) b.length r) := by
  have hlen := hp.length
  have hq := hp.q
  unfold Plan.finishRowStripe
  rw [← hlen, if_neg (not_not.mpr ⟨hsyn, hr, hr'⟩)]
  dsimp only
  rw [fold_sources, hlen, sum_sources, hp.coeffs, hres, hlen, convolve_split hlen hq _ (by omega)]
  refine congrArg some (congrArg _ (congrArg _ (sum_congr rfl fun j hj => ?_)))
  have hindex : p.d + p.q - 1 - (p.d + j) = p.q - 1 - j := by omega
  rw [hindex]
  split
  case isTrue => rfl
  case isFalse h => rw [getD_eq_zero (l := b) (by omega), zero_smul]

end Tail

/-- What a plan for `b` holds, whichever arm it selects. -/
structure JointPlan.For (joint : JointPlan) (b : List Gf16) : Prop where
  whole : ∃ k, joint.whole.For b k
  peeled : ∀ p, joint.peeled = some p → p.For b
  tail : ∀ p, joint.tail = some p → p.For b

/-- Past a power of two by at most `MAX_Q` rows, a monic locator selects the peeled or the tail arm. -/
structure JointPlan.Selects (joint : JointPlan) (b : List Gf16) : Prop where
  peeled : ∀ k, b.length = 2 ^ k + 1 → 1 ≤ k → b.getLast? = some 1 → joint.peeled.isSome
  tail : ∀ k q, b.length = 2 ^ k + q → 2 ≤ q → q < 2 ^ k → q ≤ Tail.MAX_Q → b.getLast? = some 1 →
    joint.tail.isSome

theorem past_power {k q : Nat} (hq : 1 ≤ q) (hqk : q < 2 ^ k) :
    ¬ (2 ^ k + q).isPowerOfTwo ∧ 2 ^ k + q - nextPowerOfTwo (2 ^ k + q) / 2 = q := by
  have hsucc := pow_succ 2 k
  constructor
  · rintro ⟨j, hj⟩
    have hlow : k < j := (Nat.pow_lt_pow_iff_right (by decide : 1 < 2)).mp (by omega)
    have hhigh : j < k + 1 := (Nat.pow_lt_pow_iff_right (by decide : 1 < 2)).mp (by omega)
    omega
  · have hclog : Nat.clog 2 (2 ^ k + q) = k + 1 :=
      le_antisymm (Nat.clog_le_of_le_pow (by omega))
        ((Nat.lt_clog_iff_pow_lt (by decide)).mpr (by omega))
    rw [nextPowerOfTwo, hclog, hsucc, Nat.mul_div_cancel _ (by decide), Nat.add_sub_cancel_left]

theorem JointPlan.new_eq {locator : List Gf16} {m : Nat} (hpos : 1 ≤ m) (hle : m ≤ 32768)
    (hlen : locator.length = m + 1) :
    ∃ joint, JointPlan.new locator m = some joint ∧ joint.For (locator.drop 1) ∧
      joint.Selects (locator.drop 1) := by
  have hb : (locator.drop 1).length = m := by rw [List.length_drop, hlen, Nat.add_sub_cancel]
  obtain ⟨K, k, hK, hfor⟩ := Kernel.new_eq (b := locator.drop 1) (by omega) (by omega)
  obtain ⟨peeled, hpeeled, hpeeledFor, hpeeledSome⟩ := Peel.Plan.new_eq (locator.drop 1)
  obtain ⟨tail, htail, htailFor, htailSome⟩ := Tail.Plan.new_eq (locator.drop 1)
  unfold new
  dsimp only
  rw [hK, bind_some, hpeeled, htail]
  generalize hqm : (if m.isPowerOfTwo then 0 else m - nextPowerOfTwo m / 2) = q
  have hselect : ∀ k q', m = 2 ^ k + q' → 1 ≤ q' → q' < 2 ^ k →
      q = q' ∧ ¬ m.isPowerOfTwo ∧ m - nextPowerOfTwo m / 2 = q' := fun k q' hm hq' hqk => by
    obtain ⟨hpow, hpast⟩ := past_power hq' hqk
    rw [← hm] at hpow hpast
    rw [if_neg hpow, hpast] at hqm
    exact ⟨hqm.symm, hpow, hpast⟩
  have hpeeledOr : (if q = 1 then some peeled else some none) = some (if q = 1 then peeled else none) :=
    (apply_ite some _ _ _).symm
  have htailOr : (if 2 ≤ q ∧ q ≤ Tail.MAX_Q then some tail else some none) =
      some (if 2 ≤ q ∧ q ≤ Tail.MAX_Q then tail else none) := (apply_ite some _ _ _).symm
  rw [hpeeledOr, bind_some, htailOr, map_some]
  refine ⟨_, rfl, ⟨⟨k, hfor⟩, fun p hp => ?_, fun p hp => ?_⟩, fun k hm hk hlast => ?_,
    fun k q' hm hq hqk hmax hlast => ?_⟩
  · dsimp only at hp
    split at hp
    · exact hpeeledFor p hp
    · cases hp
  · dsimp only at hp
    split at hp
    · exact htailFor p hp
    · cases hp
  · have htwo : 2 ^ 1 ≤ 2 ^ k := Nat.pow_le_pow_right (by decide) hk
    rw [hb] at hm hpeeledSome
    obtain ⟨hq, -, -⟩ := hselect k 1 hm (le_refl 1) (by omega)
    rw [if_pos hq]
    exact hpeeledSome (by omega) hle ⟨k, by omega⟩ hlast
  · rw [hb] at hm htailSome
    obtain ⟨hq', hpow, hpast⟩ := hselect k q' hm (by omega) hqk
    dsimp only
    rw [if_pos (by omega)]
    exact htailSome (by omega) hle hpow hlast (by omega)

/-- The kernel's rows where it has them, and zero past them, are those of its product. -/
theorem residual_eq {K : Kernel} {b : List Gf16} {k : Nat} (hK : K.For b k) (hb : b ≠ []) (hpos : 0 < w)
    (hw : 16 ∣ w) {x : Nat → Row w} :
    ∃ out, linearImpl true K (fun j => if j < b.length then x j else 0) b.length false = some out ∧
      ∀ r, b.length - 1 ≤ r → (if r < 2 * b.length - 1 then some (out r) else none).getD 0 =
        convolve b x b.length r := by
  obtain ⟨out, hout, hrows⟩ := hK.linearImpl_convolve hb hpos hw
    (x := fun j => if j < b.length then x j else 0) (fun r hr => if_neg (not_lt.mpr hr)) false
  refine ⟨out, hout, fun r hr => ?_⟩
  split
  case isTrue h =>
    rw [getD_some, hrows r hr (by omega)]
    exact convolve_congr (fun j hj => if_pos hj) r
  case isFalse h => exact (convolve_eq_zero x (by omega)).symm

/-- Every arm leaves the correlation. -/
theorem JointPlan.For.stripe {joint : JointPlan} {locator : List Gf16} {m : Nat}
    (hjoint : joint.For (locator.drop 1)) (hlen : locator.length = m + 1) (hm : 1 ≤ m) (hpos : 0 < w)
    (hw : 16 ∣ w) (covered : Nat) {syn : List (Row w)} (hsyn : syn.length = m) :
    jointHankelStripe true covered joint m syn =
      some ((List.range m).map (hankel locator syn)) := by
  have hb : (locator.drop 1).length = m := by rw [List.length_drop, hlen, Nat.add_sub_cancel]
  have hne : ∀ d, 1 ≤ d → (locator.drop 1).take d ≠ [] := fun d hd =>
    List.length_pos_iff.mp (by rw [List.length_take]; omega)
  unfold jointHankelStripe
  split
  case h_1 _ _ p htail =>
    -- the short tail
    have hp := hjoint.tail p htail
    obtain ⟨k, hK⟩ := hp.kernel
    have hd : ((locator.drop 1).take p.d).length = p.d := by
      rw [List.length_take, hp.length]
      omega
    obtain ⟨out, hout, hrows⟩ := residual_eq hK (hne p.d hp.pos) hpos hw
    rw [hd] at hout hrows
    rw [hout, bind_some]
    refine Repair.mapM_eq_some fun t ht => ?_
    have htm := List.mem_range.mp ht
    have hlength := hp.length
    rw [hankel_eq_convolve locator hsyn]
    have hres : (if m - 1 + t < 2 * p.d - 1 then some (out (m - 1 + t)) else none).getD 0 =
        convolve ((locator.drop 1).take p.d) (fun j => syn.getD ((locator.drop 1).length - 1 - j) 0) p.d
          (m - 1 + t) := by
      rw [hrows _ (by omega), hb]
    have hrow := hp.finishRowStripe_eq covered (hsyn.trans hb.symm) (by omega) (by omega) hres
    rwa [hb] at hrow
  case h_2 _ _ p htail hpeeled =>
    -- one peeled term
    have hp := hjoint.peeled p hpeeled
    obtain ⟨k, hK⟩ := hp.kernel
    have htwo := hp.two
    rw [hb] at hK htwo
    have hd : ((locator.drop 1).take (m - 1)).length = m - 1 := by
      rw [List.length_take, hb]
      omega
    have hcount : p.count = m - 1 := by rw [Peel.Plan.count, hp.coeffs, hb, hd]
    obtain ⟨out, hout, hrows⟩ := residual_eq hK (hne (m - 1) (by omega)) hpos hw
    rw [hd] at hout hrows
    dsimp only
    rw [if_neg (not_not.mpr hcount), hout, map_some]
    have hrange : List.range m = List.range (m - 1) ++ [m - 1] := by
      rw [← List.range_succ, Nat.succ_eq_add_one, Nat.sub_add_cancel hm]
    have hlast := hp.last_row (fun j => syn.getD (m - 1 - j) 0)
    rw [hb, Nat.sub_self] at hlast
    rw [hrange, List.map_append, List.map_singleton, hankel_eq_convolve locator hsyn, ← hlast]
    refine congrArg (fun l => some (l ++ [syn.getD 0 0])) (List.map_congr_left fun j hj => ?_)
    have hjd := List.mem_range.mp hj
    have hres : (if m - 1 + j < 2 * (m - 1) - 1 then some (out (m - 1 + j)) else none).getD 0 =
        convolve ((locator.drop 1).take ((locator.drop 1).length - 1)) (fun j => syn.getD (m - 1 - j) 0)
          ((locator.drop 1).length - 1) ((locator.drop 1).length - 1 + j) := by
      rw [hb, hrows _ (by omega)]
    have hrow := hp.rows_eq (fun j => syn.getD (m - 1 - j) 0) (by omega) hres
    rw [hb, Nat.sub_self] at hrow
    rw [hankel_eq_convolve locator hsyn, ← hrow]
    congr 1
    exact if_congr (by omega) rfl rfl
  case h_3 =>
    -- the whole kernel
    obtain ⟨k, hK⟩ := hjoint.whole
    obtain ⟨out, hout, hrows⟩ := hK.linearImpl_convolve (List.length_pos_iff.mp (by omega)) hpos hw
      (x := fun j => if j < m then syn.getD (m - 1 - j) 0 else 0) (fun r hr => if_neg (by omega)) true
    rw [hb] at hout hrows
    rw [hout, map_some]
    refine congrArg some (List.map_congr_left fun t ht => ?_)
    have htm := List.mem_range.mp ht
    rw [hankel_eq_convolve locator hsyn, hrows _ (by omega) (by omega)]
    exact convolve_congr (fun j hj => if_pos hj) _

/-- The pruned product leaves the exact one on its band, and the arm selected for any row count
leaves the full correlation. -/
theorem joint_hankel_exact {locator : List Gf16} {m : Nat} (hpos : 1 ≤ m) (hle : m ≤ 32768)
    (hlen : locator.length = m + 1) :
    (∃ K, Kernel.new (locator.drop 1) = some K ∧
      ∀ w, 0 < w → 16 ∣ w → ∀ (x : Nat → Row w), (∀ r, m ≤ r → x r = 0) → ∀ demand,
        ∃ out, linearImpl true K x m demand = some out ∧
          ∀ r, m - 1 ≤ r → r ≤ 2 * m - 2 → out r = convolve (locator.drop 1) x m r) ∧
    ∃ joint, JointPlan.new locator m = some joint ∧ joint.Selects (locator.drop 1) ∧
      ∀ w, 0 < w → 16 ∣ w → ∀ covered (syn : List (Row w)), syn.length = m →
        jointHankelStripe true covered joint m syn =
          some ((List.range m).map (hankel locator syn)) := by
  have hb : (locator.drop 1).length = m := by rw [List.length_drop, hlen, Nat.add_sub_cancel]
  obtain ⟨K, k, hK, hfor⟩ := Kernel.new_eq (b := locator.drop 1) (by omega) (by omega)
  obtain ⟨joint, hjoint, hjointFor, hselects⟩ := JointPlan.new_eq hpos hle hlen
  refine ⟨⟨K, hK, fun w hw hdvd x hx demand => ?_⟩, joint, hjoint, hselects,
    fun w hw hdvd covered syn hsyn => hjointFor.stripe hlen hpos hw hdvd covered hsyn⟩
  have hexact := hfor.linearImpl_convolve (List.length_pos_iff.mp (by omega)) hw hdvd
    (fun r hr => hx r (hb ▸ hr)) demand
  rwa [hb] at hexact

/-- Three rows, one past a power of two, whose monic locator selects the peeled arm. -/
theorem joint_hankel_three :
    ∃ joint, JointPlan.new [ofNat 2, ofNat 3, ofNat 5, 1] 3 = some joint ∧ joint.peeled.isSome ∧
      jointHankelStripe (w := 16) true 0 joint 3 [fun _ => 1, fun _ => ofNat 7, fun _ => 1] =
        some ((List.range 3).map
          (hankel [ofNat 2, ofNat 3, ofNat 5, 1] [fun _ => 1, fun _ => ofNat 7, fun _ => 1])) := by
  have hlen : [ofNat 2, ofNat 3, ofNat 5, (1 : Gf16)].length = 3 + 1 := rfl
  obtain ⟨-, joint, hjoint, hselects, hstripe⟩ := joint_hankel_exact (by decide) (by decide) hlen
  exact ⟨joint, hjoint, hselects.peeled 1 rfl (le_refl 1) rfl,
    hstripe 16 (by decide) (dvd_refl 16) 0 _ rfl⟩

end NzbFast.Forney
