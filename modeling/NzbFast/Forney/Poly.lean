import NzbFast.Gf.Additive
import NzbFast.Gf.Coefficients
import NzbFast.Gf.Field
import Mathlib.Data.Nat.Log

/-!
# The additive FFT

`crates/nzbkit-base/src/par2repair/forney/poly.rs`: the transform over the Cantor
basis, one plan for each size, and on it the product of two coefficient vectors and
the evaluation of one polynomial at every element of the field. The plan holds what
the additive transform needs: its term sets and twiddles are those of the basis.
-/

namespace NzbFast.Forney

open Function Gf16 Gf Finset

/-! ## The plan of one size -/

def C : List Gf16 :=
  [1, 350, 26, 7410, 5786, 48044, 64994, 18058, 1810, 7030, 44396, 17984, 42910, 62132, 63354,
    32738].map ofNat

/-- The level-`i` subspace polynomial at `x`. -/
def linear (ts : List Nat) (i : Nat) (x : Gf16) : Gf16 :=
  ((List.range (i + 1)).foldl (fun s j =>
    let (v, p) := s
    (if j = i ∨ j ∈ ts then v + p else v, Gf16.mul p p)) (0, x)).1

/-- `trailing_zeros` of a `usize`. -/
def trailingZeros (n : Nat) : Nat :=
  if _h : n = 0 then 64 else if n % 2 = 1 then 0 else trailingZeros (n / 2) + 1

structure Transform where
  n : Nat
  terms : List (List Nat)
  tw : List (List Gf16)

namespace Transform

/-- The `terms` of `new`. -/
def termSets (levels : Nat) : List (List Nat) :=
  (List.range levels).map fun i => (List.range i).filter fun j => j &&& i == j

/-- The `beta` of block `b`. -/
def beta (levels i b : Nat) : Gf16 :=
  ((C.zipIdx.take levels).drop (i + 1)).foldl (fun beta x =>
    let (v, t) := x
    if (b >>> (t - i - 1)) &&& 1 ≠ 0 then beta + v else beta) 0

/-- What `new` builds. -/
def plan (n : Nat) : Transform :=
  let levels := trailingZeros n
  let terms := termSets levels
  { n, terms
    tw := (List.range levels).map fun i =>
      (List.range (n >>> (i + 1))).map fun b => linear (terms.getD i []) i (beta levels i b) }

/-- `new`; nothing when an assertion fails. -/
def new (n : Nat) : Option Transform :=
  if ¬ (n.isPowerOfTwo ∧ 2 ≤ n ∧ n ≤ 65536) then none
  else if (termSets (trailingZeros n)).zipIdx.all fun x =>
      let (ts, i) := x
      (i = 0 ∨ Gf16.mul (C.getD i 0) (C.getD i 0) + C.getD i 0 = C.getD (i - 1) 0) ∧
        linear ts i (C.getD i 0) = 1 then some (plan n)
  else none

def forward (p : Transform) (a : Nat → Gf16) : Nat → Gf16 :=
  let levels := p.terms.length
  let a := (List.range levels).reverse.foldl (fun a i =>
    let half := 1 <<< i
    Gf.blocks p.n (half * 2) (fun _ base a =>
      (List.range' half half).reverse.foldl (fun a t =>
        let q := a (base + t)
        (p.terms.getD i []).foldl (fun a j =>
          update a (base + t - half + 1 <<< j) (a (base + t - half + 1 <<< j) + q)) a) a) a) a
  (List.range levels).reverse.foldl (fun a i =>
    let half := 1 <<< i
    Gf.blocks p.n (half * 2) (fun b base a =>
      let c := (p.tw.getD i []).getD b 0
      (List.range half).foldl (fun a j =>
        let v := a (base + half + j)
        let u := a (base + j) + Gf16.mul c v
        update (update a (base + j) u) (base + half + j) (u + v)) a) a) a

def inverse (p : Transform) (a : Nat → Gf16) : Nat → Gf16 :=
  let levels := p.terms.length
  let a := (List.range levels).foldl (fun a i =>
    let half := 1 <<< i
    Gf.blocks p.n (half * 2) (fun b base a =>
      let c := (p.tw.getD i []).getD b 0
      (List.range half).foldl (fun a j =>
        let v := a (base + j) + a (base + half + j)
        update (update a (base + j) (a (base + j) + Gf16.mul c v)) (base + half + j) v) a) a) a
  (List.range levels).foldl (fun a i =>
    let half := 1 <<< i
    Gf.blocks p.n (half * 2) (fun _ base a =>
      (List.range' half half).foldl (fun a t =>
        let q := a (base + t)
        (p.terms.getD i []).foldl (fun a j =>
          update a (base + t - half + 1 <<< j) (a (base + t - half + 1 <<< j) + q)) a) a) a) a

end Transform

/-! ## The basis -/

theorem trailingZeros_two_pow (k : Nat) : trailingZeros (2 ^ k) = k := by
  induction k with
  | zero =>
    unfold trailingZeros
    decide
  | succ k ih =>
    have hpos := Nat.two_pow_pos (k + 1)
    have heven : ¬ 2 ^ (k + 1) % 2 = 1 := by
      omega
    unfold trailingZeros
    rw [dif_neg (by omega), if_neg heven, Nat.pow_succ, Nat.mul_div_cancel _ (by decide), ih]

theorem cantor_step : ∀ i < 15, C.getD (i + 1) 0 * C.getD (i + 1) 0 + C.getD (i + 1) 0 = C.getD i 0 := by
  simp only [mul_eq_shiftMul]
  decide

theorem cantor {k : Nat} (hk : k ≤ 16) : Gf.Cantor (C.getD · 0) k where
  one := rfl
  step i hi := cantor_step i (by omega)

/-- The submasks of a level are the odd binomial coefficients. -/
theorem choose_odd_iff : ∀ i < 16, ∀ j < i, i.choose j % 2 = 1 ↔ j &&& i = j := by decide

/-- The term set of level `i`. -/
def submasks (i : Nat) : List Nat := (List.range i).filter fun j => j &&& i == j

theorem choose_cast {i j : Nat} (hi : i < 16) (hj : j < i) :
    (i.choose j : Gf16) = if j &&& i = j then 1 else 0 := by
  rw [CharTwo.natCast_eq_mod (i.choose j)]
  by_cases h : j &&& i = j
  · rw [if_pos h, (choose_odd_iff i hi j hj).mpr h, Nat.cast_one]
  · have hzero : i.choose j % 2 = 0 := by
      have := (choose_odd_iff i hi j hj).not.mpr h
      omega
    rw [if_neg h, hzero, Nat.cast_zero]

theorem sum_range_eq {M : Type*} [AddCommMonoid M] (f : Nat → M) (n : Nat) :
    ((List.range n).map f).sum = ∑ j ∈ Finset.range n, f j := (Multiset.sum_coe _).symm

theorem subspace_submasks {i : Nat} (hi : i < 16) (x : Gf16) :
    Gf.subspace i x = x ^ 2 ^ i + ((List.range i).map fun j => if j &&& i = j then x ^ 2 ^ j else 0).sum := by
  rw [subspace_eq_sum, sum_range_succ, Nat.choose_self, Nat.cast_one, one_mul, add_comm,
    sum_range_eq]
  congr 1
  refine sum_congr rfl fun j hj => ?_
  rw [choose_cast hi (mem_range.mp hj), ite_mul, one_mul, zero_mul]

theorem sum_filter_map {M : Type*} [AddCommMonoid M] (p : Nat → Bool) (f : Nat → M) (l : List Nat) :
    ((l.filter p).map f).sum = (l.map fun j => if p j then f j else 0).sum := by
  induction l with
  | nil => rfl
  | cons j l ih =>
    cases h : p j with
    | true => rw [List.filter_cons_of_pos h, List.map_cons, List.sum_cons, ih, List.map_cons, List.sum_cons, h, if_pos rfl]
    | false =>
      rw [List.filter_cons_of_neg (by simp [h]), ih, List.map_cons, List.sum_cons, h,
        if_neg Bool.false_ne_true, zero_add]

theorem terms_submasks {i : Nat} (hi : i < 16) : Gf.Terms Gf16 (submasks i) i where
  lt j hj := List.mem_range.mp (List.mem_filter.mp hj).1
  eq x := by
    rw [subspace_submasks hi, submasks, sum_filter_map]
    simp only [beq_iff_eq]

theorem linear_submasks {i : Nat} (hi : i < 16) (x : Gf16) :
    linear (submasks i) i x = Gf.subspace i x := by
  have hloop : ∀ n, (List.range n).foldl (fun s j =>
      let (v, p) := s
      (if j = i ∨ j ∈ submasks i then v + p else v, Gf16.mul p p)) ((0 : Gf16), x) =
        (((List.range n).map fun j => if j = i ∨ j ∈ submasks i then x ^ 2 ^ j else 0).sum, x ^ 2 ^ n) := by
    intro n
    induction n with
    | zero => simp
    | succ n ih =>
      rw [List.range_succ, List.foldl_append, ih, List.map_append, List.sum_append, List.map_singleton,
        List.sum_singleton, List.foldl_cons, List.foldl_nil]
      dsimp only
      rw [← mul_eq, ← pow_add, ← two_mul, ← pow_succ', add_ite, add_zero]
  have hmem : ∀ j, j < i → (j = i ∨ j ∈ submasks i ↔ j &&& i = j) := fun j hj => by
    rw [submasks, List.mem_filter, List.mem_range, beq_iff_eq]
    exact ⟨fun h => (h.resolve_left hj.ne).2, fun h => .inr ⟨hj, h⟩⟩
  rw [linear, hloop, List.range_succ, List.map_append, List.sum_append, List.map_singleton,
    List.sum_singleton, if_pos (.inl rfl), add_comm, subspace_submasks hi]
  refine congrArg (fun l => x ^ 2 ^ i + List.sum l) ?_
  refine List.map_congr_left fun j hj => ?_
  exact if_congr (hmem j (List.mem_range.mp hj)) rfl rfl

namespace Transform

variable {k : Nat}

theorem terms_plan {i : Nat} (hi : i < k) : (plan (2 ^ k)).terms.getD i [] = submasks i := by
  show (termSets (trailingZeros (2 ^ k))).getD i [] = submasks i
  rw [trailingZeros_two_pow, termSets, List.getD_eq_getElem?_getD, List.getElem?_map,
    List.getElem?_range hi]
  rfl

theorem length_terms_plan : (plan (2 ^ k)).terms.length = k := by
  show (termSets (trailingZeros (2 ^ k))).length = k
  rw [trailingZeros_two_pow, termSets, List.length_map, List.length_range]

theorem basis_eq : C.zipIdx = (List.range 16).map fun t => (C.getD t 0, t) := by decide

/-- The representative of a block is the point at its base. -/
theorem beta_eq (hk : k ≤ 16) {i b : Nat} (hi : i < k) :
    beta k i b = Gf.point (C.getD · 0) k (b * (2 * 2 ^ i)) := by
  have hsum : ∀ l : List Nat, ∀ s : Gf16, (l.map fun t => (C.getD t 0, t)).foldl (fun beta x =>
      let (v, t) := x
      if (b >>> (t - i - 1)) &&& 1 ≠ 0 then beta + v else beta) s =
        s + (l.map fun t => if b.testBit (t - (i + 1)) then C.getD t 0 else 0).sum := by
    intro l
    induction l with
    | nil => simp
    | cons t l ih =>
      intro s
      have hbit : (b >>> (t - i - 1)) &&& 1 ≠ 0 ↔ b.testBit (t - (i + 1)) = true := by
        rw [Nat.testBit, Nat.sub_add_eq, Nat.and_comm, bne_iff_ne]
      rw [List.map_cons, List.foldl_cons, ih, List.map_cons, List.sum_cons, ← add_assoc]
      dsimp only
      by_cases h : b.testBit (t - (i + 1)) = true
      · rw [if_pos h, if_pos (hbit.mpr h)]
      · rw [if_neg h, if_neg (hbit.not.mpr h), add_zero]
  have hbit : ∀ t, (b * (2 * 2 ^ i)).testBit t = (decide (i + 1 ≤ t) && b.testBit (t - (i + 1))) :=
    fun t => by rw [← pow_succ', mul_comm, Nat.testBit_two_pow_mul]
  have hlevels : k = (i + 1) + (k - (i + 1)) := by omega
  have hlow : ∑ t ∈ range (i + 1),
      (if (b * (2 * 2 ^ i)).testBit t then C.getD t 0 else 0) = 0 :=
    sum_eq_zero fun t ht => by
      have hlow := mem_range.mp ht
      rw [hbit, decide_eq_false (by omega), Bool.false_and, if_neg Bool.false_ne_true]
  rw [beta, basis_eq, ← List.map_take, ← List.map_drop, hsum, zero_add, List.take_range,
    min_eq_left hk, List.range_eq_range', List.drop_range', List.range'_eq_map_range, List.map_map,
    sum_range_eq, point]
  conv_rhs => rw [hlevels, sum_range_add, hlow, zero_add]
  refine sum_congr rfl fun t _ => ?_
  rw [hbit, comp_apply, Nat.zero_add, Nat.mul_one, decide_eq_true (Nat.le_add_right _ _),
    Bool.true_and]

theorem tw_plan (hk : k ≤ 16) {i b : Nat} (hi : i < k) (hb : b < 2 ^ (k - i - 1)) :
    ((plan (2 ^ k)).tw.getD i []).getD b 0 =
      Gf.subspace i (Gf.point (C.getD · 0) k (b * (2 * 2 ^ i))) := by
  have hcount : 2 ^ k >>> (i + 1) = 2 ^ (k - i - 1) := by
    rw [Nat.shiftRight_eq_div_pow, Nat.pow_div (by omega) (by decide), Nat.sub_add_eq]
  have hterms : (termSets k).getD i [] = submasks i := by
    rw [termSets, List.getD_eq_getElem?_getD, List.getElem?_map, List.getElem?_range hi]
    rfl
  unfold plan
  rw [trailingZeros_two_pow, List.getD_eq_getElem?_getD, List.getD_eq_getElem?_getD, List.getElem?_map,
    List.getElem?_range hi, Option.map_some, Option.getD_some, hcount, List.getElem?_map,
    List.getElem?_range hb, Option.map_some, Option.getD_some, hterms, linear_submasks (by omega),
    beta_eq hk hi]

theorem new_eq (hk : k ≤ 16) (hpos : 1 ≤ k) : new (2 ^ k) = some (plan (2 ^ k)) := by
  have hlow : 2 ^ 1 ≤ 2 ^ k := Nat.pow_le_pow_right (by decide) hpos
  have hhigh : 2 ^ k ≤ 2 ^ 16 := Nat.pow_le_pow_right (by decide) hk
  unfold new
  rw [if_neg (not_not.mpr ⟨⟨k, rfl⟩, hlow, hhigh⟩), trailingZeros_two_pow, if_pos]
  rw [List.all_eq_true]
  rintro ⟨ts, i⟩ hmem
  have hget := List.mem_zipIdx_iff_getElem?.mp hmem
  obtain ⟨hi, rfl⟩ : i < k ∧ submasks i = ts := by
    rw [termSets, List.getElem?_map, Option.map_eq_some_iff] at hget
    obtain ⟨t, ht, hts⟩ := hget
    obtain ⟨hi, rfl⟩ := List.getElem?_eq_some_iff.mp ht
    rw [List.getElem_range] at hts
    exact ⟨by simpa using hi, hts⟩
  rw [decide_eq_true_eq, linear_submasks (by omega), (cantor hk).subspace_self hi]
  refine ⟨?_, rfl⟩
  cases i with
  | zero => exact .inl rfl
  | succ i => exact .inr (cantor_step i (by omega))

theorem forward_plan (a : Nat → Gf16) : (plan (2 ^ k)).forward a =
    Gf.forward k (fun i => (plan (2 ^ k)).terms.getD i [])
      (fun i b => ((plan (2 ^ k)).tw.getD i []).getD b 0) a := by
  unfold forward Gf.forward Gf.divideLevel Gf.combineLevel Gf.divide Gf.spread Gf.pairs Gf.butterfly
  rw [length_terms_plan]
  simp only [Nat.one_shiftLeft, mul_comm _ 2, smul_eq_mul, mul_eq]
  rfl

theorem inverse_plan (a : Nat → Gf16) : (plan (2 ^ k)).inverse a =
    Gf.backward k (fun i => (plan (2 ^ k)).terms.getD i [])
      (fun i b => ((plan (2 ^ k)).tw.getD i []).getD b 0) a := by
  unfold inverse backward undivideLevel uncombineLevel undivide spread pairs
  rw [length_terms_plan]
  simp only [Nat.one_shiftLeft, mul_comm _ 2, smul_eq_mul, mul_eq]
  rfl

end Transform

/-! ## The two transforms -/

def domain (p : Nat) : Gf16 := Gf.point (C.getD · 0) 16 p

theorem domain_injOn {p q : Nat} (hp : p < 65536) (hq : q < 65536) (h : domain p = domain q) : p = q :=
  point_injOn (cantor (le_refl 16)) hp hq h

namespace Transform

variable {k : Nat}

/-- The forward transform evaluates at the first points of the domain. -/
theorem forward_eq (hk : k ≤ 16) (a : Nat → Gf16) {p : Nat} (hp : p < 2 ^ k) :
    (plan (2 ^ k)).forward a p = ∑ t ∈ Finset.range (2 ^ k), a t * domain p ^ t := by
  rw [forward_plan, forward_apply (cantor hk) hp
      (fun i hi => terms_plan hi ▸ terms_submasks (by omega))
      (fun i hi b hb => tw_plan hk hi hb), domain, point_levels hk hp]
  refine sum_congr rfl fun t _ => ?_
  rw [smul_eq_mul, mul_comm, zero_add]

theorem terms_lt : ∀ i < k, ∀ j ∈ (plan (2 ^ k)).terms.getD i [], j < i := fun i hi j hj => by
  rw [terms_plan hi] at hj
  exact List.mem_range.mp (List.mem_filter.mp hj).1

theorem inverse_forward (a : Nat → Gf16) : (plan (2 ^ k)).inverse ((plan (2 ^ k)).forward a) = a := by
  rw [forward_plan, inverse_plan]
  exact backward_forward terms_lt _ a

theorem forward_outside (a : Nat → Gf16) {p : Nat} (hp : 2 ^ k ≤ p) :
    (plan (2 ^ k)).forward a p = a p := by
  rw [forward_plan]
  exact Gf.forward_outside hp terms_lt _ a

end Transform

end NzbFast.Forney
