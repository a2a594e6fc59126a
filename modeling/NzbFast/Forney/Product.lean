import NzbFast.Forney.Poly

/-!
# Products and whole-field evaluation

The two uses of the additive transform in
`crates/nzbkit-base/src/par2repair/forney/poly.rs`: `Context::multiply`, which keeps
the plans it has built by the logarithm of their size, and `evaluate_field`, which
puts the values into the order of the field's elements by a Gray-code walk.
-/

namespace NzbFast.Forney

open Function Gf16 Polynomial List

/-! ## The product -/

def nextPowerOfTwo (len : Nat) : Nat := 2 ^ Nat.clog 2 len

/-- The transform size of a product of `len` coefficients. -/
def sizeOf (len : Nat) : Nat := max (nextPowerOfTwo len) 2

theorem sizeOf_eq (len : Nat) : sizeOf len = 2 ^ max (Nat.clog 2 len) 1 := by
  unfold sizeOf nextPowerOfTwo
  rcases le_total (Nat.clog 2 len) 1 with h | h
  · rw [max_eq_right h, max_eq_right (Nat.pow_le_pow_right (by decide) h)]
  · rw [max_eq_left h, max_eq_left (Nat.pow_le_pow_right (by decide) h)]

theorem trailingZeros_sizeOf (len : Nat) : trailingZeros (sizeOf len) = max (Nat.clog 2 len) 1 := by
  rw [sizeOf_eq, trailingZeros_two_pow]

theorem two_pow_trailingZeros (len : Nat) : 2 ^ trailingZeros (sizeOf len) = sizeOf len := by
  rw [trailingZeros_sizeOf, sizeOf_eq]

/-- The cache: the plan of each size that has been built. -/
structure Context where
  plans : Nat → Option Transform
  valid : ∀ k p, plans k = some p → Transform.new (2 ^ k) = some p

namespace Context

def new : Context where
  plans _ := none
  valid _ _ h := by cases h

/-- The plan for a product of `len` coefficients, built when the cache has none. -/
def planFor (ctx : Context) (len : Nat) : Option (Transform × Context) :=
  let n := sizeOf len
  let k := trailingZeros n
  match ctx.plans k with
  | some p => some (p, ctx)
  | none =>
    match h : Transform.new n with
    | none => none
    | some p => some (p, {
        plans := update ctx.plans k (some p)
        valid := fun k' p' hp' => by
          by_cases hk : k' = k
          · rw [hk, update_self, Option.some_inj] at hp'
            rw [hk, two_pow_trailingZeros, h, hp']
          · rw [update_of_ne hk] at hp'
            exact ctx.valid k' p' hp' })

/-- `multiply`; nothing when an assertion fails. -/
def multiply (ctx : Context) (a b : List Gf16) : Option (List Gf16 × Context) :=
  if a.isEmpty || b.isEmpty then none
  else
    let len := a.length + b.length - 1
    if 65536 < len then none
    else
      (ctx.planFor len).map fun (p, ctx) =>
        let x := p.forward (a.getD · 0)
        let y := p.forward (b.getD · 0)
        ((List.range len).map (p.inverse fun i => Gf16.mul (x i) (y i)), ctx)

theorem planFor_eq (ctx : Context) {len : Nat} (hlen : len ≤ 65536) :
    ∃ ctx', ctx.planFor len = some (Transform.plan (sizeOf len), ctx') := by
  have hlog : Nat.clog 2 len ≤ 16 := Nat.clog_le_of_le_pow hlen
  have hnew : Transform.new (sizeOf len) = some (Transform.plan (sizeOf len)) := by
    rw [sizeOf_eq]
    exact Transform.new_eq (by omega) (by omega)
  unfold planFor
  dsimp only
  split
  case h_1 p hp =>
    have hvalid := ctx.valid _ p hp
    rw [two_pow_trailingZeros, hnew, Option.some_inj] at hvalid
    exact ⟨ctx, by rw [hvalid]⟩
  case h_2 =>
    split
    case h_1 h => rw [hnew] at h; cases h
    case h_2 p h =>
      rw [hnew, Option.some_inj] at h
      exact ⟨_, by rw [h]⟩

end Context

theorem degree_mul_lt (a b : List Gf16) :
    (Gf.ofCoeffs a * Gf.ofCoeffs b).degree < (a.length + b.length - 1 : Nat) := by
  refine (degree_lt_iff_coeff_zero _ _).mpr fun i hi => ?_
  rw [coeff_mul]
  refine Finset.sum_eq_zero fun x hx => ?_
  have hsum := Finset.HasAntidiagonal.mem_antidiagonal.mp hx
  rw [Gf.coeff_ofCoeffs, Gf.coeff_ofCoeffs]
  rcases lt_or_ge x.1 a.length with h | h
  · rw [@Gf.getD_eq_zero _ _ b x.2 (by omega), mul_zero]
  · rw [Gf.getD_eq_zero h, zero_mul]

theorem multiply_eq (ctx : Context) {a b : List Gf16} (ha : a ≠ []) (hb : b ≠ [])
    (hlen : a.length + b.length - 1 ≤ 65536) :
    ∃ ctx', ctx.multiply a b = some ((List.range (a.length + b.length - 1)).map
      (Gf.ofCoeffs a * Gf.ofCoeffs b).coeff, ctx') := by
  obtain ⟨ctx', hplan⟩ := ctx.planFor_eq hlen
  have ha' := length_pos_iff.mpr ha
  have hb' := length_pos_iff.mpr hb
  have hle : a.length + b.length - 1 ≤ 2 ^ max (Nat.clog 2 (a.length + b.length - 1)) 1 :=
    (Nat.le_pow_clog (by decide) _).trans (Nat.pow_le_pow_right (by decide) (le_max_left _ _))
  have hk : max (Nat.clog 2 (a.length + b.length - 1)) 1 ≤ 16 :=
    Nat.max_le.mpr ⟨Nat.clog_le_of_le_pow hlen, by decide⟩
  have hdeg := degree_mul_lt a b
  rw [sizeOf_eq] at hplan
  generalize max (Nat.clog 2 (a.length + b.length - 1)) 1 = k at hplan hle hk
  -- the pointwise products are the transform of the product
  have hpoints : (fun i => Gf16.mul ((Transform.plan (2 ^ k)).forward (a.getD · 0) i)
      ((Transform.plan (2 ^ k)).forward (b.getD · 0) i)) =
        (Transform.plan (2 ^ k)).forward (Gf.ofCoeffs a * Gf.ofCoeffs b).coeff := by
    funext p
    rw [← mul_eq]
    rcases lt_or_ge p (2 ^ k) with hp | hp
    · have hdeg' : (Gf.ofCoeffs a * Gf.ofCoeffs b).degree < (2 ^ k : Nat) :=
        hdeg.trans_le (Nat.cast_le.mpr hle)
      rw [Transform.forward_eq hk _ hp, Transform.forward_eq hk _ hp, Transform.forward_eq hk _ hp,
        ← Gf.eval_ofCoeffs (by omega), ← Gf.eval_ofCoeffs (by omega), ← eval_mul, Gf.eval_eq_sum hdeg']
    · rw [Transform.forward_outside _ hp, Transform.forward_outside _ hp,
        Transform.forward_outside _ hp, Gf.getD_eq_zero (by omega), zero_mul,
        (degree_lt_iff_coeff_zero _ _).mp hdeg p (by omega)]
  refine ⟨ctx', ?_⟩
  have hempty : (a.isEmpty || b.isEmpty) = false := by simp [ha, hb]
  unfold Context.multiply
  rw [hempty, if_neg Bool.false_ne_true]
  dsimp only
  rw [if_neg (not_lt.mpr hlen), hplan, Option.map_some]
  rw [hpoints, Transform.inverse_forward]

/-! ## Evaluation at every element -/

def gray (i : Nat) : Nat := i ^^^ (i >>> 1)

/-- `evaluate_field`, the values at the words they are indexed by; nothing when an assertion
fails. -/
def evaluateField (coefficients : List Gf16) : Option (Nat → Gf16) :=
  if 65536 < coefficients.length then none
  else
    (Transform.new 65536).map fun p =>
      let x := p.forward (coefficients.getD · 0)
      ((List.range 65536).foldl (fun s i =>
        let (values, value) := s
        (update values value.bits.toNat (x (gray i)),
          if i < 65535 then value + C.getD (trailingZeros (i + 1)) 0 else value))
        ((fun _ => 0), 0)).1

theorem gray_bit (b : Bool) (n : Nat) :
    gray (Nat.bit b n) = Nat.bit (b != n.testBit 0) (gray n) := by
  have hn : n = Nat.bit (n.testBit 0) (n >>> 1) := (Nat.bit_testBit_zero_shiftRight_one n).symm
  unfold gray
  rw [Nat.bit_shiftRight_one]
  conv_lhs => rw [hn, Nat.xor_bit]
  rw [← hn]

theorem testBit_zero_succ (n : Nat) : (n + 1).testBit 0 = !n.testBit 0 := by
  rw [Nat.testBit_zero, Nat.testBit_zero, ← decide_not]
  congr 1
  rw [eq_iff_iff]
  omega

theorem trailingZeros_bit_true (n : Nat) : trailingZeros (Nat.bit true n) = 0 := by
  have hval : Nat.bit true n = 2 * n + 1 := rfl
  unfold trailingZeros
  rw [hval, dif_neg (by omega), if_pos (by omega)]

theorem trailingZeros_bit_false (n : Nat) :
    trailingZeros (Nat.bit false (n + 1)) = trailingZeros (n + 1) + 1 := by
  have hval : Nat.bit false (n + 1) = 2 * (n + 1) := rfl
  conv_lhs => unfold trailingZeros
  rw [hval, dif_neg (by omega), if_neg (by omega), Nat.mul_div_cancel_left _ (by decide)]

theorem gray_succ (i : Nat) : gray (i + 1) = gray i ^^^ 2 ^ trailingZeros (i + 1) := by
  induction i using Nat.strong_induction_on with
  | h i ih =>
    obtain ⟨b, n, rfl⟩ : ∃ b n, i = Nat.bit b n := ⟨i.bodd, i.div2, (Nat.bit_bodd_div2 i).symm⟩
    cases b with
    | false =>
      have hsucc : Nat.bit false n + 1 = Nat.bit true n := rfl
      have hone : 2 ^ 0 = Nat.bit true 0 := rfl
      rw [hsucc, trailingZeros_bit_true, gray_bit, gray_bit, hone, Nat.xor_bit, Nat.xor_zero]
      cases n.testBit 0 <;> rfl
    | true =>
      have hsucc : Nat.bit true n + 1 = Nat.bit false (n + 1) := rfl
      have hpow : ∀ t, 2 ^ (t + 1) = Nat.bit false (2 ^ t) := fun t => Nat.pow_succ'
      have hlt : n < Nat.bit true n := by
        have hval : Nat.bit true n = 2 * n + 1 := rfl
        omega
      rw [hsucc, trailingZeros_bit_false, gray_bit, gray_bit, hpow, Nat.xor_bit, testBit_zero_succ,
        ih n hlt]
      cases n.testBit 0 <;> rfl

theorem gray_lt {i : Nat} (hi : i < 65536) : gray i < 65536 :=
  Nat.xor_lt_two_pow (n := 16) hi (lt_of_le_of_lt (Nat.shiftRight_le i 1) hi)

theorem gray_injective {i j : Nat} (h : gray i = gray j) : i = j := by
  have hshift : i ^^^ j = (i ^^^ j) >>> 1 := by
    have hzero : (i ^^^ j) ^^^ (i ^^^ j) >>> 1 = 0 := by
      rw [Nat.shiftRight_xor_distrib, Nat.xor_assoc, Nat.xor_left_comm j, ← Nat.xor_assoc]
      exact Nat.xor_eq_zero_iff.mpr h
    exact Nat.xor_eq_zero_iff.mp hzero
  exact Nat.xor_eq_zero_iff.mp (by omega)

theorem two_pow_trailingZeros_le {n : Nat} (hn : n ≠ 0) : 2 ^ trailingZeros n ≤ n := by
  fun_induction trailingZeros n with
  | case1 => exact absurd rfl hn
  | case2 n _ _ => exact pos_of_ne_zero hn
  | case3 n _ hodd ih =>
    omega

theorem trailingZeros_lt {i : Nat} (hi : i < 65535) : trailingZeros (i + 1) < 16 := by
  have hle := two_pow_trailingZeros_le (Nat.succ_ne_zero i)
  refine (Nat.pow_lt_pow_iff_right one_lt_two).mp (lt_of_le_of_lt hle ?_)
  exact Nat.succ_lt_succ hi

theorem domain_gray_succ {i : Nat} (hi : i < 65535) :
    domain (gray (i + 1)) = domain (gray i) + C.getD (trailingZeros (i + 1)) 0 := by
  rw [gray_succ, domain, domain, Gf.point_xor, Gf.point_two_pow (trailingZeros_lt hi)]

theorem domain_zero : domain (gray 0) = 0 := by
  show ∑ t ∈ Finset.range 16, (if (0 : Nat).testBit t then C.getD t 0 else 0) = 0
  exact Finset.sum_eq_zero fun t _ => if_neg (by rw [Nat.zero_testBit]; exact Bool.false_ne_true)

theorem toNat_injective {a b : Gf16} (h : a.bits.toNat = b.bits.toNat) : a = b :=
  Gf16.ext (BitVec.eq_of_toNat_eq h)

/-- The walk leaves each value at its own element. -/
theorem walk_values (x : Nat → Gf16) : ∀ n ≤ 65536,
    let s := (range n).foldl (fun s i =>
      let (values, value) := s
      (update values value.bits.toNat (x (gray i)),
        if i < 65535 then value + C.getD (trailingZeros (i + 1)) 0 else value))
      ((fun _ => 0), (0 : Gf16))
    (n < 65536 → s.2 = domain (gray n)) ∧
      ∀ i < n, s.1 (domain (gray i)).bits.toNat = x (gray i) := by
  intro n
  induction n with
  | zero =>
    intro _
    refine ⟨fun _ => ?_, fun i hi => absurd hi (Nat.not_lt_zero i)⟩
    exact domain_zero.symm
  | succ n ih =>
    intro hn
    obtain ⟨hvalue, hvalues⟩ := ih (by omega)
    have hvalue := hvalue (by omega)
    rw [range_succ, foldl_append, foldl_cons, foldl_nil]
    refine ⟨fun h => ?_, fun i hi => ?_⟩
    · dsimp only at hvalue ⊢
      rw [if_pos (by omega), hvalue, domain_gray_succ (by omega)]
    · dsimp only at hvalue hvalues ⊢
      rw [hvalue]
      by_cases h : i = n
      · rw [h, update_self]
      · rw [update_of_ne, hvalues i (by omega)]
        intro he
        exact h (gray_injective (domain_injOn (gray_lt (by omega)) (gray_lt (by omega))
          (toNat_injective he)))

theorem exists_gray (z : Gf16) : ∃ i < 65536, domain (gray i) = z := by
  have hinj : Function.Injective fun i : Fin 65536 => domain (gray i) := fun i j h =>
    Fin.ext (gray_injective (domain_injOn (gray_lt i.isLt) (gray_lt j.isLt) h))
  have hcard : Fintype.card (Fin 65536) = Fintype.card Gf16 := by
    rw [Fintype.card_fin, card_eq]
    rfl
  obtain ⟨i, hi⟩ := ((Fintype.bijective_iff_injective_and_card _).mpr ⟨hinj, hcard⟩).2 z
  exact ⟨i, i.isLt, hi⟩

theorem evaluateField_eq {coefficients : List Gf16} (hlen : coefficients.length ≤ 65536) :
    ∃ values, evaluateField coefficients = some values ∧
      ∀ z : Gf16, values z.bits.toNat = (Gf.ofCoeffs coefficients).eval z := by
  have hnew : Transform.new 65536 = some (Transform.plan (2 ^ 16)) :=
    Transform.new_eq (k := 16) (le_refl 16) (by decide)
  unfold evaluateField
  rw [if_neg (not_lt.mpr hlen), hnew, Option.map_some]
  refine ⟨_, rfl, fun z => ?_⟩
  obtain ⟨i, hi, rfl⟩ := exists_gray z
  rw [(walk_values _ 65536 (le_refl _)).2 i hi,
    Transform.forward_eq (le_refl 16) _ (gray_lt hi), Gf.eval_ofCoeffs (n := 2 ^ 16) hlen]

end NzbFast.Forney
