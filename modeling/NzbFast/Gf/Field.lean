import NzbFast.Gf.Words
import Mathlib.Algebra.CharP.Two

/-!
# GF(2^16) is a field

What the loops of `tables` leave, and from it the laws of the product read off the
tables: `Gf16` is a field whose product and inverse are those of `gf16.rs`. A
`MulTable` multiplies by its scalar.
-/

namespace NzbFast.Gf16

open Function List

/-! ## The tables -/

/-- The first `n` powers of 2 and their logarithms are filled in. -/
structure Filled (n : Nat) (t : Tables) : Prop where
  exp : ∀ i < n, t.exp i = xtimeHom^[i] 1
  log : ∀ i < n, t.log (xtimeHom^[i] 1) = i

theorem fill_succ (n : Nat) : fill (n + 1) =
    (⟨update (fill n).1.exp n (ofNat (fill n).2), update (fill n).1.log (ofNat (fill n).2) n⟩,
      next (fill n).2) := by
  unfold fill
  rw [range_succ, foldl_append]
  rfl

theorem filled_fill {n : Nat} (hn : n ≤ ORDER) :
    Filled n (fill n).1 ∧ (fill n).2 = next^[n] 1 := by
  induction n with
  | zero => exact ⟨⟨fun _ h => absurd h (Nat.not_lt_zero _), fun _ h => absurd h (Nat.not_lt_zero _)⟩, rfl⟩
  | succ n ih =>
    obtain ⟨hfill, hv⟩ := ih (Nat.le_of_succ_le hn)
    rw [fill_succ]
    have hpow : ofNat (fill n).2 = xtimeHom^[n] 1 := by rw [hv, (iterate_xtime n).1]
    refine ⟨⟨fun i hi => ?_, fun i hi => ?_⟩, ?_⟩
    · dsimp only
      by_cases h : i = n
      · rw [h, update_self, hpow]
      · rw [update_of_ne h, hfill.exp i (by omega)]
    · dsimp only
      by_cases h : i = n
      · rw [h, hpow, update_self]
      · rw [hpow, update_of_ne, hfill.log i (by omega)]
        exact fun hp => h (generates.iterate_inj (by omega) (by omega) hp)
    · dsimp only
      rw [hv, iterate_succ_apply']

/-- The second loop: the powers again, from `ORDER` on. -/
theorem foldl_double (exp : Nat → Gf16) (n : Nat) (hn : n ≤ ORDER) (j : Nat) :
    (List.range n).foldl (fun exp i => update exp (ORDER + i) (exp i)) exp j =
      if ORDER ≤ j ∧ j < ORDER + n then exp (j - ORDER) else exp j := by
  induction n generalizing j with
  | zero => rw [range_zero, foldl_nil, if_neg (by omega)]
  | succ n ih =>
    have ih := ih (by omega)
    rw [range_succ, foldl_append, foldl_cons, foldl_nil]
    by_cases h : j = ORDER + n
    · rw [h, update_self, ih, if_neg (by omega), if_pos (by omega), Nat.add_sub_cancel_left]
    · rw [update_of_ne h, ih]
      by_cases hj : ORDER ≤ j ∧ j < ORDER + n
      · rw [if_pos hj, if_pos (by omega)]
      · rw [if_neg hj, if_neg (by omega)]

theorem tables_eq : tables = double (fill ORDER).1 := by
  delta tables
  with_reducible rfl

theorem log_double (t : Tables) : (double t).log = t.log := by rw [double]

theorem exp_eq {i : Nat} (hi : i < 2 * ORDER) : tables.exp i = xtimeHom^[i] 1 := by
  have hfill := (filled_fill (le_refl ORDER)).1
  rw [tables_eq, double]
  dsimp only
  rw [foldl_double _ _ (le_refl _)]
  split
  case isTrue h =>
    rw [hfill.exp _ (by omega), ← generates.iterate_mod i, Nat.mod_eq_sub_mod h.1,
      Nat.mod_eq_of_lt (by omega)]
  case isFalse h => exact hfill.exp i (by omega)

theorem log_iterate (i : Nat) : tables.log (xtimeHom^[i] 1) = i % ORDER := by
  have hlog := (filled_fill (le_refl ORDER)).1.log _ (Nat.mod_lt i generates.pos)
  rw [← generates.iterate_mod i, tables_eq, log_double]
  exact hlog

theorem multiplies : Gf.Multiplies xtimeHom (1 : Gf16) mul where
  zero b := if_pos (.inl rfl)
  iterate i b := by
    unfold mul
    by_cases hb : b = 0
    · rw [if_pos (.inr hb), hb, iterate_map_zero]
    · rw [if_neg (not_or.mpr ⟨generates.iterate_ne_zero i, hb⟩), log_iterate]
      obtain ⟨j, hj, rfl⟩ := generates.orbit b hb
      have hi := Nat.mod_lt i generates.pos
      rw [log_iterate, Nat.mod_eq_of_lt hj, exp_eq (by omega), iterate_add_apply,
        ← iterate_add_apply xtimeHom i, ← generates.iterate_mod (i + j), ← Nat.mod_add_mod,
        generates.iterate_mod, iterate_add_apply]

/-! ## The field -/

instance : Mul Gf16 := ⟨mul⟩

theorem mul_eq (a b : Gf16) : a * b = mul a b := rfl

theorem inv_iterate (i : Nat) (hi : i < ORDER) : inv (xtimeHom^[i] 1) = xtimeHom^[ORDER - i] 1 := by
  unfold inv
  rw [log_iterate, Nat.mod_eq_of_lt hi, exp_eq (by omega)]

instance : Field Gf16 where
  mul_assoc := multiplies.assoc generates
  mul_comm := multiplies.comm generates
  one_mul := multiplies.one
  mul_one a := (multiplies.comm generates a 1).trans (multiplies.one a)
  zero_mul := multiplies.zero
  mul_zero := multiplies.mul_zero generates
  left_distrib := multiplies.add generates
  right_distrib a b c := by
    rw [mul_eq, mul_eq, mul_eq, multiplies.comm generates, multiplies.add generates,
      multiplies.comm generates a, multiplies.comm generates b]
  inv a := if a = 0 then 0 else inv a
  exists_pair_ne := ⟨0, 1, by decide⟩
  mul_inv_cancel a ha := by
    obtain ⟨i, hi, rfl⟩ := generates.orbit a ha
    show mul (xtimeHom^[i] 1) (if xtimeHom^[i] 1 = 0 then 0 else inv (xtimeHom^[i] 1)) = 1
    rw [if_neg ha, inv_iterate i hi]
    exact multiplies.inverse generates hi.le
  inv_zero := if_pos rfl
  nnqsmul := _
  nnqsmul_def := fun _ _ => rfl
  qsmul := _
  qsmul_def := fun _ _ => rfl

theorem inv_eq {a : Gf16} (ha : a ≠ 0) : inv a = a⁻¹ := (if_neg ha).symm

instance : CharP Gf16 2 :=
  CharTwo.of_one_ne_zero_of_two_eq_zero one_ne_zero (by rw [← one_add_one_eq_two]; exact add_self 1)

def gen : Gf16 := ofNat 2

theorem xtime_eq (v : Gf16) : xtimeHom v = gen * v := (multiplies.iterate 1 v).symm

theorem iterate_eq (i : Nat) (v : Gf16) : xtimeHom^[i] v = gen ^ i * v := by
  induction i with
  | zero => rw [pow_zero, one_mul, iterate_zero_apply]
  | succ i ih => rw [iterate_succ_apply', ih, xtime_eq, pow_succ', mul_assoc]

theorem gen_pow_order : gen ^ ORDER = 1 := by
  have hback := generates.back
  rwa [iterate_eq, mul_one] at hback

theorem gen_ne_zero : gen ≠ 0 := by decide

theorem gen_pow_mod (e : Nat) : gen ^ (e % ORDER) = gen ^ e := by
  conv_rhs => rw [← Nat.mod_add_div e ORDER, pow_add, pow_mul, gen_pow_order, one_pow, mul_one]

theorem pow2_eq (e : Nat) : pow2 e = gen ^ e := by
  have hlt := Nat.mod_lt e generates.pos
  unfold pow2
  rw [exp_eq (by omega), iterate_eq, mul_one, gen_pow_mod]

theorem gen_pow_inj {i j : Nat} (h : gen ^ i = gen ^ j) : i % ORDER = j % ORDER := by
  rw [← gen_pow_mod i, ← gen_pow_mod j, ← mul_one (gen ^ (i % ORDER)), ← iterate_eq,
    ← mul_one (gen ^ (j % ORDER)), ← iterate_eq] at h
  exact generates.iterate_inj (Nat.mod_lt _ generates.pos) (Nat.mod_lt _ generates.pos) h

/-! ## Multiplication by one scalar -/

def powerChain (c : Gf16) (k : Nat) : Gf16 := xtime^[k] c

/-- The subset walk: each round of the outer loop doubles what is filled in. -/
def subsetWalk (pw : Nat → Gf16) : Nat → Gf16 :=
  (List.range 8).foldl (fun t b =>
    (List.range (1 <<< b)).foldl (fun t i => update t (i ||| 1 <<< b) (t i + pw b)) t) fun _ => 0

/-- The split byte tables of a scalar. -/
structure MulTable where
  lo : Nat → Gf16
  hi : Nat → Gf16

namespace MulTable

/-- `split_tables`. -/
def new (c : Gf16) : MulTable where
  lo := subsetWalk (powerChain c)
  hi := subsetWalk fun b => powerChain c (b + 8)

def mul (t : MulTable) (w : Gf16) : Gf16 :=
  t.lo (w.bits &&& 0xff).toNat + t.hi (w.bits >>> 8).toNat

end MulTable

theorem powerChain_eq (c : Gf16) (k : Nat) : powerChain c k = gen ^ k * c := iterate_eq k c

theorem ofNat_xor (m n : Nat) : ofNat (m ^^^ n) = ofNat m + ofNat n := Gf16.ext BitVec.ofNat_xor

theorem or_bit {i b : Nat} (hi : i < 2 ^ b) : i ||| 1 <<< b = i ^^^ 1 <<< b := by
  rw [Nat.one_shiftLeft]
  refine Nat.eq_of_testBit_eq fun j => ?_
  rw [Nat.testBit_or, Nat.testBit_xor]
  cases hj : (2 ^ b).testBit j with
  | false => rw [Bool.or_false, Bool.xor_false]
  | true =>
    rw [Nat.testBit_two_pow] at hj
    rw [← of_decide_eq_true hj, Nat.testBit_lt_two_pow hi]
    rfl

theorem ofNat_two_pow {k : Nat} (hk : k < 16) : ofNat (2 ^ k) = gen ^ k := by
  have hall : ∀ k : Fin 16, ofNat (2 ^ k.val) = xtime^[k.val] 1 := by decide
  exact (hall ⟨k, hk⟩).trans ((iterate_eq k 1).trans (mul_one _))

theorem foldl_subset (t : Nat → Gf16) (p : Gf16) (b n : Nat) (hn : n ≤ 2 ^ b) (j : Nat) :
    (List.range n).foldl (fun t i => update t (i ||| 1 <<< b) (t i + p)) t j =
      if 2 ^ b ≤ j ∧ j < 2 ^ b + n then t (j - 2 ^ b) + p else t j := by
  induction n generalizing j with
  | zero => rw [range_zero, foldl_nil, if_neg (by omega)]
  | succ n ih =>
    have ih := ih (by omega)
    have hor : n ||| 1 <<< b = n + 2 ^ b := by
      rw [Nat.one_shiftLeft]
      exact Nat.or_two_pow_eq_add_of_lt hn
    rw [range_succ, foldl_append, foldl_cons, foldl_nil, hor]
    by_cases h : j = n + 2 ^ b
    · rw [h, update_self, ih, if_neg (by omega), if_pos (by omega), Nat.add_sub_cancel]
    · rw [update_of_ne h, ih]
      by_cases hj : 2 ^ b ≤ j ∧ j < 2 ^ b + n
      · rw [if_pos hj, if_pos (by omega)]
      · rw [if_neg hj, if_neg (by omega)]

/-- Every entry of a filled table is the product by its index, moved up by `s` bits. -/
theorem subsetWalk_eq {pw : Nat → Gf16} {c : Gf16} {s : Nat} (hs : s ≤ 8)
    (hpw : ∀ b < 8, pw b = gen ^ (b + s) * c) {i : Nat} (hi : i < 256) :
    subsetWalk pw i = c * ofNat (i <<< s) := by
  have hwalk : ∀ b ≤ 8, ∀ i < 2 ^ b, (range b).foldl (fun t b =>
      (range (1 <<< b)).foldl (fun t i => update t (i ||| 1 <<< b) (t i + pw b)) t)
      (fun _ => 0) i = c * ofNat (i <<< s) := by
    intro b
    induction b with
    | zero =>
      intro _ i hi
      have hi0 : i = 0 := Nat.lt_one_iff.mp hi
      rw [hi0, Nat.zero_shiftLeft]
      exact (mul_zero c).symm
    | succ b ih =>
      intro hb i hi
      have ih := ih (by omega)
      rw [range_succ, foldl_append, foldl_cons, foldl_nil,
        foldl_subset _ _ b (1 <<< b) (Nat.one_shiftLeft b).le, Nat.one_shiftLeft]
      split
      case isTrue h =>
        have hlow : i - 2 ^ b < 2 ^ b := by omega
        have hi' : i = (i - 2 ^ b) ^^^ 1 <<< b := by
          rw [← or_bit hlow, Nat.one_shiftLeft, Nat.or_two_pow_eq_add_of_lt hlow]
          omega
        have hbit : ofNat ((1 <<< b) <<< s) = gen ^ (b + s) := by
          rw [← Nat.shiftLeft_add, Nat.one_shiftLeft, ofNat_two_pow (by omega)]
        rw [ih _ hlow, hpw b (by omega)]
        conv_rhs => rw [hi', Nat.shiftLeft_xor_distrib, ofNat_xor, hbit, mul_add, mul_comm c (gen ^ _)]
      case isFalse h => exact ih i (by omega)
  exact hwalk 8 (le_refl 8) i hi

@[simp] theorem MulTable.mul_new (c w : Gf16) : (MulTable.new c).mul w = c * w := by
  have hlo : (w.bits &&& 0xff).toNat < 256 := by
    exact Nat.lt_succ_of_le Nat.and_le_right
  have hhi : (w.bits >>> 8).toNat < 256 := by
    rw [BitVec.toNat_ushiftRight, Nat.shiftRight_eq_div_pow]
    omega
  have hsum : ofNat ((w.bits &&& 0xff).toNat <<< 0) + ofNat ((w.bits >>> 8).toNat <<< 8) = w := by
    ext1
    refine BitVec.eq_of_getLsbD_eq fun j hj => ?_
    have hmask : (0xff : BitVec 16).getLsbD j = decide (j < 8) := by
      have hall : ∀ j : Fin 16, (0xff#16).getLsbD j = decide (j.val < 8) := by decide
      exact hall ⟨j, hj⟩
    rw [bits_add, BitVec.getLsbD_xor, ofNat, ofNat, BitVec.getLsbD_ofNat, BitVec.getLsbD_ofNat,
      Nat.shiftLeft_zero, Nat.testBit_shiftLeft, BitVec.testBit_toNat, BitVec.testBit_toNat,
      BitVec.getLsbD_and, BitVec.getLsbD_ushiftRight, hmask, decide_eq_true hj, Bool.true_and,
      Bool.true_and]
    by_cases h : j < 8
    · rw [decide_eq_true h, decide_eq_false (by omega), Bool.and_true, Bool.false_and,
        Bool.xor_false]
    · rw [decide_eq_false h, decide_eq_true (by omega), Bool.and_false, Bool.true_and,
        Bool.false_xor, Nat.add_sub_cancel' (by omega)]
  unfold MulTable.new MulTable.mul
  dsimp only
  rw [subsetWalk_eq (Nat.zero_le 8) (fun b _ => powerChain_eq c b) hlo,
    subsetWalk_eq (le_refl 8) (fun b _ => powerChain_eq c (b + 8)) hhi, ← mul_add, hsum]

/-! ## Products of given words -/

/-- Shift and add, for the products of given words. -/
def shiftMul (a b : Gf16) : Gf16 :=
  (List.range 16).foldl (fun s k => if b.bits.getLsbD k then s + xtime^[k] a else s) 0

theorem mul_eq_shiftMul (a b : Gf16) : a * b = shiftMul a b := by
  have hlow : ∀ n ≤ 16, (range n).foldl
      (fun s k => if b.bits.getLsbD k then s + xtime^[k] a else s) 0 =
        a * ofNat (b.bits.toNat % 2 ^ n) := by
    intro n
    induction n with
    | zero =>
      intro _
      rw [pow_zero, Nat.mod_one]
      exact (mul_zero a).symm
    | succ n ih =>
      intro hn
      have hlt : b.bits.toNat % 2 ^ n < 2 ^ n := Nat.mod_lt _ (Nat.two_pow_pos n)
      rw [range_succ, foldl_append, foldl_cons, foldl_nil, ih (by omega),
        pow_succ, Nat.mod_mul, ← Nat.toNat_testBit, BitVec.testBit_toNat]
      cases b.bits.getLsbD n with
      | true =>
        have hxor : b.bits.toNat % 2 ^ n + 2 ^ n * true.toNat = b.bits.toNat % 2 ^ n ^^^ 1 <<< n := by
          rw [← or_bit hlt, Nat.one_shiftLeft, Nat.or_two_pow_eq_add_of_lt hlt]
          exact congrArg _ (mul_one _)
        rw [if_pos rfl, hxor, ofNat_xor, Nat.one_shiftLeft, ofNat_two_pow hn, mul_add, mul_comm a (gen ^ n)]
        exact congrArg _ (iterate_eq n a)
      | false => rw [if_neg Bool.false_ne_true, Bool.toNat_false, Nat.mul_zero, add_zero]
  have hword : ofNat (b.bits.toNat % 2 ^ 16) = b := by
    rw [Nat.mod_eq_of_lt b.bits.isLt]
    exact Gf16.ext ((BitVec.ofNat_toNat 16 _).trans (BitVec.setWidth_eq _))
  rw [← hword, ← hlow 16 (le_refl 16), hword]
  rfl

end NzbFast.Gf16
