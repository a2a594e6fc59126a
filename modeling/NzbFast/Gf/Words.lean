import NzbFast.Gf.Generator
import Mathlib.Data.Nat.Bitwise
import Mathlib.Tactic.NormNum.Prime
import Mathlib.Tactic.Linarith

/-!
# GF(2^16) words

The arithmetic of `crates/nzbkit-base/src/gf16.rs`: words of sixteen bits, the
tables of powers and logarithms of 2, and the product, the powers and the inverse
read off them. Here are the functions and what the loop that fills the tables
leaves in them, which rests on 2 having full order.
-/

namespace NzbFast

open Nat

/-- A `u16` word of the field. -/
@[ext] structure Gf16 where
  bits : BitVec 16
  deriving DecidableEq

namespace Gf16

def POLY : Nat := 0x1100B

def ORDER : Nat := 65535

instance : Zero Gf16 := ⟨⟨0⟩⟩

instance : One Gf16 := ⟨⟨1⟩⟩

/-- Addition is XOR. -/
instance : Add Gf16 := ⟨fun a b => ⟨a.bits ^^^ b.bits⟩⟩

@[simp] theorem bits_zero : (0 : Gf16).bits = 0 := rfl

@[simp] theorem bits_one : (1 : Gf16).bits = 1 := rfl

@[simp] theorem bits_add (a b : Gf16) : (a + b).bits = a.bits ^^^ b.bits := rfl

instance : Neg Gf16 := ⟨id⟩

instance : AddCommGroup Gf16 where
  add_assoc a b c := Gf16.ext (BitVec.xor_assoc _ _ _)
  zero_add a := Gf16.ext BitVec.zero_xor
  add_zero a := Gf16.ext BitVec.xor_zero
  add_comm a b := Gf16.ext (BitVec.xor_comm _ _)
  neg_add_cancel a := Gf16.ext BitVec.xor_self
  nsmul := nsmulRec
  zsmul := zsmulRec

theorem add_self (a : Gf16) : a + a = 0 := Gf16.ext BitVec.xor_self

@[simp] theorem neg_eq (a : Gf16) : -a = a := rfl

@[simp] theorem sub_eq (a b : Gf16) : a - b = a + b := by rw [sub_eq_add_neg, neg_eq]

/-! ## The tables -/

/-- One round of the loop of `tables` on its `v: u32`. -/
def next (v : Nat) : Nat :=
  let v := v <<< 1
  if v &&& 0x10000 ≠ 0 then v ^^^ POLY else v

structure Tables where
  exp : Nat → Gf16
  log : Gf16 → Nat

/-- `v as u16`. -/
def ofNat (v : Nat) : Gf16 := ⟨BitVec.ofNat 16 v⟩

/-- The first loop of `tables`, and the `v` it leaves. -/
def fill (n : Nat) : Tables × Nat :=
  (List.range n).foldl (fun s i =>
    (⟨Function.update s.1.exp i (ofNat s.2), Function.update s.1.log (ofNat s.2) i⟩, next s.2))
    (⟨fun _ => 0, fun _ => 0⟩, 1)

/-- The second loop of `tables`: the powers again, from `ORDER` on. -/
def double (t : Tables) : Tables where
  exp := (List.range ORDER).foldl (fun exp i => Function.update exp (ORDER + i) (exp i)) t.exp
  log := t.log

@[irreducible] def tables : Tables := double (fill ORDER).1

def mul (a b : Gf16) : Gf16 :=
  if a = 0 ∨ b = 0 then 0 else tables.exp (tables.log a + tables.log b)

def pow2 (e : Nat) : Gf16 := tables.exp (e % ORDER)

def inv (a : Gf16) : Gf16 := tables.exp (ORDER - tables.log a)

/-! ## The step of the power chain -/

/-- One round of the loop of `power_chain`. -/
def xtime (v : Gf16) : Gf16 :=
  let carry := v.bits &&& 0x8000 ≠ 0
  ⟨if carry then (v.bits <<< 1) ^^^ 0x100B else v.bits <<< 1⟩

theorem bits_xtime (v : Gf16) :
    (xtime v).bits = (v.bits <<< 1) ^^^ (if v.bits.getLsbD 15 then 0x100B else 0) := by
  have hcarry : v.bits &&& 0x8000 = if v.bits.getLsbD 15 then 0x8000 else 0 :=
    BitVec.and_twoPow v.bits 15
  unfold xtime
  rw [hcarry]
  cases v.bits.getLsbD 15 with
  | true => rfl
  | false => exact BitVec.xor_zero.symm

theorem xtime_add (a b : Gf16) : xtime (a + b) = xtime a + xtime b := by
  ext1
  rw [bits_add, bits_xtime, bits_xtime, bits_xtime, bits_add, BitVec.shiftLeft_xor_distrib,
    BitVec.getLsbD_xor]
  have hswap : ∀ p q r s : BitVec 16, p ^^^ r ^^^ (q ^^^ s) = p ^^^ q ^^^ (r ^^^ s) := by
    intro p q r s
    rw [BitVec.xor_assoc, BitVec.xor_assoc, ← BitVec.xor_assoc r, ← BitVec.xor_assoc q,
      BitVec.xor_comm r q]
  rw [hswap]
  congr 1
  cases a.bits.getLsbD 15 <;> cases b.bits.getLsbD 15 <;> decide

def xtimeHom : Gf16 →+ Gf16 := AddMonoidHom.mk' xtime xtime_add

theorem next_lt {v : Nat} (hv : v < 65536) : next v < 65536 := by
  unfold next POLY
  dsimp only
  have hbit : (v <<< 1) &&& 0x10000 = ((v <<< 1).testBit 16).toNat * 65536 :=
    and_two_pow (v <<< 1) 16
  have hlt : v <<< 1 < 2 ^ 17 := by
    rw [shiftLeft_eq]
    omega
  rw [hbit]
  refine @lt_pow_two_of_testBit 16 _ fun i hi => ?_
  by_cases hi' : i = 16
  · subst hi'
    cases h : (v <<< 1).testBit 16 with
    | true =>
      rw [if_pos (by decide), testBit_xor, h]
      decide
    | false => rw [if_neg (by decide), h]
  · have hhigh : ∀ w < 2 ^ 17, w.testBit i = false := fun w hw =>
      Nat.testBit_lt_two_pow (lt_of_lt_of_le hw (Nat.pow_le_pow_right (by decide) (by omega)))
    split
    · rw [testBit_xor, hhigh _ hlt, hhigh 0x1100B (by decide)]
      rfl
    · exact hhigh _ hlt

theorem ofNat_next (v : Nat) : ofNat (next v) = xtime (ofNat v) := by
  ext1
  have hbit : (v <<< 1) &&& 0x10000 = ((v <<< 1).testBit 16).toNat * 65536 :=
    and_two_pow (v <<< 1) 16
  have hcarry : (BitVec.ofNat 16 v).getLsbD 15 = (v <<< 1).testBit 16 := by
    rw [BitVec.getLsbD_ofNat, testBit_shiftLeft]
    rfl
  have hshift : BitVec.ofNat 16 (v <<< 1) = BitVec.ofNat 16 v <<< 1 := by
    refine BitVec.eq_of_toNat_eq ?_
    rw [BitVec.toNat_ofNat, BitVec.toNat_shiftLeft, BitVec.toNat_ofNat, shiftLeft_eq,
      shiftLeft_eq, mod_mul_mod]
  rw [bits_xtime]
  unfold next POLY ofNat
  dsimp only
  rw [hcarry, hbit]
  cases (v <<< 1).testBit 16 with
  | true =>
    rw [if_pos (by decide), if_pos rfl, BitVec.ofNat_xor, hshift]
    rfl
  | false =>
    rw [if_neg (by decide), if_neg Bool.false_ne_true, hshift]
    exact BitVec.xor_zero.symm

/-! ## The order of 2 -/

theorem next_eq {v : Nat} (hv : v < 65536) :
    next v = Nat.xor (Nat.mul 2 v) (Nat.mul (Nat.div v 32768) 0x1100B) := by
  have hbit : (v <<< 1) &&& 0x10000 = ((v <<< 1).testBit 16).toNat * 65536 :=
    and_two_pow (v <<< 1) 16
  have htest : (v <<< 1).testBit 16 = decide (v / 32768 = 1) := by
    rw [testBit_shiftLeft, testBit_eq_decide_div_mod_eq, mod_eq_of_lt (by omega)]
    rfl
  have hcases : v / 32768 = 0 ∨ v / 32768 = 1 := by omega
  have hshift : v <<< 1 = 2 * v := by
    rw [shiftLeft_eq]
    omega
  unfold next POLY
  dsimp only
  rw [hbit, htest, hshift]
  have hdiv : Nat.div v 32768 = v / 32768 := rfl
  rw [hdiv]
  rcases hcases with h | h
  · rw [h, if_neg (by decide)]
    exact (xor_zero _).symm
  · rw [h, if_pos (by decide)]
    rfl

/-- `2 ^ k` rounds of the loop. The recursor takes the value apart, so an evaluation has it at
hand before the next round begins. -/
def jump (k : Nat) : Nat → Nat :=
  Nat.rec (fun v => Nat.xor (Nat.mul 2 v) (Nat.mul (Nat.div v 32768) 0x1100B))
    (fun _ half v => Nat.rec (half 0) (fun w _ => half w.succ) (half v)) k

theorem jump_succ (k v : Nat) : jump (k + 1) v = jump k (jump k v) := by
  show Nat.rec (jump k 0) (fun w _ => jump k w.succ) (jump k v) = jump k (jump k v)
  cases jump k v with
  | zero => rfl
  | succ w => rfl

theorem jump_eq (k : Nat) : ∀ {v : Nat}, v < 65536 → jump k v = next^[2 ^ k] v ∧ jump k v < 65536 := by
  induction k with
  | zero =>
    intro v hv
    have hstep : jump 0 v = next v := (next_eq hv).symm
    exact ⟨hstep, hstep ▸ next_lt hv⟩
  | succ k ih =>
    intro v hv
    obtain ⟨h1, hlt⟩ := ih hv
    obtain ⟨h2, hlt2⟩ := ih hlt
    rw [jump_succ, pow_succ, mul_two, Function.iterate_add_apply, ← h1]
    exact ⟨h2, hlt2⟩

def walk (ks : List Nat) (v : Nat) : Nat := ks.foldl (fun v k => jump k v) v

theorem walk_eq (ks : List Nat) : ∀ {v : Nat}, v < 65536 →
    walk ks v = next^[(ks.map (2 ^ ·)).sum] v ∧ walk ks v < 65536 := by
  induction ks with
  | nil => exact fun hv => ⟨rfl, hv⟩
  | cons k ks ih =>
    intro v hv
    obtain ⟨h1, hlt⟩ := jump_eq k hv
    obtain ⟨h2, hlt2⟩ := ih hlt
    rw [List.map_cons, List.sum_cons, add_comm, Function.iterate_add_apply, ← h1]
    exact ⟨h2, hlt2⟩

theorem iterate_xtime (i : Nat) : xtimeHom^[i] 1 = ofNat (next^[i] 1) ∧ next^[i] 1 < 65536 := by
  induction i with
  | zero => exact ⟨rfl, by decide⟩
  | succ i ih =>
    rw [Function.iterate_succ_apply', Function.iterate_succ_apply', ofNat_next, ih.1]
    exact ⟨rfl, next_lt ih.2⟩

/-- The powers of 2 at the proper quotients of the order, each from the last. -/
theorem next_quotients : next^[255] 1 = 36242 ∧ next^[3600] 36242 = 19832 ∧
    next^[9252] 19832 = 7400 ∧ next^[8738] 7400 = 350 ∧ next^[43690] 350 = 1 := by
  have hwalk : ∀ (ks : List Nat) (n v w : Nat), (ks.map (2 ^ ·)).sum = n → v < 65536 →
      walk ks v = w → next^[n] v = w := by
    rintro ks n v w rfl hv rfl
    exact (walk_eq ks hv).1.symm
  refine ⟨hwalk [7, 6, 5, 4, 3, 2, 1, 0] _ _ _ (by decide) (by decide) ?_,
    hwalk [11, 10, 9, 4] _ _ _ (by decide) (by decide) ?_,
    hwalk [13, 10, 5, 2] _ _ _ (by decide) (by decide) ?_,
    hwalk [13, 9, 5, 1] _ _ _ (by decide) (by decide) ?_,
    hwalk [15, 13, 11, 9, 7, 5, 3, 1] _ _ _ (by decide) (by decide) ?_⟩
  all_goals decide

theorem two_pow_quotients : xtimeHom^[255] 1 = ofNat 36242 ∧ xtimeHom^[3855] 1 = ofNat 19832 ∧
    xtimeHom^[13107] 1 = ofNat 7400 ∧ xtimeHom^[21845] 1 = ofNat 350 ∧ xtimeHom^[65535] 1 = 1 := by
  obtain ⟨h1, h2, h3, h4, h5⟩ := next_quotients
  have hjoin : ∀ {m n u v : Nat}, next^[n] 1 = u → next^[m] u = v → next^[m + n] 1 = v := by
    intro m n u v hu hv
    rw [Function.iterate_add_apply, hu, hv]
  have e2 := hjoin h1 h2
  have e3 := hjoin e2 h3
  have e4 := hjoin e3 h4
  have e5 := hjoin e4 h5
  refine ⟨?_, ?_, ?_, ?_, ?_⟩
  · rw [(iterate_xtime 255).1, h1]
  · rw [(iterate_xtime 3855).1, e2]
  · rw [(iterate_xtime 13107).1, e3]
  · rw [(iterate_xtime 21845).1, e4]
  · rw [(iterate_xtime 65535).1, e5]
    rfl

instance : Fintype Gf16 :=
  Fintype.ofEquiv (Fin 65536)
    { toFun := fun i => ⟨⟨i⟩⟩
      invFun := fun a => a.bits.toFin
      left_inv := fun _ => rfl
      right_inv := fun _ => rfl }

theorem card_eq : Fintype.card Gf16 = ORDER + 1 := by
  rw [Fintype.card_congr
    { toFun := fun a : Gf16 => (a.bits.toFin : Fin 65536)
      invFun := fun i => ⟨⟨i⟩⟩
      left_inv := fun _ => rfl
      right_inv := fun _ => rfl }, Fintype.card_fin]
  rfl

theorem generates : Gf.Generates xtimeHom (1 : Gf16) ORDER := by
  refine .of_card card_eq (by decide) (by decide) ?_
  obtain ⟨h257, h17, h5, h3, hone⟩ := two_pow_quotients
  refine Gf.minimalPeriod_eq_of_prime hone fun p hp hdvd => ?_
  have hfactors : p ∣ 3 * 5 * 17 * 257 := hdvd
  rw [hp.dvd_mul, hp.dvd_mul, hp.dvd_mul, prime_dvd_prime_iff_eq hp prime_three,
    prime_dvd_prime_iff_eq hp prime_five, prime_dvd_prime_iff_eq hp (by norm_num),
    prime_dvd_prime_iff_eq hp (by norm_num)] at hfactors
  have hq : ORDER / 3 = 21845 ∧ ORDER / 5 = 13107 ∧ ORDER / 17 = 3855 ∧ ORDER / 257 = 255 := by
    decide
  rcases hfactors with ((rfl | rfl) | rfl) | rfl
  · rw [hq.1, h3]
    decide
  · rw [hq.2.1, h5]
    decide
  · rw [hq.2.2.1, h17]
    decide
  · rw [hq.2.2.2, h257]
    decide

end Gf16

end NzbFast
