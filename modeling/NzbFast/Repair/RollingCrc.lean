import NzbFast.Wire.Crc
import Mathlib.Data.List.GetD

/-!
# The rolling CRC

`RollingCrc` (`crates/nzbkit-base/src/par2repair.rs`): the CRC register of a window of fixed
length, slid one byte in constant time. What a byte leaves behind in the register goes
through the rest of the window as through zeros, so it is taken off by a table: for each
byte, the register it makes of the initial one, differed from the initial one, and pushed
through as many zeros as the window is long. The zeros are a power of a 32 × 32 matrix over
GF(2), by squaring.
-/

namespace NzbFast.Repair

open Wire Function
open List hiding iterate_add

/-- 32 columns: column `j` is the image of bit `1 << j`. -/
abbrev Mat32 := Nat → BitVec 32

/-- `mat_apply`, which stops early once no bit is left. -/
def matApply (m : Mat32) (x : BitVec 32) : BitVec 32 :=
  (List.range 32).foldl (fun r i => if x.getLsbD i then r ^^^ m i else r) 0#32

def matMul (a b : Mat32) : Mat32 := fun j => matApply a (b j)

/-- One entry of the byte table: eight bits of division. -/
def tableEntry (i : Nat) : BitVec 32 :=
  Nat.repeat (fun c => if c.getLsbD 0 then c >>> 1 ^^^ 0xEDB88320#32 else c >>> 1) 8 (BitVec.ofNat 32 i)

def oneZero : Mat32 := fun j =>
  (1#32 <<< j) >>> 8 ^^^ tableEntry ((1#32 <<< j &&& 0xFF#32).toNat)

/-- The loop of `RollingCrc::new`: `zn` is multiplied by the powers of `base` that `e` asks for. -/
def matPower (base zn : Mat32) (e : Nat) : Mat32 :=
  if e = 0 then zn
  else matPower (if e / 2 ≠ 0 then matMul base base else base) (if e % 2 = 1 then matMul base zn else zn)
    (e / 2)
termination_by e

structure RollingCrc where
  table : Nat → BitVec 32
  expire : Nat → BitVec 32

def INIT : BitVec 32 := 0xFFFFFFFF#32

namespace RollingCrc

def new (window : Nat) : RollingCrc where
  table := tableEntry
  expire c :=
    let afterFirst := INIT >>> 8 ^^^ tableEntry ((INIT ^^^ BitVec.ofNat 32 c) &&& 0xFF#32).toNat
    matApply (matPower oneZero (fun j => 1#32 <<< j) window) (afterFirst ^^^ INIT)

def push (r : RollingCrc) (reg : BitVec 32) (byte : UInt8) : BitVec 32 :=
  reg >>> 8 ^^^ r.table ((reg ^^^ byte.toBitVec.setWidth 32) &&& 0xFF#32).toNat

/-- Append `new`, expire `old`. -/
def roll (r : RollingCrc) (reg : BitVec 32) (old new : UInt8) : BitVec 32 :=
  r.push reg new ^^^ r.expire old.toNat

/-- The register after `i` rolls over a stream, from that of its first `w` bytes. -/
def slide (r : RollingCrc) (w : Nat) (bytes : List UInt8) : Nat → BitVec 32
  | 0 => (bytes.take w).foldl r.push INIT
  | i + 1 => r.roll (r.slide w bytes i) (bytes.getD i 0) (bytes.getD (i + w) 0)

end RollingCrc

/-! ## The table -/

theorem crcBit_eq (c : BitVec 32) :
    crcBit c = if c.getLsbD 0 then c >>> 1 ^^^ 0xEDB88320#32 else c >>> 1 := by
  unfold crcBit
  split
  · rfl
  · exact BitVec.xor_zero

theorem tableEntry_eq (i : Nat) : tableEntry i = Nat.repeat crcBit 8 (BitVec.ofNat 32 i) := by
  rw [tableEntry, ← funext crcBit_eq]

/-- Eight bits of division shift a register whose low byte is clear. -/
theorem repeat_crcBit_high {x : BitVec 32} (hx : ∀ i < 8, x.getLsbD i = false) :
    ∀ k ≤ 8, Nat.repeat crcBit k x = x >>> k
  | 0, _ => (BitVec.ushiftRight_zero x).symm
  | k + 1, hk => by
    have hlow : (x >>> k).getLsbD 0 = false := by
      rw [BitVec.getLsbD_ushiftRight, add_zero]
      exact hx k (by omega)
    rw [Nat.repeat, repeat_crcBit_high hx k (by omega), crcBit_eq, hlow, if_neg Bool.false_ne_true,
      ← BitVec.shiftRight_add]

/-- Eight bits of division of any register: its low byte through the table. -/
theorem repeat_crcBit_table (x : BitVec 32) :
    Nat.repeat crcBit 8 x = x >>> 8 ^^^ tableEntry (x &&& 0xFF#32).toNat := by
  have hsplit : x = (x &&& 0xFFFFFF00#32) ^^^ (x &&& 0xFF#32) := by
    have hmask : ∀ j : Fin 32, (0xFFFFFF00#32).getLsbD j.val = !(0xFF#32).getLsbD j.val := by decide
    refine BitVec.eq_of_getLsbD_eq fun i hi => ?_
    rw [BitVec.getLsbD_xor, BitVec.getLsbD_and, BitVec.getLsbD_and, hmask ⟨i, hi⟩]
    cases x.getLsbD i <;> cases (0xFF#32).getLsbD i <;> rfl
  have hclear : ∀ i < 8, (x &&& 0xFFFFFF00#32).getLsbD i = false := by
    intro i hi
    have hmask : ∀ j : Fin 8, (0xFFFFFF00#32).getLsbD j.val = false := by decide
    rw [BitVec.getLsbD_and, hmask ⟨i, hi⟩, Bool.and_false]
  have hshift : (x &&& 0xFFFFFF00#32) >>> 8 = x >>> 8 := by
    have hmask : ∀ j < 24, (0xFFFFFF00#32).getLsbD (8 + j) = true := by decide
    refine BitVec.eq_of_getLsbD_eq fun i hi => ?_
    rw [BitVec.getLsbD_ushiftRight, BitVec.getLsbD_and, BitVec.getLsbD_ushiftRight]
    rcases lt_or_ge i 24 with h24 | h24
    · rw [hmask i h24, Bool.and_true]
    · rw [BitVec.getLsbD_of_ge _ _ (by omega), Bool.false_and]
  conv_lhs => rw [hsplit]
  rw [repeat_crcBit_xor, repeat_crcBit_high hclear 8 (le_refl 8), hshift, tableEntry_eq,
    BitVec.ofNat_toNat, BitVec.setWidth_eq]

/-- The register of the window is the register of CRC-32. -/
theorem push_eq (w : Nat) (reg : BitVec 32) (byte : UInt8) :
    (RollingCrc.new w).push reg byte = crcByte reg byte := by
  have hhigh : (byte.toBitVec.setWidth 32) >>> 8 = 0#32 := by
    refine BitVec.eq_of_getLsbD_eq fun i hi => ?_
    simp
  unfold RollingCrc.push crcByte
  rw [repeat_crcBit_table, BitVec.ushiftRight_xor_distrib, hhigh, BitVec.xor_zero]
  rfl

/-! ## The matrix -/

def Mat32.Of (m : Mat32) (f : BitVec 32 → BitVec 32) : Prop := ∀ j < 32, m j = f (1#32 <<< j)

def Linear (f : BitVec 32 → BitVec 32) : Prop := ∀ x y, f (x ^^^ y) = f x ^^^ f y

variable {a b : Mat32} {f g : BitVec 32 → BitVec 32}

theorem Linear.zero (hf : Linear f) : f 0#32 = 0#32 := by
  have h := hf 0#32 0#32
  rwa [BitVec.xor_zero, BitVec.xor_self] at h

/-- The bits of `x` below `n`. -/
def low (n : Nat) (x : BitVec 32) : BitVec 32 := (x.setWidth n).setWidth 32

theorem low_succ (n : Nat) (x : BitVec 32) :
    low (n + 1) x = low n x ^^^ if x.getLsbD n then 1#32 <<< n else 0#32 := by
  refine BitVec.eq_of_getLsbD_eq fun i hi => ?_
  have hbit : (1#32 <<< n).getLsbD i = (decide (n < 32) && decide (n = i)) := BitVec.getLsbD_twoPow n i
  rw [BitVec.getLsbD_xor]
  unfold low
  by_cases hin : n = i
  · subst hin
    cases hx : x.getLsbD n with
    | false => simp [hx, hi, -BitVec.getLsbD_eq_getElem]
    | true => simp [hx, hi, hbit, -BitVec.getLsbD_eq_getElem]
  · have hlt : i < n + 1 ↔ i < n := by omega
    cases hx : x.getLsbD n <;> simp [hin, hlt, hbit]

theorem matApply_eq (ha : a.Of f) (hf : Linear f) (x : BitVec 32) : matApply a x = f x := by
  have hrun : ∀ n ≤ 32, (range n).foldl (fun r i => if x.getLsbD i then r ^^^ a i else r) 0#32 =
      f (low n x) := by
    intro n
    induction n with
    | zero =>
      intro _
      rw [low, BitVec.eq_nil (x.setWidth 0)]
      exact hf.zero.symm
    | succ n ih =>
      intro hn
      rw [range_succ, foldl_append, ih (by omega), low_succ n x, hf]
      rw [foldl_cons, foldl_nil]
      split
      · rw [ha n hn]
      · rw [hf.zero, BitVec.xor_zero]
  rw [matApply, hrun 32 (le_refl 32)]
  exact congrArg f (BitVec.setWidth_eq x)

theorem Mat32.Of.mul (ha : a.Of f) (hf : Linear f) (hb : b.Of g) : (matMul a b).Of (f ∘ g) := by
  intro j hj
  rw [matMul, matApply_eq ha hf, hb j hj]
  rfl

theorem Linear.iterate (hf : Linear f) (n : Nat) : Linear f^[n] := by
  induction n with
  | zero => exact fun _ _ => rfl
  | succ n ih =>
    intro x y
    rw [iterate_succ_apply, iterate_succ_apply, iterate_succ_apply, hf, ih]

theorem matPower_of {n k : Nat} : ∀ {base zn : Mat32} (e : Nat), base.Of f^[n] → zn.Of f^[k] →
    Linear f → (matPower base zn e).Of f^[n * e + k] := by
  intro base zn e hbase hzn hf
  induction e using Nat.strong_induction_on generalizing n k base zn with
  | _ e ih =>
    rw [matPower]
    split
    case isTrue he =>
      rw [he, Nat.mul_zero, zero_add]
      exact hzn
    case isFalse he =>
      have hzn' : (if e % 2 = 1 then matMul base zn else zn).Of f^[n * (e % 2) + k] := by
        split
        case isTrue hodd =>
          rw [hodd, mul_one, iterate_add]
          exact hbase.mul (hf.iterate n) hzn
        case isFalse heven =>
          have hzero : e % 2 = 0 := by omega
          rw [hzero, Nat.mul_zero, zero_add]
          exact hzn
      have hsplit : n * e + k = n * 2 * (e / 2) + (n * (e % 2) + k) := by
        rw [mul_assoc, ← add_assoc, ← mul_add, Nat.div_add_mod]
      rw [hsplit]
      by_cases hhalf : e / 2 = 0
      · rw [hhalf, matPower, if_pos rfl, Nat.mul_zero, zero_add]
        exact hzn'
      · rw [if_pos hhalf]
        refine ih (e / 2) (by omega) ?_ hzn'
        rw [mul_two, iterate_add]
        exact hbase.mul (hf.iterate n) hbase

/-! ## Expiry -/

theorem linear_crcByte_zero : Linear fun s => crcByte s 0 := fun x y => by
  dsimp only
  rw [crcByte_zero, crcByte_zero, crcByte_zero, repeat_crcBit_xor]

theorem oneZero_of : oneZero.Of fun s => crcByte s 0 := fun j _ => by
  dsimp only
  rw [crcByte_zero, repeat_crcBit_table]
  rfl

theorem iterate_crcByte (w : Nat) :
    (fun s => crcByte s 0)^[w] = fun s => crcRun s (List.replicate w 0) := by
  funext s
  induction w generalizing s with
  | zero => rfl
  | succ w ih =>
    rw [iterate_succ_apply, ih, replicate_succ]
    rfl

/-- As many zeros as the window is long. -/
theorem power_of (w : Nat) :
    (matPower oneZero (fun j => 1#32 <<< j) w).Of fun s => crcRun s (List.replicate w 0) := by
  have hone : oneZero.Of (fun s => crcByte s 0)^[1] := oneZero_of
  have hid : Mat32.Of (fun j => 1#32 <<< j) (fun s => crcByte s 0)^[0] := fun _ _ => rfl
  have hpower := matPower_of w hone hid linear_crcByte_zero
  rwa [one_mul, add_zero, iterate_crcByte] at hpower

theorem linear_zeros (w : Nat) : Linear fun s => crcRun s (List.replicate w 0) := fun x y => by
  have h := crcRun_xor (replicate w 0) x y
  rwa [length_replicate] at h

/-- What the expiry table takes off: what the first byte put into the register, after the window. -/
theorem expire_eq (w : Nat) (c : UInt8) : (RollingCrc.new w).expire c.toNat =
    crcRun (crcByte INIT c ^^^ INIT) (List.replicate w 0) := by
  have hbyte : BitVec.ofNat 32 c.toNat = c.toBitVec.setWidth 32 := BitVec.ofNat_toNat 32 c.toBitVec
  have hfirst : INIT >>> 8 ^^^ tableEntry ((INIT ^^^ BitVec.ofNat 32 c.toNat) &&& 0xFF#32).toNat =
      crcByte INIT c := by
    rw [hbyte, ← push_eq w]
    rfl
  unfold RollingCrc.new
  dsimp only
  rw [hfirst, matApply_eq (power_of w) (linear_zeros w)]

/-! ## The slide -/

theorem roll_eq (old new : UInt8) (rest : List UInt8) :
    (RollingCrc.new (rest.length + 1)).roll (crcRun INIT (old :: rest)) old new =
      crcRun INIT (rest ++ [new]) := by
  have hlong : crcByte (crcRun INIT (old :: rest)) new = crcRun (crcByte INIT old) (rest ++ [new]) := by
    rw [crcRun_append]
    rfl
  have hdiff := crcRun_xor (rest ++ [new]) (crcByte INIT old ^^^ INIT) INIT
  rw [BitVec.xor_assoc, BitVec.xor_self, BitVec.xor_zero, length_append, length_singleton] at hdiff
  unfold RollingCrc.roll
  rw [push_eq, expire_eq, hlong, hdiff, BitVec.xor_comm (crcRun _ (replicate _ 0)), BitVec.xor_assoc,
    BitVec.xor_self, BitVec.xor_zero]

/-- The register of a window of any length, slid over any stream, is at every step the CRC-32 register
of the last `w` bytes. -/
theorem slide_exact (w : Nat) (hw : 1 ≤ w) (bytes : List UInt8) (i : Nat) (hi : i + w ≤ bytes.length) :
    (RollingCrc.new w).slide w bytes i = crcRun (BitVec.allOnes 32) ((bytes.drop i).take w) := by
  have hinit : INIT = BitVec.allOnes 32 := by decide
  rw [← hinit]
  induction i with
  | zero =>
    have hpush : (RollingCrc.new w).push = crcByte := funext fun reg => funext fun b => push_eq w reg b
    rw [RollingCrc.slide, hpush, drop_zero]
    rfl
  | succ i ih =>
    obtain ⟨w, rfl⟩ : ∃ v, w = v + 1 := ⟨w - 1, by omega⟩
    have hold : (bytes.drop i).take (w + 1) = bytes.getD i 0 :: (bytes.drop (i + 1)).take w := by
      rw [drop_eq_getElem_cons (by omega), take_succ_cons, getD_eq_getElem _ _ (by omega)]
    have hnew : (bytes.drop (i + 1)).take (w + 1) =
        (bytes.drop (i + 1)).take w ++ [bytes.getD (i + (w + 1)) 0] := by
      have hidx : i + 1 + w = i + (w + 1) := by omega
      rw [take_add_one, getElem?_drop, hidx, getElem?_eq_getElem (by omega),
        getD_eq_getElem _ _ (by omega)]
      rfl
    have hlen : ((bytes.drop (i + 1)).take w).length = w := by
      rw [length_take, length_drop]
      omega
    have hroll := roll_eq (bytes.getD i 0) (bytes.getD (i + (w + 1)) 0) ((bytes.drop (i + 1)).take w)
    rw [hlen] at hroll
    rw [RollingCrc.slide, ih (by omega), hold, hroll, hnew]

theorem slide_exact_two : (RollingCrc.new 2).slide 2 [1, 2, 3, 4] 2 =
    crcRun (BitVec.allOnes 32) [3, 4] :=
  slide_exact 2 (by decide) [1, 2, 3, 4] 2 (by decide)

end NzbFast.Repair
