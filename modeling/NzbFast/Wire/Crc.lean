import Mathlib.Tactic

/-!
# CRC-32

The CRC-32 of zlib and its two shortcuts: the CRC of a string with zeros after it,
and the CRC of two strings put together, each from the CRCs of the parts. A byte
moves the register by eight linear steps, so the register over a string is the
register over as many zeros xor what the string puts in. A step has an inverse, so
zeros at the end can be taken off again.
-/

namespace Wire

open List

def crcBit (s : BitVec 32) : BitVec 32 :=
  s >>> 1 ^^^ if s.getLsbD 0 then 0xEDB88320#32 else 0#32

def crcByte (s : BitVec 32) (b : UInt8) : BitVec 32 :=
  Nat.repeat crcBit 8 (s ^^^ b.toBitVec.setWidth 32)

def crcRun (s : BitVec 32) (bytes : List UInt8) : BitVec 32 := bytes.foldl crcByte s

def crc32 (bytes : List UInt8) : Nat :=
  (crcRun (BitVec.allOnes 32) bytes ^^^ BitVec.allOnes 32).toNat

/-- The CRC of a string whose CRC is `crc`, with `n` zeros after it. -/
def crc32Zeros (crc n : Nat) : Nat :=
  (crcRun (BitVec.ofNat 32 crc ^^^ BitVec.allOnes 32) (List.replicate n 0) ^^^
    BitVec.allOnes 32).toNat

/-- The CRC of a string whose CRC is `crc`, with `n` bytes of CRC `next` after it. -/
def crc32Combine (crc next n : Nat) : Nat :=
  (crcRun (BitVec.ofNat 32 crc) (List.replicate n 0) ^^^ BitVec.ofNat 32 next).toNat

/-- The step that `crcBit` undoes. -/
def crcUnbit (s : BitVec 32) : BitVec 32 :=
  (if s.getLsbD 31 then s ^^^ 0xEDB88320#32 else s) <<< 1 ||| if s.getLsbD 31 then 1#32 else 0#32

/-- The CRC of a string, from the CRC of it with `n` zeros after it. -/
def crc32Unzero (crc n : Nat) : Nat :=
  (Nat.repeat (Nat.repeat crcUnbit 8) n (BitVec.ofNat 32 crc ^^^ BitVec.allOnes 32) ^^^
    BitVec.allOnes 32).toNat

theorem crcBit_xor (x y : BitVec 32) : crcBit (x ^^^ y) = crcBit x ^^^ crcBit y := by
  have hpoly : ∀ a b : Bool, (if a ^^ b then 0xEDB88320#32 else 0#32) =
      (if a then 0xEDB88320#32 else 0#32) ^^^ if b then 0xEDB88320#32 else 0#32 := by decide
  unfold crcBit
  rw [BitVec.ushiftRight_xor_distrib, BitVec.getLsbD_xor, hpoly]
  ac_rfl

theorem repeat_crcBit_xor (n : Nat) (x y : BitVec 32) :
    Nat.repeat crcBit n (x ^^^ y) = Nat.repeat crcBit n x ^^^ Nat.repeat crcBit n y := by
  induction n with
  | zero => rfl
  | succ n ih => rw [Nat.repeat, ih, crcBit_xor, Nat.repeat, Nat.repeat]

theorem crcByte_zero (s : BitVec 32) : crcByte s 0 = Nat.repeat crcBit 8 s := by
  unfold crcByte
  rw [show (0 : UInt8).toBitVec.setWidth 32 = 0#32 from rfl, BitVec.xor_zero]

theorem crcRun_append (s : BitVec 32) (a b : List UInt8) :
    crcRun s (a ++ b) = crcRun (crcRun s a) b := foldl_append

/-- What one register differs from another by goes through a string as through zeros. -/
theorem crcRun_xor (bytes : List UInt8) (x y : BitVec 32) :
    crcRun (x ^^^ y) bytes = crcRun x (List.replicate bytes.length 0) ^^^ crcRun y bytes := by
  induction bytes generalizing x y with
  | nil => rfl
  | cons b bytes ih =>
    have hbyte : crcByte (x ^^^ y) b = crcByte x 0 ^^^ crcByte y b := by
      rw [crcByte_zero, crcByte, crcByte, BitVec.xor_assoc, repeat_crcBit_xor]
    exact (congrArg (fun s => crcRun s bytes) hbyte).trans (ih _ _)

theorem xor_xor_allOnes (s : BitVec 32) : s ^^^ BitVec.allOnes 32 ^^^ BitVec.allOnes 32 = s := by
  rw [BitVec.xor_assoc, BitVec.xor_self, BitVec.xor_zero]

theorem crc32_lt (bytes : List UInt8) : crc32 bytes < 2 ^ 32 := BitVec.isLt _

theorem crc32Zeros_eq (bytes : List UInt8) (n : Nat) :
    crc32Zeros (crc32 bytes) n = crc32 (bytes ++ List.replicate n 0) := by
  rw [crc32Zeros, crc32, BitVec.ofNat_toNat, BitVec.setWidth_eq, xor_xor_allOnes, crc32,
    crcRun_append]

theorem crc32Combine_eq (a b : List UInt8) :
    crc32Combine (crc32 a) (crc32 b) b.length = crc32 (a ++ b) := by
  have hrun : crcRun (crcRun (BitVec.allOnes 32) a) b =
      crcRun (crcRun (BitVec.allOnes 32) a ^^^ BitVec.allOnes 32) (replicate b.length 0) ^^^
        crcRun (BitVec.allOnes 32) b := by
    rw [← crcRun_xor, xor_xor_allOnes]
  rw [crc32Combine, crc32, crc32, BitVec.ofNat_toNat, BitVec.ofNat_toNat, BitVec.setWidth_eq,
    BitVec.setWidth_eq, crc32, crcRun_append, hrun, BitVec.xor_assoc]

/-! ## Zeros taken off -/

theorem crcUnbit_crcBit (s : BitVec 32) : crcUnbit (crcBit s) = s := by
  have htop : (crcBit s).getLsbD 31 = s.getLsbD 0 := by
    unfold crcBit
    cases hlow : s.getLsbD 0 <;> simp
  have hback : (if s.getLsbD 0 then crcBit s ^^^ 0xEDB88320#32 else crcBit s) = s >>> 1 := by
    unfold crcBit
    cases hlow : s.getLsbD 0
    · simp
    · simp [BitVec.xor_assoc]
  unfold crcUnbit
  rw [htop, hback]
  refine BitVec.eq_of_getLsbD_eq fun i hi => ?_
  cases i with
  | zero => cases hlow : s.getLsbD 0 <;> simp
  | succ i => cases hlow : s.getLsbD 0 <;> simp [hi, add_comm 1 i]

theorem repeat_comm {α : Type} (f : α → α) (n : Nat) (x : α) :
    Nat.repeat f n (f x) = f (Nat.repeat f n x) := by
  induction n with
  | zero => rfl
  | succ n ih => rw [Nat.repeat, ih, Nat.repeat]

theorem repeat_inverse {α : Type} {f g : α → α} (h : ∀ x, g (f x) = x) (n : Nat) (x : α) :
    Nat.repeat g n (Nat.repeat f n x) = x := by
  induction n generalizing x with
  | zero => rfl
  | succ n ih => rw [Nat.repeat, Nat.repeat, ← repeat_comm f, ih, h]

theorem crcRun_zeros (n : Nat) (s : BitVec 32) :
    crcRun s (List.replicate n 0) = Nat.repeat (Nat.repeat crcBit 8) n s := by
  induction n generalizing s with
  | zero => rfl
  | succ n ih =>
    rw [replicate_succ, Nat.repeat, ← repeat_comm (Nat.repeat crcBit 8), ← crcByte_zero, ← ih]
    rfl

theorem crc32Unzero_zeros {crc : Nat} (h : crc < 2 ^ 32) (n : Nat) :
    crc32Unzero (crc32Zeros crc n) n = crc := by
  unfold crc32Unzero crc32Zeros
  rw [BitVec.ofNat_toNat, BitVec.setWidth_eq, xor_xor_allOnes, crcRun_zeros,
    repeat_inverse (repeat_inverse crcUnbit_crcBit 8), xor_xor_allOnes, BitVec.toNat_ofNat,
    Nat.mod_eq_of_lt h]

/-! ## Linear parts -/

theorem crc32Combine_split (crc next n : Nat) (h : next < 2 ^ 32) :
    crc32Combine crc next n = crc32Combine crc 0 n ^^^ next := by
  unfold crc32Combine
  rw [BitVec.toNat_xor, BitVec.toNat_xor, BitVec.toNat_ofNat, BitVec.toNat_ofNat, Nat.mod_eq_of_lt h,
    Nat.zero_mod, Nat.xor_zero]

theorem crc32Zeros_split (crc n : Nat) :
    crc32Zeros crc n = crc32Combine crc 0 n ^^^ crc32Zeros 0 n := by
  have hrun := crcRun_xor (replicate n 0) (BitVec.ofNat 32 crc) (BitVec.allOnes 32)
  rw [length_replicate] at hrun
  unfold crc32Zeros crc32Combine
  rw [hrun, BitVec.xor_zero, BitVec.zero_xor, BitVec.xor_assoc, BitVec.toNat_xor]

set_option maxRecDepth 10000 in
example : crc32 [49, 50, 51, 52, 53, 54, 55, 56, 57] = 0xCBF43926 := by decide

end Wire
