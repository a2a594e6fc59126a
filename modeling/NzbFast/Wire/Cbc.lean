import Mathlib.Logic.Equiv.Defs
import NzbFast.Wire.Slice

/-!
# Cipher block chaining

CBC over a permutation of 16-byte blocks, on byte strings of whole blocks. Of a
ciphertext given as a map from offsets, `plainAt` is the plaintext: a block of it
depends on the ciphertext block at its place and on the one before, so decrypting
a run of blocks from the block before it gives that part of the plaintext wherever
the run lies, and encrypting that part gives the ciphertext back.
-/

namespace Wire

abbrev Block := Fin 16 → UInt8

def Block.of (v : List UInt8) : Block := fun i => v.getD i 0

def Block.bytes (b : Block) : List UInt8 := List.ofFn b

def xorBytes (v w : List UInt8) : List UInt8 := List.zipWith (· ^^^ ·) v w

@[simp] theorem Block.length_bytes (b : Block) : b.bytes.length = 16 := List.length_ofFn

theorem length_xorBytes (v w : List UInt8) : (xorBytes v w).length = min v.length w.length :=
  List.length_zipWith

variable (aes : Equiv.Perm Block)

def encryptBlock (v : List UInt8) : List UInt8 := (aes (Block.of v)).bytes

def decryptBlock (v : List UInt8) : List UInt8 := (aes.symm (Block.of v)).bytes

/-- The first `n` blocks decrypted, chained from `chain`. -/
def cbcDecrypt : Nat → List UInt8 → List UInt8 → List UInt8
  | 0, _, _ => []
  | n + 1, chain, data =>
    xorBytes (decryptBlock aes (data.take 16)) chain ++ cbcDecrypt n (data.take 16) (data.drop 16)

/-- The first `n` blocks encrypted, chained from `chain`. -/
def cbcEncrypt : Nat → List UInt8 → List UInt8 → List UInt8
  | 0, _, _ => []
  | n + 1, chain, data =>
    let block := encryptBlock aes (xorBytes (data.take 16) chain)
    block ++ cbcEncrypt n block (data.drop 16)

theorem length_cbcEncrypt (n : Nat) (chain data : List UInt8) :
    (cbcEncrypt aes n chain data).length = 16 * n := by
  induction n generalizing chain data with
  | zero => rfl
  | succ n ih =>
    rw [cbcEncrypt, List.length_append, ih, encryptBlock, Block.length_bytes]
    omega

variable (iv : Block) (c : Nat → UInt8)

/-- The ciphertext block before the one at `at_`, the IV at the start. -/
def prevBlock (at_ : Nat) : List UInt8 := if at_ = 0 then iv.bytes else slice c (at_ - 16) 16

def plainAt (x : Nat) : UInt8 :=
  (xorBytes (decryptBlock aes (slice c (x / 16 * 16) 16)) (prevBlock iv c (x / 16 * 16))).getD
    (x % 16) 0

@[simp] theorem length_prevBlock (at_ : Nat) : (prevBlock iv c at_).length = 16 := by
  unfold prevBlock
  split
  · exact iv.length_bytes
  · exact length_slice

theorem slice_plainAt {at_ : Nat} (hat : at_ % 16 = 0) :
    slice (plainAt aes iv c) at_ 16 =
      xorBytes (decryptBlock aes (slice c at_ 16)) (prevBlock iv c at_) := by
  have hlen : (xorBytes (decryptBlock aes (slice c at_ 16)) (prevBlock iv c at_)).length = 16 := by
    rw [length_xorBytes, length_prevBlock, decryptBlock, Block.length_bytes]
    rfl
  refine (eq_slice hlen fun i hi => ?_).symm
  rw [plainAt, show (at_ + i) / 16 * 16 = at_ by omega, show (at_ + i) % 16 = i by omega,
    List.getD_eq_getElem?_getD, List.getElem?_eq_getElem (by omega), Option.getD_some]

theorem prevBlock_succ {at_ : Nat} : prevBlock iv c (at_ + 16) = slice c at_ 16 := by
  rw [prevBlock, if_neg (by omega), Nat.add_sub_cancel]

theorem cbcDecrypt_slice (n : Nat) {at_ : Nat} (hat : at_ % 16 = 0) :
    cbcDecrypt aes n (prevBlock iv c at_) (slice c at_ (16 * n)) =
      slice (plainAt aes iv c) at_ (16 * n) := by
  induction n generalizing at_ with
  | zero => rfl
  | succ n ih =>
    rw [cbcDecrypt, take_slice (by omega), drop_slice, ← slice_plainAt aes iv c hat,
      ← prevBlock_succ iv c, show 16 * (n + 1) - 16 = 16 * n by omega, ih (by omega), slice_append]
    congr 1
    omega

variable {c}

end Wire
