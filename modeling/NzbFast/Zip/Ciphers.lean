import Mathlib.Tactic
import NzbFast.Wire.Cbc
import NzbFast.Wire.Keystream

/-!
# The ciphers of an encrypted zip

`crates/nzbkit-base/src/zipcrypt.rs`: the PKWARE stream cipher, and AES in the counter mode of
WinZip, which is a parameter here. A call of `xor` ends the block that the call before it began,
takes whole blocks eight and then one at a time, and begins a block.
-/

namespace NzbFast.Zip

open Wire List

/-! ## ZipCrypto -/

def crc32Byte (crc : UInt32) (b : UInt8) : UInt32 :=
  Nat.repeat (fun c => if c &&& 1 ≠ 0 then (c >>> 1) ^^^ 0xEDB88320 else c >>> 1) 8 (crc ^^^ b.toUInt32)

structure ZipCrypto where
  k0 : UInt32
  k1 : UInt32
  k2 : UInt32

namespace ZipCrypto

def update (z : ZipCrypto) (plain : UInt8) : ZipCrypto :=
  let k0 := crc32Byte z.k0 plain
  let k1 := (z.k1 + (k0 &&& 0xFF)) * 134775813 + 1
  ⟨k0, k1, crc32Byte z.k2 (k1 >>> 24).toUInt8⟩

def new (password : List UInt8) : ZipCrypto :=
  password.foldl update ⟨0x12345678, 0x23456789, 0x34567890⟩

def keystreamByte (z : ZipCrypto) : UInt8 :=
  let t := (z.k2 ||| 2).toUInt16
  ((t * (t ^^^ 1)) >>> 8).toUInt8

def decryptByte (z : ZipCrypto) (b : UInt8) : ZipCrypto × UInt8 :=
  let p := b ^^^ z.keystreamByte
  (z.update p, p)

def encryptByte (z : ZipCrypto) (b : UInt8) : ZipCrypto × UInt8 := (z.update b, b ^^^ z.keystreamByte)

def decrypt : ZipCrypto → List UInt8 → ZipCrypto × List UInt8 := bytewise decryptByte

def encrypt : ZipCrypto → List UInt8 → ZipCrypto × List UInt8 := bytewise encryptByte

theorem decrypt_encrypt (z : ZipCrypto) (data : List UInt8) : (z.decrypt (z.encrypt data).2).2 = data := by
  unfold decrypt encrypt
  induction data generalizing z with
  | nil => rfl
  | cons b rest ih =>
    -- the key schedule of both directions follows the plaintext
    have hbyte : z.decryptByte (z.encryptByte b).2 = (z.update b, b) := by
      rw [decryptByte, encryptByte, UInt8.xor_assoc, UInt8.xor_self, UInt8.xor_zero]
    rw [bytewise, bytewise, hbyte]
    exact congrArg (b :: ·) (ih (z.update b))

end ZipCrypto

/-! ## WinZip AE -/

/-- `u128::to_le_bytes`. -/
def toLeBytes (n : BitVec 128) : Block := fun i => ⟨(n >>> (8 * i.val)).setWidth 8⟩

/-- The counter of a release build, which wraps. -/
structure AeCtr where
  cipher : Block → Block
  counter : BitVec 128
  ks : Block
  used : Nat

namespace AeCtr

def new (cipher : Block → Block) : AeCtr := ⟨cipher, 1, fun _ => 0, 16⟩

def refill (c : AeCtr) : AeCtr :=
  { c with ks := c.cipher (toLeBytes c.counter), counter := c.counter + 1, used := 0 }

/-- `encrypt_batch` of the next `n` counters, end to end. -/
def encryptBatch (c : AeCtr) (n : Nat) : List UInt8 :=
  (range n).flatMap fun k => (c.cipher (toLeBytes (c.counter + BitVec.ofNat 128 k))).bytes

/-- A loop over whole blocks in batches of `n`; what it makes of them, and what it leaves. -/
def wholeBlocks (n : Nat) (hn : 0 < n) (c : AeCtr) (data : List UInt8) : AeCtr × List UInt8 × List UInt8 :=
  if 16 * n ≤ data.length then
    let r := wholeBlocks n hn { c with counter := c.counter + BitVec.ofNat 128 n } (data.drop (16 * n))
    (r.1, xorBytes (data.take (16 * n)) (c.encryptBatch n) ++ r.2.1, r.2.2)
  else (c, [], data)
termination_by data.length
decreasing_by
  rw [length_drop]
  omega

/-- What follows the block that the call before began. -/
def blocks (c : AeCtr) (data : List UInt8) : AeCtr × List UInt8 :=
  let batched := wholeBlocks 8 Nat.succ_pos' c data
  let single := wholeBlocks 1 Nat.one_pos batched.1 batched.2.2
  let out := batched.2.1 ++ single.2.1
  if single.2.2.isEmpty then (single.1, out)
  else
    let c := single.1.refill
    ({ c with used := single.2.2.length }, out ++ xorBytes single.2.2 c.ks.bytes)

def xor (c : AeCtr) (data : List UInt8) : AeCtr × List UInt8 :=
  let n := if c.used < 16 then min (16 - c.used) data.length else 0
  let carried := xorBytes (data.take n) (c.ks.bytes.drop c.used)
  let rest := blocks { c with used := c.used + n } (data.drop n)
  (rest.1, carried ++ rest.2)

/-- The cipher a block at a time, as it was before it was batched. -/
def refByte (c : AeCtr) (d : UInt8) : AeCtr × UInt8 :=
  let c := if c.used = 16 then c.refill else c
  ({ c with used := c.used + 1 }, d ^^^ c.ks.bytes.getD c.used 0)

def reference : AeCtr → List UInt8 → AeCtr × List UInt8 := bytewise refByte

/-- Byte `i mod 16` of the block encrypted from the counter `1 + i div 16`. -/
def keystream (E : Block → Block) (i : Nat) : UInt8 :=
  E (toLeBytes (BitVec.ofNat 128 (1 + i / 16))) ⟨i % 16, Nat.mod_lt i (by decide)⟩

/-- What the cipher is like after `p` bytes. -/
structure At (E : Block → Block) (p : Nat) (c : AeCtr) : Prop where
  cipher : c.cipher = E
  counter : c.counter = BitVec.ofNat 128 (1 + (p + 15) / 16)
  used : c.used = (p + 15) % 16 + 1
  ks : ¬ 16 ∣ p → c.ks = E (toLeBytes (BitVec.ofNat 128 (1 + p / 16)))

variable {E : Block → Block} {p : Nat} {c : AeCtr}

theorem at_new (E : Block → Block) : At E 0 (new E) :=
  ⟨rfl, rfl, rfl, fun h => absurd (dvd_zero 16) h⟩

theorem getElem?_keystream {i : Nat} (q : Nat) (hq : q / 16 = p / 16) (hi : q % 16 = i) :
    (E (toLeBytes (BitVec.ofNat 128 (1 + p / 16)))).bytes[i]? = some (keystream E q) := by
  subst hi
  rw [Block.bytes, List.getElem?_ofFn, dif_pos (Nat.mod_lt q (by decide)), keystream, hq]

/-- A block that was begun goes on with the keystream. -/
theorem At.carry (h : At E p c) (data : List UInt8) (hp : ¬ 16 ∣ p) (hlen : data.length ≤ 16 - c.used) :
    At E (p + data.length) { c with used := c.used + data.length } ∧
      xorBytes data (c.ks.bytes.drop c.used) = xorFrom (keystream E) p data := by
  have hused := h.used
  refine ⟨⟨h.cipher, ?_, by dsimp only; omega, fun hnext => ?_⟩, zipWith_eq_xorFrom _ fun i hi => ?_⟩
  · rw [h.counter, show (p + data.length + 15) / 16 = (p + 15) / 16 by omega]
  · rw [h.ks hp, show (p + data.length) / 16 = p / 16 by omega]
  · rw [h.ks hp, getElem?_drop, getElem?_keystream (p + i) (by omega) (by omega)]

/-- A new block begins where the last one ended. -/
theorem At.tail (h : At E p c) (data : List UInt8) (hp : 16 ∣ p) (hpos : 0 < data.length)
    (hlen : data.length ≤ 16) :
    At E (p + data.length) { c.refill with used := data.length } ∧
      xorBytes data c.refill.ks.bytes = xorFrom (keystream E) p data := by
  have hks : c.refill.ks = E (toLeBytes (BitVec.ofNat 128 (1 + p / 16))) := by
    rw [AeCtr.refill, h.cipher, h.counter, show (p + 15) / 16 = p / 16 by omega]
  refine ⟨⟨h.cipher, ?_, by dsimp only; omega, fun hnext => ?_⟩, zipWith_eq_xorFrom _ fun i hi => ?_⟩
  · rw [AeCtr.refill, h.counter, show (p + data.length + 15) / 16 = (p + 15) / 16 + 1 by omega]
    exact (BitVec.ofNat_add ..).symm
  · rw [hks, show (p + data.length) / 16 = p / 16 by omega]
  · rw [hks, getElem?_keystream (p + i) (by omega) (by omega)]

theorem At.encryptBatch (h : At E p c) (hp : 16 ∣ p) (n : Nat) :
    (c.encryptBatch n).length = 16 * n ∧
      ∀ i < 16 * n, (c.encryptBatch n)[i]? = some (keystream E (p + i)) := by
  unfold AeCtr.encryptBatch
  induction n with
  | zero => exact ⟨rfl, fun i hi => by omega⟩
  | succ n ih =>
    rw [range_succ, flatMap_append, flatMap_singleton]
    refine ⟨by rw [length_append, ih.1, Block.length_bytes]; omega, fun i hi => ?_⟩
    rcases lt_or_ge i (16 * n) with hlo | hhi
    · rw [getElem?_append_left (by omega), ih.2 i hlo]
    · have hcounter : c.counter + BitVec.ofNat 128 n = BitVec.ofNat 128 (1 + (p + 16 * n) / 16) := by
        rw [h.counter, ← BitVec.ofNat_add, show 1 + (p + 15) / 16 + n = 1 + (p + 16 * n) / 16 by omega]
      rw [getElem?_append_right (by omega), ih.1, h.cipher, hcounter,
        getElem?_keystream (p + i) (by omega) (by omega)]

theorem At.batch (h : At E p c) (hp : 16 ∣ p) (n : Nat) :
    At E (p + 16 * n) { c with counter := c.counter + BitVec.ofNat 128 n } := by
  have hused := h.used
  refine ⟨h.cipher, ?_, by dsimp only; omega, fun hne => absurd (by omega) hne⟩
  rw [h.counter, ← BitVec.ofNat_add, show 1 + (p + 15) / 16 + n = 1 + (p + 16 * n + 15) / 16 by omega]

theorem At.wholeBlocks {n : Nat} (hn : 0 < n) (data : List UInt8) : ∀ {p c}, At E p c → 16 ∣ p →
    ∃ m, 16 ∣ m ∧ m ≤ data.length ∧ data.length < m + 16 * n ∧
      (c.wholeBlocks n hn data).2 = (xorFrom (keystream E) p (data.take m), data.drop m) ∧
      At E (p + m) (c.wholeBlocks n hn data).1 := by
  induction hlen : data.length using Nat.strong_induction_on generalizing data with
  | _ len ih =>
  intro p c h hp
  rw [AeCtr.wholeBlocks]
  split
  case isFalse hshort => exact ⟨0, Nat.dvd_zero 16, Nat.zero_le _, by omega, rfl, h⟩
  case isTrue hbatch =>
    obtain ⟨m, hm, hle, hrest, hout, hat⟩ := ih _ (by rw [length_drop]; omega) (data.drop (16 * n)) rfl
      (h.batch hp n) (by omega)
    rw [length_drop] at hle hrest
    refine ⟨16 * n + m, by omega, by omega, by omega, ?_, by rwa [← add_assoc]⟩
    have hbatched : xorBytes (data.take (16 * n)) (c.encryptBatch n) =
        xorFrom (keystream E) p (data.take (16 * n)) :=
      zipWith_eq_xorFrom _ fun i hi => (h.encryptBatch hp n).2 i (by rw [length_take] at hi; omega)
    dsimp only
    rw [hout, hbatched, take_add, xorFrom_append, length_take, min_eq_left hbatch, drop_drop]

/-- What the carried block takes of a call: all of it, or up to the block's end. -/
theorem At.head (h : At E p c) (data : List UInt8) :
    ∃ n ≤ data.length, (if c.used < 16 then min (16 - c.used) data.length else 0) = n ∧
      (data.length = n ∨ 16 ∣ p + n) ∧ At E (p + n) { c with used := c.used + n } ∧
      xorBytes (data.take n) (c.ks.bytes.drop c.used) = xorFrom (keystream E) p (data.take n) := by
  have hused := h.used
  split
  case isTrue hopen =>
    have hlen : (data.take (min (16 - c.used) data.length)).length = min (16 - c.used) data.length := by
      rw [length_take]
      omega
    have hgo := h.carry _ (by omega) (hlen.trans_le (min_le_left ..))
    rw [hlen] at hgo
    exact ⟨_, min_le_right .., rfl, by omega, hgo⟩
  case isFalse hclosed => exact ⟨0, Nat.zero_le _, rfl, .inr (by omega), h, rfl⟩

theorem At.blocks (h : At E p c) {data : List UInt8} (hend : data = [] ∨ 16 ∣ p) :
    At E (p + data.length) (c.blocks data).1 ∧ (c.blocks data).2 = xorFrom (keystream E) p data := by
  rcases hend with rfl | hp
  · have hnone {n : Nat} (hn : 0 < n) : c.wholeBlocks n hn [] = (c, [], []) := by
      rw [AeCtr.wholeBlocks, if_neg (by rw [length_nil]; omega)]
    rw [AeCtr.blocks, hnone, hnone]
    exact ⟨h, rfl⟩
  obtain ⟨m, hm, hmle, -, hbatch, hat⟩ := At.wholeBlocks Nat.succ_pos' data h hp
  obtain ⟨k, hk, hkle, hkrest, hsingle, hat⟩ := At.wholeBlocks one_pos (data.drop m) hat (by omega)
  rw [length_drop] at hkle hkrest
  have hlast : (data.drop (m + k)).length = data.length - (m + k) := length_drop
  have hwhole : xorFrom (keystream E) p data = xorFrom (keystream E) p (data.take m) ++
      xorFrom (keystream E) (p + m) ((data.drop m).take k) ++
      xorFrom (keystream E) (p + m + k) (data.drop (m + k)) := by
    conv_lhs => rw [← take_append_drop m data, ← take_append_drop k (data.drop m), xorFrom_append,
      xorFrom_append, length_take, length_take, length_drop, min_eq_left hmle, min_eq_left hkle,
      drop_drop, ← append_assoc]
  unfold AeCtr.blocks
  rw [hwhole]
  rw [drop_drop] at hsingle
  dsimp only
  rw [hbatch]
  rw [hsingle]
  dsimp only
  split
  case isTrue hempty =>
    have hnil := isEmpty_iff.mp hempty
    rw [hnil, length_nil] at hlast
    refine ⟨?_, by rw [hnil, xorFrom, append_nil]⟩
    rwa [show p + data.length = p + m + k by omega]
  case isFalse hsome =>
    have hpos := length_pos_iff.mpr (mt isEmpty_iff.mpr hsome)
    obtain ⟨hnext, hout⟩ := hat.tail (data.drop (m + k)) (by omega) hpos (by omega)
    refine ⟨?_, by rw [hout]⟩
    rwa [show p + data.length = p + m + k + (data.drop (m + k)).length by omega]

theorem At.xor (p : Nat) (c : AeCtr) (data : List UInt8) (h : At E p c) :
    At E (p + data.length) (c.xor data).1 ∧ (c.xor data).2 = xorFrom (keystream E) p data := by
  obtain ⟨n, hle, hn, hends, hat, hout⟩ := h.head data
  have htake : (data.take n).length = n := by rw [length_take]; omega
  have hend : data.drop n = [] ∨ 16 ∣ p + n := hends.imp_left fun h => drop_eq_nil_of_le h.le
  obtain ⟨hnext, hrest⟩ := hat.blocks hend
  unfold AeCtr.xor
  rw [hn]
  dsimp only
  rw [hout, hrest]
  refine ⟨?_, ?_⟩
  · rwa [length_drop, show p + n + (data.length - n) = p + data.length by omega] at hnext
  · conv_rhs => rw [← take_append_drop n data, xorFrom_append, htake]

theorem At.refByte (h : At E p c) (d : UInt8) :
    At E (p + 1) (c.refByte d).1 ∧ (c.refByte d).2 = d ^^^ keystream E p := by
  have hused := h.used
  have hfirst (block : List UInt8) (hout : xorBytes [d] block = xorFrom (keystream E) p [d]) :
      d ^^^ block.getD 0 0 = d ^^^ keystream E p := by
    cases block with
    | nil => cases hout
    | cons b block => exact (cons.inj hout).1
  unfold AeCtr.refByte
  split
  case isTrue hfull =>
    obtain ⟨hat, hout⟩ := h.tail [d] (by omega) Nat.zero_lt_one (Nat.le_add_left 1 15)
    exact ⟨hat, hfirst _ hout⟩
  case isFalse hopen =>
    obtain ⟨hat, hout⟩ := h.carry [d] (by omega) (by rw [length_singleton]; omega)
    have := hfirst _ hout
    rw [getD_eq_getElem?_getD, getElem?_drop, ← getD_eq_getElem?_getD] at this
    exact ⟨hat, this⟩

theorem reference_eq (data : List UInt8) (h : At E p c) :
    (c.reference data).2 = xorFrom (keystream E) p data := by
  induction data generalizing p c with
  | nil => rfl
  | cons d rest ih =>
    obtain ⟨hnext, hout⟩ := h.refByte d
    rw [reference, bytewise, hout]
    exact congrArg (_ :: ·) (ih hnext)

end AeCtr

/-- However the calls are cut, both ciphers make the same of a string, and any cut takes it back. -/
theorem ciphers_cut (E : Block → Block) (password data : List UInt8) (ns ns' : List Nat) :
    feed AeCtr.xor (.new E) (cut ns data) = xorFrom (AeCtr.keystream E) 0 data ∧
      feed AeCtr.reference (.new E) (cut ns data) = xorFrom (AeCtr.keystream E) 0 data ∧
      feed AeCtr.xor (.new E) (cut ns' (feed AeCtr.xor (.new E) (cut ns data))) = data ∧
      feed ZipCrypto.decrypt (.new password)
        (cut ns' (feed ZipCrypto.encrypt (.new password) (cut ns data))) = data := by
  have hxor (ns data) : feed AeCtr.xor (.new E) (cut ns data) = xorFrom (AeCtr.keystream E) 0 data := by
    rw [feed_xorFrom AeCtr.At.xor _ (AeCtr.at_new E), flatten_cut]
  refine ⟨hxor ns data, ?_, by rw [hxor, hxor, xorFrom_xorFrom], ?_⟩
  · rw [AeCtr.reference, feed_bytewise, flatten_cut]
    exact AeCtr.reference_eq data (AeCtr.at_new E)
  · rw [ZipCrypto.decrypt, ZipCrypto.encrypt, feed_bytewise, flatten_cut, feed_bytewise, flatten_cut]
    exact ZipCrypto.decrypt_encrypt _ data

end NzbFast.Zip
