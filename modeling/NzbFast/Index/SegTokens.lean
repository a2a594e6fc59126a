import NzbFast.Wire.Bits
import NzbFast.Index.SegCodec

/-!
# Tokens read back

Each field of an encoded segment list reads back as it was written: varints,
zigzag deltas, and the raw, hex and 6-bit tokens of an id middle. The 6-bit
packer and unpacker are compared through the bit string both of them carry
(`Wire.bits`): the packer's bytes are its characters' digits with zero padding
behind them, and the unpacker's characters are a head of its bytes' bits.
-/

namespace NzbFast.Index

open Wire NzbFast.Rust List

/-! ## Varints -/

theorem reads_u8 (b : UInt8) : Reads u8 [b] b := fun _ => rfl

theorem reads_readBytes {n : Nat} {w : List UInt8} (h : w.length = n) : Reads (readBytes n) w w := by
  intro rest
  show readBytes n (w ++ rest) = _
  simp [readBytes, ← h]

theorem toNat_shiftRight_seven (v : UInt64) : (v >>> 7).toNat = v.toNat / 128 := by
  simp [UInt64.toNat_shiftRight, Nat.shiftRight_eq_div_pow]

theorem toNat_low_seven (v : UInt64) : (v &&& 0x7f).toUInt8.toNat = v.toNat % 128 := by
  have h : (0x7f : UInt64).toNat = 2 ^ 7 - 1 := rfl
  rw [UInt64.toNat_toUInt8, UInt64.toNat_and, h, Nat.and_two_pow_sub_one_eq_mod]
  omega

theorem toNat_or_high {b : UInt8} (h : b.toNat < 128) : (b ||| 0x80).toNat = b.toNat + 128 := by
  have h7 : (0x80 : UInt8).toNat = 2 ^ 7 * 1 := rfl
  rw [UInt8.toNat_or, h7, Nat.or_comm, ← Nat.two_pow_add_eq_or_of_lt h]
  omega

set_option maxRecDepth 10000 in
/-- A byte's high bit and payload, by its value. -/
theorem high_bit_zero_iff (b : UInt8) : b &&& 0x80 = 0 ↔ b.toNat < 128 := by
  have h : ∀ n < 256, (UInt8.ofNat n &&& 0x80 = 0 ↔ (UInt8.ofNat n).toNat < 128) := by decide
  have := h b.toNat b.toNat_lt
  rwa [UInt8.ofNat_toNat] at this

theorem toNat_payload (b : UInt8) : (b &&& 0x7f).toUInt64.toNat = b.toNat % 128 := by
  have h : (0x7f : UInt8).toNat = 2 ^ 7 - 1 := rfl
  rw [UInt8.toNat_toUInt64, UInt8.toNat_and, h, Nat.and_two_pow_sub_one_eq_mod]

/-- The reader's accumulation step: the next seven bits land above those already there. -/
theorem toNat_or_shifted {acc x : UInt64} {k : Nat} (hk : k < 64) (hacc : acc.toNat < 2 ^ k)
    (hx : x.toNat * 2 ^ k < 2 ^ 64) :
    (acc ||| (x <<< UInt64.ofNat k)).toNat = acc.toNat + x.toNat * 2 ^ k := by
  have hs : (x <<< UInt64.ofNat k).toNat = x.toNat * 2 ^ k := by
    have hk' : (UInt64.ofNat k).toNat = k := by
      rw [UInt64.toNat_ofNat']
      omega
    rw [UInt64.toNat_shiftLeft, hk', Nat.mod_eq_of_lt hk, Nat.shiftLeft_eq, Nat.mod_eq_of_lt hx]
  rw [UInt64.toNat_or, hs, Nat.or_comm, Nat.mul_comm, ← Nat.two_pow_add_eq_or_of_lt hacc, add_comm]

/-- The writer's step, by the value. -/
theorem putVarint_eq (v : UInt64) :
    putVarint v = if v.toNat < 128 then [UInt8.ofNat v.toNat]
      else UInt8.ofNat (v.toNat % 128 + 128) :: putVarint (v >>> 7) := by
  rw [putVarint]
  have hiff : v >>> 7 = 0 ↔ v.toNat < 128 := by
    rw [← UInt64.toNat_inj, toNat_shiftRight_seven]
    simp
  by_cases h : v.toNat < 128
  · rw [dif_pos (hiff.mpr h), if_pos h]
    congr 1
    apply UInt8.toNat_inj.mp
    rw [toNat_low_seven, UInt8.toNat_ofNat']
    omega
  · rw [dif_neg (fun hz => h (hiff.mp hz)), if_neg h]
    congr 1
    apply UInt8.toNat_inj.mp
    rw [toNat_or_high (by rw [toNat_low_seven]; omega), toNat_low_seven, UInt8.toNat_ofNat']
    omega

theorem reads_varintLoop_last {b : UInt8} (hb : b.toNat < 128) (shift : Nat) (shifts : List Nat)
    (acc : UInt64) : Reads (varintLoop (shift :: shifts) acc) [b]
      (acc ||| ((b &&& 0x7f).toUInt64 <<< UInt64.ofNat shift)) := by
  refine (reads_u8 b).bind ?_
  rw [if_pos ((high_bit_zero_iff b).mpr hb)]
  exact Reads.pure _

theorem reads_varintLoop_more {b : UInt8} (hb : 128 ≤ b.toNat) {shift : Nat} {shifts : List Nat}
    {acc x : UInt64} {w : List UInt8}
    (h : Reads (varintLoop shifts (acc ||| ((b &&& 0x7f).toUInt64 <<< UInt64.ofNat shift))) w x) :
    Reads (varintLoop (shift :: shifts) acc) (b :: w) x := by
  have hne : ¬ b &&& 0x80 = 0 := by
    rw [high_bit_zero_iff]
    omega
  refine (reads_u8 b).bind ?_
  rw [if_neg hne]
  exact h

/-- The varint loop from shift `7 * k` on, with `u` the bits still to come: the shifts never
run out, since at shift 63 one bit is left. -/
theorem reads_varintLoop (n : Nat) : ∀ (k : Nat) (u acc : UInt64), k + n = 10 → 0 < n →
    u.toNat < 2 ^ (64 - 7 * k) → acc.toNat < 2 ^ (7 * k) →
    Reads (varintLoop (List.range' (7 * k) n 7) acc) (putVarint u)
      (UInt64.ofNat (acc.toNat + u.toNat * 2 ^ (7 * k))) := by
  induction n with
  | zero => intro k u acc _ hn; omega
  | succ n ih =>
    intro k u acc hk _ hu hacc
    have hpow : 2 ^ (64 - 7 * k) * 2 ^ (7 * k) = 2 ^ 64 := by
      rw [← pow_add]
      congr 1
      omega
    have hmul : u.toNat * 2 ^ (7 * k) < 2 ^ 64 := by
      rw [← hpow]
      exact mul_lt_mul_of_pos_right hu (Nat.two_pow_pos _)
    rw [putVarint_eq, range'_succ]
    split
    case isTrue hlt =>
      have hb : (UInt8.ofNat u.toNat).toNat = u.toNat := by
        rw [UInt8.toNat_ofNat']
        omega
      have hp : ((UInt8.ofNat u.toNat) &&& 0x7f).toUInt64.toNat = u.toNat := by
        rw [toNat_payload, hb]
        omega
      have hor := toNat_or_shifted (k := 7 * k) (by omega) hacc (by rw [hp]; exact hmul)
      rw [hp] at hor
      have hval : UInt64.ofNat (acc.toNat + u.toNat * 2 ^ (7 * k)) =
          acc ||| (((UInt8.ofNat u.toNat) &&& 0x7f).toUInt64 <<< UInt64.ofNat (7 * k)) := by
        rw [← hor, UInt64.ofNat_toNat]
      rw [hval]
      exact reads_varintLoop_last (by omega) _ _ _
    case isFalse hge =>
      have hk8 : k < 9 := by
        by_contra h9
        obtain rfl : k = 9 := by omega
        omega
      have hb : (UInt8.ofNat (u.toNat % 128 + 128)).toNat = u.toNat % 128 + 128 := by
        rw [UInt8.toNat_ofNat']
        omega
      have hp : ((UInt8.ofNat (u.toNat % 128 + 128)) &&& 0x7f).toUInt64.toNat = u.toNat % 128 := by
        rw [toNat_payload, hb]
        omega
      have hlow : u.toNat % 128 * 2 ^ (7 * k) ≤ u.toNat * 2 ^ (7 * k) :=
        Nat.mul_le_mul_right _ (Nat.mod_le _ _)
      have hor := toNat_or_shifted (k := 7 * k) (by omega) hacc
        (x := ((UInt8.ofNat (u.toNat % 128 + 128)) &&& 0x7f).toUInt64) (by rw [hp]; omega)
      rw [hp] at hor
      have hstep : 2 ^ (7 * (k + 1)) = 2 ^ (7 * k) * 128 := by rw [Nat.mul_succ, Nat.pow_add]
      have hu' : (u >>> 7).toNat < 2 ^ (64 - 7 * (k + 1)) := by
        rw [toNat_shiftRight_seven, Nat.div_lt_iff_lt_mul (by decide)]
        have : 2 ^ (64 - 7 * (k + 1)) * 128 = 2 ^ (64 - 7 * k) := by
          rw [show (128 : Nat) = 2 ^ 7 from rfl, ← pow_add]
          congr 1
          omega
        omega
      have hmod : u.toNat % 128 * 2 ^ (7 * k) ≤ 127 * 2 ^ (7 * k) :=
        Nat.mul_le_mul_right _ (by omega)
      have hrec := ih (k + 1) (u >>> 7) _ (by omega) (by omega) hu' (by rw [hor, hstep]; omega)
      -- `u` is its low group and the rest, one group up.
      have hsum : acc.toNat + u.toNat % 128 * 2 ^ (7 * k) + u.toNat / 128 * 2 ^ (7 * (k + 1)) =
          acc.toNat + u.toNat * 2 ^ (7 * k) := by
        calc acc.toNat + u.toNat % 128 * 2 ^ (7 * k) + u.toNat / 128 * 2 ^ (7 * (k + 1))
            = acc.toNat + (128 * (u.toNat / 128) + u.toNat % 128) * 2 ^ (7 * k) := by
              rw [hstep]; ring
          _ = acc.toNat + u.toNat * 2 ^ (7 * k) := by rw [Nat.div_add_mod]
      rw [hor, toNat_shiftRight_seven, hsum] at hrec
      exact reads_varintLoop_more (by omega) hrec

theorem reads_varint (v : UInt64) : Reads varint (putVarint v) v := by
  have h := reads_varintLoop 10 0 v 0 rfl (by decide) v.toNat_lt (by decide)
  simpa [varint, range'] using h

/-! ## Zigzag -/

theorem sshiftRight_last (b : BitVec 64) :
    b.sshiftRight 63 = if b.msb then BitVec.allOnes 64 else 0#64 := by
  apply BitVec.eq_of_getLsbD_eq
  intro i hi
  rw [BitVec.getLsbD_sshiftRight]
  have hl : b.getLsbD 63 = b.msb := by simp [BitVec.msb_eq_getLsbD_last]
  have hi' : ¬ 64 ≤ i := by omega
  have hsel : (if 63 + i < 64 then b.getLsbD (63 + i) else b.msb) = b.msb := by
    split
    · obtain rfl : i = 0 := by omega
      exact hl
    · rfl
  rw [hsel]
  cases b.msb <;> simp only [hi', hi, BitVec.getLsbD_allOnes, BitVec.getLsbD_zero, decide_false,
    decide_true, Bool.not_false, Bool.true_and, ↓reduceIte, Bool.false_eq_true]

theorem unzigzag_bits (b : BitVec 64) :
    (b <<< 1 ^^^ b.sshiftRight 63) >>> 1 ^^^ -((b <<< 1 ^^^ b.sshiftRight 63) &&& 1) = b := by
  rw [sshiftRight_last]
  cases hm : b.msb with
  | false =>
    have hlt : b.toNat < 2 ^ 63 := by
      rw [BitVec.msb_eq_decide] at hm
      simpa using hm
    apply BitVec.eq_of_toNat_eq
    simp [Nat.shiftLeft_eq, Nat.shiftRight_eq_div_pow]
    omega
  | true =>
    have hge : 2 ^ 63 ≤ b.toNat := by
      rw [BitVec.msb_eq_decide] at hm
      simpa using hm
    have hx : (b <<< 1 ^^^ BitVec.allOnes 64) &&& 1 = 1#64 := by
      apply BitVec.eq_of_toNat_eq
      simp [BitVec.toNat_and, Nat.and_one_is_mod, Nat.shiftLeft_eq]
      omega
    have hneg : -1#64 = BitVec.allOnes 64 := by decide
    simp only [↓reduceIte, hx]
    rw [hneg, BitVec.xor_allOnes, BitVec.xor_allOnes]
    apply BitVec.eq_of_toNat_eq
    simp [Nat.shiftLeft_eq, Nat.shiftRight_eq_div_pow]
    omega

theorem unzigzag_zigzag {v : Int} (hlo : -2 ^ 63 ≤ v) (hhi : v < 2 ^ 63) :
    unzigzag (zigzag v) = v := by
  unfold unzigzag zigzag
  simp only [unzigzag_bits]
  rw [BitVec.toInt_ofInt]
  exact Int.bmod_eq_of_le (by omega) (by omega)

/-! ## Hex tokens -/

theorem forall_byte {P : UInt8 → Prop} (h : ∀ n < 256, P (UInt8.ofNat n)) (c : UInt8) : P c := by
  have := h c.toNat c.toNat_lt
  rwa [UInt8.ofNat_toNat] at this

set_option maxRecDepth 10000 in
theorem hexVal_spec (c : UInt8) : isHex c → ((hexVal c).getD 0).toNat < 16 ∧
    HEX_ALPHABET.getD ((hexVal c).getD 0).toNat 0 = c :=
  forall_byte (P := fun c => isHex c → ((hexVal c).getD 0).toNat < 16 ∧
    HEX_ALPHABET.getD ((hexVal c).getD 0).toNat 0 = c) (by decide) c

theorem nibbles {x y : UInt8} (hx : x.toNat < 16) (hy : y.toNat < 16) :
    ((x <<< 4) ||| y) >>> 4 = x ∧ ((x <<< 4) ||| y) &&& 0xf = y := by
  have h : ∀ a < 16, ∀ b < 16, ((UInt8.ofNat a <<< 4) ||| UInt8.ofNat b) >>> 4 = UInt8.ofNat a ∧
      ((UInt8.ofNat a <<< 4) ||| UInt8.ofNat b) &&& 0xf = UInt8.ofNat b := by decide
  have := h x.toNat hx y.toNat hy
  rwa [UInt8.ofNat_toNat, UInt8.ofNat_toNat] at this

theorem unpackHex_packHex (chunk : List UInt8) (heven : chunk.length % 2 = 0)
    (hhex : ∀ c ∈ chunk, isHex c) :
    unpackHex (packHex chunk) = chunk ∧ (packHex chunk).length = chunk.length / 2 := by
  induction chunk using packHex.induct with
  | case1 a b rest ih =>
    have ha := hexVal_spec a (hhex a (by simp))
    have hb := hexVal_spec b (hhex b (by simp))
    obtain ⟨hn1, hn2⟩ := nibbles ha.1 hb.1
    obtain ⟨ih1, ih2⟩ := ih (by simp at heven; omega) (fun c hc => hhex c (by simp [hc]))
    rw [unpackHex] at ih1 ⊢
    constructor
    · simp only [packHex, flatMap_cons, hn1, hn2, ha.2, hb.2, ih1]
      rfl
    · simp only [packHex, length_cons, ih2]
      omega
  | case2 l hl =>
    match l, hl, heven with
    | [], _, _ => exact ⟨rfl, rfl⟩
    | [_], _, h => simp at h
    | a :: b :: rest, hl, _ => exact absurd rfl (hl a b rest)

/-! ## 6-bit tokens -/

def digit (c : UInt8) : Nat := ((b64Index c).getD 0).toNat

set_option maxRecDepth 10000 in
theorem digit_lt (c : UInt8) : digit c < 2 ^ 6 :=
  forall_byte (P := fun c => digit c < 2 ^ 6) (by decide) c

set_option maxRecDepth 10000 in
theorem alphabet_digit (c : UInt8) : isB64 c → B64_ALPHABET.getD (digit c) 0 = c :=
  forall_byte (P := fun c => isB64 c → B64_ALPHABET.getD (digit c) 0 = c) (by decide) c

theorem digit_alphabet {d : Nat} (h : d < 2 ^ 6) : digit (B64_ALPHABET.getD d 0) = d := by
  have h' : ∀ d < 2 ^ 6, digit (B64_ALPHABET.getD d 0) = d := by decide
  exact h' d h

theorem isB64_alphabet {d : Nat} (h : d < 2 ^ 6) : isB64 (B64_ALPHABET.getD d 0) := by
  have h' : ∀ d < 2 ^ 6, isB64 (B64_ALPHABET.getD d 0) := by decide
  exact h' d h

/-- Pushing `w` bits into the accumulator: the bits it held, then the new ones. -/
theorem bits_push (acc x : UInt32) {w nb : Nat} (hw : w < 32) (hx : x.toNat < 2 ^ w)
    (hnb : nb + w ≤ 32) :
    bits (nb + w) ((acc <<< UInt32.ofNat w) ||| x).toNat = bits nb acc.toNat ++ bits w x.toNat := by
  have hsh : (acc <<< UInt32.ofNat w).toNat = acc.toNat <<< w % 2 ^ 32 := by
    have hw' : (UInt32.ofNat w).toNat = w := by
      rw [UInt32.toNat_ofNat']
      omega
    rw [UInt32.toNat_shiftLeft, hw', Nat.mod_eq_of_lt hw]
  rw [bits_add, UInt32.toNat_or, hsh]
  congr 1
  · apply bits_congr
    intro i hi
    have hxi : x.toNat.testBit (w + i) = false :=
      Nat.testBit_lt_two_pow (lt_of_lt_of_le hx (Nat.pow_le_pow_right (by decide) (by omega)))
    have hlt : w + i < 32 := by omega
    simp only [Nat.testBit_shiftRight, Nat.testBit_or, Nat.testBit_mod_two_pow,
      Nat.testBit_shiftLeft, hxi, hlt, decide_true, Bool.true_and, Bool.or_false,
      Nat.le_add_right, Nat.add_sub_cancel_left]
  · apply bits_congr
    intro i hi
    have hlt : ¬ w ≤ i := by omega
    simp only [Nat.testBit_or, Nat.testBit_mod_two_pow, Nat.testBit_shiftLeft, ge_iff_le, hlt,
      decide_false, Bool.false_and, Bool.and_false, Bool.false_or]

/-- Taking `w` bits off the top of the `nb` bits held. -/
theorem bits_take {acc : UInt32} {w k : Nat} (hk : k < 32) :
    bits w ((acc >>> UInt32.ofNat k).toNat % 2 ^ w) ++ bits k acc.toNat =
      bits (w + k) acc.toNat := by
  have hsh : (acc >>> UInt32.ofNat k).toNat = acc.toNat >>> k := by
    have hk' : (UInt32.ofNat k).toNat = k := by
      rw [UInt32.toNat_ofNat']
      omega
    rw [UInt32.toNat_shiftRight, hk', Nat.mod_eq_of_lt hk]
  rw [bits_add, hsh]
  congr 1
  apply bits_congr
  intro i hi
  simp [Nat.testBit_mod_two_pow, hi]

theorem toNat_mask_byte (x : UInt32) : (x &&& 0xff).toUInt8.toNat = x.toNat % 2 ^ 8 := by
  have h : (0xff : UInt32).toNat = 2 ^ 8 - 1 := rfl
  rw [UInt32.toNat_toUInt8, UInt32.toNat_and, h, Nat.and_two_pow_sub_one_eq_mod]
  omega

theorem toNat_mask_digit (x : UInt32) : (x &&& 0x3f).toNat = x.toNat % 2 ^ 6 := by
  have h : (0x3f : UInt32).toNat = 2 ^ 6 - 1 := rfl
  rw [UInt32.toNat_and, h, Nat.and_two_pow_sub_one_eq_mod]

def values (bs : List UInt8) : List Nat := bs.map UInt8.toNat

theorem drainBytes_spec (acc : UInt32) (nb : Nat) (h : nb ≤ 32) :
    digits 8 (values (drainBytes acc nb).1) ++ bits (drainBytes acc nb).2 acc.toNat =
      bits nb acc.toNat ∧ (drainBytes acc nb).2 < 8 := by
  induction nb using Nat.strong_induction_on with
  | _ nb ih =>
    unfold drainBytes
    split
    case isTrue h8 =>
      obtain ⟨ih1, ih2⟩ := ih (nb - 8) (by omega) (by omega)
      refine ⟨?_, ih2⟩
      simp only [values, map_cons, digits_cons, append_assoc, toNat_mask_byte]
      rw [show map UInt8.toNat (drainBytes acc (nb - 8)).1 =
        values (drainBytes acc (nb - 8)).1 from rfl, ih1, bits_take (by omega)]
      congr 1
      omega
    case isFalse h8 =>
      exact ⟨rfl, by simp only; omega⟩

/-- The packed bytes are the digits' bits and a zero padding of less than a byte. -/
theorem packB64_spec (cs : List UInt8) : ∀ (acc : UInt32) (nb : Nat), nb < 8 →
    ∃ pad, pad < 8 ∧ digits 8 (values (packB64 cs acc nb)) =
      bits nb acc.toNat ++ digits 6 (cs.map digit) ++ List.replicate pad false := by
  induction cs with
  | nil =>
    intro acc nb hnb
    unfold packB64
    split
    case isTrue hpos =>
      refine ⟨8 - nb, by omega, ?_⟩
      have hz : Wire.bits (8 - nb) (0 : UInt32).toNat = replicate (8 - nb) false := by
        simp [Wire.bits]
      have h := bits_push acc 0 (show 8 - nb < 32 by omega) (Nat.two_pow_pos _)
        (show nb + (8 - nb) ≤ 32 by omega)
      rw [show nb + (8 - nb) = 8 by omega, hz] at h
      have hm : bits 8 ((acc <<< UInt32.ofNat (8 - nb)).toNat % 2 ^ 8) =
          bits 8 ((acc <<< UInt32.ofNat (8 - nb)) ||| 0).toNat := by
        apply bits_congr
        intro i hi
        simp only [Nat.testBit_mod_two_pow, hi, decide_true, Bool.true_and]
        simp
      simp only [values, map_cons, map_nil, digits_cons, digits_nil, append_nil, toNat_mask_byte]
      rw [hm, h]
    case isFalse hpos =>
      obtain rfl : nb = 0 := by omega
      exact ⟨0, by decide, rfl⟩
  | cons c cs ih =>
    intro acc nb hnb
    unfold packB64
    set acc' := (acc <<< 6) ||| ((b64Index c).getD 0).toUInt32 with hacc'
    obtain ⟨hd1, hd2⟩ := drainBytes_spec acc' (nb + 6) (by omega)
    obtain ⟨pad, hpad, hrec⟩ := ih acc' (drainBytes acc' (nb + 6)).2 hd2
    refine ⟨pad, hpad, ?_⟩
    have hval : (((b64Index c).getD 0).toUInt32).toNat = digit c := by simp [digit]
    have hpush := bits_push acc ((b64Index c).getD 0).toUInt32 (show 6 < 32 by omega)
      (by rw [hval]; exact digit_lt c) (show nb + 6 ≤ 32 by omega)
    simp only [values, map_append, digits_append] at hrec hd1 ⊢
    rw [hrec, ← append_assoc, ← append_assoc, hd1]
    rw [hval] at hpush
    rw [show acc' = (acc <<< UInt32.ofNat 6) ||| ((b64Index c).getD 0).toUInt32 from rfl, hpush]
    simp [append_assoc]

/-- The inner unpacking loop takes digits off the top while there are six bits and characters
wanted. -/
theorem drainChars_spec (acc : UInt32) (want : Nat) : ∀ nb, nb ≤ 32 →
    digits 6 ((drainChars acc nb want).1.map digit) ++ bits (drainChars acc nb want).2.1 acc.toNat =
      bits nb acc.toNat ∧
    (drainChars acc nb want).1.length = min want (nb / 6) ∧
    (drainChars acc nb want).2 = (nb - 6 * min want (nb / 6), want - min want (nb / 6)) ∧
    ∀ c ∈ (drainChars acc nb want).1, isB64 c := by
  induction want with
  | zero => intro nb _; simp [drainChars]
  | succ want ih =>
    intro nb hnb
    unfold drainChars
    split
    case isTrue h6 =>
      obtain ⟨ih1, ih2, ih3, ih4⟩ := ih (nb - 6) (by omega)
      refine ⟨?_, ?_, ?_, ?_⟩
      · simp only [map_cons, digits_cons, append_assoc, ih1, toNat_mask_digit]
        rw [digit_alphabet (Nat.mod_lt _ (by decide)), bits_take (by omega)]
        congr 1
        omega
      · simp only [length_cons, ih2]
        omega
      · simp only [ih3, Prod.mk.injEq]
        omega
      · intro c hc
        rcases mem_cons.mp hc with rfl | hc
        · rw [toNat_mask_digit]
          exact isB64_alphabet (Nat.mod_lt _ (by decide))
        · exact ih4 c hc
    case isFalse h6 =>
      have hdiv : min (want + 1) (nb / 6) = 0 := by omega
      refine ⟨rfl, ?_, ?_, by simp⟩
      · simp [hdiv]
      · simp [hdiv]

/-- With the bytes of exactly `want` characters to come, the unpacker emits `want` characters
whose digits head its input's bits. -/
theorem unpackB64_spec (bs : List UInt8) : ∀ (acc : UInt32) (nb want : Nat), nb < 6 →
    6 * want ≤ nb + 8 * bs.length → nb + 8 * bs.length < 6 * want + 8 →
    (unpackB64 bs acc nb want).2 = 0 ∧ (unpackB64 bs acc nb want).1.length = want ∧
    (∀ c ∈ (unpackB64 bs acc nb want).1, isB64 c) ∧
    ∃ tail, bits nb acc.toNat ++ digits 8 (values bs) =
      digits 6 ((unpackB64 bs acc nb want).1.map digit) ++ tail := by
  induction bs with
  | nil =>
    intro acc nb want hnb hle _
    obtain rfl : want = 0 := by simp at hle; omega
    exact ⟨rfl, rfl, by simp [unpackB64], _, rfl⟩
  | cons b bs ih =>
    intro acc nb want hnb hle hlt
    simp only [length_cons] at hle hlt
    unfold unpackB64
    set acc' := (acc <<< 8) ||| b.toUInt32 with hacc'
    have hval : b.toUInt32.toNat = b.toNat := by simp
    have hpush := bits_push acc b.toUInt32 (show 8 < 32 by omega)
      (by rw [hval]; exact b.toNat_lt) (show nb + 8 ≤ 32 by omega)
    rw [hval, show (acc <<< UInt32.ofNat 8) ||| b.toUInt32 = acc' from rfl] at hpush
    obtain ⟨hd1, hd2, hd3, hd4⟩ := drainChars_spec acc' want (nb + 8) (by omega)
    simp only [hd3] at hd1 ⊢
    have hbits : bits nb acc.toNat ++ digits 8 (values (b :: bs)) =
        digits 6 ((drainChars acc' (nb + 8) want).1.map digit) ++
          (bits (nb + 8 - 6 * min want ((nb + 8) / 6)) acc'.toNat ++ digits 8 (values bs)) := by
      rw [← append_assoc, hd1, hpush]
      simp [values]
    -- Either the byte is not the last and every digit it completes is wanted, or it is the last.
    rcases lt_or_ge ((nb + 8) / 6) want with hfull | hlast
    · have hmin : min want ((nb + 8) / 6) = (nb + 8) / 6 := by omega
      rw [hmin] at hbits ⊢
      obtain ⟨i1, i2, i3, tail, i4⟩ := ih acc' (nb + 8 - 6 * ((nb + 8) / 6))
        (want - (nb + 8) / 6) (by omega) (by omega) (by omega)
      refine ⟨i1, ?_, ?_, tail, ?_⟩
      · simp only [length_append, hd2, i2, hmin]
        omega
      · intro c hc
        rcases mem_append.mp hc with hc | hc
        · exact hd4 c hc
        · exact i3 c hc
      · rw [hbits, i4]
        simp
    · have hmin : min want ((nb + 8) / 6) = want := by omega
      obtain rfl : bs = [] := length_eq_zero_iff.mp (by omega)
      rw [hmin] at hbits hd2 ⊢
      simp only [unpackB64, Nat.sub_self, append_nil, true_and]
      exact ⟨hd2, hd4, _, hbits⟩

theorem map_digit_injective {xs ys : List UInt8} (hx : ∀ c ∈ xs, isB64 c) (hy : ∀ c ∈ ys, isB64 c)
    (h : xs.map digit = ys.map digit) : xs = ys := by
  have hinv : ∀ zs : List UInt8, (∀ c ∈ zs, isB64 c) →
      (zs.map digit).map (B64_ALPHABET.getD · 0) = zs := by
    intro zs hz
    rw [map_map]
    conv_rhs => rw [← map_id zs]
    apply map_congr_left
    intro c hc
    exact alphabet_digit c (hz c hc)
  rw [← hinv xs hx, h, hinv ys hy]

theorem unpackB64_packB64 (chunk : List UInt8) (hb64 : ∀ c ∈ chunk, isB64 c) :
    unpackB64 (packB64 chunk 0 0) 0 0 chunk.length = (chunk, 0) ∧
      (packB64 chunk 0 0).length = (chunk.length * 6 + 7) / 8 := by
  obtain ⟨pad, hpad, hpack⟩ := packB64_spec chunk 0 0 (by decide)
  have hlen : (packB64 chunk 0 0).length * 8 = chunk.length * 6 + pad := by
    have := congrArg length hpack
    simp [values] at this
    omega
  obtain ⟨h1, h2, h3, tail, h4⟩ := unpackB64_spec (packB64 chunk 0 0) 0 0 chunk.length
    (by decide) (by omega) (by omega)
  simp only [bits_zero, nil_append] at h4
  rw [hpack] at h4
  have hdig : digits 6 (chunk.map digit) =
      digits 6 ((unpackB64 (packB64 chunk 0 0) 0 0 chunk.length).1.map digit) :=
    (append_inj h4 (by simp [h2])).1
  have hmap := digits_injective (w := 6) (by simp [h2])
    (by simp only [mem_map]; rintro _ ⟨c, _, rfl⟩; exact digit_lt c)
    (by simp only [mem_map]; rintro _ ⟨c, _, rfl⟩; exact digit_lt c) hdig
  refine ⟨?_, by omega⟩
  exact Prod.ext (map_digit_injective hb64 h3 hmap).symm h1

end NzbFast.Index
