import Mathlib.Data.Nat.Digits.Lemmas
import Mathlib.Data.Nat.Size

/-!
# Digit lists of natural numbers

The radix conversions of a `BigUint`, which is a natural number here: digits are
bytes, the most significant one first. A list of digits below the radix is the
number it stands for and its length.
-/

namespace NzbFast.Rust

open List UInt8

def beValue (radix : Nat) (digits : List UInt8) : Nat :=
  Nat.ofDigits radix (digits.reverse.map UInt8.toNat)

def Digits (radix : Nat) (digits : List UInt8) : Prop := ∀ d ∈ digits, d.toNat < radix

instance (radix : Nat) (digits : List UInt8) : Decidable (Digits radix digits) :=
  List.decidableBAll (fun d : UInt8 => d.toNat < radix) digits

/-- `BigUint::from_radix_be`. -/
def fromRadixBe (digits : List UInt8) (radix : Nat) : Option Nat :=
  if Digits radix digits then some (beValue radix digits) else none

/-- `BigUint::to_radix_be`: zero has one digit. -/
def toRadixBe (n radix : Nat) : List UInt8 :=
  if n = 0 then [0] else ((Nat.digits radix n).map UInt8.ofNat).reverse

def toBytesBe (n : Nat) : List UInt8 := toRadixBe n 256

def fromBytesBe (bytes : List UInt8) : Nat := beValue 256 bytes

/-- `BigUint::bits`. -/
def bits (n : Nat) : Nat := Nat.size n

/-- The digits of a number with zeros in front, `m` of them. -/
def paddedDigits (radix m n : Nat) : List UInt8 :=
  List.replicate (m - (toRadixBe n radix).length) 0 ++ toRadixBe n radix

section Radix

variable {radix m n : Nat} {digits : List UInt8}

theorem beValue_lt (hr : 2 ≤ radix) (h : Digits radix digits) :
    beValue radix digits < radix ^ digits.length := by
  have hlen : (digits.reverse.map toNat).length = digits.length := by simp
  rw [beValue, ← hlen]
  refine Nat.ofDigits_lt_base_pow_length hr fun x hx => ?_
  obtain ⟨d, hd, rfl⟩ := mem_map.mp hx
  exact h d (mem_reverse.mp hd)

theorem beValue_inj (hr : 2 ≤ radix) {v w : List UInt8} (hv : Digits radix v) (hw : Digits radix w)
    (hlen : v.length = w.length) (h : beValue radix v = beValue radix w) : v = w := by
  have hmem : ∀ u, Digits radix u → ∀ x ∈ u.reverse.map toNat, x < radix := by
    intro u hu x hx
    obtain ⟨d, hd, rfl⟩ := mem_map.mp hx
    exact hu d (mem_reverse.mp hd)
  have hmap := Nat.ofDigits_inj_of_len_eq hr (by simp [hlen]) (hmem v hv) (hmem w hw) h
  exact reverse_injective
    (map_injective_iff.mpr (fun _ _ => UInt8.toNat_inj.mp) hmap)

theorem beValue_replicate_append (k : Nat) (digits : List UInt8) :
    beValue radix (List.replicate k 0 ++ digits) = beValue radix digits := by
  unfold beValue
  rw [reverse_append, map_append, reverse_replicate, map_replicate]
  exact Nat.ofDigits_append_replicate_zero _

variable (hr : 2 ≤ radix) (hr' : radix ≤ 256)

include hr hr'

theorem map_toNat_digits : ((Nat.digits radix n).map UInt8.ofNat).map UInt8.toNat =
    Nat.digits radix n := by
  rw [map_map]
  conv_rhs => rw [← map_id (Nat.digits radix n)]
  refine map_congr_left fun d hd => ?_
  have hd := Nat.digits_lt_base hr hd
  simp only [Function.comp_apply, toNat_ofNat', id_eq]
  omega

theorem beValue_toRadixBe : beValue radix (toRadixBe n radix) = n := by
  unfold toRadixBe
  split
  case isTrue h => simp [beValue, h]
  case isFalse =>
    rw [beValue, reverse_reverse, map_toNat_digits hr hr', Nat.ofDigits_digits]

theorem digits_toRadixBe : Digits radix (toRadixBe n radix) := by
  unfold toRadixBe
  split
  case isTrue =>
    intro d hd
    rw [mem_singleton.mp hd, UInt8.toNat_zero]
    omega
  case isFalse =>
    intro d hd
    obtain ⟨x, hx, rfl⟩ := mem_map.mp (mem_reverse.mp hd)
    have hx := Nat.digits_lt_base hr hx
    rw [toNat_ofNat']
    omega

theorem length_toRadixBe_le (hm : 0 < m) (hn : n < radix ^ m) : (toRadixBe n radix).length ≤ m := by
  unfold toRadixBe
  split
  case isTrue => exact hm
  case isFalse =>
    rw [length_reverse, length_map]
    exact (Nat.digits_length_le_iff hr n).mpr hn

theorem beValue_paddedDigits : beValue radix (paddedDigits radix m n) = n := by
  rw [paddedDigits, beValue_replicate_append, beValue_toRadixBe hr hr']

theorem digits_paddedDigits : Digits radix (paddedDigits radix m n) := by
  intro d hd
  rcases mem_append.mp hd with hd | hd
  · rw [eq_of_mem_replicate hd, UInt8.toNat_zero]
    omega
  · exact digits_toRadixBe hr hr' d hd

theorem length_paddedDigits (hm : 0 < m) (hn : n < radix ^ m) :
    (paddedDigits radix m n).length = m := by
  have := length_toRadixBe_le hr hr' hm hn
  rw [paddedDigits, length_append, length_replicate]
  omega

theorem paddedDigits_beValue (h : Digits radix digits) (hpos : 0 < digits.length) :
    paddedDigits radix digits.length (beValue radix digits) = digits :=
  beValue_inj hr (digits_paddedDigits hr hr') h
    (length_paddedDigits hr hr' hpos (beValue_lt hr h)) (beValue_paddedDigits hr hr')

end Radix

end NzbFast.Rust
