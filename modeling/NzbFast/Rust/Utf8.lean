import Mathlib.Data.List.Basic

/-!
# Strings as UTF-8 bytes

A Rust `String` is a byte string that is valid UTF-8. `fromUtf8` is
`std::str::from_utf8`; `fromUtf8Lossy` is `String::from_utf8_lossy`, which
returns a valid input unchanged and otherwise replaces each maximal ill-formed
subpart by one U+FFFD.
-/

namespace NzbFast.Rust

/-- `str::as_bytes`. -/
def asBytes (s : String) : List UInt8 := s.toByteArray.data.toList

/-- `std::str::from_utf8`. -/
def fromUtf8 (b : List UInt8) : Option String := String.fromUTF8? ⟨b.toArray⟩

theorem fromUtf8_asBytes (s : String) : fromUtf8 (asBytes s) = some s := by
  unfold fromUtf8 asBytes String.fromUTF8?
  rw [dif_pos s.isValidUTF8]
  rfl

/-- A continuation byte; past the end there is none. -/
def isContinuation : Option UInt8 → Bool
  | some b => b &&& 0xC0 == 0x80
  | none => false

/-- The second byte a three- or four-byte lead admits. -/
def secondInRange (lead : UInt8) : Option UInt8 → Bool
  | none => false
  | some b =>
    if lead == 0xE0 then 0xA0 ≤ b && b ≤ 0xBF
    else if lead == 0xED then 0x80 ≤ b && b ≤ 0x9F
    else if lead == 0xF0 then 0x90 ≤ b && b ≤ 0xBF
    else if lead == 0xF4 then 0x80 ≤ b && b ≤ 0x8F
    else 0x80 ≤ b && b ≤ 0xBF

/-- The length of the maximal subpart at the head of an ill-formed sequence. -/
def maximalSubpart : List UInt8 → Nat
  | [] => 0
  | lead :: rest =>
    if 0xE0 ≤ lead ∧ lead ≤ 0xEF then
      if secondInRange lead rest[0]? then 2 else 1
    else if 0xF0 ≤ lead ∧ lead ≤ 0xF4 then
      if secondInRange lead rest[0]? then if isContinuation rest[1]? then 3 else 2 else 1
    else 1

/-- The characters of a byte string, one U+FFFD for each ill-formed subpart. The
fuel is the number of bytes left. -/
def lossyChars : Nat → List UInt8 → List Char
  | 0, _ => []
  | _, [] => []
  | n + 1, b :: bs =>
    match ByteArray.utf8DecodeChar? ⟨(b :: bs).toArray⟩ 0 with
    | some c => c :: lossyChars n ((b :: bs).drop c.utf8Size)
    | none => '\uFFFD' :: lossyChars n ((b :: bs).drop (maximalSubpart (b :: bs)))

/-- `String::from_utf8_lossy`. -/
def fromUtf8Lossy (b : List UInt8) : String :=
  match fromUtf8 b with
  | some s => s
  | none => String.ofList (lossyChars b.length b)

theorem fromUtf8Lossy_asBytes (s : String) : fromUtf8Lossy (asBytes s) = s := by
  rw [fromUtf8Lossy, fromUtf8_asBytes]

end NzbFast.Rust
