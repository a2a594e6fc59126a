import NzbFast.Wire.Le
import Mathlib.Data.UInt

/-!
# Containers and their bytes

`Source` of `crates/nzbkit-base/src/zip.rs`: what the directory parser reads
through. Offsets are natural numbers; where the source checks a `u64` addition,
`checkedAdd` does. `Source.single` is a container that is one file, with the
trait's default methods.
-/

namespace NzbFast.Zip

open Wire

/-- The errors of the directory parser. -/
inductive ZipError where
  | malformed (why : String)
  | unsupported (why : String)
  deriving DecidableEq

/-- `Source`. -/
structure Source where
  readExactAt : Nat → Nat → Except ZipError (List UInt8)
  total : Nat
  spanningSupported : Bool
  logical : Bool → Nat → Nat → Option Nat

def sliceRead (bytes : List UInt8) (off n : Nat) : Except ZipError (List UInt8) :=
  match readAt bytes off n with
  | some b => .ok b
  | none => .error (.malformed "read past end of container")

def Source.single (bytes : List UInt8) : Source where
  readExactAt := sliceRead bytes
  total := bytes.length
  spanningSupported := false
  logical multiDisk _ off := if !multiDisk && decide (off ≤ bytes.length) then some off else none

def checkedAdd (a b : Nat) : Option Nat := if a + b < 2 ^ 64 then some (a + b) else none

def checkedSub (a b : Nat) : Option Nat := if b ≤ a then some (a - b) else none

def rdU16 (b : List UInt8) : UInt16 := UInt16.ofNat (leValue (b.take 2))

def rdU32 (b : List UInt8) : UInt32 := UInt32.ofNat (leValue (b.take 4))

def rdU64 (b : List UInt8) : UInt64 := UInt64.ofNat (leValue (b.take 8))

/-- `PK\x01\x02`: a central-directory record. -/
def CENTRAL_SIG : List UInt8 := [0x50, 0x4B, 0x01, 0x02]

/-- `PK\x05\x06`: the end-of-central-directory record. -/
def EOCD_SIG : List UInt8 := [0x50, 0x4B, 0x05, 0x06]

/-- `PK\x06\x06`: the zip64 end record. -/
def Z64_SIG : List UInt8 := [0x50, 0x4B, 0x06, 0x06]

/-- `PK\x06\x07`: the zip64 locator. -/
def LOCATOR_SIG : List UInt8 := [0x50, 0x4B, 0x06, 0x07]

/-- Whether a read at `off` succeeds and finds the four bytes of `sig`. -/
def Source.wears (parts : Source) (sig : List UInt8) (off : Nat) : Bool :=
  match parts.readExactAt off 4 with
  | .ok b => b == sig
  | .error _ => false

/-- A step of a parser that succeeds, and what follows it. -/
theorem bind_eq_ok {ε α β : Type} {x : Except ε α} {f : α → Except ε β} {b : β} :
    (x >>= f) = .ok b ↔ ∃ a, x = .ok a ∧ f a = .ok b := by
  constructor
  · intro h
    cases x with
    | error e => cases h
    | ok a => exact ⟨a, rfl, h⟩
  · rintro ⟨a, rfl, h⟩
    exact h

variable {bytes b v : List UInt8} {off n : Nat}

theorem checkedAdd_eq_some {a b c : Nat} : checkedAdd a b = some c ↔ a + b = c ∧ c < 2 ^ 64 := by
  unfold checkedAdd
  split
  case isTrue h =>
    rw [Option.some.injEq]
    exact ⟨fun e => ⟨e, e ▸ h⟩, And.left⟩
  case isFalse h =>
    simp only [reduceCtorEq, false_iff]
    omega

theorem checkedSub_eq_some {a b c : Nat} : checkedSub a b = some c ↔ c + b = a := by
  unfold checkedSub
  split
  case isTrue h =>
    rw [Option.some.injEq]
    omega
  case isFalse h =>
    simp only [reduceCtorEq, false_iff]
    omega

namespace Source

@[simp] theorem single_total : (single bytes).total = bytes.length := rfl

@[simp] theorem single_spanning : (single bytes).spanningSupported = false := rfl

theorem single_read : (single bytes).readExactAt off n = .ok b ↔ readAt bytes off n = some b := by
  show sliceRead bytes off n = .ok b ↔ _
  unfold sliceRead
  cases readAt bytes off n <;> simp

theorem single_read_stands (h : Stands v bytes off) (hle : off + v.length ≤ bytes.length) :
    (single bytes).readExactAt off v.length = .ok v :=
  single_read.mpr (readAt_eq_some.mpr ⟨rfl, h, hle⟩)

theorem stands_of_single_read (h : (single bytes).readExactAt off n = .ok b) :
    b.length = n ∧ Stands b bytes off ∧ off + n ≤ bytes.length :=
  readAt_eq_some.mp (single_read.mp h)

theorem single_read_tail (hn : n ≤ bytes.length) :
    (single bytes).readExactAt (bytes.length - n) n = .ok (bytes.drop (bytes.length - n)) := by
  have hlen : (bytes.drop (bytes.length - n)).length = n := by
    rw [List.length_drop]
    omega
  apply single_read.mpr
  apply readAt_eq_some.mpr
  refine ⟨hlen, ?_, by omega⟩
  unfold Stands
  rw [List.take_length]

theorem single_logical {d c : Nat} :
    (single bytes).logical false d off = some c ↔ off = c ∧ c ≤ bytes.length := by
  show (if _ then _ else _) = _ ↔ _
  split
  case isTrue h =>
    simp only [Bool.not_false, Bool.true_and, decide_eq_true_eq] at h
    rw [Option.some.injEq]
    exact ⟨fun e => ⟨e, e ▸ h⟩, And.left⟩
  case isFalse h =>
    simp only [Bool.not_false, Bool.true_and, decide_eq_true_eq] at h
    simp only [reduceCtorEq, false_iff]
    omega

theorem single_wears {sig : List UInt8} (hs : sig.length = 4) :
    (single bytes).wears sig off = true ↔ Stands sig bytes off := by
  unfold wears
  split
  case h_1 b h =>
    obtain ⟨hlen, hb, -⟩ := stands_of_single_read h
    rw [beq_iff_eq]
    constructor
    · rintro rfl
      exact hb
    · intro h'
      rw [← h', ← hb, hlen, hs]
  case h_2 e h =>
    simp only [Bool.false_eq_true, false_iff]
    intro h'
    have hle := h'.le (List.ne_nil_of_length_pos (by omega))
    have hr := single_read_stands h' hle
    rw [hs, h] at hr
    cases hr

end Source

end NzbFast.Zip
