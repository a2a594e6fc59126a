import Mathlib.Data.UInt

/-!
# Checked arithmetic on `u64`

`checked_add`, `checked_sub` and `checked_mul` answer `none` where the result
does not fit, so each of them is an equation between natural numbers.
-/

namespace NzbFast.Rust

open UInt64

def checkedAdd (a b : UInt64) : Option UInt64 :=
  if a.toNat + b.toNat < 2 ^ 64 then some (a + b) else none

def checkedSub (a b : UInt64) : Option UInt64 := if b ≤ a then some (a - b) else none

def checkedMul (a b : UInt64) : Option UInt64 :=
  if a.toNat * b.toNat < 2 ^ 64 then some (a * b) else none

def saturatingAdd (a b : UInt64) : UInt64 :=
  if a.toNat + b.toNat < 2 ^ 64 then a + b else UInt64.ofNat (2 ^ 64 - 1)

theorem checkedAdd_eq_some {a b c : UInt64} : checkedAdd a b = some c ↔
    a.toNat + b.toNat = c.toNat := by
  unfold checkedAdd
  split
  case isTrue h =>
    rw [Option.some.injEq, ← UInt64.toNat_inj, UInt64.toNat_add, Nat.mod_eq_of_lt h]
  case isFalse h =>
    have := c.toNat_lt
    simp only [reduceCtorEq, false_iff]
    omega

theorem checkedSub_eq_some {a b c : UInt64} : checkedSub a b = some c ↔
    c.toNat + b.toNat = a.toNat := by
  unfold checkedSub
  split
  case isTrue h =>
    rw [Option.some.injEq, ← UInt64.toNat_inj, UInt64.toNat_sub_of_le _ _ h]
    rw [le_iff_toNat_le] at h
    omega
  case isFalse h =>
    rw [le_iff_toNat_le] at h
    simp only [reduceCtorEq, false_iff]
    omega

theorem checkedMul_eq_some {a b c : UInt64} : checkedMul a b = some c ↔
    a.toNat * b.toNat = c.toNat := by
  unfold checkedMul
  split
  case isTrue h =>
    rw [Option.some.injEq, ← UInt64.toNat_inj, UInt64.toNat_mul, Nat.mod_eq_of_lt h]
  case isFalse h =>
    have := c.toNat_lt
    simp only [reduceCtorEq, false_iff]
    omega

end NzbFast.Rust
