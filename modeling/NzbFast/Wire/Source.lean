import Mathlib.Data.List.Basic

/-!
# Reads that come back short

A `Source` yields a byte string in pieces: each read brings some of the bytes
asked for, at least one while any are left, or fails. `readLoop` is the loop that
reads until it is done or a read brings nothing. Its rule (`readLoop_inv`) is an
invariant between the bytes consumed and the loop's state, so what a loop
computes is shown without saying how its reads were cut.
-/

namespace Wire

open List

/-- A byte string and, read by read, the most bytes the read will bring (one is the least), or
its failure. A read that is interrupted and tried again counts once. -/
structure Source where
  rest : List UInt8
  plan : Nat → Option Nat

def Source.Sound (r : Source) : Prop := ∀ i, (r.plan i).isSome = true

/-- One read of at most `len` bytes. -/
def Source.read (r : Source) (len : Nat) : Option (List UInt8 × Source) :=
  (r.plan 0).map fun most =>
    let n := min (min len r.rest.length) (max most 1)
    (r.rest.take n, ⟨r.rest.drop n, fun i => r.plan (i + 1)⟩)

theorem Source.read_spec {r r' : Source} {len : Nat} {bytes : List UInt8}
    (h : r.read len = some (bytes, r')) :
    r.rest = bytes ++ r'.rest ∧ bytes.length ≤ len ∧
      (bytes = [] → len = 0 ∨ r.rest = []) := by
  obtain ⟨most, -, he⟩ := Option.map_eq_some_iff.mp h
  cases he
  refine ⟨(take_append_drop _ _).symm, ?_, fun hnil => ?_⟩
  · rw [length_take]
    omega
  · have hlen := congrArg length hnil
    rw [length_take, length_nil] at hlen
    by_cases hr : r.rest = []
    · exact .inr hr
    · have := length_pos_of_ne_nil hr
      exact .inl (by omega)

theorem Source.Sound.read {r : Source} (h : r.Sound) (len : Nat) :
    ∃ bytes r', r.read len = some (bytes, r') ∧ r'.Sound := by
  obtain ⟨most, hmost⟩ := Option.isSome_iff_exists.mp (h 0)
  cases hread : r.read len with
  | none =>
    rw [Source.read, hmost] at hread
    cases hread
  | some p =>
    obtain ⟨_, _, rfl⟩ := Option.map_eq_some_iff.mp hread
    exact ⟨_, _, rfl, fun i => h (i + 1)⟩

section Loop

variable {S : Type} (request : S → Nat) (done : S → Bool) (step : S → List UInt8 → S)

/-- Read until `done`, or until a read brings nothing. A round that goes on consumes a byte, so
fuel above the bytes left is never used up. -/
def readLoop : Nat → Source → S → Option S
  | 0, _, s => some s
  | fuel + 1, r, s =>
    if done s = true then some s
    else (r.read (request s)).bind fun p =>
      if p.1 = [] then some s else readLoop fuel p.2 (step s p.1)

variable {request done step}

/-- An invariant of the bytes consumed holds when the loop ends, and it ends where it is done,
asked for nothing or has it all. -/
theorem readLoop_inv {I : List UInt8 → S → Prop} {content : List UInt8}
    (hstep : ∀ c s bytes rest, content = c ++ bytes ++ rest → I c s → done s = false →
      bytes ≠ [] → bytes.length ≤ request s → I (c ++ bytes) (step s bytes)) :
    ∀ {fuel : Nat} {r : Source} {c : List UInt8} {s s' : S}, r.rest.length < fuel →
      content = c ++ r.rest → I c s → readLoop request done step fuel r s = some s' →
      ∃ c' rest, content = c' ++ rest ∧ I c' s' ∧
        (done s' = true ∨ request s' = 0 ∨ rest = [])
  | 0, _, _, _, _, hfuel, _, _, _ => absurd hfuel (Nat.not_lt_zero _)
  | fuel + 1, r, c, s, s', hfuel, hc, hI, h => by
    unfold readLoop at h
    split at h
    case isTrue hdone =>
      cases h
      exact ⟨c, r.rest, hc, hI, .inl hdone⟩
    case isFalse hdone =>
    obtain ⟨⟨bytes, r'⟩, hread, h⟩ := Option.bind_eq_some_iff.mp h
    obtain ⟨hrest, hlen, hnil⟩ := Source.read_spec hread
    dsimp only at h
    split at h
    case isTrue hb =>
      cases h
      exact ⟨c, r.rest, hc, hI, .inr (hnil hb)⟩
    case isFalse hb =>
      have hpos := length_pos_of_ne_nil hb
      have hsplit := congrArg length hrest
      rw [length_append] at hsplit
      rw [hrest, ← append_assoc] at hc
      have hnext := hstep c s bytes r'.rest hc hI (Bool.not_eq_true _ ▸ hdone) hb hlen
      exact readLoop_inv hstep (by omega) hc hnext h

theorem readLoop_total : ∀ {fuel : Nat} {r : Source} {s : S}, r.Sound →
    ∃ s', readLoop request done step fuel r s = some s'
  | 0, _, s, _ => ⟨s, rfl⟩
  | fuel + 1, r, s, hr => by
    unfold readLoop
    split
    case isTrue => exact ⟨s, rfl⟩
    case isFalse =>
      obtain ⟨bytes, r', hread, hr'⟩ := hr.read (request s)
      rw [hread, Option.bind_some]
      split
      case isTrue => exact ⟨s, rfl⟩
      case isFalse => exact readLoop_total hr'

end Loop

end Wire
