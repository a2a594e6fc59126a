import Mathlib.Data.List.Basic

/-!
# Byte readers that invert their writers

A reader takes the unread bytes of a buffer and returns a value with the bytes
it left, or fails. `Reads p w x` says that `p` reads the written bytes `w` back
as `x` and stops right behind them, whatever follows: the form in which a
decoder's steps compose along the concatenation its encoder wrote. A `Local`
reader looks at nothing but the bytes it takes, so what it reads once it reads
in every longer buffer.
-/

namespace Wire

/-- A fallible reader over the unread bytes of a buffer. -/
abbrev Reader (α : Type) := StateT (List UInt8) Option α

variable {α β γ : Type}

/-- `p` reads `w` back as `x` and leaves what follows it. -/
def Reads (p : Reader α) (w : List UInt8) (x : α) : Prop :=
  ∀ rest, p.run (w ++ rest) = some (x, rest)

theorem Reads.pure (x : α) : Reads (Pure.pure x : Reader α) [] x := fun _ => rfl

theorem Reads.bind {p : Reader α} {f : α → Reader β} {v w : List UInt8} {x : α} {y : β}
    (hp : Reads p v x) (hf : Reads (f x) w y) : Reads (p >>= f) (v ++ w) y := by
  intro rest
  rw [StateT.run_bind, List.append_assoc, hp]
  exact hf rest

theorem Reads.bind_pure {p : Reader α} {f : α → β} {w : List UInt8} {x : α}
    (hp : Reads p w x) : Reads (p >>= fun a => Pure.pure (f a)) w (f x) := by
  have h := hp.bind (f := fun a => Pure.pure (f a)) (Reads.pure (f x))
  rwa [List.append_nil] at h

/-! ## Readers that look only at what they take -/

def Local (p : Reader α) : Prop :=
  ∀ buf x rest, p.run buf = some (x, rest) → ∃ w, buf = w ++ rest ∧ Reads p w x

theorem Local.pure (x : α) : Local (Pure.pure x : Reader α) := by
  intro buf y rest h
  cases h
  exact ⟨[], rfl, .pure x⟩

theorem Local.failure : Local (failure : Reader α) := fun _ _ _ h => nomatch h

theorem Local.lift (o : Option α) : Local (StateT.lift o : Reader α) := by
  intro buf x rest h
  cases o with
  | none => cases h
  | some y =>
    cases h
    exact ⟨[], rfl, fun _ => rfl⟩

theorem run_bind_eq_some {p : Reader α} {f : α → Reader β} {buf : List UInt8}
    {r : β × List UInt8} (h : (p >>= f).run buf = some r) :
    ∃ x mid, p.run buf = some (x, mid) ∧ (f x).run mid = some r := by
  obtain ⟨⟨x, mid⟩, hx, hr⟩ := Option.bind_eq_some_iff.mp h
  exact ⟨x, mid, hx, hr⟩

theorem Local.bind {p : Reader α} {f : α → Reader β} (hp : Local p) (hf : ∀ x, Local (f x)) :
    Local (p >>= f) := by
  intro buf y rest h
  obtain ⟨x, mid, hx, hy⟩ := run_bind_eq_some h
  obtain ⟨v, rfl, hv⟩ := hp buf x mid hx
  obtain ⟨w, rfl, hw⟩ := hf x mid y rest hy
  exact ⟨v ++ w, by rw [List.append_assoc], hv.bind hw⟩

theorem Local.ite {c : Prop} [Decidable c] {p q : Reader α} (hp : c → Local p) (hq : ¬c → Local q) :
    Local (if c then p else q) := by
  split
  case isTrue h => exact hp h
  case isFalse h => exact hq h

end Wire
