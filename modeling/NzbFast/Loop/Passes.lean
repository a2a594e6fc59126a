import Mathlib.Tactic.Common

/-!
# Loops that end

A loop is a pass over a state that goes round again or leaves with a result. `run` gives it a
number of passes. `run_total` is its rule of total correctness: an invariant, a measure that every
pass round lowers, and what holds of the result where a pass leaves.
-/

namespace Loop

variable {S R : Type}

/-- How one pass ends. -/
inductive Pass (S R : Type) where
  | again (s : S)
  | leave (r : R)

/-- The result of a loop; nothing where it is still running. -/
def run (pass : S → Pass S R) : Nat → S → Option R
  | 0, _ => none
  | fuel + 1, s =>
    match pass s with
    | .again s' => run pass fuel s'
    | .leave r => some r

@[simp] theorem run_leave {pass : S → Pass S R} {s : S} {r : R} (h : pass s = .leave r) (fuel : Nat) :
    run pass (fuel + 1) s = some r := by
  simp [run, h]

@[simp] theorem run_again {pass : S → Pass S R} {s s' : S} (h : pass s = .again s') (fuel : Nat) :
    run pass (fuel + 1) s = run pass fuel s' := by
  simp [run, h]

/-- A loop whose passes keep `I` and lower `μ` leaves, with what its last pass gives. -/
theorem run_total {pass : S → Pass S R} {I : S → Prop} {μ : S → Nat} {Q : R → Prop}
    (hagain : ∀ s s', I s → pass s = .again s' → I s' ∧ μ s' < μ s)
    (hleave : ∀ s r, I s → pass s = .leave r → Q r) :
    ∀ {fuel : Nat} {s : S}, I s → μ s < fuel → ∃ r, run pass fuel s = some r ∧ Q r := by
  intro fuel
  induction fuel with
  | zero => intro s _ hlt; exact absurd hlt (Nat.not_lt_zero _)
  | succ fuel ih =>
    intro s hs hlt
    cases hp : pass s with
    | again s' =>
      obtain ⟨hs', hlower⟩ := hagain s s' hs hp
      rw [run_again hp]
      exact ih hs' (by omega)
    | leave r => exact ⟨r, run_leave hp fuel, hleave s r hs hp⟩

end Loop
