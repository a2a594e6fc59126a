import Mathlib.Data.List.Range

/-!
# Alternating Feistel rounds

Round `i` replaces the first half by a mix with a value of the second and swaps
the halves. Each half of a state lies in the domain of its parity, whatever the
round function is; undoing the rounds in the reverse order gives back the state
there, and nowhere else.
-/

namespace Wire

/-- How round `i` changes a half, and how it changes it back. -/
structure Mixer (α γ : Type) where
  dom : Nat → α → Prop
  mix : Nat → α → γ → α
  unmix : Nat → α → γ → α
  period : ∀ i x, dom (i + 2) x ↔ dom i x
  mix_mem : ∀ i x y, dom i (mix i x y)
  unmix_mem : ∀ i x y, dom i (unmix i x y)
  unmix_mix : ∀ i x y, dom i x → unmix i (mix i x y) y = x
  mix_unmix : ∀ i x y, dom i x → mix i (unmix i x y) y = x

namespace Mixer

variable {α γ : Type} (M : Mixer α γ) (F : Nat → α → γ)

def forward (s : α × α) (i : Nat) : α × α := (s.2, M.mix i s.1 (F i s.2))

def backward (s : α × α) (i : Nat) : α × α := (M.unmix i s.2 (F i s.1), s.1)

/-- The first `n` rounds. -/
def encipher (n : Nat) (s : α × α) : α × α := (List.range n).foldl (M.forward F) s

/-- The first `n` rounds undone, the last one first. -/
def decipher (n : Nat) (s : α × α) : α × α := (List.range n).reverse.foldl (M.backward F) s

/-- The halves as they stand before round `i`. -/
def Before (i : Nat) (s : α × α) : Prop := M.dom i s.1 ∧ M.dom (i + 1) s.2

variable {M F} {n i : Nat} {s : α × α}

theorem encipher_succ : M.encipher F (n + 1) s = M.forward F (M.encipher F n s) n := by
  rw [encipher, List.range_succ, List.foldl_append]
  rfl

theorem decipher_succ : M.decipher F (n + 1) s = M.decipher F n (M.backward F s n) := by
  rw [decipher, List.range_succ, List.reverse_append]
  rfl

theorem Before.forward (h : M.Before i s) : M.Before (i + 1) (M.forward F s i) :=
  ⟨h.2, (M.period i _).mpr (M.mix_mem i _ _)⟩

theorem Before.backward (h : M.Before (i + 1) s) : M.Before i (M.backward F s i) :=
  ⟨M.unmix_mem i _ _, h.1⟩

theorem backward_forward (h : M.Before i s) : M.backward F (M.forward F s i) i = s := by
  unfold Mixer.backward Mixer.forward
  rw [M.unmix_mix i _ _ h.1]

theorem forward_backward (h : M.Before (i + 1) s) : M.forward F (M.backward F s i) i = s := by
  unfold Mixer.backward Mixer.forward
  rw [M.mix_unmix i _ _ ((M.period i _).mp h.2)]

theorem Before.encipher (h : M.Before 0 s) : M.Before n (M.encipher F n s) := by
  induction n with
  | zero => exact h
  | succ n ih =>
    rw [encipher_succ]
    exact ih.forward

theorem Before.decipher (h : M.Before n s) : M.Before 0 (M.decipher F n s) := by
  induction n generalizing s with
  | zero => exact h
  | succ n ih =>
    rw [decipher_succ]
    exact ih h.backward

theorem decipher_encipher (h : M.Before 0 s) : M.decipher F n (M.encipher F n s) = s := by
  induction n with
  | zero => rfl
  | succ n ih => rw [decipher_succ, encipher_succ, backward_forward h.encipher, ih]

theorem encipher_decipher (h : M.Before n s) : M.encipher F n (M.decipher F n s) = s := by
  induction n generalizing s with
  | zero => rfl
  | succ n ih => rw [decipher_succ, encipher_succ, ih h.backward, forward_backward h]

/-- Two rounds bring any state into the domains. -/
theorem before_encipher (n : Nat) (s : α × α) : M.Before (n + 2) (M.encipher F (n + 2) s) := by
  rw [encipher_succ, encipher_succ]
  exact ⟨(M.period n _).mpr (M.mix_mem n _ _), (M.period (n + 1) _).mpr (M.mix_mem (n + 1) _ _)⟩

theorem before_decipher (n : Nat) (s : α × α) : M.Before 0 (M.decipher F (n + 2) s) := by
  rw [decipher_succ, decipher_succ]
  have h : M.Before n (M.backward F (M.backward F s (n + 1)) n) :=
    ⟨M.unmix_mem n _ _, M.unmix_mem (n + 1) _ _⟩
  exact h.decipher

end Mixer

end Wire
