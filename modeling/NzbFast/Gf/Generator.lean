import Mathlib.Dynamics.PeriodicPts.Defs
import Mathlib.Data.Fintype.Card
import Mathlib.Data.Nat.Prime.Basic
import Mathlib.Tactic.Ring

/-!
# Groups generated by a linear step

A finite additive group whose nonzero elements are one orbit of an additive map
has at most one multiplication that turns the step into multiplication by a fixed
element, and under it the group is a field. This is how a table of powers and a
table of logarithms multiply: `Multiplies` asks of a product only what such
tables give, and the field's laws follow.
-/

namespace NzbFast.Gf

open Function Finset

variable {V : Type*} [AddCommGroup V]

/-- The nonzero elements are the `N` iterates of `T` from `u`. -/
structure Generates (T : V →+ V) (u : V) (N : ℕ) : Prop where
  pos : 0 < N
  start : u ≠ 0
  period : minimalPeriod T u = N
  orbit : ∀ v, v ≠ 0 → ∃ i < N, T^[i] u = v

section Generates

variable {T : V →+ V} {u : V} {N : ℕ}

theorem minimalPeriod_eq_of_prime {α : Type*} {f : α → α} {x : α} {n : ℕ}
    (h : f^[n] x = x) (hprime : ∀ p, p.Prime → p ∣ n → f^[n / p] x ≠ x) : minimalPeriod f x = n := by
  have hdvd : minimalPeriod f x ∣ n := IsPeriodicPt.minimalPeriod_dvd h
  obtain ⟨k, hk⟩ := hdvd
  by_cases hk1 : k = 1
  · rw [hk, hk1, mul_one]
  · obtain ⟨p, hp, m, hm⟩ := Nat.exists_prime_and_dvd hk1
    have hdiv : n / p = minimalPeriod f x * m := by
      rw [Nat.div_eq_iff_eq_mul_left hp.pos ⟨minimalPeriod f x * m, by rw [hk, hm]; ring⟩, hk, hm]
      ring
    refine absurd ?_ (hprime p hp ⟨minimalPeriod f x * m, by rw [hk, hm]; ring⟩)
    rw [hdiv]
    exact (isPeriodicPt_minimalPeriod f x).mul_const m

theorem Generates.of_card [Fintype V] [DecidableEq V] (hcard : Fintype.card V = N + 1) (hN : 0 < N)
    (hu : u ≠ 0) (hperiod : minimalPeriod T u = N) : Generates T u N := by
  refine ⟨hN, hu, hperiod, fun v hv => ?_⟩
  have hback : T^[N] u = u := hperiod ▸ iterate_minimalPeriod
  have hne : ∀ i, T^[i] u ≠ 0 := by
    intro i h0
    -- once zero, zero for ever: but the orbit comes back to where it started
    have hmul : T^[N * (i + 1)] u = u := IsPeriodicPt.mul_const hback (i + 1)
    have hsplit : N * (i + 1) = (N * (i + 1) - i) + i :=
      (Nat.sub_add_cancel (Nat.le_trans (Nat.le_succ i) (Nat.le_mul_of_pos_left _ hN))).symm
    rw [hsplit, iterate_add_apply, h0, iterate_map_zero] at hmul
    exact hu hmul.symm
  have hinj : Set.InjOn (fun i => T^[i] u) (range N) := by
    intro i hi j hj hij
    have hi' : i < minimalPeriod T u := hperiod ▸ mem_range.mp hi
    have hj' : j < minimalPeriod T u := hperiod ▸ mem_range.mp hj
    exact (iterate_eq_iterate_iff_of_lt_minimalPeriod hi' hj').mp hij
  have himage : (range N).image (fun i => T^[i] u) = univ.erase 0 := by
    refine eq_of_subset_of_card_le (fun w hw => ?_) ?_
    · obtain ⟨i, -, rfl⟩ := mem_image.mp hw
      exact mem_erase.mpr ⟨hne i, mem_univ _⟩
    · rw [card_image_of_injOn hinj, card_erase_of_mem (mem_univ _), card_range, card_univ, hcard]
      exact le_refl _
  have hmem : v ∈ (range N).image fun i => T^[i] u := by
    rw [himage]
    exact mem_erase.mpr ⟨hv, mem_univ _⟩
  obtain ⟨i, hi, rfl⟩ := mem_image.mp hmem
  exact ⟨i, mem_range.mp hi, rfl⟩

theorem Generates.back (h : Generates T u N) : T^[N] u = u := h.period ▸ iterate_minimalPeriod

theorem Generates.iterate_inj (h : Generates T u N) {i j : ℕ} (hi : i < N) (hj : j < N)
    (hij : T^[i] u = T^[j] u) : i = j :=
  (iterate_eq_iterate_iff_of_lt_minimalPeriod (h.period.symm ▸ hi) (h.period.symm ▸ hj)).mp hij

theorem Generates.iterate_mod (h : Generates T u N) (i : ℕ) : T^[i % N] u = T^[i] u := by
  have hmod := iterate_mod_minimalPeriod_eq (f := T) (x := u) (n := i)
  rwa [h.period] at hmod

theorem Generates.iterate_ne_zero (h : Generates T u N) (i : ℕ) : T^[i] u ≠ 0 := by
  intro h0
  have hback : T^[N - i % N] (T^[i % N] u) = u := by
    rw [← iterate_add_apply, Nat.sub_add_cancel (Nat.mod_lt i h.pos).le]
    exact h.back
  rw [h.iterate_mod, h0, iterate_map_zero] at hback
  exact h.start hback.symm

end Generates

/-! ## The product of the exponents -/

/-- A product that adds the exponents of its operands. -/
structure Multiplies (T : V →+ V) (u : V) (m : V → V → V) : Prop where
  zero : ∀ b, m 0 b = 0
  iterate : ∀ i b, m (T^[i] u) b = T^[i] b

namespace Multiplies

variable {T : V →+ V} {u : V} {N : ℕ} {m : V → V → V}

theorem mul_zero (hT : Generates T u N) (h : Multiplies T u m) (a : V) : m a 0 = 0 := by
  by_cases ha : a = 0
  · rw [ha, h.zero]
  · obtain ⟨i, -, rfl⟩ := hT.orbit a ha
    rw [h.iterate, iterate_map_zero]

theorem comm (hT : Generates T u N) (h : Multiplies T u m) (a b : V) : m a b = m b a := by
  by_cases ha : a = 0
  · rw [ha, h.zero, h.mul_zero hT]
  by_cases hb : b = 0
  · rw [hb, h.zero, h.mul_zero hT]
  obtain ⟨i, -, rfl⟩ := hT.orbit a ha
  obtain ⟨j, -, rfl⟩ := hT.orbit b hb
  rw [h.iterate, h.iterate, ← iterate_add_apply, ← iterate_add_apply, add_comm]

theorem assoc (hT : Generates T u N) (h : Multiplies T u m) (a b c : V) :
    m (m a b) c = m a (m b c) := by
  by_cases ha : a = 0
  · rw [ha, h.zero, h.zero, h.zero]
  by_cases hb : b = 0
  · rw [hb, h.mul_zero hT, h.zero, h.mul_zero hT]
  obtain ⟨i, -, rfl⟩ := hT.orbit a ha
  obtain ⟨j, -, rfl⟩ := hT.orbit b hb
  rw [h.iterate i, h.iterate i, h.iterate j, ← iterate_add_apply, h.iterate, iterate_add_apply]

theorem add (hT : Generates T u N) (h : Multiplies T u m) (a b c : V) :
    m a (b + c) = m a b + m a c := by
  by_cases ha : a = 0
  · rw [ha, h.zero, h.zero, h.zero, add_zero]
  · obtain ⟨i, -, rfl⟩ := hT.orbit a ha
    rw [h.iterate, h.iterate, h.iterate, iterate_map_add]

theorem one (h : Multiplies T u m) (b : V) : m u b = b := h.iterate 0 b

/-- What takes the orbit back to its start is the inverse. -/
theorem inverse (hT : Generates T u N) (h : Multiplies T u m) {i : ℕ} (hi : i ≤ N) :
    m (T^[i] u) (T^[N - i] u) = u := by
  rw [h.iterate, ← iterate_add_apply, Nat.add_sub_cancel' hi, hT.back]

end Multiplies

end NzbFast.Gf
