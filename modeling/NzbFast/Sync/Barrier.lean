import Mathlib.Data.Fintype.Card

/-!
# A reusable barrier

`std::sync::Barrier` counts the parties that have arrived in the current generation; the
last to arrive starts the next one, which releases the others. A party waits by
remembering the generation it arrived in.

`Counts` ties the count to the parties that wait, whatever else they do between two
arrivals: `Counts.last` is why a completed generation finds every other party waiting, and
`Counts.missing` why a generation not yet completed lacks somebody.
-/

namespace Sync

open Finset

structure Barrier where
  count : Nat
  generation : Nat

/-- A party arrives: the last one starts the next generation. -/
def Barrier.arrive (threads : Nat) (b : Barrier) : Barrier :=
  if b.count + 1 < threads then { b with count := b.count + 1 }
  else { count := 0, generation := b.generation + 1 }

variable {threads : Nat} {b : Barrier} {waits waits' : Fin threads → Option Nat} {w : Fin threads}

/-- The count is the number of parties that wait in the current generation. -/
structure Barrier.Counts (b : Barrier) (waits : Fin threads → Option Nat) : Prop where
  card : b.count = #{v | waits v = some b.generation}
  lt : b.count < threads
  past : ∀ {v g}, waits v = some g → g ≤ b.generation

namespace Barrier

theorem counts_start (h : 0 < threads) (hwaits : ∀ v, waits v = none) :
    Counts ⟨0, 0⟩ waits where
  card := by simp [hwaits]
  lt := h
  past {v g} hg := by
    rw [hwaits v] at hg
    cases hg

/-- A party that neither waits now nor did before may do anything else. -/
theorem Counts.move (h : b.Counts waits) (hw : waits w ≠ some b.generation)
    (hw' : ∀ g, waits' w = some g → g < b.generation) (hother : ∀ v, v ≠ w → waits' v = waits v) :
    b.Counts waits' where
  card := by
    rw [h.card]
    refine congrArg _ (filter_congr fun v _ => ?_)
    by_cases hv : v = w
    · rw [hv]
      exact iff_of_false hw fun heq => lt_irrefl _ (hw' _ heq)
    · rw [hother v hv]
  lt := h.lt
  past {v g} hg := by
    by_cases hv : v = w
    · exact (hw' g (hv ▸ hg)).le
    · exact h.past (hother v hv ▸ hg)

theorem Counts.arrive (h : b.Counts waits) (hw : waits w ≠ some b.generation)
    (hw' : waits' w = some b.generation) (hother : ∀ v, v ≠ w → waits' v = waits v)
    (hlt : b.count + 1 < threads) : (b.arrive threads).Counts waits' := by
  rw [Barrier.arrive, if_pos hlt]
  refine ⟨?_, hlt, fun {v g} hg => ?_⟩
  · have hinsert : (univ.filter fun v => waits' v = some b.generation) =
        insert w (univ.filter fun v => waits v = some b.generation) := by
      ext v
      by_cases hv : v = w
      · simp [hv, hw']
      · simp [hv, hother v hv]
    rw [hinsert, card_insert_of_notMem (by simpa using hw), ← h.card]
  · by_cases hv : v = w
    · rw [hv, hw', Option.some.injEq] at hg
      exact hg.ge
    · exact h.past (hother v hv ▸ hg)

/-- The last arrival finds every other party waiting. -/
theorem Counts.last (h : b.Counts waits) (hw : waits w ≠ some b.generation)
    (hlast : ¬ b.count + 1 < threads) : ∀ v, v ≠ w → waits v = some b.generation := by
  intro v hv
  by_contra hout
  have hsub : (univ.filter fun v => waits v = some b.generation) ⊆ (univ.erase w).erase v := by
    intro u hu
    rw [mem_filter] at hu
    refine mem_erase.mpr ⟨fun heq => hout (heq ▸ hu.2), mem_erase.mpr ⟨fun heq => hw (heq ▸ hu.2), hu.1⟩⟩
  have hcard := card_le_card hsub
  rw [← h.card, card_erase_of_mem (mem_erase.mpr ⟨hv, mem_univ v⟩), card_erase_of_mem (mem_univ w),
    card_univ, Fintype.card_fin] at hcard
  omega

/-- The generation it starts has nobody waiting. -/
theorem Counts.next (h : b.Counts waits) (hlast : ¬ b.count + 1 < threads)
    (hwaits : ∀ v g, waits' v = some g → g ≤ b.generation) : (b.arrive threads).Counts waits' := by
  rw [Barrier.arrive, if_neg hlast]
  refine ⟨?_, (Nat.zero_le _).trans_lt h.lt, fun {v g} hg => (hwaits v g hg).trans (Nat.le_succ _)⟩
  refine (card_eq_zero.mpr (filter_eq_empty_iff.mpr fun v _ heq => ?_)).symm
  exact Nat.lt_irrefl _ (hwaits v _ heq)

theorem Counts.missing (h : b.Counts waits) : ∃ v, waits v ≠ some b.generation := by
  by_contra hall
  simp only [not_exists, not_not] at hall
  have hcard := h.card
  rw [filter_true_of_mem fun v _ => hall v, card_univ, Fintype.card_fin] at hcard
  exact lt_irrefl _ (hcard ▸ h.lt)

end Barrier

end Sync
