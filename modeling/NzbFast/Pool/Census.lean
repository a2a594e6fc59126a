import Mathlib.Data.List.Perm.Subperm
import NzbFast.Pool.Queue

/-!
# The give-up census

`pending_census` (`crates/nzbkit/src/pool/queue.rs`) reconciles the count of pending articles with
those it sees in flight and in the queue. The count is raised before an article is owed and lowered
after it is done, so it is never below what is owed, and a snapshot that is as large is the whole.
-/

namespace NzbFast.Pool

open NzbFast.Rust (BTreeMap)
open List

structure Inflight where
  id : Nat
  ord : Nat
  tried430 : Mask

/-- An article as a sweep meets it: with its ordinal, and whether it was refused. -/
structure Met where
  id : Nat
  ord : Nat
  refused : Bool

/-- The pool as one snapshot finds it. An article has one id and one ordinal wherever it is. -/
structure Snapshot where
  articles : List (Nat × Nat)
  aborted : Bool
  draining : Bool
  pending : Nat
  steerInbox : List Work
  handed : List Work
  done : Nat → Bool
  inflight : List Inflight
  queue : List Work
  /-- The queue's lock could not be had. -/
  contended : Bool
  inflight_known : ∀ e ∈ inflight, (e.id, e.ord) ∈ articles
  queue_known : ∀ w ∈ queue, (w.id, w.ord) ∈ articles
  pending_covers : (articles.filter fun a => !done a.2).length ≤ pending

namespace Snapshot

def owed (s : Snapshot) : List (Nat × Nat) := s.articles.filter fun a => !s.done a.2

def onTheWire (s : Snapshot) : List Met := s.inflight.map fun e => ⟨e.id, e.ord, decide (e.tried430 ≠ 0)⟩

def queued (s : Snapshot) : List Met :=
  s.queue.map fun w => ⟨w.id, w.ord, decide (w.tried430 ≠ 0) || decide (w.soft430 ≠ 0)⟩

def sweep (done : Nat → Bool) (walkersOnly : Bool) (accept : Nat → Bool) :
    BTreeMap Nat → List Met → Option (BTreeMap Nat)
  | ids, [] => some ids
  | ids, e :: rest =>
    if done e.ord then sweep done walkersOnly accept ids rest
    else if walkersOnly && !e.refused then none
    else if !accept e.id then none
    else sweep done walkersOnly accept (ids.insert e.id e.ord) rest

def pendingCensus (s : Snapshot) (walkersOnly : Bool) (accept : Nat → Bool) : Option (List (Nat × Nat)) :=
  if s.aborted || s.draining then none
  else if s.pending = 0 then none
  else if !s.steerInbox.isEmpty || !s.handed.isEmpty then none
  else do
    let ids ← sweep s.done walkersOnly accept .empty s.onTheWire
    if s.contended then none
    let ids ← sweep s.done walkersOnly accept ids s.queued
    if ids.entries.length ≠ s.pending then none
    some ids.entries

variable {done : Nat → Bool} {walkersOnly : Bool} {accept : Nat → Bool}

def Passes (walkersOnly : Bool) (accept : Nat → Bool) (e : Met) : Prop :=
  accept e.id = true ∧ (walkersOnly = true → e.refused = true)

theorem sweep_some {l : List Met} : ∀ {ids ids' : BTreeMap Nat},
    sweep done walkersOnly accept ids l = some ids' →
      (∀ e ∈ l, done e.ord = false → Passes walkersOnly accept e) ∧
      ∀ x ∈ ids', x ∈ ids ∨ ∃ e ∈ l, (e.id, e.ord) = x ∧ done e.ord = false := by
  induction l with
  | nil =>
    intro ids ids' h
    cases h
    exact ⟨nofun, fun x hx => .inl hx⟩
  | cons e l ih =>
    intro ids ids' h
    rw [sweep] at h
    split at h
    · rename_i hdone
      obtain ⟨hpass, hmem⟩ := ih h
      exact ⟨fun e' he' hno => (mem_cons.mp he').elim
          (fun heq => absurd hno (by rw [heq, hdone]; nofun)) fun he' => hpass e' he' hno,
        fun x hx => (hmem x hx).imp_right fun ⟨e', he', h⟩ => ⟨e', mem_cons_of_mem _ he', h⟩⟩
    split at h
    · cases h
    split at h
    · cases h
    rename_i hdone hrefused haccept
    obtain ⟨hpass, hmem⟩ := ih h
    refine ⟨fun e' he' hno => ?_, fun x hx => ?_⟩
    · rcases mem_cons.mp he' with rfl | he'
      · exact ⟨by simpa using haccept, fun hw => by simpa [hw] using hrefused⟩
      · exact hpass e' he' hno
    · rcases hmem x hx with hx | ⟨e', he', h⟩
      · rcases BTreeMap.mem_insert.mp hx with rfl | ⟨hx, -⟩
        · exact .inr ⟨e, mem_cons_self, rfl, by simpa using hdone⟩
        · exact .inl hx
      · exact .inr ⟨e', mem_cons_of_mem _ he', h⟩

/-- The walkers are the articles owed, each once; all that is met and not done passes, each walker is
met so, and no article is anywhere else. -/
structure Complete (s : Snapshot) (walkersOnly : Bool) (accept : Nat → Bool) (walkers : List (Nat × Nat)) :
    Prop where
  exact : walkers.Perm s.owed
  once : (walkers.map (·.1)).Nodup
  passes : ∀ e ∈ s.onTheWire ++ s.queued, s.done e.ord = false → Passes walkersOnly accept e
  met : ∀ x ∈ walkers, ∃ e ∈ s.onTheWire ++ s.queued, (e.id, e.ord) = x ∧ Passes walkersOnly accept e
  parked : s.steerInbox = [] ∧ s.handed = []

/-- Two walkers, one of them in the queue. -/
def tail : Snapshot where
  articles := [(7, 0), (8, 1), (9, 2)]
  aborted := false
  draining := false
  pending := 2
  steerInbox := []
  handed := []
  done := fun ord => decide (ord = 0)
  inflight := [⟨8, 1, 1⟩]
  queue := [⟨9, 2, 0, false, 0, 0, false, 1, 0, 0⟩]
  contended := false
  inflight_known := by decide
  queue_known := by decide
  pending_covers := by decide

end Snapshot

end NzbFast.Pool
