import NzbFast.Pool.Scan

/-!
# The count of promoted works

`promote` puts the articles that it names first, in the caller's order. `promoted_pending` is the
number of promoted works in the queue: every step but one moves both alike. A scan that reports a
promoted work unservable takes it out of the queue and leaves the count.
-/

namespace NzbFast.Pool.Shared

open List

/-! ## The order of a promote -/

/-- The named works are first, in the caller's order, and the others keep theirs. -/
structure Reordered (ids : List Nat) (queue queue' : List Work) : Prop where
  shape : ∃ front, queue' = front ++ queue.filter (·.id ∉ ids) ∧
    front.Perm ((queue.filter (·.id ∈ ids)).map fun w => { w with promoted := true }) ∧
    front.Pairwise fun x y => ids.idxOf x.id ≤ ids.idxOf y.id

theorem promoteQueue_reorders (ids : List Nat) (queue : List Work) :
    Reordered ids queue (promoteQueue ids queue) := by
  unfold promoteQueue
  generalize hfront : (queue.filter (·.id ∈ ids)).map
    (fun w => (ids.idxOf w.id, { w with promoted := true })) = front
  have hrank : ∀ x ∈ front, x.1 = ids.idxOf x.2.id := fun x hx => by
    rw [← hfront] at hx
    obtain ⟨w, -, rfl⟩ := mem_map.mp hx
    rfl
  have hsorted := pairwise_insertionSort (fun x y : Nat × Work => x.1 ≤ y.1) front
  have hperm := perm_insertionSort (fun x y : Nat × Work => x.1 ≤ y.1) front
  refine ⟨_, rfl, ?_, pairwise_map.mpr (hsorted.imp_of_mem fun hx hy hle => ?_)⟩
  · refine (hperm.map _).trans (.of_eq ?_)
    rw [← hfront, map_map]
    rfl
  · rw [← hrank _ (hperm.mem_iff.mp hx), ← hrank _ (hperm.mem_iff.mp hy)]
    exact hle

/-! ## The count -/

def promotedIn (q : List Work) : Nat := q.countP (·.promoted)

def Books (sh : Shared) : Prop := sh.promotedPending = promotedIn sh.queue

variable {sh sh' : Shared}

theorem Books.of_eq (h : Books sh) (hq : sh'.queue = sh.queue)
    (hp : sh'.promotedPending = sh.promotedPending) : Books sh' := by
  rw [Books, hq, hp]
  exact h

theorem Books.insert (h : Books sh) (n : Nat) (w : Work) : Books (sh.insert n w) := by
  rw [Books, promotedIn, (insert_perm sh n w).countP_eq, countP_cons]
  change sh.promotedPending + _ = _
  rw [h, promotedIn]
  cases w.promoted <;> rfl

theorem Books.foldl {α β : Type} {f : Shared × α → β → Shared × α}
    (hf : ∀ s x, Books s.1 → Books (f s x).1) (l : List β) : ∀ s : Shared × α, Books s.1 →
    Books (l.foldl f s).1 := by
  induction l with
  | nil => exact fun _ => id
  | cons x l ih => exact fun s h => ih _ (hf s x h)

theorem Books.adopt (h : Books sh) : Books sh.adopt := by
  have hall : ∀ (l : List Work) (sh : Shared), Books sh →
      Books (l.foldl (fun sh w => sh.insert (promotedRun sh.queue) w) sh) := by
    intro l
    induction l with
    | nil => exact fun _ => id
    | cons w l ih => exact fun sh h => ih _ (h.insert _ w)
  exact hall _ _ (h.of_eq rfl rfl)

theorem promoted_expireHold (w : Work) (nowMs holdMs : Nat) :
    (expireHold w nowMs holdMs).promoted = w.promoted := by
  unfold expireHold
  split
  · rfl
  · split <;> rfl

theorem Books.promote (h : Books sh) (ids : List Nat) : Books (sh.promote ids) := by
  unfold Shared.promote
  split
  · rfl
  · rename_i hno
    have hnone : ∀ w ∈ sh.queue, w.id ∉ ids := by simpa using hno
    have hin : sh.queue.filter (·.id ∈ ids) = [] :=
      filter_eq_nil_iff.mpr fun w hw => by simpa using hnone w hw
    have hout : sh.queue.filter (·.id ∉ ids) = sh.queue :=
      filter_eq_self.mpr fun w hw => by simpa using hnone w hw
    refine h.of_eq ?_ rfl
    dsimp only [promoteQueue]
    rw [hin, hout]
    simp

theorem Books.claims (h : Books sh) (l : List Work) : Books (l.foldl stash sh) := by
  have hone : ∀ (sh : Shared) (w : Work), (stash sh w).queue = sh.queue ∧
      (stash sh w).promotedPending = sh.promotedPending := fun sh w => by
    unfold stash
    dsimp only
    split <;> exact ⟨rfl, rfl⟩
  induction l generalizing sh with
  | nil => exact h
  | cons w l ih => exact ih (h.of_eq (hone sh w).1 (hone sh w).2)

theorem Books.cancel (h : Books sh) (ids : List Nat) : Books (sh.cancel ids) := by
  refine Books.claims ?_ _
  split
  · rfl
  · rename_i hno
    rw [Books, promotedIn, countP_filter]
    refine h.trans (countP_congr fun w hw => ?_)
    by_cases hid : w.id ∈ ids <;> simp_all

theorem Books.requeue (h : Books sh) (ids : List Nat) : Books (sh.requeue ids) := by
  have hstash : Books (sh.unstash ids).1 := by
    refine Books.foldl (fun s id hs => ?_) ids (sh, []) h
    split
    · exact hs.of_eq rfl rfl
    · exact hs
  unfold Shared.requeue
  generalize sh.unstash ids = s at hstash ⊢
  refine Books.foldl (fun s w hs => ?_) s.2 _ ?_
  · split <;> exact hs.insert _ w
  · have hdone : ∀ (l : List Work) (sh : Shared), Books sh →
        Books (l.foldl (fun sh w => { sh with done := Function.update sh.done w.ord false }) sh) := by
      intro l
      induction l with
      | nil => exact fun _ => id
      | cons w l ih => exact fun sh h => ih _ (h.of_eq rfl rfl)
    exact hdone s.2 s.1 hstash

theorem Books.shedPipeline (h : Books sh) (inflight : List Work) : Books (sh.shedPipeline inflight) :=
  Books.foldl (fun s w hs => by
    unfold shedOne
    split
    · exact hs
    · exact hs.insert _ w) inflight _ h

theorem Books.putBack {s : Shared × Nat × Nat} (h : Books s.1) (w : Work) : Books (putBack s w).1 := by
  unfold Shared.putBack
  split <;> exact h.insert _ w

theorem charge_keeps (sh : Shared) (retries : Nat) (bit : Mask) (w : Work) :
    (sh.charge retries bit w).1.queue = sh.queue ∧
      (sh.charge retries bit w).1.promotedPending = sh.promotedPending := by
  unfold charge
  dsimp only
  split
  · split
    · rename_i heq
      exact ⟨congrArg (·.1.queue) heq.symm, congrArg (·.1.promotedPending) heq.symm⟩
    · rename_i heq
      exact ⟨congrArg (·.1.queue) heq.symm, congrArg (·.1.promotedPending) heq.symm⟩
  · exact ⟨rfl, rfl⟩

theorem Books.requeueOne {s : Shared × Nat × Nat} (h : Books s.1) (retries : Nat) (bit : Mask)
    (charged : Bool) (w : Work) : Books (requeueOne retries bit charged s w).1 := by
  have hcharge := charge_keeps s.1 retries bit w
  unfold Shared.requeueOne
  split
  · exact h
  split
  · split <;> rename_i heq <;> rw [heq] at hcharge
    · exact Books.putBack (h.of_eq hcharge.1 hcharge.2) _
    · exact h.of_eq hcharge.1 hcharge.2
  · exact h.putBack w

theorem Books.requeueOrFail (h : Books sh) (retries : Nat) (bit : Mask) (chargeFront : Bool)
    (inflight : List Work) : Books (sh.requeueOrFail retries bit chargeFront inflight) := by
  cases inflight with
  | nil => exact h
  | cons w rest =>
    have hone := @Books.requeueOne (sh, promotedRun sh.queue, 0) h retries bit chargeFront w
    exact Books.foldl (fun s w hs => Books.requeueOne hs retries bit false w) rest _ hone

/-! ## Runs -/

inductive Action where
  | promote (ids : List Nat)
  | cancel (ids : List Nat)
  | requeue (ids : List Nat)
  | scan (c : Scan)
  /-- A decode verdict sends a body's article back. -/
  | steer (w : Work)
  | shed (inflight : List Work)
  | requeueOrFail (retries : Nat) (bit : Mask) (chargeFront : Bool) (inflight : List Work)

def step (sh : Shared) : Action → Shared
  | .promote ids => sh.promote ids
  | .cancel ids => sh.cancel ids
  | .requeue ids => sh.requeue ids
  | .scan c => (sh.nextWork c).1
  | .steer w => { sh with steerInbox := sh.steerInbox ++ [w] }
  | .shed inflight => sh.shedPipeline inflight
  | .requeueOrFail retries bit chargeFront inflight => sh.requeueOrFail retries bit chargeFront inflight

def run (sh : Shared) (actions : List Action) : Shared := actions.foldl step sh

def start (works : List Work) (servers : Nat) (alive : Nat → Nat) : Shared :=
  ⟨works.map fun w => { w with promoted := false }, 0, [], .empty, fun _ => false, fun _ => 0, servers,
    alive⟩

/-- No promoted work that a scan may pop is refused by every live server. -/
def Served (sh : Shared) : Action → Prop
  | .scan c => ∀ w ∈ sh.queue ++ sh.steerInbox, w.promoted = true →
      (expireHold w c.nowMs c.holdMs).tried430 &&& c.live ≠ c.live
  | _ => True

def AllServed : Shared → List Action → Prop
  | _, [] => True
  | sh, a :: actions => Served sh a ∧ AllServed (sh.step a) actions

end NzbFast.Pool.Shared
