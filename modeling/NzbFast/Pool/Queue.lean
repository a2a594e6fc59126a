import Mathlib.Data.List.Sort
import NzbFast.Rust.BTreeMap

/-!
# The pool's queue

The scan of `next_work` (`crates/nzbkit/src/pool/nextwork.rs`), the reorders and removals of
`QueueControl` (`pool/queue.rs`) and what a worker puts back when its session ends
(`pool/runlife.rs`), each as one hold of the queue's lock. A call that fails to get the lock changes
nothing and has no step.
-/

namespace NzbFast.Pool

open NzbFast.Rust (BTreeMap)

def MAX_SERVERS : Nat := 32

abbrev Mask := BitVec 32

def serverBit (si : Nat) : Mask := if si < MAX_SERVERS then 1#32 <<< si else 0

/-- An article's work, as far as the queue reads it. -/
structure Work where
  id : Nat
  ord : Nat
  attempts : Nat
  promoted : Bool
  tried430 : Mask
  triedFail : Mask
  dup : Bool
  soft430 : Mask
  recheck430 : Mask
  recheckAt : Nat
  deriving DecidableEq

/-- What the workers of a run share. -/
structure Shared where
  queue : List Work
  promotedPending : Nat
  steerInbox : List Work
  /-- Cancelled works, by article. -/
  cancelled : BTreeMap Work
  done : Nat → Bool
  /-- The servers that have spent their budget on an article. -/
  spent : Nat → Mask
  servers : Nat
  /-- The live workers of a server. -/
  alive : Nat → Nat

/-- `expire_hold`. -/
def expireHold (w : Work) (nowMs holdMs : Nat) : Work :=
  if holdMs = 0 ∨ w.recheck430 = 0 ∨ w.tried430 &&& w.recheck430 = w.recheck430 then w
  else if nowMs - w.recheckAt < holdMs then w
  else { w with tried430 := w.tried430 ||| w.recheck430 }

def promotedRun (q : List Work) : Nat := (q.takeWhile (·.promoted)).length

namespace Shared

def insert (sh : Shared) (at_ : Nat) (w : Work) : Shared :=
  { sh with
    queue := sh.queue.insertIdx (min at_ sh.queue.length) w
    promotedPending := sh.promotedPending + w.promoted.toNat }

/-- `claim_done`: whether it is this claim that ends the article. -/
def claimDone (sh : Shared) (w : Work) : Shared × Bool :=
  ({ sh with spent := Function.update sh.spent w.id 0, done := Function.update sh.done w.ord true },
    !sh.done w.ord)

/-! ## The scan -/

/-- What a scan reads, and the answers it gets; an answer may depend on when it is asked. -/
structure Scan where
  live : Mask
  bit : Mask
  required : Mask
  /-- The endgame is on and the worker holds payload. -/
  endgame : Bool
  nowMs : Nat
  holdMs : Nat
  otherCanTake : Nat → Work → Bool
  defers : Nat → Work → Bool
  /-- Stream mode is on, and a faster server can take it. -/
  fasterCanTake : Nat → Work → Bool

inductive Verdict where
  | unservable
  | rotate
  | park
  | leave
  | pick
  deriving DecidableEq

def Scan.gated (c : Scan) (spent : Nat → Mask) (w : Work) : Bool :=
  w.tried430 &&& c.required ≠ c.required &&
    (w.tried430 ||| spent w.id) &&& c.required ≠ c.required

def Scan.verdict (c : Scan) (spent : Nat → Mask) (k : Nat) (w : Work) : Verdict :=
  if w.tried430 &&& c.live = c.live then .unservable
  else if w.tried430 &&& c.bit ≠ 0 || c.gated spent w || (w.triedFail &&& c.bit ≠ 0 && c.otherCanTake k w) ||
      (c.endgame && w.tried430 ≠ 0) then .rotate
  else if c.defers k w then .park
  else if w.promoted && w.tried430 = 0 && c.fasterCanTake k w then .leave
  else .pick

structure Scanning where
  queue : List Work
  unservable : List Work := []
  parkedKept : List Work := []
  leftForFaster : List Work := []
  picked : Option Work := none

def scanLoop (c : Scan) (spent : Nat → Mask) : Nat → Scanning → Scanning
  | 0, s => s
  | k + 1, s =>
    match s.queue with
    | [] => s
    | w₀ :: queue =>
      let w := expireHold w₀ c.nowMs c.holdMs
      match c.verdict spent k w with
      | .unservable => scanLoop c spent k { s with queue, unservable := s.unservable ++ [w] }
      | .rotate => scanLoop c spent k { s with queue := queue ++ [w] }
      | .park => scanLoop c spent k { s with queue, parkedKept := s.parkedKept ++ [w] }
      | .leave => scanLoop c spent k { s with queue, leftForFaster := s.leftForFaster ++ [w] }
      | .pick => { s with queue, picked := some w }

def adopt (sh : Shared) : Shared :=
  sh.steerInbox.foldl (fun sh w => sh.insert (promotedRun sh.queue) w) { sh with steerInbox := [] }

/-- `next_work`, up to the pick: what it picks and what it reports unservable. -/
def nextWork (sh : Shared) (c : Scan) : Shared × Option Work × List Work :=
  let sh := sh.adopt
  let s := scanLoop c sh.spent sh.queue.length { queue := sh.queue }
  let pending := if s.picked.any (·.promoted) then sh.promotedPending - 1 else sh.promotedPending
  let sh := { sh with
    queue := s.leftForFaster ++ (s.parkedKept ++ s.queue)
    promotedPending := pending }
  (s.unservable.foldl (fun sh w => (sh.claimDone w).1) sh, s.picked, s.unservable)

/-! ## Promote, cancel, requeue -/

def recount (sh : Shared) : Shared := { sh with promotedPending := sh.queue.countP (·.promoted) }

/-- The queue that `promote` leaves. -/
def promoteQueue (ids : List Nat) (queue : List Work) : List Work :=
  let front := (queue.filter (·.id ∈ ids)).map fun w => (ids.idxOf w.id, { w with promoted := true })
  (front.insertionSort fun x y => x.1 ≤ y.1).map (·.2) ++ queue.filter (·.id ∉ ids)

def promote (sh : Shared) (ids : List Nat) : Shared :=
  let sh' := { sh with queue := promoteQueue ids sh.queue }
  if sh.queue.any (·.id ∈ ids) then sh'.recount else sh'

def stash (sh : Shared) (w : Work) : Shared :=
  let (sh, claimed) := sh.claimDone w
  if claimed then { sh with cancelled := sh.cancelled.insert w.id w } else sh

def cancel (sh : Shared) (ids : List Nat) : Shared :=
  let removed := sh.queue.filter (·.id ∈ ids)
  let sh := { sh with queue := sh.queue.filter (·.id ∉ ids) }
  let sh := if removed.any (·.promoted) then sh.recount else sh
  removed.foldl stash sh

/-- The works that `requeue` takes out of the stash. -/
def unstash (sh : Shared) (ids : List Nat) : Shared × List Work :=
  ids.foldl (fun s id => match s.1.cancelled.get id with
    | some w => ({ s.1 with cancelled := s.1.cancelled.remove id }, s.2 ++ [w])
    | none => s) (sh, [])

def requeue (sh : Shared) (ids : List Nat) : Shared :=
  let (sh, works) := sh.unstash ids
  let sh := works.foldl (fun sh w => { sh with done := Function.update sh.done w.ord false }) sh
  (works.foldl (fun s w =>
    if w.promoted then (s.1.insert s.2 w, s.2 + 1) else (s.1.insert s.1.queue.length w, s.2))
    (sh, promotedRun sh.queue)).1

/-! ## A session's end -/

/-- `shed_pipeline`, with the queue position. -/
def shedOne (s : Shared × Nat) (w : Work) : Shared × Nat :=
  if w.dup || s.1.done w.ord then s else (s.1.insert s.2 w, s.2 + 1)

def shedPipeline (sh : Shared) (inflight : List Work) : Shared :=
  (inflight.foldl shedOne (sh, promotedRun sh.queue)).1

/-- `note_spent`: whether a live server is still owed a go. -/
def noteSpent (sh : Shared) (w : Work) (bit : Mask) : Shared × Bool :=
  let spent := sh.spent w.id ||| bit
  let touched := w.tried430 ||| w.triedFail ||| spent
  ({ sh with spent := Function.update sh.spent w.id spent },
    decide (sh.spent w.id &&& bit = 0) &&
      (List.range sh.servers).any fun si => decide (0 < sh.alive si) && touched &&& serverBit si = 0)

/-- The front of a dead connection's pipeline pays for it; `none` if that was the last of its budget.
`attempts` is a `u8`. -/
def charge (sh : Shared) (retries : Nat) (bit : Mask) (w : Work) : Shared × Option Work :=
  let w := { w with attempts := (w.attempts + 1) % 256, triedFail := w.triedFail ||| bit }
  if retries < w.attempts then
    match sh.noteSpent w bit with
    | (sh, true) => (sh, some { w with attempts := 0 })
    | (sh, false) => ((sh.claimDone w).1, none)
  else (sh, some w)

/-- A casualty goes back: behind the promoted ones before it, or behind the promoted run. -/
def putBack (s : Shared × Nat × Nat) (w : Work) : Shared × Nat × Nat :=
  if w.promoted then (s.1.insert s.2.2 w, s.2.1 + 1, s.2.2 + 1) else (s.1.insert s.2.1 w, s.2.1 + 1, s.2.2)

def requeueOne (retries : Nat) (bit : Mask) (charged : Bool) (s : Shared × Nat × Nat) (w : Work) :
    Shared × Nat × Nat :=
  if w.dup || s.1.done w.ord then s
  else if charged then
    match s.1.charge retries bit w with
    | (sh, some w) => putBack (sh, s.2) w
    | (sh, none) => (sh, s.2)
  else putBack s w

def requeueOrFail (sh : Shared) (retries : Nat) (bit : Mask) (chargeFront : Bool)
    (inflight : List Work) : Shared :=
  let s := (sh, promotedRun sh.queue, 0)
  match inflight with
  | [] => sh
  | w :: rest => (rest.foldl (requeueOne retries bit false) (requeueOne retries bit chargeFront s w)).1

end Shared

end NzbFast.Pool
