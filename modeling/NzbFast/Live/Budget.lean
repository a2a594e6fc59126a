import NzbFast.Fold.Table
import NzbFast.Live.Verifier
import NzbFast.Sync.Sections

/-!
# The partials budget, one atomic at a time

`on_data_inner`, `forget_binding` and `finish_slot_from`
(`crates/nzbkit-base/src/live.rs`, `live/binding.rs`) between the `fetch_add`s
and `fetch_sub`s of `partials_used`. A slot's lock keeps its fields from the
other slots, and its programs (`Sync.Prog`) stop only at those atomics, so other
slots' atomics fall between a reservation and its refund.

A descriptor travels with its binding (`Till.desc`), as a flat index names the
same descriptor for the whole run; which one a match tier binds is input
(`Answer`). Left out: the plan, the gate and the verdicts of a read-back, none
of which the budget reads.

`solo_claimLoop`: a claim loop that nobody interrupts is `Claiming.block`'s.
-/

namespace NzbFast.Live

open NzbFast.Par2 Fold Sync

/-- The atomics on `partials_used`. -/
inductive Fetch
  | add (n : Nat)
  | sub (n : Nat)
  deriving DecidableEq, Repr

def Fetch.run : Fetch → Nat → Nat
  | .add n, used => used + n
  | .sub n, used => used - n

/-- A match tier's answer with its descriptor and block size. -/
abbrev Answer := Nomination × Par2File × Nat

/-- A slot as the budget sees it. -/
structure Till where
  s : SlotState := {}
  /-- The bound descriptor and its block size. -/
  desc : Option (Par2File × Nat) := none
  /-- The feeds between their claim and their record. -/
  jobs : List Job := []
  /-- What the running claim loop has claimed. -/
  work : Work := {}
  /-- A refused reservation still on the counter. -/
  reserved : Nat := 0
  /-- Bytes gone from `partial_bytes` and still on the counter. -/
  owed : Nat := 0
  /-- Some `partial_bytes -=` took more than there was. -/
  wrapped : Bool := false

abbrev Till.Prog := Sync.Prog Fetch Nat Till

/-- Bytes held by `PartialBuf::Bytes` entries. -/
def PartialBuf.held : PartialBuf → Nat
  | .bytes p => p.buf.length
  | .crc _ => 0

def heldBytes (t : Table Nat PartialBuf) : Nat := t.total PartialBuf.held

namespace Till

/-- A byte partial leaves the map and `partial_bytes`. -/
def takeOut (t : Till) (bi n : Nat) : Till :=
  { t with
    s := { t.s with partials := t.s.partials.erase bi, partialBytes := t.s.partialBytes - n }
    wrapped := t.wrapped || decide (t.s.partialBytes < n) }

/-- `partials_used.fetch_sub(n)`, after `partial_bytes` went down by `n`. -/
def refund (t : Till) (n : Nat) (k : Till → Prog) : Prog :=
  .act { t with owed := n } (.sub n) fun _ => k t

/-- `fetch_add` first and the test after it; a refused reservation is handed back. -/
def reserve (cap blen : Nat) (t : Till) (refused accepted : Prog) : Prog :=
  .act t (.add blen) fun prev =>
    if cap < prev + blen then .act { t with reserved := blen } (.sub blen) fun _ => refused
    else accepted

/-! ## The claim loop -/

section Claim

variable (cap : Nat) (file : Par2File) (bs : Nat) (sp : Span) (crcClaims : Bool)

/-- A fragment `os..oe` of a boundary block joins a byte partial. -/
def fillBytes (t : Till) (bi os oe : Nat) (p : Partial) (k : Till → Prog) : Prog :=
  let p := p.fill (os - bi * bs) (sp.bytes os oe)
  if p.complete then
    (t.takeOut bi p.buf.length).refund p.buf.length fun t =>
      k { t with work := { t.work with ready := t.work.ready ++ [(bi, p.buf)] } }
  else k { t with s := { t.s with partials := t.s.partials.insert bi (.bytes p) } }

/-- A fragment opens a byte partial, unless the global budget is spent. -/
def openBytes (t : Till) (bi os oe : Nat) (k : Till → Prog) : Prog :=
  let blen := blockLen file.length bs bi
  reserve cap blen t (k t)
    (k { t with s := { t.s with
      partialBytes := t.s.partialBytes + blen
      partials := t.s.partials.insert bi
        (.bytes ((Partial.new blen).fill (os - bi * bs) (sp.bytes os oe))) } })

def pushCrc (t : Till) (bi os oe : Nat) : Till :=
  { t with work := { t.work with crcJobs := t.work.crcJobs ++ [(bi, os, oe)] } }

/-- A fragment of a boundary block, by what the block holds and what the span may claim. -/
def boundary (t : Till) (bi os oe : Nat) (k : Till → Prog) : Prog :=
  match t.s.partials.lookup bi with
  | some (.crc _) =>
    if crcClaims then k (t.pushCrc bi os oe)
    else k { t with s := { t.s with partials := t.s.partials.erase bi } }
  | some (.bytes p) => t.fillBytes bs sp bi os oe p k
  | none =>
    if crcClaims then
      k (pushCrc { t with s := { t.s with partials := t.s.partials.insert bi (.crc {}) } } bi os oe)
    else t.openBytes cap file bs sp bi os oe k

def block (t : Till) (bi : Nat) (k : Till → Prog) : Prog :=
  if t.s.blocks[bi]? ≠ some .pending then k t
  else
    let bstart := bi * bs
    let bend := bstart + blockLen file.length bs bi
    if sp.start ≤ bstart ∧ bend ≤ sp.stop then
      k { t with work := { t.work with full := t.work.full ++ [bi] } }
    else t.boundary cap file bs sp crcClaims bi (max sp.start bstart) (min sp.stop bend) k

def claimLoop : List Nat → Till → (Till → Prog) → Prog
  | [], t, k => k t
  | bi :: bis, t, k => t.block cap file bs sp crcClaims bi fun t => claimLoop bis t k

end Claim

/-- The claim phase of a bound slot, up to the point where its lock drops. -/
def claimSpan (cap slot : Nat) (crcClaims : Bool) (f : Feed) (t : Till) : Prog :=
  match t.desc with
  | none => .free t
  | some (file, bs) =>
    let len := min f.data.length (file.length - f.offset)
    if file.blocks = [] ∨ bs = 0 ∨ len = 0 then .free t
    else
      let sp : Span := ⟨f.offset, f.data.take len⟩
      claimLoop cap file bs sp crcClaims (touched file bs sp) t fun t =>
        .free { t with
          jobs := t.jobs ++ [⟨slot, f.src, sp, f.data.length, f.articleCrc, crcClaims,
            t.s.bindGen, file, bs, t.work⟩]
          work := {} }

/-! ## Bindings -/

/-- A match tier run with the answer `m`; `none` when it binds nothing. -/
def tryMatch (t : Till) (m : Option Answer) : Option Till :=
  m.map fun x => { t with s := t.s.bind x.1 x.2.1, desc := some x.2 }

/-- `forget_binding`: the slot is unbound and then its bytes come off the counter. -/
def forget (t : Till) (k : Till → Prog) : Prog :=
  refund { t with s := t.s.unbind, desc := none } t.s.partialBytes k

/-- `rejudge_binding`: `none` keeps the binding, `some m` drops it for the match answer `m`. -/
def rejudge (t : Till) (r : Option (Option Answer)) (k : Till → Prog) : Prog :=
  if t.s.file = none ∨ t.s.confirmed then k t
  else
    match r with
    | none => k t
    | some m => t.forget fun t => k ((t.tryMatch m).getD t)

/-- `on_data_inner` under an active plan, up to the point where the slot lock drops. -/
def feed (cap slot : Nat) (crcClaims : Bool) (f : Feed) (r : Option (Option Answer))
    (m : Option Answer) (t : Till) : Prog :=
  t.rejudge r fun t =>
    if t.s.file = none then
      match t.tryMatch m with
      | none => .free t
      | some t => t.claimSpan cap slot crcClaims f
    else t.claimSpan cap slot crcClaims f

/-- `promote_binding`; `won` says whether the descriptor was unclaimed. -/
def promote (won : Bool) (t : Till) : Prog :=
  if t.s.file = none ∨ t.s.confirmed ∨ t.s.liveOk = 0 then .free t
  else if won then .free { t with s := { t.s with confirmed := true } }
  else t.forget .free

end Till

/-! ## The record phase -/

section Record

variable (d : Digests)

namespace SlotState

/-- The closure `record`: a verdict lands on a Pending block only. -/
def record (s : SlotState) (bi : Nat) (ok : Bool) : SlotState :=
  if s.blocks[bi]? = some .pending then
    if ok then { s with blocks := s.blocks.set bi .ok, liveOk := s.liveOk + 1 }
    else { s with blocks := s.blocks.set bi .bad, liveBad := s.liveBad + 1 }
  else s

def recordResult (s : SlotState) (x : Nat × BlockVerdict) : SlotState :=
  let s : SlotState :=
    { s with ifscSelfContradicted := s.ifscSelfContradicted || x.2 == .contradicted }
  s.record x.1 (x.2 == .ok)

/-- A fragment of block `bi` joins the CRC parts `parts`. -/
def joinFrag (j : Job) (s : SlotState) (parts : CrcParts) (bi os oe crc : Nat) : SlotState :=
  match parts.insert d.combine (os - bi * j.bs) (oe - bi * j.bs) crc with
  | none => { s with partials := s.partials.erase bi }
  | some parts =>
    match parts.complete (j.blen bi) with
    | some crc =>
      { s with partials := s.partials.erase bi }.record bi
        (crcMatches (j.check bi) (LiveVerifier.finalCrc d crc (j.blen bi) j.bs))
    | none => { s with partials := s.partials.insert bi (.crc parts) }

end SlotState

namespace Till

/-- A partial whose block another span settled meanwhile is dropped, with its budget charge. -/
def dropPartial (t : Till) (bi : Nat) (k : Till → Prog) : Prog :=
  match t.s.partials.lookup bi with
  | some (.bytes p) => (t.takeOut bi p.buf.length).refund p.buf.length k
  | _ => k { t with s := { t.s with partials := t.s.partials.erase bi } }

def recordFrag (j : Job) (t : Till) (x : Nat × Nat × Nat × Nat) (k : Till → Prog) : Prog :=
  let (bi, os, oe, crc) := x
  if t.s.blocks[bi]? ≠ some .pending then t.dropPartial bi k
  else
    match t.s.partials.lookup bi with
    | some (.crc parts) => k { t with s := t.s.joinFrag d j parts bi os oe crc }
    | _ => k t

def recordFrags (j : Job) : List (Nat × Nat × Nat × Nat) → Till → (Till → Prog) → Prog
  | [], t, k => k t
  | x :: xs, t, k => t.recordFrag d j x fun t => recordFrags j xs t k

/-- `on_data_inner` from the re-lock on: a job of another binding generation is dropped. -/
def recordJob (noReuse : Bool) (j : Job) (t : Till) : Prog :=
  let results := j.results d noReuse
  let frags := j.crcFrags d noReuse
  if results = [] ∧ frags = [] then .free t
  else if t.s.bindGen ≠ j.bindGen then .free t
  else recordFrags d j frags { t with s := results.foldl SlotState.recordResult t.s } .free

end Till

end Record

/-! ## Settling a slot -/

/-- What the tiers of `finish_slot_from` answer, in the order they are asked. -/
structure Rungs where
  /-- `settle_binding` of the binding held on entry. -/
  settled : Bool
  refused : Bool
  first : Option Answer
  firstHolds : Bool
  /-- `try_match_whole || try_match_named`. -/
  late : Option Answer
  /-- The unclaimed candidates of the head shrank meanwhile. -/
  shrank : Bool
  again : Option Answer
  againHolds : Bool

namespace Till

/-- `settle_binding` with the answer `holds` on a tentative binding. -/
def settleBinding (t : Till) (holds : Bool) : Till × Bool :=
  if t.s.file = none then (t, false)
  else if t.s.confirmed then (t, true)
  else if holds then
    ({ t with s := { t.s with confirmed := true, headNominated := false } }, true)
  else (t, false)

/-- A match at finish; a head nomination made here is settled here. -/
def matchAtFinish (t : Till) (m : Option Answer) (holds : Bool) (k : Till → Bool → Prog) : Prog :=
  match t.tryMatch m with
  | none => k t false
  | some t =>
    if t.s.headNominated then
      let (t, kept) := t.settleBinding holds
      if kept then k t true else t.forget fun t => k t false
    else k t true

def lastChance (t : Till) (l : Rungs) (mayRematch : Bool) (k : Till → Prog) : Prog :=
  let late (t : Till) (bound : Bool) : Prog :=
    let (t, bound) := if bound then (t, true)
      else match t.tryMatch l.late with
        | some t => (t, true)
        | none => (t, false)
    if !bound && mayRematch && l.shrank then t.matchAtFinish l.again l.againHolds fun t _ => k t
    else k t
  if mayRematch then t.matchAtFinish l.first l.firstHolds late else late t false

/-- The leftover partials of a slot go back to the budget: cleared, taken off the counter, and only
then forgotten by `partial_bytes`. -/
def dropPartials (t : Till) : Prog :=
  .act { t with s := { t.s with partials := ∅ } } (.sub t.s.partialBytes) fun _ =>
    .free { t with s := { t.s with partials := ∅, partialBytes := 0 } }

def finishSlot (l : Rungs) (t : Till) : Prog :=
  let headBound := t.s.file.isSome && !t.s.confirmed && t.s.headNominated
  let wasBound := t.s.file.isSome
  let (t, kept) := { t with s := { t.s with readbackForced := [] } }.settleBinding l.settled
  let dropped := wasBound && !kept
  let settle (t : Till) : Prog := if t.s.file = none then .free t else t.dropPartials
  let ladder (t : Till) : Prog :=
    if t.s.file = none ∧ ¬ l.refused then t.lastChance l (!(dropped && headBound)) settle
    else settle t
  if dropped then t.forget ladder else ladder t

end Till

/-! ## The verifier's slots -/

/-- What takes a slot's lock. -/
inductive Enters (d : Digests) (cap : Nat) (slot : Nat) : Till → Till.Prog → Prop
  | feed (crcClaims : Bool) (f : Feed) (r : Option (Option Answer)) (m : Option Answer) (t : Till) :
      Enters d cap slot t (t.feed cap slot crcClaims f r m)
  | record (noReuse : Bool) (k : Nat) {t : Till} {j : Job} : t.jobs[k]? = some j →
      Enters d cap slot t ({ t with jobs := t.jobs.eraseIdx k }.recordJob d noReuse j)
  | promote (won : Bool) (t : Till) : Enters d cap slot t (t.promote won)
  | finish (l : Rungs) (t : Till) : Enters d cap slot t (t.finishSlot l)
  /-- Anything else keeps the binding and the partials: spans, verdicts, the gate's marks. -/
  | other {t : Till} {s : SlotState} : s.file = t.s.file → s.partials = t.s.partials →
      s.partialBytes = t.s.partialBytes → Enters d cap slot t (.free { t with s := s })

/-- `n` slots over one counter with the cap `cap`. -/
def budget (d : Digests) (cap n : Nat) : Sync.System Fetch Nat Till (Fin n) where
  run := Fetch.run
  enter i := Enters d cap i
  swap _ _ := False

def budgetStart (n : Nat) : Sync.World Fetch Nat Till (Fin n) := ⟨0, fun _ => .free {}⟩

end NzbFast.Live
