import NzbFast.Rust.BTreeMap
import NzbFast.Wire.Intervals
import NzbFast.Wire.Placed

/-!
# The chase's frontier buffer

`FrontierBuffer` (`crates/nzbkit/src/extract/frontier.rs`) holds the bytes of one
chased volume from `base` on: a contiguous run, spans parked beyond it and spans
paged out to the holds scratch (`HoldsScratch`, `holds.rs`). Each function here is
one region of the source under the state lock, from the state to the state. A
pager (`page_cold`) lets go of the lock between its clone, its appends and its
commit, so it is a machine of its own whose steps others may come between.

Offsets are natural numbers: no span of a volume ends past `2^64`. What only the
blocking readers use is left out, and so is the reserved capacity of the run.
-/

namespace NzbFast.Extract

open NzbFast.Rust
open Wire (byteAt overlay firstDiff mergeIntervals sweep)

def HOLDS_PAGE_MIN : Nat := 4 * 1024

/-! ## The scratch -/

/-- `ScratchState`, with the file's bytes. -/
structure Scratch where
  file : List UInt8 := []
  cursor : Nat := 0
  live : Nat := 0
  pins : Nat := 0
  deriving DecidableEq

/-- `write_all_at`: a gap before the bytes reads as zeros. -/
def writeAllAt (file : List UInt8) (pos : Nat) (bytes : List UInt8) : List UInt8 :=
  file.take pos ++ List.replicate (pos - file.length) 0 ++ bytes ++ file.drop (pos + bytes.length)

/-- The idle reset: nothing live and nobody reading. -/
def Scratch.idle (sc : Scratch) : Scratch :=
  if sc.live = 0 ∧ sc.pins = 0 then { sc with cursor := 0 } else sc

/-- `HoldsScratch::append`: the region's offset, or a refusal at the ceiling. -/
def Scratch.append (sc : Scratch) (bytes : List UInt8) (cap : Nat) : Scratch × Option Nat :=
  let sc := sc.idle
  if cap < sc.cursor + bytes.length then (sc, none)
  else
    ({ sc with
        file := writeAllAt sc.file sc.cursor bytes
        cursor := sc.cursor + bytes.length
        live := sc.live + bytes.length },
      some sc.cursor)

/-- `HoldsScratch::release`. -/
def Scratch.release (sc : Scratch) (len : Nat) : Scratch :=
  let live := sc.live - len
  if live = 0 ∧ sc.pins = 0 then { sc with live, cursor := 0, file := [] } else { sc with live }

/-- `HoldsScratch::read`: the whole range or an error. -/
def Scratch.read (sc : Scratch) (off len : Nat) : Option (List UInt8) :=
  if off + len ≤ sc.file.length then some ((sc.file.drop off).take len) else none

/-! ## The state -/

structure FrontierState where
  base : Nat := 0
  data : List UInt8 := []
  pending : BTreeMap (List UInt8) := .empty
  /-- Start to region offset and length. -/
  paged : BTreeMap (Nat × Nat) := .empty
  pagedBytes : Nat := 0
  total : Nat
  stored : Nat := 0
  pendingMaxLen : Nat := 0
  conflict : Bool := false
  rewrittenLow : Option Nat := none
  served : Nat := 0
  abort : Option String := none
  trimPending : Nat := 0
  rewriteSeq : Nat := 0

namespace FrontierState

def retained (st : FrontierState) : Nat := st.stored - st.trimPending

def frontierRam (st : FrontierState) : Nat := st.base + st.data.length

def parkedRanges (st : FrontierState) : List (Nat × Nat) :=
  st.pending.entries.map fun x => (x.1, x.1 + x.2.length)

def pagedRanges (st : FrontierState) : List (Nat × Nat) :=
  st.paged.entries.map fun x => (x.1, x.1 + x.2.2)

/-- `frontier`: one ascending merge of both maps from the run's end. -/
def frontier (st : FrontierState) : Nat :=
  sweep (st.parkedRanges ++ st.pagedRanges).length st.parkedRanges st.pagedRanges st.frontierRam

def pagedAt (st : FrontierState) (pos : Nat) : Option (Nat × Nat × Nat) :=
  (st.paged.lastLE pos).filter fun x => decide (pos < x.1 + x.2.2)

/-- `max_by_key` on the spans' ends: the last of the furthest. -/
def furthest (spans : List (Nat × List UInt8)) : Option (Nat × List UInt8) :=
  spans.foldl (fun best x => match best with
    | none => some x
    | some y => if y.1 + y.2.length ≤ x.1 + x.2.length then some x else some y) none

def pendingAt (st : FrontierState) (pos : Nat) : Option (Nat × List UInt8) :=
  furthest ((st.pending.range (pos - st.pendingMaxLen) (pos + 1)).filter fun x =>
    decide (pos < x.1 + x.2.length))

def resyncRetained (st : FrontierState) : FrontierState :=
  { st with
    stored := st.data.length + st.pending.sum List.length
    pendingMaxLen := (st.pending.entries.map fun x => x.2.length).foldl max 0 }

/-! ## `write_span` -/

/-- `diff_low.min(x)`; the flag `differed` is that there is a lowest. -/
def lower (low : Option Nat) (x : Nat) : Option Nat := some (low.elim x (min x))

/-- One retained copy against a delivery: the copy with the newest bytes, and the lowest offset so
far where a copy differed. -/
def reconcile (s : Nat) (v : List UInt8) (offset : Nat) (bytes : List UInt8) (low : Option Nat) :
    List UInt8 × Option Nat :=
  match firstDiff s v offset bytes with
  | some x => (overlay s v offset bytes, lower low x)
  | none => (v, low)

def reconcileRun (st : FrontierState) (offset : Nat) (bytes : List UInt8) :
    FrontierState × Option Nat :=
  if offset < st.frontierRam ∧ st.base < offset + bytes.length then
    let r := reconcile st.base st.data offset bytes none
    ({ st with data := r.1 }, r.2)
  else (st, none)

/-- The corrected bytes of a region that leaves the scratch, among the parked spans. -/
def repark (st : FrontierState) (s : Nat) (whole : List UInt8) : FrontierState :=
  match st.pending.get s with
  | some old =>
    if whole.length ≤ old.length then
      { st with pending := st.pending.insert s (whole ++ old.drop whole.length) }
    else { st with pending := st.pending.insert s whole }
  | none => { st with pending := st.pending.insert s whole }

/-- What the walk over the regions carries. -/
structure Unpaging where
  st : FrontierState
  sc : Scratch
  low : Option Nat
  unpaged : Bool := false

def unpage (offset : Nat) (bytes : List UInt8) (u : Unpaging) (region : Nat × Nat × Nat) :
    Unpaging :=
  let (s, po, len) := region
  let a := max offset s
  let b := min (offset + bytes.length) (s + len)
  match u.sc.read (po + (a - s)) (b - a) with
  | none => { u with low := lower u.low a }
  | some have_ =>
    if have_ = (bytes.take (b - offset)).drop (a - offset) then u
    else
      match u.sc.read po len with
      | none => { u with low := lower u.low a }
      | some whole =>
        let st := { u.st with paged := u.st.paged.remove s, pagedBytes := u.st.pagedBytes - len }
        { st := st.repark s (overlay s whole offset bytes)
          sc := u.sc.release len
          low := lower u.low a
          unpaged := true }

def reconcilePaged (st : FrontierState) (sc : Scratch) (low : Option Nat) (offset : Nat)
    (bytes : List UInt8) : FrontierState × Scratch × Option Nat :=
  if st.paged.entries ≠ [] ∧ st.base < offset + bytes.length then
    let lo := (st.paged.lastLE offset).elim 0 (·.1)
    let overlapping := (st.paged.range lo (offset + bytes.length)).filter fun x =>
      decide (offset < x.1 + x.2.2)
    let u := overlapping.foldl (unpage offset bytes) { st, sc, low }
    (if u.unpaged then u.st.resyncRetained else u.st, u.sc, u.low)
  else (st, sc, low)

/-- The copies among the parked spans. -/
def reconcileParked (st : FrontierState) (low : Option Nat) (offset : Nat) (bytes : List UInt8) :
    FrontierState × Option Nat :=
  if st.frontierRam < offset + bytes.length then
    let lo := offset - st.pendingMaxLen
    let stop := offset + bytes.length
    ({ st with
        pending := st.pending.mapVals fun s v =>
          if lo ≤ s ∧ s < stop then (reconcile s v offset bytes none).1 else v },
      (st.pending.range lo stop).foldl (fun low x => (reconcile x.1 x.2 offset bytes low).2) low)
  else (st, low)

/-- Whether the paged region at `pos` reaches `stop`. -/
def pagedTo (st : FrontierState) (pos stop : Nat) : Bool :=
  (st.pagedAt pos).any fun x => decide (stop ≤ x.1 + x.2.2)

/-- A span parked, unless a region has it all or a span with its start is no shorter. -/
def park (st : FrontierState) (s : Nat) (v : List UInt8) : FrontierState :=
  let keep := !st.pagedTo s (s + v.length) && (st.pending.get s).all fun old =>
    decide (old.length < v.length)
  if keep then { st with pending := st.pending.insert s v } else st

/-- Where an append at the frontier stops: the paged coverage, or the delivery's end. -/
def appendStop (st : FrontierState) (stop : Nat) : Nat :=
  if (st.pagedAt st.frontierRam).isSome then st.frontierRam
  else ((st.paged.range st.frontierRam stop).head?).elim stop (·.1)

/-- The fold of parked spans into the run, in start order. -/
def foldRun (base : Nat) : List UInt8 → List (Nat × List UInt8) →
    List UInt8 × List (Nat × List UInt8)
  | data, [] => (data, [])
  | data, (s, v) :: rest =>
    if base + data.length < s then (data, (s, v) :: rest)
    else foldRun base (data ++ v.drop (base + data.length - s)) rest

theorem foldRun_suffix (base : Nat) (data : List UInt8) (l : List (Nat × List UInt8)) :
    (foldRun base data l).2 <:+ l := by
  induction l generalizing data with
  | nil => exact List.suffix_rfl
  | cons x l ih =>
    unfold foldRun
    split
    case isTrue => exact List.suffix_rfl
    case isFalse => exact (ih _).trans (List.suffix_cons x l)

def foldParked (st : FrontierState) : FrontierState :=
  let r := foldRun st.base st.data st.pending.entries
  { st with
    data := r.1
    pending := ⟨r.2, st.pending.sorted.sublist (foldRun_suffix _ _ _).sublist⟩ }

/-- `append_run`, of the delivered bytes from the frontier to `stop`. -/
def appendRun (st : FrontierState) (offset : Nat) (bytes : List UInt8) (stop : Nat) :
    FrontierState :=
  { st with data := st.data ++ (bytes.take (stop - offset)).drop (st.frontierRam - offset) }

/-- A delivery at or below the frontier: append, park what lies past a region, fold. -/
def extend (st : FrontierState) (offset : Nat) (bytes : List UInt8) : FrontierState :=
  let st :=
    if st.frontierRam < offset + bytes.length then
      let stop := st.appendStop (offset + bytes.length)
      let st := st.appendRun offset bytes stop
      if stop < offset + bytes.length then st.park stop (bytes.drop (stop - offset)) else st
    else st
  st.foldParked

def flagRewrite (st : FrontierState) (low : Option Nat) : FrontierState :=
  match low with
  | none => st
  | some x =>
    { st with
      rewriteSeq := st.rewriteSeq + 1
      rewrittenLow := some (st.rewrittenLow.elim x (min x))
      conflict := st.conflict || decide (x < st.served) }

/-- `write_span`, less the wake-up. -/
def writeSpan (st : FrontierState) (sc : Scratch) (offset : Nat) (bytes : List UInt8) :
    FrontierState × Scratch × Nat :=
  if st.abort.isSome then (st, sc, st.retained)
  else if min (offset + bytes.length) st.total ≤ offset then (st, sc, st.retained)
  else
    let bytes := bytes.take (min (offset + bytes.length) st.total - offset)
    let (st, low) := st.reconcileRun offset bytes
    let (st, sc, low) := st.reconcilePaged sc low offset bytes
    let (st, low) := st.reconcileParked low offset bytes
    let st := if offset ≤ st.frontierRam then st.extend offset bytes else st.park offset bytes
    let st := (st.flagRewrite low).resyncRetained
    (st, sc, st.retained)

/-! ## Reads -/

/-- A part of a planned read: bytes from RAM, or a range of the scratch to read later. -/
inductive Piece where
  | ram (bytes : List UInt8)
  | deferred (off len : Nat)

/-- The loop of `plan_peek` past the run. A round serves at least a byte. -/
def planFrom (st : FrontierState) : Nat → Nat → Nat → Option (List Piece)
  | 0, _, _ => some []
  | fuel + 1, pos, stop =>
    if pos < stop then
      match st.pendingAt pos with
      | some (s, v) =>
        let n := min (s + v.length) stop - pos
        (st.planFrom fuel (pos + n) stop).map (.ram ((v.drop (pos - s)).take n) :: ·)
      | none =>
        match st.pagedAt pos with
        | some (s, po, len) =>
          let n := min (s + len) stop - pos
          (st.planFrom fuel (pos + n) stop).map (.deferred (po + (pos - s)) n :: ·)
        | none => none
    else some []

/-- `plan_peek`: the pieces of `[off, off + len)` in order, or the error of a hole. -/
def planPeek (st : FrontierState) (off len : Nat) : Option (List Piece) :=
  if off < st.base then none
  else
    let n := if off < st.frontierRam then min st.frontierRam (off + len) - off else 0
    (st.planFrom len (off + n) (off + len)).map
      (.ram ((st.data.drop (off - st.base)).take n) :: ·)

def intervals (st : FrontierState) (off len : Nat) : List (Nat × Nat) :=
  let stop := off + len
  let lo := max off st.base
  let clip := fun r : Nat × Nat => (max off r.1, min stop r.2)
  mergeIntervals ((if lo < st.frontierRam ∧ lo < stop then [(lo, min st.frontierRam stop)] else []) ++
    (st.parkedRanges.map clip).filter (fun r => decide (r.1 < r.2)) ++
    (st.pagedRanges.map clip).filter fun r => decide (r.1 < r.2))

/-! ## The final drain -/

/-- The loop of `pop_span` over the regions: one that lies wholly below `base` ships nothing. -/
def popPaged (sc : Scratch) (st : FrontierState) : List (Nat × Nat × Nat) →
    Option (FrontierState × Scratch × Option (Nat × List UInt8))
  | [] => some (st, sc, none)
  | (s, po, len) :: regions =>
    let skip := min (st.base - s) len
    let bytes := if len - skip = 0 then some [] else sc.read (po + skip) (len - skip)
    bytes.bind fun bytes =>
      let st := { st with paged := st.paged.remove s, pagedBytes := st.pagedBytes - len }
      if bytes = [] then popPaged (sc.release len) st regions
      else some (st, sc.release len, some (s + skip, bytes))

/-- `pop_span`: the run, then a region, then a parked span; the outer option is a read's error. -/
def popSpan (st : FrontierState) (sc : Scratch) :
    Option (FrontierState × Scratch × Option (Nat × List UInt8)) :=
  if st.data ≠ [] then some ({ st with data := [] }.resyncRetained, sc, some (st.base, st.data))
  else
    (popPaged sc st st.paged.entries).map fun r =>
      match r.2.2 with
      | some span => (r.1, r.2.1, some span)
      | none =>
        match r.1.pending.entries with
        | [] => (r.1.resyncRetained, r.2.1, none)
        | (s, v) :: _ =>
          ({ r.1 with pending := r.1.pending.remove s }.resyncRetained, r.2.1, some (s, v))

/-- Spans popped until there is none. -/
def drain : Nat → FrontierState → Scratch → Option (List (Nat × List UInt8))
  | 0, _, _ => none
  | fuel + 1, st, sc =>
    (st.popSpan sc).bind fun r =>
      match r.2.2 with
      | none => some []
      | some span => (drain fuel r.1 r.2.1).map (span :: ·)

/-! ## Trims -/

/-- The prefix that `trim_to` and `trim_plan` would take, or their refusal. -/
def trimCut (st : FrontierState) (watermark minRelease : Nat) : Option Nat :=
  if st.conflict ∨ st.abort.isSome ∨ st.trimPending ≠ 0 then none
  else
    let cut := min watermark st.frontierRam
    if cut < st.base + max minRelease 1 then none else some cut

/-- The run without its first `n` bytes. -/
def drop (st : FrontierState) (n : Nat) : FrontierState :=
  { st with data := st.data.drop n, base := st.base + n }.resyncRetained

def trimTo (st : FrontierState) (watermark minRelease : Nat) :
    FrontierState × Option (Nat × List UInt8) :=
  match st.trimCut watermark minRelease with
  | none => (st, none)
  | some cut => (st.drop (cut - st.base), some (st.base, st.data.take (cut - st.base)))

def trimPlan (st : FrontierState) (watermark minRelease : Nat) :
    FrontierState × Option (Nat × Nat × Nat) :=
  match st.trimCut watermark minRelease with
  | none => (st, none)
  | some cut =>
    ({ st with trimPending := cut - st.base }, some (st.base, cut - st.base, st.rewriteSeq))

def trimConsistent (st : FrontierState) (at_ n seqBefore : Nat) : Bool :=
  decide (st.base = at_) && decide (n ≤ st.data.length) && !st.conflict && st.abort.isNone &&
    decide (st.rewriteSeq = seqBefore)

def trimChunk (st : FrontierState) (at_ done most seqBefore : Nat) : Option (List UInt8) :=
  if !st.trimConsistent at_ st.trimPending seqBefore || decide (st.trimPending ≤ done) then none
  else some ((st.data.take (min (done + most) st.trimPending)).drop done)

def trimCommit (st : FrontierState) (at_ seqBefore : Nat) : FrontierState × Option Nat :=
  let n := st.trimPending
  let st := { st with trimPending := 0 }
  if decide (n = 0) || !st.trimConsistent at_ n seqBefore then (st.resyncRetained, none)
  else (st.drop n, some n)

def trimAbandon (st : FrontierState) : FrontierState := { st with trimPending := 0 }.resyncRetained

def closeTotal (st : FrontierState) (total : Nat) : FrontierState :=
  if total = 0 ∨ st.total = total then st else { st with total }

end FrontierState

/-! ## `page_cold` -/

/-- Where a pager stands between two of its locked or unlocked regions. -/
inductive PagerPc where
  | pick
  | append (todo : List (Nat × List UInt8)) (written : List (Nat × List UInt8 × Nat)) (seq : Nat)
  | commit (written : List (Nat × List UInt8 × Nat)) (seq : Nat) (refused : Bool)
  | tail
  | tailAppend (at_ : Nat) (bytes : List UInt8) (stop seq : Nat)
  | tailCommit (at_ : Nat) (bytes : List UInt8) (stop seq off : Nat)
  | done

/-- A call of `page_cold`. -/
structure Pager where
  cap : Nat
  need : Nat
  includeData : Bool
  moved : Nat := 0
  rounds : Nat := 0
  retries : Nat := 0
  pc : PagerPc := .pick

def PAGE_BATCH : Nat := 16 * 1024 * 1024
def TAIL_CHUNK : Nat := 8 * 1024 * 1024

namespace FrontierState

/-- The region of greatest start below `stop`, where it reaches past `s`. -/
def pagedOverlap (st : FrontierState) (s stop : Nat) : Option (Nat × Nat × Nat) :=
  (st.paged.lastLT stop).filter fun x => decide (s < x.1 + x.2.2)

/-- What the pick loop carries. -/
structure Picking where
  st : FrontierState
  need : Nat
  moved : Nat
  picked : List (Nat × List UInt8) := []
  pickedBytes : Nat := 0

/-- The pick loop over the parked starts, newest first. -/
def pickParked : List Nat → Picking → Picking
  | [], p => p
  | s :: starts, p =>
    if p.need = 0 ∨ PAGE_BATCH ≤ p.pickedBytes then p
    else
      let v := (p.st.pending.get s).getD []
      if v.length < HOLDS_PAGE_MIN then pickParked starts p
      else
        match p.st.pagedOverlap s (s + v.length) with
        | some (ps, _, plen) =>
          if ps ≤ s ∧ s + v.length ≤ ps + plen then
            pickParked starts { p with
              st := { p.st with pending := p.st.pending.remove s }
              moved := p.moved + v.length
              need := p.need - v.length }
          else if ps ≠ s then pickParked starts p
          else
            pickParked starts { p with
              picked := p.picked ++ [(s, v)], pickedBytes := p.pickedBytes + v.length }
        | none =>
          pickParked starts { p with
            picked := p.picked ++ [(s, v)], pickedBytes := p.pickedBytes + v.length }

/-- Whether the commit of the clone `v` at `s` stands. -/
def commitStands (st : FrontierState) (s : Nat) (v : List UInt8) (seq : Nat) : Bool :=
  let intact := !st.conflict && st.abort.isNone && decide (st.rewriteSeq = seq) &&
    (st.pending.get s).any fun cur => decide (cur.length = v.length)
  let clean := (st.pagedOverlap s (s + v.length)).all fun x =>
    decide (x.1 = s) && decide (x.2.2 < v.length)
  intact && clean

/-- What the commit loop carries. -/
structure Committing where
  st : FrontierState
  sc : Scratch
  need : Nat
  moved : Nat

def commitOne (seq : Nat) (c : Committing) (w : Nat × List UInt8 × Nat) : Committing :=
  let (s, v, off) := w
  if !c.st.commitStands s v seq then { c with sc := c.sc.release v.length }
  else
    let oldLen := (c.st.paged.get s).elim 0 (·.2)
    { st := { c.st with
        pending := c.st.pending.remove s
        pagedBytes := c.st.pagedBytes - oldLen + v.length
        paged := c.st.paged.insert s (off, v.length) }
      sc := if (c.st.paged.get s).isSome then c.sc.release oldLen else c.sc
      need := c.need - v.length
      moved := c.moved + v.length }

def tailStoodStill (st : FrontierState) (at_ stop len seq : Nat) : Bool :=
  !st.conflict && st.abort.isNone && decide (st.rewriteSeq = seq) &&
    decide (st.frontierRam = stop) && decide (len ≤ st.data.length) &&
    (st.pagedOverlap at_ stop).isNone

def tailChunk (st : FrontierState) (need : Nat) : Option (Nat × List UInt8 × Nat × Nat) :=
  if st.conflict ∨ st.abort.isSome ∨ st.data = [] then none
  else
    let stop := st.frontierRam
    let take := min (min st.data.length need) TAIL_CHUNK
    let at_ := stop - take
    if take < HOLDS_PAGE_MIN ∨ (st.pagedOverlap at_ stop).isSome then none
    else some (at_, st.data.drop (st.data.length - take), stop, st.rewriteSeq)

def commitTail (st : FrontierState) (at_ len off : Nat) : FrontierState :=
  { st with
    data := st.data.take (st.data.length - len)
    pagedBytes := st.pagedBytes + len
    paged := st.paged.insert at_ (off, len) }.resyncRetained

end FrontierState

/-- A pager's next region: of the lock, or between two of them. -/
def Pager.step (p : Pager) (st : FrontierState) (sc : Scratch) : Pager × FrontierState × Scratch :=
  match p.pc with
  | .pick =>
    if p.need < HOLDS_PAGE_MIN then ({ p with pc := .tail }, st, sc)
    else if 64 < p.rounds + 1 then ({ p with rounds := p.rounds + 1, pc := .tail }, st, sc)
    else if st.conflict ∨ st.abort.isSome then
      ({ p with rounds := p.rounds + 1, pc := .done }, st, sc)
    else
      let r := FrontierState.pickParked (st.pending.entries.map (·.1)).reverse
        { st, need := p.need, moved := p.moved }
      ({ p with
          rounds := p.rounds + 1
          need := r.need
          moved := r.moved
          pc := if r.picked = [] then .tail else .append r.picked [] r.st.rewriteSeq },
        r.st.resyncRetained, sc)
  | .append [] written seq => ({ p with pc := .commit written seq false }, st, sc)
  | .append ((s, v) :: todo) written seq =>
    let (sc, off) := sc.append v p.cap
    match off with
    | some off => ({ p with pc := .append todo (written ++ [(s, v, off)]) seq }, st, sc)
    | none => ({ p with pc := .commit written seq true }, st, sc)
  | .commit written seq refused =>
    let c := written.foldl (FrontierState.commitOne seq) { st, sc, need := p.need, moved := p.moved }
    ({ p with need := c.need, moved := c.moved, pc := if refused then .done else .pick },
      c.st.resyncRetained, c.sc)
  | .tail =>
    if !p.includeData || decide (p.need < HOLDS_PAGE_MIN) || decide (8 ≤ p.retries) then
      ({ p with pc := .done }, st, sc)
    else
      match st.tailChunk p.need with
      | none => ({ p with pc := .done }, st, sc)
      | some (at_, bytes, stop, seq) => ({ p with pc := .tailAppend at_ bytes stop seq }, st, sc)
  | .tailAppend at_ bytes stop seq =>
    let (sc, off) := sc.append bytes p.cap
    match off with
    | some off => ({ p with pc := .tailCommit at_ bytes stop seq off }, st, sc)
    | none => ({ p with pc := .done }, st, sc)
  | .tailCommit at_ bytes stop seq off =>
    if !st.tailStoodStill at_ stop bytes.length seq then
      ({ p with retries := p.retries + 1, pc := .tail }, st, sc.release bytes.length)
    else
      ({ p with need := p.need - bytes.length, moved := p.moved + bytes.length, pc := .tail },
        st.commitTail at_ bytes.length off, sc)
  | .done => (p, st, sc)

/-! ## Runs -/

/-- A buffer, the scratch it pages to, the pagers under way, and what the scratch's other users
have live on it. -/
structure World where
  st : FrontierState
  sc : Scratch := {}
  pagers : List Pager := []
  others : Nat := 0

/-- What can happen next: a call on the buffer, a pager's next region, a read of the decode, or
another user of the scratch. -/
inductive Action where
  | write (offset : Nat) (bytes : List UInt8)
  | trimTo (watermark minRelease : Nat)
  | trimPlan (watermark minRelease : Nat)
  | trimCommit (at_ seqBefore : Nat)
  | trimAbandon
  | closeTotal (total : Nat)
  | pageCold (cap need : Nat) (includeData : Bool)
  | pager (i : Nat)
  | serve (stop : Nat)
  | markConflict
  | append (bytes : List UInt8) (cap : Nat)
  | release (len : Nat)
  | pin
  | unpin

def World.step (w : World) : Action → World
  | .write offset bytes =>
    let (st, sc, _) := w.st.writeSpan w.sc offset bytes
    { w with st, sc }
  | .trimTo watermark minRelease => { w with st := (w.st.trimTo watermark minRelease).1 }
  | .trimPlan watermark minRelease => { w with st := (w.st.trimPlan watermark minRelease).1 }
  | .trimCommit at_ seqBefore => { w with st := (w.st.trimCommit at_ seqBefore).1 }
  | .trimAbandon => { w with st := w.st.trimAbandon }
  | .closeTotal total => { w with st := w.st.closeTotal total }
  | .pageCold cap need includeData => { w with pagers := w.pagers ++ [{ cap, need, includeData }] }
  | .pager i =>
    match w.pagers[i]? with
    | none => w
    | some p =>
      let (p, st, sc) := p.step w.st w.sc
      { w with st, sc, pagers := w.pagers.set i p }
  | .serve stop => { w with st := { w.st with served := max w.st.served stop } }
  | .markConflict => { w with st := { w.st with conflict := true } }
  | .append bytes cap =>
    let (sc, off) := w.sc.append bytes cap
    { w with sc, others := if off.isSome then w.others + bytes.length else w.others }
  | .release len =>
    if len ≤ w.others then { w with sc := w.sc.release len, others := w.others - len } else w
  | .pin => { w with sc := { w.sc with pins := w.sc.pins + 1 } }
  | .unpin => { w with sc := { w.sc with pins := w.sc.pins - 1 } }

/-- The byte last delivered at each offset: what `write_span` is given below the total. -/
def World.delivered (w : World) (last : Nat → Option UInt8) : Action → Nat → Option UInt8
  | .write offset bytes => fun x =>
    if w.st.abort.isSome then last x
    else (byteAt offset (bytes.take (w.st.total - offset)) x).or (last x)
  | _ => last

def World.run (w : World) (last : Nat → Option UInt8) : List Action → World × (Nat → Option UInt8)
  | [] => (w, last)
  | a :: actions => (w.step a).run (w.delivered last a) actions

end NzbFast.Extract
