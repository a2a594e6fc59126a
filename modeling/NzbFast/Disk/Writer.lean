import NzbFast.Disk.Stage
import NzbFast.Disk.Traffic

/-!
# The writers of one file

Threads deliver articles to one `FileWriter` through `write_article_at`, and other
threads call `flush_staged`. A step is what a thread does under one lock, or one
`pwrite` or `pread`; a run is any sequence of steps of any of the threads. A thread that
waits for the gate or for the flush lock does not move until it can.

Writes do not fail and no gate wait times out. The prefix hash, the extraction budget and
the writeback pacing do not touch the bytes and are left out.
-/

namespace NzbFast.Disk

open Wire

structure FileWriter where
  size : Nat
  caps : Caps
  /-- The file's bytes; a hole reads as zeros. -/
  disk : Nat → UInt8
  intervals : List (Nat × Nat)
  written : Nat
  covered : Nat
  conflict : Option (Nat × Nat)
  /-- `article_gate.inflight`. -/
  gate : List (Nat × Nat)
  stage : Option WriteStage
  /-- The mirror of `WriteStage::held`. -/
  staged : Nat
  /-- The thread that has `flush_lock`. -/
  flushLock : Option Nat
  articlesInFlight : Nat

/-- A writer of an empty file, its coalescing window off or on. -/
def FileWriter.new (size : Nat) (caps : Caps) (window : Bool) : FileWriter where
  size := size
  caps := caps
  disk _ := 0
  intervals := []
  written := 0
  covered := 0
  conflict := none
  gate := []
  stage := if window then some .new else none
  staged := 0
  flushLock := none
  articlesInFlight := 0

def FileWriter.hadConflictingRewrite (w : FileWriter) : Bool := w.conflict.isSome

/-- `read_exact_at`. -/
def pread (disk : Nat → UInt8) (offset len : Nat) : List UInt8 :=
  (List.range len).map fun k => disk (offset + k)

/-! ## Program counters -/

/-- How far `write_at_raw` and what follows it have come with one span. -/
inductive Phase where
  | ready
  | written
  | published (fresh : Nat)
  | counted
  | landed
  deriving DecidableEq

/-- Where a call goes on after a flush. -/
inductive Cont where
  /-- To the head of the loop in `gate_enter`. -/
  | gate
  /-- To the `pread` in `compare_prior`. -/
  | read (prior : List (Nat × Nat))
  /-- To the completion rule. -/
  | complete (held : Bool)
  /-- To the article's own write. -/
  | leave (held : Bool)
  | done
  deriving DecidableEq

inductive Pc where
  | start
  /-- In `gate_enter`. -/
  | enter (mayFlush : Bool)
  /-- In `compare_prior`, before the staging check of the first range. -/
  | compare (prior : List (Nat × Nat))
  | read (prior : List (Nat × Nat))
  | offer
  /-- `flush_stage` begins. -/
  | flush (k : Cont)
  | lockAll (k : Cont)
  | takeAll (k : Cont)
  /-- `flush_runs` waits for the flush lock. -/
  | lockRuns (runs : List StagedRun) (k : Cont)
  /-- The flush lock is held; the first run is in the phase given. -/
  | flushing (runs : List StagedRun) (phase : Phase) (k : Cont)
  | complete (held : Bool)
  | completeStaged (held : Bool) (covered : Nat)
  | leave (held : Bool)
  /-- The article's own write. -/
  | direct (phase : Phase)
  /-- The last one out. -/
  | last
  | done
  deriving DecidableEq

def Cont.pc : Cont → Pc
  | .gate => .enter false
  | .read prior => .read prior
  | .complete held => .complete held
  | .leave held => .leave held
  | .done => .done

/-- A call on the writer. A call of `flush_staged` delivers nothing. -/
structure Thread where
  offset : Nat
  data : List UInt8
  pc : Pc

def Thread.stop (t : Thread) : Nat := t.offset + t.data.length

/-- A call of `write_article_at`. -/
def Thread.article (offset : Nat) (data : List UInt8) : Thread := ⟨offset, data, .start⟩

/-- A call of `flush_staged`. -/
def Thread.flushStaged : Thread := ⟨0, [], .flush .done⟩

structure World where
  w : FileWriter
  threads : List Thread

/-! ## One call's steps -/

def FileWriter.stageOverlaps (w : FileWriter) (off stop : Nat) : Bool :=
  match w.stage with
  | none => false
  | some st => w.staged ≠ 0 && st.overlaps off stop

/-- Some span in flight shares a byte with `[offset, stop)`. -/
def FileWriter.gateBusy (w : FileWriter) (offset stop : Nat) : Bool :=
  w.gate.any fun x => decide (x.1 < stop ∧ offset < x.2)

/-- `compare_prior`'s read-back of one range, and whether it differs. -/
def FileWriter.disagrees (w : FileWriter) (offset : Nat) (data : List UInt8) (range : Nat × Nat) :
    Bool :=
  pread w.disk range.1 (range.2 - range.1) ≠
    (data.drop (range.1 - offset)).take (range.2 - range.1)

/-- `landed` for a span whose write has returned. -/
def FileWriter.landed (w : FileWriter) (start stop : Nat) : FileWriter :=
  match w.stage with
  | none => w
  | some st =>
    let st := st.landed start stop
    { w with stage := some st, staged := st.held }

/-- The steps of `write_at_raw`: the `pwrite`, `merge_span` with the written count, the count of
covered bytes. -/
def FileWriter.writeStep (w : FileWriter) (offset : Nat) (data : List UInt8) :
    Phase → FileWriter × Phase
  | .ready => ({ w with disk := pwrite w.disk offset data }, .written)
  | .written =>
    let (intervals, fresh) := mergeSpan w.intervals offset data.length
    ({ w with intervals, written := w.written + data.length }, .published fresh)
  | .published fresh => ({ w with covered := w.covered + fresh }, .counted)
  | .counted => (w, .counted)
  | .landed => (w, .landed)

/-- What thread `i` does next; `none` when it waits or has returned. -/
def next (env : Env) (i : Nat) (w : FileWriter) (t : Thread) : Option (FileWriter × Pc) :=
  match t.pc with
  | .start =>
    match w.stage with
    | none => some (w, .enter false)
    | some _ =>
      if t.data = [] then some (w, .done)
      else some ({ w with articlesInFlight := w.articlesInFlight + 1 }, .enter true)
  | .enter mayFlush =>
    if w.gateBusy t.offset t.stop then
      if mayFlush then some (w, .flush .gate) else none
    else some ({ w with gate := w.gate ++ [(t.offset, t.stop)] },
      .compare (coveredIntervals w.intervals t.offset t.data.length))
  | .compare [] => some (w, if w.stage.isSome then .offer else .direct .ready)
  | .compare (range :: prior) =>
    if w.stageOverlaps range.1 range.2 then some (w, .flush (.read (range :: prior)))
    else some (w, .read (range :: prior))
  | .read [] => some (w, .compare [])
  | .read (range :: prior) =>
    if w.disagrees t.offset t.data range then
      some ({ w with conflict := some (w.conflict.getD (range.1, range.2 - range.1)) }, .compare [])
    else some (w, .compare prior)
  | .offer =>
    match w.stage with
    | none => none
    | some st =>
      let (out, st) := if w.caps.age = 0 then ([], st) else st.takeExpired env.expiry w.caps.age
      let (more, held, st) := st.offer t.offset t.data w.caps env
      let runs := (out ++ more).mergeSort fun a b => decide (a.start ≤ b.start)
      let w := { w with stage := some st, staged := st.held }
      if runs = [] then some (w, .complete held) else some (w, .lockRuns runs (.complete held))
  | .flush k => if w.stage.isNone ∨ w.staged = 0 then some (w, k.pc) else some (w, .lockAll k)
  | .lockAll k =>
    if w.flushLock.isSome then none else some ({ w with flushLock := some i }, .takeAll k)
  | .takeAll k =>
    match w.stage with
    | none => none
    | some st =>
      let (runs, st) := st.takeAll
      some ({ w with stage := some st, staged := st.held }, .flushing runs .ready k)
  | .lockRuns runs k =>
    if w.flushLock.isSome then none
    else some ({ w with flushLock := some i }, .flushing runs .ready k)
  | .flushing [] _ k => some ({ w with flushLock := none }, k.pc)
  | .flushing (run :: runs) .counted k =>
    some (w.landed run.start run.stop, .flushing (run :: runs) .landed k)
  | .flushing (run :: runs) .landed k =>
    some ({ w with gate := w.gate.filter fun x => !decide (run.start ≤ x.1 ∧ x.2 ≤ run.stop) },
      .flushing runs .ready k)
  | .flushing (run :: runs) phase k =>
    let (w, phase) := w.writeStep run.start run.buf phase
    some (w, .flushing (run :: runs) phase k)
  | .complete held => some (w, .completeStaged held w.covered)
  | .completeStaged held covered =>
    if 0 < w.size ∧ w.size ≤ covered + w.staged then some (w, .flush (.leave held))
    else some (w, .leave held)
  | .leave held => some (w, if held then .last else .direct .ready)
  | .direct .counted =>
    some ({ w with gate := w.gate.erase (t.offset, t.stop) }, if w.stage.isSome then .last else .done)
  | .direct phase =>
    let (w, phase) := w.writeStep t.offset t.data phase
    some (w, .direct phase)
  | .last =>
    let w' := { w with articlesInFlight := w.articlesInFlight - 1 }
    if w.articlesInFlight = 1 ∧ !env.feeding then some (w', .flush .done) else some (w', .done)
  | .done => none

/-- Thread `i` takes its next step, if it has one. -/
def step (W : World) (s : Env × Nat) : World :=
  match W.threads[s.2]? with
  | none => W
  | some t =>
    match next s.1 s.2 W.w t with
    | none => W
    | some (w, pc) => ⟨w, W.threads.set s.2 { t with pc }⟩

def run (W : World) (steps : List (Env × Nat)) : World := steps.foldl step W

end NzbFast.Disk
