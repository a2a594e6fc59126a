import NzbFast.Wire.Intervals
import NzbFast.Wire.Placed

/-!
# The write-coalescing window of a file

The bytes of an article may wait in an open run instead of taking a write of their
own. A run that is taken out stays in `inflight` until its write has returned. What the
window does with a byte it was given is told by `runBytes`: `offer` and the takes move
bytes between the open runs and the runs handed back, and lose none.

The run-buffer pool and the process-wide budget are outside a single file's window:
`Env` has what one call reads of them and of the clock.
-/

namespace NzbFast.Disk

open Wire List

def MAX_RUNS : Nat := 16

/-- What a step reads of the process around the file. -/
structure Env where
  /-- `Instant::now()` in `take_expired`. -/
  expiry : Nat
  /-- `Instant::now()` in the arming probe. -/
  probe : Nat
  /-- `Instant::now()` at a run's birth. -/
  birth : Nat
  outstanding : Nat
  coalesceTotalCap : Nat
  /-- `RUN_POOL.take` has a buffer. -/
  pool : Bool
  feeding : Bool

structure Caps where
  file : Nat
  run : Nat
  maxArticle : Nat
  age : Nat

structure Run where
  start : Nat
  buf : List UInt8
  born : Nat
  bornAt : Nat
  merged : Bool

/-- `Run::end`. -/
def Run.stop (r : Run) : Nat := r.start + r.buf.length

structure StagedRun where
  start : Nat
  buf : List UInt8
  merged : Bool
  deriving DecidableEq

def StagedRun.stop (r : StagedRun) : Nat := r.start + r.buf.length

structure WriteStage where
  runs : List Run
  probeStart : Option Nat
  probeBytes : Nat
  armed : Bool
  inflight : List (Nat × Nat)
  seq : Nat

/-- `WriteStage::default`. -/
def WriteStage.new : WriteStage := ⟨[], none, 0, false, [], 0⟩

namespace WriteStage

def overlaps (st : WriteStage) (off stop : Nat) : Bool :=
  (st.runs.any fun r => decide (r.start < stop ∧ off < r.stop)) ||
    st.inflight.any fun x => decide (x.1 < stop ∧ off < x.2)

def held (st : WriteStage) : Nat :=
  (st.runs.map fun r => r.buf.length).sum + (st.inflight.map fun x => x.2 - x.1).sum

def openBytes (st : WriteStage) : Nat := (st.runs.map fun r => r.buf.length).sum

def absorb (run tail : Run) : Run :=
  { run with buf := run.buf ++ tail.buf, bornAt := min run.bornAt tail.bornAt, merged := true }

/-- `take_at`; the index is one of a run. -/
def takeAt (st : WriteStage) (i : Nat) : List StagedRun × WriteStage :=
  match st.runs[i]? with
  | none => ([], st)
  | some r => ([⟨r.start, r.buf, r.merged⟩],
    { st with runs := st.runs.eraseIdx i, inflight := st.inflight ++ [(r.start, r.stop)] })

/-- The loop of `take_expired`. Each round takes a run out, so there are no more rounds than
runs. -/
def takeExpiredLoop (now bound : Nat) : Nat → WriteStage → List StagedRun × WriteStage
  | 0, st => ([], st)
  | rounds + 1, st =>
    match st.runs.findIdx? fun r => decide (bound ≤ now - r.bornAt) with
    | none => ([], st)
    | some i =>
      let (out, st) := st.takeAt i
      let (more, st) := takeExpiredLoop now bound rounds st
      (out ++ more, st)

def takeExpired (st : WriteStage) (now bound : Nat) : List StagedRun × WriteStage :=
  takeExpiredLoop now bound st.runs.length st

/-- `take_all`: every open run, by start. -/
def takeAll (st : WriteStage) : List StagedRun × WriteStage :=
  let runs := st.runs.mergeSort fun a b => decide (a.start ≤ b.start)
  (runs.map fun r => ⟨r.start, r.buf, r.merged⟩,
    { st with runs := [], inflight := st.inflight ++ runs.map fun r => (r.start, r.stop) })

def landed (st : WriteStage) (start stop : Nat) : WriteStage :=
  { st with inflight := st.inflight.erase (start, stop) }

/-- The arming probe of `offer`. -/
def arm (st : WriteStage) (len : Nat) (caps : Caps) (now : Nat) : WriteStage :=
  if st.armed then st
  else
    let st := match st.probeStart with
      | some t =>
        if caps.age = 0 ∨ now - t < caps.age then { st with probeBytes := st.probeBytes + len }
        else { st with probeStart := some now, probeBytes := len }
      | none => { st with probeStart := some now, probeBytes := len }
    if st.probeBytes < caps.run then st else { st with armed := true }

def oldest (runs : List Run) : Option Nat :=
  runs.findIdx? fun r => runs.all fun q => decide (r.born ≤ q.born)

/-- The make-room loop of `offer`, and whether it found room. Each round takes a run out and a
round without runs is the last. -/
def makeRoom (cap offset len : Nat) : Nat → WriteStage → List StagedRun × WriteStage × Bool
  | 0, st => ([], st, false)
  | rounds + 1, st =>
    if cap < st.openBytes + len ∨
        (MAX_RUNS ≤ st.runs.length ∧ ¬ st.runs.any fun r => decide (r.stop = offset)) then
      match oldest st.runs with
      | none => ([], st, false)
      | some i =>
        let (out, st) := st.takeAt i
        let (more, st, room) := makeRoom cap offset len rounds st
        (out ++ more, st, room)
    else ([], st, true)

def closeFull (st : WriteStage) (i runCap : Nat) : List StagedRun × WriteStage :=
  match st.runs[i]? with
  | some r => if runCap ≤ r.buf.length then st.takeAt i else ([], st)
  | none => ([], st)

/-- The run of index `i` with the run that starts where it ends, and its new index. -/
def joinTail (runs : List Run) (i : Nat) : List Run × Nat :=
  match runs[i]? with
  | none => (runs, i)
  | some run =>
    match runs.findIdx? fun r => decide (r.start = run.stop) with
    | none => (runs, i)
    | some j =>
      match runs[j]? with
      | none => (runs, i)
      | some tail =>
        let i := if j < i then i - 1 else i
        ((runs.eraseIdx j).set i (absorb run tail), i)

/-- The incoming bytes continue the run of index `i`. -/
def extendRun (st : WriteStage) (i : Nat) (data : List UInt8) (runCap : Nat) :
    List StagedRun × WriteStage :=
  match st.runs[i]? with
  | none => ([], st)
  | some r =>
    let (runs, i) := joinTail (st.runs.set i { r with buf := r.buf ++ data }) i
    closeFull { st with runs } i runCap

def openRun (st : WriteStage) (offset : Nat) (data : List UInt8) (runCap now : Nat) :
    List StagedRun × WriteStage :=
  let st := { st with seq := st.seq + 1 }
  let run : Run := ⟨offset, data, st.seq, now, false⟩
  let (run, runs) := match st.runs.findIdx? fun r => decide (r.start = run.stop) with
    | none => (run, st.runs)
    | some j =>
      match st.runs[j]? with
      | none => (run, st.runs)
      | some tail => (absorb run tail, st.runs.eraseIdx j)
  closeFull { st with runs := runs ++ [run] } runs.length runCap

/-- `offer`: the runs to write, whether the bytes are held, and the window. -/
def offer (st : WriteStage) (offset : Nat) (data : List UInt8) (caps : Caps) (env : Env) :
    List StagedRun × Bool × WriteStage :=
  let st := st.arm data.length caps env.probe
  if !st.armed then ([], false, st)
  else if caps.maxArticle ≤ data.length then ([], false, st)
  else if env.coalesceTotalCap < env.outstanding + data.length then ([], false, st)
  else
    let (out, st, room) := makeRoom caps.file offset data.length (st.runs.length + 1) st
    if !room then (out, false, st)
    else
      match st.runs.findIdx? fun r => decide (r.stop = offset) with
      | some i =>
        let (more, st) := st.extendRun i data caps.run
        (out ++ more, true, st)
      | none =>
        if !env.pool then (out, false, st)
        else
          let (more, st) := st.openRun offset data caps.run env.birth
          (out ++ more, true, st)

/-! ## The bytes in the window -/

def runBytes (runs : List Run) : List (Nat × UInt8) := runs.flatMap fun r => spread r.start r.buf

def stagedBytes (runs : List StagedRun) : List (Nat × UInt8) :=
  runs.flatMap fun r => spread r.start r.buf

@[simp] theorem runBytes_nil : runBytes [] = [] := rfl

@[simp] theorem runBytes_cons (r : Run) (runs : List Run) :
    runBytes (r :: runs) = spread r.start r.buf ++ runBytes runs := flatMap_cons

@[simp] theorem stagedBytes_nil : stagedBytes [] = [] := rfl

@[simp] theorem stagedBytes_cons (r : StagedRun) (runs : List StagedRun) :
    stagedBytes (r :: runs) = spread r.start r.buf ++ stagedBytes runs := flatMap_cons

@[simp] theorem stagedBytes_append (a b : List StagedRun) :
    stagedBytes (a ++ b) = stagedBytes a ++ stagedBytes b := flatMap_append

theorem runBytes_perm {a b : List Run} (h : a.Perm b) : (runBytes a).Perm (runBytes b) :=
  h.flatMap_right _

theorem stagedBytes_perm {a b : List StagedRun} (h : a.Perm b) :
    (stagedBytes a).Perm (stagedBytes b) := h.flatMap_right _

theorem perm_of_getElem? {α : Type} {l : List α} {i : Nat} {a : α} (h : l[i]? = some a) :
    l.Perm (a :: l.eraseIdx i) := by
  obtain ⟨hi, rfl⟩ := List.getElem?_eq_some_iff.mp h
  exact (getElem_cons_eraseIdx_perm hi).symm

theorem set_perm_of_getElem? {α : Type} {l : List α} {i : Nat} {a : α} (h : l[i]? = some a) (b : α) :
    (l.set i b).Perm (b :: l.eraseIdx i) := by
  obtain ⟨hi, -⟩ := List.getElem?_eq_some_iff.mp h
  exact set_perm_cons_eraseIdx hi b

theorem takeAt_bytes (st : WriteStage) (i : Nat) :
    (stagedBytes (st.takeAt i).1 ++ runBytes (st.takeAt i).2.runs).Perm (runBytes st.runs) := by
  unfold takeAt
  split
  · exact .refl _
  · rename_i r hr
    simpa using (runBytes_perm (perm_of_getElem? hr)).symm

/-- What a first take handed out, the second leaves alone. -/
theorem take_trans {out more : List StagedRun} {a b c : List (Nat × UInt8)}
    (h₁ : (stagedBytes out ++ b).Perm a) (h₂ : (stagedBytes more ++ c).Perm b) :
    (stagedBytes (out ++ more) ++ c).Perm a := by
  rw [stagedBytes_append, append_assoc]
  exact (h₂.append_left _).trans h₁

theorem takeExpiredLoop_bytes (now bound rounds : Nat) : ∀ st : WriteStage,
    (stagedBytes (takeExpiredLoop now bound rounds st).1 ++
      runBytes (takeExpiredLoop now bound rounds st).2.runs).Perm (runBytes st.runs) := by
  induction rounds with
  | zero => exact fun st => .refl _
  | succ rounds ih =>
    intro st
    unfold takeExpiredLoop
    split
    · exact .refl _
    · rename_i i _
      exact take_trans (takeAt_bytes st i) (ih _)

theorem takeAll_bytes (st : WriteStage) :
    (stagedBytes st.takeAll.1).Perm (runBytes st.runs) := by
  have hsort : (st.runs.mergeSort fun a b => decide (a.start ≤ b.start)).Perm st.runs :=
    mergeSort_perm _ _
  have hmap : stagedBytes st.takeAll.1 =
      runBytes (st.runs.mergeSort fun a b => decide (a.start ≤ b.start)) := by
    simp only [takeAll, stagedBytes, runBytes, flatMap_map]
  rw [hmap]
  exact runBytes_perm hsort

theorem makeRoom_bytes (cap offset len rounds : Nat) : ∀ st : WriteStage,
    (stagedBytes (makeRoom cap offset len rounds st).1 ++
      runBytes (makeRoom cap offset len rounds st).2.1.runs).Perm (runBytes st.runs) := by
  induction rounds with
  | zero => exact fun st => .refl _
  | succ rounds ih =>
    intro st
    unfold makeRoom
    split
    · split
      · exact .refl _
      · rename_i i _
        exact take_trans (takeAt_bytes st i) (ih _)
    · exact .refl _

theorem closeFull_bytes (st : WriteStage) (i runCap : Nat) :
    (stagedBytes (st.closeFull i runCap).1 ++ runBytes (st.closeFull i runCap).2.runs).Perm
      (runBytes st.runs) := by
  unfold closeFull
  split
  · split
    · exact takeAt_bytes st i
    · exact .refl _
  · exact .refl _

theorem absorb_bytes {run tail : Run} (h : tail.start = run.stop) :
    spread (absorb run tail).start (absorb run tail).buf =
      spread run.start run.buf ++ spread tail.start tail.buf := by
  rw [h]
  exact spread_append _ _ _

theorem joinTail_cases {runs : List Run} {i : Nat} {run : Run} (hi : runs[i]? = some run)
    (hbuf : run.buf ≠ []) : (joinTail runs i).1 = runs ∨ ∃ tail rest, tail.start = run.stop ∧
      runs.Perm (tail :: run :: rest) ∧ (joinTail runs i).1.Perm (absorb run tail :: rest) := by
  unfold joinTail
  rw [hi]
  dsimp only
  split
  · exact .inl rfl
  · rename_i j hj
    split
    · exact .inl rfl
    · rename_i tail htail
      have hstart : tail.start = run.stop := by
        obtain ⟨hlt, hp, -⟩ := findIdx?_eq_some_iff_getElem.mp hj
        rw [getElem?_eq_getElem hlt, Option.some.injEq] at htail
        rw [← htail]
        exact of_decide_eq_true hp
      -- A run does not start at its own end.
      have hne : j ≠ i := by
        rintro rfl
        rw [hi, Option.some.injEq] at htail
        subst htail
        have := length_pos_of_ne_nil hbuf
        unfold Run.stop at hstart
        omega
      have hrun : (runs.eraseIdx j)[if j < i then i - 1 else i]? = some run := by
        split
        · rw [getElem?_eraseIdx_of_ge (by omega), Nat.sub_add_cancel (by omega), hi]
        · rw [getElem?_eraseIdx_of_lt (by omega), hi]
      exact .inr ⟨tail, _, hstart, (perm_of_getElem? htail).trans ((perm_of_getElem? hrun).cons tail),
        set_perm_of_getElem? hrun (absorb run tail)⟩

theorem joinTail_bytes {runs : List Run} {i : Nat} {run : Run} (hi : runs[i]? = some run)
    (hbuf : run.buf ≠ []) : (runBytes (joinTail runs i).1).Perm (runBytes runs) := by
  rcases joinTail_cases hi hbuf with h | ⟨tail, rest, hstart, hruns, hjoin⟩
  · rw [h]
  · refine (runBytes_perm hjoin).trans (.trans ?_ (runBytes_perm hruns).symm)
    rw [runBytes_cons, runBytes_cons, runBytes_cons, absorb_bytes hstart, ← append_assoc]
    exact perm_append_comm.append_right _

theorem extendRun_bytes {st : WriteStage} {i offset : Nat} {r : Run} {data : List UInt8} {runCap : Nat}
    (hr : st.runs[i]? = some r) (hstop : r.stop = offset) (hdata : data ≠ []) :
    (stagedBytes (st.extendRun i data runCap).1 ++
      runBytes (st.extendRun i data runCap).2.runs).Perm
      (runBytes st.runs ++ spread offset data) := by
  unfold extendRun
  rw [hr]
  refine (closeFull_bytes _ _ _).trans ?_
  obtain ⟨hi, -⟩ := List.getElem?_eq_some_iff.mp hr
  have hget : (st.runs.set i { r with buf := r.buf ++ data })[i]? =
      some { r with buf := r.buf ++ data } := getElem?_set_self hi
  refine (joinTail_bytes hget (by simp [hdata])).trans ?_
  refine (runBytes_perm (set_perm_of_getElem? hr _)).trans ?_
  refine .trans ?_ ((runBytes_perm (perm_of_getElem? hr)).symm.append_right _)
  rw [runBytes_cons, runBytes_cons, spread_append]
  have hoff : r.start + r.buf.length = offset := hstop
  rw [hoff, append_assoc, append_assoc]
  exact perm_append_comm.append_left _

theorem openRun_cases (st : WriteStage) (offset : Nat) (data : List UInt8) (runCap now : Nat) :
    ∃ runs i, st.openRun offset data runCap now = closeFull { st with seq := st.seq + 1, runs } i runCap ∧
      (runs.Perm (⟨offset, data, st.seq + 1, now, false⟩ :: st.runs) ∨
        ∃ tail rest, tail.start = offset + data.length ∧ st.runs.Perm (tail :: rest) ∧
          runs.Perm (absorb ⟨offset, data, st.seq + 1, now, false⟩ tail :: rest)) := by
  unfold openRun
  dsimp only
  split
  · exact ⟨_, _, rfl, .inl (perm_append_singleton _ _)⟩
  · rename_i j hj
    split
    · exact ⟨_, _, rfl, .inl (perm_append_singleton _ _)⟩
    · rename_i tail htail
      have hstart : tail.start = offset + data.length := by
        obtain ⟨hlt, hp, -⟩ := findIdx?_eq_some_iff_getElem.mp hj
        rw [getElem?_eq_getElem hlt, Option.some.injEq] at htail
        rw [← htail]
        exact of_decide_eq_true hp
      exact ⟨_, _, rfl, .inr ⟨tail, _, hstart, perm_of_getElem? htail, perm_append_singleton _ _⟩⟩

theorem openRun_bytes (st : WriteStage) (offset : Nat) (data : List UInt8) (runCap now : Nat) :
    (stagedBytes (st.openRun offset data runCap now).1 ++
      runBytes (st.openRun offset data runCap now).2.runs).Perm
      (runBytes st.runs ++ spread offset data) := by
  obtain ⟨runs, i, heq, hruns⟩ := openRun_cases st offset data runCap now
  rw [heq]
  refine (closeFull_bytes _ _ _).trans (.trans ?_ perm_append_comm)
  rcases hruns with hruns | ⟨tail, rest, hstart, hst, hruns⟩
  · exact runBytes_perm hruns
  · refine (runBytes_perm hruns).trans (.trans ?_ ((runBytes_perm hst).symm.append_left _))
    rw [runBytes_cons, runBytes_cons, absorb_bytes hstart, append_assoc]

theorem arm_runs (st : WriteStage) (len : Nat) (caps : Caps) (now : Nat) :
    (st.arm len caps now).runs = st.runs := by
  unfold arm
  split
  · rfl
  · dsimp only
    split <;> (split <;> (try split)) <;> rfl

/-- `offer` neither drops a byte nor makes one up: what it holds is in the open runs and in the
runs it hands back. -/
theorem offer_bytes (st : WriteStage) (offset : Nat) {data : List UInt8} (hdata : data ≠ [])
    (caps : Caps) (env : Env) :
    (stagedBytes (st.offer offset data caps env).1 ++
      runBytes (st.offer offset data caps env).2.2.runs).Perm
      (runBytes st.runs ++ if (st.offer offset data caps env).2.1 then spread offset data else []) := by
  have harm := arm_runs st data.length caps env.probe
  unfold offer
  revert harm
  generalize st.arm data.length caps env.probe = st'
  intro harm
  rw [← harm]
  dsimp only
  split
  · simp
  split
  · simp
  split
  · simp
  have hroom := makeRoom_bytes caps.file offset data.length (st'.runs.length + 1) st'
  revert hroom
  generalize makeRoom caps.file offset data.length (st'.runs.length + 1) st' = made
  intro hroom
  split
  · simpa using hroom
  split
  · rename_i i hi
    obtain ⟨hlt, hp, -⟩ := findIdx?_eq_some_iff_getElem.mp hi
    have hext := @extendRun_bytes _ _ _ _ data caps.run (getElem?_eq_getElem hlt)
      (of_decide_eq_true hp) hdata
    refine (take_trans (.refl _) hext).trans ?_
    rw [← append_assoc]
    exact hroom.append_right _
  · split
    · simpa using hroom
    · have hopen := openRun_bytes made.2.1 offset data caps.run env.birth
      refine (take_trans (.refl _) hopen).trans ?_
      rw [← append_assoc]
      exact hroom.append_right _

end WriteStage

end NzbFast.Disk
