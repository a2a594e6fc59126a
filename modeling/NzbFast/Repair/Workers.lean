import NzbFast.Repair.Gauss
import NzbFast.Sync.Barrier

/-!
# The inverse fanned out

`invert_parallel_controlled` (`crates/nzbkit-base/src/par2repair/linalg.rs`): rows are
dealt to workers round-robin and never move. Each column has two barriers: before the
first every worker offers a pivot row, between them the owner of the lowest publishes it,
after the second every worker folds its own rows. A step is at most one access to what is
shared, so a run is an interleaving of the workers' steps; the control may become
cancelled between any two of them.
-/

namespace NzbFast.Repair

open Function Gf16 Option
open NzbFast.Gf (Tableau)
open Sync (Barrier)

variable {m threads : Nat}

/-! ## A worker's steps -/

/-- How a worker left its loop. -/
inductive Exit (m : Nat) where
  | cancelled (col : Fin m)
  | singular (col : Fin m)
  | finished
  deriving DecidableEq

/-- Where a worker stands. -/
inductive Pc (m : Nat) where
  /-- `control.cancelled()` -/
  | check (col : Fin m)
  | latch (col : Fin m)
  | scan (col : Fin m)
  /-- the first `barrier.wait()` of the column -/
  | arrive (col : Fin m)
  | waiting (col : Fin m) (generation : Nat)
  | readCancelled (col : Fin m)
  | readPivot (col : Fin m)
  | storeSingular (col : Fin m)
  | publish (col p : Fin m)
  | lockWrite (col p : Fin m)
  /-- holds the write lock -/
  | writing (col p : Fin m)
  /-- the second `barrier.wait()` -/
  | arriveAgain (col p : Fin m)
  | waitingAgain (col p : Fin m) (generation : Nat)
  | lockRead (col p : Fin m)
  /-- holds the read lock -/
  | folding (col p : Fin m)
  | left (e : Exit m)
  deriving DecidableEq

/-- What the workers share. A row is touched by its own worker only. -/
structure Shared (m : Nat) where
  rows : Tableau (Fin m) Gf16
  piv : Fin m → Option (Fin m)
  used : Fin m → Bool
  singular : Bool
  cancelled : Bool
  pivotRows : (Fin m → Gf16) × (Fin m → Gf16)
  barrier : Barrier
  control : Bool

structure World (m threads : Nat) where
  shared : Shared m
  pc : Fin threads → Pc m

/-- The rows dealt to a worker, ascending. -/
def shard (m : Nat) (w : Fin threads) : List (Fin m) :=
  (List.finRange m).filter fun r => r.val % threads = w.val

/-- `p % threads == shard[0].0 % threads`. -/
def owns (w : Fin threads) (p : Fin m) : Bool :=
  (shard m w).head?.any fun r => p.val % threads == r.val % threads

/-- `fetch_min`, with nothing for `usize::MAX`. -/
def fetchMin (o : Option (Fin m)) (r : Fin m) : Option (Fin m) :=
  match o with
  | none => some r
  | some p => some (min p r)

/-- The head of the `for col in 0..m` loop. -/
def nextColumn (m col : Nat) : Pc m := if h : col < m then .check ⟨col, h⟩ else .left .finished

/-- One step of worker `w`, while others hold the read or the write lock; nothing while it is blocked
or has left. -/
def turn (w : Fin threads) (reading writing : Bool) (s : Shared m) : Pc m → Option (Shared m × Pc m)
  | .check col => some (s, if s.control then .latch col else .scan col)
  | .latch col => some ({ s with cancelled := true }, .scan col)
  | .scan col =>
    match (shard m w).find? fun r => !s.used r && s.rows.a r col ≠ 0 with
    | some r => some ({ s with piv := update s.piv col (fetchMin (s.piv col) r) }, .arrive col)
    | none => some (s, .arrive col)
  | .arrive col =>
    some ({ s with barrier := s.barrier.arrive threads },
      if s.barrier.count + 1 < threads then .waiting col s.barrier.generation else .readCancelled col)
  | .waiting col generation =>
    if s.barrier.generation = generation then none else some (s, .readCancelled col)
  | .readCancelled col => some (s, if s.cancelled then .left (.cancelled col) else .readPivot col)
  | .readPivot col =>
    match s.piv col with
    | none => some (s, .storeSingular col)
    | some p => some (s, if owns w p then .publish col p else .arriveAgain col p)
  | .storeSingular col => some ({ s with singular := true }, .left (.singular col))
  | .publish col p =>
    some ({ s with used := update s.used p true, rows := normalize s.rows p col }, .lockWrite col p)
  | .lockWrite col p => if reading || writing then none else some (s, .writing col p)
  | .writing col p =>
    some ({ s with pivotRows := (s.rows.a p, s.rows.inv p) }, .arriveAgain col p)
  | .arriveAgain col p =>
    some ({ s with barrier := s.barrier.arrive threads },
      if s.barrier.count + 1 < threads then .waitingAgain col p s.barrier.generation
      else .lockRead col p)
  | .waitingAgain col p generation =>
    if s.barrier.generation = generation then none else some (s, .lockRead col p)
  | .lockRead col p => if writing then none else some (s, .folding col p)
  | .folding col p =>
    some ({ s with rows := (shard m w).foldl (eliminateRow p col s.pivotRows) s.rows },
      nextColumn m (col.val + 1))
  | .left _ => none

def Pc.reads : Pc m → Bool
  | .folding _ _ => true
  | _ => false

def Pc.writes : Pc m → Bool
  | .writing _ _ => true
  | _ => false

/-- One step of worker `w`. -/
def World.step (s : World m threads) (w : Fin threads) : Option (World m threads) :=
  (turn w (decide (∃ v, (s.pc v).reads)) (decide (∃ v, (s.pc v).writes)) s.shared (s.pc w)).map fun x =>
    ⟨x.1, update s.pc w x.2⟩

def World.start (a : Rows m) : World m threads where
  shared :=
    { rows := augmented a, piv := fun _ => none, used := fun _ => false, singular := false
      cancelled := false, pivotRows := (0, 0), barrier := ⟨0, 0⟩, control := false }
  pc _ := nextColumn m 0

/-- The interleavings: `n` steps of workers, and a control that may become cancelled anywhere. -/
inductive Run (a : Rows m) : Nat → World m threads → Prop where
  | start : Run a 0 (World.start a)
  | step {n : Nat} {s s' : World m threads} (w : Fin threads) : Run a n s → s.step w = some s' →
      Run a (n + 1) s'
  | cancel {n : Nat} {s : World m threads} : Run a n s →
      Run a n { s with shared := { s.shared with control := true } }

/-- What is returned after the join. Each pivot row is taken once: the pivots are distinct. Nothing
where a column without a pivot would be an index out of bounds. -/
def Shared.result (s : Shared m) : Option (Except RepairError (Rows m)) :=
  if s.cancelled then some (.error .cancelled)
  else if s.singular then some (.error .singularMatrix)
  else if h : ∀ col, (s.piv col).isSome then some (.ok fun col => s.rows.inv ((s.piv col).get (h col)))
  else none

/-! ## The clock -/

def Pc.waits : Pc m → Option Nat
  | .waiting _ l | .waitingAgain _ _ l => some l
  | _ => none

/-- The barrier's generation, where a worker stands: two for each column. -/
def Pc.Clock (g : Nat) : Pc m → Prop
  | .check col | .latch col | .scan col | .arrive col => g = 2 * col.val
  | .waiting col l => l = 2 * col.val ∧ (g = l ∨ g = l + 1)
  | .readCancelled col | .readPivot col | .storeSingular col | .publish col _ | .lockWrite col _
  | .writing col _ | .arriveAgain col _ => g = 2 * col.val + 1
  | .waitingAgain col _ l => l = 2 * col.val + 1 ∧ (g = l ∨ g = l + 1)
  | .lockRead col _ | .folding col _ => g = 2 * col.val + 2
  | .left (.cancelled col) | .left (.singular col) => g = 2 * col.val + 1
  | .left .finished => g = 2 * m

theorem clock_nextColumn {col : Nat} (h : col ≤ m) : (nextColumn m col).Clock (2 * col) := by
  unfold nextColumn
  split
  case isTrue => rfl
  case isFalse hge =>
    have hm : col = m := by omega
    rw [hm]
    rfl

theorem nextColumn_cases {motive : Pc m → Prop} (hcheck : ∀ col, motive (.check col))
    (hleft : motive (.left .finished)) (col : Nat) : motive (nextColumn m col) := by
  unfold nextColumn
  split
  · exact hcheck _
  · exact hleft

@[simp] theorem waits_nextColumn (col : Nat) : (nextColumn m col).waits = none :=
  nextColumn_cases (motive := fun q => q.waits = none) (fun _ => rfl) rfl col

/-! ## What a worker knows -/

/-- No verdict ends the column, and `p` is its pivot. -/
structure Going (s : Shared m) (col p : Fin m) : Prop where
  cancelled : s.cancelled = false
  piv : s.piv col = some p

/-- The pivot row is normalized and marked. -/
structure Normal (s : Shared m) (col p : Fin m) : Prop where
  used : s.used p = true
  one : s.rows.a p col = 1

/-- The pivot row is in the shared buffer. -/
structure Published (s : Shared m) (col p : Fin m) : Prop extends Normal s col p where
  buffer : s.pivotRows = (s.rows.a p, s.rows.inv p)

/-- A worker that has scanned left nothing it could have offered. -/
def Scanned (w : Fin threads) (s : Shared m) (col : Fin m) : Prop :=
  ∀ r : Fin m, r.val % threads = w.val → s.used r = false → s.rows.a r col ≠ 0 → s.piv col ≠ none

/-- What holds of the shared state where worker `w` stands. -/
def Pc.Facts (w : Fin threads) (s : Shared m) : Pc m → Prop
  | .latch _ => s.control = true
  | .arrive col => Scanned w s col
  | .waiting col l => s.barrier.generation = l → Scanned w s col
  | .readPivot _ => s.cancelled = false
  | .storeSingular col => s.cancelled = false ∧ s.piv col = none
  | .publish col p => Going s col p ∧ p.val % threads = w.val
  | .lockWrite col p | .writing col p => (Going s col p ∧ p.val % threads = w.val) ∧ Normal s col p
  | .arriveAgain col p => Going s col p ∧ (p.val % threads = w.val → Published s col p)
  | .waitingAgain col p l => s.piv col = some p ∧
      (s.barrier.generation = l → Going s col p ∧ (p.val % threads = w.val → Published s col p))
  | .lockRead col p | .folding col p => s.piv col = some p
  | .left (.cancelled _) => s.cancelled = true
  | .left (.singular col) => (s.cancelled = false ∧ s.piv col = none) ∧ s.singular = true
  | _ => True

/-- A worker's place in the run. -/
structure Local (w : Fin threads) (s : Shared m) (pc : Pc m) : Prop where
  clock : pc.Clock s.barrier.generation
  facts : pc.Facts w s

/-! ## What the rows hold -/

/-- The row a worker still has to fold, and its column. -/
def Pc.pending (g : Nat) : Pc m → Option (Fin m × Fin m)
  | .waitingAgain col p l => if l < g then some (col, p) else none
  | .lockRead col p | .folding col p => some (col, p)
  | _ => none

/-- Row `r` of `V` is the shared one once `pending` has been folded. -/
def Agrees (s : Shared m) (V : Tableau (Fin m) Gf16) (r : Fin m) : Option (Fin m × Fin m) → Prop
  | none => V.a r = s.rows.a r ∧ V.inv r = s.rows.inv r
  | some (col, p) => V.a r = (eliminateRow p col s.pivotRows s.rows r).a r ∧
      V.inv r = (eliminateRow p col s.pivotRows s.rows r).inv r

/-- `V` is the tableau once every worker has done what is pending. -/
def Covers (s : World m threads) (V : Tableau (Fin m) Gf16) : Prop :=
  ∀ (w : Fin threads) (r : Fin m), r.val % threads = w.val →
    Agrees s.shared V r ((s.pc w).pending s.shared.barrier.generation)

/-- The pivots of the first `c` columns. -/
def settled (c : Nat) (piv : Fin m → Option (Fin m)) (j : Fin m) : Option (Fin m) :=
  if j.val < c then piv j else none

/-- The tableau is reduced in the columns behind the clock. -/
structure Data (a : Rows m) (s : Shared m) (V : Tableau (Fin m) Gf16) : Prop where
  reached : V.From a
  reduced : V.Reduced (settled (s.barrier.generation / 2) s.piv)
  behind : ∀ j : Fin m, j.val < s.barrier.generation / 2 → s.piv j ≠ none
  ahead : ∀ j : Fin m, s.barrier.generation / 2 < j.val → s.piv j = none
  candidate : ∀ col p : Fin m, col.val = s.barrier.generation / 2 → s.piv col = some p →
    (∀ j, settled (s.barrier.generation / 2) s.piv j ≠ some p) ∧ V.a p col ≠ 0
  marked : ∀ j r, settled (s.barrier.generation / 2) s.piv j = some r → s.used r = true
  taken : ∀ r, s.used r = true → ∃ j : Fin m, j.val ≤ s.barrier.generation / 2 ∧ s.piv j = some r ∧
    (j.val = s.barrier.generation / 2 → s.barrier.generation % 2 = 1)
  stuck : s.barrier.generation % 2 = 1 → ∀ col : Fin m, col.val = s.barrier.generation / 2 →
    s.piv col = none → ∀ r, (∀ j, settled (s.barrier.generation / 2) s.piv j ≠ some r) → V.a r col = 0

/-- The flags, and when they can be up. -/
structure Flags (s : Shared m) : Prop where
  control : s.cancelled = true → s.control = true
  cancelled : s.cancelled = true → s.barrier.generation < 2 * m
  singular : s.singular = true → s.barrier.generation % 2 = 1 ∧
    ∀ col : Fin m, col.val = s.barrier.generation / 2 → s.piv col = none

structure Inv (a : Rows m) (s : World m threads) : Prop where
  counts : s.shared.barrier.Counts fun w => (s.pc w).waits
  locals : ∀ w, Local w s.shared (s.pc w)
  flags : Flags s.shared
  data : ∃ V, Covers s V ∧ Data a s.shared V

theorem inv_start (a : Rows m) (hthreads : 0 < threads) : Inv a (World.start a : World m threads) where
  counts := Sync.Barrier.counts_start hthreads fun _ => waits_nextColumn 0
  locals w := ⟨clock_nextColumn (Nat.zero_le m), nextColumn_cases (fun _ => trivial) trivial 0⟩
  flags := ⟨fun h => (by cases h), fun h => (by cases h), fun h => (by cases h)⟩
  data := by
    have hsettled : settled ((World.start a : World m threads).shared.barrier.generation / 2)
        (World.start a : World m threads).shared.piv = fun _ => none := funext fun j => ite_self none
    refine ⟨augmented a, fun w r _ => ?_, Tableau.from_start a, ?_, fun j hj => ?_, fun _ _ => rfl,
      fun _ _ _ h => (by cases h), fun j r h => ?_, fun _ h => (by cases h), fun h => ?_⟩
    · exact nextColumn_cases (motive := fun q => Agrees _ _ r (q.pending 0)) (fun _ => ⟨rfl, rfl⟩) ⟨rfl, rfl⟩ 0
    · rw [hsettled]
      exact Tableau.reduced_start _
    · simp [World.start] at hj
    · rw [hsettled] at h
      cases h
    · simp [World.start] at h

/-! ## Shards -/

theorem mem_shard {w : Fin threads} {r : Fin m} : r ∈ shard m w ↔ r.val % threads = w.val := by
  unfold shard
  rw [List.mem_filter, decide_eq_true_iff, and_iff_right (List.mem_finRange r)]

theorem nodup_shard (w : Fin threads) : (shard m w).Nodup := (List.nodup_finRange m).filter _

variable {col p : Fin m} {s sh : Shared m}

/-- No shard is empty, so its first row tells its worker. -/
theorem owns_iff (hle : threads ≤ m) {w : Fin threads} :
    owns w p = true ↔ p.val % threads = w.val := by
  have hmem : (⟨w.val, w.isLt.trans_le hle⟩ : Fin m) ∈ shard m w :=
    mem_shard.mpr (Nat.mod_eq_of_lt w.isLt)
  unfold owns
  cases hhead : (shard m w).head? with
  | none =>
    rw [List.head?_eq_none_iff.mp hhead] at hmem
    cases hmem
  | some r =>
    rw [any_some, beq_iff_eq, mem_shard.mp (List.mem_of_mem_head? hhead)]

theorem owner (hthreads : 0 < threads) (r : Fin m) : ∃ w : Fin threads, r.val % threads = w.val :=
  ⟨⟨r.val % threads, Nat.mod_lt _ hthreads⟩, rfl⟩

/-! ## What a step leaves to the others -/

/-- What worker `v` relies on while another steps: at an even clock its scan, at an odd one the
verdict and its own publication. -/
structure Frame (v : Fin threads) (s sh : Shared m) : Prop where
  generation : sh.barrier.generation = s.barrier.generation
  control : s.control = true → sh.control = true
  cancelled : s.cancelled = true → sh.cancelled = true
  singular : s.singular = true → sh.singular = true
  scanned : ∀ col : Fin m, s.barrier.generation = 2 * col.val → Scanned v s col → Scanned v sh col
  going : ∀ col : Fin m, s.barrier.generation = 2 * col.val + 1 → s.cancelled = false →
    sh.cancelled = false
  piv : ∀ col : Fin m, s.barrier.generation = 2 * col.val + 1 ∨ s.barrier.generation = 2 * col.val + 2 →
    sh.piv col = s.piv col
  normal : ∀ col p : Fin m, s.barrier.generation = 2 * col.val + 1 → Going s col p →
    p.val % threads = v.val → Normal s col p → Normal sh col p
  published : ∀ col p : Fin m, s.barrier.generation = 2 * col.val + 1 → Going s col p →
    p.val % threads = v.val → Published s col p → Published sh col p

theorem Normal.congr (h : Normal s col p) (hused : sh.used = s.used) (hrows : sh.rows = s.rows) :
    Normal sh col p := ⟨hused ▸ h.used, hrows ▸ h.one⟩

theorem Published.congr (h : Published s col p) (hused : sh.used = s.used)
    (hrows : sh.rows = s.rows) (hbuffer : sh.pivotRows = s.pivotRows) :
    Published sh col p := ⟨h.toNormal.congr hused hrows, by rw [hbuffer, hrows, h.buffer]⟩

theorem Frame.refl (v : Fin threads) (s : Shared m) : Frame v s s :=
  ⟨rfl, id, id, id, fun _ _ h => h, fun _ _ h => h, fun _ _ => rfl, fun _ _ _ _ _ h => h,
    fun _ _ _ _ _ h => h⟩

theorem Frame.moves {v : Fin threads} (hf : Frame v s sh)
    (hg : s.barrier.generation = 2 * col.val + 1) (h : Going s col p) : Going sh col p :=
  ⟨hf.going col hg h.cancelled, (hf.piv col (.inl hg)).trans h.piv⟩

theorem Frame.facts {v : Fin threads} (hf : Frame v s sh) {pc : Pc m} (h : Local v s pc) :
    pc.Facts v sh := by
  obtain ⟨hclock, hfacts⟩ := h
  have hgen := hf.generation
  cases pc with
  | check | scan | readCancelled => trivial
  | latch => exact hf.control hfacts
  | arrive col => exact hf.scanned col hclock hfacts
  | waiting col l =>
    obtain ⟨rfl, -⟩ := hclock
    intro hl
    rw [hgen] at hl
    exact hf.scanned col hl (hfacts hl)
  | readPivot col => exact hf.going col hclock hfacts
  | storeSingular col =>
    exact ⟨hf.going col hclock hfacts.1, (hf.piv col (.inl hclock)).trans hfacts.2⟩
  | publish col p => exact ⟨hf.moves hclock hfacts.1, hfacts.2⟩
  | lockWrite col p | writing col p =>
    exact ⟨⟨hf.moves hclock hfacts.1.1, hfacts.1.2⟩, hf.normal col p hclock hfacts.1.1 hfacts.1.2 hfacts.2⟩
  | arriveAgain col p =>
    exact ⟨hf.moves hclock hfacts.1, fun hp => hf.published col p hclock hfacts.1 hp (hfacts.2 hp)⟩
  | waitingAgain col p l =>
    obtain ⟨rfl, hg⟩ := hclock
    refine ⟨(hf.piv col hg).trans hfacts.1, fun hl => ?_⟩
    rw [hgen] at hl
    exact ⟨hf.moves hl (hfacts.2 hl).1, fun hp => hf.published col p hl (hfacts.2 hl).1 hp ((hfacts.2 hl).2 hp)⟩
  | lockRead col p | folding col p => exact (hf.piv col (.inr hclock)).trans hfacts
  | left e =>
    cases e with
    | cancelled => exact hf.cancelled hfacts
    | singular col =>
      exact ⟨⟨hf.going col hclock hfacts.1.1, (hf.piv col (.inl hclock)).trans hfacts.1.2⟩,
        hf.singular hfacts.2⟩
    | finished => trivial

/-- The reduction does not see the flags and the buffer. -/
theorem Data.congr {a : Rows m} {V : Tableau (Fin m) Gf16} (h : Data a s V)
    (hgen : sh.barrier.generation = s.barrier.generation) (hpiv : sh.piv = s.piv)
    (hused : sh.used = s.used) : Data a sh V := by
  obtain ⟨h1, h2, h3, h4, h5, h6, h7, h8⟩ := h
  rw [← hgen, ← hpiv] at h2 h3 h4 h5 h6 h7 h8
  rw [← hused] at h6 h7
  exact ⟨h1, h2, h3, h4, h5, h6, h7, h8⟩

/-! ## Steps away from the barrier -/

section Steps

variable {a : Rows m} {s : World m threads} {w : Fin threads}

variable {q : Pc m}

/-- A step that leaves the barrier alone. -/
theorem Inv.effect (h : Inv a s) {sh : Shared m} (hbarrier : sh.barrier = s.shared.barrier)
    (hw : (s.pc w).waits ≠ some s.shared.barrier.generation) (hq : q.waits = none)
    (hlocal : Local w sh q) (hothers : ∀ v, v ≠ w → Frame v s.shared sh) (hflags : Flags sh)
    (hdata : ∃ V, Covers (⟨sh, update s.pc w q⟩ : World m threads) V ∧ Data a sh V) :
    Inv a (⟨sh, update s.pc w q⟩ : World m threads) where
  counts := by
    dsimp only
    rw [hbarrier]
    refine h.counts.move hw (fun g hg => ?_) fun v hv => ?_
    · rw [update_self, hq] at hg
      cases hg
    · rw [update_of_ne hv]
  locals := (forall_update_iff s.pc fun v q => Local v sh q).mpr
    ⟨hlocal, fun v hv => ⟨hbarrier ▸ (h.locals v).clock, (hothers v hv).facts (h.locals v)⟩⟩
  flags := hflags
  data := hdata

theorem Covers.move {V : Tableau (Fin m) Gf16} (h : Covers s V) {sh : Shared m}
    (hgen : sh.barrier.generation = s.shared.barrier.generation) (hrows : sh.rows = s.shared.rows)
    (hbuffer : sh.pivotRows = s.shared.pivotRows)
    (hq : q.pending s.shared.barrier.generation = (s.pc w).pending s.shared.barrier.generation) :
    Covers (⟨sh, update s.pc w q⟩ : World m threads) V := by
  intro v r hr
  have hagree := h v r hr
  have hpc := (forall_update_iff s.pc fun v q => q.pending s.shared.barrier.generation =
    (s.pc v).pending s.shared.barrier.generation).mpr ⟨hq, fun _ _ => rfl⟩ v
  rw [hgen, hpc]
  generalize (s.pc v).pending s.shared.barrier.generation = o at hagree ⊢
  cases o with
  | none =>
    unfold Agrees at hagree ⊢
    rwa [hrows]
  | some x =>
    unfold Agrees at hagree ⊢
    rwa [hrows, hbuffer]

/-- A step that changes nothing shared. -/
theorem Inv.quiet (h : Inv a s) {q : Pc m} (hw : (s.pc w).waits ≠ some s.shared.barrier.generation)
    (hq : q.waits = none) (hlocal : Local w s.shared q)
    (hpending : q.pending s.shared.barrier.generation = (s.pc w).pending s.shared.barrier.generation) :
    Inv a (⟨s.shared, update s.pc w q⟩ : World m threads) := by
  obtain ⟨V, hV, hdata⟩ := h.data
  exact h.effect rfl hw hq hlocal (fun v _ => .refl v s.shared) h.flags
    ⟨V, hV.move rfl rfl rfl hpending, hdata⟩

variable {col p : Fin m}

theorem Inv.here (h : Inv a s) {q : Pc m} (hpc : s.pc w = q) : Local w s.shared q := hpc ▸ h.locals w

theorem waits_ne (h : q.waits = none) (g : Nat) : q.waits ≠ some g := by
  rw [h]
  exact (some_ne_none g).symm

/-- The control is read before the barrier. -/
theorem Inv.check (h : Inv a s) (hpc : s.pc w = .check col) :
    Inv a (⟨s.shared, update s.pc w (if s.shared.control then .latch col else .scan col)⟩ :
      World m threads) := by
  have hlocal := h.here hpc
  refine h.quiet (hpc ▸ waits_ne rfl _) ?_ ?_ ?_
  · split
    · rfl
    · rfl
  · split
    case isTrue hcontrol => exact ⟨hlocal.clock, hcontrol⟩
    case isFalse => exact ⟨hlocal.clock, trivial⟩
  · rw [hpc]
    split
    · rfl
    · rfl

/-- The latch is set at an even clock, when nobody relies on it. -/
theorem Inv.latch (h : Inv a s) (hpc : s.pc w = .latch col) :
    Inv a (⟨{ s.shared with cancelled := true }, update s.pc w (.scan col)⟩ : World m threads) := by
  have hlocal := h.here hpc
  have hclock : s.shared.barrier.generation = 2 * col.val := hlocal.clock
  obtain ⟨V, hV, hdata⟩ := h.data
  refine h.effect rfl (hpc ▸ waits_ne rfl _) rfl ⟨hlocal.clock, trivial⟩ (fun v _ =>
      ⟨rfl, id, fun _ => rfl, id, fun _ _ hs => hs, fun c hc => by omega, fun _ _ => rfl,
        fun _ _ _ _ _ hn => hn.congr rfl rfl, fun _ _ _ _ _ hp => hp.congr rfl rfl rfl⟩)
    ⟨fun _ => hlocal.facts, fun _ => ?_, h.flags.singular⟩
    ⟨V, hV.move rfl rfl rfl (by rw [hpc]; rfl), hdata.congr rfl rfl rfl⟩
  show s.shared.barrier.generation < 2 * m
  omega

theorem Inv.readCancelled (h : Inv a s) (hpc : s.pc w = .readCancelled col) :
    Inv a (⟨s.shared, update s.pc w (if s.shared.cancelled then .left (.cancelled col)
      else .readPivot col)⟩ : World m threads) := by
  have hlocal := h.here hpc
  refine h.quiet (hpc ▸ waits_ne rfl _) ?_ ?_ ?_
  · split
    · rfl
    · rfl
  · split
    case isTrue hc => exact ⟨hlocal.clock, hc⟩
    case isFalse hc => exact ⟨hlocal.clock, Bool.eq_false_of_not_eq_true hc⟩
  · rw [hpc]
    split
    · rfl
    · rfl

theorem Inv.storeSingular (h : Inv a s) (hpc : s.pc w = .storeSingular col) :
    Inv a (⟨{ s.shared with singular := true }, update s.pc w (.left (.singular col))⟩ :
      World m threads) := by
  have hlocal := h.here hpc
  have hclock : s.shared.barrier.generation = 2 * col.val + 1 := hlocal.clock
  obtain ⟨V, hV, hdata⟩ := h.data
  refine h.effect rfl (hpc ▸ waits_ne rfl _) rfl ⟨hlocal.clock, hlocal.facts, rfl⟩ (fun v _ =>
      ⟨rfl, id, id, fun _ => rfl, fun _ _ hs => hs, fun _ _ hc => hc, fun _ _ => rfl,
        fun _ _ _ _ _ hn => hn.congr rfl rfl, fun _ _ _ _ _ hp => hp.congr rfl rfl rfl⟩)
    ⟨h.flags.control, h.flags.cancelled, fun _ => ⟨?_, fun c hc => ?_⟩⟩
    ⟨V, hV.move rfl rfl rfl (by rw [hpc]; rfl), hdata.congr rfl rfl rfl⟩
  · show s.shared.barrier.generation % 2 = 1
    omega
  · have hcol : c = col := Fin.ext (by rw [hc]; show s.shared.barrier.generation / 2 = col.val; omega)
    rw [hcol]
    exact hlocal.facts.2

theorem Inv.readPivot (hle : threads ≤ m) (h : Inv a s) (hpc : s.pc w = .readPivot col) {q : Pc m}
    (hq : s.shared.piv col = none ∧ q = .storeSingular col ∨ ∃ p, s.shared.piv col = some p ∧
      q = if owns w p then .publish col p else .arriveAgain col p) :
    Inv a (⟨s.shared, update s.pc w q⟩ : World m threads) := by
  have hlocal := h.here hpc
  rcases hq with ⟨hnone, rfl⟩ | ⟨p, hp, rfl⟩
  · exact h.quiet (hpc ▸ waits_ne rfl _) rfl ⟨hlocal.clock, hlocal.facts, hnone⟩ (by rw [hpc]; rfl)
  · split
    case isTrue howns =>
      exact h.quiet (hpc ▸ waits_ne rfl _) rfl
        ⟨hlocal.clock, ⟨hlocal.facts, hp⟩, (owns_iff hle).mp howns⟩ (by rw [hpc]; rfl)
    case isFalse howns =>
      exact h.quiet (hpc ▸ waits_ne rfl _) rfl
        ⟨hlocal.clock, ⟨hlocal.facts, hp⟩, fun hown => absurd ((owns_iff hle).mpr hown) howns⟩
        (by rw [hpc]; rfl)

theorem Inv.scan_none (h : Inv a s) (hpc : s.pc w = .scan col)
    (hnone : (shard m w).find? (fun r => !s.shared.used r && s.shared.rows.a r col ≠ 0) = none) :
    Inv a (⟨s.shared, update s.pc w (.arrive col)⟩ : World m threads) := by
  have hlocal := h.here hpc
  refine h.quiet (hpc ▸ waits_ne rfl _) rfl ⟨hlocal.clock, fun r hr hused hne => ?_⟩ (by rw [hpc]; rfl)
  have hskip := List.find?_eq_none.mp hnone r (mem_shard.mpr hr)
  simp [hused, hne] at hskip

theorem fetchMin_cases (o : Option (Fin m)) (r : Fin m) :
    fetchMin o r = some r ∨ fetchMin o r = o ∧ o ≠ none := by
  cases o with
  | none => exact .inl rfl
  | some p =>
    rcases le_total p r with hle | hle
    · exact .inr ⟨congrArg some (min_eq_left hle), some_ne_none p⟩
    · exact .inl (congrArg some (min_eq_right hle))

theorem fetchMin_ne_none (o : Option (Fin m)) (r : Fin m) : fetchMin o r ≠ none := by
  rcases fetchMin_cases o r with h | ⟨h, hne⟩
  · rw [h]
    exact some_ne_none r
  · rwa [h]

/-- A scan that offers a row: the columns behind the clock keep their pivots. -/
theorem Inv.scan_some (h : Inv a s) (hpc : s.pc w = .scan col) {r : Fin m}
    (hr : (shard m w).find? (fun r => !s.shared.used r && s.shared.rows.a r col ≠ 0) = some r) :
    Inv a (⟨{ s.shared with piv := update s.shared.piv col (fetchMin (s.shared.piv col) r) },
      update s.pc w (.arrive col)⟩ : World m threads) := by
  have hlocal := h.here hpc
  have hclock : s.shared.barrier.generation = 2 * col.val := hlocal.clock
  obtain ⟨V, hV, hdata⟩ := h.data
  have hcovers := hV w r (mem_shard.mp (List.mem_of_find?_eq_some hr))
  rw [hpc] at hcovers
  have hoffer := List.find?_some hr
  rw [Bool.and_eq_true, Bool.not_eq_true', decide_eq_true_iff] at hoffer
  have hother : ∀ c : Fin m, c ≠ col → update s.shared.piv col (fetchMin (s.shared.piv col) r) c =
      s.shared.piv c := fun c hc => update_of_ne hc _ _
  have hsettled : settled (s.shared.barrier.generation / 2)
      (update s.shared.piv col (fetchMin (s.shared.piv col) r)) =
        settled (s.shared.barrier.generation / 2) s.shared.piv := by
    funext j
    unfold settled
    split
    case isTrue hj => exact hother j fun heq => by rw [heq] at hj; omega
    case isFalse => rfl
  refine h.effect rfl (hpc ▸ waits_ne rfl _) rfl ⟨hlocal.clock, fun _ _ _ _ => ?_⟩ (fun v _ => ?_)
    ⟨h.flags.control, h.flags.cancelled, fun hs => ?_⟩ ⟨V, hV.move rfl rfl rfl (by rw [hpc]; rfl), ?_⟩
  · dsimp only
    rw [update_self]
    exact fetchMin_ne_none _ _
  · refine ⟨rfl, id, id, id, fun c hc _ _ _ _ _ => ?_, fun _ _ hc => hc, fun c hc => ?_,
      fun _ _ _ _ _ hn => hn.congr rfl rfl, fun _ _ _ _ _ hp => hp.congr rfl rfl rfl⟩
    · have hcol : c = col := Fin.ext (by omega)
      rw [hcol]
      dsimp only
      rw [update_self]
      exact fetchMin_ne_none _ _
    · exact hother c fun heq => by rw [heq] at hc; omega
  · have := (h.flags.singular hs).1
    omega
  · obtain ⟨hreached, hreduced, hbehind, hahead, hcandidate, hmarked, htaken, hstuck⟩ := hdata
    refine ⟨hreached, ?_, fun j hj => ?_, fun j hj => ?_, fun c p hc hp => ?_, fun j q hq => ?_,
      fun q hq => ?_, fun hodd => ?_⟩
    · dsimp only
      rwa [hsettled]
    · dsimp only at hj ⊢
      rw [hother j fun heq => by rw [heq] at hj; omega]
      exact hbehind j hj
    · dsimp only at hj ⊢
      rw [hother j fun heq => by rw [heq] at hj; omega]
      exact hahead j hj
    · dsimp only at hc hp ⊢
      have hcol : c = col := Fin.ext (by omega)
      rw [hcol, update_self] at hp
      rw [hsettled, hcol]
      rcases fetchMin_cases (s.shared.piv col) r with hmin | ⟨hmin, -⟩
      · -- the row just offered
        obtain rfl := some.inj (hmin.symm.trans hp)
        refine ⟨fun j hj => ?_, ?_⟩
        · rw [hmarked j r hj] at hoffer
          exact Bool.false_ne_true hoffer.1.symm
        · rw [hcovers.1]
          exact hoffer.2
      · rw [hmin] at hp
        exact hcandidate col p (by omega) hp
    · dsimp only at hq
      rw [hsettled] at hq
      exact hmarked j q hq
    · obtain ⟨j, hj, hpiv, hodd⟩ := htaken q hq
      refine ⟨j, hj, ?_, hodd⟩
      dsimp only
      rw [hother j fun heq => by have := hodd (by rw [heq]; omega); omega]
      exact hpiv
    · dsimp only at hodd
      omega

theorem pending_odd {pc : Pc m} {g : Nat} (hclock : pc.Clock g) (hodd : g % 2 = 1) :
    pc.pending g = none := by
  cases pc with
  | waitingAgain col p l =>
    obtain ⟨hl, hg⟩ := hclock
    exact if_neg (by omega)
  | lockRead col p | folding col p =>
    have hg : g = 2 * col.val + 2 := hclock
    omega
  | _ => rfl

/-- At an odd clock the shared rows are the reduced tableau. -/
theorem Inv.data_odd (hthreads : 0 < threads) (h : Inv a s)
    (hodd : s.shared.barrier.generation % 2 = 1) : Data a s.shared s.shared.rows := by
  obtain ⟨V, hV, hdata⟩ := h.data
  have hagree : ∀ r, V.a r = s.shared.rows.a r ∧ V.inv r = s.shared.rows.inv r := fun r => by
    obtain ⟨v, hv⟩ := owner hthreads r
    have hr := hV v r hv
    rwa [pending_odd (h.locals v).clock hodd] at hr
  have hrows : V = s.shared.rows :=
    Tableau.ext (funext fun r => (hagree r).1) (funext fun r => (hagree r).2)
  rwa [hrows] at hdata

theorem covers_odd (hodd : s.shared.barrier.generation % 2 = 1)
    (hclock : ∀ v, (s.pc v).Clock s.shared.barrier.generation) : Covers s s.shared.rows := by
  intro v r _
  rw [pending_odd (hclock v) hodd]
  exact ⟨rfl, rfl⟩

/-- The owner normalizes the pivot row and marks it. -/
theorem Inv.publish (hthreads : 0 < threads) (h : Inv a s) (hpc : s.pc w = .publish col p) :
    Inv a (⟨{ s.shared with used := update s.shared.used p true, rows := normalize s.shared.rows p col },
      update s.pc w (.lockWrite col p)⟩ : World m threads) := by
  have hlocal := h.here hpc
  have hclock : s.shared.barrier.generation = 2 * col.val + 1 := hlocal.clock
  obtain ⟨hgoing, hown⟩ := hlocal.facts
  have hdata := h.data_odd hthreads (by omega)
  obtain ⟨hfresh, hne⟩ := hdata.candidate col p (by omega) hgoing.piv
  have hscale := normalize_eq hne
  have hone := Tableau.scale_one hne
  have hkeep : ∀ r : Fin m, r ≠ p →
      (s.shared.rows.scale p (s.shared.rows.a p col)⁻¹).a r = s.shared.rows.a r ∧
      (s.shared.rows.scale p (s.shared.rows.a p col)⁻¹).inv r = s.shared.rows.inv r := fun r hr =>
    ⟨update_of_ne hr _ _, update_of_ne hr _ _⟩
  rw [hscale]
  have hodd : s.shared.barrier.generation % 2 = 1 := by omega
  refine h.effect rfl (hpc ▸ waits_ne rfl _) rfl
    ⟨hlocal.clock, ⟨⟨hgoing.cancelled, hgoing.piv⟩, hown⟩, update_self p true s.shared.used, hone⟩ (fun v hv => ?_)
    ⟨h.flags.control, h.flags.cancelled, h.flags.singular⟩
    ⟨s.shared.rows.scale p (s.shared.rows.a p col)⁻¹, ?_, ?_⟩
  · -- nobody else owns the row
    have hother : ∀ q : Fin m, q.val % threads = v.val → q ≠ p := fun q hq heq =>
      hv (Fin.ext (by rw [← hq, heq, hown]))
    have hnormal : ∀ c q : Fin m, q.val % threads = v.val → Normal s.shared c q →
        Normal { s.shared with
          used := update s.shared.used p true
          rows := s.shared.rows.scale p (s.shared.rows.a p col)⁻¹ } c q := fun c q hq hn =>
      ⟨(update_of_ne (hother q hq) _ _).trans hn.used,
        (congrFun (hkeep q (hother q hq)).1 c).trans hn.one⟩
    refine ⟨rfl, id, id, id, fun c hc => by omega, fun _ _ hc => hc, fun _ _ => rfl,
      fun c q _ _ hq hn => hnormal c q hq hn, fun c q _ _ hq hn => ⟨hnormal c q hq hn.toNormal, ?_⟩⟩
    rw [(hkeep q (hother q hq)).1, (hkeep q (hother q hq)).2]
    exact hn.buffer
  · refine covers_odd hodd <|
      (forall_update_iff s.pc fun _ q => q.Clock s.shared.barrier.generation).mpr
        ⟨hlocal.clock, fun v _ => (h.locals v).clock⟩
  · obtain ⟨hreached, hreduced, hbehind, hahead, hcandidate, hmarked, htaken, hstuck⟩ := hdata
    refine ⟨hreached.scale p (inv_ne_zero hne), hreduced.scale hfresh _, hbehind, hahead,
      fun c q hc hq => ?_, fun j q hq => ?_, fun q hq => ?_, fun _ c hc hnone => ?_⟩
    · obtain rfl : c = col := Fin.ext (by dsimp only at hc; omega)
      obtain rfl := some.inj (hgoing.piv.symm.trans hq)
      exact ⟨hfresh, fun hzero => one_ne_zero (hone.symm.trans hzero)⟩
    · dsimp only
      by_cases hqp : q = p
      · rw [hqp, update_self]
      · rw [update_of_ne hqp]
        exact hmarked j q hq
    · by_cases hqp : q = p
      · exact ⟨col, by dsimp only; omega, hqp ▸ hgoing.piv, fun _ => hodd⟩
      · dsimp only at hq
        rw [update_of_ne hqp] at hq
        exact htaken q hq
    · obtain rfl : c = col := Fin.ext (by dsimp only at hc; omega)
      exact absurd (hgoing.piv.symm.trans hnone) (some_ne_none p)

/-- The owner copies the row into the shared buffer. -/
theorem Inv.writing (h : Inv a s) (hpc : s.pc w = .writing col p) :
    Inv a (⟨{ s.shared with pivotRows := (s.shared.rows.a p, s.shared.rows.inv p) },
      update s.pc w (.arriveAgain col p)⟩ : World m threads) := by
  have hlocal := h.here hpc
  have hclock : s.shared.barrier.generation = 2 * col.val + 1 := hlocal.clock
  obtain ⟨⟨hgoing, hown⟩, hnormal⟩ := hlocal.facts
  have hodd : s.shared.barrier.generation % 2 = 1 := by omega
  have hdata := h.data_odd (w.pos) hodd
  refine h.effect rfl (hpc ▸ waits_ne rfl _) rfl
    ⟨hlocal.clock, ⟨hgoing.cancelled, hgoing.piv⟩, fun _ => ⟨hnormal.congr rfl rfl, rfl⟩⟩ (fun v hv => ?_)
    ⟨h.flags.control, h.flags.cancelled, h.flags.singular⟩
    ⟨s.shared.rows, covers_odd hodd <|
      (forall_update_iff s.pc fun _ q => q.Clock s.shared.barrier.generation).mpr
        ⟨hlocal.clock, fun v _ => (h.locals v).clock⟩, hdata.congr rfl rfl rfl⟩
  -- the only pivot row of the column has another owner
  refine ⟨rfl, id, id, id, fun c hc => by omega, fun _ _ hc => hc, fun _ _ => rfl,
    fun _ _ _ _ _ hn => hn.congr rfl rfl, fun c q hc hq hown' _ => ?_⟩
  obtain rfl : c = col := Fin.ext (by omega)
  obtain rfl := some.inj (hgoing.piv.symm.trans hq.piv)
  exact absurd (Fin.ext (hown'.symm.trans hown)) hv

/-- A worker folds its own rows, which are then done for the column. -/
theorem Inv.folding (h : Inv a s) (hpc : s.pc w = .folding col p) :
    Inv a (⟨{ s.shared with
        rows := (shard m w).foldl (eliminateRow p col s.shared.pivotRows) s.shared.rows },
      update s.pc w (nextColumn m (col.val + 1))⟩ : World m threads) := by
  have hlocal := h.here hpc
  have hclock : s.shared.barrier.generation = 2 * col.val + 2 := hlocal.clock
  obtain ⟨V, hV, hdata⟩ := h.data
  have hfold := foldl_eliminateRow (nodup_shard w) p col s.shared.pivotRows s.shared.rows
  have hkeep : ∀ (v : Fin threads) (r : Fin m), v ≠ w → r.val % threads = v.val →
      ((shard m w).foldl (eliminateRow p col s.shared.pivotRows) s.shared.rows).a r = s.shared.rows.a r ∧
      ((shard m w).foldl (eliminateRow p col s.shared.pivotRows) s.shared.rows).inv r =
        s.shared.rows.inv r := fun v r hv hr => by
    have hout : ¬ (r ∈ shard m w ∧ r ≠ p) := fun hmem =>
      hv (Fin.ext (hr.symm.trans (mem_shard.mp hmem.1)))
    rw [(hfold r).1, (hfold r).2, if_neg hout, if_neg hout]
    exact ⟨rfl, rfl⟩
  refine h.effect rfl (hpc ▸ waits_ne rfl _) (waits_nextColumn _)
    ⟨?_, nextColumn_cases (fun _ => trivial) trivial _⟩ (fun v hv => ?_)
    ⟨h.flags.control, h.flags.cancelled, h.flags.singular⟩ ⟨V, fun v r hr => ?_, hdata.congr rfl rfl rfl⟩
  · have hnext := clock_nextColumn col.isLt
    rwa [hclock]
  · refine ⟨rfl, id, id, id, fun c _ hs r hr hused hne => ?_, fun _ _ hc => hc, fun _ _ => rfl,
      fun c _ hc => by omega, fun c _ hc => by omega⟩
    rw [(hkeep v r hv hr).1] at hne
    exact hs r hr hused hne
  · have hagree := hV v r hr
    dsimp only
    by_cases hv : v = w
    · rw [hv, hpc] at hagree
      rw [hv, update_self, nextColumn_cases (motive := fun q => q.pending _ = none) (fun _ => rfl) rfl]
      obtain ⟨ha, hinv⟩ := hagree
      have hmem : r ∈ shard m w := mem_shard.mpr (hv ▸ hr)
      have hcond : r ∈ shard m w ∧ r ≠ p ↔ r = r ∧ r ≠ p := by simp [hmem]
      refine ⟨ha.trans ?_, hinv.trans ?_⟩
      · rw [(eliminateRow_apply p col s.shared.pivotRows s.shared.rows r r).1, (hfold r).1]
        exact if_congr hcond.symm rfl rfl
      · rw [(eliminateRow_apply p col s.shared.pivotRows s.shared.rows r r).2, (hfold r).2]
        exact if_congr hcond.symm rfl rfl
    · rw [update_of_ne hv]
      obtain ⟨ha, hinv⟩ := hkeep v r hv hr
      cases hpending : (s.pc v).pending s.shared.barrier.generation with
      | none =>
        rw [hpending] at hagree
        exact ⟨hagree.1.trans ha.symm, hagree.2.trans hinv.symm⟩
      | some x =>
        obtain ⟨c, q⟩ := x
        rw [hpending] at hagree
        refine ⟨hagree.1.trans ?_, hagree.2.trans ?_⟩
        · rw [(eliminateRow_apply q c s.shared.pivotRows _ r r).1,
            (eliminateRow_apply q c s.shared.pivotRows _ r r).1]
          rw [ha]
        · rw [(eliminateRow_apply q c s.shared.pivotRows _ r r).2,
            (eliminateRow_apply q c s.shared.pivotRows _ r r).2]
          rw [ha, hinv]

end Steps

end NzbFast.Repair
