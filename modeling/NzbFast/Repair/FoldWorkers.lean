import NzbFast.Repair.FoldGrid
import Mathlib.Algebra.Order.BigOperators.Group.Finset

/-!
# The fold, drained by workers

The drain of `fold_parallel_opts` (`crates/nzbkit-base/src/par2repair/linalg.rs`): workers pop
units off one queue until it is empty or the control is cancelled. A run is an
interleaving of their steps, one word folded at a time; the trace is what they have
visited. What is visited and what is left to visit are at every moment the units' visits
(`Run.accounts`), so a run that ends without a cancel has visited each cell once, and
words folded in any order add up to the same row.
-/

namespace NzbFast.Repair

open Function Gf16 Tiling Multiset

/-! ## What a visit does -/

/-- `dst[word] ^= c * value`, unless the source was skipped. -/
def Visit.apply (v : Visit) (dsts : List (List Gf16)) : List (List Gf16) :=
  if v.skipped then dsts
  else dsts.modify v.row fun row => row.modify v.word fun x => x + v.c * v.value

/-- The word of row `j` in column `w`. -/
def wordAt (dsts : List (List Gf16)) (j w : Nat) : Gf16 := (dsts.getD j []).getD w 0

@[simp] theorem Visit.lengths_apply (v : Visit) (dsts : List (List Gf16)) :
    (v.apply dsts).map List.length = dsts.map List.length := by
  unfold apply
  split
  · rfl
  · refine List.ext_getElem? fun j => ?_
    rw [List.getElem?_map, List.getElem?_map, List.getElem?_modify]
    cases dsts[j]? with
    | none => rfl
    | some row =>
      by_cases hj : v.row = j
      · simp [hj]
      · simp [hj]

/-- What a visit adds to the word of row `j` in column `w`. -/
def Visit.adds (v : Visit) (j w : Nat) : Gf16 := if v.row = j ∧ v.word = w then v.c * v.value else 0

theorem Visit.wordAt_apply {v : Visit} {dsts : List (List Gf16)} (hrow : v.row < dsts.length)
    (hword : v.word < (dsts.getD v.row []).length) (hskip : v.skipped = true → v.c = 0) (j w : Nat) :
    wordAt (v.apply dsts) j w = wordAt dsts j w + v.adds j w := by
  unfold apply adds wordAt
  split
  case isTrue hs => rw [hskip hs, zero_mul, ite_self, add_zero]
  case isFalse =>
    simp only [List.getD_eq_getElem?_getD, List.getElem?_modify]
    by_cases hj : v.row = j
    · subst hj
      have hget := List.getElem?_eq_getElem hrow
      rw [List.getD_eq_getElem?_getD, hget, Option.getD_some] at hword
      simp only [hget, if_true, Option.map_eq_map, Option.map_some, Option.getD_some, true_and,
        List.getElem?_modify]
      by_cases hw : v.word = w
      · subst hw
        simp [List.getElem?_eq_getElem hword]
      · simp [hw]
    · simp [hj]

/-! ## Workers -/

/-- Where a worker stands. -/
inductive FoldPc where
  /-- `control.cancelled()` -/
  | check
  /-- `units.lock_ok().pop()` -/
  | pop
  /-- has a unit, and these visits of it left -/
  | folding (rest : List Visit)
  | left

structure FoldWorld (threads : Nat) where
  dsts : List (List Gf16)
  queue : List Cell
  cancelled : Bool
  pc : Fin threads → FoldPc

variable {job : Job} {threads : Nat}

/-- One step of a worker: where it goes, and what it visits on the way; nothing once it has left. -/
def foldTurn (job : Job) (cancelled : Bool) (queue : List Cell) :
    FoldPc → Option (List Cell × FoldPc × List Visit)
  | .check => some (queue, if cancelled then .left else .pop, [])
  | .pop =>
    match queue.getLast? with
    | some u => some (queue.dropLast, .folding (job.visits u), [])
    | none => some (queue, .left, [])
  | .folding [] => some (queue, .check, [])
  | .folding (v :: rest) => some (queue, .folding rest, [v])
  | .left => none

def FoldWorld.step (job : Job) (s : FoldWorld threads) (w : Fin threads) :
    Option (FoldWorld threads × List Visit) :=
  (foldTurn job s.cancelled s.queue (s.pc w)).map fun x =>
    ({ s with dsts := x.2.2.foldl (fun dsts v => v.apply dsts) s.dsts, queue := x.1
              pc := update s.pc w x.2.1 }, x.2.2)

def Job.start (job : Job) : FoldWorld job.workers where
  dsts := job.dsts
  queue := job.units
  cancelled := false
  pc _ := .check

/-- The interleavings: what has been visited, in `n` steps of workers; the control may become cancelled
anywhere. -/
inductive FoldRun (job : Job) : List Visit → Nat → FoldWorld job.workers → Prop where
  | start : FoldRun job [] 0 job.start
  | step {trace vs : List Visit} {n : Nat} {s s' : FoldWorld job.workers} (w : Fin job.workers) :
      FoldRun job trace n s → s.step job w = some (s', vs) → FoldRun job (trace ++ vs) (n + 1) s'
  | cancel {trace : List Visit} {n : Nat} {s : FoldWorld job.workers} : FoldRun job trace n s →
      FoldRun job trace n { s with cancelled := true }

/-! ## Accounting -/

def FoldPc.pending : FoldPc → List Visit
  | .folding rest => rest
  | _ => []

def FoldWorld.pending (job : Job) (s : FoldWorld threads) : Multiset Visit :=
  (s.queue.flatMap job.visits : List Visit) + ∑ w, ((s.pc w).pending : Multiset Visit)

variable {cancelled : Bool} {queue : List Cell} {pc : FoldPc} {x : List Cell × FoldPc × List Visit}
  {n w : Nat} {trace : List Visit} {s : FoldWorld job.workers} {blocks : List (List UInt8)}

theorem foldTurn_pending (h : foldTurn job cancelled queue pc = some x) :
    (queue.flatMap job.visits : Multiset Visit) + (pc.pending : Multiset Visit) =
      (x.2.2 : Multiset Visit) + ((x.1.flatMap job.visits : List Visit) + (x.2.1.pending : Multiset Visit)) := by
  revert h
  fun_cases foldTurn job cancelled queue pc <;> rintro ⟨⟩
  case case1 => split <;> rfl
  case case2 u hu =>
    obtain ⟨front, rfl⟩ := List.getLast?_eq_some_iff.mp hu
    simp [FoldPc.pending]
  case case5 => simp [FoldPc.pending]
  all_goals rfl

theorem FoldWorld.step_pending {s s' : FoldWorld threads} {w : Fin threads} {vs : List Visit}
    (h : s.step job w = some (s', vs)) : s.pending job = (vs : Multiset Visit) + s'.pending job := by
  obtain ⟨x, hx, heq⟩ := Option.map_eq_some_iff.mp h
  cases heq
  have hturn := foldTurn_pending hx
  have hrest : ∀ v ∈ Finset.univ.erase w, ((update s.pc w x.2.1 v).pending : Multiset Visit) =
      (s.pc v).pending := fun v hv => by rw [update_of_ne (Finset.ne_of_mem_erase hv)]
  unfold pending
  rw [← Finset.add_sum_erase _ _ (Finset.mem_univ w),
    ← Finset.add_sum_erase Finset.univ (fun v => ((update s.pc w x.2.1 v).pending : Multiset Visit))
      (Finset.mem_univ w), Finset.sum_congr rfl hrest, update_self, ← add_assoc, hturn]
  simp only [add_assoc]

/-- What has been visited and what is pending are the visits of all units. -/
theorem FoldRun.accounts (h : FoldRun job trace n s) :
    (trace : Multiset Visit) + s.pending job = (job.units.flatMap job.visits : List Visit) := by
  induction h with
  | start =>
    unfold FoldWorld.pending Job.start FoldPc.pending
    dsimp only
    rw [coe_nil, zero_add, Finset.sum_eq_zero fun _ _ => rfl, add_zero]
  | @step trace vs n s s' w _ hstep ih =>
    rw [← ih, FoldWorld.step_pending hstep, ← coe_add, add_assoc]
  | cancel _ ih => exact ih

theorem FoldRun.mem (h : FoldRun job trace n s) {v : Visit} (hv : v ∈ trace) :
    v ∈ job.units.flatMap job.visits := by
  rw [← mem_coe, ← h.accounts]
  exact mem_add.mpr (.inl (mem_coe.mpr hv))

theorem FoldRun.dsts_eq (h : FoldRun job trace n s) :
    s.dsts = trace.foldl (fun dsts v => v.apply dsts) job.dsts := by
  induction h with
  | start => rfl
  | @step trace vs n s s' w _ hstep ih =>
    obtain ⟨x, -, heq⟩ := Option.map_eq_some_iff.mp hstep
    cases heq
    rw [List.foldl_append, ← ih]
  | cancel _ ih => exact ih

/-! ## The rows -/

theorem lengths_foldl (vs : List Visit) : ∀ dsts : List (List Gf16),
    (vs.foldl (fun dsts v => v.apply dsts) dsts).map List.length = dsts.map List.length := by
  induction vs with
  | nil => exact fun _ => rfl
  | cons v vs ih => exact fun dsts => (ih _).trans (v.lengths_apply dsts)

/-- Sound visits add up, in any order. -/
theorem wordAt_foldl (hok : job.Ok) (j w : Nat) (vs : List Visit) : ∀ dsts : List (List Gf16),
    dsts.map List.length = job.dsts.map List.length → (∀ v ∈ vs, job.Sound v) →
      wordAt (vs.foldl (fun dsts v => v.apply dsts) dsts) j w =
        wordAt dsts j w + (vs.map fun v => v.adds j w).sum := by
  induction vs with
  | nil => exact fun dsts _ _ => (add_zero _).symm
  | cons v vs ih =>
    intro dsts hlen hsound
    have hv := hsound v List.mem_cons_self
    have hrows : dsts.length = job.dsts.length := by simpa using congrArg List.length hlen
    have hrow : v.row < dsts.length := hrows ▸ hv.row
    have hword : v.word < (dsts.getD v.row []).length := by
      have hget : (dsts.map List.length)[v.row]? = (job.dsts.map List.length)[v.row]? := by rw [hlen]
      rw [List.getElem?_map, List.getElem?_map, List.getElem?_eq_getElem hrow,
        List.getElem?_eq_getElem hv.row, Option.map_some, Option.map_some, Option.some_inj,
        hok.rows _ (List.getElem_mem hv.row)] at hget
      rw [List.getD_eq_getElem?_getD, List.getElem?_eq_getElem hrow, Option.getD_some, hget]
      exact hv.word
    rw [List.foldl_cons, ih _ ((v.lengths_apply dsts).trans hlen)
      (fun u hu => hsound u (List.mem_cons_of_mem v hu)), Visit.wordAt_apply hrow hword hv.skipped,
      List.map_cons, List.sum_cons, add_assoc]

theorem sum_bind_range (n : Nat) (F : Nat → Multiset (Nat × Nat × Nat)) (g : Nat × Nat × Nat → Gf16) :
    (((Multiset.range n).bind F).map g).sum = ∑ x ∈ Finset.range n, ((F x).map g).sum := by
  rw [map_bind, sum_bind]
  rfl

theorem sum_cells (job : Job) (f : Nat → Gf16) {j : Nat} (hj : j < job.dsts.length)
    (hw : w < job.words) :
    (job.cells.map fun x => if x.1 = j ∧ x.2.2 = w then f x.2.1 else 0).sum =
      ∑ i ∈ Finset.range job.srcs.length, if 2 * w < (job.srcs.getD i []).length then f i else 0 := by
  have hself : ∀ i, ((job.cellAt j i w).map fun x => if x.1 = j ∧ x.2.2 = w then f x.2.1 else 0).sum =
      if 2 * w < (job.srcs.getD i []).length then f i else 0 := by
    intro i
    unfold Job.cellAt
    split
    · rw [map_singleton, sum_singleton, if_pos ⟨rfl, rfl⟩]
    · rw [map_zero, sum_zero]
  have hother : ∀ j' i w', (j' ≠ j ∨ w' ≠ w) → ((job.cellAt j' i w').map fun x =>
      if x.1 = j ∧ x.2.2 = w then f x.2.1 else 0).sum = 0 := by
    intro j' i w' hne
    unfold Job.cellAt
    split
    · rw [map_singleton, sum_singleton]
      exact if_neg fun h => hne.elim (fun hj => hj h.1) fun hw => hw h.2
    · rw [map_zero, sum_zero]
  unfold Job.cells
  rw [sum_bind_range, Finset.sum_eq_single_of_mem j (Finset.mem_range.mpr hj) fun j' _ hne => ?_,
    sum_bind_range]
  · refine Finset.sum_congr rfl fun i _ => ?_
    rw [sum_bind_range, Finset.sum_eq_single_of_mem w (Finset.mem_range.mpr hw) fun w' _ hne =>
      hother j i w' (.inr hne), hself]
  · rw [sum_bind_range]
    refine Finset.sum_eq_zero fun i _ => ?_
    rw [sum_bind_range]
    exact Finset.sum_eq_zero fun w' _ => hother j' i w' (.inl hne)

/-! ## Ends -/

theorem foldTurn_left (h : foldTurn job cancelled queue pc = some x) (hleft : x.2.1 = .left) :
    cancelled = true ∨ x.1 = [] := by
  revert h
  fun_cases foldTurn job cancelled queue pc <;> rintro ⟨⟩
  case case1 =>
    split at hleft
    case isTrue hc => exact .inl hc
    case isFalse => cases hleft
  case case3 hnone => exact .inr (List.getLast?_eq_none_iff.mp hnone)
  all_goals cases hleft

/-- An empty queue stays empty. -/
theorem foldTurn_nil (h : foldTurn job cancelled [] pc = some x) : x.1 = [] := by
  revert h
  fun_cases foldTurn job cancelled [] pc <;> rintro ⟨⟩ <;> rfl

/-- Who has left saw a cancel, or the queue empty. -/
theorem FoldRun.drained (h : FoldRun job trace n s) {w : Fin job.workers} (hw : s.pc w = .left) :
    s.cancelled = true ∨ s.queue = [] := by
  induction h generalizing w with
  | start => cases hw
  | @step trace vs n s s' w' _ hstep ih =>
    obtain ⟨x, hx, heq⟩ := Option.map_eq_some_iff.mp hstep
    cases heq
    dsimp only at hw ⊢
    by_cases hold : s.pc w = .left
    · refine (ih hold).imp_right fun hempty => ?_
      rw [hempty] at hx
      exact foldTurn_nil hx
    · have hself : w = w' := Classical.byContradiction fun hne => by
        rw [update_of_ne hne] at hw
        exact hold hw
      rw [hself, update_self] at hw
      exact foldTurn_left hx hw
  | cancel _ ih => exact .inl rfl

/-! ## Every run ends -/

/-- The turns a worker still has to take, apart from the queue. -/
def FoldPc.rank : FoldPc → Nat
  | .check => 2
  | .pop => 1
  | .folding rest => rest.length + 3
  | .left => 0

/-- A unit costs its visits, and the turns around them. -/
def Job.cost (job : Job) (queue : List Cell) : Nat := (queue.map fun u => (job.visits u).length + 3).sum

theorem foldTurn_rank (h : foldTurn job cancelled queue pc = some x) :
    job.cost x.1 + x.2.1.rank + 1 ≤ job.cost queue + pc.rank := by
  revert h
  fun_cases foldTurn job cancelled queue pc <;> rintro ⟨⟩
  case case1 =>
    split
    · simp only [FoldPc.rank]
      omega
    · simp only [FoldPc.rank]
      omega
  case case2 u hu =>
    obtain ⟨front, rfl⟩ := List.getLast?_eq_some_iff.mp hu
    simp only [List.dropLast_concat, FoldPc.rank, Job.cost, List.map_append, List.map_singleton,
      List.sum_append, List.sum_singleton]
    omega
  all_goals
    simp only [FoldPc.rank, List.length_nil, List.length_cons]
    omega

theorem FoldRun.rank (h : FoldRun job trace n s) :
    n + (job.cost s.queue + ∑ w, (s.pc w).rank) ≤ job.cost job.units + job.workers * 2 := by
  induction h with
  | start =>
    unfold Job.start
    dsimp only [FoldPc.rank]
    rw [Finset.sum_const, Finset.card_univ, Fintype.card_fin, smul_eq_mul, zero_add]
  | @step trace vs n s s' w _ hstep ih =>
    obtain ⟨x, hx, heq⟩ := Option.map_eq_some_iff.mp hstep
    cases heq
    have hturn := foldTurn_rank hx
    have hrest : ∀ v ∈ Finset.univ.erase w, (update s.pc w x.2.1 v).rank = (s.pc v).rank := fun v hv => by
      rw [update_of_ne (Finset.ne_of_mem_erase hv)]
    dsimp only
    rw [← Finset.add_sum_erase Finset.univ (fun v => (update s.pc w x.2.1 v).rank) (Finset.mem_univ w),
      Finset.sum_congr rfl hrest, update_self]
    rw [← Finset.add_sum_erase Finset.univ (fun v => (s.pc v).rank) (Finset.mem_univ w)] at ih
    omega
  | cancel _ ih => exact ih

/-! ## The result -/

theorem workers_pos (h : job.units ≠ []) : 0 < job.workers := by
  unfold Job.workers
  split
  case isTrue hnone => exact absurd (if_pos hnone) h
  case isFalse =>
    exact Nat.lt_min.mpr ⟨job.split.cores_pos, Nat.mul_pos job.split.rowThreads_pos job.split.colSplits_pos⟩

/-- Once all have left and there was no cancel, nothing is pending. -/
theorem FoldRun.finished (h : FoldRun job trace n s) (hall : ∀ w, s.pc w = .left)
    (hc : s.cancelled = false) :
    (trace : Multiset Visit) = (job.units.flatMap job.visits : List Visit) := by
  have hpending : ∑ w, ((s.pc w).pending : Multiset Visit) = 0 := Finset.sum_eq_zero fun w _ => by
    rw [hall w]
    rfl
  have haccounts := h.accounts
  unfold FoldWorld.pending at haccounts
  rw [hpending, add_zero] at haccounts
  by_cases hunits : job.units = []
  · have hnil : trace = [] := List.eq_nil_iff_forall_not_mem.mpr fun v hv => by
      have hmem := h.mem hv
      rw [hunits] at hmem
      cases hmem
    rw [hnil, hunits]
    rfl
  · rcases h.drained (hall ⟨0, workers_pos hunits⟩) with hcancel | hempty
    · exact absurd (hc.symm.trans hcancel) Bool.false_ne_true
    · rwa [hempty, List.flatMap_nil, coe_nil, add_zero] at haccounts

theorem cells_eq (hok : job.Ok)
    (hdone : (trace : Multiset Visit) = (job.units.flatMap job.visits : List Visit)) :
    cells trace = job.cells := by
  rw [← Job.cells_grid hok]
  unfold cells
  rw [← map_coe, ← map_coe, hdone]

theorem cells_nodup (job : Job) : job.cells.Nodup := by
  refine nodup_iff_count_le_one.mpr fun x => ?_
  rw [job.count_cells x.1 x.2.1 x.2.2]
  split
  · exact le_refl 1
  · exact Nat.zero_le 1

/-- No cell is visited twice, at any moment of any run. -/
theorem FoldRun.nodup (hok : job.Ok) (h : FoldRun job trace n s) : (cells trace).Nodup := by
  have hle : (trace : Multiset Visit) ≤ (job.units.flatMap job.visits : List Visit) := by
    rw [← h.accounts]
    exact le_add_right _ _
  have hnodup := cells_nodup job
  rw [← Job.cells_grid hok] at hnodup
  unfold cells at hnodup ⊢
  rw [← map_coe] at hnodup ⊢
  exact nodup_of_le (map_le_map hle) hnodup

theorem sourceWord_block (hok : job.Ok)
    (hblocks : job.srcs = if job.prepacked then blocks.map preparePlanar else blocks) {i : Nat}
    (hi : i < job.srcs.length) (hw : w < job.words) :
    sourceWord job.prepacked (job.srcs.getD i []) w = srcWord (blocks.getD i []) w := by
  unfold sourceWord
  split
  case isTrue hp =>
    have hpacked := hok.packed hp
    have hwhole := hpacked.whole _ (List.getElem_mem hi)
    have hadm := hpacked.admissible
    simp only [Job.prepackedFoldAdmissible, Bool.and_eq_true, beq_iff_eq] at hadm
    rw [if_pos hp] at hblocks
    have hlt : i < blocks.length := by rwa [hblocks, List.length_map] at hi
    have hget : job.srcs[i] = preparePlanar blocks[i] := by simp [hblocks]
    rw [hget, length_preparePlanar] at hwhole
    rw [List.getD_eq_getElem?_getD, List.getD_eq_getElem?_getD, List.getElem?_eq_getElem hi,
      List.getElem?_eq_getElem hlt, Option.getD_some, Option.getD_some, hget]
    exact planarWord_preparePlanar (by omega) (by omega)
  case isFalse hp => rw [hblocks, if_neg hp]

theorem length_block
    (hblocks : job.srcs = if job.prepacked then blocks.map preparePlanar else blocks) (i : Nat) :
    (job.srcs.getD i []).length = (blocks.getD i []).length := by
  rw [hblocks]
  split
  · rw [List.getD_eq_getElem?_getD, List.getD_eq_getElem?_getD, List.getElem?_map]
    cases blocks[i]? with
    | none => rfl
    | some b => exact length_preparePlanar b
  · rfl

theorem FoldRun.wordAt_eq (hok : job.Ok)
    (hblocks : job.srcs = if job.prepacked then blocks.map preparePlanar else blocks)
    (h : FoldRun job trace n s)
    (hdone : (trace : Multiset Visit) = (job.units.flatMap job.visits : List Visit)) {j : Nat}
    (hj : j < job.dsts.length) (hw : w < job.words) :
    wordAt s.dsts j w = wordAt job.dsts j w +
      ∑ i ∈ Finset.range job.srcs.length, job.coeff j i * srcWord (blocks.getD i []) w := by
  have hsound : ∀ v ∈ trace, job.Sound v := fun v hv => Job.sound_of_mem hok (h.mem hv)
  have hcells := cells_eq hok hdone
  unfold cells at hcells
  have hadds : (trace.map fun v => v.adds j w) = (trace.map Visit.cell).map fun x =>
      if x.1 = j ∧ x.2.2 = w then job.coeff j x.2.1 * srcWord (blocks.getD x.2.1 []) w else 0 := by
    rw [List.map_map]
    refine List.map_congr_left fun v hv => ?_
    have hv := hsound v hv
    unfold Visit.adds Visit.cell
    dsimp only [comp_apply]
    split
    case isTrue heq =>
      rw [hv.c, hv.value, heq.1, heq.2, sourceWord_block hok hblocks hv.src hw]
    case isFalse => rfl
  rw [h.dsts_eq, wordAt_foldl hok j w trace job.dsts rfl hsound, hadds, ← sum_coe,
    ← map_coe, hcells, sum_cells job (fun i => job.coeff j i * srcWord (blocks.getD i []) w) hj hw]
  refine congrArg _ (Finset.sum_congr rfl fun i _ => ?_)
  rw [length_block hblocks]
  split
  case isTrue => rfl
  case isFalse hpast => rw [srcWord_of_le (by omega), mul_zero]

/-- The tiled parallel fold, over every cut and every interleaving: runs are bounded and a worker that
has not left can step; no cell is visited twice and none outside the rows, and a visit is skipped for a
zero coefficient only; once all have left without a cancel, each cell a source reaches has been visited
once, and every word has the sum added to it. -/
theorem fold_parallel_exact (hok : job.Ok) {blocks : List (List UInt8)}
    (hblocks : job.srcs = if job.prepacked then blocks.map preparePlanar else blocks)
    {trace : List Visit} {n : Nat} {s : FoldWorld job.workers} (h : FoldRun job trace n s) :
    n ≤ job.cost job.units + job.workers * 2 ∧
      (∀ w, s.pc w ≠ .left → (s.step job w).isSome) ∧
      s.dsts.map List.length = job.dsts.map List.length ∧
      (cells trace).Nodup ∧
      (∀ v ∈ trace, v.row < job.dsts.length ∧ v.src < job.srcs.length ∧ v.word < job.words ∧
        (v.skipped = true → job.coeff v.row v.src = 0)) ∧
      ((∀ w, s.pc w = .left) → s.cancelled = false →
        (∀ j < job.dsts.length, ∀ i < job.srcs.length, ∀ w < job.words,
          (cells trace).count (j, i, w) = if 2 * w < (blocks.getD i []).length then 1 else 0) ∧
        ∀ j < job.dsts.length, ∀ w < job.words, wordAt s.dsts j w = wordAt job.dsts j w +
          ∑ i ∈ Finset.range job.srcs.length, job.coeff j i * srcWord (blocks.getD i []) w) := by
  refine ⟨?_, fun w hw => ?_, ?_, h.nodup hok, fun v hv => ?_, fun hall hc => ⟨fun j hj i hi w hw => ?_,
    fun j hj w hw => h.wordAt_eq hok hblocks (h.finished hall hc) hj hw⟩⟩
  · exact (Nat.le_add_right _ _).trans h.rank
  · unfold FoldWorld.step
    rw [Option.isSome_map]
    cases hpc : s.pc w with
    | check => rfl
    | pop =>
      rw [foldTurn]
      split
      · rfl
      · rfl
    | folding rest =>
      cases rest with
      | nil | cons => rfl
    | left => exact absurd hpc hw
  · rw [h.dsts_eq, lengths_foldl]
  · have hsound := Job.sound_of_mem hok (h.mem hv)
    exact ⟨hsound.row, hsound.src, hsound.word, fun hs => hsound.c.symm.trans (hsound.skipped hs)⟩
  · rw [cells_eq hok (h.finished hall hc), job.count_cells]
    simp only [hj, hi, hw, true_and, length_block hblocks]

def FoldPc.isLeft : FoldPc → Bool
  | .left => true
  | _ => false

theorem FoldPc.eq_left : ∀ {pc : FoldPc}, pc.isLeft = true → pc = .left
  | .left, _ => rfl

/-- Workers stepping in a given order, and what they visit. -/
def FoldWorld.schedule (job : Job) (s : FoldWorld job.workers) :
    List Nat → Option (FoldWorld job.workers × List Visit)
  | [] => some (s, [])
  | w :: ws =>
    if h : w < job.workers then
      (s.step job ⟨w, h⟩).bind fun x => (x.1.schedule job ws).map fun y => (y.1, x.2 ++ y.2)
    else none

theorem FoldRun.schedule : ∀ {ws : List Nat} {trace vs : List Visit} {n : Nat}
    {s s' : FoldWorld job.workers}, FoldRun job trace n s → s.schedule job ws = some (s', vs) →
      FoldRun job (trace ++ vs) (n + ws.length) s'
  | [], trace, vs, n, s, s', h, hs => by
    cases hs
    rwa [List.append_nil]
  | w :: ws, trace, vs, n, s, s', h, hs => by
    rw [FoldWorld.schedule] at hs
    split at hs
    case isTrue hlt =>
      obtain ⟨x, hx, hs⟩ := Option.bind_eq_some_iff.mp hs
      obtain ⟨y, hy, heq⟩ := Option.map_eq_some_iff.mp hs
      cases heq
      rw [← List.append_assoc, List.length_cons, add_comm ws.length, ← add_assoc]
      exact (FoldRun.step ⟨w, hlt⟩ h hx).schedule hy
    case isFalse => cases hs

/-- A fused kernel over four sources and 16 words. -/
def smallMachine : Machine where
  multiFoldWidth := 4
  granule := 16
  granule_eq := .inl rfl
  covered n _ := n / 16 * 16
  covered_le n _ := Nat.div_mul_le_self n 16
  planarEnabled := false
  l2TargetWords := 16384
  sizeofFoldTable := 128

/-- Two rows of three words, a source of three bytes and one of a byte, in two units. -/
def smallJob : Job where
  machine := smallMachine
  dsts := [[0, 1, 0], [0, 0, 1]]
  srcs := [[1, 2, 3], [5]]
  coeff j i := if j = i then 1 else Gf16.ofNat 2
  prepacked := false
  split :=
    { cores := 2, cores_pos := by decide, rowThreads := 2, rowThreads_pos := by decide, colSplits := 1
      colSplits_pos := by decide, alignPlanar := false, tileWords := 16, tableBudget := 4096 }

theorem smallJob_ok : smallJob.Ok where
  rows := by decide
  packed h := by cases h

/-- Two workers, each on one unit: every word has its sum. -/
theorem fold_parallel_small : ∃ trace n s, FoldRun smallJob trace n s ∧
    ∀ j < 2, ∀ w < 3, wordAt s.dsts j w = wordAt smallJob.dsts j w +
      ∑ i ∈ Finset.range 2, smallJob.coeff j i * srcWord ([[1, 2, 3], [5]].getD i []) w := by
  have hsome : (smallJob.start.schedule smallJob
      [0, 0, 1, 1, 0, 1, 0, 1, 0, 1, 0, 0, 0, 1, 1, 1]).any (fun x =>
        decide (∀ w, (x.1.pc w).isLeft = true) && !x.1.cancelled) = true := by
    decide
  cases hs : smallJob.start.schedule smallJob [0, 0, 1, 1, 0, 1, 0, 1, 0, 1, 0, 0, 0, 1, 1, 1] with
  | none =>
    rw [hs] at hsome
    cases hsome
  | some x =>
    rw [hs, Option.any_some, Bool.and_eq_true, decide_eq_true_iff, Bool.not_eq_true'] at hsome
    have hrun := FoldRun.start.schedule hs
    have hblocks : smallJob.srcs =
        if smallJob.prepacked then [[1, 2, 3], [5]].map preparePlanar else [[1, 2, 3], [5]] := rfl
    exact ⟨_, _, x.1, hrun, ((fold_parallel_exact smallJob_ok hblocks hrun).2.2.2.2.2
      (fun w => FoldPc.eq_left (hsome.1 w)) hsome.2).2⟩

end NzbFast.Repair
