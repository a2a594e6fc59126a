import NzbFast.Repair.Tiles

/-!
# The unit grid of a fold

`fold_parallel_opts` (`crates/nzbkit-base/src/par2repair/linalg.rs`) cuts its destination
into row groups and columns; a cell of that grid is a unit, folded by whichever worker
takes it. The code sizes the cut from the machine (`Host.split`); that the units cover each
cell of the call once (`cells_grid`) holds of any cut.
-/

namespace NzbFast.Repair

open Gf16 Tiling Multiset
open List hiding map_map mem_range mem_singleton range

/-! ## The cut -/

def MIN_COL_WORDS : Nat := 2 * 1024
def TILE_WORDS : Nat := 32 * 1024
def TABLE_BUDGET : Nat := 2 * 1024 * 1024
def STRIPE_SRC_BUDGET : Nat := 8 * 1024 * 1024
def SMT_LIFT_MIN_ROWS : Nat := 64
def MAX_ENTRIES : Nat := 256 * 1024

def divCeil (x y : Nat) : Nat := (x + y - 1) / y

def nextMultipleOf (x y : Nat) : Nat := divCeil x y * y

theorem le_divCeil_mul (x : Nat) {y : Nat} (hy : 0 < y) : x ≤ divCeil x y * y := by
  unfold divCeil
  have hdiv := Nat.div_add_mod (x + y - 1) y
  have hmod := Nat.mod_lt (x + y - 1) hy
  rw [mul_comm]
  omega

theorem divCeil_pos {x y : Nat} (hx : 0 < x) (hy : 0 < y) : 0 < divCeil x y :=
  Nat.div_pos (by omega) hy

/-- How a call is cut: the workers it may use, its row groups and its columns, and the sizes its units
work with. -/
structure Split where
  cores : Nat
  cores_pos : 0 < cores
  rowThreads : Nat
  rowThreads_pos : 0 < rowThreads
  colSplits : Nat
  colSplits_pos : 0 < colSplits
  /-- Columns end on 64 bytes, as for packed sources. -/
  alignPlanar : Bool
  tileWords : Nat
  tableBudget : Nat

/-- What the code reads to cut a call. -/
structure Host where
  /-- `mem::fold_workers()`. -/
  foldWorkers : Nat
  /-- `physical_cores()`, on Windows. -/
  physicalCores : Option {p : Nat // 0 < p}
  /-- `NZBFAST_FOLD_SMT`. -/
  foldSmt : Option Bool
  /-- `NZBFAST_FOLD_ROW_THREADS`. -/
  foldRowThreads : Option Nat
  /-- `NZBFAST_FOLD_UNIT_DST` or `unit_dst_budget()`, on x86-64. -/
  unitDst : Option Nat
  /-- `planar_align_enabled()`. -/
  planarAlign : Bool

namespace Host

def cores (h : Host) (rows srcs : Nat) : Nat :=
  let cores := max h.foldWorkers 1
  let lift := h.foldSmt.getD (decide (rows ≤ srcs ∧ SMT_LIFT_MIN_ROWS ≤ rows))
  match h.physicalCores with
  | none => cores
  | some p => if lift then cores else min p.val cores

def rowThreads (h : Host) (rows srcs : Nat) : Nat :=
  match h.foldRowThreads with
  | some n => clamp n 1 rows
  | none => if rows < h.cores rows srcs then 1 else min (h.cores rows srcs) rows

def colSplits (h : Host) (rows srcs words : Nat) : Nat :=
  let most := max (divCeil words MIN_COL_WORDS) 1
  if h.cores rows srcs ≤ rows then
    match h.unitDst with
    | some unitDst =>
      let byDst := max (unitDst / 2 / max (divCeil rows (h.rowThreads rows srcs)) 1) MIN_COL_WORDS
      let bySrc := max (STRIPE_SRC_BUDGET / 2 / max srcs 1) MIN_COL_WORDS
      clamp (divCeil words (min byDst bySrc)) 1 most
    | none => min 8 most
  else min (max (h.cores rows srcs / h.rowThreads rows srcs * 4) 1) most

theorem cores_pos (h : Host) (rows srcs : Nat) : 0 < h.cores rows srcs := by
  unfold cores
  dsimp only
  split
  · omega
  case h_2 p _ =>
    split
    · omega
    · omega

theorem rowThreads_pos (h : Host) (rows srcs : Nat) : 0 < h.rowThreads rows srcs := by
  have hcores := h.cores_pos rows srcs
  unfold rowThreads
  split
  · unfold clamp
    omega
  · split
    · omega
    · omega

theorem colSplits_pos (h : Host) (rows srcs words : Nat) : 0 < h.colSplits rows srcs words := by
  unfold colSplits
  dsimp only
  split
  · split
    · unfold clamp
      omega
    · omega
  · omega

/-- The cut the code chooses. -/
def split (h : Host) (m : Machine) (rows srcs words : Nat) : Split where
  cores := h.cores rows srcs
  cores_pos := h.cores_pos rows srcs
  rowThreads := h.rowThreads rows srcs
  rowThreads_pos := h.rowThreads_pos rows srcs
  colSplits := h.colSplits rows srcs words
  colSplits_pos := h.colSplits_pos rows srcs words
  alignPlanar := decide (8 ≤ divCeil rows (h.rowThreads rows srcs)) && m.planarEnabled && h.planarAlign
  tileWords := TILE_WORDS
  tableBudget := TABLE_BUDGET

end Host

/-! ## Units -/

/-- The arguments of a call, and how it is cut. -/
structure Job where
  machine : Machine
  dsts : List (List Gf16)
  srcs : List (List UInt8)
  coeff : Nat → Nat → Gf16
  prepacked : Bool
  split : Split

structure Cell where
  rows : List Slice
  rowBase : Nat
  colOff : Nat

namespace Job

def words (job : Job) : Nat := (job.dsts.headD []).length

def rowChunk (job : Job) : Nat := divCeil job.dsts.length job.split.rowThreads

def granule (job : Job) : Nat :=
  if job.prepacked || job.split.alignPlanar then max job.machine.granule 32 else job.machine.granule

def colChunk (job : Job) : Nat := nextMultipleOf (divCeil job.words job.split.colSplits) job.granule

/-- `coeff_table_admitted`, and the table. -/
def preparedTable (job : Job) : Option CoeffTable :=
  if 0 < job.machine.multiFoldWidth ∧ job.dsts.length * job.srcs.length ≤ MAX_ENTRIES then
    some ⟨groupCoeffs job.coeff 0 job.dsts.length (0, job.srcs.length), job.srcs.length⟩
  else none

/-- `cols[ci]`: every row restricted to one column range, cut off with `split_at_mut`. -/
def column (job : Job) (ci : Nat) : List Slice :=
  job.dsts.zipIdx.map fun row =>
    let c := (cuts job.colChunk row.1.length job.split.colSplits 0).getD ci (0, 0)
    ⟨row.2, c.1, c.2 - c.1⟩

def units (job : Job) : List Cell :=
  if job.dsts.isEmpty || job.srcs.isEmpty || job.words == 0 then []
  else (List.range job.split.colSplits).flatMap fun ci =>
    (spans job.rowChunk job.dsts.length).map fun g =>
      ⟨((job.column ci).drop g.1).take (g.2 - g.1), g.1, ci * job.colChunk⟩

/-- The threads spawned; an early return spawns none. -/
def workers (job : Job) : Nat :=
  if job.dsts.isEmpty || job.srcs.isEmpty || job.words == 0 then 0
  else min job.split.cores (job.split.rowThreads * job.split.colSplits)

/-- What folding a unit does, over its own bytes of every source. -/
def visits (job : Job) (u : Cell) : List Visit :=
  foldChunkTiledPrepared job.machine u.rows
    (job.srcs.map fun src => window src u.colOff (u.colOff + job.colChunk)) job.coeff u.rowBase
    job.split.tileWords job.split.tableBudget job.prepacked job.preparedTable

def prepackedFoldAdmissible (m : Machine) (words rows : Nat) : Bool :=
  m.planarEnabled && decide (0 < m.multiFoldWidth) && decide (8 ≤ rows) && decide (32 ≤ words) &&
    words * 2 % 64 == 0

/-- What `fold_parallel_prepacked` asserts of packed sources, and that the tile has room for a chunk. -/
structure Packed (job : Job) : Prop where
  admissible : prepackedFoldAdmissible job.machine job.words job.dsts.length = true
  whole : ∀ s ∈ job.srcs, s.length = job.words * 2
  tile : 32 ≤ job.split.tileWords

/-- What is asked of a call: rows of one length, and packed sources as their caller asserts. -/
structure Ok (job : Job) : Prop where
  rows : ∀ row ∈ job.dsts, row.length = job.words
  packed : job.prepacked = true → job.Packed

/-- A visit of the call: a row, a source and a column, the coefficient and the source's word there. -/
structure Sound (job : Job) (v : Visit) : Prop where
  row : v.row < job.dsts.length
  src : v.src < job.srcs.length
  word : v.word < job.words
  c : v.c = job.coeff v.row v.src
  value : v.value = sourceWord job.prepacked (job.srcs.getD v.src []) v.word
  skipped : v.skipped = true → v.c = 0

/-- The cell of row `j`, source `i` and column `w`, if the source reaches it. -/
def cellAt (job : Job) (j i w : Nat) : Multiset (Nat × Nat × Nat) :=
  if 2 * w < (job.srcs.getD i []).length then {(j, i, w)} else 0

def cells (job : Job) : Multiset (Nat × Nat × Nat) :=
  (Multiset.range job.dsts.length).bind fun j => (Multiset.range job.srcs.length).bind fun i =>
    (Multiset.range job.words).bind (job.cellAt j i)

variable {job : Job}

/-! ## Columns -/

theorem granule_pos (job : Job) : 0 < job.granule := by
  have := job.machine.granule_pos
  unfold granule
  split
  · omega
  · exact this

/-- The columns reach the end of the rows. -/
theorem words_le (job : Job) : job.words ≤ job.split.colSplits * job.colChunk := by
  have hcols := le_divCeil_mul job.words job.split.colSplits_pos
  have hchunk := le_divCeil_mul (divCeil job.words job.split.colSplits) job.granule_pos
  have hmul := Nat.mul_le_mul_left job.split.colSplits hchunk
  rw [mul_comm] at hcols
  exact hcols.trans hmul

/-- Columns of packed sources are cut on 64 bytes. -/
theorem dvd_colChunk (h : job.prepacked = true) : 32 ∣ job.colChunk := by
  have hg : job.granule = 32 := by
    unfold granule
    rw [h, Bool.true_or, if_pos rfl]
    rcases job.machine.granule_eq with hg | hg
    · omega
    · omega
  unfold colChunk nextMultipleOf
  rw [hg]
  exact dvd_mul_left 32 _

/-- The column range number `ci`. -/
def columnRange (job : Job) (ci : Nat) : Nat × Nat :=
  (cuts job.colChunk job.words job.split.colSplits 0).getD ci (0, 0)

theorem columnRange_eq {ci : Nat} (h : ci < job.split.colSplits) :
    (job.columnRange ci).1 = min (ci * job.colChunk) job.words ∧
      (job.columnRange ci).2 = min ((ci + 1) * job.colChunk) job.words := by
  have hlt : ci < (cuts job.colChunk job.words job.split.colSplits 0).length := by rwa [length_cuts]
  have hsome : (cuts job.colChunk job.words job.split.colSplits 0)[ci]? = some (job.columnRange ci) := by
    rw [columnRange, getD_eq_getElem?_getD, getElem?_eq_getElem hlt, Option.getD_some]
  have hget := getElem?_cuts job.split.colSplits (Nat.zero_le job.words) hsome
  rwa [zero_add, zero_add] at hget

/-- Row `j` in the column range number `ci`. -/
def slice (job : Job) (ci j : Nat) : Slice :=
  ⟨j, (job.columnRange ci).1, (job.columnRange ci).2 - (job.columnRange ci).1⟩

theorem len_slice {ci : Nat} {g : Nat × Nat} {d : Slice} (hd : d ∈ (between g).map (job.slice ci)) :
    d.len = (job.columnRange ci).2 - (job.columnRange ci).1 := by
  obtain ⟨j, -, rfl⟩ := mem_map.mp hd
  rfl

theorem column_eq (h : job.Ok) (ci : Nat) : job.column ci =
    (List.range job.dsts.length).map (job.slice ci) := by
  have hsnd : (List.range job.dsts.length) = job.dsts.zipIdx.map Prod.snd := by
    rw [zipIdx_map_snd, range_eq_range']
  rw [hsnd, List.map_map]
  refine map_congr_left fun row hrow => ?_
  have hlen := h.rows row.1 (fst_mem_of_mem_zipIdx hrow)
  rw [hlen]
  rfl

theorem rows_eq (h : job.Ok) (ci : Nat) {g : Nat × Nat} (hg : g.1 ≤ g.2) (hle : g.2 ≤ job.dsts.length) :
    ((job.column ci).drop g.1).take (g.2 - g.1) =
      (between g).map (job.slice ci) := by
  have hbetween : ((List.range job.dsts.length).drop g.1).take (g.2 - g.1) = between g := by
    rw [range_eq_range', drop_range', take_range'_of_length_ge (by omega), between,
      zero_add, mul_one]
  rw [column_eq h, ← map_drop, ← map_take, hbetween]

/-! ## Cells -/

theorem getD_map_window (job : Job) (w0 w1 i : Nat) :
    (job.srcs.map fun src => window src w0 w1).getD i [] = window (job.srcs.getD i []) w0 w1 := by
  rw [getD_eq_getElem?_getD, getElem?_map, getD_eq_getElem?_getD]
  cases job.srcs[i]? with
  | none =>
    show [] = window [] w0 w1
    rw [window, take_nil, drop_nil]
  | some s => rfl

/-- The columns of a unit, one row and one source: each is a column of the call. -/
theorem bind_column {ci : Nat} (hci : ci < job.split.colSplits) (j i : Nat) :
    (Multiset.range ((job.columnRange ci).2 - (job.columnRange ci).1)).bind
        (point (job.slice ci j) i (window (job.srcs.getD i []) (ci * job.colChunk)
          (ci * job.colChunk + job.colChunk))) =
      (between (job.columnRange ci) : Multiset Nat).bind (job.cellAt j i) := by
  obtain ⟨hlow, hhigh⟩ := columnRange_eq hci
  rw [Nat.succ_mul] at hhigh
  have hlen := length_window (job.srcs.getD i []) (ci * job.colChunk) (ci * job.colChunk + job.colChunk)
  unfold slice
  generalize job.columnRange ci = c at hlow hhigh ⊢
  generalize ci * job.colChunk = off at hlow hhigh hlen ⊢
  have hbetween : (between c : Multiset Nat) = (range (c.2 - c.1)).map fun k => c.1 + k := by
    rw [between, range'_eq_map_range, ← map_coe]
    rfl
  rw [hbetween, bind_map]
  refine bind_congr fun k hk => ?_
  have hk := mem_range.mp hk
  have hiff : 2 * k < (window (job.srcs.getD i []) off (off + job.colChunk)).length ↔
      2 * (c.1 + k) < (job.srcs.getD i []).length := by
    omega
  unfold point cellAt
  simp only [hiff]

theorem cells_visits (h : job.Ok) {ci : Nat} (hci : ci < job.split.colSplits) {g : Nat × Nat}
    (hg : g.1 ≤ g.2) (hle : g.2 ≤ job.dsts.length) :
    Repair.cells (job.visits
        ⟨((job.column ci).drop g.1).take (g.2 - g.1), g.1, ci * job.colChunk⟩) =
      (between g : Multiset Nat).bind fun j => (Multiset.range job.srcs.length).bind fun i =>
        (between (job.columnRange ci) : Multiset Nat).bind (job.cellAt j i) := by
  unfold visits
  rw [rows_eq h ci hg hle, cells_foldChunk _ _ _ _ (fun d => len_slice) fun hp => (h.packed hp).tile]
  unfold unitCells
  rw [length_map, ← map_coe, bind_map]
  refine bind_congr fun j _ => bind_congr fun i _ => ?_
  rw [getD_map_window]
  exact bind_column hci j i

theorem bind_columns {β : Type} (job : Job) (f : Nat → Multiset β) :
    ((Multiset.range job.split.colSplits).bind fun ci =>
      (between (job.columnRange ci) : Multiset Nat).bind f) = (Multiset.range job.words).bind f := by
  have hrange : (range job.split.colSplits).map job.columnRange =
      (cuts job.colChunk job.words job.split.colSplits 0 : Multiset (Nat × Nat)) := by
    refine congrArg _ (List.ext_getElem (by rw [List.length_map, List.length_range, length_cuts])
      fun ci hl hr => ?_)
    rw [getElem_map, getElem_range, columnRange, getD_eq_getElem?_getD,
      getElem?_eq_getElem hr, Option.getD_some]
  rw [← bind_cuts job.words_le f, ← hrange, bind_map]

/-- The units of a call visit each of its cells once. -/
theorem cells_grid (h : job.Ok) : Repair.cells (job.units.flatMap job.visits) = job.cells := by
  unfold units
  split
  case isTrue hnone =>
    simp only [Bool.or_eq_true, List.isEmpty_iff, beq_iff_eq] at hnone
    unfold cells
    rcases hnone with (hnone | hnone) | hnone
    · rw [hnone]
      rfl
    · rw [hnone]
      exact (bind_zero _).symm
    · rw [hnone]
      have hzero : ∀ j ∈ range job.dsts.length, ((range job.srcs.length).bind fun i =>
          (range 0).bind (job.cellAt j i)) = 0 := fun j _ => bind_zero _
      rw [bind_congr hzero, bind_zero]
      rfl
  case isFalse hsome =>
    simp only [Bool.or_eq_true, List.isEmpty_iff, beq_iff_eq, not_or] at hsome
    have hrows : 0 < job.rowChunk :=
      divCeil_pos (length_pos_of_ne_nil hsome.1.1) job.split.rowThreads_pos
    have hunits : ∀ ci ∈ range job.split.colSplits,
        Repair.cells (((spans job.rowChunk job.dsts.length).map fun g =>
          (⟨((job.column ci).drop g.1).take (g.2 - g.1), g.1, ci * job.colChunk⟩ : Cell)).flatMap job.visits) =
        (range job.dsts.length).bind fun j => (range job.srcs.length).bind fun i =>
          (between (job.columnRange ci) : Multiset Nat).bind (job.cellAt j i) := fun ci hci => by
      rw [cells_flatMap, ← map_coe, bind_map, ← bind_spans hrows]
      refine bind_congr fun g hg => ?_
      obtain ⟨hlt, hle, -⟩ := mem_spans hrows (mem_coe.mp hg)
      exact cells_visits h (mem_range.mp hci) hlt.le hle
    rw [flatMap_assoc, cells_flatMap]
    refine (bind_congr hunits).trans ?_
    rw [bind_bind]
    refine bind_congr fun j _ => ?_
    rw [bind_bind]
    exact bind_congr fun i _ => bind_columns job (job.cellAt j i)

/-- How often the cells of a call hold one: once, if the source reaches the column. -/
theorem count_cells (job : Job) (j i w : Nat) : job.cells.count (j, i, w) =
    if j < job.dsts.length ∧ i < job.srcs.length ∧ w < job.words ∧ 2 * w < (job.srcs.getD i []).length
    then 1 else 0 := by
  have hcell : ∀ j' i' w', (j' ≠ j ∨ i' ≠ i ∨ w' ≠ w) → (job.cellAt j' i' w').count (j, i, w) = 0 := by
    intro j' i' w' hne
    unfold cellAt
    split
    · refine count_eq_zero.mpr fun hmem => ?_
      cases mem_singleton.mp hmem
      simp at hne
    · exact count_zero _
  unfold cells
  rw [count_bind_range j fun j' hj => ?_, count_bind_range i fun i' hi => ?_,
    count_bind_range w fun w' hw => hcell j i w' (.inr (.inr hw))]
  · have hself : (job.cellAt j i w).count (j, i, w) =
        if 2 * w < (job.srcs.getD i []).length then 1 else 0 := by
      unfold cellAt
      split
      · exact count_singleton_self _
      · exact count_zero _
    rw [hself]
    simp only [← ite_and]
  · exact count_eq_zero.mpr fun hmem => by
      obtain ⟨w', -, hw'⟩ := mem_bind.mp hmem
      exact count_eq_zero.mp (hcell j i' w' (.inr (.inl hi))) hw'
  · exact count_eq_zero.mpr fun hmem => by
      obtain ⟨i', -, hi'⟩ := mem_bind.mp hmem
      obtain ⟨w', -, hw'⟩ := mem_bind.mp hi'
      exact count_eq_zero.mp (hcell j' i' w' (.inl hj)) hw'

/-! ## Soundness -/

theorem preparedTable_for (job : Job) : ∀ p ∈ job.preparedTable, p.For job.coeff job.dsts.length job.srcs.length := by
  intro p hp j hj i hi
  unfold preparedTable at hp
  split at hp
  case isTrue =>
    obtain rfl := Option.some.inj hp
    have h := getD_groupCoeffs job.coeff 0 hj (g := (0, job.srcs.length)) ⟨Nat.zero_le i, hi⟩
    rwa [zero_add] at h
  case isFalse => cases hp

theorem Ok.packed_column (h : job.Ok) {ci : Nat} (hci : ci < job.split.colSplits)
    (hp : job.prepacked = true) : 0 < job.machine.multiFoldWidth ∧ 32 ≤ job.split.tileWords ∧
      32 ∣ (job.columnRange ci).2 - (job.columnRange ci).1 ∧
      ∀ i < (job.srcs.map fun src => window src (ci * job.colChunk)
          (ci * job.colChunk + job.colChunk)).length,
        ((job.columnRange ci).2 - (job.columnRange ci).1) * 2 ≤
          ((job.srcs.map fun src => window src (ci * job.colChunk)
            (ci * job.colChunk + job.colChunk)).getD i []).length := by
  obtain ⟨hlow, hhigh⟩ := columnRange_eq hci
  have hsucc : (ci + 1) * job.colChunk = ci * job.colChunk + job.colChunk := Nat.succ_mul ci _
  have hpacked := h.packed hp
  have hadm := hpacked.admissible
  simp only [prepackedFoldAdmissible, Bool.and_eq_true, decide_eq_true_eq, beq_iff_eq] at hadm
  have h32 := dvd_colChunk hp
  have hoff := h32.mul_left ci
  refine ⟨hadm.1.1.1.2, hpacked.tile, by omega, fun i hi => ?_⟩
  rw [length_map] at hi
  have hsrc := hpacked.whole _ (getElem_mem hi)
  rw [getD_map_window, length_window, getD_eq_getElem?_getD, getElem?_eq_getElem hi,
    Option.getD_some, hsrc]
  omega

theorem sound_of_mem (h : job.Ok) {v : Visit} (hv : v ∈ job.units.flatMap job.visits) : job.Sound v := by
  unfold units at hv
  split at hv
  case isTrue => cases hv
  case isFalse hsome =>
    simp only [Bool.or_eq_true, List.isEmpty_iff, beq_iff_eq, not_or] at hsome
    have hrows : 0 < job.rowChunk :=
      divCeil_pos (length_pos_of_ne_nil hsome.1.1) job.split.rowThreads_pos
    obtain ⟨u, hu, hv⟩ := mem_flatMap.mp hv
    obtain ⟨ci, hci, hu⟩ := mem_flatMap.mp hu
    obtain ⟨g, hg, rfl⟩ := mem_map.mp hu
    have hci := List.mem_range.mp hci
    obtain ⟨hlt, hle, -⟩ := mem_spans hrows hg
    obtain ⟨hlow, hhigh⟩ := columnRange_eq hci
    have hsucc : (ci + 1) * job.colChunk = ci * job.colChunk + job.colChunk := Nat.succ_mul ci _
    rw [rows_eq h ci hlt.le hle] at hv
    have hbase : g.1 + ((between g).map (job.slice ci)).length ≤ job.dsts.length := by
      rw [length_map, between, length_range']
      omega
    have hprepared : ∀ p ∈ job.preparedTable, p.For job.coeff job.dsts.length
        (job.srcs.map fun src => window src (ci * job.colChunk)
          (ci * job.colChunk + job.colChunk)).length := by
      rw [length_map]
      exact job.preparedTable_for
    obtain ⟨j, d, hd, i, hi, k, hk, hat⟩ := mem_foldChunk (fun d => len_slice) (h.packed_column hci)
      hbase hprepared hv
    rw [getElem?_map, Option.map_eq_some_iff] at hd
    obtain ⟨j', hj', rfl⟩ := hd
    have hrow : j < g.2 - g.1 ∧ g.1 + 1 * j = j' := by
      rw [between, List.getElem?_eq_some_iff] at hj'
      obtain ⟨hjlt, hj'⟩ := hj'
      rw [getElem_range'] at hj'
      rw [length_range'] at hjlt
      exact ⟨hjlt, hj'⟩
    rw [length_map] at hi
    have hword : ci * job.colChunk + k < ci * job.colChunk + job.colChunk := by omega
    have hk' : (job.columnRange ci).1 + k = ci * job.colChunk + k := by omega
    rw [getD_map_window, sourceWord_window (fun hp => ⟨(dvd_colChunk hp).mul_left ci,
      Nat.dvd_add ((dvd_colChunk hp).mul_left ci) (dvd_colChunk hp)⟩) hword] at hat
    have hvrow : v.row = g.1 + j := by
      rw [hat.row, ← hrow.2, one_mul, slice]
    have hvword := hat.word.trans hk'
    have hvc := hat.c
    refine ⟨by omega, by rw [hat.src]; exact hi, by omega, ?_, ?_, fun hs => hvc.trans (hat.skipped hs)⟩
    · rw [hvc, hvrow, hat.src]
    · rw [hat.value, hvword, hat.src]

end Job

end NzbFast.Repair
