import NzbFast.Index.SegMig

/-!
# The rebuild keeps the table

Whatever the order of chunks, statements and the staging step, the staging table is a
replica of `files` that covers every rowid up to the cursor, and every row once the copy
has reached the end. The swap is then refused by nothing and changes no row.
-/

namespace NzbFast.Index

open NzbFast.Rust NzbFast.Sql Option

section

variable (fromJson : List UInt8 → Option SegVec)

def Row.decoded (r : Row) : List Seg :=
  parseBytes (fun raw => (fromJson raw).map SegVec.segs) r.segments

/-- One row in two stored forms: `nsegs` may have been stamped. -/
structure SameRow (a b : Row) : Prop where
  rowid : a.rowid = b.rowid
  releaseId : a.releaseId = b.releaseId
  filename : a.filename = b.filename
  totalParts : a.totalParts = b.totalParts
  bytes : a.bytes = b.bytes
  decoded : a.decoded fromJson = b.decoded fromJson
  nsegs : a.nsegs = b.nsegs ∨ a.nsegs = (b.decoded fromJson).length

theorem sameRow_aligned : Aligned Row.id Row.key (SameRow fromJson) where
  refl _ := ⟨rfl, rfl, rfl, rfl, rfl, rfl, .inl rfl⟩
  rowid_eq h := congrArg Rowid.val h.rowid
  key_eq h := Prod.ext h.releaseId h.filename

theorem decode_encode (v : SegVec) : decode (encode v.segs) = some v.segs := by
  have hle : v.segs.length ≤ usizeMax := by
    have := v.count
    unfold usizeMax
    omega
  rw [decode, decodePrefix_encode, List.take_of_length_le hle]

theorem sameRow_recode (r : Row) : SameRow fromJson (recode fromJson r) r := by
  have hrefl := (sameRow_aligned fromJson).refl r
  unfold recode
  split
  · exact hrefl
  · rename_i hraw
    split
    · rename_i v hv
      have hdec : r.decoded fromJson = v.segs := by
        rw [Row.decoded, parseBytes, if_neg hraw, hv]
        rfl
      refine ⟨rfl, rfl, rfl, rfl, rfl, ?_, .inr (by rw [hdec])⟩
      rw [hdec, Row.decoded, parseBytes, if_pos (isEncoded_encode v.segs), decode_encode]
      rfl
    · exact hrefl

/-! ## Runs -/

/-- What happens to the database. A transaction that fails, or is rolled back, leaves it as it
was. -/
inductive Step where
  | stage
  | copyChunk (commit : Bool)
  | execute (changes : List (Option Conflict × Change))
  | swap
  | reclaimChunk

def step (db : Db) : Step → Db
  | .stage =>
    match segmigState db with
    | .copying _ _ => (segmigStage db).getD db
    | _ => db
  | .copyChunk commit =>
    match copyChunk fromJson db with
    | some (db', _) => if commit then db' else db
    | none => db
  | .execute changes => execute db changes
  | .swap =>
    match segmigSwap db with
    | .ok (_, db') => db'
    | .error _ => db
  | .reclaimChunk => reclaimChunk db

def run (db : Db) (steps : List Step) : Db := steps.foldl (step fromJson) db

theorem copyLoop_run {more : Nat} {db db' : Db} {out out' : SegMigCopy}
    (h : copyLoop fromJson more db out = some (out', db')) : ∃ steps, run fromJson db steps = db' := by
  fun_induction copyLoop fromJson more db out with
  | case1 more db out hc => cases h
  | case2 more db out db₁ hc | case3 db out db₁ n hc out₁ =>
    obtain ⟨-, rfl⟩ := Prod.mk.inj (some.inj h)
    exact ⟨[.copyChunk true], by simp [run, step, hc]⟩
  | case4 db out db₁ n hc out₁ more ih =>
    obtain ⟨steps, hrun⟩ := ih h
    exact ⟨.copyChunk true :: steps, by simpa [run, step, hc] using hrun⟩

theorem segmigCopySlice_run {more : Nat} {db db' : Db} {out : SegMigCopy}
    (h : segmigCopySlice fromJson more db = some (out, db')) :
    ∃ steps, run fromJson db steps = db' := by
  unfold segmigCopySlice at h
  cases hs : segmigState db with
  | copying copied total =>
    simp only [hs] at h
    obtain ⟨db₁, hstage, hloop⟩ := bind_eq_some_iff.mp h
    obtain ⟨steps, hrun⟩ := copyLoop_run fromJson hloop
    refine ⟨.stage :: steps, ?_⟩
    simpa [run, step, hs, hstage] using hrun
  | _ =>
    simp only [hs, some.injEq, Prod.mk.injEq] at h
    exact ⟨[], h.2⟩

/-! ## The invariant -/

structure Inv (db : Db) : Prop where
  triggers : db.triggers = db.staging.isSome
  old : db.compact = false → db.old = none
  layout : db.compact = true → db.staging = none
  unstaged : db.staging = none → db.cursorKey = none
  replica : ∀ st, db.staging = some st →
    Replica (SameRow fromJson) (fun i => i ≤ db.cursor ∨ db.copiedKey = some ['1']) st db.files

theorem inv_legacy (files : Files) : Inv fromJson (Db.legacy files) where
  triggers := rfl
  old _ := rfl
  layout h := Bool.noConfusion h
  unstaged _ := rfl
  replica st h := by cases h

namespace Inv

variable {fromJson} {db db' : Db}

theorem files_unstaged (h : Inv fromJson db) (hst : db.staging = none) (files : Files) :
    Inv fromJson { db with files } where
  triggers := h.triggers
  old := h.old
  layout := h.layout
  unstaged := h.unstaged
  replica st hs := by
    rw [hst] at hs
    cases hs

variable {files : Files} {clause : Option Conflict}

theorem write (h : Inv fromJson db) {st st' : Files} (hst : db.staging = some st)
    (hrep : Replica (SameRow fromJson) (fun i => i ≤ db.cursor ∨ db.copiedKey = some ['1']) st' files) :
    Inv fromJson { db with files, staging := some st' } where
  triggers := by simpa [hst] using h.triggers
  old := h.old
  layout hc := by simpa [hst] using h.layout hc
  unstaged hs := by cases hs
  replica st hs := by
    cases hs
    exact hrep

/-- The clause of the trigger's body gives way whenever the statement's own does. -/
theorem clause_ne (h : clause.getD .replace ≠ .replace) : clause.getD .abort ≠ .replace := by
  cases clause with
  | none => exact absurd rfl h
  | some c => exact h

theorem triggers_off (h : Inv fromJson db) (ht : ¬ db.triggers = true) : db.staging = none := by
  have := h.triggers
  cases hst : db.staging with
  | none => rfl
  | some st => simp_all

theorem triggers_on (h : Inv fromJson db) (ht : db.triggers = true) : ∃ st, db.staging = some st :=
  isSome_iff_exists.mp (h.triggers ▸ ht)

theorem insert (h : Inv fromJson db) {r : Row}
    (hf : db.files.insert (clause.getD .abort) r = .stored files)
    (hs : mirrorInsert clause { db with files } r = .stored db') : Inv fromJson db' := by
  unfold mirrorInsert at hs
  split at hs
  · rename_i ht
    obtain ⟨st, hst⟩ := h.triggers_on ht
    obtain ⟨hput, hrep⟩ := (h.replica st hst).insert (sameRow_aligned fromJson) hf clause_ne
    simp only [mirrorRow, hst, hput, Stored.stored.injEq] at hs
    subst hs
    exact h.write hst hrep
  · rename_i ht
    cases hs
    exact h.files_unstaged (h.triggers_off ht) files

theorem update (h : Inv fromJson db) {id : Int} {r : Row}
    (hf : (db.files.erase id).insert (clause.getD .abort) r = .stored files)
    (hs : mirrorUpdate clause { db with files } id r = .stored db') : Inv fromJson db' := by
  unfold mirrorUpdate at hs
  split at hs
  · rename_i ht
    obtain ⟨st, hst⟩ := h.triggers_on ht
    obtain ⟨hput, hrep⟩ := ((h.replica st hst).erase (sameRow_aligned fromJson) id).insert
      (sameRow_aligned fromJson) hf clause_ne
    simp only [unmirrorRow, mirrorRow, hst, hput, Stored.stored.injEq] at hs
    subst hs
    exact h.write hst hrep
  · rename_i ht
    cases hs
    exact h.files_unstaged (h.triggers_off ht) files

theorem delete (h : Inv fromJson db) {id : Int}
    (hs : mirrorDelete { db with files := db.files.erase id } id = .stored db') :
    Inv fromJson db' := by
  unfold mirrorDelete at hs
  split at hs
  · rename_i ht
    obtain ⟨st, hst⟩ := h.triggers_on ht
    simp only [unmirrorRow, hst, Stored.stored.injEq] at hs
    subst hs
    exact h.write hst ((h.replica st hst).erase (sameRow_aligned fromJson) id)
  · rename_i ht
    cases hs
    exact h.files_unstaged (h.triggers_off ht) _

theorem applyChange (h : Inv fromJson db) {change : Change}
    (hs : applyChange clause db change = .stored db') : Inv fromJson db' := by
  cases change with
  | insert r =>
    simp only [Index.applyChange] at hs
    split at hs
    · rename_i files hf
      exact h.insert hf hs
    · cases hs
    · cases hs
  | update id r =>
    simp only [Index.applyChange] at hs
    split at hs
    · cases hs
    · split at hs
      · rename_i files hf
        exact h.update hf hs
      · cases hs
      · cases hs
  | delete id =>
    simp only [Index.applyChange] at hs
    split at hs
    · cases hs
    · exact h.delete hs

theorem executeFrom {start : Db} (hstart : Inv fromJson start)
    (changes : List (Option Conflict × Change)) : ∀ {db : Db}, Inv fromJson db →
    Inv fromJson (Index.executeFrom start db changes) := by
  induction changes with
  | nil =>
    intro db h
    exact h
  | cons c changes ih =>
    intro db h
    unfold Index.executeFrom
    split
    · rename_i db' hs
      exact ih (h.applyChange hs)
    · exact ih h
    · split
      · exact h
      · exact hstart

theorem stage (h : Inv fromJson db) (hcompact : db.compact = false) (hs : segmigStage db = some db') :
    Inv fromJson db' := by
  unfold segmigStage at hs
  split at hs
  · cases hs
    exact h
  · split at hs
    · cases hs
    · cases hs
      refine ⟨rfl, h.old, fun hc => ?_, fun _ => rfl, fun st hst => ?_⟩
      · rw [hcompact] at hc
        cases hc
      · cases hst
        -- The cursor restarts at 0 and every rowid is positive.
        refine ⟨fun a ha => absurd ha (Table.not_mem_empty a), fun b _ hp => ?_⟩
        rcases hp with hp | hp
        · exact absurd b.rowid.pos (Int.not_lt.mpr hp)
        · cases hp

theorem copyChunk (h : Inv fromJson db) {n : Nat} (hs : copyChunk fromJson db = some (db', n)) :
    Inv fromJson db' := by
  unfold Index.copyChunk at hs
  split at hs
  · cases hs
  · rename_i st hst
    have hrep := h.replica st hst
    have hlayout : db.compact = true → False := fun hc => by
      have := h.layout hc
      simp [hst] at this
    dsimp only at hs
    split at hs
    · rename_i hlast
      cases hs
      refine ⟨h.triggers, h.old, h.layout, h.unstaged, fun st' hst' => ?_⟩
      have hst' : st = st' := some.inj (hst.symm.trans hst')
      subst hst'
      refine hrep.mono fun b hb _ => .inl ?_
      exact Table.le_of_scan_nil (by decide) (List.getLast?_eq_none_iff.mp hlast) hb
    · rename_i last hlast
      cases hs
      have hcursor : parseI64 (decimalI64 last.id) = some last.id :=
        parseI64_decimalI64 (Int.le_of_lt last.rowid.pos) last.rowid.bound
      refine ⟨by simpa [hst] using h.triggers, h.old, fun hc => (hlayout hc).elim,
        (fun he => by cases he), fun st' hst' => ?_⟩
      cases hst'
      have hcopy := hrep.copyAll (sameRow_aligned fromJson) (recode fromJson)
        (fun r _ => sameRow_recode fromJson r) (db.files.scan db.cursor CHUNK)
        (fun r hr => (Table.mem_of_mem_scan hr).1)
      refine hcopy.mono fun b hb hp => ?_
      rcases hp with hp | hp
      · simp only [Db.cursor, bind_some, hcursor, getD_some] at hp
        by_cases hle : b.id ≤ db.cursor
        · exact .inl (.inl hle)
        · exact .inr ⟨b, Table.mem_scan_of_le_last hlast hb (Int.not_le.mp hle) hp, rfl⟩
      · exact .inl (.inr hp)

/-- Once the state is Swappable the staging table holds every row. -/
theorem rows (h : Inv fromJson db) (hs : segmigState db = .swappable) :
    ∃ st, db.staging = some st ∧ db.compact = false ∧
      List.Forall₂ (SameRow fromJson) st.rows db.files.rows := by
  unfold segmigState at hs
  split at hs
  · split at hs <;> cases hs
  · rename_i hcompact
    split at hs
    · rename_i hready
      obtain ⟨hcopied, hsome⟩ := hready
      obtain ⟨st, hst⟩ := isSome_iff_exists.mp hsome
      refine ⟨st, hst, by simpa using hcompact, ?_⟩
      exact (h.replica st hst).rows (sameRow_aligned fromJson) fun _ _ => .inr hcopied
    · cases hs

/-- The swap finds the counts equal, its triggers in place and no old table in its way. -/
theorem swap (h : Inv fromJson db) {st : Files} (hs : segmigState db = .swappable)
    (hst : db.staging = some st) (hcompact : db.compact = false)
    (hlen : st.rows.length = db.files.rows.length) :
    segmigSwap db = .ok (some db.files.rows.length,
      { files := st, compact := true, staging := none, triggers := false,
        old := some db.files, cursorKey := none, copiedKey := none }) := by
  have htrig : db.triggers = true := by rw [h.triggers, hst, isSome_some]
  have hold : db.old = none := h.old hcompact
  simp [segmigSwap, hs, hst, hlen, htrig, hold]

theorem step (h : Inv fromJson db) (s : Step) : Inv fromJson (step fromJson db s) := by
  cases s with
  | stage =>
    simp only [Index.step]
    split
    · rename_i hstate
      have hcompact : db.compact = false := by
        unfold segmigState at hstate
        split at hstate
        · split at hstate <;> cases hstate
        · rename_i hc
          simpa using hc
      cases hs : segmigStage db with
      | none => exact h
      | some db' => exact h.stage hcompact hs
    · exact h
  | copyChunk commit =>
    simp only [Index.step]
    split
    · rename_i db' n hs
      split
      · exact h.copyChunk hs
      · exact h
    · exact h
  | execute changes => exact h.executeFrom changes h
  | swap =>
    by_cases hs : segmigState db = .swappable
    · obtain ⟨st, hst, hcompact, hrows⟩ := h.rows hs
      simp only [Index.step, h.swap hs hst hcompact hrows.length_eq]
      exact ⟨rfl, (fun hc => by cases hc), fun _ => rfl, fun _ => rfl, fun st hst => by cases hst⟩
    · simp only [Index.step, segmigSwap, ne_eq, hs, not_false_eq_true, if_true]
      exact h
  | reclaimChunk =>
    simp only [Index.step, reclaimChunk]
    split
    · exact h
    · rename_i hs
      have hcompact : db.compact = true := by
        by_contra hc
        have hs := not_not.mp hs
        simp only [segmigState, hc, if_false] at hs
        split at hs <;> cases hs
      split
      · exact h
      · split
        · exact { h with old := fun hc => by simp [hcompact] at hc }
        · exact { h with old := fun hc => by simp [hcompact] at hc }

theorem run (h : Inv fromJson db) (steps : List Step) : Inv fromJson (run fromJson db steps) := by
  induction steps generalizing db with
  | nil => exact h
  | cons s steps ih => exact ih (h.step s)

end Inv

/-- The rebuild preserves the table: in every state of a run each staging row is a row of `files`
and each row up to the cursor is staged, and a swap that is due succeeds and changes no row. -/
theorem rebuild_preserves (files : Files) (steps : List Step) :
    (∀ st, (run fromJson (.legacy files) steps).staging = some st → ∀ a ∈ st.rows,
      ∃ b ∈ (run fromJson (.legacy files) steps).files.rows, SameRow fromJson a b) ∧
    (∀ b ∈ (run fromJson (.legacy files) steps).files.rows,
      b.id ≤ (run fromJson (.legacy files) steps).cursor →
      ∃ st, (run fromJson (.legacy files) steps).staging = some st ∧
        ∃ a ∈ st.rows, SameRow fromJson a b) ∧
    (segmigState (run fromJson (.legacy files) steps) = .swappable →
      ∃ st db', (run fromJson (.legacy files) steps).staging = some st ∧
        st.rows.length = (run fromJson (.legacy files) steps).files.rows.length ∧
        segmigSwap (run fromJson (.legacy files) steps) = .ok (some st.rows.length, db') ∧
        List.Forall₂ (SameRow fromJson) db'.files.rows
          (run fromJson (.legacy files) steps).files.rows) := by
  have h : Inv fromJson (run fromJson (.legacy files) steps) := (inv_legacy fromJson files).run steps
  revert h
  generalize run fromJson (.legacy files) steps = db
  intro h
  refine ⟨fun st hst => (h.replica st hst).related, fun b hb hle => ?_, fun hs => ?_⟩
  · cases hst : db.staging with
    | none =>
      have hcur : db.cursor = 0 := by rw [Db.cursor, h.unstaged hst]; rfl
      have := b.rowid.pos
      have : b.id = b.rowid.val := rfl
      omega
    | some st => exact ⟨st, rfl, (h.replica st hst).covered b hb (.inl hle)⟩
  · obtain ⟨st, hst, hcompact, hrows⟩ := h.rows hs
    have hlen := hrows.length_eq
    exact ⟨st, _, hst, hlen, hlen ▸ h.swap hs hst hcompact hlen, hrows⟩

end

/-- `serde_json` on the one list `[[1,"a",2]]`. -/
def jsonSample (raw : List UInt8) : Option SegVec :=
  if raw = "[[1,\"a\",2]]".toUTF8.toList then some ⟨[⟨1, "a", 2⟩], by decide, by decide⟩ else none

def rowSample (id : Int) (h : 0 < id ∧ id < 2 ^ 63) (name : String) : Row :=
  ⟨⟨id, h.1, h.2⟩, 1, name, 1, 2, 0, "[[1,\"a\",2]]".toUTF8.toList⟩

/-- A row is inserted behind the cursor's back, then the copy runs out. -/
def stepsSample : List Step :=
  [.stage, .copyChunk true, .execute [(none, .insert (rowSample 2 (by decide) "b"))],
    .copyChunk false, .copyChunk true, .copyChunk true]

theorem rebuild_preserves_sample :
    segmigState (run jsonSample (.legacy (.place .empty (rowSample 1 (by decide) "a")))
      stepsSample) = .swappable ∧
    ∃ st db', (run jsonSample (.legacy (.place .empty (rowSample 1 (by decide) "a")))
        stepsSample).staging = some st ∧
      segmigSwap (run jsonSample (.legacy (.place .empty (rowSample 1 (by decide) "a")))
        stepsSample) = .ok (some st.rows.length, db') := by
  have hstate : segmigState (run jsonSample
      (.legacy (.place .empty (rowSample 1 (by decide) "a"))) stepsSample) = .swappable := by
    decide +kernel
  obtain ⟨st, db', hst, -, hswap, -⟩ := (rebuild_preserves jsonSample
    (.place .empty (rowSample 1 (by decide) "a")) stepsSample).2.2 hstate
  exact ⟨hstate, st, db', hst, hswap⟩

end NzbFast.Index
