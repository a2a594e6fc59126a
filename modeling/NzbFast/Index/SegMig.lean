import NzbFast.Index.SegRoundTrip
import NzbFast.Rust.Text
import NzbFast.Sql.Replica

/-!
# The online rebuild of the files table

`segmig` copies `files` into a staging table in the compact layout, chunk by chunk
behind a rowid cursor, while triggers mirror every write of `files` into it. When the
cursor has passed the last row the two tables are swapped.

A statement is the list of row changes it makes, each under the conflict clause in
force for it. SQLite fires the triggers after each changed row, runs a trigger's body
under the clause of the statement that fired it when that has one, and fires none for
a row that REPLACE evicts. The seed triggers write other tables and are left out.
-/

namespace NzbFast.Index

open NzbFast.Rust NzbFast.Sql

/-- A rowid SQLite assigned: a positive `i64`. -/
structure Rowid where
  val : Int
  pos : 0 < val
  bound : val < 2 ^ 63
  deriving DecidableEq

/-- A row of `files`. -/
structure Row where
  rowid : Rowid
  releaseId : Int
  filename : String
  totalParts : Int
  bytes : Int
  nsegs : Int
  segments : List UInt8
  deriving DecidableEq

def Row.id (r : Row) : Int := r.rowid.val

def Row.key (r : Row) : Int × String := (r.releaseId, r.filename)

/-- A table of the `files` schema, in either layout. -/
abbrev Files := Table Row.id Row.key

/-- What the rebuild keeps in the database. -/
structure Db where
  files : Files
  /-- `nsegs` stands ahead of `segments` in `files`. -/
  compact : Bool
  /-- `files_v2`. -/
  staging : Option Files
  /-- The mirror triggers on `files`. -/
  triggers : Bool
  /-- `files_old`. -/
  old : Option Files
  /-- kv: `segs_v2_at`. -/
  cursorKey : Option Text
  /-- kv: `segs_v2_copied`. -/
  copiedKey : Option Text

/-- A database in the old layout that no rebuild has touched. -/
def Db.legacy (files : Files) : Db := ⟨files, false, none, false, none, none, none⟩

def CHUNK : Nat := 2000

def RECLAIM_CHUNK : Nat := 2000

inductive SegMigState where
  | done
  | copying (copied total : Int)
  | swappable
  | reclaiming
  deriving DecidableEq

/-- `SegMigCopy`. -/
structure SegMigCopy where
  rows : Nat
  chunks : Nat
  finished : Bool
  deriving DecidableEq

/-- `segs_v2_at` as the slices read it. -/
def Db.cursor (db : Db) : Int := (db.cursorKey.bind parseI64).getD 0

def segmigState (db : Db) : SegMigState :=
  if db.compact then
    if db.old.isSome then .reclaiming else .done
  else if db.copiedKey = some ['1'] ∧ db.staging.isSome then .swappable
  else .copying db.cursor ((db.files.rows.getLast?.map Row.id).getD 0)

/-! ## Statements on `files` -/

/-- One row's change. An upsert that meets its row is an update under ABORT. -/
inductive Change where
  | insert (r : Row)
  | update (id : Int) (r : Row)
  | delete (id : Int)

/-- `INSERT OR REPLACE` in a trigger's body; the firing statement's clause goes first. -/
def mirrorRow (clause : Option Conflict) (db : Db) (r : Row) : Stored Db :=
  match db.staging with
  | none => .refused
  | some st =>
    match st.insert (clause.getD .replace) r with
    | .stored st => .stored { db with staging := some st }
    | .skipped => .stored db
    | .refused => .refused

/-- `DELETE FROM files_v2 WHERE rowid=old.rowid`. -/
def unmirrorRow (db : Db) (id : Int) : Stored Db :=
  match db.staging with
  | none => .refused
  | some st => .stored { db with staging := some (st.erase id) }

/-- The trigger `files_v2_mi`. -/
def mirrorInsert (clause : Option Conflict) (db : Db) (r : Row) : Stored Db :=
  if db.triggers then mirrorRow clause db r else .stored db

/-- The trigger `files_v2_mu`. -/
def mirrorUpdate (clause : Option Conflict) (db : Db) (id : Int) (r : Row) : Stored Db :=
  if db.triggers then
    match unmirrorRow db id with
    | .stored db => mirrorRow clause db r
    | o => o
  else .stored db

/-- The trigger `files_v2_md`. -/
def mirrorDelete (db : Db) (id : Int) : Stored Db :=
  if db.triggers then unmirrorRow db id else .stored db

/-- One row's change and the trigger it fires. -/
def applyChange (clause : Option Conflict) (db : Db) : Change → Stored Db
  | .insert r =>
    match db.files.insert (clause.getD .abort) r with
    | .stored files => mirrorInsert clause { db with files } r
    | .skipped => .skipped
    | .refused => .refused
  | .update id r =>
    match db.files.find id with
    | none => .skipped
    | some _ =>
      match (db.files.erase id).insert (clause.getD .abort) r with
      | .stored files => mirrorUpdate clause { db with files } id r
      | .skipped => .skipped
      | .refused => .refused
  | .delete id =>
    match db.files.find id with
    | none => .skipped
    | some _ => mirrorDelete { db with files := db.files.erase id } id

/-- A statement's changes in order. A refused row ends the statement: under FAIL what it did
stays, otherwise it is undone. -/
def executeFrom (start : Db) : Db → List (Option Conflict × Change) → Db
  | db, [] => db
  | db, (clause, change) :: rest =>
    match applyChange clause db change with
    | .stored db => executeFrom start db rest
    | .skipped => executeFrom start db rest
    | .refused => if clause = some .fail then db else start

def execute (db : Db) (changes : List (Option Conflict × Change)) : Db := executeFrom db db changes

/-! ## The rebuild -/

/-- `segmig_stage`; `none` is an SQLite error. -/
def segmigStage (db : Db) : Option Db :=
  if db.staging.isSome then some db
  else if db.triggers then none
  else some { db with
    staging := some .empty
    triggers := true
    cursorKey := none
    copiedKey := none }

section

-- `serde_json::from_slice` at a segment list.
variable (fromJson : List UInt8 → Option SegVec)

def recode (r : Row) : Row :=
  if isEncoded r.segments then r
  else
    match fromJson r.segments with
    | some v => { r with segments := encode v.segs, nsegs := v.segs.length }
    | none => r

/-- One chunk's transaction in `segmig_copy_slice`, and the rows it copied. The slice has
staged before; without the staging table the transaction fails. -/
def copyChunk (db : Db) : Option (Db × Nat) :=
  match db.staging with
  | none => none
  | some st =>
    let rows := db.files.scan db.cursor CHUNK
    match rows.getLast? with
    | none => some ({ db with copiedKey := some ['1'] }, 0)
    | some last => some ({ db with
        staging := some (rows.foldl (fun st r => st.place (recode fromJson r)) st)
        cursorKey := some (decimalI64 last.id) }, rows.length)

/-- The loop of `segmig_copy_slice`; `more` is how many chunks the deadline leaves after this
one. -/
def copyLoop : Nat → Db → SegMigCopy → Option (SegMigCopy × Db)
  | more, db, out =>
    match copyChunk fromJson db with
    | none => none
    | some (db, 0) => some ({ out with finished := true }, db)
    | some (db, n + 1) =>
      let out := { out with rows := out.rows + (n + 1), chunks := out.chunks + 1 }
      match more with
      | 0 => some (out, db)
      | more + 1 => copyLoop more db out

def segmigCopySlice (more : Nat) (db : Db) : Option (SegMigCopy × Db) :=
  match segmigState db with
  | .copying _ _ => (segmigStage db).bind fun db => copyLoop fromJson more db ⟨0, 0, false⟩
  | _ => some (⟨0, 0, true⟩, db)

end

/-- Why `segmig_swap` did not commit: its own refusal, or SQLite's. -/
inductive SwapError where
  | mismatch (message : Text)
  | noTrigger
  | tableExists
  deriving DecidableEq

def mismatchMessage (old new : Nat) : Text :=
  "segments rebuild: files has ".toList ++ decimal old ++ " rows, files_v2 has ".toList ++
    decimal new ++ " - not swapping".toList

def segmigSwap (db : Db) : Except SwapError (Option Nat × Db) :=
  if segmigState db ≠ .swappable then .ok (none, db)
  else
    match db.staging with
    | none => .ok (none, db)
    | some st =>
      if db.files.rows.length ≠ st.rows.length then
        .error (.mismatch (mismatchMessage db.files.rows.length st.rows.length))
      else if !db.triggers then .error .noTrigger
      else if db.old.isSome then .error .tableExists
      else .ok (some st.rows.length,
        { files := st, compact := true, staging := none, triggers := false,
          old := some db.files, cursorKey := none, copiedKey := none })

/-- One round of `segmig_reclaim_slice`. The rows a chunk deletes are the first of the table. -/
def reclaimChunk (db : Db) : Db :=
  if segmigState db ≠ .reclaiming then db
  else
    match db.old with
    | none => db
    | some old =>
      if old.rows = [] then { db with old := none }
      else
        let gone := (old.rows.take RECLAIM_CHUNK).map Row.id
        { db with old := some (old.keep fun r => decide (r.id ∉ gone)) }

end NzbFast.Index
