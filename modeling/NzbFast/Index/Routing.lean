import NzbFast.Index.Overview
import NzbFast.Index.SegCodec
import NzbFast.Sql.Table
import Mathlib.Data.Char

/-!
# Which release row a cluster belongs to

A release row is keyed by stem, poster and group. A repost of the same files by the same
poster to the same group is another posting, and gets a row of its own under a marked
poster value. `pick_release_row` decides: the first candidate row that holds no different
article for a part of the cluster is adopted, a marked row is minted when all do, and at
the cap on marked rows the cluster is dropped unless an existing row is its home.

`files` is kept by its key, since ingest reads no rowid of it. The columns of `releases`
here are the key and the aggregates.
-/

namespace NzbFast.Index

open NzbFast.Rust NzbFast.Sql

/-- The seven aggregates of a release row, in their stored shape. -/
structure RelAgg where
  nfiles : Int
  tbytes : Int
  ncomplete : Int
  hasPar2 : Bool
  have_ : Int
  need : Int
  nexe : Int
  deriving DecidableEq

/-- A row of `releases`. -/
structure Release where
  id : Int
  stem : String
  poster : String
  grp : String
  agg : RelAgg
  complete : Bool
  deriving DecidableEq

def Release.key (r : Release) : String × String × String := (r.stem, r.poster, r.grp)

/-- The columns of a row of `files` besides its key. -/
structure FileRow where
  totalParts : UInt32
  bytes : Int
  nsegs : Int
  segments : List UInt8
  deriving DecidableEq

/-- The columns of UNIQUE(release_id, filename). -/
abbrev FileKey := Int × String

/-- The tables ingest writes. `drops` are the counters `DropCensus::record` keeps in `kv`. -/
structure IndexDb where
  releases : Table Release.id Release.key
  files : AList fun _ : FileKey => FileRow
  msgidMap : List (Int × Int)
  drops : DropReason → Nat

def IndexDb.fresh : IndexDb := ⟨.empty, ∅, [], fun _ => 0⟩

variable (R : Readers) (fromJson : List UInt8 → Option (List Seg))

/-! ## What a row holds -/

structure ExistingFile where
  segs : List Seg
  total : UInt32
  bytes : Int
  nsegs : Int

/-- The files rows a release holds, by name. -/
abbrev ExistingFiles := String → Option ExistingFile

def FileRow.read (f : FileRow) : ExistingFile :=
  ⟨parseBytes fromJson f.segments, f.totalParts, f.bytes, f.nsegs⟩

def fetchExisting (db : IndexDb) (rid : Int) (files : ClusterFiles) : ExistingFiles := fun fname =>
  if fname ∈ files then (db.files.lookup (rid, fname)).map (FileRow.read fromJson) else none

/-- Does the row hold a part of this file under another article, or the file at another total? -/
def ExistingFile.contradicts (prev : ExistingFile) (f : ClusterFile) : Bool :=
  (prev.total ≠ 0 && f.total ≠ 0 && prev.total ≠ f.total) ||
    prev.segs.any fun seg => f.taken seg.number seg.id

def contradicts (existing : ExistingFiles) (files : ClusterFiles) : Bool :=
  files.entries.any fun f => (existing f.1).any fun prev => prev.contradicts f.2

/-! ## The rows of a triple -/

def MAX_GEN_SIBLINGS : Nat := 16

/-- What stands between a poster and the key of a marked row. -/
def POSTER_GEN_MARK : String := " #gen:"

def genMark (poster : String) : String := poster ++ POSTER_GEN_MARK

/-- The first text past every text with a given start: its last character stepped. -/
def stepLast (t : Text) : Text :=
  t.dropLast ++ (t.getLast?.map fun c => Char.ofNat (c.toNat + 1)).toList

/-- The marked rows of a triple, in poster order, cut at the cap. -/
def genSiblings (db : IndexDb) (stem poster grp : String) : List Release :=
  let lo := (genMark poster).toList
  let inRange := fun r : Release => decide (r.stem = stem) && decide (lo ≤ r.poster.toList) &&
    decide (r.poster.toList < stepLast lo) && decide (r.grp = grp)
  ((db.releases.rows.filter inRange).insertionSort fun a b => a.poster.toList ≤ b.poster.toList).take
    MAX_GEN_SIBLINGS

/-- `gen_candidates`: the plain row, then the marked ones, oldest first. -/
def genCandidates (db : IndexDb) (stem poster grp : String) : List (Int × String) :=
  ((db.releases.lookup (stem, poster, grp)).toList ++
    (genSiblings db stem poster grp).insertionSort fun a b => a.id ≤ b.id).map fun r => (r.id, r.poster)

/-- `msgid_set_key`, cut to `GEN_HEX` digits. -/
def msgidSetKey (ids : List String) : String :=
  R.setKey ((ids.map normMsgid).insertionSort fun a b => a ≤ b).dedup

def msgidHash (msgid : String) : Int := R.hash (normMsgid msgid)

def lowestIds (files : ClusterFiles) : List String :=
  files.entries.filterMap fun f => f.2.parts.entries.head?.map fun x => x.2.1

/-- The poster value a cluster would be minted under. -/
def markedPoster (poster : String) (files : ClusterFiles) : String :=
  genMark poster ++ msgidSetKey R (lowestIds files)

/-! ## A home past the window -/

def MSGID_KEYS_PER_FILE : Nat := 3
def MAX_HOME_PROBES : Nat := 32
def MAX_HOME_ROWS : Nat := 4

/-- The ids `hidden_home` asks for: one of every file before a second of any. -/
def homeProbes (files : ClusterFiles) : List String :=
  let names := files.keys.insertionSort fun a b => a.toList ≤ b.toList
  ((List.range MSGID_KEYS_PER_FILE).flatMap fun round =>
    names.filterMap fun name =>
      (files.lookup name).bind fun f => (f.parts.entries.map fun x => x.2.1)[round]?).take
    MAX_HOME_PROBES

/-- The rows the reverse map knows for these ids, those with most of them first. -/
def homeRows (db : IndexDb) (files : ClusterFiles) (seen : List (Int × String)) : List Int :=
  let hashes := ((homeProbes files).map (msgidHash R)).eraseDups
  let hits := (hashes.flatMap fun h => (db.msgidMap.filter (·.1 = h)).map (·.2)).filter
    fun rid => !seen.any (·.1 = rid)
  (hits.eraseDups.insertionSort fun a b =>
    hits.count b < hits.count a ∨ (hits.count a = hits.count b ∧ a ≤ b)).take MAX_HOME_ROWS

/-- One row of `hidden_home`: a row of this triple, plain or marked, that nothing contradicts. -/
def homeAt (db : IndexDb) (stem poster grp : String) (files : ClusterFiles) (rid : Int) :
    Option (Int × String × ExistingFiles) := do
  let r ← db.releases.find rid
  let existing := fetchExisting fromJson db rid files
  if r.stem = stem ∧ r.grp = grp ∧ (r.poster = poster ∨ (genMark poster).toList <+: r.poster.toList) ∧
      contradicts existing files = false then
    some (rid, r.poster, existing)
  else none

def hiddenHome (db : IndexDb) (stem poster grp : String) (files : ClusterFiles)
    (seen : List (Int × String)) : Option (Int × String × ExistingFiles) :=
  (homeRows R db files seen).findSome? (homeAt fromJson db stem poster grp files)

/-! ## The pick -/

/-- `RowPick`. -/
inductive RowPick where
  | adopt (known : Option Int) (poster : String) (existing : ExistingFiles)
  | mint (poster : String)
  | saturated

/-- The row a key names, unless the cluster contradicts it. -/
def exactHome (db : IndexDb) (stem poster grp : String) (files : ClusterFiles) :
    Option (Int × String × ExistingFiles) := do
  let r ← db.releases.lookup (stem, poster, grp)
  let existing := fetchExisting fromJson db r.id files
  if contradicts existing files then none else some (r.id, poster, existing)

def adoptable (db : IndexDb) (candidates : List (Int × String)) (files : ClusterFiles) :
    Option (Int × String × ExistingFiles) :=
  candidates.findSome? fun c =>
    let existing := fetchExisting fromJson db c.1 files
    if contradicts existing files then none else some (c.1, c.2, existing)

/-- Where a cluster goes that every candidate contradicts. -/
def pickElsewhere (db : IndexDb) (stem poster grp : String) (files : ClusterFiles)
    (candidates : List (Int × String)) : RowPick :=
  let marked := markedPoster R poster files
  if !candidates.any (·.2 = poster) then .adopt none poster fun _ => none
  else if MAX_GEN_SIBLINGS ≤ (candidates.filter (·.2 ≠ poster)).length then
    match (if candidates.any (·.2 = marked) then none else exactHome fromJson db stem marked grp files) with
    | some (rid, key, existing) => .adopt (some rid) key existing
    | none =>
      match hiddenHome R fromJson db stem poster grp files candidates with
      | some (rid, key, existing) => .adopt (some rid) key existing
      | none => .saturated
  else .mint marked

def pickReleaseRow (db : IndexDb) (stem poster grp : String) (files : ClusterFiles) : RowPick :=
  let candidates := genCandidates db stem poster grp
  if candidates = [] then .adopt none poster fun _ => none
  else
    match adoptable fromJson db candidates files with
    | some (rid, key, existing) => .adopt (some rid) key existing
    | none => pickElsewhere R fromJson db stem poster grp files candidates

end NzbFast.Index
