import NzbFast.Index.Routing
import NzbFast.Index.SegRoundTrip
import Mathlib.Data.UInt

/-!
# Ingest

One pass clusters its entries, routes each cluster to a row and merges the cluster's
parts into the row's files, keeping the row's aggregates by adding and subtracting what
each write changed. What a pass could not place goes to the next; a batch has four.

A pass is one transaction. It is `none` where the source returns an error or dies: the
sum of a release's bytes leaves `i64` in the full scan, or a segment list does not fit in
memory. `commits` is whether SQLite lets a pass commit at all. A `HashMap` hands out its
entries in an order nothing fixes (`Shuffle`). What ingest tells its caller besides, the
log, the arrival watch, names and categories, is left out.
-/

namespace NzbFast.Index

open NzbFast.Rust NzbFast.Sql

/-! ## Names -/

/-- `has_suffix`: `eq_ignore_ascii_case` on the tail. -/
def hasSuffix (name : String) (ext : Text) : Bool :=
  (ext.map Char.toLower).isSuffixOf (name.toList.map Char.toLower)

/-- `LOWER(filename) LIKE '%ext'`; LIKE reads a text up to its first NUL. -/
def lowerLike (name : String) (ext : Text) : Bool :=
  ext.isSuffixOf ((name.toList.map Char.toLower).takeWhile (· ≠ '\x00'))

def PAR2_EXT : Text := ['.', 'p', 'a', 'r', '2']

def EXE_EXTS : List Text :=
  [".exe", ".scr", ".lnk", ".bat", ".cmd", ".com", ".msi", ".vbs", ".pif"].map String.toList

def isPar2File (name : String) : Bool := hasSuffix name PAR2_EXT
def isExeFile (name : String) : Bool := EXE_EXTS.any (hasSuffix name)

/-- `LOWER(filename) LIKE '%.par2'`. -/
def par2Sql (name : String) : Bool := lowerLike name PAR2_EXT

def exeFileSql (name : String) : Bool := EXE_EXTS.any (lowerLike name)

/-! ## Aggregates -/

/-- A sum in the range of `i64`. -/
def wrapI64 (n : Int) : Int := n.bmod (2 ^ 64)

/-- The part count of a row: `nsegs` when stamped, the parsed length otherwise. -/
def FileRow.effective (f : FileRow) : Int := if 0 < f.nsegs then f.nsegs else countBytes f.segments

def FileRow.isComplete (f : FileRow) : Bool := (f.totalParts.toNat : Int) ≤ f.effective

namespace RelAgg

def complete (a : RelAgg) : Bool := 1 ≤ a.nfiles && a.ncomplete == a.nfiles

def rowsOf (files : AList fun _ : FileKey => FileRow) (rid : Int) : List (String × FileRow) :=
  (files.entries.filter fun f => f.1.1 = rid).map fun f => (f.1.2, f.2)

def sumOf (rows : List (String × FileRow)) (g : String → FileRow → Int) : Int :=
  (rows.map fun f => g f.1 f.2).sum

def scanned (rows : List (String × FileRow)) : RelAgg where
  nfiles := rows.length
  tbytes := sumOf rows fun _ f => f.bytes
  ncomplete := sumOf rows fun _ f => f.isComplete.toInt
  hasPar2 := 0 < sumOf rows fun name _ => (par2Sql name).toInt
  have_ := sumOf rows fun _ f => f.effective
  need := sumOf rows fun _ f => f.totalParts.toNat
  nexe := sumOf rows fun name _ => (exeFileSql name).toInt

/-- `recompute`; SUM reports an overflow as an error. -/
def recompute (files : AList fun _ : FileKey => FileRow) (rid : Int) : Option RelAgg :=
  let a := scanned (rowsOf files rid)
  if -2 ^ 63 ≤ a.tbytes ∧ a.tbytes < 2 ^ 63 then some a else none

def applyFile (a : RelAgg) (fname : String) (old : Option (Int × UInt32 × Int)) (newSegs : Int)
    (newTotal : UInt32) (newBytes : Int) : RelAgg :=
  let a :=
    match old with
    | some (segs, total, bytes) =>
      { a with
        tbytes := wrapI64 (a.tbytes - bytes)
        have_ := a.have_ - segs
        need := a.need - total.toNat
        ncomplete := a.ncomplete - (decide ((total.toNat : Int) ≤ segs)).toInt }
    | none =>
      { a with
        nfiles := a.nfiles + 1
        hasPar2 := a.hasPar2 || isPar2File fname
        nexe := a.nexe + (isExeFile fname).toInt }
  { a with
    tbytes := wrapI64 (a.tbytes + newBytes)
    have_ := a.have_ + newSegs
    need := a.need + newTotal.toNat
    ncomplete := a.ncomplete + (decide ((newTotal.toNat : Int) ≤ newSegs)).toInt }

end RelAgg

/-! ## The merge -/

abbrev Parts := BTreeMap (String × UInt64)

/-- One part of `merge_parts`: the larger byte count of a part both carry. -/
def mergePart (merged : Parts) (x : Nat × String × UInt64) : Parts :=
  merged.insert x.1 (x.2.1, ((merged.get x.1).map fun prev => max x.2.2 prev.2).getD x.2.2)

def mergeParts (merged parts : Parts) : Parts := parts.entries.foldl mergePart merged

def partsOfSegs (segs : List Seg) : Parts :=
  segs.foldl (fun m seg => m.insert seg.number.toNat (seg.id, seg.bytes)) .empty

def segsOfParts (parts : Parts) : List Seg :=
  parts.entries.map fun x => ⟨UInt32.ofNat x.1, x.2.1, x.2.2⟩

/-- The byte counts added up as `u64`. -/
def partBytes (parts : Parts) : UInt64 := (parts.entries.map fun x => x.2.2).sum

variable (R : Readers) (fromJson : List UInt8 → Option (List Seg))

def msgidMapInsert (m : List (Int × Int)) (rid : Int) (msgids : List String) : List (Int × Int) :=
  (msgids.take MSGID_KEYS_PER_FILE).foldl (fun m id => m.insert (msgidHash R id, rid)) m

def oldContrib (prev : ExistingFile) (merged : Parts) : Int × UInt32 × Int :=
  (if 0 < prev.nsegs then prev.nsegs else merged.entries.length, prev.total, prev.bytes)

/-- The parts a file row holds, none when there is none. -/
def heldParts (prev : Option ExistingFile) : Parts :=
  (prev.map fun p => partsOfSegs p.segs).getD .empty

def fileRow (total : UInt32) (merged : Parts) : FileRow :=
  ⟨total, asI64 (partBytes merged), merged.entries.length, encode (segsOfParts merged)⟩

/-- What the loop over the files of a cluster carries. -/
structure Writing where
  db : IndexDb
  agg : Option RelAgg
  existing : ExistingFiles

/-- One file of a cluster written into the row `rid`. -/
def writeFile (rid : Int) (w : Writing) (fname : String) (f : ClusterFile) : Option Writing :=
  let prev := w.existing fname
  let existing := Function.update w.existing fname none
  -- The second trip-wire: a total that disagrees skips the file.
  if prev.any fun p => p.total ≠ 0 && f.total ≠ 0 && p.total ≠ f.total then
    some { w with existing }
  else
    let held := heldParts prev
    let merged := mergeParts held f.parts
    if textLen (segsOfParts merged) ≤ usizeMax then
      let row := fileRow f.total merged
      some {
        db := { w.db with
          files := w.db.files.insert (rid, fname) row
          msgidMap := msgidMapInsert R w.db.msgidMap rid (merged.entries.map fun x => x.2.1) }
        agg := w.agg.map fun a =>
          a.applyFile fname (prev.map fun p => oldContrib p held) row.nsegs f.total row.bytes
        existing }
    else none

/-! ## One cluster -/

structure Cluster where
  poster : String
  stem : String
  files : ClusterFiles

/-- What became of a cluster. -/
inductive Outcome where
  | saturated
  | written (rid : Int) (minted : Bool) (completed : Bool)
  deriving DecidableEq

/-- The row the known id names, or the upsert of the key. -/
def openRow (db : IndexDb) (grp stem : String) (known : Option Int) (poster : String) :
    Option (IndexDb × Release) :=
  match known with
  | some rid => (db.releases.find rid).map (db, ·)
  | none =>
    match db.releases.lookup (stem, poster, grp) with
    | some r => some (db, r)
    | none =>
      let r : Release := ⟨db.releases.nextId, stem, poster, grp, ⟨0, 0, -1, false, 0, 0, -1⟩, false⟩
      some ({ db with releases := db.releases.place r }, r)

/-- The stored aggregates, trusted when both counters are known. -/
def Release.baseline (r : Release) : Option RelAgg :=
  if 0 ≤ r.agg.ncomplete ∧ 0 ≤ r.agg.nexe then some r.agg else none

def writeInto (grp : String) (order : {α : Type} → List α → List α) (db : IndexDb) (c : Cluster)
    (known : Option Int) (poster : String) (existing : ExistingFiles) (minted : Bool) :
    Option (IndexDb × Outcome) := do
  let (db, r) ← openRow db grp c.stem known poster
  let w ← (order c.files.entries).foldlM (fun w f => writeFile R r.id w f.1 f.2) ⟨db, r.baseline, existing⟩
  let agg ← w.agg.or (RelAgg.recompute w.db.files r.id)
  let row := { r with agg, complete := agg.complete }
  pure ({ w.db with releases := w.db.releases.place row }, .written r.id minted (agg.complete && !r.complete))

/-- One cluster of the loop of `ingest_pass`. -/
def writeCluster (grp : String) (order : {α : Type} → List α → List α) (db : IndexDb) (c : Cluster) :
    Option (IndexDb × Outcome) :=
  match pickReleaseRow R fromJson db c.stem c.poster grp c.files with
  | .saturated => some (db, .saturated)
  | .adopt known poster existing => writeInto R grp order db c known poster existing false
  | .mint poster => writeInto R grp order db c none poster (fun _ => none) true

/-! ## Passes -/

/-- The order in which hash maps hand out their entries. -/
structure Shuffle where
  order : {α : Type} → List α → List α
  perm : ∀ {α : Type} (l : List α), (order l).Perm l

/-- One call of `ingest`. -/
structure Batch where
  grp : String
  entries : List OverEntry
  /-- The installed gate, if any. -/
  gate : Option (String → Bool)
  /-- The title the pre feed knows for a stem. -/
  named : String → Option String
  shuffle : Shuffle
  /-- Does the pass with this budget commit? -/
  commits : Nat → Bool

/-- Does the gate let a stem through, under its fed name if it has one? -/
def Batch.admits (b : Batch) (stem : String) : Bool :=
  match b.gate with
  | none => true
  | some gate => gate ((b.named stem).getD stem)

/-- A cluster, and the index it was routed against. -/
structure Routed where
  before : IndexDb
  cluster : Cluster
  outcome : Outcome

/-- The loop over the clusters of a pass. -/
def writeClusters (b : Batch) : IndexDb → List Cluster → Option (IndexDb × List Routed)
  | db, [] => some (db, [])
  | db, c :: cs => do
    let (db', outcome) ← writeCluster R fromJson b.grp b.shuffle.order db c
    let (db'', routed) ← writeClusters b db' cs
    pure (db'', ⟨db, c, outcome⟩ :: routed)

/-- What a pass leaves behind. -/
structure Passed where
  db : IndexDb
  routed : List Routed
  dropped : List (DropReason × OverEntry)
  deferred : List OverEntry

/-- The counters after `DropCensus::record`. -/
def recordDrops (drops : DropReason → Nat) (dropped : List (DropReason × OverEntry)) :
    DropReason → Nat := fun r => drops r + dropped.countP (·.1 = r)

/-- The clusters of a pass that the gate lets through, in hash order. -/
def admitted (b : Batch) (c : Clustered) : List Cluster :=
  ((b.shuffle.order c.clusters.entries).filter fun x => b.admits x.1.2).map fun x =>
    ⟨x.1.1, x.1.2, x.2⟩

def ingestPass (b : Batch) (budget : Nat) (db : IndexDb) (entries : List OverEntry) :
    Option Passed := do
  let c := clusterBatch R entries budget
  let (db, routed) ← writeClusters R fromJson b db (admitted b c)
  if b.commits budget then
    pure ⟨{ db with drops := recordDrops db.drops c.dropped }, routed, c.dropped, c.deferred⟩
  else none

def MAX_GEN_PASSES : Nat := 4

/-- What a batch leaves behind; `ok` unless a pass failed. -/
structure Ingested where
  db : IndexDb
  routed : List Routed
  dropped : List (DropReason × OverEntry)
  ok : Bool

/-- `ingest_passes`. A pass with no budget defers nothing, so the loop ends there. -/
def ingestPasses (b : Batch) : Nat → IndexDb → List OverEntry → Ingested
  | budget, db, entries =>
    match ingestPass R fromJson b budget db entries with
    | none => ⟨db, [], [], false⟩
    | some p =>
      match budget, p.deferred with
      | budget + 1, e :: es =>
        let q := ingestPasses b budget p.db (e :: es)
        ⟨q.db, p.routed ++ q.routed, p.dropped ++ q.dropped, q.ok⟩
      | _, _ => ⟨p.db, p.routed, p.dropped, true⟩

def ingest (db : IndexDb) (b : Batch) : Ingested :=
  ingestPasses R fromJson b (MAX_GEN_PASSES - 1) db b.entries

/-- `ingest`'s answer: the releases this batch completed. -/
def Ingested.completed (out : Ingested) : Nat :=
  out.routed.countP fun x =>
    match x.outcome with
    | .written _ _ completed => completed
    | .saturated => false

end NzbFast.Index
