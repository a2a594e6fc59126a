import NzbFast.Journal.Names
import NzbFast.Rust.BTreeMap
import Mathlib.Data.List.AList

/-!
# Overview headers and the clusters of a batch

`index/ingest.rs` reads a file name and a part counter out of the subject of each
overview header and clusters a batch by poster and stem. Two articles that claim one
part of one file under different message-ids are two postings: the second waits for a
later pass, or is dropped when the passes left cannot place it.

How a name is read from a counter-stripped subject, how a stem is cut from a name and
how message-ids are digested are parameters (`Readers`): nothing here depends on them.
The upload time, the counter range and the session tag that a cluster also carries are
columns no other part of this model reads, and are left out.
-/

namespace NzbFast.Index

open NzbFast.Rust NzbFast.Journal

/-- What ingest calls and does not look into. -/
structure Readers where
  /-- `quoted_name`. -/
  quotedName : Text → Option String
  /-- `release_stem`. -/
  releaseStem : String → String
  /-- The first `GEN_HEX` digits of the digest behind `msgid_set_key`. -/
  setKey : List Text → String
  /-- The digest behind `msgid_hash`. -/
  hash : Text → Int

structure OverEntry where
  subject : Text
  from_ : String
  messageId : String
  bytes : UInt64
  deriving DecidableEq

/-- `strip_prefix('<')`, then `strip_suffix('>')`. -/
def stripAngles (t : Text) : Text :=
  let t := if t.head? = some '<' then t.tail else t
  if t.getLast? = some '>' then t.dropLast else t

def normMsgid (msgid : String) : Text := stripAngles (trim msgid.toList)

/-! ## The subject -/

/-- The character that closes a bracket a counter can stand in. -/
def closeOf : Char → Option Char
  | '(' => some ')'
  | '[' => some ']'
  | _ => none

/-- `str::find` of a text. -/
def findText (pat : Text) : Text → Option Nat
  | [] => if pat = [] then some 0 else none
  | c :: t => if pat.isPrefixOf (c :: t) then some 0 else (findText pat t).map (· + 1)

/-- Where the separator of a counter stands, and its length. -/
def counterSep (inner : Text) : Option (Nat × Nat) :=
  match findText ['/'] inner with
  | some i => some (i, 1)
  | none => (findText [' ', 'o', 'f', ' '] (inner.map Char.toLower)).map fun i => (i, 4)

/-- The counter in the bracket that opens at `open_`, with the subject around it. -/
def counterAt (subject : Text) (open_ : Nat) : Option (Text × UInt32 × UInt32) := do
  let rest := subject.drop open_
  let close ← rest.head?.bind closeOf
  let j ← findText [close] rest
  let inner := (rest.take j).drop 1
  let (si, sl) ← counterSep inner
  let n ← parseU32 (trim (inner.take si))
  let m ← parseU32 (trim (inner.drop (si + sl)))
  pure (trimEnd isWhitespace (subject.take open_) ++ trimEnd isWhitespace (rest.drop (j + 1)), n, m)

/-- `split_subject_at`: the rightmost bracket that holds a counter. -/
def splitSubjectAt (subject : Text) : Option (Text × UInt32 × UInt32 × Nat) :=
  (List.range subject.length).reverse.findSome? fun open_ =>
    (counterAt subject open_).map fun c => (c.1, c.2.1, c.2.2, open_)

def pairIsLeading (subject : Text) (open_ : Nat) : Bool :=
  subject.findIdx? (fun c => !isWhitespace c) == some open_

variable (R : Readers)

/-- The file and the position of a subject whose only pair is a leading `[n/m]` of this poster. -/
def leadingPair (poster : String) (m : UInt32) (e : OverEntry) : Option (String × UInt32) := do
  let (base, n, m', open_) ← splitSubjectAt e.subject
  if e.from_ = poster ∧ m' = m ∧ 1 < m ∧ pairIsLeading e.subject open_ then
    (R.quotedName base).map (·, n)
  else none

/-- `session_totals_that_count_files`: does `[n/m]` of this poster count files? -/
def countsFiles (entries : List OverEntry) (poster : String) (m : UInt32) : Bool :=
  let seen := entries.filterMap (leadingPair R poster m)
  let names := (seen.map (·.1)).dedup
  let positions := fun name => ((seen.filter (·.1 = name)).map (·.2)).dedup
  let counts := names.flatMap positions
  let keys := counts.dedup
  if names.any fun name => 1 < (positions name).length then false
  else if names.length < 3 then false
  else
    (keys.all fun n => counts.count n == 1) ||
      (keys.length == m.toNat && (keys.all fun n => 1 ≤ n && n ≤ m) &&
        keys.all fun n => counts.count n == names.length / keys.length)

/-! ## One header -/

/-- The counters of `DropCensus`. -/
inductive DropReason where
  | unparseable
  | noFilename
  | emptyStem
  | genDepth
  deriving DecidableEq

/-- What a header says: a part of a file, with a usable counter. -/
structure Reading where
  fname : String
  stem : String
  part : UInt32
  total : UInt32
  pos : 1 ≤ part.toNat
  le : part.toNat ≤ total.toNat

/-- The counter of a header: its own, or 1 of 1 where a leading pair counts files. -/
def partOf (entries : List OverEntry) (e : OverEntry) : Text × UInt32 × UInt32 :=
  match splitSubjectAt e.subject with
  | none => (e.subject, 1, 1)
  | some (base, part, total, open_) =>
    let total :=
      if 1 < total ∧ pairIsLeading e.subject open_ ∧ countsFiles R entries e.from_ total then 1
      else total
    (base, if total = 1 then 1 else part, total)

/-- What one header of a batch says. -/
def readEntry (entries : List OverEntry) (e : OverEntry) : Except DropReason Reading :=
  match partOf R entries e with
  | (base, part, total) =>
    if h : e.messageId ≠ "" ∧ 1 ≤ part.toNat ∧ total ≠ 0 ∧ part.toNat ≤ total.toNat then
      match R.quotedName base with
      | none => .error .noFilename
      | some fname =>
        if R.releaseStem fname = "" then .error .emptyStem
        else .ok ⟨fname, R.releaseStem fname, part, total, h.2.1, h.2.2.2⟩
    else .error .unparseable

/-! ## Clusters -/

/-- One file of a batch: its total and its parts, each with an id and a byte count. -/
structure ClusterFile where
  total : UInt32
  parts : BTreeMap (String × UInt64)
  within : ∀ x ∈ parts, 1 ≤ x.1 ∧ x.1 ≤ total.toNat
  nonempty : parts.entries ≠ []

abbrev ClusterFiles := AList fun _ : String => ClusterFile

abbrev ClusterKey := String × String

def ClusterFile.single (r : Reading) (e : OverEntry) : ClusterFile where
  total := r.total
  parts := BTreeMap.empty.insert r.part.toNat (e.messageId, e.bytes)
  within := by
    intro x hx
    rcases BTreeMap.mem_insert.mp hx with rfl | ⟨hx, -⟩
    · exact ⟨r.pos, r.le⟩
    · exact absurd hx (BTreeMap.not_mem_empty x)
  nonempty := List.append_ne_nil_of_right_ne_nil _ (List.cons_ne_nil _ _)

def ClusterFile.add (f : ClusterFile) (r : Reading) (e : OverEntry) (h : f.total = r.total) :
    ClusterFile where
  total := f.total
  parts := f.parts.insert r.part.toNat (e.messageId, e.bytes)
  within := by
    intro x hx
    rcases BTreeMap.mem_insert.mp hx with rfl | ⟨hx, -⟩
    · exact ⟨r.pos, h ▸ r.le⟩
    · exact f.within x hx
  nonempty := List.append_ne_nil_of_right_ne_nil _ (List.cons_ne_nil _ _)

def ClusterFile.taken (f : ClusterFile) (part : UInt32) (msgid : String) : Bool :=
  (f.parts.get part.toNat).any fun v => normMsgid v.1 ≠ normMsgid msgid

abbrev Slot := ClusterKey × String × UInt32

/-- `Clustered`. `slotGen` holds the ids each slot has deferred; `dropped` is what the drop
counters of the pass count. -/
structure Clustered where
  clusters : AList fun _ : ClusterKey => ClusterFiles
  deferred : List OverEntry
  slotGen : AList fun _ : Slot => List Text
  dropped : List (DropReason × OverEntry)

def Clustered.empty : Clustered := ⟨∅, [], ∅, []⟩

def Clustered.drop (c : Clustered) (r : DropReason) (e : OverEntry) : Clustered :=
  { c with dropped := c.dropped ++ [(r, e)] }

def Clustered.files (c : Clustered) (k : ClusterKey) : ClusterFiles := (c.clusters.lookup k).getD ∅

/-- `defer_fits_budget`, and the deferral or the drop that it decides. -/
def Clustered.defer (c : Clustered) (budget : Nat) (slot : Slot) (e : OverEntry) : Clustered :=
  let seen := (c.slotGen.lookup slot).getD []
  let idn := normMsgid e.messageId
  if idn ∈ seen then { c with deferred := c.deferred ++ [e] }
  else if seen.length < budget then
    { c with deferred := c.deferred ++ [e], slotGen := c.slotGen.insert slot (seen ++ [idn]) }
  else c.drop .genDepth e

def Clustered.put (c : Clustered) (k : ClusterKey) (fname : String) (f : ClusterFile) : Clustered :=
  { c with clusters := c.clusters.insert k ((c.files k).insert fname f) }

/-- One article of the loop of `cluster_batch`. -/
def Clustered.place (budget : Nat) (c : Clustered) (r : Reading) (e : OverEntry) : Clustered :=
  let k : ClusterKey := (e.from_, r.stem)
  match (c.files k).lookup r.fname with
  | none => c.put k r.fname (.single r e)
  | some f =>
    if h : f.total = r.total ∧ f.taken r.part e.messageId = false then
      c.put k r.fname (f.add r e h.1)
    else c.defer budget (k, r.fname, r.part) e

def clusterOne (entries : List OverEntry) (budget : Nat) (c : Clustered) (e : OverEntry) :
    Clustered :=
  match readEntry R entries e with
  | .error reason => c.drop reason e
  | .ok r => c.place budget r e

def clusterBatch (entries : List OverEntry) (budget : Nat) : Clustered :=
  entries.foldl (clusterOne R entries budget) .empty

end NzbFast.Index
