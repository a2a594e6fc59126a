import NzbFast.Journal.Format

/-!
# The journal's writers

`record`, `record_placed`, `record_placed_crypto`, `record_materialized`,
`record_name_votes`, `record_crypto_events` and `open` of
`crates/nzbkit/src/journal.rs`. A call composes its lines from the run's tables
(`Tables`), and the write state queues or lands their bytes. `Call` comes with
the answer of the batch clock: nothing read back depends on it.
-/

namespace NzbFast.Journal

open NzbFast.Rust Fold

/-! ## Calls -/

inductive CryptoEvent
  | params (name : Text) (salt : Bytes 16) (lg2 : UInt8) (iv : Bytes 16) (unp : UInt64)
      (check : Option (Bytes 12))
  | checkpoint (name : Text) (off : UInt64) (block : Bytes 16)
  | tailPad (name : Text) (pad : List UInt8)

/-- The arguments of a placement call. -/
structure Placing where
  slot : UInt64
  id : Text
  slotFile : Option (Text × UInt64)
  name : Text
  size : UInt64
  frags : List Frag
  crc : Option UInt32

inductive Call
  | record (id : Text)
  | recordPlaced (a : Placing)
  | recordPlacedCrypto (a : Placing) (mask : List Bool)
  | recordMaterialized (slot : UInt64) (name : Text) (size : UInt64)
  | recordNameVotes (slot : UInt64) (votes : List (Text × UInt32))
  | recordCryptoEvents (events : List CryptoEvent)
  | flush

/-! ## Lines -/

/-- Fields joined by spaces, after their letter. -/
def lineOf (letter : Char) (fields : List Text) : Text :=
  letter :: ' ' :: List.intercalate [' '] fields

def slotLine (slot size : UInt64) (dest : Text) : Text :=
  lineOf 'S' [decimal slot.toNat, decimal size.toNat, dest]

def fileLine (idx : Nat) (name : Text) : Text := lineOf 'F' [decimal idx, name]

def digestLine (crc : UInt32) (id : Text) : Text := lineOf 'H' [hexPadded 8 crc.toNat, id]

def materializedLine (slot : UInt64) : Text := lineOf 'M' [decimal slot.toNat]

def voteLine (slot : UInt64) (votes : UInt32) (name : Text) : Text :=
  lineOf 'V' [decimal slot.toNat, decimal votes.toNat, name]

/-- The marker of a fragment of a `D` line. -/
def markOf (mask : List Bool) (i : Nat) : Bool := mask.getD i true

/-- One fragment: its file's index, then the tail composed ahead of the lock. -/
def partText (fidx : Nat) (f : Frag) (mark : Option Bool) : Text :=
  List.intercalate [':'] ([decimal fidx, decimal f.fileOff.toNat, decimal f.volOff.toNat,
    decimal f.len.toNat] ++ (mark.map fun m => if m then ['1'] else ['0']).toList)

def placedLine (slot : UInt64) (id : Text) (fidxs : List Nat) (frags : List Frag)
    (mask : Option (List Bool)) : Text :=
  lineOf (if mask.isSome then 'D' else 'R') [decimal slot.toNat,
    List.intercalate [','] ((fidxs.zip frags).zipIdx.map fun x =>
      partText x.1.1 x.1.2 (mask.map (markOf · x.2))), id]

def eventLine : CryptoEvent → Text
  | .params name salt lg2 iv unp check =>
    lineOf 'E' [toHex salt.toList, decimal lg2.toNat, toHex iv.toList, decimal unp.toNat,
      (check.map fun c => toHex c.toList).getD ['-'], name]
  | .checkpoint name off block => lineOf 'K' [decimal off.toNat, toHex block.toList, name]
  | .tailPad name pad => lineOf 'T' [if pad = [] then ['-'] else toHex pad, name]

/-! ## Composition -/

/-- What the writer has told this run's readers. -/
structure Tables where
  slotsEmitted : Finset UInt64 := ∅
  /-- File names, each at its index in this run's `F` table. -/
  files : List Text := []
  usedNames : Finset Text := ∅

/-- The index of a file, with its `F` line if the file is new. -/
def internFile (files : List Text) (name : Text) : List Text × List Text × Nat :=
  if name ∈ files then (files, [], files.idxOf name)
  else (files ++ [name], [fileLine files.length name], files.length)

def internFiles : List Text → List Frag → List Text × List Text × List Nat
  | files, [] => (files, [], [])
  | files, f :: fs =>
    let (files, l, i) := internFile files f.file
    let (files, ls, is) := internFiles files fs
    (files, l ++ ls, i :: is)

section Write

variable (sha256 : List UInt8 → Bytes 32) (windows : Bool)

/-- The destination a first record of a slot names in its `S` line. -/
def destination (t : Tables) (a : Placing) : Option (Text × UInt64) :=
  if a.slot ∈ t.slotsEmitted then none
  else some (a.slotFile.getD (
    let n := sanitizeOutName sha256 windows a.name
    (if n ∈ t.usedNames then disambiguatedOutName sha256 windows n a.slot.toNat 0 else n, a.size)))

/-- The tables once an `S` line is written. -/
def Tables.claim (t : Tables) (slot : UInt64) (dest : Text) : Tables :=
  { t with usedNames := insert dest t.usedNames, slotsEmitted := insert slot t.slotsEmitted }

/-- The tables of a call that writes an `S` line, or none. -/
def Tables.named (t : Tables) (slot : UInt64) : Option (Text × UInt64) → Tables
  | some d => t.claim slot d.1
  | none => t

def recordLetter (t : Tables) (a : Placing) (mask : Option (List Bool)) : List Text × Tables :=
  if a.frags = [] then ([], t)
  else
    let dest := destination sha256 windows t a
    let t := t.named a.slot dest
    let (files, fLines, fidxs) := internFiles t.files a.frags
    ((dest.map fun d => slotLine a.slot d.2 d.1).toList ++ fLines ++
      (a.crc.map fun c => digestLine c a.id).toList ++
      [placedLine a.slot a.id fidxs a.frags mask], { t with files := files })

def materializedLines (t : Tables) (slot : UInt64) (name : Text) (size : UInt64) :
    List Text × Tables :=
  let dest := sanitizeOutName sha256 windows name
  if dest = [] then ([materializedLine slot], t)
  else ([slotLine slot size dest, materializedLine slot], t.claim slot dest)

/-- A vote that can be written: a name that would end its line early is dropped. -/
def writableVote (v : Text × UInt32) : Bool := v.1 ≠ [] ∧ '\n' ∉ v.1 ∧ '\r' ∉ v.1

def voteLines (slot : UInt64) (votes : List (Text × UInt32)) : List Text :=
  (votes.filter writableVote).map fun v => voteLine slot v.2 v.1

def callLines (t : Tables) : Call → List Text × Tables
  | .record id => ([id], t)
  | .recordPlaced a => recordLetter sha256 windows t a none
  | .recordPlacedCrypto a mask => recordLetter sha256 windows t a (some mask)
  | .recordMaterialized slot name size => materializedLines sha256 windows t slot name size
  | .recordNameVotes slot votes => (voteLines slot votes, t)
  | .recordCryptoEvents events => (events.map eventLine, t)
  | .flush => ([], t)

def image (lines : List Text) : List UInt8 := lines.flatMap fun l => encode l ++ [0x0A]

/-! ## Landing -/

def BATCH_BYTES : Nat := 32 * 1024

structure WriteState where
  file : List UInt8
  pending : List UInt8 := []
  tables : Tables := {}

def WriteState.flush (w : WriteState) : WriteState :=
  { w with file := w.file ++ w.pending, pending := [] }

/-- A record behind the batch rule; `aged` says that the last landing is old enough. -/
def WriteState.queue (w : WriteState) (rec : List UInt8) (aged : Bool) : WriteState :=
  let w := { w with pending := w.pending ++ rec }
  if BATCH_BYTES ≤ w.pending.length ∨ aged then w.flush else w

/-- A record that lands now, behind whatever is queued. -/
def WriteState.land (w : WriteState) (rec : List UInt8) : WriteState :=
  let w := w.flush
  { w with file := w.file ++ rec }

/-- Placement records are queued, the rest lands; a call that composed nothing writes nothing. -/
def WriteState.call (w : WriteState) (c : Call × Bool) : WriteState :=
  let (lines, t) := callLines sha256 windows w.tables c.1
  let w := { w with tables := t }
  match c.1 with
  | .flush => w.flush
  | .record _ | .recordPlaced _ | .recordPlacedCrypto _ _ =>
    if lines = [] then w else w.queue (image lines) c.2
  | _ => if lines = [] then w else w.land (image lines)

/-! ## Opening -/

structure Generation where
  pid : Nat
  clock : Nat
  seq : Nat

def generationLine (g : Generation) : Text :=
  lineOf 'G' [List.intercalate ['-'] [hexPadded 0 g.pid, hexPadded 0 g.clock, hexPadded 0 g.seq]]

def header (fp : Bytes 16) : Text := "nzbfast-journal v1 ".toList ++ toHex fp.toList

def headed (fp : Bytes 16) (file : List UInt8) : Bool := (utf8Lines file).head? = some (header fp)

def endLine (file : List UInt8) : List UInt8 :=
  if file ≠ [] ∧ file.getLast? ≠ some 0x0A then file ++ [0x0A] else file

/-- The file after `open`: kept or restarted, its last line ended, the generation claimed. -/
def openFile (fp : Bytes 16) (g : Generation) (file : List UInt8) : List UInt8 :=
  endLine (if headed fp file then file else image [header fp]) ++ image [generationLine g]

/-- The resume state `open` returns; `none` is a panic. -/
def openResume (o : HashOrder Text) (fp : Bytes 16) (file : List UInt8) : Option ResumeState :=
  if headed fp file then parseLines sha256 windows o (utf8Lines file).tail else some {}

/-- One run: an open, calls, and the flush of the drop. -/
structure Run where
  generation : Generation
  calls : List (Call × Bool)

def runFile (fp : Bytes 16) (file : List UInt8) (run : Run) : List UInt8 :=
  (run.calls.foldl (WriteState.call sha256 windows)
    { file := openFile fp run.generation file }).flush.file

def journal (fp : Bytes 16) (runs : List Run) : List UInt8 :=
  runs.foldl (runFile sha256 windows fp) []

end Write

end NzbFast.Journal
