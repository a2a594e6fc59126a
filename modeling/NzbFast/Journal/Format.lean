import NzbFast.Fold.Table
import NzbFast.Journal.Names

/-!
# The resume journal

The line format of `crates/nzbkit/src/journal.rs`: what `parse_lines` makes of
a line, what the writers emit, and `open`. A line is read in two steps,
`parseLine` (which line is it) and `Replay.apply` (what it does to the tables).
`parseLine` answers `none` where the source panics: `from_hex` slices its field
by bytes, and a slice through a character panics.

Left out: the batch clock (`Call` says with a flag whether the age rule fired),
the file-type checks of `open_private_leaf`, and retirement.
-/

namespace NzbFast.Journal

open NzbFast.Rust Fold

abbrev Bytes (n : Nat) := List.Vector UInt8 n

/-! ## Hex fields -/

def toHex (b : List UInt8) : Text := b.flatMap (hexPadded 2 ·.toNat)

/-- The pairs of a field of an even number of bytes. The outer option is the panic of a slice that
cuts a character. -/
def hexPairs : Text → Option (Option (List UInt8))
  | [] => some (some [])
  | [c] => if c.utf8Size = 2 then some none else none
  | c :: c' :: t =>
    if c.utf8Size = 2 then some none
    else if c.utf8Size ≠ 1 ∨ c'.utf8Size ≠ 1 then none
    else
      match fromStrRadix 16 256 [c, c'] with
      | none => some none
      | some b => (hexPairs t).map (·.map (UInt8.ofNat b :: ·))

def fromHex (t : Text) : Option (Option (List UInt8)) :=
  if utf8Len t % 2 = 0 then hexPairs t else some none

/-- `from_hex` into an array of `n` bytes. -/
def fromHexN (n : Nat) (t : Text) : Option (Option (Bytes n)) :=
  (fromHex t).map (·.bind fun b => if h : b.length = n then some ⟨b, h⟩ else none)

/-! ## Lines -/

structure Frag where
  file : Text
  fileOff : UInt64
  volOff : UInt64
  len : UInt64
  deriving DecidableEq

/-- A fragment as a placement line spells it: the file by its index in the table. -/
structure RawFrag where
  fidx : UInt64
  fileOff : UInt64
  volOff : UInt64
  len : UInt64
  cryptoFrag : Bool
  deriving DecidableEq

inductive Line
  | params (name : Text) (salt : Bytes 16) (lg2 : UInt8) (iv : Bytes 16) (unp : UInt64)
      (check : Option (Bytes 12))
  | checkpoint (name : Text) (off : UInt64) (block : Bytes 16)
  | tailPad (name : Text) (pad : List UInt8)
  | votes (slot : UInt64) (votes : UInt32) (name : Text)
  | digest (id : Text) (crc : UInt32)
  | file (idx : UInt64) (name : Text)
  | slotName (slot size : UInt64) (name : Text)
  | placed (crypto : Bool) (slot : UInt64) (frags : List RawFrag) (id : Text)
  | retired (name : Text)
  | materialized (slot : UInt64)
  | article (id : Text)
  | skip

section Parse

variable (sha256 : List UInt8 → Bytes 32) (windows : Bool)

def parseParams (rest : Text) : Option Line :=
  match splitn 6 ' ' rest with
  | [salt, lg2, iv, unp, ck, name] =>
    (fromHexN 16 salt).bind fun salt => (fromHexN 16 iv).bind fun iv =>
      match salt, parseU8 lg2, iv, parseU64 unp with
      | some salt, some lg2, some iv, some unp =>
        if name = [] then some .skip
        else if ck = ['-'] then
          some (.params (sanitizeOutName sha256 windows name) salt lg2 iv unp none)
        else
          (fromHexN 12 ck).map fun check =>
            match check with
            | some check =>
              .params (sanitizeOutName sha256 windows name) salt lg2 iv unp (some check)
            | none => .skip
      | _, _, _, _ => some .skip
  | _ => some .skip

def parseCheckpoint (rest : Text) : Option Line :=
  match splitn 3 ' ' rest with
  | [off, block, name] =>
    (fromHexN 16 block).map fun block =>
      match parseU64 off, block with
      | some off, some block =>
        if name = [] then .skip else .checkpoint (sanitizeOutName sha256 windows name) off block
      | _, _ => .skip
  | _ => some .skip

def parseTailPad (rest : Text) : Option Line :=
  match splitn 2 ' ' rest with
  | [pad, name] =>
    if name = [] then some .skip
    else
      (if pad = ['-'] then some (some []) else fromHex pad).map fun pad =>
        match pad with
        | some pad => .tailPad (sanitizeOutName sha256 windows name) pad
        | none => .skip
  | _ => some .skip

def parseVotes (rest : Text) : Line :=
  match splitn 3 ' ' rest with
  | [slot, votes, name] =>
    match parseU64 slot, parseU32 votes with
    | some slot, some votes => if name = [] then .skip else .votes slot votes name
    | _, _ => .skip
  | _ => .skip

def parseDigest (rest : Text) : Line :=
  match splitOnce ' ' rest with
  | some (hex, id) =>
    if id = [] then .skip
    else
      match fromStrRadix 16 (2 ^ 32) hex with
      | some crc => .digest id (UInt32.ofNat crc)
      | none => .skip
  | none => .skip

def parseFile (rest : Text) : Line :=
  match splitOnce ' ' rest with
  | some (idx, name) =>
    match parseU64 idx with
    | some idx => if name = [] then .skip else .file idx (sanitizeOutName sha256 windows name)
    | none => .skip
  | none => .skip

def parseSlotName (rest : Text) : Line :=
  match splitn 3 ' ' rest with
  | [slot, size, name] =>
    match parseU64 slot, parseU64 size with
    | some slot, some size =>
      if name = [] then .skip else .slotName slot size (sanitizeOutName sha256 windows name)
    | _, _ => .skip
  | _ => .skip

/-- How a fragment restores, and the fields left over: a `D` fragment may carry a fifth one. -/
def parseMark (crypto : Bool) (more : List Text) : Option (Bool × List Text) :=
  if crypto then
    match more with
    | [] => some (true, [])
    | m :: more => if m = ['0'] then some (false, more) else if m = ['1'] then some (true, more) else none
  else some (false, more)

def parsePart (crypto : Bool) (part : Text) : Option RawFrag :=
  match split ':' part with
  | fi :: fo :: vo :: ln :: more =>
    match parseU64 fi, parseU64 fo, parseU64 vo, parseU64 ln, parseMark crypto more with
    | some fi, some fo, some vo, some ln, some (cf, more) =>
      if ln = 0 ∨ more ≠ [] then none else some ⟨fi, fo, vo, ln, cf⟩
    | _, _, _, _, _ => none
  | _ => none

def parsePlaced (crypto : Bool) (rest : Text) : Line :=
  match splitn 3 ' ' rest with
  | [slot, list, id] =>
    match parseU64 slot, (split ',' list).mapM (parsePart crypto) with
    | some slot, some frags => if id = [] then .skip else .placed crypto slot frags id
    | _, _ => .skip
  | _ => .skip

def parseMaterialized (rest : Text) : Line :=
  match parseU64 (trim rest) with
  | some slot => .materialized slot
  | none => .skip

/-- Which line it is; `none` is a panic. -/
def parseLine : Text → Option Line
  | [] => some .skip
  | 'E' :: ' ' :: rest => parseParams sha256 windows rest
  | 'K' :: ' ' :: rest => parseCheckpoint sha256 windows rest
  | 'T' :: ' ' :: rest => parseTailPad sha256 windows rest
  | 'V' :: ' ' :: rest => some (parseVotes rest)
  | 'H' :: ' ' :: rest => some (parseDigest rest)
  | 'F' :: ' ' :: rest => some (parseFile sha256 windows rest)
  | 'S' :: ' ' :: rest => some (parseSlotName sha256 windows rest)
  | 'R' :: ' ' :: rest => some (parsePlaced false rest)
  | 'D' :: ' ' :: rest => some (parsePlaced true rest)
  | 'X' :: ' ' :: rest =>
    some (if rest = [] then .skip else .retired (sanitizeOutName sha256 windows rest))
  | 'G' :: ' ' :: _ => some .skip
  | 'M' :: ' ' :: rest => some (parseMaterialized rest)
  | line => some (.article line)

end Parse

/-! ## Replay -/

/-- Crypt facts for one plaintext-once output. -/
structure CryptoFileMeta where
  salt : Bytes 16 := List.Vector.replicate 16 0
  lg2 : UInt8 := 0
  iv : Bytes 16 := List.Vector.replicate 16 0
  unp : UInt64 := 0
  check : Option (Bytes 12) := none
  pad : Option (List UInt8) := none
  checkpoints : Table UInt64 (Bytes 16) := ∅

/-- A placement as the reader holds it. -/
structure Placed where
  slot : UInt64
  frags : List Frag
  cryptoFrag : List Bool
  crypto : Bool
  crc : Option UInt32
  deriving DecidableEq

/-- The records of a journal, by what they are about. -/
structure Records where
  placed : Table Text Placed := ∅
  slotMeta : Table UInt64 (Text × UInt64) := ∅
  completed : Finset Text := ∅
  cryptoFiles : Table Text CryptoFileMeta := ∅
  nameVotes : Table UInt64 (List (Text × UInt32)) := ∅

namespace Records

/-- `placed` under a slot's demotion: identity fragments of the slot's own file. -/
def materialize (r : Records) (slot : UInt64) (name : Text) : Records :=
  { r with placed := r.placed.filterMap fun _ p => some (
      if p.slot = slot then
        { p with
          frags := p.frags.map fun f => { f with file := name, fileOff := f.volOff }
          cryptoFrag := p.cryptoFrag.map fun _ => false
          crypto := false }
      else p) }

/-- The last count of a name replaces the one before it. -/
def tally (name : Text) (votes : UInt32) : List (Text × UInt32) → List (Text × UInt32)
  | [] => [(name, votes)]
  | e :: t => if e.1 = name then (e.1, votes) :: t else e :: tally name votes t

def vote (r : Records) (slot : UInt64) (name : Text) (votes : UInt32) : Records :=
  { r with nameVotes := r.nameVotes.step slot [] (tally name votes) }

def crypt (r : Records) (name : Text) (f : CryptoFileMeta → CryptoFileMeta) : Records :=
  { r with cryptoFiles := r.cryptoFiles.step name {} f }

end Records

/-- The reader's tables. -/
structure Replay where
  recs : Records := {}
  ftable : Table UInt64 Text := ∅
  digests : Table Text UInt32 := ∅

namespace Replay

/-- A fragment with its file's name, where the table has the index. -/
def resolve (ftable : Table UInt64 Text) (f : RawFrag) : Option Frag :=
  (ftable.lookup f.fidx).map fun file => ⟨file, f.fileOff, f.volOff, f.len⟩

def apply (r : Replay) : Line → Replay
  | .params name salt lg2 iv unp check =>
    { r with recs := r.recs.crypt name fun m =>
        { m with salt := salt, lg2 := lg2, iv := iv, unp := unp, check := check } }
  | .checkpoint name off block =>
    { r with recs := r.recs.crypt name fun m =>
        { m with checkpoints := m.checkpoints.insert off block } }
  | .tailPad name pad => { r with recs := r.recs.crypt name fun m => { m with pad := some pad } }
  | .votes slot votes name => { r with recs := r.recs.vote slot name votes }
  | .digest id crc => { r with digests := r.digests.insert id crc }
  | .file idx name => { r with ftable := r.ftable.insert idx name }
  | .slotName slot size name =>
    { r with recs := { r.recs with slotMeta := r.recs.slotMeta.insert slot (name, size) } }
  | .placed crypto slot frags id =>
    match frags.mapM (resolve r.ftable) with
    | some fs =>
      let p : Placed := ⟨slot, fs, frags.map (·.cryptoFrag), crypto, r.digests.lookup id⟩
      { r with recs := { r.recs with placed := r.recs.placed.insert id p } }
    | none => r
  | .retired name =>
    let kept := r.recs.placed.filterMap fun _ p =>
      if p.frags.any (·.file = name) then none else some p
    { r with recs := { r.recs with placed := kept } }
  | .materialized slot =>
    match r.recs.slotMeta.lookup slot with
    | some (name, _) => { r with recs := r.recs.materialize slot name }
    | none => r
  | .article id => { r with recs := { r.recs with completed := insert id r.recs.completed } }
  | .skip => r

end Replay

/-! ## Resume state -/

structure Article where
  id : Text
  frags : List Frag
  cryptoFrag : List Bool
  crypto : Bool
  crc : Option UInt32
  deriving DecidableEq

structure SlotPlacement where
  name : Text
  size : UInt64
  articles : List Article
  deriving DecidableEq

/-- Everything a resume run learns from an existing journal. -/
structure ResumeState where
  completed : Finset Text := ∅
  slots : Table UInt64 SlotPlacement := ∅
  cryptoFiles : Table Text CryptoFileMeta := ∅
  nameVotes : Table UInt64 (List (Text × UInt32)) := ∅

def Records.group (r : Records) (slots : Table UInt64 SlotPlacement) (id : Text) :
    Table UInt64 SlotPlacement :=
  match r.placed.lookup id with
  | none => slots
  | some p =>
    match r.slotMeta.lookup p.slot with
    | none => slots
    | some (name, size) => slots.step p.slot ⟨name, size, []⟩ fun s =>
        { s with articles := s.articles ++ [⟨id, p.frags, p.cryptoFrag, p.crypto, p.crc⟩] }

/-- The end of `parse_lines`. -/
def Records.resume (o : HashOrder Text) (r : Records) : ResumeState where
  completed := r.completed
  slots := (o.order r.placed.keys).foldl r.group ∅
  cryptoFiles := r.cryptoFiles
  nameVotes := r.nameVotes

section Read

variable (sha256 : List UInt8 → Bytes 32) (windows : Bool)

def Replay.step (r : Replay) (line : Text) : Option Replay :=
  (parseLine sha256 windows line).map r.apply

/-- `parse_lines`; `none` is a panic. -/
def parseLines (o : HashOrder Text) (lines : List Text) : Option ResumeState :=
  (lines.foldlM (Replay.step sha256 windows) {}).map fun r => r.recs.resume o

end Read

end NzbFast.Journal
