import NzbFast.Zip.EndRecord
import NzbFast.Zip.Directory
import NzbFast.Rust.Utf8

/-!
# The walk over the central directory

`parse_central_directory` with `decode_entry_name`: `count` records from
`Directory::at`, each with its zip64 and AE extra fields resolved, which must
take exactly the size that the end record gives.
-/

namespace NzbFast.Zip

open Wire Rust

def MAX_NAME : Nat := 4096

/-- `CP437_HIGH`. -/
def CP437_HIGH : List Char :=
  ['Ç', 'ü', 'é', 'â', 'ä', 'à', 'å', 'ç',
   'ê', 'ë', 'è', 'ï', 'î', 'ì', 'Ä', 'Å',
   'É', 'æ', 'Æ', 'ô', 'ö', 'ò', 'û', 'ù',
   'ÿ', 'Ö', 'Ü', '¢', '£', '¥', '₧', 'ƒ',
   'á', 'í', 'ó', 'ú', 'ñ', 'Ñ', 'ª', 'º',
   '¿', '⌐', '¬', '½', '¼', '¡', '«', '»',
   '░', '▒', '▓', '│', '┤', '╡', '╢', '╖',
   '╕', '╣', '║', '╗', '╝', '╜', '╛', '┐',
   '└', '┴', '┬', '├', '─', '┼', '╞', '╟',
   '╚', '╔', '╩', '╦', '╠', '═', '╬', '╧',
   '╨', '╤', '╥', '╙', '╘', '╒', '╓', '╫',
   '╪', '┘', '┌', '█', '▄', '▌', '▐', '▀',
   'α', 'ß', 'Γ', 'π', 'Σ', 'σ', 'µ', 'τ',
   'Φ', 'Θ', 'Ω', 'δ', '∞', 'φ', 'ε', '∩',
   '≡', '±', '≥', '≤', '⌠', '⌡', '÷', '≈',
   '°', '∙', '·', '√', 'ⁿ', '²', '■', '\u00a0']

/-- `decode_entry_name`: UTF-8 where the bytes are, what the flag asks for where
they are not. -/
def decodeEntryName (bytes : List UInt8) (flags : UInt16) : String :=
  match fromUtf8 bytes with
  | some s => s
  | none =>
    if flags &&& 0x0800 != 0 then fromUtf8Lossy bytes
    else String.ofList (bytes.map fun b =>
      if b < 0x80 then Char.ofNat b.toNat else CP437_HIGH.getD (b.toNat - 0x80) ' ')

/-- The fields of a record that its extra fields resolve. -/
structure Resolved where
  usize : Nat
  csize : Nat
  localOff : Nat
  disk : Nat
  aes : Option AesSpec
  deriving DecidableEq

/-- One value of a zip64 field, taken where the record's own is saturated: the
value, and the bytes behind what was taken. -/
def takeZip64 (old : Nat) (body : List UInt8) : Except ZipError (Nat × List UInt8) :=
  if old = U32_MAX then
    if 8 ≤ body.length then .ok ((rdU64 body).toNat, body.drop 8)
    else .error (.malformed "zip64 field truncated")
  else .ok (old, body)

/-- The extra field 0x0001. -/
def applyZip64 (f : Resolved) (body : List UInt8) : Except ZipError Resolved := do
  let (usize, body) ← takeZip64 f.usize body
  let (csize, body) ← takeZip64 f.csize body
  let (localOff, body) ← takeZip64 f.localOff body
  let disk := if f.disk = U16_MAX ∧ 4 ≤ body.length then (rdU32 body).toNat else f.disk
  .ok { f with usize, csize, localOff, disk }

/-- The extra field 0x9901. -/
def applyAes (f : Resolved) (body : List UInt8) : Resolved :=
  if (body.drop 2).take 2 = [0x41, 0x45] then
    let spec : AesSpec :=
      { vendorVersion := rdU16 body, strength := body.getD 4 0, method := rdU16 (body.drop 5) }
    { f with aes := some spec }
  else f

/-- The walk over the extra fields; its fuel is their length, and each takes at
least four bytes. -/
def walkExtra : Nat → List UInt8 → Resolved → Except ZipError Resolved
  | 0, _, f => .ok f
  | fuel + 1, extra, f =>
    if extra.length < 4 then .ok f
    else
      let tag := rdU16 extra
      let len := (rdU16 (extra.drop 2)).toNat
      if extra.length < 4 + len then .ok f
      else
        let body := (extra.drop 4).take len
        let rest := (extra.drop 4).drop len
        if tag = 0x9901 ∧ 7 ≤ len then walkExtra fuel rest (applyAes f body)
        else if tag = 0x0001 then do
          let f ← applyZip64 f body
          walkExtra fuel rest f
        else walkExtra fuel rest f

/-- Whether a name or the DOS attribute, on an entry that claims to be empty,
makes the entry a directory. -/
def isDirectory (name : String) (external : UInt32) (usize csize : Nat) : Bool :=
  name.toList.getLast? == some '/' || name.toList.getLast? == some '\\' ||
    (external &&& 0x10 != 0 && usize == 0 && csize == 0)

/-- The lengths a record announces of what follows its 46 bytes. -/
def nameLen (hdr : List UInt8) : Nat := (rdU16 (hdr.drop 28)).toNat

def extraLen (hdr : List UInt8) : Nat := (rdU16 (hdr.drop 30)).toNat

def commentLen (hdr : List UInt8) : Nat := (rdU16 (hdr.drop 32)).toNat

def restLen (hdr : List UInt8) : Nat := nameLen hdr + extraLen hdr + commentLen hdr

/-- The sizes, the offset and the disk that the record itself holds. -/
def unresolved (hdr : List UInt8) : Resolved where
  usize := (rdU32 (hdr.drop 24)).toNat
  csize := (rdU32 (hdr.drop 20)).toNat
  localOff := (rdU32 (hdr.drop 42)).toNat
  disk := (rdU16 (hdr.drop 34)).toNat
  aes := none

/-- The entry of a record, with its local header `base` bytes further on. -/
def entryOf (parts : Source) (multiDisk : Bool) (base : Nat) (hdr rest : List UInt8) :
    Except ZipError Entry := do
  let flags := rdU16 (hdr.drop 8)
  let external := rdU32 (hdr.drop 38)
  let name := decodeEntryName (rest.take (nameLen hdr)) flags
  let extra := (rest.drop (nameLen hdr)).take (extraLen hdr)
  let f ← walkExtra extra.length extra (unresolved hdr)
  match (checkedAdd f.localOff base).bind (parts.logical multiDisk f.disk) with
  | none => .error (.malformed "entry starts outside the container")
  | some localOffset =>
    .ok { name
          method := rdU16 (hdr.drop 10)
          crc32 := rdU32 (hdr.drop 16)
          compressedSize := UInt64.ofNat f.csize
          uncompressedSize := UInt64.ofNat f.usize
          isDir := isDirectory name external f.usize f.csize
          flags
          dosTime := rdU16 (hdr.drop 12)
          aes := f.aes
          unixMode := UInt16.ofNat (external.toNat >>> 16)
          localOffset := UInt64.ofNat localOffset }

/-- One record of the walk: its entry and where the next record starts. -/
def parseRecord (parts : Source) (multiDisk : Bool) (base pos : Nat) :
    Except ZipError (Entry × Nat) := do
  let hdr ← parts.readExactAt pos 46
  if hdr.take 4 ≠ CENTRAL_SIG then .error (.malformed "central directory record expected")
  else if MAX_NAME < nameLen hdr then .error (.malformed "entry name is implausibly long")
  else do
    let rest ← parts.readExactAt (pos + 46) (restLen hdr)
    let e ← entryOf parts multiDisk base hdr rest
    match checkedAdd pos (46 + restLen hdr) with
    | none => .error (.malformed "central directory overflows")
    | some next => .ok (e, next)

/-- `count` records from `pos`, and where they end. -/
def parseRecords (parts : Source) (multiDisk : Bool) (base : Nat) :
    Nat → Nat → Except ZipError (List Entry × Nat)
  | 0, pos => .ok ([], pos)
  | count + 1, pos => do
    let (e, next) ← parseRecord parts multiDisk base pos
    let (es, stop) ← parseRecords parts multiDisk base count next
    .ok (e :: es, stop)

def parseCentralDirectory (parts : Source) (dir : Directory) : Except ZipError (List Entry) := do
  let (out, stop) ← parseRecords parts dir.multiDisk dir.base dir.count dir.start
  if checkedSub stop dir.start ≠ some dir.size then
    .error (.malformed "the central directory's entry count and size disagree")
  else .ok out

end NzbFast.Zip
