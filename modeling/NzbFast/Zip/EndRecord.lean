import NzbFast.Zip.Container

/-!
# The end of the central directory

`find_central_directory` with `physical_zip64_record` and `prepended_base`.
The end record is the last one the scan finds; the directory it describes must
end there, at a zip64 end record, or short of one of the two by a prefix at
whose end a directory record stands.
-/

namespace NzbFast.Zip

open Wire

/-- `Directory`: where the central directory is and how to read its offsets. -/
structure Directory where
  /-- Where the first record starts, `base` already applied. -/
  start : Nat
  count : Nat
  size : Nat
  multiDisk : Bool
  /-- The bytes in front of the archive. -/
  base : Nat
  deriving DecidableEq

def MAX_ENTRIES : Nat := 200000

def MAX_Z64_TAIL_GAP : Nat := 4096

def Z64_FIXED : Nat := 56

def EOCD_MIN : Nat := 22

/-- `u16::MAX` and `u32::MAX`: a saturated field. -/
def U16_MAX : Nat := 0xFFFF

def U32_MAX : Nat := 0xFFFFFFFF

def lastEnd (buf : List UInt8) : Option Nat :=
  (List.range (buf.length - EOCD_MIN + 1)).reverse.find? fun i => decide (Stands EOCD_SIG buf i)

/-- The fields of an end record. -/
structure Eocd where
  disk : Nat
  cdDisk : Nat
  perDisk : Nat
  entries : Nat
  cdSize : Nat
  cdOff : Nat

def readEocd (eocd : List UInt8) : Eocd where
  disk := (rdU16 (eocd.drop 4)).toNat
  cdDisk := (rdU16 (eocd.drop 6)).toNat
  perDisk := (rdU16 (eocd.drop 8)).toNat
  entries := (rdU16 (eocd.drop 10)).toNat
  cdSize := (rdU32 (eocd.drop 12)).toNat
  cdOff := (rdU32 (eocd.drop 16)).toNat

def Eocd.multiDisk (r : Eocd) : Bool := r.disk != 0 || r.cdDisk != 0

def Eocd.countSentinel (r : Eocd) : Bool := r.entries == U16_MAX || r.perDisk == U16_MAX

def Eocd.geometrySentinel (r : Eocd) : Bool :=
  r.cdSize == U32_MAX || r.cdOff == U32_MAX || r.disk == U16_MAX

/-- Where the zip64 end record that ends behind `span` bytes starts in `win`. -/
def z64Start (win : List UInt8) (span : Nat) : Option Nat :=
  (List.range (span - Z64_FIXED + 1)).find? fun i =>
    decide (Stands Z64_SIG win i) && checkedAdd (rdU64 (win.drop (i + 4))).toNat 12 == some (span - i)

/-- `physical_zip64_record`: the zip64 end record by its own length, which ends
at the locator. -/
def physicalZip64Record (parts : Source) (eocdAt : Nat) : Option Nat :=
  (checkedSub eocdAt 20).bind fun locatorAt =>
    let lowest := eocdAt - MAX_Z64_TAIL_GAP
    (checkedSub locatorAt lowest).bind fun span =>
      if span < Z64_FIXED then none
      else
        match parts.readExactAt lowest span with
        | .ok win => (z64Start win span).map (lowest + ·)
        | .error _ => none

/-- A zip64 end record where the 32-bit fields put the directory's end. -/
def namedZip64Record (parts : Source) (eocdAt cdOff cdSize : Nat) : Option Nat :=
  (checkedAdd cdOff cdSize).filter fun ends =>
    decide (ends < eocdAt) && decide (eocdAt - ends ≤ MAX_Z64_TAIL_GAP) && parts.wears Z64_SIG ends

/-- What the end records say of the directory. -/
structure Geometry where
  perDisk : Nat
  entries : Nat
  cdSize : Nat
  cdOff : Nat
  cdDiskNo : Nat
  /-- Where the directory must end. -/
  anchor : Nat
  /-- The other place where it may. -/
  z64Anchor : Option Nat

/-- The zip64 locator in front of the end record: demanded by a saturated size,
offset or disk, looked for on a saturated count. -/
def zip64Locator (parts : Source) (r : Eocd) (eocdAt : Nat) :
    Except ZipError (Option (List UInt8)) :=
  if r.geometrySentinel then
    if eocdAt < 20 then .error (.malformed "zip64 locator does not fit")
    else do
      let loc ← parts.readExactAt (eocdAt - 20) 20
      if loc.take 4 ≠ LOCATOR_SIG then
        .error (.malformed "zip64 sizes without a zip64 locator")
      else .ok (some loc)
  else if r.countSentinel && decide (20 ≤ eocdAt) then
    match parts.readExactAt (eocdAt - 20) 20 with
    | .ok loc => .ok (if loc.take 4 = LOCATOR_SIG then some loc else none)
    | .error _ => .ok none
  else .ok none

/-- Whether the locator's pointer names a zip64 end record. -/
def namesZip64Record (parts : Source) (off : Nat) : Bool :=
  match parts.readExactAt off 56 with
  | .ok z64 => z64.take 4 == Z64_SIG
  | .error _ => false

def zip64Geometry (parts : Source) (multiDisk : Bool) (loc : List UInt8)
    (z64Anchor : Option Nat) : Except ZipError Geometry :=
  let ptr := parts.logical multiDisk (rdU32 (loc.drop 4)).toNat (rdU64 (loc.drop 8)).toNat
  match (ptr.filter (namesZip64Record parts)).or z64Anchor with
  | none => .error (.malformed "zip64 end record not where the locator says")
  | some z64At => do
    let z64 ← parts.readExactAt z64At 56
    .ok { perDisk := (rdU64 (z64.drop 24)).toNat
          entries := (rdU64 (z64.drop 32)).toNat
          cdSize := (rdU64 (z64.drop 40)).toNat
          cdOff := (rdU64 (z64.drop 48)).toNat
          cdDiskNo := (rdU32 (z64.drop 20)).toNat
          -- the directory ends at the record that describes it, nowhere else
          anchor := z64At
          z64Anchor := none }

/-- The geometry of the end record at `eocdAt`, or of the zip64 record that
stands for it. -/
def geometry (parts : Source) (r : Eocd) (eocdAt : Nat) : Except ZipError Geometry := do
  let z64Anchor :=
    (namedZip64Record parts eocdAt r.cdOff r.cdSize).or (physicalZip64Record parts eocdAt)
  match ← zip64Locator parts r eocdAt with
  | some loc => zip64Geometry parts r.multiDisk loc z64Anchor
  | none =>
    .ok { perDisk := r.perDisk, entries := r.entries, cdSize := r.cdSize, cdOff := r.cdOff
          cdDiskNo := r.cdDisk, anchor := eocdAt, z64Anchor }

def SHORT : ZipError :=
  .malformed "the central directory does not end at the end-of-central-directory record"

/-- `prepended_base`: the bytes in front of an archive whose directory ends
short of `anchor`, confirmed by a directory record where they put it. -/
def prependedBase (parts : Source) (anchor cdOff cdSize : Nat) : Except ZipError Nat :=
  match ((checkedAdd cdOff cdSize).bind (checkedSub anchor)).filter (0 < ·) with
  | none => .error SHORT
  | some base =>
    match checkedAdd cdOff base with
    | none => .error SHORT
    | some cd =>
      match parts.readExactAt cd 4 with
      | .error _ => .error SHORT
      | .ok sig =>
        if sig ≠ CENTRAL_SIG then
          .error (.malformed "the zip does not start at the beginning of the file, and no central directory sits where that implies")
        else .ok base

def orElse (x y : Except ZipError Nat) : Except ZipError Nat :=
  match x with
  | .ok a => .ok a
  | .error _ => y

/-- The base that the place where the directory ends implies. -/
def impliedBase (parts : Source) (g : Geometry) : Except ZipError Nat :=
  let endsAt := checkedAdd g.cdOff g.cdSize
  if endsAt ≠ some g.anchor ∧ g.z64Anchor ≠ endsAt then
    match g.z64Anchor with
    | some cand =>
      orElse (prependedBase parts cand g.cdOff g.cdSize)
        (prependedBase parts g.anchor g.cdOff g.cdSize)
    | none => prependedBase parts g.anchor g.cdOff g.cdSize
  else .ok 0

/-- The base of a single-disk directory and the two checks on it. -/
def directoryBase (parts : Source) (g : Geometry) : Except ZipError Nat := do
  let base ← impliedBase parts g
  if g.perDisk ≠ g.entries then
    .error (.malformed
      "the end-of-central-directory record disagrees with itself about the entry count")
  else .ok base

/-- The base of a directory: a spanned set is read by its disks and has none. -/
def baseOf (parts : Source) (multiDisk : Bool) (g : Geometry) : Except ZipError Nat :=
  if multiDisk then .ok 0 else directoryBase parts g

def describe (parts : Source) (multiDisk : Bool) (g : Geometry) : Except ZipError Directory := do
  if g.entries > MAX_ENTRIES then
    .error (.unsupported (s!"the archive declares {g.entries} entries, " ++
      "more than this build will open"))
  else
    let base ← baseOf parts multiDisk g
    match (checkedAdd g.cdOff base).bind (parts.logical multiDisk g.cdDiskNo) with
    | none => .error (.malformed "central directory outside the container")
    | some start => .ok { start, count := g.entries, size := g.cdSize, multiDisk, base }

def findCentralDirectory (parts : Source) : Except ZipError Directory :=
  if parts.total < EOCD_MIN then .error (.malformed "too small to be a zip")
  else do
    let window := min (EOCD_MIN + U16_MAX) parts.total
    let start := parts.total - window
    let buf ← parts.readExactAt start window
    match lastEnd buf with
    | none => .error (.malformed "no end-of-central-directory record")
    | some pos =>
      let r := readEocd (buf.drop pos)
      if r.multiDisk && !parts.spanningSupported then
        .error (.unsupported "a WinZip-spanned zip set is unpacked from disk")
      else do
        let g ← geometry parts r (start + pos)
        describe parts r.multiDisk g

end NzbFast.Zip
