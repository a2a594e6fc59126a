import NzbFast.Rust.Utf8
import Mathlib.Tactic

/-!
# PAR2 packets

The framing walk over a buffer and the packet-body parsers
(`crates/nzbkit-base/src/par2/packet.rs`). A buffer is a list of bytes, a slice
`input[a..b]` is `slice input a b`, and a 16-byte field is the list of its
bytes. MD5 is a parameter: nothing here depends on how a digest is computed.
-/

namespace NzbFast.Par2

open NzbFast.Rust

/-- `input[a..b]`. -/
def slice (input : List UInt8) (a b : Nat) : List UInt8 := (input.take b).drop a

/-- The value of a little-endian byte string. -/
def fromLe : List UInt8 → Nat
  | [] => 0
  | b :: bs => b.toNat + 256 * fromLe bs

/-- The eight bytes of a little-endian `u64`. -/
def toLe64 (n : Nat) : List UInt8 := (List.range 8).map fun i => UInt8.ofNat (n / 256 ^ i % 256)

def ascii (s : String) : List UInt8 := s.toList.map fun c => UInt8.ofNat c.toNat

/-- The packet magic `PAR2\0PKT`. -/
def MAGIC : List UInt8 := ascii "PAR2\x00PKT"

def HEADER_LEN : Nat := 64

def TYPE_MAIN : List UInt8 := ascii "PAR 2.0\x00Main\x00\x00\x00\x00"
def TYPE_FILEDESC : List UInt8 := ascii "PAR 2.0\x00FileDesc"
def TYPE_IFSC : List UInt8 := ascii "PAR 2.0\x00IFSC\x00\x00\x00\x00"
def TYPE_RECVSLIC : List UInt8 := ascii "PAR 2.0\x00RecvSlic"
def TYPE_UNIFILEN : List UInt8 := ascii "PAR 2.0\x00UniFileN"
def TYPE_COMMASCI : List UInt8 := ascii "PAR 2.0\x00CommASCI"
def TYPE_COMMUNI : List UInt8 := ascii "PAR 2.0\x00CommUni\x00"

/-- A packet located inside an input buffer. -/
structure RawPacket where
  md5 : List UInt8
  setId : List UInt8
  ptype : List UInt8
  body : List UInt8
  bodyOffset : Nat
  deriving DecidableEq, Repr

/-- What a packet says, wherever it stands: the bytes its MD5 covers. -/
def RawPacket.content (p : RawPacket) : List UInt8 × List UInt8 × List UInt8 :=
  (p.setId, p.ptype, p.body)

/-- `find_magic`: the first window equal to the magic. -/
def findMagic : List UInt8 → Option Nat
  | [] => none
  | b :: bs =>
    if (b :: bs).take 8 = MAGIC then some 0 else (findMagic bs).map (· + 1)

/-- The packet framed at `start..stop`. -/
def rawPacket (input : List UInt8) (start stop : Nat) : RawPacket where
  md5 := slice input (start + 16) (start + 32)
  setId := slice input (start + 32) (start + 48)
  ptype := slice input (start + 48) (start + 64)
  body := slice input (start + 64) stop
  bodyOffset := start + 64

/-- The declared length of the packet at `start`, where it is header-inclusive, a multiple of 4
and inside the buffer. A `checked_add` that overflows lies outside the buffer. -/
def validLen (input : List UInt8) (start : Nat) : Option Nat :=
  let len := fromLe (slice input (start + 8) (start + 16))
  if HEADER_LEN ≤ len ∧ len % 4 = 0 ∧ start + len ≤ input.length then some len else none

theorem validLen_spec {input : List UInt8} {start len : Nat} (h : validLen input start = some len) :
    HEADER_LEN ≤ len ∧ len % 4 = 0 ∧ start + len ≤ input.length := by
  unfold validLen at h
  dsimp only at h
  split at h
  case isTrue hv =>
    cases h
    exact hv
  case isFalse => cases h

/-- The next magic at or after `off` with room for a header behind it. -/
def nextMagic (input : List UInt8) (off : Nat) : Option Nat :=
  if off + HEADER_LEN ≤ input.length then
    match findMagic (input.drop off) with
    | none => none
    | some rel => if input.length < off + rel + HEADER_LEN then none else some (off + rel)
  else none

theorem nextMagic_spec {input : List UInt8} {off start : Nat} (h : nextMagic input off = some start) :
    off ≤ start ∧ start + HEADER_LEN ≤ input.length := by
  unfold nextMagic at h
  split at h
  case isFalse => cases h
  case isTrue hroom =>
    cases hm : findMagic (input.drop off) with
    | none => rw [hm] at h; cases h
    | some rel =>
      rw [hm] at h
      dsimp only at h
      split at h
      case isTrue => cases h
      case isFalse hlt =>
        cases h
        omega

/-- `packet_spans`: the framing walk from `off` on. Every round moves `off` forward, so fuel
above `input.length - off` is never used up. -/
def packetSpansFrom (input : List UInt8) : Nat → Nat → List (Nat × Nat)
  | 0, _ => []
  | fuel + 1, off =>
    match nextMagic input off with
    | none => []
    | some start =>
      match validLen input start with
      | none => packetSpansFrom input fuel (start + 1)
      | some len => (start, start + len) :: packetSpansFrom input fuel (start + len)

def packetSpans (input : List UInt8) : List (Nat × Nat) :=
  packetSpansFrom input (input.length + 1) 0

section Scan

variable (md5 : List UInt8 → List UInt8)

/-- Whether the packet framed at `start..stop` carries the MD5 of its own bytes. -/
def verified (input : List UInt8) (start stop : Nat) : Bool :=
  md5 (slice input (start + 32) stop) = slice input (start + 16) (start + 32)

/-- The loop of `scan_packets_serial` from `off` on, with `hashed` bytes fed to MD5 so far:
the packets emitted and the final total. The fuel is that of `packetSpansFrom`. -/
def scanSerialFrom (input : List UInt8) (budget : Nat) : Nat → Nat → Nat → List RawPacket × Nat
  | 0, _, hashed => ([], hashed)
  | fuel + 1, off, hashed =>
    match nextMagic input off with
    | none => ([], hashed)
    | some start =>
      match validLen input start with
      | none => scanSerialFrom input budget fuel (start + 1) hashed
      | some len =>
        let stop := start + len
        let charge := stop - (start + 32)
        if budget < hashed + charge then ([], hashed)
        else if verified md5 input start stop then
          let (ps, total) := scanSerialFrom input budget fuel stop (hashed + charge)
          (rawPacket input start stop :: ps, total)
        else scanSerialFrom input budget fuel (start + 1) (hashed + charge)

/-- `scan_packets_serial`. The budget bounds the bytes hashed on hostile framing. -/
def scanPacketsSerial (input : List UInt8) : List RawPacket × Nat :=
  scanSerialFrom md5 input (max (4 * input.length) (16 * 1024 * 1024)) (input.length + 1) 0 0

def PAR_SCAN_MIN : Nat := 4 * 1024 * 1024

/-- `scan_packets`: above `PAR_SCAN_MIN` the optimistic walk, which emits only when every span
verifies (the threads that verify them decide that conjunction); else the serial walk. -/
def scanPackets (input : List UInt8) : List RawPacket :=
  if PAR_SCAN_MIN ≤ input.length ∧
      (packetSpans input).all fun s => verified md5 input s.1 s.2 then
    (packetSpans input).map fun s => rawPacket input s.1 s.2
  else (scanPacketsSerial md5 input).1

end Scan

/-! ## Packet bodies -/

def MAX_BLOCK_SIZE : Nat := 256 * 1024 * 1024

/-- `as_chunks::<n>().0`: the whole chunks of a byte string. -/
def asChunks (n : Nat) (bs : List UInt8) : List (List UInt8) :=
  (List.range (bs.length / n)).map fun i => slice bs (n * i) (n * i + n)

/-- `parse_main`: the slice size, the recovery ids and the non-recovery ids. -/
def parseMain (body : List UInt8) : Option (Nat × List (List UInt8) × List (List UInt8)) :=
  if body.length < 12 then none
  else
    let blockSize := fromLe (slice body 0 8)
    let nfiles := fromLe (slice body 8 12)
    let ids := body.drop 12
    if blockSize = 0 ∨ blockSize % 4 ≠ 0 ∨ MAX_BLOCK_SIZE < blockSize ∨ ids.length / 16 < nfiles then
      none
    else some (blockSize, (asChunks 16 ids).take nfiles, (asChunks 16 ids).drop nfiles)

/-- `String::from_utf16`: `none` on an unpaired surrogate. -/
def fromUtf16 : List Nat → Option (List Char)
  | [] => some []
  | u :: us =>
    if u < 0xD800 ∨ 0xDFFF < u then (fromUtf16 us).map (Char.ofNat u :: ·)
    else if 0xDC00 ≤ u then none
    else
      match us with
      | [] => none
      | v :: vs =>
        if 0xDC00 ≤ v ∧ v ≤ 0xDFFF then
          (fromUtf16 vs).map
            (Char.ofNat (0x10000 + (u - 0xD800) * 0x400 + (v - 0xDC00)) :: ·)
        else none

/-- `decode_utf16_field`: UTF-16 with an optional byte-order mark. -/
def decodeUtf16Field (raw : List UInt8) : Option (List Char) :=
  if raw.length % 2 ≠ 0 then none
  else
    let (bytes, le) :=
      if raw.take 2 = [0xFF, 0xFE] then (raw.drop 2, true)
      else if raw.take 2 = [0xFE, 0xFF] then (raw.drop 2, false)
      else (raw, true)
    fromUtf16 ((asChunks 2 bytes).map fun c => fromLe (if le then c else c.reverse))

/-- `trim_end_matches('\0')`. -/
def trimNul (cs : List Char) : List Char := (cs.reverse.dropWhile (· = '\x00')).reverse

/-- `parse_unifilen`: the file id and the Unicode name. -/
def parseUnifilen (body : List UInt8) : Option (List UInt8 × String) :=
  if body.length < 18 then none
  else
    match decodeUtf16Field (body.drop 16) with
    | none => none
    | some decoded =>
      let name := trimNul decoded
      if name = [] ∨ '\x00' ∈ name then none else some (slice body 0 16, String.ofList name)

/-- One file's descriptor. -/
structure Desc where
  name : String
  length : Nat
  md5 : List UInt8
  md5_16k : List UInt8
  deriving DecidableEq, Repr

/-- `parse_filedesc`: the file id and the descriptor; only the name's trailing padding goes. -/
def parseFiledesc (body : List UInt8) : Option (List UInt8 × Desc) :=
  if body.length < 56 then none
  else
    let trimmed := ((body.drop 56).reverse.dropWhile (· = 0)).reverse
    some (slice body 0 16,
      { name := fromUtf8Lossy trimmed
        length := fromLe (slice body 48 56)
        md5 := slice body 16 32
        md5_16k := slice body 32 48 })

/-- One block's checksums. -/
structure BlockCheck where
  md5 : List UInt8
  crc32 : Nat
  deriving DecidableEq, Repr

/-- `parse_ifsc`: the file id and its block checksums. -/
def parseIfsc (body : List UInt8) : Option (List UInt8 × List BlockCheck) :=
  if body.length < 16 ∨ (body.length - 16) % 20 ≠ 0 then none
  else some (slice body 0 16,
    (asChunks 20 (body.drop 16)).map fun c => ⟨slice c 0 16, fromLe (slice c 16 20)⟩)

/-- `char::is_control`. -/
def isControl (c : Char) : Bool := c.toNat < 0x20 || (0x7F ≤ c.toNat && c.toNat ≤ 0x9F)

def cleanComment (text : List Char) : Option String :=
  let text := trimNul text
  if text = [] ∨ text.any (fun c => isControl c && !(c == '\n' || c == '\r' || c == '\t')) then none
  else some (String.ofList text)

def parseCommAscii (body : List UInt8) : Option String :=
  (fromUtf8 body).bind fun s => cleanComment s.toList

/-- `parse_comm_uni`: the MD5 cross-reference is read past. -/
def parseCommUni (body : List UInt8) : Option String :=
  if body.length < 18 then none else (decodeUtf16Field (body.drop 16)).bind cleanComment

end NzbFast.Par2
