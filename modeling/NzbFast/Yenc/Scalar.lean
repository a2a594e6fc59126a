import NzbFast.Yenc.Article

/-!
# The scalar decoder

`decode` and `decode_framed` of `crates/nzbkit-base/src/yenc.rs`: line by line,
each either a header line or payload, up to the first `=yend`.
-/

namespace NzbFast.Yenc

open NzbFast.Rust

/-- One line of the scan. `true` says that the article ends here. -/
def scanLine (encOk : Bool) (x : FieldReader) (rawLine : List UInt8) (s : Scan) :
    Except YencError (Scan × Bool) :=
  let line := content rawLine
  if line = [] then .ok (s, false)
  else match headerFields line (lit "begin") false with
  | some fields => (s.ybegin x fields).map (·, false)
  | none =>
  match headerFields line (lit "part") false with
  | some fields => .ok (s.ypart x fields, false)
  | none =>
  match headerFields line (lit "end") true with
  | some fields => .ok (s.yend x fields, true)
  | none =>
  match if encOk then headerFields line (lit "encryption") false else none with
  | some fields => (Scan.yencryption fields s).map (·, false)
  | none =>
    if s.seenBegin then
      .ok ({ s with
        prePartControl := s.prePartControl || (!s.seenYpart && (lit "=y").isPrefixOf line)
        data := s.data ++ decodeLine line }, false)
    else .ok (s, false)

def scanLines (encOk : Bool) (x : FieldReader) : List (List UInt8) → Scan → Except YencError Scan
  | [], s => .ok s
  | line :: lines, s =>
    match scanLine encOk x line s with
    | .error e => .error e
    | .ok (s, true) => .ok s
    | .ok (s, false) => scanLines encOk x lines s

/-- The checks after the lines; the flag says whether a CRC vouches for the article. -/
def finish (s : Scan) : Except YencError (Decoded × Bool) :=
  if !s.seenBegin then .error .missingBegin
  else
    let declared := s.declared
    if !s.seenYend && !trailerlessComplete declared then .error .truncated
    else match s.part, s.trailer.part with
    | some b, some e =>
      if b ≠ e then .error (.partNumberMismatch b e) else finishGates s declared
    | _, _ => finishGates s declared
where
  finishGates (s : Scan) (declared : Declared) : Except YencError (Decoded × Bool) :=
    let gates := trailerGates s.trailer declared
    if gates.len.any (· ≠ s.data.length) then
      .error (.lengthMismatch s.data.length (gates.len.getD 0))
    else match placePart declared gates.lenWaived with
    | .error e => .error e
    | .ok placed =>
      let decoded : Decoded :=
        { name := s.name, fileSize := s.fileSize, part := declaredPart s.part,
          beginAt := placed.beginAt, endAt := placed.endAt, data := s.data,
          encryption := s.encryption }
      match gates.crc with
      | some header =>
        let computed := Wire.crc32 s.data
        if computed ≠ header then .error (.crcMismatch computed header)
        else .ok (decoded, placed.vouched)
      | none =>
        .ok (decoded, gates.crcAdvisory.any (· = Wire.crc32 s.data) && placed.vouched)

def decodeFramed (body : List UInt8) (encOk : Bool) : Except YencError (Decoded × Bool) :=
  (scanLines encOk scalarReader (splitLines body) {}).bind finish

def stripBom (body : List UInt8) : List UInt8 :=
  match body with
  | 0xEF :: 0xBB :: 0xBF :: rest => rest
  | _ => body

def crFramedToCrlf (body : List UInt8) : Option (List UInt8) :=
  if CR ∉ body ∨ LF ∈ body then none
  else some (body.flatMap fun b => if b = CR then [CR, LF] else [b])

/-- `decode_checked_opts`. -/
def decodeChecked (body : List UInt8) (encOk : Bool) : Except YencError (Decoded × Bool) :=
  let body := stripBom body
  match decodeFramed body encOk with
  | .error e =>
    if e = .missingBegin ∨ e = .truncated then
      match crFramedToCrlf body with
      | some reframed => decodeFramed reframed encOk
      | none => .error e
    else .error e
  | .ok r => .ok r

def decode (body : List UInt8) (encOk : Bool) : Except YencError Decoded :=
  (decodeChecked body encOk).map (·.1)

end NzbFast.Yenc
