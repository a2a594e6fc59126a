import NzbFast.Yenc.Fields
import NzbFast.Yenc.Scalar

/-!
# The SIMD decoder

`decode_framed` of `crates/nzbkit-base/src/yenc_simd.rs`. In line mode it parses
header lines; the first payload line switches to block mode, which hands the rest
of the body to the vendored decoder in one pass and parses the control line that
stopped it. The vendored library is a parameter, with the contract its header
publishes.
-/

namespace NzbFast.Yenc

open NzbFast.Rust

/-! ## The vendored library -/

/-- `RapidYencDecoderEnd`. -/
inductive DecoderEnd where
  | none
  | control
  | article
  deriving DecidableEq, Repr

/-- What one `rapidyenc_decode_incremental` from `STATE_CRLF` reports. -/
structure Pass where
  written : List UInt8
  consumed : Nat
  endSeq : DecoderEnd
  deriving DecidableEq, Repr

structure RapidYenc where
  decodeIncremental : List UInt8 → Pass
  crc : List UInt8 → Nat

/-- `b"=y"`. -/
abbrev CONTROL : List UInt8 := [EQ, 0x79]

/-- One pass over the lines of a chunk: each decodes by itself, one leading dot stripped, up to the
first that begins with `=y`; the pass then points past the `y`. -/
def linePass : List (List UInt8) → Pass
  | [] => ⟨[], 0, .none⟩
  | line :: lines =>
    if CONTROL.isPrefixOf (content line) then
      ⟨[], (if line.head? = some DOT then 1 else 0) + 2, .control⟩
    else
      let rest := linePass lines
      ⟨decodeLine (content line) ++ rest.written,
        line.length + (if lines = [] then 0 else 1) + rest.consumed, rest.endSeq⟩

def CrlfFramed (body : List UInt8) : Prop :=
  ∀ before after, body = before ++ LF :: after → before.getLast? = some CR

/-- Whether an `=` is left over at the end of a line once escapes are paired up. -/
def loneEquals : List UInt8 → Bool
  | [] => false
  | b :: rest =>
    if b = EQ then
      match rest with
      | [] => true
      | _ :: rest => loneEquals rest
    else loneEquals rest

/-- Lines the vendored decoder is specified on, up to the first control line. -/
def Decodable : List (List UInt8) → Prop
  | [] => True
  | line :: lines =>
    CONTROL.isPrefixOf (content line) = true ∨
      (dropCr line ≠ [DOT] ∧ loneEquals (content line) = false ∧ Decodable lines)

/-- The published contract of the vendored library. -/
structure RapidYenc.Published (lib : RapidYenc) : Prop where
  decode : ∀ chunk, CrlfFramed chunk → Decodable (splitLines chunk) →
    lib.decodeIncremental chunk = linePass (splitLines chunk)
  crc : ∀ data, lib.crc data = Wire.crc32 data

/-! ## The loop -/

/-- Where the loop leaves the function. `fallback` hands the body to the scalar decoder; `panic` is
a failed assertion or a slice out of range. -/
inductive Left where
  | done (s : Scan)
  | error (e : YencError)
  | fallback
  | panic

/-- `&body[pos..rest_end]` without a carriage return at its end. -/
def lineAt (rest : List UInt8) : List UInt8 := dropCr (rest.takeWhile (· ≠ LF))

def afterLine (rest : List UInt8) : List UInt8 := (rest.dropWhile (· ≠ LF)).drop 1

/-- The control line that stopped a pass: `rest` is what follows the `=y`. `true` says that the
article ends here. -/
def controlLine (encOk : Bool) (rest : List UInt8) (s : Scan) : Except YencError (Scan × Bool) :=
  match ((lit "end").isPrefixOf? rest).bind fun t => headerTail t true with
  | some fields => .ok (s.yend simdReader fields, true)
  | none =>
  match ((lit "begin").isPrefixOf? rest).bind fun t => headerTail t false with
  | some fields => (s.ybegin simdReader fields).map (·, false)
  | none =>
  match ((lit "part").isPrefixOf? rest).bind fun t => headerTail t false with
  | some fields => .ok (s.ypart simdReader fields, false)
  | none =>
  match if encOk then ((lit "encryption").isPrefixOf? rest).bind fun t => headerTail t false
    else none with
  | some fields => (Scan.yencryption fields s).map (·, false)
  | none =>
    -- a payload line that happens to start with the escape `=y`
    .ok ({ s with
      prePartControl := s.prePartControl || !s.seenYpart
      data := s.data ++ decodeLine (CONTROL ++ rest) }, false)

/-- The `while` loop, at the suffix `rest` of the body. -/
def simdLoop (lib : RapidYenc) (encOk : Bool) : Nat → Bool → List UInt8 → Scan → Left
  | _, _, [], s => .done s
  | 0, _, _ :: _, _ => .panic
  | fuel + 1, false, b :: bs, s =>
    let line := unstuff (lineAt (b :: bs))
    let next := afterLine (b :: bs)
    if line = [] then simdLoop lib encOk fuel false next s
    else match headerFields line (lit "begin") false with
    | some fields =>
      match s.ybegin simdReader fields with
      | .error e => .error e
      | .ok s => simdLoop lib encOk fuel false next s
    | none =>
    match headerFields line (lit "part") false with
    | some fields => simdLoop lib encOk fuel false next (s.ypart simdReader fields)
    | none =>
    match headerFields line (lit "end") true with
    | some fields => .done (s.yend simdReader fields)
    | none =>
    match if encOk then headerFields line (lit "encryption") false else none with
    | some fields =>
      match Scan.yencryption fields s with
      | .error e => .error e
      | .ok s => simdLoop lib encOk fuel false next s
    | none =>
      if s.seenBegin then
        let s := { s with
          prePartControl := s.prePartControl || (!s.seenYpart && CONTROL.isPrefixOf line) }
        simdLoop lib encOk fuel true (b :: bs) s
      else simdLoop lib encOk fuel false next s
  | fuel + 1, true, b :: bs, s =>
    let chunk := b :: bs
    let pass := lib.decodeIncremental chunk
    if chunk.length < pass.written.length then .panic
    else
      let s := { s with data := s.data ++ pass.written }
      match pass.endSeq with
      | .control =>
        if chunk.length < pass.consumed then .panic
        else
          let rest := chunk.drop pass.consumed
          match controlLine encOk (lineAt rest) s with
          | .error e => .error e
          | .ok (s, true) => .done s
          | .ok (s, false) => simdLoop lib encOk fuel false (afterLine rest) s
      | .article => .done s
      | .none => .fallback

/-! ## The function -/

structure Meta where
  name : Text
  fileSize : Nat
  part : Option Nat
  beginAt : Nat
  endAt : Nat
  len : Nat
  encryption : Option EncHeader
  deriving DecidableEq, Repr

structure DecodeIntegrity where
  crcChecked : Bool
  verifiedArticleCrc : Option Nat
  deriving DecidableEq, Repr

/-- The result with the buffer `out`. -/
structure SimdDecoded where
  info : Meta
  integrity : DecodeIntegrity
  out : List UInt8
  deriving DecidableEq, Repr

/-- The same article as the scalar decoder hands it back. -/
def SimdDecoded.toScalar (d : SimdDecoded) : Decoded × Bool :=
  ({ name := d.info.name, fileSize := d.info.fileSize, part := d.info.part,
     beginAt := d.info.beginAt, endAt := d.info.endAt, data := d.out,
     encryption := d.info.encryption }, d.integrity.crcChecked)

/-- The checks after the loop. -/
def simdFinish (lib : RapidYenc) (verifyCrc forceSkip : Bool) (s : Scan) :
    Except YencError SimdDecoded :=
  if !s.seenBegin then .error .missingBegin
  else
    let declared := s.declared
    if !s.seenYend && !trailerlessComplete declared then .error .truncated
    else match s.part, s.trailer.part with
    | some b, some e =>
      if b ≠ e then .error (.partNumberMismatch b e) else gated declared
    | _, _ => gated declared
where
  gated (declared : Declared) : Except YencError SimdDecoded :=
    let gates := trailerGates s.trailer declared
    if gates.len.any (· ≠ s.data.length) then
      .error (.lengthMismatch s.data.length (gates.len.getD 0))
    else match placePart declared gates.lenWaived with
    | .error e => .error e
    | .ok placed =>
      let integrity : Except YencError DecodeIntegrity :=
        match gates.crc with
        | some header =>
          if verifyCrc && !forceSkip then
            let computed := lib.crc s.data
            if computed ≠ header then .error (.crcMismatch computed header)
            else .ok ⟨true, some computed⟩
          else .ok ⟨false, none⟩
        | none =>
          match gates.crcAdvisory with
          | some advisory =>
            if verifyCrc && !forceSkip && lib.crc s.data = advisory then
              .ok ⟨true, some (lib.crc s.data)⟩
            else .ok ⟨false, none⟩
          | none => .ok ⟨false, none⟩
      integrity.map fun i =>
        { info :=
            { name := s.name, fileSize := s.fileSize, part := declaredPart s.part,
              beginAt := placed.beginAt, endAt := placed.endAt, len := s.data.length,
              encryption := s.encryption }
          integrity :=
            { crcChecked := i.crcChecked && placed.vouched
              verifiedArticleCrc := i.verifiedArticleCrc.filter fun _ => placed.vouched }
          out := s.data }

/-- `decode_framed` of the SIMD decoder; `none` is a panic. -/
def decodeFramedSimd (lib : RapidYenc) (body : List UInt8) (verifyCrc encOk forceSkip : Bool) :
    Option (Except YencError SimdDecoded) :=
  match simdLoop lib encOk (2 * body.length) false body {} with
  | .panic => none
  | .error e => some (.error e)
  | .done s => some (simdFinish lib verifyCrc forceSkip s)
  | .fallback =>
    some ((decodeFramed body encOk).map fun (d, crcVerified) =>
      { info :=
          { name := d.name, fileSize := d.fileSize, part := d.part, beginAt := d.beginAt,
            endAt := d.endAt, len := d.data.length, encryption := d.encryption }
        integrity := { crcChecked := crcVerified && verifyCrc, verifiedArticleCrc := none }
        out := d.data })

end NzbFast.Yenc
