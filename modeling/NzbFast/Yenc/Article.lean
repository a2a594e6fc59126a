import NzbFast.Yenc.Header
import NzbFast.Wire.Crc

/-!
# One article

What the two yEnc decoders share (`crates/nzbkit-base/src/yenc.rs`): the lines of
a body, the payload of a line, what each header line changes, and the verdict at
the end (`trailer_gates`, `place_part`, `trailerless_complete`). `u64` and `u32`
values are natural numbers; the only arithmetic on them is the one the guards of
`place_part` make safe.
-/

namespace NzbFast.Yenc

open NzbFast.Rust

/-! ## Lines and payload -/

/-- `body.split(|&b| b == b'\n')`. -/
def splitLines : List UInt8 → List (List UInt8)
  | [] => [[]]
  | b :: bs =>
    if b = LF then [] :: splitLines bs
    else match splitLines bs with
      | line :: lines => (b :: line) :: lines
      | [] => [[b]]

def unstuff : List UInt8 → List UInt8
  | b :: line => if b = DOT then line else b :: line
  | [] => []

def content (rawLine : List UInt8) : List UInt8 := unstuff (dropCr rawLine)

def decodeLine : List UInt8 → List UInt8
  | [] => []
  | b :: rest =>
    if b = EQ then
      match rest with
      | [] => []
      | c :: rest => (c - 64 - 42) :: decodeLine rest
    else if b = CR ∨ b = LF then decodeLine rest
    else (b - 42) :: decodeLine rest

theorem splitLines_append {l : List UInt8} (h : LF ∉ l) (rest : List UInt8) :
    splitLines (l ++ LF :: rest) = l :: splitLines rest := by
  induction l with
  | nil => simp [splitLines]
  | cons b l ih =>
    obtain ⟨hb, hl⟩ := List.ne_and_not_mem_of_not_mem_cons h
    rw [List.cons_append, splitLines, if_neg fun he => hb he.symm, ih hl]

theorem splitLines_last {l : List UInt8} (h : LF ∉ l) : splitLines l = [l] := by
  induction l with
  | nil => rfl
  | cons b l ih =>
    obtain ⟨hb, hl⟩ := List.ne_and_not_mem_of_not_mem_cons h
    rw [splitLines, if_neg fun he => hb he.symm, ih hl]

theorem dropCr_cr (l : List UInt8) : dropCr (l ++ [CR]) = l := by
  simp [dropCr]

theorem decodeLine_escape (c : UInt8) (rest : List UInt8) :
    decodeLine (EQ :: c :: rest) = (c - 64 - 42) :: decodeLine rest := rfl

theorem decodeLine_plain {b : UInt8} (heq : b ≠ EQ) (hcr : b ≠ CR) (hlf : b ≠ LF)
    (rest : List UInt8) : decodeLine (b :: rest) = (b - 42) :: decodeLine rest := by
  rw [decodeLine.eq_def]
  simp only
  rw [if_neg heq, if_neg fun h => h.elim hcr hlf]

theorem decodeLine_break {b : UInt8} (h : b = CR ∨ b = LF) (rest : List UInt8) :
    decodeLine (b :: rest) = decodeLine rest := by
  have heq : b ≠ EQ := by rcases h with rfl | rfl <;> decide
  rw [decodeLine.eq_def]
  simp only
  rw [if_neg heq, if_pos h]

/-! ## Types -/

inductive YencError where
  | missingBegin
  | lengthMismatch (expected actual : Nat)
  | crcMismatch (computed header : Nat)
  | truncated
  | partGeometry (beginAt endAt len : Nat)
  | partNumberMismatch (beginPart endPart : Nat)
  | duplicateBegin
  | badEncryption
  deriving DecidableEq, Repr

structure EncHeader where
  salt : List UInt8
  tag : List UInt8
  deriving DecidableEq, Repr

structure Trailer where
  size : Option Nat := none
  pcrc32 : Option Nat := none
  crc32 : Option Nat := none
  part : Option Nat := none
  deriving DecidableEq, Repr

structure Declared where
  part : Option Nat
  seenYpart : Bool
  beginAt : Nat
  endAt : Nat
  beginDecl : Option Nat
  endDecl : Option Nat
  fileSize : Nat
  len : Nat

structure Gates where
  len : Option Nat
  crc : Option Nat
  crcAdvisory : Option Nat
  lenWaived : Bool

structure Placed where
  beginAt : Nat
  endAt : Nat
  vouched : Bool

structure Decoded where
  name : Text
  fileSize : Nat
  part : Option Nat
  beginAt : Nat
  endAt : Nat
  data : List UInt8
  encryption : Option EncHeader
  deriving DecidableEq, Repr

/-! ## The encryption line -/

def CIPHER : String := "XChaCha20-Poly1305"

def hex16 (v : List UInt8) : Option (List UInt8) :=
  if v.length ≠ 32 then none
  else (v.toChunks 2).mapM fun pair =>
    match pair with
    | [hi, lo] =>
      (digitVal 16 (Char.ofNat hi.toNat)).bind fun hi =>
        (digitVal 16 (Char.ofNat lo.toNat)).map fun lo => UInt8.ofNat (hi * 16 + lo)
    | _ => none

/-- `EncHeader::parse_fields`: of a field that comes again the last one counts. -/
def EncHeader.parseFields (tail : List UInt8) : Option EncHeader :=
  let words := tail.splitOnP fun b => b = SP || b = TAB
  let value (key : String) : Option (List UInt8) :=
    words.foldl (fun v word => ((lit key).isPrefixOf? word).or v) none
  match value "cipher=", (value "salt=").bind hex16, (value "tag=").bind hex16 with
  | some cipher, some salt, some tag => if cipher = lit CIPHER then some ⟨salt, tag⟩ else none
  | _, _, _ => none

/-! ## The header lines -/

/-- What a decoder has read of an article. -/
structure Scan where
  name : Text := []
  fileSize : Nat := 0
  part : Option Nat := none
  beginAt : Nat := 1
  endAt : Nat := 0
  trailer : Trailer := {}
  seenBegin : Bool := false
  seenYend : Bool := false
  seenYpart : Bool := false
  beginDecl : Option Nat := none
  endDecl : Option Nat := none
  prePartControl : Bool := false
  encryption : Option EncHeader := none
  data : List UInt8 := []

namespace Scan

def u32Part (n : Option Nat) : Option Nat := n.filter (· ≤ 2 ^ 32 - 1)

def ybegin (x : FieldReader) (fields : List UInt8) (s : Scan) : Except YencError Scan :=
  if s.seenBegin then .error .duplicateBegin
  else
    let fileSize := (x.num fields "size").getD 0
    .ok { s with
      seenBegin := true
      name := (x.name fields).getD s.name
      fileSize := fileSize
      part := u32Part (x.num fields "part")
      endAt := if s.seenYpart then s.endAt else fileSize }

def ypart (x : FieldReader) (fields : List UInt8) (s : Scan) : Scan :=
  let beginDecl := (x.num fields "begin").filter (1 ≤ ·)
  { s with
    data := if s.seenBegin && !s.seenYpart && !s.prePartControl then [] else s.data
    seenYpart := true
    beginDecl := beginDecl
    endDecl := (x.num fields "end").filter (1 ≤ ·)
    beginAt := beginDecl.getD 1
    endAt := (x.num fields "end").getD 0 }

@[simp] theorem seenBegin_ypart (x : FieldReader) (fields : List UInt8) (s : Scan) :
    (s.ypart x fields).seenBegin = s.seenBegin := rfl

def yend (x : FieldReader) (fields : List UInt8) (s : Scan) : Scan :=
  { s with
    seenYend := true
    trailer :=
      { size := x.num fields "size"
        pcrc32 := x.hex fields "pcrc32"
        crc32 := x.hex fields "crc32"
        part := u32Part (x.num fields "part") } }

def yencryption (fields : List UInt8) (s : Scan) : Except YencError Scan :=
  match EncHeader.parseFields fields with
  | some h => .ok { s with encryption := some h }
  | none => .error .badEncryption

def declared (s : Scan) : Declared :=
  { part := s.part, seenYpart := s.seenYpart, beginAt := s.beginAt, endAt := s.endAt,
    beginDecl := s.beginDecl, endDecl := s.endDecl, fileSize := s.fileSize, len := s.data.length }

end Scan

/-! ## The verdict -/

/-- `declared_part`: `part=0` declares no part. -/
def declaredPart (part : Option Nat) : Option Nat := part.filter (· ≠ 0)

def trailerGates (t : Trailer) (d : Declared) : Gates :=
  let isPart := (declaredPart d.part).isSome || d.seenYpart
  let ranged := d.seenYpart && d.beginAt ≤ d.endAt && 0 < d.endAt
  let len := match t.size with
    | some s => if isPart && ranged && s ≠ d.len && d.fileSize ≠ 0 && s = d.fileSize then none
      else some s
    | none => none
  let (crc, crcAdvisory) := match t.pcrc32, t.crc32 with
    | some p, _ => (some p, none)
    | none, some c => if isPart then (none, some c) else (some c, none)
    | none, none => (none, none)
  { lenWaived := t.size.isSome && len.isNone, len := len, crc := crc, crcAdvisory := crcAdvisory }

def checkPartGeometry (seenYpart : Bool) (beginAt endAt len : Nat) : Except YencError Unit :=
  if !seenYpart then .ok ()
  else if endAt = 0 then
    if 0 < len ∧ 1 < beginAt then .error (.partGeometry beginAt endAt len) else .ok ()
  else if endAt < beginAt ∨ endAt - beginAt + 1 ≠ len then .error (.partGeometry beginAt endAt len)
  else .ok ()

def pastFirst (part : Option Nat) : Bool := (declaredPart part).any (1 < ·)

def placePart (d : Declared) (strict : Bool) : Except YencError Placed :=
  let refuse : Except YencError Placed := .error (.partGeometry d.beginAt d.endAt d.len)
  if !d.seenYpart then
    if pastFirst d.part && 0 < d.len then refuse else .ok ⟨d.beginAt, d.endAt, true⟩
  else if strict || d.len = 0 then
    (checkPartGeometry true d.beginAt d.endAt d.len).map fun _ => ⟨d.beginAt, d.endAt, true⟩
  else match d.beginDecl, d.endDecl with
    | some b, some e =>
      if b ≤ e ∧ e - b + 1 = d.len then .ok ⟨b, e, true⟩
      else if e < b ∧ b - e + 1 = d.len then .ok ⟨e, b, false⟩
      else refuse
    | some b, none => if b + (d.len - 1) < 2 ^ 64 then .ok ⟨b, b + (d.len - 1), false⟩ else refuse
    | none, some e => if d.len ≤ e then .ok ⟨e - d.len + 1, e, false⟩ else refuse
    | none, none => if pastFirst d.part then refuse else .ok ⟨1, d.len, false⟩

def trailerlessComplete (d : Declared) : Bool :=
  if d.len = 0 then false
  else if d.seenYpart then
    match d.beginDecl, d.endDecl with
    | some b, some e => b ≤ e && e - b + 1 = d.len
    | _, _ => false
  else (declaredPart d.part).all (· = 1) && d.fileSize = d.len

end NzbFast.Yenc
