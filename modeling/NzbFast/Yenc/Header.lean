import NzbFast.Rust.Text

/-!
# Header lines

The `=ybegin`, `=ypart` and `=yend` lines of an article
(`crates/nzbkit-base/src/yenc.rs`): how a line is recognised, and the two ways
its fields are read. The scalar decoder parses a line into a map; the other scans
the bytes for each key. Every line arm of both decoders reads its fields through
a `FieldReader`, so the arms themselves are written once.
-/

namespace NzbFast.Yenc

open NzbFast.Rust

abbrev CR : UInt8 := 0x0D

abbrev LF : UInt8 := 0x0A

abbrev DOT : UInt8 := 0x2E

abbrev EQ : UInt8 := 0x3D

abbrev SP : UInt8 := 0x20

abbrev TAB : UInt8 := 0x09

abbrev lit (s : String) : List UInt8 := encode s.toList

/-! ## Recognising a line -/

/-- `header_tail`: the fields past a keyword, tabs made spaces. -/
def headerTail (afterKw : List UInt8) (bareOk : Bool) : Option (List UInt8) :=
  match afterKw with
  | [] => if bareOk then some [] else none
  | b :: fields =>
    if b = SP ∨ b = TAB then some (fields.map fun c => if c = TAB then SP else c) else none

def headerFields (line kw : List UInt8) (bareOk : Bool) : Option (List UInt8) :=
  ((lit "=y").isPrefixOf? line).bind fun t =>
    (kw.isPrefixOf? t).bind fun t => headerTail t bareOk

/-! ## Names -/

def HEADER_KEYS : List String :=
  ["part", "total", "line", "size", "begin", "end", "pcrc32", "crc32"]

/-- What `name_len` measures: the text up to the next ` key=` token. -/
def nameCut {α : Type} [DecidableEq α] (sp eq : α) (keys : List (List α)) : List α → List α
  | [] => []
  | c :: after =>
    if c = sp ∧ keys.any fun k => (k ++ [eq]).isPrefixOf after then []
    else c :: nameCut sp eq keys after

def trimMatches {α : Type} (p : α → Bool) (l : List α) : List α :=
  ((l.dropWhile p).reverse.dropWhile p).reverse

/-- `char::is_ascii_whitespace`. -/
def isAsciiWhitespace (c : Char) : Bool := [' ', '\t', '\n', '\x0C', '\r'].contains c

/-- `u8::is_ascii_whitespace`. -/
def isAsciiWhitespaceByte (b : UInt8) : Bool := [0x20, 0x09, 0x0A, 0x0C, 0x0D].contains b

/-! ## The map of the scalar decoder -/

/-- The loop of `parse_header`, for at most `fuel` fields. -/
def fieldsFrom : Nat → Text → List (Text × Text)
  | 0, _ => []
  | fuel + 1, remaining =>
    match splitOnce '=' remaining with
    | none => []
    | some (before, after) =>
      let key := (before.reverse.takeWhile (· ≠ ' ')).reverse
      if key = "name".toList then
        [(key, trimMatches isAsciiWhitespace
          (nameCut ' ' '=' (HEADER_KEYS.map String.toList) after))]
      else
        let (value, rest) := match splitOnce ' ' after with
          | some (value, rest) => (value, rest.dropWhile (· = ' '))
          | none => (after, [])
        (key, value) :: fieldsFrom fuel rest

/-- `parse_header`. A key that comes again keeps its first value, which is the one a lookup
finds. -/
def parseHeader (rest : List UInt8) : List (Text × Text) :=
  let text := trimMatches (· = ' ') (fromUtf8Lossy rest).toList
  fieldsFrom text.length text

def num (kv : List (Text × Text)) (key : String) : Option Nat :=
  (kv.lookup key.toList).bind (fromStrRadix 10 (2 ^ 64))

def hex (kv : List (Text × Text)) (key : String) : Option Nat :=
  (kv.lookup key.toList).bind (fromStrRadix 16 (2 ^ 32))

/-! ## The scans of the other decoder -/

/-- `find_key`: what precedes the first `key=` token, and what follows it. `fresh` says that a
token may begin here. -/
def findKey (key : List UInt8) : Bool → List UInt8 → Option (List UInt8 × List UInt8)
  | _, [] => none
  | fresh, b :: rest =>
    match if fresh then (key ++ [EQ]).isPrefixOf? (b :: rest) else none with
    | some after => some ([], after)
    | none => (findKey key (b = SP) rest).map fun (before, after) => (b :: before, after)

def fieldValue (rest key : List UInt8) : Option (List UInt8) :=
  let rest := if key = lit "name" then rest
    else match findKey (lit "name") true rest with
      | some (before, _) => before
      | none => rest
  (findKey key true rest).map fun (_, after) => after.takeWhile (· ≠ SP)

def fieldU64 (rest : List UInt8) (key : String) : Option Nat :=
  (fieldValue rest (lit key)).bind fun v => (decode v).bind (fromStrRadix 10 (2 ^ 64))

def fieldHex (rest : List UInt8) (key : String) : Option Nat :=
  (fieldValue rest (lit key)).bind fun v => (decode v).bind (fromStrRadix 16 (2 ^ 32))

def fieldName (rest : List UInt8) : Option (List UInt8) :=
  (findKey (lit "name") true rest).map fun (_, after) =>
    trimMatches isAsciiWhitespaceByte (nameCut SP EQ (HEADER_KEYS.map lit) after)

/-! ## Readers -/

/-- How a decoder reads the fields of a header line. -/
structure FieldReader where
  num : List UInt8 → String → Option Nat
  hex : List UInt8 → String → Option Nat
  name : List UInt8 → Option Text

def scalarReader : FieldReader where
  num rest key := Yenc.num (parseHeader rest) key
  hex rest key := Yenc.hex (parseHeader rest) key
  name rest := (parseHeader rest).lookup "name".toList

def simdReader : FieldReader where
  num := fieldU64
  hex := fieldHex
  name rest := (fieldName rest).map fun v => (fromUtf8Lossy v).toList

end NzbFast.Yenc
