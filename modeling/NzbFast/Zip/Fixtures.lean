import NzbFast.Zip.Central
import NzbFast.Wire.Crc

/-!
# The zip writer

`zip::fixtures`: a single-container zip from a list of entries, with its local
headers, its central directory and its end record. The compressors and the two
ciphers are parameters; what a panic of the source stops is `none`.
-/

namespace NzbFast.Zip.Fixtures

open Wire Rust

/-- How an entry is encrypted. -/
inductive Encrypt where
  | zipCrypto (password : String)
  | ae (password : String) (strength : UInt8) (vendorVersion : UInt16)

/-- `Spec`: one entry to encode. -/
structure Spec where
  name : String
  data : List UInt8
  method : UInt16
  flags : UInt16
  external : UInt32
  crcOverride : Option UInt32
  /-- Write the 32-bit sizes saturated and the real ones in a zip64 field. -/
  zip64 : Bool
  encrypt : Option Encrypt
  tamper : Bool
  dictSize : Option UInt32

/-- `AeKeys`. -/
structure AeKeys where
  encKey : List UInt8
  macKey : List UInt8
  verify : List UInt8

/-- The compressors and ciphers that the writer calls. -/
structure Codecs where
  deflate : List UInt8 → List UInt8
  bzip2 : List UInt8 → List UInt8
  /-- With the preset: the properties byte and the stream. -/
  lzma : Nat → List UInt8 → UInt8 × List UInt8
  zipCrypto : List UInt8 → List UInt8 → List UInt8
  aeDerive : List UInt8 → List UInt8 → Nat → AeKeys
  aeCtr : List UInt8 → List UInt8 → List UInt8
  aeMac : List UInt8 → List UInt8 → List UInt8

def METHOD_DEFLATE : UInt16 := 8

def METHOD_BZIP2 : UInt16 := 12

def METHOD_LZMA : UInt16 := 14

def u16le (v : UInt16) : List UInt8 := leBytes 2 v.toNat

def u32le (v : UInt32) : List UInt8 := leBytes 4 v.toNat

def u64le (v : UInt64) : List UInt8 := leBytes 8 v.toNat

/-- `as u16`, `as u32` and `as u64` of a length. -/
def len16 (b : List UInt8) : UInt16 := UInt16.ofNat b.length

def len32 (b : List UInt8) : UInt32 := UInt32.ofNat b.length

def len64 (b : List UInt8) : UInt64 := UInt64.ofNat b.length

/-- `body`: the entry's bytes as its method stores them. -/
def body (k : Codecs) (s : Spec) : List UInt8 :=
  if s.method = METHOD_DEFLATE then k.deflate s.data
  else if s.method = METHOD_BZIP2 then k.bzip2 s.data
  else if s.method = METHOD_LZMA then
    let (props, stream) := k.lzma (if s.dictSize.isSome then 1 else 6) s.data
    u16le 0x0014 ++ u16le 5 ++ [props] ++ u32le (s.dictSize.getD 0x10000) ++ stream
  else s.data

/-- `ae_strength_lens`: the key and salt lengths. -/
def aeStrengthLens (strength : UInt8) : Option (Nat × Nat) :=
  if strength = 1 then some (16, 8)
  else if strength = 2 then some (24, 12)
  else if strength = 3 then some (32, 16)
  else none

/-- What of an entry is written: its payload, method, CRC and AE extra field. -/
structure Stored where
  payload : List UInt8
  method : UInt16
  crc : UInt32
  aeExtra : List UInt8

def aeExtra (strength : UInt8) (vendorVersion method : UInt16) : List UInt8 :=
  u16le 0x9901 ++ u16le 7 ++ u16le vendorVersion ++ [0x41, 0x45] ++ [strength] ++ u16le method

def encrypted (k : Codecs) (s : Spec) (comp : List UInt8) (crc : UInt32) : Option Stored :=
  match s.encrypt with
  | none => some ⟨comp, s.method, crc, []⟩
  | some (.zipCrypto password) =>
    let head := (List.range 11).map fun i => UInt8.ofNat i * 73 + 29
    let check := UInt8.ofNat (crc.toNat >>> 24)
    some ⟨k.zipCrypto (asBytes password) (head ++ [check] ++ comp), s.method, crc, []⟩
  | some (.ae password strength vendorVersion) =>
    (aeStrengthLens strength).map fun (kl, sl) =>
      let salt := (List.range sl).map fun i => UInt8.ofNat i * 41 + 7
      let keys := k.aeDerive (asBytes password) salt kl
      let ct := k.aeCtr keys.encKey comp
      let payload := salt ++ keys.verify ++ ct ++ k.aeMac keys.macKey ct
      let crcField := if vendorVersion = 2 then 0 else crc
      ⟨payload, 99, crcField, aeExtra strength vendorVersion s.method⟩

def tampered (payload : List UInt8) : Option (List UInt8) :=
  match payload[payload.length / 2]? with
  | none => none
  | some b => some (payload.set (payload.length / 2) (b ^^^ 0x40))

/-- The entry with its body compressed, encrypted and, where it is to be, damaged. -/
def stored (k : Codecs) (s : Spec) : Option Stored := do
  let crc := s.crcOverride.getD (UInt32.ofNat (crc32 s.data))
  let st ← encrypted k s (body k s) crc
  if s.tamper then
    let payload ← tampered st.payload
    some { st with payload }
  else some st

def entryFlags (s : Spec) : UInt16 := s.flags ||| if s.encrypt.isSome then 0x0001 else 0

def zip64Extra (s : Spec) (st : Stored) : List UInt8 :=
  if s.zip64 then u16le 0x0001 ++ u16le 16 ++ u64le (len64 s.data) ++ u64le (len64 st.payload)
  else []

def extra (s : Spec) (st : Stored) : List UInt8 := zip64Extra s st ++ st.aeExtra

/-- The 32-bit sizes: the stored one and the real one. -/
def size32 (s : Spec) (b : List UInt8) : UInt32 := if s.zip64 then 0xFFFFFFFF else len32 b

def version (s : Spec) : UInt16 := if s.zip64 then 45 else 20

def LOCAL_SIG : List UInt8 := [0x50, 0x4B, 0x03, 0x04]

def localHeader (s : Spec) (st : Stored) : List UInt8 :=
  LOCAL_SIG ++ u16le (version s) ++ u16le (entryFlags s) ++ u16le st.method ++ u16le 0 ++
    u16le 0 ++ u32le st.crc ++ u32le (size32 s st.payload) ++ u32le (size32 s s.data) ++
    u16le (len16 (asBytes s.name)) ++ u16le (len16 (extra s st)) ++ asBytes s.name ++
    extra s st ++ st.payload

def centralFields (s : Spec) (st : Stored) (localOff : UInt32) : List (List UInt8) :=
  [CENTRAL_SIG, u16le (version s), u16le (version s), u16le (entryFlags s), u16le st.method,
    u16le 0, u16le 0, u32le st.crc, u32le (size32 s st.payload), u32le (size32 s s.data),
    u16le (len16 (asBytes s.name)), u16le (len16 (extra s st)), u16le 0, u16le 0, u16le 0,
    u32le s.external, u32le localOff]

def centralHeader (s : Spec) (st : Stored) (localOff : UInt32) : List UInt8 :=
  (centralFields s st localOff).flatten

def centralRest (s : Spec) (st : Stored) : List UInt8 := asBytes s.name ++ extra s st

/-- The container up to the directory, and the directory. -/
structure Built where
  out : List UInt8
  cd : List UInt8
  deriving DecidableEq

def addEntry (k : Codecs) (b : Built) (s : Spec) : Option Built := do
  let st ← stored k s
  some ⟨b.out ++ localHeader s st, b.cd ++ (centralHeader s st (len32 b.out) ++ centralRest s st)⟩

def built (k : Codecs) (specs : List Spec) : Option Built := specs.foldlM (addEntry k) ⟨[], []⟩

def endFields (count : Nat) (b : Built) (comment : List UInt8) : List (List UInt8) :=
  [EOCD_SIG, u16le 0, u16le 0, u16le (UInt16.ofNat count), u16le (UInt16.ofNat count),
    u32le (len32 b.cd), u32le (len32 b.out), u16le (len16 comment)]

def endRecord (count : Nat) (b : Built) (comment : List UInt8) : List UInt8 :=
  (endFields count b comment).flatten

def zipOfWithComment (k : Codecs) (specs : List Spec) (comment : List UInt8) :
    Option (List UInt8) := do
  let b ← built k specs
  some (b.out ++ b.cd ++ endRecord specs.length b comment ++ comment)

end NzbFast.Zip.Fixtures
