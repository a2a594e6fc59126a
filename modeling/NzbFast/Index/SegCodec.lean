import NzbFast.Wire.Reader
import NzbFast.Rust.Utf8
import Mathlib.Tactic

/-!
# The segment codec of the index

The compact on-disk encoding of a file's segment list
(`crates/nzbkit/src/index/segcodec.rs`). A writer `put_*` appends to its output
vector; here it returns the bytes it appends. The reader's `buf[at..]` is the
list of unread bytes of `Wire.Reader`: `at` never passes the end of the buffer,
so a `checked_add` on it fails only where the slice behind it is too short as
well.

A closure `keep_going: &mut dyn FnMut() -> bool` is a state with its transition
`keepGoing : σ → Bool × σ`.
-/

namespace NzbFast.Index

open Wire NzbFast.Rust

/-- One segment: `(number, message-id, bytes)`. -/
structure Seg where
  number : UInt32
  id : String
  bytes : UInt64
  deriving DecidableEq, Repr

def MAGIC : UInt8 := 0x01

def SAME_BYTES : UInt8 := 1
def NEXT_NUM : UInt8 := 2

/-- The token kinds, the two high bits of a tag. -/
def KIND_RAW : UInt8 := 0
def KIND_HEX : UInt8 := 1
def KIND_B64 : UInt8 := 2

def GUARDED_PARSE_CHUNK : Nat := 256

/-- Longest token: the tag keeps its length in six bits. -/
def TOKEN_MAX : Nat := 63

/-- The shortest hex run that gets a token of its own. -/
def HEX_MIN : Nat := 8

def usizeMax : Nat := 2 ^ 64 - 1

/-- The bytes of `0123456789ABCDEFGHIJKLMNOPQRSTUVWXYZabcdefghijklmnopqrstuvwxyz-_`. -/
def B64_ALPHABET : List UInt8 :=
  [48, 49, 50, 51, 52, 53, 54, 55, 56, 57,
   65, 66, 67, 68, 69, 70, 71, 72, 73, 74, 75, 76, 77, 78, 79, 80, 81, 82, 83, 84, 85, 86, 87,
   88, 89, 90,
   97, 98, 99, 100, 101, 102, 103, 104, 105, 106, 107, 108, 109, 110, 111, 112, 113, 114, 115,
   116, 117, 118, 119, 120, 121, 122, 45, 95]

/-- The bytes of `0123456789abcdef`. -/
def HEX_ALPHABET : List UInt8 :=
  [48, 49, 50, 51, 52, 53, 54, 55, 56, 57, 97, 98, 99, 100, 101, 102]

def b64Index (c : UInt8) : Option UInt8 :=
  if 48 ≤ c ∧ c ≤ 57 then some (c - 48)
  else if 65 ≤ c ∧ c ≤ 90 then some (c - 65 + 10)
  else if 97 ≤ c ∧ c ≤ 122 then some (c - 97 + 36)
  else if c = 45 then some 62
  else if c = 95 then some 63
  else none

def hexVal (c : UInt8) : Option UInt8 :=
  if 48 ≤ c ∧ c ≤ 57 then some (c - 48)
  else if 97 ≤ c ∧ c ≤ 102 then some (c - 97 + 10)
  else none

/-- `put_varint`: seven bits a byte, low group first, the high bit on all but the last. -/
def putVarint (v : UInt64) : List UInt8 :=
  let b := (v &&& 0x7f).toUInt8
  let v' := v >>> 7
  if _h : v' = 0 then [b] else (b ||| 0x80) :: putVarint v'
termination_by v.toNat
decreasing_by
  have hne : v'.toNat ≠ 0 := fun h => _h (UInt64.toNat_inj.mp (by simpa using h))
  have hv : v'.toNat = v.toNat / 128 := by
    simp [v', UInt64.toNat_shiftRight, Nat.shiftRight_eq_div_pow]
  show v'.toNat < v.toNat
  omega

/-- `zigzag` of an `i64`, given by its value. -/
def zigzag (v : Int) : UInt64 :=
  let b := BitVec.ofInt 64 v
  .ofBitVec ((b <<< 1) ^^^ b.sshiftRight 63)

def unzigzag (v : UInt64) : Int :=
  ((v.toBitVec >>> 1) ^^^ -(v.toBitVec &&& 1)).toInt

/-! ## The reader -/

/-- `Reader::u8`. -/
def u8 : Reader UInt8 := fun
  | [] => none
  | b :: rest => some (b, rest)

/-- The body of `Reader::varint` over the shifts still to come. -/
def varintLoop : List Nat → UInt64 → Reader UInt64
  | [], _ => fun _ => none
  | shift :: shifts, v => do
    let b ← u8
    let v := v ||| ((b &&& 0x7f).toUInt64 <<< UInt64.ofNat shift)
    if b &&& 0x80 = 0 then pure v else varintLoop shifts v

/-- `Reader::varint`: `for shift in (0..64).step_by(7)`. -/
def varint : Reader UInt64 := varintLoop [0, 7, 14, 21, 28, 35, 42, 49, 56, 63] 0

def readBytes (n : Nat) : Reader (List UInt8) := fun buf =>
  if n ≤ buf.length then some (buf.take n, buf.drop n) else none

/-! ## Tokens -/

/-- Longest common prefix length, in bytes. -/
def lcp : List UInt8 → List UInt8 → Nat
  | a :: as, b :: bs => if a = b then lcp as bs + 1 else 0
  | _, _ => 0

/-- Longest common suffix length, in bytes. -/
def lcs (a b : List UInt8) : Nat := lcp a.reverse b.reverse

/-- The inner loop `while nb >= 8` of the 6-bit packer: the bytes pushed and the bits left. -/
def drainBytes (acc : UInt32) (nb : Nat) : List UInt8 × Nat :=
  if 8 ≤ nb then
    let nb := nb - 8
    let (out, left) := drainBytes acc nb
    (((acc >>> UInt32.ofNat nb) &&& 0xff).toUInt8 :: out, left)
  else ([], nb)

/-- The 6-bit packer over the characters still to come. -/
def packB64 : List UInt8 → UInt32 → Nat → List UInt8
  | [], acc, nb => if 0 < nb then [((acc <<< UInt32.ofNat (8 - nb)) &&& 0xff).toUInt8] else []
  | c :: cs, acc, nb =>
    let acc := (acc <<< 6) ||| ((b64Index c).getD 0).toUInt32
    let (out, nb) := drainBytes acc (nb + 6)
    out ++ packB64 cs acc nb

def packHex : List UInt8 → List UInt8
  | a :: b :: rest => (((hexVal a).getD 0 <<< 4) ||| (hexVal b).getD 0) :: packHex rest
  | _ => []

def putToken (kind : UInt8) (chunk : List UInt8) : List UInt8 :=
  ((kind <<< 6) ||| UInt8.ofNat chunk.length) ::
    (if kind = KIND_HEX then packHex chunk
     else if kind = KIND_B64 then packB64 chunk 0 0
     else chunk)

/-- `s.chunks(step)`. -/
def chunks (step : Nat) (s : List UInt8) : List (List UInt8) :=
  if _h : s = [] ∨ step = 0 then [] else s.take step :: chunks step (s.drop step)
termination_by s.length
decreasing_by
  rw [not_or] at _h
  have := List.length_pos_iff.mpr _h.1
  simp only [List.length_drop]
  omega

def putTokens (kind : UInt8) (s : List UInt8) : List UInt8 :=
  let step := if kind = KIND_HEX then TOKEN_MAX - 1 else TOKEN_MAX
  (chunks step s).flatMap (putToken kind)

def isB64 (c : UInt8) : Bool := (b64Index c).isSome
def isHex (c : UInt8) : Bool := (hexVal c).isSome

/-- How far the 6-bit stretch at the head of a run goes: to the next hex run worth
its own token. -/
def b64Stretch : List UInt8 → Nat
  | [] => 0
  | c :: cs =>
    if isHex c then
      let m := (cs.takeWhile isHex).length + 1
      if HEX_MIN ≤ m then 0 else m + b64Stretch (cs.dropWhile isHex)
    else 1 + b64Stretch cs
termination_by l => l.length
decreasing_by
  · have := (List.dropWhile_sublist (l := cs) isHex).length_le
    simp only [List.length_cons]
    omega
  · simp

/-- The loop over `k` of `put_middle`: one run of packable characters. The fuel is the
length of the run. -/
def putRun : Nat → List UInt8 → List UInt8
  | 0, _ => []
  | _, [] => []
  | fuel + 1, run =>
    let h := (run.takeWhile isHex).length
    if HEX_MIN ≤ h then
      let len := if h % 2 = 1 then h - 1 else h
      putTokens KIND_HEX (run.take len) ++ putRun fuel (run.drop len)
    else
      let l := b64Stretch run
      putTokens KIND_B64 (run.take l) ++ putRun fuel (run.drop l)

/-- `put_middle`: packable runs and raw runs in turn. The fuel is the length of the rest. -/
def putMiddleLoop : Nat → List UInt8 → List UInt8
  | 0, _ => []
  | _, [] => []
  | fuel + 1, c :: cs =>
    if isB64 c then
      let run := (c :: cs).takeWhile isB64
      putRun run.length run ++ putMiddleLoop fuel ((c :: cs).dropWhile isB64)
    else
      putTokens KIND_RAW ((c :: cs).takeWhile (!isB64 ·)) ++
        putMiddleLoop fuel ((c :: cs).dropWhile (!isB64 ·))

def putMiddle (mid : List UInt8) : List UInt8 := putMiddleLoop mid.length mid

/-- The inner loop of the 6-bit unpacker: `while nb >= 6 && emitted < len`, with `want` the
characters still to emit. Returns the characters, the bits left and the characters still
wanted. -/
def drainChars (acc : UInt32) : Nat → Nat → List UInt8 × Nat × Nat
  | nb, want + 1 =>
    if 6 ≤ nb then
      let c := B64_ALPHABET.getD ((acc >>> UInt32.ofNat (nb - 6)) &&& 0x3f).toNat 0
      let (out, left) := drainChars acc (nb - 6) want
      (c :: out, left)
    else ([], nb, want + 1)
  | nb, 0 => ([], nb, 0)

/-- The 6-bit unpacker over the packed bytes still to come: the characters and how many
are still wanted at the end. -/
def unpackB64 : List UInt8 → UInt32 → Nat → Nat → List UInt8 × Nat
  | [], _, _, want => ([], want)
  | b :: bs, acc, nb, want =>
    let acc := (acc <<< 8) ||| b.toUInt32
    let (out, nb, want) := drainChars acc (nb + 8) want
    let (out', want) := unpackB64 bs acc nb want
    (out ++ out', want)

def unpackHex (bs : List UInt8) : List UInt8 :=
  bs.flatMap fun b : UInt8 =>
    [HEX_ALPHABET.getD (b >>> 4).toNat 0, HEX_ALPHABET.getD (b &&& 0xf).toNat 0]

/-- The characters of one token of `len` characters behind its tag. -/
def getToken (kind : UInt8) (len : Nat) : Reader (List UInt8) :=
  if kind = KIND_RAW then readBytes len
  else if kind = KIND_HEX then
    if len % 2 = 1 then failure else do
      let bs ← readBytes (len / 2)
      pure (unpackHex bs)
  else if kind = KIND_B64 then do
    let packed ← readBytes ((len * 6 + 7) / 8)
    let (out, want) := unpackB64 packed 0 0 len
    if want ≠ 0 then failure else pure out
  else failure

section Guarded

variable {σ : Type} (keepGoing : σ → Bool × σ)

/-- The closure is asked on every `GUARDED_PARSE_CHUNK`-th step; `none` when it refuses. -/
def askEvery (due : Bool) (s : σ) : Option σ :=
  if due then
    match keepGoing s with
    | (true, s') => some s'
    | (false, _) => none
  else some s

/-- The token loop of `get_middle_guarded`, with `left` bytes of the middle to come and
`tokens` read. The fuel is `left`: every token takes at least one byte of it. -/
def getMiddleLoop : Nat → Nat → Nat → σ → Reader (List UInt8 × σ)
  | _, 0, _, s => pure ([], s)
  | 0, _ + 1, _, _ => failure
  | fuel + 1, left + 1, tokens, s => do
    let s ← StateT.lift (askEvery keepGoing (0 < tokens ∧ tokens % GUARDED_PARSE_CHUNK = 0) s)
    let tag ← u8
    let kind := tag >>> 6
    let len := (tag &&& 0x3f).toNat
    if len = 0 ∨ left + 1 < len then failure else do
      let out ← getToken kind len
      let (rest, s) ← getMiddleLoop fuel (left + 1 - len) (tokens + 1) s
      pure (out ++ rest, s)

def getMiddleGuarded (mlen : Nat) (s : σ) : Reader (List UInt8 × σ) :=
  getMiddleLoop keepGoing mlen mlen 0 s

end Guarded

/-! ## Encoding -/

/-- The common prefix and suffix of the ids, cut at byte level: the prefix wins the overlap. -/
def affixes : List Seg → List UInt8 × List UInt8
  | [] => ([], [])
  | first :: segs =>
    let f := asBytes first.id
    let p := segs.foldl (fun p seg => min p (lcp f (asBytes seg.id))) f.length
    let s := segs.foldl (fun s seg => min s (lcs f (asBytes seg.id))) f.length
    let shortest := segs.foldl (fun n seg => min n (asBytes seg.id).length) f.length
    let s := if p + s > shortest then shortest - p else s
    (f.take p, f.drop (f.length - s))

/-- One round of the segment loop of `encode`; `prevBytes` is absent before the first segment. -/
def encodeSeg (plen slen : Nat) (seg : Seg) (prevNum : Int) (prevBytes : Option UInt64) :
    List UInt8 :=
  let num : Int := seg.number.toNat
  let same := prevBytes = some seg.bytes
  let next := num = prevNum + 1
  let flags := (if same then SAME_BYTES else 0) ||| (if next then NEXT_NUM else 0)
  let id := asBytes seg.id
  let mid := (id.take (id.length - slen)).drop plen
  [flags] ++
    (if flags &&& NEXT_NUM = 0 then putVarint (zigzag (num - prevNum - 1)) else []) ++
    (if flags &&& SAME_BYTES = 0 then putVarint seg.bytes else []) ++
    putVarint (UInt64.ofNat mid.length) ++ putMiddle mid

def encodeSegs (plen slen : Nat) : List Seg → Int → Option UInt64 → List UInt8
  | [], _, _ => []
  | seg :: segs, prevNum, prevBytes =>
    encodeSeg plen slen seg prevNum prevBytes ++
      encodeSegs plen slen segs seg.number.toNat (some seg.bytes)

def encode (segs : List Seg) : List UInt8 :=
  let (pre, suf) := affixes segs
  [MAGIC] ++ putVarint (UInt64.ofNat segs.length) ++
    putVarint (UInt64.ofNat pre.length) ++ pre ++
    putVarint (UInt64.ofNat suf.length) ++ suf ++
    encodeSegs pre.length suf.length segs 0 none

/-! ## Decoding -/

def checkedAddI64 (a b : Int) : Option Int :=
  if -2 ^ 63 ≤ a + b ∧ a + b < 2 ^ 63 then some (a + b) else none

def checkedAddUsize (a b : Nat) : Option Nat := if a + b ≤ usizeMax then some (a + b) else none

/-- `u32::try_from` of an `i64`. -/
def u32TryFrom (n : Int) : Option UInt32 :=
  if 0 ≤ n ∧ n < 2 ^ 32 then some (UInt32.ofNat n.toNat) else none

section Decode

variable {σ : Type} (textLimit : Nat) (strictUtf8 : Bool) (keepGoing : σ → Bool × σ)

/-- What one segment is decoded against: the previous number and byte count, and the id text
read so far. -/
structure DecodeState where
  prevNum : Int
  prevBytes : UInt64
  textBytes : Nat

def decodeId (id : List UInt8) : Option String :=
  if strictUtf8 then fromUtf8 id else some (fromUtf8Lossy id)

def readNumber (flags : UInt8) (prevNum : Int) : Reader Int :=
  if flags &&& NEXT_NUM ≠ 0 then pure (prevNum + 1) else do
    let d ← varint
    let n ← StateT.lift (checkedAddI64 prevNum (unzigzag d))
    StateT.lift (checkedAddI64 n 1)

def readCount (flags : UInt8) (prevBytes : UInt64) : Reader UInt64 :=
  if flags &&& SAME_BYTES ≠ 0 then pure prevBytes else varint

/-- One round of the segment loop of `decode_prefix_impl_guarded`. -/
def decodeSeg (pre suf : List UInt8) (index : Nat) (st : DecodeState) (s : σ) :
    Reader (Seg × DecodeState × σ) := do
  let s ← StateT.lift (askEvery keepGoing (index % GUARDED_PARSE_CHUNK = 0) s)
  let flags ← u8
  let num ← readNumber flags st.prevNum
  let bytes ← readCount flags st.prevBytes
  let mlen ← varint
  let idLen ← StateT.lift (checkedAddUsize pre.length mlen.toNat)
  let idLen ← StateT.lift (checkedAddUsize idLen suf.length)
  let nextTextBytes ← StateT.lift (checkedAddUsize st.textBytes idLen)
  if textLimit < nextTextBytes then failure else do
    let (mid, s) ← getMiddleGuarded keepGoing mlen.toNat s
    let num32 ← StateT.lift (u32TryFrom num)
    let id ← StateT.lift (decodeId strictUtf8 (pre ++ mid ++ suf))
    pure (⟨num32, id, bytes⟩, ⟨num, bytes, nextTextBytes⟩, s)

/-- `want` rounds of the segment loop, from segment `index` on. -/
def decodeSegs (pre suf : List UInt8) : Nat → Nat → DecodeState → σ → Reader (List Seg × σ)
  | 0, _, _, s => pure ([], s)
  | want + 1, index, st, s => do
    let (seg, st, s) ← decodeSeg textLimit strictUtf8 keepGoing pre suf index st s
    let (segs, s) ← decodeSegs pre suf want (index + 1) st s
    pure (seg :: segs, s)

/-- The reads of `decode_prefix_impl_guarded`: the declared count, the segments and the closure's
final state. -/
def decodeBody (limit : Nat) (s : σ) : Reader (Nat × List Seg × σ) := do
  let magic ← u8
  if magic ≠ MAGIC then failure else do
    let n ← varint
    let plen ← varint
    let pre ← readBytes plen.toNat
    let slen ← varint
    let suf ← readBytes slen.toNat
    let (out, s) ← decodeSegs textLimit strictUtf8 keepGoing pre suf
      (min n.toNat limit) 0 ⟨0, 0, 0⟩ s
    pure (n.toNat, out, s)

/-- `decode_prefix_impl_guarded`, with the closure's final state. -/
def decodePrefixImplGuarded (raw : List UInt8) (limit : Nat) (s : σ) : Option (List Seg × σ) :=
  match (decodeBody textLimit strictUtf8 keepGoing limit s).run raw with
  | some ((n, out, s), rest) => if min n limit = n ∧ rest ≠ [] then none else some (out, s)
  | none => none

end Decode

/-- `decode_prefix_impl`: the closure never refuses. -/
def decodePrefixImpl (raw : List UInt8) (limit textLimit : Nat) (strictUtf8 : Bool) :
    Option (List Seg) :=
  (decodePrefixImplGuarded textLimit strictUtf8 (fun s : Unit => (true, s)) raw limit ()).map
    Prod.fst

def decodePrefix (raw : List UInt8) (limit : Nat) : Option (List Seg) :=
  decodePrefixImpl raw limit usizeMax false

def decode (raw : List UInt8) : Option (List Seg) := decodePrefix raw usizeMax

def isEncoded (raw : List UInt8) : Bool := raw.head? == some MAGIC

/-! ## The readers that take either stored form -/

/-- `u8::is_ascii_whitespace`. -/
def isAsciiWhitespace (c : UInt8) : Bool := c == 32 || c == 9 || c == 10 || c == 12 || c == 13

/-- The scanning state of `json_array_len`. -/
structure JsonScan where
  depth : Nat
  count : Int
  sawElement : Bool
  inStr : Bool

/-- The second loop of `json_array_len`. A backslash in a string skips the byte behind it. -/
def jsonScan : List UInt8 → JsonScan → Option Int
  | [], _ => none
  | c :: cs, st =>
    if st.inStr then
      if c = 92 then
        match cs with
        | [] => none
        | _ :: cs => jsonScan cs st
      else if c = 34 then jsonScan cs { st with inStr := false }
      else jsonScan cs st
    else if c = 34 then jsonScan cs { st with inStr := true, sawElement := true }
    else if c = 91 ∨ c = 123 then
      jsonScan cs { st with depth := st.depth + 1, sawElement := true }
    else if c = 93 ∨ c = 125 then
      if st.depth - 1 = 0 then some (if st.sawElement then st.count + 1 else 0)
      else jsonScan cs { st with depth := st.depth - 1 }
    else if c = 44 ∧ st.depth = 1 then jsonScan cs { st with count := st.count + 1 }
    else if !isAsciiWhitespace c then jsonScan cs { st with sawElement := true }
    else jsonScan cs st

def jsonArrayLen (raw : List UInt8) : Option Int :=
  match raw.dropWhile isAsciiWhitespace with
  | 91 :: rest => jsonScan rest ⟨1, 0, false, false⟩
  | _ => none

/-- The value of a `u64` cast to `i64`. -/
def asI64 (n : UInt64) : Int := n.toBitVec.toInt

def countBytes (raw : List UInt8) : Int :=
  if isEncoded raw then
    match varint.run (raw.drop 1) with
    | some (n, _) => asI64 n
    | none => 0
  else (jsonArrayLen raw).getD 0

/-- `first_msgid_bytes`; `fromJson` is `serde_json::from_slice` at a segment list. -/
def firstMsgidBytes (fromJson : List UInt8 → Option (List Seg)) (raw : List UInt8) :
    Option String := do
  let segs ← if isEncoded raw then decodePrefix raw 1 else fromJson raw
  segs.head?.map Seg.id

/-- `parse_bytes`: a malformed value is an empty list. -/
def parseBytes (fromJson : List UInt8 → Option (List Seg)) (raw : List UInt8) : List Seg :=
  ((if isEncoded raw then decode raw else fromJson raw)).getD []

end NzbFast.Index
