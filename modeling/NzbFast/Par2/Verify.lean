import Mathlib.Data.List.GetD
import NzbFast.Par2.Grid
import NzbFast.Par2.Windowed
import NzbFast.Wire.Source

/-!
# The verify doors: reference and streams

`verify_file` (`crates/nzbkit-base/src/par2/verify.rs`) is the reference: a file's
whole-file MD5 arbitrates, and where it fails each proven cell of the grid is
compared with its zero-padded slice. Here are the reference and the doors that
read a stream, `verify_file_streaming` and `verify_file_seekable`; a hasher is the
list of bytes it was fed. MD5, CRC32 and the extension of a CRC over zeros
(`crc32_zeros`) are parameters.
-/

namespace NzbFast.Par2

open Wire List
open List hiding not_le not_lt

def HASH16K_LEN : Nat := 16384

def BlockCheck.isProven (c : BlockCheck) : Bool := c.md5 ≠ UNPROVEN.md5

def BlockCheck.crcMatches (c : BlockCheck) (crc : Nat) : Bool := c.isProven && c.crc32 = crc

def zeros (n : Nat) : List UInt8 := List.replicate n 0

structure FileVerify where
  blocks : List Bool
  md5Ok : Bool
  md5_16kOk : Bool
  deriving DecidableEq, Repr

/-- `diagnostic_block_count`: the leading cells up to the last proven one. -/
def diagnosticBlockCount (cells : List BlockCheck) : Nat :=
  (cells.reverse.dropWhile fun c => !c.isProven).length

/-- `Vec::resize(len, false)`. -/
def resizeFlags (blocks : List Bool) (len : Nat) : List Bool :=
  blocks.take len ++ List.replicate (len - blocks.length) false

section Model

variable (md5 : List UInt8 → List UInt8) (crc32 : List UInt8 → Nat) (crc32Zeros : Nat → Nat → Nat)

/-! ## The reference -/

/-- The flag of one cell in `verify_file_blocks`. -/
def verifyBlock (blockSize : Nat) (data : List UInt8) (i : Nat) (check : BlockCheck) : Bool :=
  if !check.isProven then false
  else if 2 ^ 64 ≤ i * blockSize then false
  else
    let start := i * blockSize
    if data.length ≤ start then false
    else
      let stop := min (start + blockSize) data.length
      let chunk :=
        if stop - start = blockSize then slice data start stop
        else slice data start stop ++ zeros (blockSize - (stop - start))
      if !check.crcMatches (crc32 chunk) then false else md5 chunk = check.md5

def verifyFileBlocks (file : Par2File) (blockSize : Nat) (data : List UInt8) : List Bool :=
  if blockSize = 0 then List.replicate file.blocks.length false
  else file.blocks.mapIdx (verifyBlock md5 crc32 blockSize data)

def verifyFile (file : Par2File) (blockSize : Nat) (data : List UInt8) : FileVerify :=
  let head := data.take (min data.length HASH16K_LEN)
  let md5Ok : Bool := data.length = file.length ∧ md5 data = file.md5
  { blocks :=
      if md5Ok then List.replicate file.blocks.length true
      else verifyFileBlocks md5 crc32 file blockSize data
    md5Ok
    md5_16kOk := md5 head = file.md5_16k }

/-! ## Cutting a stream into blocks -/

/-- `prove_resident_block`: a whole slice in one buffer, its CRC the gate of its MD5. -/
def proveResidentBlock (check : BlockCheck) (data : List UInt8) (pad : Nat) : Bool :=
  let crc := if 0 < pad then crc32Zeros (crc32 data) pad else crc32 data
  if !check.crcMatches crc then false else md5 (data ++ zeros pad) = check.md5

/-- The two digests of a block fed in pieces, compared. -/
def closeBlock (check : BlockCheck) (hashed : List UInt8) : Bool :=
  md5 hashed = check.md5 && crc32 hashed = check.crc32

/-- The comparison for a block that the input ended in: the digests run on over the padding. -/
def closePadded (check : BlockCheck) (hashed : List UInt8) (pad : Nat) : Bool :=
  md5 (hashed ++ zeros pad) = check.md5 && crc32Zeros (crc32 hashed) pad = check.crc32

/-- The per-block state of a stream: the flags so far, what both hashers hold and the bytes of
the current block already passed. -/
structure Cutter where
  blocks : List Bool := []
  hashed : List UInt8 := []
  filled : Nat := 0
  deriving DecidableEq, Repr

/-- The inner loop over one read's bytes. A round takes at least one byte. -/
def Cutter.feed (cells : List BlockCheck) (diag bs : Nat) : Nat → Cutter → List UInt8 → Cutter
  | 0, c, _ => c
  | fuel + 1, c, bytes =>
    if bytes = [] ∨ diag ≤ c.blocks.length then c
    else
      let seg := min (bs - c.filled) bytes.length
      let check := cells.getD c.blocks.length UNPROVEN
      if c.filled = 0 ∧ seg = bs then
        let ok := check.isProven && proveResidentBlock md5 crc32 crc32Zeros check (bytes.take seg) 0
        Cutter.feed cells diag bs fuel { c with blocks := c.blocks ++ [ok] } (bytes.drop seg)
      else
        let hashed := if check.isProven then c.hashed ++ bytes.take seg else c.hashed
        let filled := c.filled + seg
        let next :=
          if filled = bs then
            if check.isProven then ⟨c.blocks ++ [closeBlock md5 crc32 check hashed], [], 0⟩
            else ⟨c.blocks ++ [false], hashed, 0⟩
          else ⟨c.blocks, hashed, filled⟩
        Cutter.feed cells diag bs fuel next (bytes.drop seg)

def finishPartialBlock (cells : List BlockCheck) (bs : Nat) (c : Cutter) : List Bool :=
  if c.filled = 0 ∨ cells.length ≤ c.blocks.length then c.blocks
  else
    let check := cells.getD c.blocks.length UNPROVEN
    if !check.isProven then c.blocks ++ [false]
    else c.blocks ++ [closePadded md5 crc32 crc32Zeros check c.hashed (bs - c.filled)]

/-! ## Streams -/

def VERIFY_CHUNK : Nat := 1024 * 1024

/-- The state of the one-pass streamer. -/
structure StreamState where
  whole : List UInt8 := []
  head : List UInt8 := []
  total : Nat := 0
  cut : Cutter := {}

/-- What every pass does with a read's bytes: the whole-file hasher, the head's and the count. -/
def StreamState.hash (s : StreamState) (bytes : List UInt8) : StreamState :=
  { s with
    whole := s.whole ++ bytes
    head :=
      if s.total < HASH16K_LEN then s.head ++ bytes.take (min (HASH16K_LEN - s.total) bytes.length)
      else s.head
    total := s.total + bytes.length }

/-- One read of `verify_file_streaming_sized`. -/
def streamStep (cells : List BlockCheck) (bs : Nat) (s : StreamState) (bytes : List UInt8) :
    StreamState :=
  let s := s.hash bytes
  if 0 < bs then
    { s with
      cut := s.cut.feed md5 crc32 crc32Zeros cells (diagnosticBlockCount cells) bs bytes.length bytes }
  else s

def verifyFileStreamingSized (file : Par2File) (blockSize : Nat) (src : Source) (bufferLen : Nat) :
    Option FileVerify :=
  (readLoop (fun _ => max bufferLen 1) (fun _ => false)
    (streamStep md5 crc32 crc32Zeros file.blocks blockSize) (src.rest.length + 1) src {}).map fun s =>
      let blocks := resizeFlags (finishPartialBlock md5 crc32 crc32Zeros file.blocks blockSize s.cut)
        file.blocks.length
      let md5Ok : Bool := s.total = file.length ∧ md5 s.whole = file.md5
      { blocks := if md5Ok then List.replicate file.blocks.length true else blocks
        md5Ok
        md5_16kOk := md5 s.head = file.md5_16k }

def verifyFileStreaming (file : Par2File) (blockSize : Nat) (src : Source) : Option FileVerify :=
  verifyFileStreamingSized md5 crc32 crc32Zeros file blockSize src VERIFY_CHUNK

/-- `verify_whole_sized`: whether the whole-file MD5 and the head's match. -/
def verifyWholeSized (file : Par2File) (src : Source) (bufferLen : Nat) : Option (Bool × Bool) :=
  (readLoop (fun _ => max bufferLen 1) (fun _ => false) StreamState.hash (src.rest.length + 1) src
    {}).map fun s =>
      (decide (s.total = file.length ∧ md5 s.whole = file.md5), decide (md5 s.head = file.md5_16k))

/-- The state of a diagnostic pass. -/
structure BlocksState where
  bytesLeft : Nat
  cut : Cutter := {}

/-- `verify_blocks_streaming`: the bytes of the diagnostic blocks and no more. A file's bytes are
fewer than `2^64`, so the saturation of `bytes_left` is not met before its end. -/
def verifyBlocksStreaming (file : Par2File) (blockSize : Nat) (src : Source) : Option (List Bool) :=
  let diag := diagnosticBlockCount file.blocks
  if blockSize = 0 ∨ diag = 0 then some (List.replicate file.blocks.length false)
  else
    (readLoop (fun s : BlocksState => min s.bytesLeft VERIFY_CHUNK)
      (fun s => decide (diag ≤ s.cut.blocks.length))
      (fun s bytes => ⟨s.bytesLeft - bytes.length,
        s.cut.feed md5 crc32 crc32Zeros file.blocks diag blockSize bytes.length bytes⟩)
      (src.rest.length + 1) src ⟨blockSize * diag, {}⟩).map fun s =>
        resizeFlags (finishPartialBlock md5 crc32 crc32Zeros file.blocks blockSize s.cut)
          file.blocks.length

/-- `verify_file_seekable`: `src` is the first pass and `again` the one after the rewind. -/
def verifyFileSeekable (file : Par2File) (blockSize : Nat) (src again : Source) :
    Option FileVerify :=
  (verifyWholeSized md5 file src VERIFY_CHUNK).bind fun whole =>
    if whole.1 then some ⟨List.replicate file.blocks.length true, whole.1, whole.2⟩
    else
      (verifyBlocksStreaming md5 crc32 crc32Zeros file blockSize again).map fun blocks =>
        ⟨blocks, whole.1, whole.2⟩

end Model

/-! ## The grid's proven cells -/

theorem unproven_isProven : UNPROVEN.isProven = false := by decide

/-- A cell behind the last proven one is not proven. -/
theorem diagnosticBlockCount_spec (cells : List BlockCheck) :
    diagnosticBlockCount cells ≤ cells.length ∧
    (∀ i, diagnosticBlockCount cells ≤ i → (cells.getD i UNPROVEN).isProven = false) ∧
    (0 < diagnosticBlockCount cells →
      (cells.getD (diagnosticBlockCount cells - 1) UNPROVEN).isProven = true) := by
  induction cells using reverseRecOn with
  | nil => exact ⟨le_rfl, fun i _ => unproven_isProven, fun h => absurd h (lt_irrefl 0)⟩
  | append_singleton cells c ih =>
    have hunfold : diagnosticBlockCount (cells ++ [c]) =
        if c.isProven then cells.length + 1 else diagnosticBlockCount cells := by
      unfold diagnosticBlockCount
      rw [reverse_append, reverse_singleton, singleton_append, dropWhile_cons]
      cases c.isProven <;> simp
    rw [hunfold]
    cases hc : c.isProven with
    | true =>
      refine ⟨by simp, fun i hi => ?_, fun _ => ?_⟩
      · rw [if_pos rfl] at hi
        rw [getD_eq_default _ _ (by simpa using hi)]
        exact unproven_isProven
      · simpa using hc
    | false =>
      rw [if_neg Bool.false_ne_true]
      obtain ⟨hle, hun, hlast⟩ := ih
      refine ⟨hle.trans (by simp), fun i hi => ?_, fun hpos => ?_⟩
      · by_cases hlt : i < cells.length
        · rw [getD_append _ _ _ _ hlt]
          exact hun i hi
        · by_cases heq : i = cells.length
          · subst heq
            simpa using hc
          · rw [getD_eq_default _ _ (by simp only [length_append, length_singleton]; omega)]
            exact unproven_isProven
      · rw [getD_append _ _ _ _ (by omega)]
        exact hlast hpos

/-! ## One verdict for a block -/

section Verdicts

variable (md5 : List UInt8 → List UInt8) (crc32 : List UInt8 → Nat) {crc32Zeros : Nat → Nat → Nat}

/-- The flag of block `i` of a content: a proven cell over bytes that are there, padded. -/
def blockFlag (cells : List BlockCheck) (bs : Nat) (content : List UInt8) (i : Nat) : Bool :=
  (cells.getD i UNPROVEN).isProven && decide (i * bs < content.length) &&
    closeBlock md5 crc32 (cells.getD i UNPROVEN)
      (slice content (i * bs) (i * bs + bs) ++ zeros (bs - (content.length - i * bs)))

/-- A CRC asked first changes no conjunction. -/
theorem crc_gate (a b : Nat) (q : Bool) :
    (if (!decide (a = b)) = true then false else q) = (q && decide (b = a)) := by
  by_cases h : a = b
  · simp [h]
  · simp [h, Ne.symm h]

theorem verifyBlock_eq {cells : List BlockCheck} {bs : Nat} {content : List UInt8}
    (hlen : content.length < 2 ^ 64) (i : Nat) :
    verifyBlock md5 crc32 bs content i (cells.getD i UNPROVEN) =
      blockFlag md5 crc32 cells bs content i := by
  unfold verifyBlock blockFlag
  generalize cells.getD i UNPROVEN = check
  cases hp : check.isProven with
  | false => rfl
  | true =>
    by_cases hstart : i * bs < content.length
    case neg =>
      have hle : content.length ≤ i * bs := not_lt.mp hstart
      simp [hstart, hle]
    have hsmall : ¬ 2 ^ 64 ≤ i * bs := by omega
    have hnot : ¬ content.length ≤ i * bs := by omega
    have hslice : slice content (i * bs) (min (i * bs + bs) content.length) =
        slice content (i * bs) (i * bs + bs) := by
      rw [slice, slice, ← take_take, take_length]
    have hchunk : (if min (i * bs + bs) content.length - i * bs = bs then
        slice content (i * bs) (min (i * bs + bs) content.length)
        else slice content (i * bs) (min (i * bs + bs) content.length) ++
          zeros (bs - (min (i * bs + bs) content.length - i * bs))) =
        slice content (i * bs) (i * bs + bs) ++ zeros (bs - (content.length - i * bs)) := by
      rw [hslice]
      split
      case isTrue hfull => rw [show bs - (content.length - i * bs) = 0 by omega]; simp [zeros]
      case isFalse => congr 2; omega
    simp only [Bool.not_true, Bool.false_eq_true, if_false, hsmall, hnot, hchunk, hstart,
      decide_true, Bool.true_and, Bool.and_self, closeBlock, BlockCheck.crcMatches, hp]
    exact crc_gate _ _ _

theorem verifyFileBlocks_eq {file : Par2File} {bs : Nat} {content : List UInt8}
    (hlen : content.length < 2 ^ 64) (hbs : 0 < bs) :
    verifyFileBlocks md5 crc32 file bs content =
      (List.range file.blocks.length).map (blockFlag md5 crc32 file.blocks bs content) := by
  unfold verifyFileBlocks
  rw [if_neg (by omega)]
  refine ext_getElem (by simp) fun i h h' => ?_
  rw [getElem_mapIdx, getElem_map, getElem_range, ← verifyBlock_eq md5 crc32 hlen,
    getD_eq_getElem _ _ (by simpa using h)]

/-- The documented behaviour of `crc32_zeros`: the CRC of the bytes with zeros behind them. -/
def ExtendsCrc (crc32 : List UInt8 → Nat) (crc32Zeros : Nat → Nat → Nat) : Prop :=
  ∀ bytes n, crc32Zeros (crc32 bytes) n = crc32 (bytes ++ zeros n)

variable {md5 crc32}

theorem proveResidentBlock_eq (hz : ExtendsCrc crc32 crc32Zeros) (check : BlockCheck)
    (data : List UInt8) (pad : Nat) :
    proveResidentBlock md5 crc32 crc32Zeros check data pad =
      (check.isProven && closeBlock md5 crc32 check (data ++ zeros pad)) := by
  unfold proveResidentBlock
  have hcrc : (if 0 < pad then crc32Zeros (crc32 data) pad else crc32 data) =
      crc32 (data ++ zeros pad) := by
    split
    case isTrue => exact hz data pad
    case isFalse h => rw [show pad = 0 by omega]; simp [zeros]
  rw [hcrc, closeBlock]
  cases hp : check.isProven with
  | false => simp only [BlockCheck.crcMatches, hp, Bool.false_and, Bool.not_false, if_true]
  | true =>
    simp only [BlockCheck.crcMatches, hp, Bool.true_and]
    exact crc_gate _ _ _

theorem closePadded_eq (hz : ExtendsCrc crc32 crc32Zeros) (check : BlockCheck)
    (hashed : List UInt8) (pad : Nat) :
    closePadded md5 crc32 crc32Zeros check hashed pad =
      closeBlock md5 crc32 check (hashed ++ zeros pad) := by
  rw [closePadded, closeBlock, hz]

end Verdicts

/-! ## What a cutter knows -/

section Cutting

variable (md5 : List UInt8 → List UInt8) (crc32 : List UInt8 → Nat) {crc32Zeros : Nat → Nat → Nat}
  {cells : List BlockCheck} {bs diag : Nat} {content : List UInt8}

theorem blockFlag_full {i : Nat} (hbs : 0 < bs) (hfull : i * bs + bs ≤ content.length) :
    blockFlag md5 crc32 cells bs content i = ((cells.getD i UNPROVEN).isProven &&
      closeBlock md5 crc32 (cells.getD i UNPROVEN) (slice content (i * bs) (i * bs + bs))) := by
  unfold blockFlag
  rw [show bs - (content.length - i * bs) = 0 by omega, zeros, replicate_zero, append_nil,
    decide_eq_true (by omega : i * bs < content.length), Bool.and_true]

theorem slice_self (content : List UInt8) (a : Nat) : slice content a a = [] :=
  drop_eq_nil_of_le (length_take_le _ _)

/-- A read's first bytes and the rest of it, where they stand in the content. -/
theorem take_of_slice {content bytes : List UInt8} {n seg : Nat}
    (hbytes : bytes = slice content n (n + bytes.length)) (hseg : seg ≤ bytes.length) :
    bytes.take seg = slice content n (n + seg) := by
  have hinner := @slice_slice content n (n + bytes.length) 0 seg (by omega)
  rwa [← hbytes, slice, drop_zero, add_zero] at hinner

theorem drop_of_slice {content bytes : List UInt8} {n : Nat}
    (hbytes : bytes = slice content n (n + bytes.length)) (seg : Nat) :
    bytes.drop seg = slice content (n + seg) (n + seg + (bytes.drop seg).length) := by
  have hinner := @slice_slice content n (n + bytes.length) seg bytes.length le_rfl
  rw [← hbytes, slice, take_length] at hinner
  by_cases h : seg ≤ bytes.length
  · rwa [length_drop, show n + seg + (bytes.length - seg) = n + bytes.length by omega]
  · rw [drop_eq_nil_of_le (by omega), length_nil, add_zero, slice_self]

/-- The cutter after the first `n` bytes of a content. -/
structure Cut (cells : List BlockCheck) (bs diag : Nat) (content : List UInt8) (n : Nat)
    (c : Cutter) : Prop where
  le : c.blocks.length ≤ diag
  flags : c.blocks = (List.range c.blocks.length).map (blockFlag md5 crc32 cells bs content)
  pos : c.blocks.length < diag → n = c.blocks.length * bs + c.filled ∧ c.filled < bs
  stop : c.blocks.length = diag → c.filled = 0 ∧ diag * bs ≤ n
  hashed : c.hashed = if (cells.getD c.blocks.length UNPROVEN).isProven then
    slice content (c.blocks.length * bs) n else []

theorem Cut.start (hbs : 0 < bs) : Cut md5 crc32 cells bs diag content 0 {} := by
  refine ⟨Nat.zero_le _, rfl, fun _ => ⟨by simp, hbs⟩, fun h => ⟨rfl, ?_⟩, ?_⟩
  · rw [← h]
    simp
  · simp only [length_nil, Nat.zero_mul, slice_self, ite_self]

/-- A block closed with its last byte. -/
theorem Cut.push {n n' : Nat} {c : Cutter} {ok : Bool} (h : Cut md5 crc32 cells bs diag content n c)
    (hbs : 0 < bs) (hlt : c.blocks.length < diag) (hn : n' = c.blocks.length * bs + bs)
    (hok : ok = blockFlag md5 crc32 cells bs content c.blocks.length) :
    Cut md5 crc32 cells bs diag content n' ⟨c.blocks ++ [ok], [], 0⟩ := by
  have hsucc : n' = (c.blocks.length + 1) * bs := by rw [hn, Nat.succ_mul]
  refine ⟨?_, ?_, ?_, ?_, ?_⟩
  · rw [length_append, length_singleton]
    omega
  · dsimp only
    rw [length_append, length_singleton, range_succ, map_append, ← h.flags, hok]
    rfl
  · intro _
    rw [length_append, length_singleton]
    exact ⟨hsucc, hbs⟩
  · intro hd
    rw [length_append, length_singleton] at hd
    exact ⟨rfl, by rw [← hd, hsucc]⟩
  · dsimp only
    rw [length_append, length_singleton, ← hsucc, slice_self, ite_self]

/-- One round of the inner loop, and the loop. -/
theorem Cut.feed (hz : ExtendsCrc crc32 crc32Zeros) (hbs : 0 < bs)
    (hdiag : diag = diagnosticBlockCount cells) :
    ∀ {fuel n : Nat} {c : Cutter} {bytes : List UInt8}, bytes.length ≤ fuel →
      n + bytes.length ≤ content.length → bytes = slice content n (n + bytes.length) →
      Cut md5 crc32 cells bs diag content n c →
      Cut md5 crc32 cells bs diag content (n + bytes.length)
        (c.feed md5 crc32 crc32Zeros cells diag bs fuel bytes)
  | 0, n, c, bytes, hfuel, _, _, h => by
    rw [Nat.le_zero.mp hfuel]
    exact h
  | fuel + 1, n, c, bytes, hfuel, hfit, hbytes, h => by
    unfold Cutter.feed
    split
    case isTrue hstop =>
      by_cases hnil : bytes = []
      · rw [hnil]
        exact h
      · have heq : c.blocks.length = diag := le_antisymm h.le (hstop.resolve_left hnil)
        obtain ⟨hzero, hend⟩ := h.stop heq
        have hun := (diagnosticBlockCount_spec cells).2.1 c.blocks.length (by omega)
        have hhashed := h.hashed
        rw [hun, if_neg Bool.false_ne_true] at hhashed
        refine ⟨h.le, h.flags, fun hlt => absurd heq (by omega), fun _ => ⟨hzero, by omega⟩, ?_⟩
        rw [hun, if_neg Bool.false_ne_true, hhashed]
    case isFalse hgo =>
    obtain ⟨hne, hlt⟩ := not_or.mp hgo
    have hlt : c.blocks.length < diag := not_le.mp hlt
    obtain ⟨hn, hfill⟩ := h.pos hlt
    dsimp only
    generalize hseg : min (bs - c.filled) bytes.length = seg
    have htake : bytes.take seg = slice content n (n + seg) := take_of_slice hbytes (by omega)
    have hdrop := drop_of_slice hbytes seg
    have hlen : (bytes.drop seg).length ≤ fuel := by
      rw [length_drop]
      omega
    have hfit' : n + seg + (bytes.drop seg).length ≤ content.length := by
      rw [length_drop]
      omega
    have hend : n + bytes.length = n + seg + (bytes.drop seg).length := by
      rw [length_drop]
      omega
    have hflag := @blockFlag_full md5 crc32 cells bs content c.blocks.length hbs
    have hhashed := h.hashed
    rw [hend]
    split
    case isTrue hres =>
      obtain ⟨hzero, hwhole⟩ := hres
      have hnil : c.hashed = [] := by
        rw [hhashed, hn, hzero, add_zero, slice_self, ite_self]
      refine Cut.feed hz hbs hdiag hlen hfit' hdrop ?_
      rw [show ({ c with blocks := c.blocks ++ [(cells.getD c.blocks.length UNPROVEN).isProven &&
        proveResidentBlock md5 crc32 crc32Zeros (cells.getD c.blocks.length UNPROVEN)
          (bytes.take seg) 0] } : Cutter) = ⟨c.blocks ++ [(cells.getD c.blocks.length
            UNPROVEN).isProven && proveResidentBlock md5 crc32 crc32Zeros
              (cells.getD c.blocks.length UNPROVEN) (bytes.take seg) 0], [], 0⟩ by
        rw [hnil, hzero]]
      refine h.push md5 crc32 hbs hlt (by omega) ?_
      rw [proveResidentBlock_eq hz, zeros, replicate_zero, append_nil, htake,
        hflag (by omega), ← Bool.and_assoc, Bool.and_self, hn, hzero, hwhole, add_zero]
    case isFalse hpart =>
      -- a piece of a block: the digests run on
      have hgrown : (if (cells.getD c.blocks.length UNPROVEN).isProven then c.hashed ++ bytes.take seg
          else c.hashed) = if (cells.getD c.blocks.length UNPROVEN).isProven then
            slice content (c.blocks.length * bs) (n + seg) else [] := by
        rw [hhashed]
        split
        case isTrue => rw [htake, ← slice_append (by omega) (by omega)]
        case isFalse => rfl
      rw [hgrown]
      refine Cut.feed hz hbs hdiag hlen hfit' hdrop ?_
      by_cases hclose : c.filled + seg = bs
      case pos =>
        rw [if_pos hclose]
        have hstop : n + seg = c.blocks.length * bs + bs := by omega
        have hflag := hflag (by omega)
        cases hp : (cells.getD c.blocks.length UNPROVEN).isProven with
        | true =>
          rw [hp, Bool.true_and] at hflag
          rw [if_pos rfl, if_pos rfl]
          refine h.push md5 crc32 hbs hlt hstop ?_
          rw [hflag, hstop]
        | false =>
          rw [hp, Bool.false_and] at hflag
          exact h.push md5 crc32 hbs hlt hstop hflag.symm
      case neg =>
        rw [if_neg hclose]
        refine ⟨h.le, h.flags, fun _ => ⟨?_, ?_⟩, fun heq => absurd heq hlt.ne, rfl⟩
        · dsimp only
          omega
        · dsimp only
          omega

theorem resizeFlags_range {f : Nat → Bool} {k m : Nat} (hkm : k ≤ m)
    (hfalse : ∀ i, k ≤ i → f i = false) :
    resizeFlags ((List.range k).map f) m = (List.range m).map f := by
  obtain ⟨d, rfl⟩ := Nat.exists_eq_add_of_le hkm
  have htail : ((range d).map (k + ·)).map f = replicate d false := by
    rw [map_map]
    refine eq_replicate_iff.mpr ⟨by simp, fun b hb => ?_⟩
    obtain ⟨i, -, rfl⟩ := mem_map.mp hb
    exact hfalse _ (Nat.le_add_right k i)
  rw [range_add, map_append, htail, resizeFlags,
    take_of_length_le (by simp), length_map, length_range, Nat.add_sub_cancel_left]

/-- The flags of a stream cut to its end, or past the last proven block. -/
theorem Cut.finish (hz : ExtendsCrc crc32 crc32Zeros) (hdiag : diag = diagnosticBlockCount cells)
    {n : Nat} {c : Cutter} (h : Cut md5 crc32 cells bs diag content n c)
    (hall : n = content.length ∨ c.blocks.length = diag) :
    resizeFlags (finishPartialBlock md5 crc32 crc32Zeros cells bs c) cells.length =
      (List.range cells.length).map (blockFlag md5 crc32 cells bs content) := by
  obtain ⟨hcells, hun, -⟩ := diagnosticBlockCount_spec cells
  have hle := h.le
  have hunflag : ∀ i, diag ≤ i → blockFlag md5 crc32 cells bs content i = false := fun i hi => by
    rw [blockFlag, hun i (hdiag ▸ hi), Bool.false_and, Bool.false_and]
  -- a block that starts behind the content has no flag
  have hpast : ∀ i, content.length ≤ i * bs → blockFlag md5 crc32 cells bs content i = false :=
    fun i hi => by
      rw [blockFlag, decide_eq_false (by omega), Bool.and_false, Bool.false_and]
  unfold finishPartialBlock
  split
  case isTrue hnone =>
    rw [h.flags, resizeFlags_range (by omega)]
    intro i hi
    by_cases hd : c.blocks.length = diag
    · exact hunflag i (by omega)
    · obtain ⟨hn, -⟩ := h.pos (by omega)
      have hmul := Nat.mul_le_mul_right bs hi
      exact hpast i (by omega)
  case isFalse hsome =>
    obtain ⟨hfill, -⟩ := not_or.mp hsome
    have hlt : c.blocks.length < diag :=
      lt_of_le_of_ne hle fun hd => hfill (h.stop hd).1
    obtain ⟨hn, hbs⟩ := h.pos hlt
    have hrest : ∀ i, c.blocks.length + 1 ≤ i → blockFlag md5 crc32 cells bs content i = false := by
      intro i hi
      have hmul := Nat.mul_le_mul_right bs hi
      rw [Nat.succ_mul] at hmul
      exact hpast i (by omega)
    have hlast : (if !(cells.getD c.blocks.length UNPROVEN).isProven then c.blocks ++ [false]
        else c.blocks ++ [closePadded md5 crc32 crc32Zeros (cells.getD c.blocks.length UNPROVEN)
          c.hashed (bs - c.filled)]) =
        c.blocks ++ [blockFlag md5 crc32 cells bs content c.blocks.length] := by
      have hhashed := h.hashed
      have hslice : slice content (c.blocks.length * bs) (c.blocks.length * bs + bs) =
          slice content (c.blocks.length * bs) n := by
        rw [slice, slice, take_of_length_le (by omega), take_of_length_le (by omega)]
      unfold blockFlag
      rw [hslice, decide_eq_true (by omega : c.blocks.length * bs < content.length), Bool.and_true,
        show content.length - c.blocks.length * bs = c.filled by omega]
      cases hp : (cells.getD c.blocks.length UNPROVEN).isProven with
      | false => rfl
      | true =>
        rw [hp, if_pos rfl] at hhashed
        rw [closePadded_eq hz, hhashed]
        rfl
    rw [hlast]
    have hflags : c.blocks ++ [blockFlag md5 crc32 cells bs content c.blocks.length] =
        (range (c.blocks.length + 1)).map (blockFlag md5 crc32 cells bs content) := by
      rw [range_succ, map_append, ← h.flags]
      rfl
    rw [hflags, resizeFlags_range (by omega) hrest]

end Cutting

/-! ## Streams give the reference verdict -/

section Streams

variable (md5 : List UInt8 → List UInt8) (crc32 : List UInt8 → Nat) {crc32Zeros : Nat → Nat → Nat}

/-- What the sequential hashers hold after a prefix of the content. -/
structure Hashed (c : List UInt8) (s : StreamState) : Prop where
  whole : s.whole = c
  total : s.total = c.length
  head : s.head = c.take HASH16K_LEN

theorem Hashed.start : Hashed [] {} := ⟨rfl, rfl, rfl⟩

theorem Hashed.hash {c bytes : List UInt8} {s : StreamState} (h : Hashed c s) :
    Hashed (c ++ bytes) (s.hash bytes) := by
  refine ⟨?_, ?_, ?_⟩
  · rw [StreamState.hash, h.whole]
  · rw [StreamState.hash, h.total, length_append]
  · rw [StreamState.hash, h.total, h.head, take_append]
    split
    case isTrue hlt =>
      rw [← take_take, take_length]
    case isFalse hge =>
      rw [show HASH16K_LEN - c.length = 0 by omega, take_zero, append_nil]

theorem Hashed.verdict {crc32 : List UInt8 → Nat} {content : List UInt8} {s : StreamState} (h : Hashed content s)
    (file : Par2File) (blocks : List Bool) {bs : Nat}
    (hblocks : blocks = verifyFileBlocks md5 crc32 file bs content) :
    ({ blocks := if decide (s.total = file.length ∧ md5 s.whole = file.md5) then
          replicate file.blocks.length true else blocks
       md5Ok := s.total = file.length ∧ md5 s.whole = file.md5
       md5_16kOk := md5 s.head = file.md5_16k } : FileVerify) =
      verifyFile md5 crc32 file bs content := by
  have hhead : content.take (min content.length HASH16K_LEN) = content.take HASH16K_LEN := by
    rw [min_comm, ← take_take, take_length]
  rw [verifyFile, h.whole, h.total, h.head, hhead, hblocks]

/-- A read's bytes where they stand in the content. -/
theorem slice_of_append {content c bytes rest : List UInt8} (h : content = c ++ bytes ++ rest) :
    bytes = slice content c.length (c.length + bytes.length) ∧
      c.length + bytes.length ≤ content.length := by
  subst h
  refine ⟨?_, by simp only [length_append]; omega⟩
  rw [slice, take_append_of_le_length (by simp), ← length_append, take_length,
    drop_left]

/-- The one-pass streamer after a prefix of the content. -/
structure Streamed (cells : List BlockCheck) (bs : Nat) (content c : List UInt8) (s : StreamState) :
    Prop where
  hashed : Hashed c s
  zero : bs = 0 → s.cut = {}
  cut : 0 < bs → Cut md5 crc32 cells bs (diagnosticBlockCount cells) content c.length s.cut

theorem Streamed.step (hz : ExtendsCrc crc32 crc32Zeros) {cells : List BlockCheck} {bs : Nat}
    {content c bytes rest : List UInt8} {s : StreamState} (hc : content = c ++ bytes ++ rest)
    (h : Streamed md5 crc32 cells bs content c s) :
    Streamed md5 crc32 cells bs content (c ++ bytes)
      (streamStep md5 crc32 crc32Zeros cells bs s bytes) := by
  obtain ⟨hbytes, hfit⟩ := slice_of_append hc
  have hhash : Hashed (c ++ bytes) (s.hash bytes) := h.hashed.hash
  unfold streamStep
  rcases eq_zero_or_pos bs with rfl | hbs
  · exact ⟨hhash, h.zero, fun h => absurd h (lt_irrefl 0)⟩
  · rw [if_pos hbs]
    refine ⟨⟨hhash.whole, hhash.total, hhash.head⟩, fun h => by omega, fun _ => ?_⟩
    rw [length_append]
    exact (h.cut hbs).feed md5 crc32 hz hbs rfl le_rfl hfit hbytes

theorem verifyFileStreamingSized_eq (hz : ExtendsCrc crc32 crc32Zeros) (file : Par2File) (bs : Nat)
    {src : Source} (hlen : src.rest.length < 2 ^ 64) (bufferLen : Nat) {v : FileVerify}
    (h : verifyFileStreamingSized md5 crc32 crc32Zeros file bs src bufferLen = some v) :
    v = verifyFile md5 crc32 file bs src.rest := by
  obtain ⟨s, hrun, hv⟩ := Option.map_eq_some_iff.mp h
  have hstart : Streamed md5 crc32 file.blocks bs src.rest [] {} :=
    ⟨Hashed.start, fun _ => rfl, fun hbs => Cut.start md5 crc32 hbs⟩
  obtain ⟨c, rest, hc, hs, hend⟩ := readLoop_inv
    (fun _ _ _ _ hc hI _ _ _ => Streamed.step md5 crc32 hz hc hI) (Nat.lt_succ_self _)
    (nil_append _).symm hstart hrun
  have hnil : rest = [] := by
    rcases hend with hd | hd | hd
    · cases hd
    · omega
    · exact hd
  rw [hnil, append_nil] at hc
  subst hc
  rw [← hv]
  refine hs.hashed.verdict md5 file _ ?_
  rcases eq_zero_or_pos bs with rfl | hbs
  · rw [hs.zero rfl, verifyFileBlocks, if_pos rfl, finishPartialBlock, if_pos (.inl rfl)]
    simp [resizeFlags]
  · rw [verifyFileBlocks_eq md5 crc32 hlen hbs]
    exact (hs.cut hbs).finish md5 crc32 hz rfl (.inl rfl)

theorem verifyWholeSized_eq (file : Par2File) {src : Source} (bufferLen : Nat) {v : Bool × Bool}
    (h : verifyWholeSized md5 file src bufferLen = some v) (bs : Nat) :
    v = ((verifyFile md5 crc32 file bs src.rest).md5Ok,
      (verifyFile md5 crc32 file bs src.rest).md5_16kOk) := by
  obtain ⟨s, hrun, hv⟩ := Option.map_eq_some_iff.mp h
  obtain ⟨c, rest, hc, hs, hend⟩ := readLoop_inv (fun _ _ _ _ _ hI _ _ _ => Hashed.hash hI)
    (Nat.lt_succ_self _) (nil_append src.rest).symm Hashed.start hrun
  have hnil : rest = [] := by
    rcases hend with hd | hd | hd
    · cases hd
    · omega
    · exact hd
  rw [hnil, append_nil] at hc
  subst hc
  rw [← hv, ← hs.verdict md5 file _ rfl]

/-- Without a block to diagnose every flag is false. -/
theorem noDiagnostic_eq {file : Par2File} {bs : Nat} {content : List UInt8}
    (hlen : content.length < 2 ^ 64) (hnone : bs = 0 ∨ diagnosticBlockCount file.blocks = 0) :
    List.replicate file.blocks.length false = verifyFileBlocks md5 crc32 file bs content := by
  rcases eq_zero_or_pos bs with rfl | hbs
  · rw [verifyFileBlocks, if_pos rfl]
  · have hdiag := hnone.resolve_left (by omega)
    rw [verifyFileBlocks_eq md5 crc32 hlen hbs]
    refine (eq_replicate_iff.mpr ⟨by simp, fun b hb => ?_⟩).symm
    obtain ⟨i, -, rfl⟩ := mem_map.mp hb
    rw [blockFlag, (diagnosticBlockCount_spec file.blocks).2.1 i (by omega), Bool.false_and,
      Bool.false_and]

/-- A diagnostic pass after a prefix of the content. -/
structure Diagnosed (cells : List BlockCheck) (bs : Nat) (content c : List UInt8)
    (s : BlocksState) : Prop where
  left : s.bytesLeft = bs * diagnosticBlockCount cells - c.length
  cut : Cut md5 crc32 cells bs (diagnosticBlockCount cells) content c.length s.cut

theorem verifyBlocksStreaming_eq (hz : ExtendsCrc crc32 crc32Zeros) (file : Par2File) (bs : Nat)
    {src : Source} (hlen : src.rest.length < 2 ^ 64) {blocks : List Bool}
    (h : verifyBlocksStreaming md5 crc32 crc32Zeros file bs src = some blocks) :
    blocks = verifyFileBlocks md5 crc32 file bs src.rest := by
  unfold verifyBlocksStreaming at h
  dsimp only at h
  split at h
  case isTrue hnone =>
    cases h
    exact noDiagnostic_eq md5 crc32 hlen hnone
  case isFalse hsome =>
    obtain ⟨hbs, -⟩ := not_or.mp hsome
    have hbs : 0 < bs := pos_of_ne_zero hbs
    obtain ⟨s, hrun, rfl⟩ := Option.map_eq_some_iff.mp h
    have hstart : Diagnosed md5 crc32 file.blocks bs src.rest []
        ⟨bs * diagnosticBlockCount file.blocks, {}⟩ := ⟨rfl, Cut.start md5 crc32 hbs⟩
    obtain ⟨c, rest, hc, hs, hend⟩ := readLoop_inv
      (fun c s bytes rest hc hI _ _ _ => by
        obtain ⟨hbytes, hfit⟩ := slice_of_append hc
        refine ⟨?_, ?_⟩
        · rw [hI.left, length_append, Nat.sub_sub]
        · rw [length_append]
          exact hI.cut.feed md5 crc32 hz hbs rfl le_rfl hfit hbytes)
      (Nat.lt_succ_self _) (nil_append src.rest).symm hstart hrun
    rw [verifyFileBlocks_eq md5 crc32 hlen hbs]
    refine hs.cut.finish md5 crc32 hz rfl ?_
    by_cases hd : s.cut.blocks.length = diagnosticBlockCount file.blocks
    · exact .inr hd
    · -- the pass stopped short of the last block: it ran out of bytes
      have hlt := lt_of_le_of_ne hs.cut.le hd
      obtain ⟨hpos, hfill⟩ := hs.cut.pos hlt
      have hmul := Nat.mul_le_mul_right bs hlt
      rw [Nat.succ_mul, mul_comm (diagnosticBlockCount file.blocks)] at hmul
      have hleft := hs.left
      have hchunk : 0 < VERIFY_CHUNK := by decide
      rcases hend with he | he | he
      · have := of_decide_eq_true he
        omega
      · omega
      · rw [he, append_nil] at hc
        rw [hc]
        exact .inl rfl

theorem verifyFileSeekable_eq (hz : ExtendsCrc crc32 crc32Zeros) (file : Par2File) (bs : Nat)
    {src again : Source} (hsame : again.rest = src.rest) (hlen : src.rest.length < 2 ^ 64)
    {v : FileVerify} (h : verifyFileSeekable md5 crc32 crc32Zeros file bs src again = some v) :
    v = verifyFile md5 crc32 file bs src.rest := by
  obtain ⟨whole, hwhole, h⟩ := Option.bind_eq_some_iff.mp h
  have hw := verifyWholeSized_eq md5 crc32 file VERIFY_CHUNK hwhole bs
  have hblocks : (verifyFile md5 crc32 file bs src.rest).blocks =
      if (verifyFile md5 crc32 file bs src.rest).md5Ok then replicate file.blocks.length true
      else verifyFileBlocks md5 crc32 file bs src.rest := rfl
  split at h
  case isTrue hok =>
    cases h
    rw [hw] at hok ⊢
    rw [if_pos hok] at hblocks
    rw [← hblocks]
  case isFalse hbad =>
    obtain ⟨blocks, hb, rfl⟩ := Option.map_eq_some_iff.mp h
    have hb := verifyBlocksStreaming_eq md5 crc32 hz file bs (hsame ▸ hlen) hb
    rw [hw] at hbad ⊢
    rw [if_neg hbad] at hblocks
    rw [hb, hsame, ← hblocks]

end Streams

end NzbFast.Par2
