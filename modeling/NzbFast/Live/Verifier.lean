import NzbFast.Live.Gate
import NzbFast.Live.Runs
import NzbFast.Par2.Grid

/-!
# The live verifier

The in-stream verifier of `crates/nzbkit-base/src/live.rs` with its
`live/binding.rs`, `live/blockcheck.rs` and `live/slotstate.rs`. A feed is two
steps: `onDataClaim` runs under the slot lock and leaves a `Job`, the hashing
happens with the lock down, and `onDataRecord` takes the lock again. Every
other locked region (`promote`, `finish`, `forceReadback`, the pre-activation
spans, a second set activating) is a step too, so a list of steps is an
interleaving.

Which descriptor the name and head tiers name, and who holds its claim, is
input to the steps (`Nomination`, `Ladder`): every answer is allowed. CRC32 and
MD5 are the parameters of `Digests`. Left out: the tallies and gauges, the
prefix hasher, and the head capture that only feeds the tiers.
-/

namespace NzbFast.Live

open NzbFast.Par2 Fold

/-! ## Block checks -/

/-- The hash primitives: `crc32fast::hash`, `crc32_combine`, `crc32_zeros`, `crc32_unzero`, MD5. -/
structure Digests where
  crc32 : List UInt8 → Nat
  combine : Nat → Nat → Nat → Nat
  zeros : Nat → Nat → Nat
  unzero : Nat → Nat → Nat
  md5 : List UInt8 → List UInt8

inductive BlockState
  | pending
  | ok
  | bad
  deriving DecidableEq, Repr

inductive BlockVerdict
  | ok
  | damaged
  | contradicted
  deriving DecidableEq, Repr

/-- `BlockCheck::is_proven`: an all-zero MD5 is the placeholder of an undescribed slice. -/
def isProven (c : BlockCheck) : Bool := c.md5 ≠ UNPROVEN.md5

def crcMatches (c : BlockCheck) (crc : Nat) : Bool := isProven c && c.crc32 == crc

section Checks

variable (d : Digests)

def checkBlockCrc (c : BlockCheck) (bs : Nat) (bytes : List UInt8) : Bool :=
  crcMatches c (d.zeros (d.crc32 bytes) (bs - bytes.length))

def checkBlockCrcVerdict (c : BlockCheck) (bs : Nat) (bytes : List UInt8) : BlockVerdict :=
  if checkBlockCrc d c bs bytes then .ok else .damaged

/-- The full check: the CRC32 first, then the MD5 of the block zero-padded to the block size. -/
def checkBlockVerdict (c : BlockCheck) (bs : Nat) (bytes : List UInt8) : BlockVerdict :=
  if !checkBlockCrc d c bs bytes then .damaged
  else if d.md5 (bytes ++ List.replicate (bs - bytes.length) 0) = c.md5 then .ok
  else .contradicted

/-- `yenc_simd::crc32_of_middle`. -/
def crc32OfMiddle (whole head midLen tail tailLen : Nat) : Nat :=
  let shifted := whole ^^^ d.combine head 0 (midLen + tailLen) ^^^ tail
  if tailLen = 0 then shifted else d.unzero (shifted ^^^ d.zeros 0 tailLen) tailLen

end Checks

/-- Real length of block `bi` of a `length`-byte file. -/
def blockLen (length bs bi : Nat) : Nat := min (length - min (bi * bs) length) bs

/-! ## State -/

/-- Where a span came from. -/
inductive Src
  | fresh
  | lean
  | rehash
  | disk
  deriving DecidableEq, Repr

/-- How the backfill pass must re-feed a slot's pre-activation spans. -/
inductive PreSpanSrc
  | backfill
  | disk
  deriving DecidableEq, Repr

structure SlotState where
  file : Option Nat := none
  confirmed : Bool := false
  headNominated : Bool := false
  blocks : List BlockState := []
  /-- Moves every time a binding is dropped. -/
  bindGen : Nat := 0
  partials : Table Nat PartialBuf := ∅
  partialBytes : Nat := 0
  preSpans : List (Nat × Nat) := []
  resumeSeeded : Bool := false
  preUnvouched : Bool := false
  liveOk : Nat := 0
  liveBad : Nat := 0
  okPrefix : Nat := 0
  /-- The slot holds the handle of the gate's bitmap for it. -/
  vouch : Bool := false
  readbackForced : List Nat := []
  ifscSelfContradicted : Bool := false

/-- Every recovery set the post carries, adopted together. -/
structure Active where
  sets : List ParsedSet

/-- The descriptors in flat-index order, each with its set's block size. -/
def Active.files (a : Active) : List (Par2File × Nat) :=
  a.sets.flatMap fun s => s.set.files.map (·, s.set.blockSize)

def Active.extended (a : Active) (extra : List ParsedSet) : Active :=
  ⟨extra.foldl (fun sets s =>
    if sets.any (·.set.recoverySetId = s.set.recoverySetId) then sets else sets ++ [s]) a.sets⟩

inductive Plan
  | waiting
  | active (a : Active)
  | off

structure LiveVerifier where
  plan : Plan
  fast : Bool
  lean : Bool
  noReuse : Bool
  partialsCap : Nat
  partialsUsed : Nat := 0
  slots : Nat → SlotState := fun _ => {}
  gate : Option VerifyGate

namespace LiveVerifier

def put (v : LiveVerifier) (slot : Nat) (s : SlotState) : LiveVerifier :=
  { v with slots := Function.update v.slots slot s }

/-- An update of the slot's bitmap, where the slot holds its handle. -/
def onVouch (v : LiveVerifier) (slot : Nat) (f : VouchBits → VouchBits) : LiveVerifier :=
  if (v.slots slot).vouch then { v with gate := v.gate.map (·.onBits slot f) } else v

/-- `gate_publish`: advance the watermark off the contiguous Ok prefix, arming the bitmap on the
first publish of a binding. -/
def gatePublish (v : LiveVerifier) (slot bs : Nat) : LiveVerifier :=
  let s := v.slots slot
  if s.file = none then v
  else
    let okPrefix := s.okPrefix + ((s.blocks.drop s.okPrefix).takeWhile (· = .ok)).length
    let s := { s with okPrefix := okPrefix }
    match v.gate with
    | none => v.put slot s
    | some g =>
      let g := if s.vouch then g
        else (g.armVouch slot s.blocks.length bs).onBits slot
          (·.seed ((List.range s.blocks.length).filter fun i => s.blocks[i]? = some .ok))
      let bytes := if okPrefix = s.blocks.length then U64_MAX else okPrefix * bs
      { v.put slot { s with vouch := true } with gate := some (g.advance slot bytes) }

end LiveVerifier

/-! ## Bindings -/

/-- What the match tiers answer: a descriptor and how firmly it is bound. -/
structure Nomination where
  file : Nat
  confirmed : Bool
  headNominated : Bool
  deriving DecidableEq, Repr

/-- A successful match: the block grid of the descriptor starts out Pending. -/
def SlotState.bind (s : SlotState) (n : Nomination) (f : Par2File) : SlotState :=
  { s with
    file := some n.file
    confirmed := n.confirmed
    headNominated := n.headNominated
    blocks := List.replicate f.blocks.length .pending }

def SlotState.unbind (s : SlotState) : SlotState :=
  { s with
    file := none
    confirmed := false
    headNominated := false
    blocks := []
    bindGen := s.bindGen + 1
    okPrefix := 0
    vouch := false
    ifscSelfContradicted := false
    readbackForced := []
    partials := ∅
    liveOk := 0
    liveBad := 0
    partialBytes := 0 }

namespace LiveVerifier

/-- A match tier run with the answer `m`; `none` when it binds nothing. -/
def tryMatch (v : LiveVerifier) (slot : Nat) (a : Active) (m : Option Nomination) :
    Option LiveVerifier :=
  m.bind fun n => (a.files[n.file]?).map fun f => v.put slot ((v.slots slot).bind n f.1)

/-- `forget_binding`: the bitmap is cleared through the handle before the handle goes. -/
def forgetBinding (v : LiveVerifier) (slot : Nat) : LiveVerifier :=
  let s := v.slots slot
  { (v.onVouch slot .clear).put slot s.unbind with partialsUsed := v.partialsUsed - s.partialBytes }

/-- `rejudge_binding`: `none` keeps the binding, `some m` drops it for the match answer `m`. -/
def rejudgeBinding (v : LiveVerifier) (slot : Nat) (a : Active) (r : Option (Option Nomination)) :
    LiveVerifier :=
  let s := v.slots slot
  if s.file = none ∨ s.confirmed then v
  else
    match r with
    | none => v
    | some m =>
      let v := v.forgetBinding slot
      (v.tryMatch slot a m).getD v

/-- `promote_binding`; `won` says whether the descriptor was unclaimed. -/
def promoteBinding (v : LiveVerifier) (slot : Nat) (won : Bool) : LiveVerifier :=
  match v.plan with
  | .active _ =>
    let s := v.slots slot
    if s.file = none ∨ s.confirmed ∨ s.liveOk = 0 then v
    else if won then v.put slot { s with confirmed := true }
    else v.forgetBinding slot
  | _ => v

def engageGate (v : LiveVerifier) (slot : Nat) : LiveVerifier :=
  { v with gate := v.gate.map (·.engage slot) }

end LiveVerifier

/-! ## A feed's claim phase -/

structure Feed where
  src : Src
  offset : Nat
  data : List UInt8
  articleCrc : Option Nat := none

/-- The block work a feed claims under the lock. -/
structure Work where
  full : List Nat := []
  ready : List (Nat × List UInt8) := []
  crcJobs : List (Nat × Nat × Nat) := []
  deriving DecidableEq, Repr

/-- A span being claimed: clamped to the descriptor's length, never empty. -/
structure Span where
  start : Nat
  data : List UInt8
  deriving DecidableEq, Repr

def Span.stop (sp : Span) : Nat := sp.start + sp.data.length

/-- The bytes of the span between the file offsets `os` and `oe`. -/
def Span.bytes (sp : Span) (os oe : Nat) : List UInt8 := slice sp.data (os - sp.start) (oe - sp.start)

/-- The claim loop's accumulators. -/
structure Claiming where
  s : SlotState
  used : Nat
  work : Work := {}

section Claim

variable (cap : Nat) (file : Par2File) (bs : Nat) (sp : Span) (crcClaims : Bool)

/-- A fragment `os..oe` of a boundary block joins a byte partial. -/
def Claiming.fillBytes (c : Claiming) (bi os oe : Nat) (p : Partial) : Claiming :=
  let p := p.fill (os - bi * bs) (sp.bytes os oe)
  if p.complete then
    { s := { c.s with
        partials := c.s.partials.erase bi
        partialBytes := c.s.partialBytes - p.buf.length }
      used := c.used - p.buf.length
      work := { c.work with ready := c.work.ready ++ [(bi, p.buf)] } }
  else { c with s := { c.s with partials := c.s.partials.insert bi (.bytes p) } }

/-- A fragment opens a byte partial, unless the global budget is spent. -/
def Claiming.openBytes (c : Claiming) (bi os oe : Nat) : Claiming :=
  let blen := blockLen file.length bs bi
  if cap < c.used + blen then c
  else
    { c with
      s := { c.s with
        partialBytes := c.s.partialBytes + blen
        partials := c.s.partials.insert bi
          (.bytes ((Partial.new blen).fill (os - bi * bs) (sp.bytes os oe))) }
      used := c.used + blen }

def Claiming.pushCrc (c : Claiming) (bi os oe : Nat) : Claiming :=
  { c with work := { c.work with crcJobs := c.work.crcJobs ++ [(bi, os, oe)] } }

/-- A fragment of a boundary block, by what the block holds and what the span may claim. -/
def Claiming.boundary (c : Claiming) (bi os oe : Nat) : Claiming :=
  match c.s.partials.lookup bi with
  | some (.crc _) =>
    if crcClaims then c.pushCrc bi os oe
    -- mixed trust: the block is abandoned to the settle read-back
    else { c with s := { c.s with partials := c.s.partials.erase bi } }
  | some (.bytes p) => c.fillBytes bs sp bi os oe p
  | none =>
    if crcClaims then
      Claiming.pushCrc { c with s := { c.s with partials := c.s.partials.insert bi (.crc {}) } }
        bi os oe
    else c.openBytes cap file bs sp bi os oe

def Claiming.block (c : Claiming) (bi : Nat) : Claiming :=
  if c.s.blocks[bi]? ≠ some .pending then c
  else
    let bstart := bi * bs
    let bend := bstart + blockLen file.length bs bi
    if sp.start ≤ bstart ∧ bend ≤ sp.stop then
      { c with work := { c.work with full := c.work.full ++ [bi] } }
    else c.boundary cap file bs sp crcClaims bi (max sp.start bstart) (min sp.stop bend)

/-- The blocks the span touches, `first_block..=last_block.min(n - 1)`. -/
def touched : List Nat :=
  let first := sp.start / bs
  let last := min ((sp.stop - 1) / bs) (file.blocks.length - 1)
  List.range' first (last + 1 - first)

end Claim

/-- What a feed takes out of the lock: its span and claims, and the binding they are about. -/
structure Job where
  slot : Nat
  src : Src
  span : Span
  rawLen : Nat
  articleCrc : Option Nat
  crcClaims : Bool
  bindGen : Nat
  file : Par2File
  bs : Nat
  work : Work

namespace LiveVerifier

/-- May a span of this source claim on CRC32 alone? -/
def crcClaims (v : LiveVerifier) (src : Src) : Bool :=
  v.fast && (src == .fresh || src == .rehash || (src == .lean && v.lean))

/-- Before activation a span is remembered by its range, with how weakly it may be claimed. -/
def preSpan (v : LiveVerifier) (slot : Nat) (f : Feed) : LiveVerifier :=
  let s := v.slots slot
  v.put slot { s with
    preUnvouched := s.preUnvouched || f.src == .lean
    resumeSeeded := s.resumeSeeded || f.src == .disk
    preSpans := s.preSpans ++ [(f.offset, f.data.length % 2 ^ 32)] }

def claimSpan (v : LiveVerifier) (slot : Nat) (a : Active) (f : Feed) : LiveVerifier × Option Job :=
  match (v.slots slot).file.bind (a.files[·]?) with
  | none => (v, none)
  | some (file, bs) =>
    let len := min f.data.length (file.length - f.offset)
    if file.blocks = [] ∨ bs = 0 ∨ len = 0 then (v, none)
    else
      let sp : Span := ⟨f.offset, f.data.take len⟩
      let cc := v.crcClaims f.src
      let c := (touched file bs sp).foldl (Claiming.block v.partialsCap file bs sp cc)
        { s := v.slots slot, used := v.partialsUsed }
      ({ v.put slot c.s with partialsUsed := c.used },
        some ⟨slot, f.src, sp, f.data.length, f.articleCrc, cc, c.s.bindGen, file, bs, c.work⟩)

/-- `on_data_inner` up to the point where the slot lock drops. `r` is what re-judging a tentative
binding answers, `m` what matching an unbound slot answers. -/
def onDataClaim (v : LiveVerifier) (slot : Nat) (f : Feed) (r : Option (Option Nomination))
    (m : Option Nomination) : LiveVerifier × Option Job :=
  match v.plan with
  | .off => (v, none)
  | .waiting => (v.preSpan slot f, none)
  | .active a =>
    let v := v.rejudgeBinding slot a r
    if (v.slots slot).file = none then
      match v.tryMatch slot a m with
      | none => (v, none)
      | some v => (v.engageGate slot).claimSpan slot a f
    else v.claimSpan slot a f

end LiveVerifier

/-! ## Hashing, with the lock down -/

section Hash

variable (d : Digests)

/-- The pieces `article_piece_crcs` cuts a span into, one per block touched. -/
def pieces (sp : Span) (bs length : Nat) : List (Nat × Nat × Nat) :=
  let first := sp.start / bs
  (List.range' first ((sp.stop - 1) / bs + 1 - first)).map fun bi =>
    (bi, max sp.start (bi * bs), min sp.stop (min (bi * bs + bs) length))

/-- The index and length of the largest needed piece, ties keeping the first, and the total length
needed. -/
def derivePiece (needed : Nat → Bool) (ps : List (Nat × Nat × Nat)) : Option (Nat × Nat) × Nat :=
  ps.zipIdx.foldl (fun acc x =>
    let ((bi, os, oe), i) := x
    if needed bi then
      (if acc.1.all (·.2 < oe - os) then some (i, oe - os) else acc.1, acc.2 + (oe - os))
    else acc) (none, 0)

/-- One side of the derived piece: the composed CRC, its length, and the pieces needed on the way. -/
def composeSide (sp : Span) (needed : Nat → Bool) (ps : List (Nat × Nat × Nat)) :
    Nat × Nat × List (Nat × Nat) :=
  ps.foldl (fun acc x =>
    let (bi, os, oe) := x
    let c := d.crc32 (sp.bytes os oe)
    (d.combine acc.1 c (oe - os), acc.2.1 + (oe - os),
      if needed bi then acc.2.2 ++ [(bi, c)] else acc.2.2)) (0, 0, [])

/-- `article_piece_crcs`: a CRC for every needed piece, the largest derived from the article's. -/
def articlePieceCrcs (sp : Span) (bs length articleCrc : Nat) (needed : Nat → Bool) :
    Option (List (Nat × Nat)) :=
  let ps := pieces sp bs length
  match derivePiece needed ps with
  | (none, _) => none
  | (some (j, jlen), needLen) =>
    let hashed := (sp.stop - sp.start) - jlen
    if needLen ≤ hashed then none
    else
      let (head, _, out₁) := composeSide d sp needed (ps.take j)
      let (tail, tailLen, out₂) := composeSide d sp needed (ps.drop (j + 1))
      some (out₁ ++ out₂ ++
        [((ps.getD j default).1, crc32OfMiddle d articleCrc head jlen tail tailLen)])

namespace Job

variable (j : Job)

/-- Verified-CRC reuse: only a fresh, untrimmed, CRC-claiming span carries an article CRC. -/
def reuse (noReuse : Bool) : Option (List (Nat × Nat)) :=
  if !noReuse && j.src == .fresh && j.crcClaims && j.span.data.length == j.rawLen then
    j.articleCrc.bind fun acrc => articlePieceCrcs d j.span j.bs j.file.length acrc fun bi =>
      j.work.full.contains bi || j.work.crcJobs.any (·.1 == bi)
  else none

/-- The CRC the reuse hands block `bi`. -/
def piece (noReuse : Bool) (bi : Nat) : Option Nat :=
  (j.reuse d noReuse).bind fun v => (v.find? (·.1 == bi)).map (·.2)

def check (bi : Nat) : BlockCheck := j.file.blocks.getD bi UNPROVEN

def blen (bi : Nat) : Nat := blockLen j.file.length j.bs bi

def fullBytes (bi : Nat) : List UInt8 := j.span.bytes (bi * j.bs) (bi * j.bs + j.blen bi)

def fullVerdict (noReuse : Bool) (bi : Nat) : BlockVerdict :=
  match j.piece d noReuse bi with
  | some crc =>
    if crcMatches (j.check bi) (d.zeros crc (j.bs - j.blen bi)) then .ok else .damaged
  | none =>
    if j.crcClaims then checkBlockCrcVerdict d (j.check bi) j.bs (j.fullBytes bi)
    else checkBlockVerdict d (j.check bi) j.bs (j.fullBytes bi)

/-- The verdicts of the blocks hashed whole and of the completed byte partials. -/
def results (noReuse : Bool) : List (Nat × BlockVerdict) :=
  j.work.full.map (fun bi => (bi, j.fullVerdict d noReuse bi)) ++
  j.work.ready.map fun x => (x.1, checkBlockVerdict d (j.check x.1) j.bs x.2)

/-- The CRC of the fragment `os..oe` of block `bi`. -/
def fragCrc (noReuse : Bool) (bi os oe : Nat) : Nat :=
  (j.piece d noReuse bi).getD (d.crc32 (j.span.bytes os oe))

/-- The fragments claimed as CRC parts, with their CRCs. -/
def crcFrags (noReuse : Bool) : List (Nat × Nat × Nat × Nat) :=
  j.work.crcJobs.map fun (bi, os, oe) => (bi, os, oe, j.fragCrc d noReuse bi os oe)

end Job

/-! ## A feed's record phase -/

namespace LiveVerifier

/-- The closure `record`: a verdict lands on a Pending block only. -/
def record (v : LiveVerifier) (slot bi : Nat) (ok : Bool) : LiveVerifier :=
  let s := v.slots slot
  if s.blocks[bi]? = some .pending then
    if ok then
      (v.put slot { s with blocks := s.blocks.set bi .ok, liveOk := s.liveOk + 1 }).onVouch slot
        (·.setOk bi)
    else v.put slot { s with blocks := s.blocks.set bi .bad, liveBad := s.liveBad + 1 }
  else v

def recordResult (slot : Nat) (v : LiveVerifier) (x : Nat × BlockVerdict) : LiveVerifier :=
  let s := v.slots slot
  let v := v.put slot
    { s with ifscSelfContradicted := s.ifscSelfContradicted || x.2 == .contradicted }
  v.record slot x.1 (x.2 == .ok)

/-- A partial whose block another span settled meanwhile is dropped, with its budget charge. -/
def dropPartial (v : LiveVerifier) (slot bi : Nat) : LiveVerifier :=
  let s := v.slots slot
  let held := match s.partials.lookup bi with
    | some (.bytes p) => p.buf.length
    | _ => 0
  { v.put slot { s with partials := s.partials.erase bi, partialBytes := s.partialBytes - held } with
    partialsUsed := v.partialsUsed - held }

/-- The composed CRC extended over the zero padding of a short last block. -/
def finalCrc (crc blen bs : Nat) : Nat := if blen < bs then d.zeros crc (bs - blen) else crc

/-- A fragment of block `bi` joins the CRC parts `parts`. -/
def joinFrag (j : Job) (v : LiveVerifier) (parts : CrcParts) (bi os oe crc : Nat) : LiveVerifier :=
  let s := v.slots j.slot
  match parts.insert d.combine (os - bi * j.bs) (oe - bi * j.bs) crc with
  | none => v.put j.slot { s with partials := s.partials.erase bi }
  | some parts =>
    match parts.complete (j.blen bi) with
    | some crc =>
      (v.put j.slot { s with partials := s.partials.erase bi }).record j.slot bi
        (crcMatches (j.check bi) (finalCrc d crc (j.blen bi) j.bs))
    | none => v.put j.slot { s with partials := s.partials.insert bi (.crc parts) }

def recordFrag (j : Job) (v : LiveVerifier) (x : Nat × Nat × Nat × Nat) : LiveVerifier :=
  let (bi, os, oe, crc) := x
  let s := v.slots j.slot
  if s.blocks[bi]? ≠ some .pending then v.dropPartial j.slot bi
  else
    match s.partials.lookup bi with
    | some (.crc parts) => joinFrag d j v parts bi os oe crc
    | _ => v

/-- `on_data_inner` from the re-lock on: a job of another binding generation is dropped. -/
def onDataRecord (v : LiveVerifier) (j : Job) : LiveVerifier :=
  let results := j.results d v.noReuse
  let frags := j.crcFrags d v.noReuse
  if results = [] ∧ frags = [] then v
  else if (v.slots j.slot).bindGen ≠ j.bindGen then v
  else
    let v := results.foldl (recordResult j.slot) v
    let v := frags.foldl (recordFrag d j) v
    v.gatePublish j.slot j.bs

end LiveVerifier

end Hash

/-! ## Pre-activation spans -/

namespace LiveVerifier

/-- A seeded span in pieces of at most `u32::MAX` bytes. -/
def seedPieces (off len : Nat) : List (Nat × Nat) :=
  if h : len = 0 then []
  else (off, min len (2 ^ 32 - 1)) ::
    seedPieces (off + min len (2 ^ 32 - 1)) (len - min len (2 ^ 32 - 1))
termination_by len
decreasing_by omega

/-- `seed_pre_spans`: spans a previous run persisted. -/
def seedPreSpans (v : LiveVerifier) (slot : Nat) (spans : List (Nat × Nat)) : LiveVerifier :=
  let s := v.slots slot
  v.put slot { s with
    resumeSeeded := true
    preSpans := s.preSpans ++ spans.flatMap fun x => seedPieces x.1 x.2 }

/-- The source the drained spans must be fed under. -/
def preSpanSrc (v : LiveVerifier) (slot : Nat) : PreSpanSrc :=
  let s := v.slots slot
  if s.resumeSeeded || (s.preUnvouched && !v.lean) then .disk else .backfill

/-- Coalesce sorted spans, as `(offset, end)`. -/
def coalesce (spans : List (Nat × Nat)) : List (Nat × Nat) :=
  spans.foldl (fun out x =>
    match out.getLast? with
    | some (s, e) =>
      if x.1 ≤ e ∧ e < x.1 + x.2 then out.dropLast ++ [(s, x.1 + x.2)]
      else if x.1 + x.2 ≤ e then out
      else out ++ [(x.1, x.1 + x.2)]
    | none => [(x.1, x.1 + x.2)]) []

/-- `take_pre_spans`: the spans as `(offset, len)`, the source they must be fed under, and the
slot drained. -/
def takePreSpans (v : LiveVerifier) (slot : Nat) :
    (List (Nat × Nat) × PreSpanSrc) × LiveVerifier :=
  let s := v.slots slot
  let sorted := s.preSpans.mergeSort fun x y => x.1 < y.1 ∨ (x.1 = y.1 ∧ x.2 ≤ y.2)
  (((coalesce sorted).map fun x => (x.1, x.2 - x.1), v.preSpanSrc slot),
    v.put slot { s with preSpans := [] })

end LiveVerifier

/-! ## Settling a slot -/

/-- A byte source for read-back: a ranged read, and the bytes a whole-file digest of an expected
length covers. `none` is a read error. -/
structure ReadAt where
  read : Nat → Nat → Option (List UInt8)
  whole : Nat → Option (List UInt8)

/-- What the tiers of `finish_slot_from` answer, in the order they are asked. -/
structure Ladder where
  /-- `settle_binding` of the binding held on entry. -/
  settled : Bool
  refused : Bool
  first : Option Nomination
  firstHolds : Bool
  /-- `try_match_whole || try_match_named`. -/
  late : Option Nomination
  /-- The unclaimed candidates of the head shrank meanwhile. -/
  shrank : Bool
  again : Option Nomination
  againHolds : Bool
  deriving DecidableEq, Repr

section Settle

variable (d : Digests)

namespace LiveVerifier

/-- `force_readback`: every settled verdict goes back to Pending, and the bitmap with it. -/
def forceReadback (v : LiveVerifier) (slot : Nat) : LiveVerifier :=
  let s := v.slots slot
  (v.put slot { s with
    readbackForced := (List.range s.blocks.length).filter fun i => s.blocks[i]? ≠ some .pending
    blocks := List.replicate s.blocks.length .pending
    okPrefix := 0 }).onVouch slot .clear

def readVerdict (file : Par2File) (bs : Nat) (src : ReadAt) (bi : Nat) : BlockVerdict :=
  match src.read (bi * bs) (blockLen file.length bs bi) with
  | some bytes => checkBlockVerdict d (file.blocks.getD bi UNPROVEN) bs bytes
  | none => .damaged

def readbackBlock (file : Par2File) (bs : Nat) (src : ReadAt) (slot : Nat) (v : LiveVerifier)
    (bi : Nat) : LiveVerifier :=
  let s := v.slots slot
  let verdict := readVerdict d file bs src bi
  let v := v.put slot { s with
    ifscSelfContradicted := s.ifscSelfContradicted || verdict == .contradicted
    blocks := s.blocks.set bi (if verdict = .ok then .ok else .bad) }
  if verdict = .ok then v.onVouch slot (·.setOk bi) else v

def readbackBlocks (v : LiveVerifier) (slot : Nat) (file : Par2File) (bs : Nat) (src : ReadAt)
    (want : List Nat) : LiveVerifier :=
  if want = [] then v
  else (want.foldl (readbackBlock d file bs src slot) v).gatePublish slot bs

/-- `settle_binding` with the answer `holds` on a tentative binding; the second part is the
function's result. -/
def settleBinding (v : LiveVerifier) (slot : Nat) (holds : Bool) : LiveVerifier × Bool :=
  let s := v.slots slot
  if s.file = none then (v, false)
  else if s.confirmed then (v, true)
  else if holds then (v.put slot { s with confirmed := true, headNominated := false }, true)
  else (v, false)

/-- A match at finish; a head nomination made here is settled here. -/
def matchAtFinish (v : LiveVerifier) (slot : Nat) (a : Active) (m : Option Nomination)
    (holds : Bool) : LiveVerifier × Bool :=
  match v.tryMatch slot a m with
  | none => (v, false)
  | some v =>
    if (v.slots slot).headNominated then
      let (v, kept) := v.settleBinding slot holds
      if kept then (v, true) else (v.forgetBinding slot, false)
    else (v, true)

def lastChance (v : LiveVerifier) (slot : Nat) (a : Active) (l : Ladder) (mayRematch : Bool) :
    LiveVerifier :=
  let (v, bound) := if mayRematch then v.matchAtFinish slot a l.first l.firstHolds else (v, false)
  let (v, bound) := if bound then (v, true)
    else match v.tryMatch slot a l.late with
      | some v => (v, true)
      | none => (v, false)
  let (v, bound) := if !bound && mayRematch && l.shrank
    then v.matchAtFinish slot a l.again l.againHolds else (v, bound)
  if bound then v.engageGate slot else v

def releaseUnbound (v : LiveVerifier) (slot : Nat) : LiveVerifier :=
  { v with gate := v.gate.map fun g =>
      if (g.engagedMark slot).isSome then g.advance slot U64_MAX else g }

def blocksIn (v : LiveVerifier) (slot : Nat) (st : BlockState) : List Nat :=
  let s := v.slots slot
  (List.range s.blocks.length).filter fun i => s.blocks[i]? = some st

/-- The whole-file MD5 outranks the block grid: every block is Ok. -/
def acceptWhole (v : LiveVerifier) (slot bs : Nat) : LiveVerifier :=
  let s := v.slots slot
  ((v.put slot { s with blocks := List.replicate s.blocks.length .ok }).onVouch slot
    (·.seed (List.range s.blocks.length))).gatePublish slot bs

/-- The block grid of a bound slot is settled from disk. -/
def settleBlocks (v : LiveVerifier) (slot : Nat) (file : Par2File) (bs : Nat) (src : ReadAt) :
    LiveVerifier :=
  let v := v.readbackBlocks d slot file bs src (v.blocksIn slot .pending)
  let bad := v.blocksIn slot .bad
  if bad ≠ [] ∧
      ((v.slots slot).ifscSelfContradicted ∨
        (∀ bi ∈ bad, ¬ isProven (file.blocks.getD bi UNPROVEN)) ∨
        bad.length = file.blocks.length) ∧
      (src.whole file.length).any fun bytes => d.md5 bytes = file.md5 then
    v.acceptWhole slot bs
  else v

/-- The leftover partials of a slot go back to the budget. -/
def dropPartials (v : LiveVerifier) (slot : Nat) : LiveVerifier :=
  let s := v.slots slot
  { v.put slot { s with partials := ∅, partialBytes := 0 } with
    partialsUsed := v.partialsUsed - s.partialBytes }

/-- `finish_slot_from` once the binding question is settled. -/
def finishBound (v : LiveVerifier) (slot : Nat) (a : Active) (src : ReadAt) : LiveVerifier :=
  match (v.slots slot).file.bind (a.files[·]?) with
  | none => v.releaseUnbound slot
  | some (file, bs) =>
    let v := v.dropPartials slot
    if file.blocks = [] then { v with gate := v.gate.map (·.advance slot U64_MAX) }
    else v.settleBlocks d slot file bs src

/-- The blocks a head nomination's forced read-back restores before it is settled. -/
def forcedReadback (v : LiveVerifier) (slot : Nat) (a : Active) (src : ReadAt) : LiveVerifier :=
  let s := v.slots slot
  let v := v.put slot { s with readbackForced := [] }
  if !s.confirmed && s.headNominated && !s.readbackForced.isEmpty then
    match s.file.bind (a.files[·]?) with
    | some (file, bs) =>
      if file.blocks ≠ [] ∧ 0 < bs then v.readbackBlocks d slot file bs src s.readbackForced else v
    | none => v
  else v

def finishSlot (v : LiveVerifier) (slot : Nat) (src : ReadAt) (l : Ladder) : LiveVerifier :=
  match v.plan with
  | .active a =>
    let s := v.slots slot
    let headBound := s.file.isSome && !s.confirmed && s.headNominated
    let v := v.forcedReadback d slot a src
    let (v, kept) := v.settleBinding slot l.settled
    let dropped := s.file.isSome && !kept
    let v := if dropped then v.forgetBinding slot else v
    let v := if (v.slots slot).file = none ∧ ¬ l.refused then
      v.lastChance slot a l (!(dropped && headBound)) else v
    v.finishBound d slot a src
  | _ => v

/-- `activate`: a live plan is extended, never replaced. -/
def activate (v : LiveVerifier) (sets : List ParsedSet) : LiveVerifier :=
  { v with plan := match v.plan with
    | .active a => .active (a.extended sets)
    | _ => .active ⟨sets⟩ }

end LiveVerifier

/-! ## Interleavings -/

/-- The verifier with the feeds that are between their claim and their record. -/
structure World where
  v : LiveVerifier
  jobs : List Job := []

inductive Step
  | claim (slot : Nat) (f : Feed) (r : Option (Option Nomination)) (m : Option Nomination)
  | record (i : Nat)
  | promote (slot : Nat) (won : Bool)
  | forceReadback (slot : Nat)
  | seedPreSpans (slot : Nat) (spans : List (Nat × Nat))
  | takePreSpans (slot : Nat)
  | activate (sets : List ParsedSet)
  | finish (slot : Nat) (src : ReadAt) (l : Ladder)

/-- One locked region of one thread. -/
def World.step (w : World) : Step → World
  | .claim slot f r m =>
    let (v, j) := w.v.onDataClaim slot f r m
    ⟨v, w.jobs ++ j.toList⟩
  | .record i =>
    match w.jobs[i]? with
    | some j => ⟨w.v.onDataRecord d j, w.jobs.eraseIdx i⟩
    | none => w
  | .promote slot won => { w with v := w.v.promoteBinding slot won }
  | .forceReadback slot => { w with v := w.v.forceReadback slot }
  | .seedPreSpans slot spans => { w with v := w.v.seedPreSpans slot spans }
  | .takePreSpans slot => { w with v := (w.v.takePreSpans slot).2 }
  | .activate sets => { w with v := w.v.activate sets }
  | .finish slot src l => { w with v := w.v.finishSlot d slot src l }

def World.run (w : World) (tr : List Step) : World := tr.foldl (World.step d) w

end Settle

/-- A fresh verifier: the plan waits, no slot is bound, nothing is in flight. -/
def World.start (fast lean noReuse gated : Bool) (partialsCap : Nat) : World :=
  { v := { plan := .waiting, fast, lean, noReuse, partialsCap,
           gate := if gated then some .new else none } }

end NzbFast.Live
