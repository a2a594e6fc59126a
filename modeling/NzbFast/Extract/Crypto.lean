import NzbFast.Extract.CrcRuns
import NzbFast.Extract.Frontier
import NzbFast.Wire.Cbc

/-!
# Plaintext once: the in-stream decryption

`CryptoState` (`crates/nzbkit/src/extract/crypto.rs`) decrypts one encrypted store
output as its posted bytes arrive, in any order. What it keeps of the ciphertext
are the slivers at the two ends of each run; the rest is plaintext on disk, and is
encrypted again when posted bytes are read. Functions here run from the state, and
the file's bytes where they write, to the state. An `ingest` takes the lock twice,
to plan and to commit, and decrypts in between, so it is a call with its own state.

The block cipher is a permutation of blocks, fixed by the key. Offsets are natural
numbers: no file is `2^64` bytes long. Writes succeed.
-/

namespace NzbFast.Extract

open NzbFast.Rust
open Wire (Block cbcDecrypt cbcEncrypt crc32 gaps)

def CRYPTO_CHUNK : Nat := 2 ^ 20

def nextMultipleOf (n m : Nat) : Nat := (n + m - 1) / m * m

def align16 (n : Nat) : Nat := (n + 15) / 16 * 16

/-- What an output's decryption is made with. -/
structure CryptoState where
  aes : Equiv.Perm Block
  iv : Block
  unp : Nat
  trackPlain : Bool

def CryptoState.cipherLen (cs : CryptoState) : Nat := align16 cs.unp

/-- The journal's events, less the output's name. -/
inductive CryptoJournalEvent where
  | checkpoint (off : Nat) (block : List UInt8)
  | tailPad (pad : List UInt8)

/-- A contiguous run of posted bytes: plaintext on disk for `[pLo, pHi)`, and slivers of the
ciphertext at its ends. -/
structure CryptoRun where
  stop : Nat
  pLo : Nat
  pHi : Nat
  head : List UInt8
  tail : List UInt8
  deriving DecidableEq

def CryptoRun.decrypted (r : CryptoRun) : Bool :=
  decide (r.pLo < r.pHi) || (decide (r.pLo = 0) && decide (r.pHi = 0) && r.head.isEmpty)

/-- What is behind the lock, with the file's events. -/
structure CryptoSt where
  runs : BTreeMap CryptoRun := .empty
  checkpoints : BTreeMap (List UInt8) := .empty
  plain : CrcRuns := {}
  tailPad : List UInt8 := []
  tailDone : Bool := false
  inflight : List (Nat × Nat) := []
  events : List CryptoJournalEvent := []

structure Body where
  chain : List UInt8
  at_ : Nat
  full : Nat

structure Landed where
  at_ : Nat
  n : Nat
  crc : Option Nat
  pad : Option (List UInt8)

structure FreshPlan where
  start : Nat
  body : Option Body
  run : CryptoRun

namespace CryptoState

variable (cs : CryptoState)

/-- The stride boundaries in `[at_, stop]`. -/
def strides (at_ stop : Nat) : List Nat :=
  let first := max (nextMultipleOf at_ CRYPTO_CHUNK) CRYPTO_CHUNK
  (List.range ((stop + CRYPTO_CHUNK - first) / CRYPTO_CHUNK)).map fun i => first + i * CRYPTO_CHUNK

/-- The block before a boundary of a body, which at the body's start is the chain. -/
def strideBlock (chain : List UInt8) (at_ : Nat) (cipher : List UInt8) (c : Nat) : List UInt8 :=
  if at_ + 16 ≤ c then (cipher.drop (c - 16 - at_)).take 16 else chain

/-- `plan_advance`: the checkpoints of a decrypt, and how many bytes it takes. -/
def planAdvance (st : CryptoSt) (chain : List UInt8) (at_ : Nat) (cipher : List UInt8) :
    CryptoSt × Nat :=
  let full := cipher.length - cipher.length % 16
  if full = 0 then (st, 0)
  else
    let st := { st with events := st.events ++ [.checkpoint at_ chain] }
    ((strides at_ (at_ + full)).foldl (fun st c =>
      let block := strideBlock chain at_ cipher c
      { st with
        checkpoints := st.checkpoints.insert c block
        events := st.events ++ [.checkpoint c block] }) st, full)

/-- `decrypt_write`, with the decrypted buffer. -/
def decryptWrite (file : List UInt8) (body : Body) (buf : List UInt8) :
    List UInt8 × Landed × List UInt8 :=
  let buf := cbcDecrypt cs.aes (buf.length / 16) body.chain buf
  let n := min (body.at_ + body.full) cs.unp - body.at_
  let file := if 0 < n then writeAllAt file body.at_ (buf.take n) else file
  let crc := if cs.trackPlain && decide (0 < n) then some (crc32 (buf.take n)) else none
  let pad := if body.at_ + body.full = cs.cipherLen then some (buf.drop (cs.unp - body.at_)) else none
  (file, { at_ := body.at_, n, crc, pad }, buf)

/-- The CRC half of `commit_landed`. -/
def commitCrc (plain : CrcRuns) (landed : Landed) (bytes : List UInt8) (overwrite : Bool) :
    CrcRuns :=
  if cs.trackPlain && decide (0 < landed.n) then
    if overwrite then plain.overwrite landed.at_ bytes
    else
      match landed.crc.map (plain.addRun landed.at_ landed.n) with
      | some (plain, true) => plain
      | _ => plain.add landed.at_ bytes
  else plain

def commitLanded (st : CryptoSt) (landed : Landed) (bytes : List UInt8) (overwrite : Bool) :
    CryptoSt :=
  let st := { st with plain := cs.commitCrc st.plain landed bytes overwrite }
  match landed.pad with
  | some pad => { st with tailPad := pad, tailDone := true, events := st.events ++ [.tailPad pad] }
  | none => st

/-- `advance`: plan, decrypt, write and commit under the lock. -/
def advance (st : CryptoSt) (file chain : List UInt8) (at_ : Nat) (cipher : List UInt8)
    (overwrite : Bool) : CryptoSt × List UInt8 × Nat :=
  let (st, full) := planAdvance st chain at_ cipher
  if full = 0 then (st, file, 0)
  else
    let (file, landed, buf) := cs.decryptWrite file { chain, at_, full } (cipher.take full)
    (cs.commitLanded st landed (buf.take landed.n) overwrite, file, full)

/-- A plan for a range too short to decrypt. -/
def headOnly (at_ stop : Nat) (cipher : List UInt8) : FreshPlan :=
  { start := at_, body := none, run := { stop, pLo := at_, pHi := at_, head := cipher, tail := [] } }

def planFresh (st : CryptoSt) (at_ : Nat) (cipher : List UInt8) : CryptoSt × FreshPlan :=
  let stop := at_ + cipher.length
  if at_ = 0 then
    let (st, full) := planAdvance st cs.iv.bytes 0 cipher
    if full = 0 then (st, headOnly 0 stop cipher)
    else
      (st, {
        start := at_
        body := some { chain := cs.iv.bytes, at_ := 0, full }
        run := { stop, pLo := 0, pHi := full, head := [], tail := cipher.drop (full - 16) } })
  else
    let pLo := nextMultipleOf at_ 16 + 16
    if min stop cs.cipherLen - pLo < 16 then (st, headOnly at_ stop cipher)
    else
      let off := pLo - at_
      let chain := (cipher.drop (off - 16)).take 16
      let (st, full) := planAdvance st chain pLo (cipher.drop off)
      if full = 0 then (st, headOnly at_ stop cipher)
      else
        (st, {
          start := at_
          body := some { chain, at_ := pLo, full }
          run := {
            stop, pLo, pHi := pLo + full
            head := cipher.take off, tail := cipher.drop (off + full - 16) } })

def bodyBytes (at_ : Nat) (body : Body) (cipher : List UInt8) : List UInt8 :=
  (cipher.drop (body.at_ - at_)).take body.full

def freshRun (st : CryptoSt) (file : List UInt8) (at_ : Nat) (cipher : List UInt8) :
    CryptoSt × List UInt8 × CryptoRun :=
  let (st, plan) := cs.planFresh st at_ cipher
  match plan.body with
  | some body =>
    let (file, landed, buf) := cs.decryptWrite file body (bodyBytes at_ body cipher)
    (cs.commitLanded st landed (buf.take landed.n) false, file, plan.run)
  | none => (st, file, plan.run)

def mergeForward (st : CryptoSt) (file : List UInt8) (left right : CryptoRun) :
    CryptoSt × List UInt8 × CryptoRun :=
  let leftDec := decide (left.pLo < left.pHi)
  let chain := if leftDec then left.tail.take 16 else cs.iv.bytes
  let at_ := if leftDec then left.pHi else 0
  let glue := (if leftDec then left.tail.drop 16 else left.head) ++ right.head
  let (st, file, done) := cs.advance st file chain at_ glue false
  let pHi := at_ + done
  let pLo := if leftDec then left.pLo else 0
  if right.decrypted then
    (st, file, { stop := right.stop, pLo, pHi := right.pHi, head := left.head, tail := right.tail })
  else if at_ < pHi || leftDec then
    let glueStart := if leftDec then at_ - 16 else 0
    let pHi := max pHi (if leftDec then left.pHi else 0)
    let full := if leftDec then left.tail.take 16 ++ glue else glue
    if 0 < pHi then
      (st, file, {
        stop := right.stop, pLo, pHi
        head := left.head, tail := full.drop (pHi - 16 - glueStart) })
    else (st, file, { stop := right.stop, pLo, pHi, head := glue, tail := [] })
  else (st, file, { stop := right.stop, pLo := 0, pHi := 0, head := glue, tail := [] })

/-- The merge of a sliver past the start with the run after it. -/
def mergeSliver (st : CryptoSt) (file : List UInt8) (ls : Nat) (left right : CryptoRun) :
    CryptoSt × List UInt8 × CryptoRun :=
  let combined := left.head ++ right.head
  if right.decrypted then
    let pLo := min (nextMultipleOf ls 16 + 16) right.pLo
    if pLo < right.pLo then
      let chain := (combined.drop (pLo - 16 - ls)).take 16
      let (st, file, _) := cs.advance st file chain pLo (combined.drop (pLo - ls)) false
      (st, file, {
        stop := right.stop, pLo, pHi := right.pHi
        head := combined.take (pLo - ls), tail := right.tail })
    else
      (st, file, {
        stop := right.stop, pLo := right.pLo, pHi := right.pHi
        head := combined, tail := right.tail })
  else cs.freshRun st file ls combined

def mergeAt (st : CryptoSt) (file : List UInt8) (mid : Nat) : CryptoSt × List UInt8 :=
  match st.runs.lastLT mid, st.runs.get mid with
  | some (ls, left), some right =>
    if left.stop ≠ mid then (st, file)
    else
      let st := { st with runs := (st.runs.remove ls).remove mid }
      let (st, file, merged) :=
        if decide (left.pLo < left.pHi) || decide (ls = 0) then cs.mergeForward st file left right
        else cs.mergeSliver st file ls left right
      ({ st with runs := st.runs.insert ls merged }, file)
  | _, _ => (st, file)

/-! ## Ingest -/

/-- The runs below `stop`, as ranges. -/
def runRanges (st : CryptoSt) (stop : Nat) : List (Nat × Nat) :=
  (st.runs.range 0 stop).map fun x => (x.1, x.2.stop)

/-- What a range in flight leaves of ranges. -/
def clipFlight (novel : List (Nat × Nat)) (flight : Nat × Nat) : List (Nat × Nat) :=
  novel.flatMap fun r =>
    if flight.2 ≤ r.1 ∨ r.2 ≤ flight.1 then [r]
    else
      (if r.1 < flight.1 then [(r.1, flight.1)] else []) ++
        if flight.2 < r.2 then [(flight.2, r.2)] else []

def novelRanges (st : CryptoSt) (at_ stop : Nat) : List (Nat × Nat) :=
  st.inflight.foldl clipFlight (gaps (runRanges st stop) at_ stop)

/-- A call of `ingest` between its plan and its commit: the plans whose bodies are still to be
decrypted, each with its range's bytes, and those that landed, with their plaintext. Bodies of one
call share a buffer, in places that do not overlap. -/
structure Ingest where
  todo : List (FreshPlan × List UInt8)
  landed : List (FreshPlan × Option (Landed × List UInt8)) := []

/-- The plan phase: the ranges that nobody has, planned and marked. -/
def ingestPlan (st : CryptoSt) (at_ : Nat) (data : List UInt8) : CryptoSt × Ingest :=
  let r := (novelRanges st at_ (at_ + data.length)).foldl (fun acc g =>
    let cipher := (data.drop (g.1 - at_)).take (g.2 - g.1)
    let (st, plan) := cs.planFresh acc.1 g.1 cipher
    ({ st with inflight := st.inflight ++ [g] }, acc.2 ++ [(plan, cipher)])) (st, [])
  (r.1, { todo := r.2 })

def ingestWrite (file : List UInt8) (call : Ingest) : List UInt8 × Ingest :=
  match call.todo with
  | [] => (file, call)
  | (plan, cipher) :: todo =>
    match plan.body with
    | some body =>
      let (file, landed, buf) := cs.decryptWrite file body (bodyBytes plan.start body cipher)
      (file, { todo, landed := call.landed ++ [(plan, some (landed, buf))] })
    | none => (file, { todo, landed := call.landed ++ [(plan, none)] })

def fileLanded (st : CryptoSt) : Option (Landed × List UInt8) → CryptoSt
  | some (landed, buf) => cs.commitLanded st landed (buf.take landed.n) false
  | none => st

/-- One landed range filed, put among the runs and merged with its neighbours. -/
def commitRange (s : CryptoSt × List UInt8) (l : FreshPlan × Option (Landed × List UInt8)) :
    CryptoSt × List UInt8 :=
  let st := cs.fileLanded s.1 l.2
  let st := { st with runs := st.runs.insert l.1.start l.1.run }
  let (st, file) := cs.mergeAt st s.2 l.1.start
  cs.mergeAt st file l.1.run.stop

def ingestCommit (st : CryptoSt) (file : List UInt8) (call : Ingest) : CryptoSt × List UInt8 :=
  let st := { st with
    inflight := st.inflight.filter fun g => !call.landed.any fun l => decide (l.1.start = g.1) }
  call.landed.foldl cs.commitRange (st, file)

/-! ## Reports -/

/-- The loop of `covers`. -/
def coversFrom : List (Nat × Nat) → Nat → Nat → Bool
  | [], cur, stop => decide (stop ≤ cur)
  | (s, e) :: runs, cur, stop =>
    if e ≤ cur then coversFrom runs cur stop
    else if cur < s then false
    else if stop ≤ e then true
    else coversFrom runs e stop

def covers (st : CryptoSt) (at_ len : Nat) : Bool :=
  decide (len = 0) || coversFrom (runRanges st (at_ + len)) at_ (at_ + len)

def intervals (st : CryptoSt) (at_ len : Nat) : List (Nat × Nat) :=
  ((runRanges st (at_ + len)).map fun r => (max at_ r.1, min (at_ + len) r.2)).filter fun r =>
    decide (r.1 < r.2)

def complete (st : CryptoSt) : Bool :=
  decide (st.runs.entries.length = 1) &&
    ((st.runs.get 0).any fun r => decide (r.stop = cs.cipherLen) && decide (r.pHi = cs.cipherLen)) &&
    (st.tailDone || decide (cs.unp = cs.cipherLen))

/-- `crc_verdict_with`, for the comparison that a gate makes. -/
def crcVerdictWith (st : CryptoSt) (accepts : Nat → Bool) : Option Bool :=
  (st.plain.whole cs.unp).map accepts

/-! ## Posted bytes -/

/-- `read_at` of the file: the whole range or an error. -/
def readAt (file : List UInt8) (off len : Nat) : Option (List UInt8) :=
  if off + len ≤ file.length then some ((file.drop off).take len) else none

def readPlainBlock (st : CryptoSt) (file : List UInt8) (at_ len : Nat) : Option (List UInt8) :=
  let stop := at_ + len
  let diskEnd := min stop cs.unp
  let disk := if at_ < diskEnd then readAt file at_ (diskEnd - at_) else some []
  let pad :=
    if cs.unp < stop then
      if st.tailDone then
        some ((st.tailPad.drop (max at_ cs.unp - cs.unp)).take (stop - max at_ cs.unp))
      else none
    else some []
  disk.bind fun disk => pad.map (disk ++ ·)

/-- The search for a checkpoint, down the strides from the `k`-th. -/
def checkpointFrom (st : CryptoSt) (pLo : Nat) : Nat → Option (Nat × List UInt8)
  | 0 => none
  | k + 1 =>
    let c := (k + 1) * CRYPTO_CHUNK
    if c < max pLo CRYPTO_CHUNK then none
    else
      match if pLo < c then st.checkpoints.get c else none with
      | some b => some (c, b)
      | none => checkpointFrom st pLo k

/-- The anchor that a read of `[wantLo, ..)` in a run's plaintext encrypts from. -/
def anchor (st : CryptoSt) (run : CryptoRun) (wantLo : Nat) : List UInt8 × Nat :=
  match checkpointFrom st run.pLo (wantLo / CRYPTO_CHUNK) with
  | some (c, b) => (b, c)
  | none =>
    if run.pLo = 0 then (cs.iv.bytes, 0) else (run.head.drop (run.head.length - 16), run.pLo)

/-- The walk from an anchor, encrypting in chunks of at most `cap` bytes. A round does one. -/
def encryptFrom (st : CryptoSt) (file : List UInt8) (cap stop : Nat) :
    Nat → List UInt8 → Nat → Option (List UInt8)
  | 0, _, _ => some []
  | fuel + 1, chain, cpos =>
    if cpos < stop then
      let n := min (stop - cpos) cap
      (cs.readPlainBlock st file cpos n).bind fun block =>
        let block := cbcEncrypt cs.aes (n / 16) chain block
        (encryptFrom st file cap stop fuel (block.drop (n - 16)) (cpos + n)).map (block ++ ·)
    else some []

/-- The posted bytes of `[pos, stop)` inside a run's plaintext. -/
def readRegion (st : CryptoSt) (file : List UInt8) (run : CryptoRun) (pos stop : Nat) :
    Option (List UInt8) :=
  let wantHi := min (nextMultipleOf stop 16) cs.cipherLen
  let (chain, cpos) := cs.anchor st run (pos / 16 * 16)
  let cap := max (min (wantHi - cpos) 4096) 16
  (cs.encryptFrom st file cap wantHi (wantHi - cpos) chain cpos).map fun bytes =>
    (bytes.drop (pos - cpos)).take (stop - pos)

/-- The loop of `read_posted_locked`. A round serves at least a byte. -/
def readPostedFrom (st : CryptoSt) (file : List UInt8) (stop : Nat) :
    Nat → Nat → Option (List UInt8)
  | 0, _ => some []
  | fuel + 1, pos =>
    if pos < stop then
      match st.runs.lastLE pos with
      | none => none
      | some (rs, run) =>
        if run.stop ≤ pos then none
        else
          let stop' := min stop run.stop
          let headEnd := if run.decrypted then run.pLo else run.stop
          if pos < headEnd then
            let take := min stop' headEnd
            (readPostedFrom st file stop fuel take).map
              ((run.head.drop (pos - rs)).take (take - pos) ++ ·)
          else if run.pLo < run.pHi ∧ run.pHi ≤ pos then
            (readPostedFrom st file stop fuel stop').map
              ((run.tail.drop (pos - (run.pHi - 16))).take (stop' - pos) ++ ·)
          else
            let next := min stop' run.pHi
            (cs.readRegion st file run pos next).bind fun bytes =>
              (readPostedFrom st file stop fuel next).map (bytes ++ ·)
    else some []

/-- `read_posted_locked`. -/
def readPosted (st : CryptoSt) (file : List UInt8) (at_ len : Nat) : Option (List UInt8) :=
  if cs.cipherLen < at_ + len then none else cs.readPostedFrom st file (at_ + len) len at_

/-! ## Repair -/

/-- The slivers with a patch's bytes over them. -/
def spliceRun (at_ : Nat) (data : List UInt8) (rs : Nat) (run : CryptoRun) : CryptoRun :=
  { run with
    head := Wire.overlay rs run.head at_ data
    tail := Wire.overlay (run.pHi - 16) run.tail at_ data }

/-- One plaintext region decrypted again where a patch reaches it. -/
def rewriteRegion (at_ : Nat) (data : List UInt8) (s : CryptoSt × List UInt8) (region : Nat × Nat) :
    Option (CryptoSt × List UInt8) :=
  let lo := max region.1 (at_ / 16 * 16 - 16)
  let hi := min (min region.2 (nextMultipleOf (at_ + data.length) 16 + 16)) cs.cipherLen
  if hi ≤ lo then some s
  else
    (if 0 < lo then cs.readPosted s.1 s.2 (lo - 16) 16 else some cs.iv.bytes).bind fun chain =>
      (cs.readPosted s.1 s.2 lo (hi - lo)).map fun fresh =>
        let r := cs.advance s.1 s.2 chain lo (Wire.overlay lo fresh at_ data) true
        (r.1, r.2.1)

/-- `patch_locked`: the state, the file and the ranges that nobody had. -/
def patchLocked (st : CryptoSt) (file : List UInt8) (at_ : Nat) (data : List UInt8) :
    Option ((CryptoSt × List UInt8) × List (Nat × Nat)) :=
  let st := { st with runs := st.runs.mapVals (spliceRun at_ data) }
  let regions := (st.runs.entries.filter fun x => decide (x.2.pLo < x.2.pHi)).map fun x =>
    (x.2.pLo, x.2.pHi)
  (regions.foldlM (cs.rewriteRegion at_ data) (st, file)).map fun s =>
    (s, gaps (runRanges s.1 (at_ + data.length)) at_ (at_ + data.length))

def ingestWrites : Nat → List UInt8 → Ingest → List UInt8 × Ingest
  | 0, file, call => (file, call)
  | n + 1, file, call =>
    let (file, call) := cs.ingestWrite file call
    ingestWrites n file call

/-- `ingest` with no one in between. -/
def ingest (s : CryptoSt × List UInt8) (at_ : Nat) (data : List UInt8) : CryptoSt × List UInt8 :=
  let (st, call) := cs.ingestPlan s.1 at_ data
  let (file, call) := cs.ingestWrites call.todo.length s.2 call
  cs.ingestCommit st file call

/-- `patch`, with no one in between: the locked part, then what nobody had as ordinary bytes. -/
def patch (st : CryptoSt) (file : List UInt8) (at_ : Nat) (data : List UInt8) :
    Option (CryptoSt × List UInt8) :=
  (cs.patchLocked st file at_ data).map fun r =>
    r.2.foldl (fun s g => cs.ingest s g.1 ((data.drop (g.1 - at_)).take (g.2 - g.1))) r.1

end CryptoState

/-! ## Runs -/

/-- An output's state, its file, and the calls of `ingest` under way. -/
structure CryptoWorld where
  st : CryptoSt := {}
  file : List UInt8 := []
  calls : List CryptoState.Ingest := []

/-- What can happen next: a call's plan, its next body, its commit, or a repair. -/
inductive CryptoAction where
  | ingest (at_ : Nat) (data : List UInt8)
  | write (i : Nat)
  | commit (i : Nat)
  | patch (at_ : Nat) (data : List UInt8)

namespace CryptoWorld

variable (cs : CryptoState)

/-- A call commits once its bodies are written; a repair waits for the calls under way. -/
def step (w : CryptoWorld) : CryptoAction → CryptoWorld
  | .ingest at_ data =>
    let (st, call) := cs.ingestPlan w.st at_ data
    { w with st, calls := w.calls ++ [call] }
  | .write i =>
    match w.calls[i]? with
    | none => w
    | some call =>
      let (file, call) := cs.ingestWrite w.file call
      { w with file, calls := w.calls.set i call }
  | .commit i =>
    match w.calls[i]? with
    | none => w
    | some call =>
      if call.todo = [] then
        let (st, file) := cs.ingestCommit w.st w.file call
        { st, file, calls := w.calls.eraseIdx i }
      else w
  | .patch at_ data =>
    if w.calls = [] then
      match cs.patch w.st w.file at_ data with
      | some (st, file) => { w with st, file }
      | none => w
    else w

def run (w : CryptoWorld) : List CryptoAction → CryptoWorld
  | [] => w
  | a :: actions => (w.step cs a).run actions

end CryptoWorld

end NzbFast.Extract
