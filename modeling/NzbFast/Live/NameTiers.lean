import NzbFast.Live.Matching
import NzbFast.Sync.Sections

/-!
# The life of a binding, one claim section at a time

Everything of `crates/nzbkit-base/src/live.rs`, `live/binding.rs`,
`live/nametier.rs` and `live/twintier.rs` that takes, defers or releases a claim.
A slot's lock keeps its fields from the other slots, and its programs
(`Sync.Prog`) stop only where they take the plan lock or the claim mutex, so
other slots' sections fall between a tier's reading and its re-check.

A thread between two sections holds the plan for reading, so another set
activates (`matcher`'s swap) only while every slot lock is down. What the
finish-time tiers read from a slot's bytes is any answer (`Evidence`). Left out:
the gate, the tallies and the partials, which no tier reads; block verdicts are
input (`Enters.verdicts`).
-/

namespace NzbFast.Live

open NzbFast.Rust NzbFast.Par2 Fold Sync

/-- `Plan`, with the population it adopted. -/
inductive Standing (h : Host) where
  | waiting
  | active (a : Adopted h)
  | off

def Standing.run {h : Host} (o : Adopted h → Adopted h) : Standing h → Standing h
  | .active a => .active (o a)
  | p => p

abbrev NamedSlot.Prog (h : Host) := Sync.Prog (Adopted h → Adopted h) (Standing h) (NamedSlot h)

/-! ## The head -/

namespace NamedSlot

variable {h : Host}

/-- `capture_head`: a window that moved drops what was concluded from the old one. -/
def captureHead (s : NamedSlot h) (offset : Nat) (data : List UInt8) : NamedSlot h :=
  let want := s.headWant
  if want = 0 ∨ want ≤ offset then s
  else
    let head := s.head.getD (Partial.new want)
    let moved := head.buf.length ≠ want
    let head := if head.buf.length < want then
        { head with buf := head.buf ++ List.replicate (want - head.buf.length) 0 }
      else if want < head.buf.length then head.truncate want
      else head
    let s := if moved then { s with headMd5 := none, headRivalRuledOut := false, unmatchable := none }
      else s
    if head.complete then { s with head := some head }
    else
      let stop := min (offset + data.length) want
      { s with head := some (if offset < stop then head.fill offset (data.take (stop - offset))
        else head) }

/-- The first name stays; a declared size is only ever corrected upwards. -/
def declare (s : NamedSlot h) (name : Text) (fileSize offset len : Nat) : NamedSlot h :=
  let seenEnd := min (offset + len) U64_MAX
  let size := if s.fileSize = 0 then fileSize else s.fileSize
  { s with
    name := s.name <|> (if name = [] then none else some name)
    fileSize := if size ≠ 0 ∧ size < seenEnd then seenEnd else size
    keys_of_name := by
      intro k hk
      obtain ⟨n, hn, rfl⟩ := s.keys_of_name k hk
      exact ⟨n, by rw [hn]; rfl, rfl⟩ }

/-- `SlotState::unbind`. -/
def unbind (s : NamedSlot h) : NamedSlot h :=
  { s with
    file := none
    confirmed := false
    headNominated := false
    blocks := []
    readbackForced := []
    liveOk := 0 }

/-! ## Sections -/

/-- The claim mutex is taken for `o`, and the rest goes on from what it found. -/
def onTable (s : NamedSlot h) (o : Adopted h → Adopted h) (k : Adopted h → Prog h) : Prog h :=
  .act s o fun
    | .active a => k a
    | _ => .free s

/-- The claim mutex is taken to read. -/
def look (s : NamedSlot h) (k : Adopted h → Prog h) : Prog h := s.onTable id k

/-- `try_match`, which holds the claim mutex throughout. -/
def tryMatchIn (s : NamedSlot h) (slot : Nat) (tentative : Bool) (k : Bool → NamedSlot h → Prog h) :
    Prog h :=
  s.onTable (fun a => (s.tryMatch a slot tentative).population) fun a =>
    let m := s.tryMatch a slot tentative
    k m.bound m.slot

/-- The re-check every later tier ends with: the claim is taken if nobody has it. -/
def takeIfFree (slot fi : Nat) (a : Adopted h) : Adopted h :=
  if a.free fi then a.setClaim fi (some slot) else a

/-- The slot's own claim goes back on the table. -/
def release (slot fi : Nat) (a : Adopted h) : Adopted h :=
  if a.holder fi = some slot then a.setClaim fi none else a

def forgetBinding (s : NamedSlot h) (slot : Nat) (k : NamedSlot h → Prog h) : Prog h :=
  match s.file with
  | some fi => if s.confirmed then k s.unbind else s.onTable (release slot fi) fun _ => k s.unbind
  | none => k s.unbind

/-! ## In the stream -/

/-- `rejudge_binding`: dropped only where the head denies it and names one other descriptor. -/
def rejudgeBinding (s : NamedSlot h) (slot : Nat) (k : NamedSlot h → Prog h) : Prog h :=
  match s.file with
  | none => k s
  | some fi =>
    if s.headRivalRuledOut then k s
    else
      match s.headKey with
      | none => k s
      | some key =>
        let s := s.cacheHead
        s.look fun a =>
          if (a.file fi).all fun f => headSays f s.headWant key ≠ .deny then k s
          else
            let rivals := positions (fun gi g =>
              gi ≠ fi && a.free gi && headSays g s.headWant key = .confirm) a.files
            if rivals.length = 1 then
              s.forgetBinding slot fun s => s.tryMatchIn slot true fun _ s => k s
            else k { s with headRivalRuledOut := rivals.length = 0 }

/-- `on_data_inner` as far as the binding goes. -/
def onData (s : NamedSlot h) (slot : Nat) (name : Text) (fileSize offset : Nat) (data : List UInt8) :
    Prog h :=
  let s := s.declare name fileSize offset data.length
  .act s id fun
    | .off => .free s
    | .waiting => .free (s.captureHead offset data)
    | .active a =>
      let s := s.captureHead offset data
      let rest (s : NamedSlot h) : Prog h :=
        if s.file.isNone && !s.refused a then s.tryMatchIn slot true fun _ s => .free s else .free s
      if s.file.isSome && !s.confirmed then s.rejudgeBinding slot rest else rest s

def promoteBinding (s : NamedSlot h) (slot : Nat) : Prog h :=
  s.look fun _ =>
    match s.file with
    | none => .free s
    | some fi =>
      if s.confirmed || s.liveOk = 0 then .free s
      else
        s.onTable (takeIfFree slot fi) fun a =>
          if a.free fi then .free { s with confirmed := true } else s.forgetBinding slot .free

end NamedSlot

/-! ## At finish -/

/-- What the finish-time tiers read from a slot's bytes. -/
structure Evidence where
  /-- `src_head_md5`: `none` where the source cannot serve that many bytes. -/
  headMd5 : Nat → Option (List UInt8)
  /-- `src_md5`: `none` where the source has another length. -/
  md5 : Nat → Option (List UInt8)
  /-- `ifsc_evidence` for a flat index. -/
  ifscEvidence : Nat → Bool
  /-- `ifsc_pairing` among candidates. -/
  ifscPairing : List Nat → Option Nat
  /-- Whether a block read back checks out. -/
  blockOk : Nat → Bool

namespace NamedSlot

variable {h : Host} (ev : Evidence)

def headNominationHolds (s : NamedSlot h) (f : Par2File) : Bool :=
  match s.blocks.findIdx? (· = .bad) with
  | none => true
  | some bad =>
    let after := s.blocks.drop (bad + 1)
    after.contains .ok || !after.contains .bad || ev.md5 f.length = some f.md5

def headIsShared (a : Adopted h) (fi want : Nat) (key : List UInt8) : Bool :=
  positions (fun gi g => gi ≠ fi && a.free gi && headSays g want key = .confirm) a.files ≠ []

/-- A name nomination's proof: a block, an unshared head, or the whole file; an unreadable head denies
nothing. -/
def nameProved (s : NamedSlot h) (fi : Nat) (f : Par2File) (k : Bool → Prog h) : Prog h :=
  let want := min f.length HEAD_LEN
  match (if want = 0 then none else ev.headMd5 want) with
  | none => k true
  | some head =>
    if ev.ifscEvidence fi then k true
    else if head = f.md5_16k then
      s.look fun a => k (!headIsShared a fi want head || ev.md5 f.length = some f.md5)
    else k (ev.md5 f.length = some f.md5)

def settleBinding (s : NamedSlot h) (slot : Nat) (a : Adopted h) (k : Bool → NamedSlot h → Prog h) :
    Prog h :=
  match s.file with
  | none => k false s
  | some fi =>
    if s.confirmed then k true s
    else
      match a.file fi with
      | none => .free s
      | some f =>
        if s.headNominated then
          if s.headNominationHolds ev f then
            -- ours is the claim that may be here
            s.onTable (fun a =>
              if (a.holder fi).any (· ≠ slot) then a else a.setClaim fi (some slot)) fun a =>
              if (a.holder fi).any (· ≠ slot) then k false s
              else k true { s with confirmed := true, headNominated := false }
          else k false s
        else
          s.nameProved ev fi f fun proved =>
            if proved then
              s.onTable (takeIfFree slot fi) fun a =>
                if a.free fi then k true { s with confirmed := true } else k false s
            else k false s

/-- A claim on the whole of the slot's bytes: the re-check, then a confirmed binding. -/
def takeWhole (s : NamedSlot h) (slot fi : Nat) (yes : NamedSlot h → Prog h) (no : Prog h) : Prog h :=
  s.onTable (takeIfFree slot fi) fun a =>
    if a.free fi then yes (s.bindTo a fi true s.headNominated) else no

/-- The whole-file tier's candidates in order; a rival's claim sends it on to the next. -/
def matchWholeAmong (s : NamedSlot h) (slot : Nat) (a : Adopted h) (k : NamedSlot h → Prog h)
    (no : Prog h) : List Nat → Prog h
  | [] => no
  | fi :: rest =>
    if (a.file fi).any fun f => ev.md5 f.length = some f.md5 then
      s.takeWhole slot fi k (matchWholeAmong s slot a k no rest)
    else matchWholeAmong s slot a k no rest

/-- `try_match_whole`: two or more unclaimed candidates, whole-file MD5 first and block evidence after. -/
def tryMatchWhole (s : NamedSlot h) (slot : Nat) (k : Bool → NamedSlot h → Prog h) : Prog h :=
  match s.completeHead with
  | none => k false s
  | some head =>
    s.look fun a =>
      let cands := positions (fun fi f => a.free fi && (min f.length HEAD_LEN = s.headWant &&
        f.md5_16k = h.md5 head)) a.files
      if cands.length < 2 then k false s
      else
        s.matchWholeAmong ev slot a (k true) (match ev.ifscPairing cands with
          | some fi => s.takeWhole slot fi (k true) (k false s)
          | none => k false s) cands

/-- The named tier's candidates: exact, else whatever either key finds. -/
def namedCandidates (a : Adopted h) (name : Text) : List Nat :=
  let keys := h.nameKeys name
  let folded := bucket a.byFold keys.1
  let exact := folded.filter fun fi => a.free fi && (a.file fi).any fun f => f.name.toList == name
  if exact ≠ [] then exact
  else (((folded ++ bucket a.bySanitized keys.2).filter a.free).mergeSort (· ≤ ·)).dedup

/-- Which of the named candidates the slot's bytes let it ask for. -/
def namedOrder (a : Adopted h) (cands : List Nat) : List Nat :=
  let span (fi : Nat) := (a.file fi).elim 0 fun f => min f.length HEAD_LEN
  let confirmed := cands.filter fun fi =>
    span fi ≠ 0 && (a.file fi).any fun f => ev.headMd5 (span fi) = some f.md5_16k
  let unreadable := cands.any fun fi => span fi ≠ 0 && (ev.headMd5 (span fi)).isNone
  if confirmed.length = 1 then confirmed
  else if 1 < confirmed.length then
    let keep := confirmed.filter fun fi =>
      (a.file fi).any fun f => ev.md5 f.length = some f.md5
    if keep.length = 1 then keep else []
  else if cands.length = 1 then
    if unreadable || cands.all ev.ifscEvidence then cands else []
  else []

def takeFirst (s : NamedSlot h) (slot : Nat) (k : Bool → NamedSlot h → Prog h) : List Nat → Prog h
  | [] => k false s
  | fi :: rest => s.takeWhole slot fi (k true) (takeFirst s slot k rest)

def tryMatchNamed (s : NamedSlot h) (slot : Nat) (k : Bool → NamedSlot h → Prog h) : Prog h :=
  match s.file, s.name with
  | none, some name =>
    s.look fun a => s.takeFirst slot k (namedOrder ev a (namedCandidates a name))
  | _, _ => k false s

def unclaimedHeadCandidates (s : NamedSlot h) (a : Adopted h) : Nat :=
  match s.headKey with
  | none => 0
  | some key =>
    (positions (fun fi f => a.free fi && (min f.length HEAD_LEN = s.headWant &&
      f.md5_16k = key)) a.files).length

/-- `try_match` at finish; a head nomination made here is settled here. -/
def matchAtFinish (s : NamedSlot h) (slot : Nat) (a : Adopted h) (k : Bool → NamedSlot h → Prog h) :
    Prog h :=
  s.tryMatchIn slot false fun bound s =>
    if bound && s.headNominated then
      s.settleBinding ev slot a fun kept s =>
        if kept then k true s else s.forgetBinding slot (k false)
    else k bound s

def lastChance (s : NamedSlot h) (slot : Nat) (a : Adopted h) (mayRematch : Bool) : Prog h :=
  s.look fun a₀ =>
    let seen := s.unclaimedHeadCandidates a₀
    let s := s.cacheHead
    let again (bound : Bool) (s : NamedSlot h) : Prog h :=
      if !bound && mayRematch then
        s.look fun a₁ =>
          if s.unclaimedHeadCandidates a₁ < seen then
            s.cacheHead.matchAtFinish ev slot a fun _ s => .free s
          else .free s.cacheHead
      else .free s
    let late (bound : Bool) (s : NamedSlot h) : Prog h :=
      if bound then again true s
      else
        s.tryMatchWhole ev slot fun bound s =>
          if bound then again true s else s.tryMatchNamed ev slot again
    if mayRematch then s.matchAtFinish ev slot a late else late false s

/-- The blocks a head nomination's forced read-back restores before it is settled. -/
def forcedReadback (s : NamedSlot h) (a : Adopted h) : NamedSlot h :=
  let want := s.readbackForced
  let s := { s with readbackForced := [] }
  let fi := s.file.getD 0
  if !s.confirmed && s.headNominated && s.file.isSome && !want.isEmpty &&
      (a.file fi).any (·.blocks ≠ []) && 0 < a.blockSize fi then
    { s with blocks :=
        want.foldl (fun bs bi => bs.set bi (if ev.blockOk bi then .ok else .bad)) s.blocks }
  else s

/-- `finish_slot_from` as far as the binding goes. -/
def finishSlot (s : NamedSlot h) (slot : Nat) : Prog h :=
  .act s id fun
    | .active a =>
      let headBound := s.file.isSome && !s.confirmed && s.headNominated
      let s := s.forcedReadback ev a
      let ladder (dropped : Bool) (s : NamedSlot h) : Prog h :=
        if s.file.isNone && !s.refused a then s.lastChance ev slot a (!(dropped && headBound))
        else .free s
      if s.file.isSome && !s.confirmed then
        s.settleBinding ev slot a fun kept s =>
          if kept then ladder false s else s.forgetBinding slot (ladder true)
      else ladder false s
    | _ => .free s

end NamedSlot

/-! ## The verifier's slots -/

/-- What takes a slot's lock. -/
inductive Judges {h : Host} (slot : Nat) : NamedSlot h → NamedSlot.Prog h → Prop
  | onData (name : Text) (fileSize offset : Nat) (data : List UInt8) (s : NamedSlot h) :
      Judges slot s (s.onData slot name fileSize offset data)
  | promote (s : NamedSlot h) : Judges slot s (s.promoteBinding slot)
  | finish (ev : Evidence) (s : NamedSlot h) : Judges slot s (s.finishSlot ev slot)
  /-- `set_name_hint`. -/
  | nameHint (name : Text) (s : NamedSlot h) : Judges slot s (.free (s.declare name s.fileSize 0 0))
  /-- Block verdicts recorded, or taken back for a read-back. -/
  | verdicts (blocks : List BlockState) (liveOk : Nat) (readbackForced : List Nat) (s : NamedSlot h) :
      Judges slot s (.free { s with blocks, liveOk, readbackForced })

/-- Recovery sets activate, or the plan is given up before any did. -/
inductive Standing.Changes {h : Host} : Standing h → Standing h → Prop
  | first (sets : List Par2Set) : Changes .waiting (.active (Adopted.new h sets))
  | afterOff (sets : List Par2Set) : Changes .off (.active (Adopted.new h sets))
  | extend (a : Adopted h) (sets : List Par2Set) : Changes (.active a) (.active (a.extended sets))
  | setOff : Changes .waiting .off

/-- Every slot of a verifier over one plan. -/
def matcher (h : Host) : Sync.System (Adopted h → Adopted h) (Standing h) (NamedSlot h) Nat where
  run := Standing.run
  enter slot := Judges slot
  swap := Standing.Changes

def matcherStart (h : Host) :
    Sync.World (Adopted h → Adopted h) (Standing h) (NamedSlot h) Nat := ⟨.waiting, fun _ => .free {}⟩

end NzbFast.Live
