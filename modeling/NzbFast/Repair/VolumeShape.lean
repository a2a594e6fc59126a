import NzbFast.Par2.Written
import NzbFast.Loop.Passes

/-!
# The shape a sweep deletes

`is_recovery_volume_shape` (`crates/nzbkit-base/src/par2repair/volshape.rs`): a walk from
header to header that resumes behind a hole. A file it answers for is packets and holes
(`PacketsAndHoles`), whichever reads fail; a volume overwritten with zeros from some offset
on is answered for as long as the packet cut there still declares a length (`Stands`).

An offset past the last word lies behind every file, so sums are not checked again here.
-/

namespace NzbFast.Repair

open Par2 (slice fromLe MAGIC findMagic slice_append length_slice)
open List hiding not_le not_lt

/-! ## The walk -/

def SNIFF_WINDOW : Nat := 64

def HEADER : Nat := 64

def MAX_PACKETS : Nat := 2 ^ 20

def MAX_HOLES : Nat := 2 ^ 16

/-- The buffer the two searches read into. -/
def BUF : Nat := 2 ^ 20

def chunkLen (remaining cap : Nat) : Nat := min remaining cap

def packetFileHeadOffset (head : List UInt8) : Option Nat :=
  findMagic (head.take (SNIFF_WINDOW + 8))

structure Walk where
  off : Nat
  packets : Nat
  holes : Nat
  longest : Nat
  deriving DecidableEq

/-- The packet `len` bytes long at the walk's offset, stepped over. -/
def Walk.step (w : Walk) (len : Nat) : Walk :=
  { w with off := w.off + len, packets := w.packets + 1, longest := max w.longest len }

/-- How the chain of packets ends: with an answer, or where it breaks off. -/
inductive Chain where
  | answer (b : Bool)
  | broken (w : Walk)
  deriving DecidableEq

section

variable (content : List UInt8) (fails : Nat → Nat → Bool)

def chainPass (w : Walk) : Loop.Pass Walk Chain :=
  if MAX_PACKETS ≤ w.packets then .leave (.answer false)
  else if content.length - w.off < HEADER then .leave (.broken w)
  else
    match Par2.readExactAt content fails w.off 16 with
    | none => .leave (.answer false)
    | some head =>
      let len := fromLe (slice head 8 16)
      if head.take 8 ≠ MAGIC ∨ len < HEADER ∨ len % 4 ≠ 0 ∨ content.length < w.off + len then
        .leave (.broken w)
      else if w.off + len = content.length then .leave (.answer true)
      else .again (w.step len)

def firstNonzeroPass (off : Nat) : Loop.Pass Nat (Option Nat) :=
  if off < content.length then
    let want := chunkLen (content.length - off) BUF
    match Par2.readExactAt content fails off want with
    | none => .leave (some off)
    | some buf =>
      match buf.findIdx? (· ≠ 0) with
      | some i => .leave (some (off + i))
      | none => .again (off + want)
  else .leave none

def nextMagicPass (last off : Nat) : Loop.Pass Nat (Option Nat) :=
  if off ≤ last then
    -- a match may start at `last` and needs its eight bytes
    let want := chunkLen (min (last - off + 8) (content.length - off)) BUF
    if want < 8 then .leave none
    else
      match Par2.readExactAt content fails off want with
      | none => .leave none
      | some buf =>
        match (findMagic buf).filter (off + · ≤ last) with
        | some i => .leave (some (off + i))
        | none => .again (off + (want - 7))
  else .leave none

def firstNonzero (fuel off : Nat) : Option (Option Nat) :=
  Loop.run (firstNonzeroPass content fails) fuel off

def nextMagicIn (fuel off last : Nat) : Option (Option Nat) :=
  Loop.run (nextMagicPass content fails last) fuel off

/-- One chain of packets and the hole behind it; nothing where a loop inside runs out of fuel. -/
def holePass (fuel : Nat) (w : Walk) : Loop.Pass Walk (Option Bool) :=
  match Loop.run (chainPass content fails) fuel w with
  | none => .leave none
  | some (.answer b) => .leave (some b)
  | some (.broken w) =>
    if w.packets = 0 then .leave (some false)
    else
      match firstNonzero content fails fuel w.off with
      | none => .leave none
      | some none => .leave (some true)
      | some (some nz) =>
        -- delivered bytes with no hole in front of them
        if nz = w.off then .leave (some false)
        else if MAX_HOLES < w.holes + 1 then .leave (some false)
        else
          match nextMagicIn content fails fuel nz (min content.length (nz + w.longest)) with
          | none => .leave none
          | some none => .leave (some false)
          | some (some m) => .again { w with off := m, holes := w.holes + 1 }

def isRecoveryVolumeShape (fuel : Nat) : Option Bool :=
  match Par2.readExactAt content fails 0 (chunkLen content.length (SNIFF_WINDOW + 8)) with
  | none => some false
  | some window =>
    match packetFileHeadOffset window with
    | none => some false
    | some start => (Loop.run (holePass content fails fuel) fuel ⟨start, 0, 0, 0⟩).join

end

/-! ## Packets and holes -/

/-- A structurally framed packet. -/
structure IsPacket (p : List UInt8) : Prop where
  magic : p.take 8 = MAGIC
  declared : fromLe (slice p 8 16) = p.length
  header : HEADER ≤ p.length
  word : p.length % 4 = 0

/-- The bytes walked up to the end of a packet, the longest so far `longest` bytes long. -/
inductive Walked : List UInt8 → Nat → Prop
  | first {pre p : List UInt8} (hpre : pre.length ≤ SNIFF_WINDOW) (hp : IsPacket p) :
      Walked (pre ++ p) p.length
  | packet {walked p : List UInt8} {longest : Nat} (h : Walked walked longest) (hp : IsPacket p) :
      Walked (walked ++ p) (max longest p.length)
  | resumed {walked hole span p : List UInt8} {longest : Nat} (h : Walked walked longest)
      (hne : hole ≠ []) (hzero : ∀ b ∈ hole, b = 0) (hspan : span.length ≤ longest)
      (hp : IsPacket p) : Walked (walked ++ (hole ++ span) ++ p) (max longest p.length)

/-- The file is what was walked, and at most a hole behind it. -/
def PacketsAndHoles (content : List UInt8) : Prop :=
  ∃ walked longest hole, Walked walked longest ∧ (∀ b ∈ hole, b = 0) ∧ content = walked ++ hole

/-! ## What is read -/

variable {content : List UInt8} {fails : Nat → Nat → Bool} {fuel : Nat}

theorem readExactAt_some {off len : Nat} {bytes : List UInt8}
    (h : Par2.readExactAt content fails off len = some bytes) :
    len ≤ content.length - off ∧ bytes = slice content off (off + len) := by
  unfold Par2.readExactAt at h
  split at h
  · cases h
  · rename_i hok
    exact ⟨by omega, (Option.some.inj h).symm⟩

theorem readExactAt_ok {off len : Nat} (h : len ≤ content.length - off) :
    Par2.readExactAt content (fun _ _ => false) off len = some (slice content off (off + len)) :=
  if_neg (by simp; omega)

theorem take_append_slice {a b : Nat} (h : a ≤ b) :
    content.take a ++ slice content a b = content.take b := by
  have hsplit : slice content 0 b = _ := slice_append (Nat.zero_le a) h
  simpa [slice] using hsplit.symm

theorem chainPass_cases (content : List UInt8) (fails : Nat → Nat → Bool) (w : Walk) :
    (chainPass content fails w = .leave (.answer false) ∧
      (MAX_PACKETS ≤ w.packets ∨ ∃ o l, fails o l = true)) ∨
    chainPass content fails w = .leave (.broken w) ∨
    ∃ p, IsPacket p ∧ content.take w.off ++ p = content.take (w.off + p.length) ∧
      w.off + p.length ≤ content.length ∧
      chainPass content fails w =
        if w.off + p.length = content.length then .leave (.answer true)
        else .again (w.step p.length) := by
  unfold chainPass
  split
  · rename_i hmax
    exact .inl ⟨rfl, .inl hmax⟩
  split
  · exact .inr (.inl rfl)
  cases hread : Par2.readExactAt content fails w.off 16 with
  | none =>
    refine .inl ⟨rfl, .inr ⟨w.off, 16, ?_⟩⟩
    have : HEADER = 64 := rfl
    unfold Par2.readExactAt at hread
    split at hread
    · rename_i hfails
      exact hfails.resolve_right (by omega)
    · cases hread
  | some head =>
    obtain ⟨-, rfl⟩ := readExactAt_some hread
    dsimp only
    split
    · exact .inr (.inl rfl)
    rename_i hframed
    simp only [not_or, not_not, not_lt] at hframed
    obtain ⟨hmagic, hheader, hword, hfit⟩ := hframed
    set len := fromLe (slice (slice content w.off (w.off + 16)) 8 16) with hlen
    have hplen : (slice content w.off (w.off + len)).length = len := by
      rw [length_slice hfit]; omega
    have hhead : ∀ a b, b ≤ 16 → slice (slice content w.off (w.off + len)) a b =
        slice (slice content w.off (w.off + 16)) a b := fun a b hb => by
      have : HEADER = 64 := rfl
      rw [Par2.slice_slice (by omega), Par2.slice_slice (by omega)]
    refine .inr (.inr ⟨slice content w.off (w.off + len), ⟨?_, ?_, ?_, ?_⟩, ?_, ?_, ?_⟩)
    · exact (hhead 0 8 (by omega)).trans hmagic
    · rw [hplen, hhead 8 16 le_rfl]
    · rwa [hplen]
    · rwa [hplen]
    · rw [hplen, take_append_slice (by omega)]
    · rwa [hplen]
    · rw [hplen]

/-- The search for the end of a hole ends, behind zeros. -/
theorem firstNonzero_spec (content : List UInt8) (fails : Nat → Nat → Bool) (off : Nat)
    (hfuel : content.length < fuel) :
    ∃ r, firstNonzero content fails fuel off = some r ∧
      (r = none → ∀ b ∈ content.drop off, b = 0) ∧
      ∀ nz ∈ r, off ≤ nz ∧ nz < content.length ∧ (∀ b ∈ slice content off nz, b = 0) ∧
        ((∀ o l, fails o l = false) → ∃ b ∈ content[nz]?, b ≠ 0) := by
  refine Loop.run_total (I := fun x => off ≤ x ∧ ∀ b ∈ slice content off x, b = 0)
    (μ := fun x => content.length - x) ?_ ?_ ⟨le_rfl, by simp [slice]⟩ (by omega)
  · rintro x y ⟨hle, hzero⟩ hpass
    unfold firstNonzeroPass at hpass
    split at hpass
    case isFalse => cases hpass
    dsimp only at hpass
    split at hpass
    · cases hpass
    rename_i buf hread
    split at hpass
    · cases hpass
    rename_i hnone
    cases hpass
    obtain ⟨hlen, rfl⟩ := readExactAt_some hread
    have hbuf : 0 < BUF := by decide
    refine ⟨⟨by omega, ?_⟩, ?_⟩
    · rw [slice_append hle (Nat.le_add_right ..)]
      exact forall_mem_append.mpr ⟨hzero, by simpa using hnone⟩
    · simp only [chunkLen]
      omega
  · rintro x r ⟨hle, hzero⟩ hpass
    unfold firstNonzeroPass at hpass
    split at hpass
    case isFalse hge =>
      cases hpass
      refine ⟨fun _ b hb => hzero b ?_, by simp⟩
      rwa [slice, take_of_length_le (by omega)]
    rename_i hlt
    dsimp only at hpass
    split at hpass
    · rename_i hread
      cases hpass
      refine ⟨by simp, fun nz hnz => ?_⟩
      cases hnz
      refine ⟨hle, hlt, hzero, fun hok => ?_⟩
      rw [Par2.readExactAt, if_neg (by simp [hok, chunkLen])] at hread
      cases hread
    rename_i buf hread
    split at hpass
    case h_2 => cases hpass
    rename_i i hi
    cases hpass
    obtain ⟨hlen, rfl⟩ := readExactAt_some hread
    obtain ⟨hilt, hib, hbefore⟩ := findIdx?_eq_some_iff_getElem.mp hi
    rw [length_slice (by omega)] at hilt
    refine ⟨by simp, fun nz hnz => ?_⟩
    cases hnz
    refine ⟨by omega, by omega, fun b hb => ?_, fun _ => ?_⟩
    · rw [slice_append hle (Nat.le_add_right ..), mem_append] at hb
      refine hb.elim (hzero b) fun hb => ?_
      obtain ⟨j, hj, rfl⟩ := getElem_of_mem hb
      rw [length_slice (by omega)] at hj
      have := hbefore j (by omega)
      simp [slice] at this ⊢
      exact this
    · refine ⟨content[x + i], by simp, ?_⟩
      simpa [slice] using hib

/-- A delivered byte ends the search at once. -/
theorem firstNonzero_delivered {off : Nat} {b : UInt8} (hfuel : content.length < fuel)
    (hb : content[off]? = some b) (hne : b ≠ 0) :
    firstNonzero content fails fuel off = some (some off) := by
  obtain ⟨r, hr, hnone, hsome⟩ := firstNonzero_spec content fails off hfuel
  cases r with
  | none =>
    refine absurd (hnone rfl b (mem_of_getElem? (i := 0) ?_)) hne
    rwa [getElem?_drop]
  | some nz =>
    obtain ⟨hle, -, hzero, -⟩ := hsome nz rfl
    rcases hle.eq_or_lt with rfl | hlt
    · exact hr
    refine absurd (hzero b (mem_of_getElem? (i := 0) ?_)) hne
    rwa [slice, getElem?_drop, add_zero, getElem?_take_of_lt hlt]

theorem getElem?_of_magic {off : Nat} (h : slice content off (off + 8) = MAGIC) :
    content[off]? = some 80 := by
  have hhead := congrArg (·[0]?) h
  rw [show MAGIC[0]? = some 80 from rfl] at hhead
  simpa [slice, getElem?_drop, getElem?_take_of_lt] using hhead

theorem nextMagicIn_spec (content : List UInt8) (fails : Nat → Nat → Bool) (off last : Nat)
    (hfuel : content.length < fuel) :
    ∃ r, nextMagicIn content fails fuel off last = some r ∧
      ∀ m ∈ r, off ≤ m ∧ m ≤ last ∧ slice content m (m + 8) = MAGIC := by
  refine Loop.run_total (I := fun x => off ≤ x) (μ := fun x => content.length - x) ?_ ?_ le_rfl
    (by omega)
  · intro x y hle hpass
    unfold nextMagicPass at hpass
    split at hpass
    case isFalse => cases hpass
    dsimp only at hpass
    split at hpass
    · cases hpass
    rename_i hwant
    split at hpass
    · cases hpass
    split at hpass
    · cases hpass
    cases hpass
    simp only [chunkLen] at hwant ⊢
    omega
  · intro x r hle hpass
    unfold nextMagicPass at hpass
    split at hpass
    case isFalse => cases hpass; simp
    dsimp only at hpass
    split at hpass
    · cases hpass; simp
    split at hpass
    · cases hpass; simp
    rename_i buf hread
    split at hpass
    case h_2 => cases hpass
    rename_i i hi
    cases hpass
    set want := chunkLen (min (last - x + 8) (content.length - x)) BUF
    obtain ⟨hlen, rfl⟩ := readExactAt_some hread
    obtain ⟨hfound, hlast⟩ := Option.filter_eq_some_iff.mp hi
    intro m hm
    cases hm
    refine ⟨by omega, by simpa using hlast, ?_⟩
    have hmagic := Par2.findMagic_take hfound
    have hi8 : i + 8 ≤ (slice content x (x + want)).length := by
      have := congrArg length hmagic
      rw [length_take, length_drop, Par2.length_MAGIC] at this
      omega
    rw [length_slice (by omega)] at hi8
    rw [add_assoc, ← Par2.slice_slice (b := x + want) (by omega), slice, drop_take,
      Nat.add_sub_cancel_left, hmagic]

/-! ## What is swept -/

/-- A walk on its way: a packet at its offset would be walked next. -/
structure Walk.Inv (content : List UInt8) (w : Walk) : Prop where
  bounded : w.off ≤ content.length
  ready : ∀ p, IsPacket p → Walked (content.take w.off ++ p) (max w.longest p.length)
  stands : w.packets = 0 ∨ Walked (content.take w.off) w.longest ∨
    slice content w.off (w.off + 8) = MAGIC

theorem Walk.Inv.step {w : Walk} {p : List UInt8} (h : w.Inv content) (hp : IsPacket p)
    (htake : content.take w.off ++ p = content.take (w.off + p.length))
    (hfit : w.off + p.length ≤ content.length) : (w.step p.length).Inv content := by
  have hwalked := htake ▸ h.ready p hp
  exact ⟨hfit, fun q hq => hwalked.packet hq, .inr (.inl hwalked)⟩

def ChainLeft (content : List UInt8) (start : Nat) : Chain → Prop
  | .answer b => b = true → PacketsAndHoles content
  | .broken w => w.Inv content ∧ start ≤ w.off

/-- A chain ends, and answers for packets only. -/
theorem chain_left (fails : Nat → Nat → Bool) {w : Walk} (hw : w.Inv content)
    (hfuel : content.length < fuel) :
    ∃ c, Loop.run (chainPass content fails) fuel w = some c ∧ ChainLeft content w.off c := by
  refine Loop.run_total (I := fun v => v.Inv content ∧ w.off ≤ v.off)
    (μ := fun v => content.length - v.off) ?_ ?_ ⟨hw, le_rfl⟩ (by omega)
  · rintro v v' ⟨hv, hle⟩ hpass
    rcases chainPass_cases content fails v with ⟨h, -⟩ | h | ⟨p, hp, htake, hfit, h⟩
    · rw [h] at hpass; cases hpass
    · rw [h] at hpass; cases hpass
    · rw [h] at hpass
      split at hpass <;> cases hpass
      have := hp.header
      have : HEADER = 64 := rfl
      refine ⟨⟨hv.step hp htake hfit, ?_⟩, ?_⟩ <;> simp only [Walk.step] <;> omega
  · rintro v c ⟨hv, hle⟩ hpass
    rcases chainPass_cases content fails v with ⟨h, -⟩ | h | ⟨p, hp, htake, hfit, h⟩
    · rw [h] at hpass; cases hpass; simp [ChainLeft]
    · rw [h] at hpass; cases hpass; exact ⟨hv, hle⟩
    · rw [h] at hpass
      split at hpass <;> cases hpass
      rename_i heof
      have hwalked := hv.ready p hp
      rw [htake, heof, take_length] at hwalked
      exact fun _ => ⟨content, _, [], hwalked, by simp, by simp⟩

/-- The walk goes on behind a hole, or answers for packets and holes only. -/
theorem holePass_spec (fails : Nat → Nat → Bool) {w : Walk} (hw : w.Inv content)
    (hfuel : content.length < fuel) :
    (∃ w', holePass content fails fuel w = .again w' ∧ w'.Inv content ∧
      content.length - w'.off < content.length - w.off) ∨
    ∃ b, holePass content fails fuel w = .leave (some b) ∧
      (b = true → PacketsAndHoles content) := by
  obtain ⟨c, hrun, hc⟩ := chain_left fails hw hfuel
  unfold holePass
  simp only [hrun]
  cases c with
  | answer b => exact .inr ⟨b, rfl, hc⟩
  | broken v =>
    obtain ⟨hv, hle⟩ := hc
    dsimp only
    split
    · exact .inr ⟨false, rfl, by simp⟩
    rename_i hpackets
    rcases hv.stands with h | hwalked | hmagic
    · exact absurd h hpackets
    case inr.inr =>
      rw [firstNonzero_delivered hfuel (getElem?_of_magic hmagic) (by decide)]
      exact .inr ⟨false, by simp, by simp⟩
    obtain ⟨r, hnz, hnone, hsome⟩ := firstNonzero_spec content fails v.off hfuel
    simp only [hnz]
    cases r with
    | none =>
      refine .inr ⟨true, rfl, fun _ => ⟨_, _, _, hwalked, hnone rfl, ?_⟩⟩
      exact (take_append_drop ..).symm
    | some nz =>
      obtain ⟨hnzle, hnzlt, hzero, -⟩ := hsome nz rfl
      dsimp only
      split
      · exact .inr ⟨false, rfl, by simp⟩
      split
      · exact .inr ⟨false, rfl, by simp⟩
      obtain ⟨r, hm, hfound⟩ :=
        nextMagicIn_spec content fails nz (min content.length (nz + v.longest)) hfuel
      simp only [hm]
      cases r with
      | none => exact .inr ⟨false, rfl, by simp⟩
      | some m =>
        obtain ⟨hml, hmr, hmagic⟩ := hfound m rfl
        have hmlen : m ≤ content.length := by omega
        have hready : ∀ p, IsPacket p → Walked (content.take m ++ p) (max v.longest p.length) := by
          intro p hp
          rw [← take_append_slice (hnzle.trans hml), slice_append hnzle hml]
          refine hwalked.resumed (fun hnil => ?_) hzero ?_ hp
          · have := congrArg length hnil
            rw [length_slice hnzlt.le, length_nil] at this
            omega
          · rw [length_slice hmlen]
            omega
        exact .inl ⟨_, rfl, ⟨hmlen, hready, .inr (.inr hmagic)⟩, by simp only; omega⟩

theorem walk_sound (fails : Nat → Nat → Bool) {w : Walk} (hw : w.Inv content)
    (hfuel : content.length < fuel) :
    ∃ r, Loop.run (holePass content fails fuel) fuel w = some r ∧
      ∃ b, r = some b ∧ (b = true → PacketsAndHoles content) := by
  refine Loop.run_total (I := Walk.Inv content) (μ := fun w => content.length - w.off) ?_ ?_ hw
    (by omega)
  · intro v v' hv hpass
    rcases holePass_spec fails hv hfuel with ⟨u, h, hu, hlt⟩ | ⟨b, h, -⟩
    · rw [h] at hpass; cases hpass; exact ⟨hu, hlt⟩
    · rw [h] at hpass; cases hpass
  · intro v r hv hpass
    rcases holePass_spec fails hv hfuel with ⟨u, h, -⟩ | ⟨b, h, hb⟩
    · rw [h] at hpass; cases hpass
    · rw [h] at hpass; cases hpass; exact ⟨b, rfl, hb⟩

theorem packetFileHeadOffset_spec {off : Nat} {bytes : List UInt8}
    (h : packetFileHeadOffset bytes = some off) : off ≤ SNIFF_WINDOW ∧ off + 8 ≤ bytes.length := by
  have hmagic := congrArg length (Par2.findMagic_take h)
  rw [length_take, length_drop, length_take, Par2.length_MAGIC] at hmagic
  omega

theorem isRecoveryVolumeShape_sound (hfuel : content.length < fuel) :
    ∃ b, isRecoveryVolumeShape content fails fuel = some b ∧
      (b = true → PacketsAndHoles content) := by
  unfold isRecoveryVolumeShape
  split
  · exact ⟨false, rfl, by simp⟩
  rename_i window hread
  split
  · exact ⟨false, rfl, by simp⟩
  rename_i start hstart
  obtain ⟨hlen, rfl⟩ := readExactAt_some hread
  obtain ⟨hsniff, hroom⟩ := packetFileHeadOffset_spec hstart
  rw [length_slice (by omega)] at hroom
  have hinv : Walk.Inv content ⟨start, 0, 0, 0⟩ := by
    refine ⟨by simp only; omega, fun p hp => ?_, .inl rfl⟩
    have hpre : (content.take start).length ≤ SNIFF_WINDOW := by simp; omega
    simpa using Walked.first hpre hp
  obtain ⟨r, hr, b, rfl, hb⟩ := walk_sound fails hinv hfuel
  exact ⟨b, by rw [hr, Option.join_some], hb⟩

/-! ## What a volume cut short answers -/

section

variable {w : Walk} {pre p post : List UInt8}

theorem slice_after (pre post : List UInt8) (n : Nat) :
    slice (pre ++ post) pre.length (pre.length + n) = post.take n := by
  rw [slice, take_length_add_append, drop_left]

theorem chainPass_packet (hoff : w.off = pre.length) (hp : IsPacket p)
    (hmax : w.packets < MAX_PACKETS) :
    chainPass (pre ++ (p ++ post)) (fun _ _ => false) w =
      if post = [] then .leave (.answer true) else .again (w.step p.length) := by
  have hheader := hp.header
  have hH : HEADER = 64 := rfl
  have hread := slice_after pre (p ++ post) 16
  rw [take_append_of_le_length (by omega)] at hread
  have hlen : fromLe (slice (p.take 16) 8 16) = p.length := by
    rw [Par2.slice_take le_rfl, hp.declared]
  have hmagic : (p.take 16).take 8 = MAGIC := by rw [take_take]; exact hp.magic
  unfold chainPass
  rw [if_neg (by omega), if_neg (by simp [hoff]; omega),
    readExactAt_ok (by simp [hoff]; omega), hoff, hread]
  dsimp only
  rw [hlen, if_neg (by simp [hmagic, hp.word]; omega)]
  simp [← length_eq_zero_iff]

theorem chainPass_broken (hoff : w.off = pre.length) (hmax : w.packets < MAX_PACKETS)
    (hstop : ∀ p rest, IsPacket p → post ≠ p ++ rest) :
    chainPass (pre ++ post) (fun _ _ => false) w = .leave (.broken w) := by
  rcases chainPass_cases (pre ++ post) (fun _ _ => false) w with
    ⟨-, h⟩ | h | ⟨p, hp, htake, -, -⟩
  · simp at h; omega
  · exact h
  · rw [hoff, take_left, take_length_add_append, append_cancel_left_eq] at htake
    refine absurd (take_append_drop p.length post).symm ?_
    rw [← htake]
    exact hstop p _ hp

end

/-- What a chain of packets leaves once every read succeeds. -/
structure ChainReads (packets : List (List UInt8)) (tail : List UInt8) (c : Chain) : Prop where
  answer : ∀ b, c = .answer b → (b = true ↔ tail = [] ∧ packets.length ≤ MAX_PACKETS) ∧
    (tail = [] ∨ MAX_PACKETS ≤ packets.length)
  broken : ∀ w, c = .broken w → w.off = packets.flatten.length ∧ w.packets = packets.length ∧
    packets.length < MAX_PACKETS ∧ tail ≠ []

theorem chain_reads {packets : List (List UInt8)} {tail : List UInt8} (hne : packets ≠ [])
    (hpackets : ∀ p ∈ packets, IsPacket p) (hstop : ∀ p rest, IsPacket p → tail ≠ p ++ rest)
    (hfuel : (packets.flatten ++ tail).length < fuel) :
    ∃ c, Loop.run (chainPass (packets.flatten ++ tail) fun _ _ => false) fuel ⟨0, 0, 0, 0⟩ =
      some c ∧ ChainReads packets tail c := by
  have hnil : ∀ p ∈ packets, p ≠ [] := fun p hp hnil => by
    have := (hpackets p hp).header
    rw [hnil] at this
    exact absurd this (by decide)
  have hnext (done : List (List UInt8)) (p : List UInt8) (todo : List (List UInt8)) :
      (done ++ p :: todo).flatten ++ tail = done.flatten ++ (p ++ (todo.flatten ++ tail)) := by simp
  -- the packets walked and those still ahead
  refine Loop.run_total (μ := fun w => (packets.flatten ++ tail).length - w.off)
    (I := fun w => ∃ done todo, packets = done ++ todo ∧ w.off = done.flatten.length ∧
      w.packets = done.length ∧ done.length ≤ MAX_PACKETS ∧ (todo ≠ [] ∨ tail ≠ []))
    ?_ ?_ ⟨[], packets, rfl, rfl, rfl, by simp, .inl hne⟩ (by omega)
  · rintro w w' ⟨done, todo, rfl, hoff, hcount, hle, hahead⟩ hpass
    have hmax : w.packets < MAX_PACKETS := by
      by_contra hge
      rw [chainPass, if_pos (by omega)] at hpass
      cases hpass
    cases todo with
    | nil =>
      rw [append_nil, chainPass_broken hoff hmax hstop] at hpass
      cases hpass
    | cons p todo =>
      have hp := hpackets p (by simp)
      have hpos := length_pos_of_ne_nil (hnil p (by simp))
      rw [hnext done p todo, chainPass_packet hoff hp hmax] at hpass
      split at hpass <;> cases hpass
      rename_i hpost
      refine ⟨⟨done ++ [p], todo, by simp, by simp [Walk.step, hoff], by simp [Walk.step, hcount],
        by simp; omega, ?_⟩, by simp [Walk.step, hoff]; omega⟩
      by_contra hend
      simp only [not_or, not_not] at hend
      exact hpost (by simp [hend])
  · rintro w c ⟨done, todo, rfl, hoff, hcount, hle, hahead⟩ hpass
    by_cases hmax : MAX_PACKETS ≤ w.packets
    · rw [chainPass, if_pos hmax] at hpass
      cases hpass
      refine ⟨fun b hb => ?_, by simp⟩
      cases hb
      have hlong : tail = [] → MAX_PACKETS < (done ++ todo).length := fun htail => by
        have := length_pos_of_ne_nil (hahead.resolve_right (by simp [htail]))
        simp
        omega
      refine ⟨⟨by simp, fun ⟨htail, hlen⟩ => ?_⟩, .inr (by simp; omega)⟩
      exact absurd hlen (not_le.mpr (hlong htail))
    rw [not_le] at hmax
    cases todo with
    | nil =>
      rw [append_nil, chainPass_broken hoff hmax hstop] at hpass
      cases hpass
      refine ⟨by simp, fun v hv => ?_⟩
      cases hv
      exact ⟨by simpa using hoff, by simpa using hcount, by simp; omega, by simpa using hahead⟩
    | cons p todo =>
      have hp := hpackets p (by simp)
      rw [hnext done p todo, chainPass_packet hoff hp hmax] at hpass
      split at hpass <;> cases hpass
      rename_i hpost
      obtain ⟨htodo, rfl⟩ := append_eq_nil_iff.mp hpost
      have htodo : todo = [] := by
        refine eq_nil_iff_forall_not_mem.mpr fun q hq => hnil q (by simp [hq]) ?_
        exact flatten_eq_nil_iff.mp htodo q hq
      subst htodo
      refine ⟨fun b hb => ?_, by simp⟩
      cases hb
      exact ⟨by simp; omega, .inl rfl⟩

theorem findMagic_head {bs : List UInt8} (h : bs.take 8 = MAGIC) : findMagic bs = some 0 := by
  cases bs with
  | nil => exact absurd h (by decide)
  | cons b bs => rw [findMagic, if_pos h]

/-- What the walk answers for packets with something else behind them: a hole or delivered bytes. -/
theorem isRecoveryVolumeShape_packets (packets : List (List UInt8)) (tail : List UInt8)
    (hne : packets ≠ []) (hpackets : ∀ p ∈ packets, IsPacket p)
    (hstop : ∀ p rest, IsPacket p → tail ≠ p ++ rest)
    (htail : (∀ b ∈ tail, b = 0) ∨ ∃ b ∈ tail.head?, b ≠ 0)
    (hfuel : (packets.flatten ++ tail).length < fuel) :
    ∃ b, isRecoveryVolumeShape (packets.flatten ++ tail) (fun _ _ => false) fuel = some b ∧
      (b = true ↔ (tail = [] ∧ packets.length ≤ MAX_PACKETS) ∨
        packets.length < MAX_PACKETS ∧ ∀ b ∈ tail, b = 0) := by
  set content := packets.flatten ++ tail with hcontent
  have hhead : content.take 8 = MAGIC ∧ 64 ≤ content.length := by
    obtain ⟨p, rest, rfl⟩ := exists_cons_of_ne_nil hne
    have hp := hpackets p (by simp)
    have hheader := hp.header
    have hH : HEADER = 64 := rfl
    rw [hcontent, flatten_cons, append_assoc, take_append_of_le_length (by omega)]
    exact ⟨hp.magic, by simp; omega⟩
  have hwindow : packetFileHeadOffset
      (slice content 0 (0 + chunkLen content.length (SNIFF_WINDOW + 8))) = some 0 := by
    rw [packetFileHeadOffset, slice, drop_zero, take_take]
    refine findMagic_head ?_
    rw [take_take, min_eq_left (by simp [SNIFF_WINDOW, chunkLen]; omega), hhead.1]
  have hpass : ∃ b, holePass content (fun _ _ => false) fuel ⟨0, 0, 0, 0⟩ = .leave (some b) ∧
      (b = true ↔ (tail = [] ∧ packets.length ≤ MAX_PACKETS) ∨
        packets.length < MAX_PACKETS ∧ ∀ b ∈ tail, b = 0) := by
    obtain ⟨c, hrun, hc⟩ := chain_reads hne hpackets hstop hfuel
    rw [← hcontent] at hrun
    unfold holePass
    simp only [hrun]
    cases c with
    | answer b =>
      obtain ⟨hb, hlong⟩ := hc.answer b rfl
      refine ⟨b, rfl, hb.trans ⟨.inl, ?_⟩⟩
      rintro (h | ⟨hlt, -⟩)
      · exact h
      · exact ⟨hlong.resolve_right (by omega), hlt.le⟩
    | broken w =>
      obtain ⟨hoff, hcount, hlt, hnil⟩ := hc.broken w rfl
      have hpos := length_pos_of_ne_nil hne
      dsimp only
      rw [if_neg (by omega)]
      obtain ⟨r, hnz, hnone, hsome⟩ :=
        firstNonzero_spec content (fun _ _ => false) w.off hfuel
      rcases htail with hzero | ⟨b, hb, hb0⟩
      · cases r with
        | none => exact ⟨true, by rw [hnz], by simp [hlt]; exact .inr hzero⟩
        | some nz =>
          obtain ⟨hle, -, -, hbyte⟩ := hsome nz rfl
          obtain ⟨b, hb, hb0⟩ := hbyte fun _ _ => rfl
          rw [hcontent, getElem?_append_right (by omega)] at hb
          exact absurd (hzero b (mem_of_getElem? hb)) hb0
      · rw [firstNonzero_delivered hfuel (b := b) ?_ hb0]
        · refine ⟨false, by simp, by simp [hnil]; exact fun _ => ⟨b, mem_of_mem_head? hb, hb0⟩⟩
        · rw [hoff, hcontent, getElem?_append_right le_rfl]
          simpa [head?_eq_getElem?] using hb
  obtain ⟨b, hpass, hb⟩ := hpass
  refine ⟨b, ?_, hb⟩
  obtain ⟨fuel, rfl⟩ := Nat.exists_eq_succ_of_ne_zero (by omega : fuel ≠ 0)
  unfold isRecoveryVolumeShape
  rw [readExactAt_ok (by simp [chunkLen])]
  dsimp only
  rw [hwindow]
  simp only [Loop.run_leave hpass, Option.join_some]

/-! ## A volume overwritten with zeros -/

/-- The bytes from `c` on overwritten with zeros. -/
def overwritten (bytes : List UInt8) (c : Nat) : List UInt8 :=
  bytes.take c ++ List.replicate (bytes.length - c) 0

/-- The packets that end by `c`, and those behind them. -/
def cutPackets : Nat → List (List UInt8) → List (List UInt8) × List (List UInt8)
  | _, [] => ([], [])
  | c, p :: ps =>
    if p.length ≤ c then (p :: (cutPackets (c - p.length) ps).1, (cutPackets (c - p.length) ps).2)
    else ([], p :: ps)

/-- The length a header declares once its bytes from `j` on are zeros. -/
def declaredLength (q : List UInt8) (j : Nat) : Nat := fromLe ((slice q 8 16).take (j - 8))

/-- When a walk through whole packets answers, the next one cut at its byte `j`. -/
def Stands (whole : List (List UInt8)) (j : Nat) : List (List UInt8) → Prop
  | [] => whole.length ≤ MAX_PACKETS
  | q :: rest =>
    if j = 0 then whole.length < MAX_PACKETS
    else
      HEADER ≤ declaredLength q j ∧
        (whole.length + 1 < MAX_PACKETS ∨
          whole.length + 1 = MAX_PACKETS ∧ rest = [] ∧ declaredLength q j = q.length)

instance (whole : List (List UInt8)) (j : Nat) : ∀ cut, Decidable (Stands whole j cut)
  | [] => inferInstanceAs (Decidable (_ ≤ _))
  | _ :: _ => inferInstanceAs (Decidable (if j = 0 then _ else _ ∧ (_ ∨ _ ∧ _ ∧ _)))

theorem fromLe_append_zeros (xs : List UInt8) (n : Nat) :
    fromLe (xs ++ replicate n 0) = fromLe xs := by
  induction xs with
  | nil =>
    induction n with
    | zero => rfl
    | succ n ih => simpa [replicate_succ, fromLe] using ih
  | cons b xs ih => rw [cons_append, fromLe, fromLe, ih]

theorem fromLe_take_mod (xs : List UInt8) (n : Nat) : fromLe (xs.take n) = fromLe xs % 256 ^ n := by
  induction xs generalizing n with
  | nil => simp [fromLe]
  | cons b xs ih =>
    cases n with
    | zero => simp [fromLe, Nat.mod_one]
    | succ n =>
      have hb := b.toNat_lt
      have hlow : (b.toNat + 256 * fromLe xs) % 256 = b.toNat := by omega
      have hhigh : (b.toNat + 256 * fromLe xs) / 256 = fromLe xs := by omega
      rw [take_succ_cons, fromLe, fromLe, ih, pow_succ', Nat.mod_mul, hlow, hhigh]

section

variable {q : List UInt8} {j n : Nat}

/-- The header of a packet cut at `j` declares what is left of its length. -/
theorem declared_cut :
    fromLe (slice (q.take j ++ replicate n 0) 8 16) = declaredLength q j := by
  have hfield : ((q.take j).take 16).drop 8 = ((q.take 16).drop 8).take (j - 8) := by
    rw [take_drop, take_take, take_take]
    rcases le_total j 8 with h | h
    · have hnil (m : Nat) (hm : m ≤ 8) : (q.take m).drop 8 = [] :=
        drop_eq_nil_of_le (by simp; omega)
      rw [hnil _ (by omega), hnil _ (by omega)]
    · rw [show 8 + (j - 8) = j by omega, min_comm]
  rw [slice, take_append, drop_append, hfield, take_replicate, drop_replicate,
    fromLe_append_zeros, declaredLength, slice]

theorem declaredLength_eq (hq : IsPacket q) : declaredLength q j = q.length % 256 ^ (j - 8) := by
  rw [declaredLength, fromLe_take_mod, hq.declared]

theorem declaredLength_whole (hq : IsPacket q) (hj : 16 ≤ j) : declaredLength q j = q.length := by
  have hheader := hq.header
  have hfield : (slice q 8 16).length = 8 := length_slice (by simp [HEADER] at hheader; omega)
  rw [declaredLength, take_of_length_le (by omega), hq.declared]

theorem magic_cut (hq : IsPacket q) (hj : 8 ≤ j) :
    (q.take j ++ replicate n 0).take 8 = MAGIC := by
  have hheader := hq.header
  rw [take_append_of_le_length (by simp [HEADER] at hheader ⊢; omega), take_take,
    min_eq_left hj, hq.magic]

/-- A packet cut at `j` is a packet as long as its header declares, where that is a header. -/
theorem isPacket_cut (hq : IsPacket q) (hj : j ≤ q.length) (h : HEADER ≤ declaredLength q j) :
    j ≤ declaredLength q j ∧ declaredLength q j ≤ q.length ∧
      IsPacket (q.take j ++ replicate (declaredLength q j - j) 0) := by
  have hH : HEADER = 64 := rfl
  have hle : declaredLength q j ≤ q.length := by
    rw [declaredLength_eq hq]
    exact Nat.mod_le _ _
  have hjl : j ≤ declaredLength q j := by
    rcases lt_or_ge j 16 with hlt | hge
    · omega
    · rwa [declaredLength_whole hq hge]
  have h8 : 8 < j := by
    by_contra hsmall
    rw [declaredLength_eq hq, show j - 8 = 0 by omega, pow_zero, Nat.mod_one] at h
    omega
  have hlen : (q.take j ++ replicate (declaredLength q j - j) 0).length =
      declaredLength q j := by
    simp
    omega
  refine ⟨hjl, hle, magic_cut hq h8.le, ?_, by rwa [hlen], ?_⟩
  · rw [declared_cut, hlen]
  · have hfour : 4 ∣ 256 ^ (j - 8) := dvd_pow (by decide) (by omega)
    rw [hlen, declaredLength_eq hq, Nat.mod_mod_of_dvd _ hfour, hq.word]

theorem IsPacket.head? (hq : IsPacket q) : q.head? = some 80 := by
  have hhead := congrArg List.head? hq.magic
  rwa [head?_take, if_neg (by decide)] at hhead

theorem not_packet_zeros : ∀ p rest, IsPacket p → replicate n 0 ≠ p ++ rest := by
  intro p rest hp h
  have hhead := congrArg head? h
  rw [head?_append, hp.head?, head?_replicate] at hhead
  split at hhead
  · simp at hhead
  · exact absurd (Option.some.inj hhead) (by decide)

theorem not_packet_cut (h : declaredLength q j < HEADER) :
    ∀ p rest, IsPacket p → q.take j ++ replicate n 0 ≠ p ++ rest := by
  intro p rest hp heq
  have hheader := hp.header
  have hlen := hp.declared
  have hfield : slice (p ++ rest) 8 16 = slice p 8 16 :=
    Par2.slice_append_left (by simp [HEADER] at hheader; omega)
  rw [← hfield, ← heq, declared_cut] at hlen
  omega

end

theorem cutPackets_append (c : Nat) (packets : List (List UInt8)) :
    (cutPackets c packets).1 ++ (cutPackets c packets).2 = packets := by
  fun_induction cutPackets c packets with
  | case1 => rfl
  | case2 c p ps hle ih => rw [cons_append, ih]
  | case3 => rfl

theorem cutPackets_length (c : Nat) (packets : List (List UInt8)) :
    (cutPackets c packets).1.flatten.length ≤ c ∧
      ∀ q ∈ (cutPackets c packets).2.head?,
        c < (cutPackets c packets).1.flatten.length + q.length := by
  fun_induction cutPackets c packets with
  | case1 => simp
  | case2 c p ps hle ih =>
    rw [flatten_cons, length_append]
    exact ⟨by omega, fun q hq => by have := ih.2 q hq; omega⟩
  | case3 c p ps hlt => simpa using hlt

theorem overwritten_packet (whole rest : List (List UInt8)) {q : List UInt8} {j : Nat}
    (hj : j ≤ q.length) : overwritten (whole ++ q :: rest).flatten (whole.flatten.length + j) =
      whole.flatten ++ (q.take j ++ replicate (q.length - j + rest.flatten.length) 0) := by
  rw [overwritten, flatten_append, flatten_cons, take_length_add_append,
    take_append_of_le_length hj, append_assoc]
  congr 3
  simp only [length_append]
  omega

/-- What is answered for whole packets and zeros from byte `c` on, inside the packet behind them. -/
theorem overwritten_answer {whole cut : List (List UInt8)} {c : Nat} (hne : whole ≠ [])
    (hwhole : ∀ p ∈ whole, IsPacket p) (hcut : ∀ p ∈ cut, IsPacket p)
    (hle : whole.flatten.length ≤ c) (hlt : ∀ q ∈ cut.head?, c < whole.flatten.length + q.length)
    (hfuel : (whole ++ cut).flatten.length < fuel) :
    ∃ b, isRecoveryVolumeShape (overwritten (whole ++ cut).flatten c) (fun _ _ => false) fuel =
      some b ∧ (b = true ↔ Stands whole (c - whole.flatten.length) cut) := by
  obtain ⟨j, rfl⟩ := Nat.exists_eq_add_of_le hle
  rw [Nat.add_sub_cancel_left]
  cases cut with
  | nil =>
    obtain ⟨b, hb, hiff⟩ := isRecoveryVolumeShape_packets whole (replicate 0 0) hne
      hwhole not_packet_zeros (.inl (by simp)) (by simpa using hfuel)
    have hcontent : overwritten (whole ++ []).flatten (whole.flatten.length + j) =
        whole.flatten ++ replicate 0 0 := by
      rw [overwritten, append_nil, take_of_length_le (by omega),
        show whole.flatten.length - (whole.flatten.length + j) = 0 by omega]
    refine ⟨b, hcontent ▸ hb, hiff.trans ?_⟩
    simp [Stands]
    omega
  | cons q rest =>
    have hj : j < q.length := by simpa using hlt q (by simp)
    have hq := hcut q (by simp)
    rw [overwritten_packet whole rest hj.le]
    rw [Stands]
    split
    · rename_i hzero
      subst hzero
      obtain ⟨b, hb, hiff⟩ := isRecoveryVolumeShape_packets whole
        (replicate (q.length - 0 + rest.flatten.length) 0) hne hwhole not_packet_zeros
        (.inl (by simp)) (show _ < fuel by simp at hfuel ⊢; omega)
      refine ⟨b, by rwa [take_zero, nil_append], hiff.trans ?_⟩
      have hpos : q.length ≠ 0 := by omega
      simp [hpos]
    rename_i hzero
    by_cases hdecl : HEADER ≤ declaredLength q j
    · obtain ⟨hjl, hll, hpacket⟩ := isPacket_cut hq hj.le hdecl
      set l := declaredLength q j
      obtain ⟨b, hb, hiff⟩ := isRecoveryVolumeShape_packets
        (whole ++ [q.take j ++ replicate (l - j) 0])
        (replicate (q.length - l + rest.flatten.length) 0) (by simp)
        (by simpa [or_imp, forall_and] using ⟨hwhole, hpacket⟩) not_packet_zeros
        (.inl (by simp)) (show _ < fuel by simp at hfuel ⊢; omega)
      have hcontent : whole.flatten ++ (q.take j ++
          replicate (q.length - j + rest.flatten.length) 0) =
          (whole ++ [q.take j ++ replicate (l - j) 0]).flatten ++
            replicate (q.length - l + rest.flatten.length) 0 := by
        have hzeros : q.length - j + rest.flatten.length =
            (l - j) + (q.length - l + rest.flatten.length) := by omega
        rw [hzeros, ← replicate_append_replicate]
        simp
      have hrest : rest.flatten.length = 0 ↔ rest = [] := by
        cases rest with
        | nil => simp
        | cons r rest =>
          have hheader := (hcut r (by simp)).header
          have hH : HEADER = 64 := rfl
          simp only [flatten_cons, length_append, reduceCtorEq, iff_false]
          omega
      refine ⟨b, hcontent ▸ hb, hiff.trans ?_⟩
      simp only [replicate_eq_nil_iff, length_append, length_singleton, mem_replicate, ← hrest]
      simp only [hdecl, and_imp, imp_self, implies_true, and_true, true_and]
      omega
    · have hhead : (q.take j ++ replicate (q.length - j + rest.flatten.length) 0).head? =
          some 80 := by
        rw [head?_append, head?_take, if_neg hzero, hq.head?, Option.some_or]
      obtain ⟨b, hb, hiff⟩ := isRecoveryVolumeShape_packets whole
        (q.take j ++ replicate (q.length - j + rest.flatten.length) 0) hne hwhole
        (not_packet_cut (by omega)) (.inr ⟨80, hhead, by decide⟩)
        (show _ < fuel by simp at hfuel ⊢; omega)
      · refine ⟨b, hb, hiff.trans (iff_of_false ?_ fun h => hdecl h.1)⟩
        rintro (⟨hnil, -⟩ | ⟨-, hzeros⟩)
        · rw [hnil] at hhead
          cases hhead
        · exact absurd (hzeros 80 (mem_of_mem_head? hhead)) (by decide)

/-- For every file the walk ends, and answers only for packets and holes, whichever reads fail; and
packets overwritten with zeros behind the first of them are answered for exactly where the packet
cut still declares a length or is zeros whole, up to the cap on packets. -/
theorem recovery_volume_shape :
    (∀ content fails fuel, content.length < fuel →
      ∃ b, isRecoveryVolumeShape content fails fuel = some b ∧
        (b = true → PacketsAndHoles content)) ∧
    ∀ packets c fuel, (∀ p ∈ packets, IsPacket p) → (cutPackets c packets).1 ≠ [] →
      packets.flatten.length < fuel →
      ∃ b, isRecoveryVolumeShape (overwritten packets.flatten c) (fun _ _ => false) fuel = some b ∧
        (b = true ↔ Stands (cutPackets c packets).1
          (c - (cutPackets c packets).1.flatten.length) (cutPackets c packets).2) := by
  refine ⟨fun _ _ _ => isRecoveryVolumeShape_sound, fun packets c fuel hp hne hfuel => ?_⟩
  have happend := cutPackets_append c packets
  obtain ⟨hle, hlt⟩ := cutPackets_length c packets
  have hmem : ∀ p, p ∈ (cutPackets c packets).1 ++ (cutPackets c packets).2 → IsPacket p :=
    fun p h => hp p (happend ▸ h)
  have hanswer := overwritten_answer hne (fun p h => hmem p (mem_append_left _ h))
    (fun p h => hmem p (mem_append_right _ h)) hle hlt (by rwa [happend])
  rwa [happend] at hanswer

def headerOnly : List UInt8 := MAGIC ++ (64 :: List.replicate 7 0) ++ List.replicate 48 1

theorem isPacket_headerOnly : IsPacket headerOnly := ⟨rfl, rfl, by decide, rfl⟩

set_option maxRecDepth 20000 in
theorem recovery_volume_shape_headers :
    (∃ b, isRecoveryVolumeShape [1] (fun _ _ => true) 2 = some b ∧
      (b = true → PacketsAndHoles [1])) ∧
      isRecoveryVolumeShape (overwritten [headerOnly, headerOnly].flatten 80) (fun _ _ => false)
        129 = some true := by
  obtain ⟨b, hb, hiff⟩ := recovery_volume_shape.2 [headerOnly, headerOnly] 80 129
    (by simp [isPacket_headerOnly]) (by decide) (by decide)
  refine ⟨recovery_volume_shape.1 [1] _ 2 (by decide), ?_⟩
  rw [hb, hiff.mpr (by decide)]

set_option maxRecDepth 20000 in
/-- Two packets with zeros from the second one's length on are kept. -/
theorem isRecoveryVolumeShape_cut_header :
    ¬ ∀ packets c fuel, (∀ p ∈ packets, IsPacket p) → (cutPackets c packets).1 ≠ [] →
      packets.flatten.length < fuel →
      isRecoveryVolumeShape (overwritten packets.flatten c) (fun _ _ => false) fuel =
        some true := by
  intro h
  have h := h [headerOnly, headerOnly] 72 129 (by simp [isPacket_headerOnly]) (by decide)
    (by decide)
  have hkept : isRecoveryVolumeShape (overwritten [headerOnly, headerOnly].flatten 72)
    (fun _ _ => false) 129 = some false := by decide
  rw [hkept] at h
  exact absurd h (by decide)

end NzbFast.Repair
