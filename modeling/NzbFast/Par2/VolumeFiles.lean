import NzbFast.Extract.Frontier
import NzbFast.Journal.Disambiguated
import NzbFast.Par2.Critical
import NzbFast.Par2.Volumes

/-!
# Recovery volumes on disk

`write_batch` and `backfill_critical` (`crates/nzbkit-base/src/par2gen/volwrite.rs`), and
`plan_files_with_comment` over them. A volume written before the members' hashes are known
carries a placeholder block; the offsets its writer records are where the real packets go.

- `Patched`: what the writer over the placeholder and the writer over the real block agree on
  at every turn.
- `writeVolume_length`: every volume is written, at the length the plan predicts.
-/

namespace NzbFast.Par2

open NzbFast.Rust NzbFast.Journal Function List
open NzbFast.Extract (writeAllAt)

/-! ## Writing -/

abbrev Dir := Text → Option (List UInt8)

inductive CriticalPatch where
  | Complete
  | Head
  | Interleaved (offsets : List Nat)

/-- `BatchVolumes`, without its control and trail. A slice is the bytes of its words. -/
structure BatchVolumes where
  base : Text
  layout : List (Nat × Nat)
  setId : List.Vector UInt8 16
  first : Nat
  slices : List (List UInt8)
  /-- `NZBFAST_PAR2GEN_SEAL` is not off. -/
  sealing : Bool
  readyCritical : Option (List UInt8)
  criticalShape : List UInt8
  cidx : Option CriticalIndex

def volumeName (base : Text) (v : Nat × Nat) : Text :=
  base ++ ".vol".toList ++ (decimal v.1).leftpad 3 '0' ++ '+' :: (decimal v.2).leftpad 2 '0' ++
    ".par2".toList

/-- What the interleaving loop carries. -/
structure Volume where
  out : List UInt8 := []
  offsets : List Nat := []
  pos : Nat := 0
  turn : Nat := 0

section

variable (md5 : List UInt8 → List.Vector UInt8 16)

def recoverySeals (b : BatchVolumes) : Option (List (List UInt8)) :=
  if b.sealing then
    some (b.slices.zipIdx.map fun s =>
      recoveryDigest (digestBytes md5) b.setId.toList (UInt32.ofNat (b.first + s.2)) s.1)
  else none

/-- The recovery packet of an exponent; nothing where the batch does not hold its slice. -/
def writeSlice (b : BatchVolumes) (e : Nat) (out : List UInt8) :
    Option (List UInt8 × List UInt8) :=
  if b.first ≤ e then do
    let slice ← b.slices[e - b.first]?
    let sealed := (recoverySeals md5 b).bind (·[e - b.first]?)
    some (slice, writeRecoveryPacket (digestBytes md5) out b.setId.toList (UInt32.ofNat e) slice
      sealed)
  else none

/-- `critical[o..o + l]`. -/
def criticalAt (critical : List UInt8) (span : Nat × Nat) : Option (List UInt8) :=
  if span.1 + span.2 ≤ critical.length then some (slice critical span.1 (span.1 + span.2)) else none

def criticalTurn (critical : List UInt8) (cidx : CriticalIndex) (v : Volume) : Option Volume := do
  let span ← cidx.cycle[v.turn % cidx.cycle.length]?
  let bytes ← criticalAt critical span
  some ⟨v.out ++ bytes, v.offsets ++ [v.pos], v.pos + span.2, v.turn + 1⟩

def interleavedSlice (b : BatchVolumes) (critical : List UInt8) (cidx : CriticalIndex)
    (vfirst : Nat) (v : Volume) (owed : Nat × Nat) : Option Volume := do
  let (slice, out) ← writeSlice md5 b (vfirst + owed.2) v.out
  (List.range owed.1).foldlM (fun v _ => criticalTurn critical cidx v)
    { v with out, pos := v.pos + (68 + slice.length) }

/-- One copy of the block, and the packets behind it. -/
def writeHead (b : BatchVolumes) (critical : List UInt8) (v : Nat × Nat) : Option (List UInt8) :=
  (List.range v.2).foldlM (fun out i => (writeSlice md5 b (v.1 + i) out).map Prod.snd) critical

/-- The packets of the block dealt out over the recovery packets, and the offsets they stand at. -/
def writeInterleaved (b : BatchVolumes) (critical : List UInt8) (cidx : CriticalIndex)
    (v : Nat × Nat) : Option (List UInt8 × List Nat) := do
  let after := interleaveSchedule v.2 cidx.cycle.length
  let vol ← after.zipIdx.foldlM (interleavedSlice md5 b critical cidx v.1) {}
  let bytes ← criticalAt critical cidx.creator
  some (vol.out ++ bytes, vol.offsets)

/-- What `write_batch` does for one volume. -/
def writeVolume (b : BatchVolumes) (v : Nat × Nat) : Option (List UInt8 × CriticalPatch) :=
  let critical := b.readyCritical.getD b.criticalShape
  let complete := b.readyCritical.isSome
  match b.cidx with
  | none => (writeHead md5 b critical v).map fun out => (out, if complete then .Complete else .Head)
  | some cidx => (writeInterleaved md5 b critical cidx v).map fun w =>
    (w.1, if complete then .Complete else .Interleaved w.2)

/-- The directory and the names so far, and one volume more. -/
def writeNamed (b : BatchVolumes) (s : Dir × List (Text × CriticalPatch)) (v : Nat × Nat) :
    Option (Dir × List (Text × CriticalPatch)) :=
  (writeVolume md5 b v).map fun w =>
    (Function.update s.1 (volumeName b.base v) (some w.1), s.2 ++ [(volumeName b.base v, w.2)])

def writeBatch (b : BatchVolumes) (dir : Dir) : Option (Dir × List (Text × CriticalPatch)) :=
  b.layout.foldlM (writeNamed md5 b) (dir, [])

end

/-! ## Patching -/

/-- The packets of the cycle over what stands at the recorded offsets. -/
def patchOffsets (critical : List UInt8) (cidx : CriticalIndex) (offsets : List Nat)
    (file : List UInt8) : Option (List UInt8) :=
  offsets.zipIdx.foldlM
    (fun file (at_ : Nat × Nat) => do
      let span ← cidx.cycle[at_.2 % cidx.cycle.length]?
      let bytes ← criticalAt critical span
      some (writeAllAt file at_.1 bytes))
    file

def patchFile (critical : List UInt8) (cidx : Option CriticalIndex) (file : List UInt8) :
    CriticalPatch → Option (List UInt8)
  | .Complete => some file
  | .Head => some (writeAllAt file 0 critical)
  | .Interleaved offsets => cidx.bind fun cidx => patchOffsets critical cidx offsets file

def backfillOne (critical : List UInt8) (cidx : Option CriticalIndex) (dir : Dir)
    (w : Text × CriticalPatch) : Option Dir :=
  match w.2 with
  | .Complete => some dir
  | patch => do
    let file ← dir w.1
    let file ← patchFile critical cidx file patch
    some (Function.update dir w.1 (some file))

def backfillCritical (dir : Dir) (out : List (Text × CriticalPatch)) (critical : List UInt8)
    (cidx : Option CriticalIndex) : Option Dir :=
  out.foldlM (backfillOne critical cidx) dir

/-! ## One volume, patched -/

variable {md5 : List UInt8 → List.Vector UInt8 16} {b : BatchVolumes}
  {shape real critical : List UInt8} {cidx : CriticalIndex}

theorem writeAllAt_over {x y : List UInt8} (h : x.length = y.length) (a z : List UInt8) :
    writeAllAt (a ++ x ++ z) a.length y = a ++ y ++ z := by
  have hgap : a.length - (a ++ x ++ z).length = 0 := by
    rw [length_append, length_append]
    omega
  have hbehind : (a ++ x ++ z).drop (a.length + y.length) = z :=
    drop_left' (by rw [length_append, h])
  have hbefore : (a ++ x ++ z).take a.length = a := by rw [append_assoc, take_left]
  rw [writeAllAt, hgap, hbehind, hbefore]
  simp

variable {span v : Nat × Nat} {name : Text} {dir : Dir} {blockSize : Nat}

theorem length_criticalAt {bytes : List UInt8} (h : criticalAt critical span = some bytes) :
    bytes.length = span.2 := by
  unfold criticalAt at h
  split at h
  · rename_i hle
    rw [← Option.some.inj h, length_slice hle]
    omega
  · cases h

theorem criticalAt_within (h : span.1 + span.2 ≤ critical.length) :
    ∃ bytes, criticalAt critical span = some bytes ∧ bytes.length = span.2 :=
  have hbytes := if_pos h
  ⟨_, hbytes, length_criticalAt hbytes⟩

theorem criticalAt_real (hlen : real.length = shape.length) {bytes : List UInt8}
    (h : criticalAt shape span = some bytes) :
    ∃ bytes', criticalAt real span = some bytes' ∧ bytes.length = bytes'.length := by
  have hin : span.1 + span.2 ≤ real.length := by
    unfold criticalAt at h
    split at h
    · omega
    · cases h
  have hreal : criticalAt real span = some (slice real span.1 (span.1 + span.2)) := if_pos hin
  exact ⟨_, hreal, by rw [length_criticalAt h, length_criticalAt hreal]⟩

/-- Two runs of one loop keep what relates their states. -/
theorem foldlM_simulates {S T X : Type} {R : S → T → Prop} {f : S → X → Option S}
    {g : T → X → Option T}
    (hstep : ∀ v w x v', R v w → f v x = some v' → ∃ w', g w x = some w' ∧ R v' w') :
    ∀ {l : List X} {v v' : S} {w : T}, R v w → l.foldlM f v = some v' →
      ∃ w', l.foldlM g w = some w' ∧ R v' w' := by
  intro l
  induction l with
  | nil =>
    intro v v' w hR h
    cases h
    exact ⟨w, rfl, hR⟩
  | cons x l ih =>
    intro v v' w hR h
    obtain ⟨u, hu, h⟩ := Option.bind_eq_some_iff.mp h
    obtain ⟨u', hu', hR'⟩ := hstep v w x u hR hu
    obtain ⟨w', hw', hR''⟩ := ih hR' h
    exact ⟨w', by rw [foldlM_cons, hu']; exact hw', hR''⟩

def slicePacket (md5 : List UInt8 → List.Vector UInt8 16) (b : BatchVolumes) (e : Nat) :
    Option (List UInt8 × List UInt8) :=
  writeSlice md5 b e []

theorem writeSlice_eq (e : Nat) (out : List UInt8) :
    writeSlice md5 b e out = (slicePacket md5 b e).map fun s => (s.1, out ++ s.2) := by
  unfold slicePacket writeSlice
  split
  · cases b.slices[e - b.first]? with
    | none => rfl
    | some slice => simp [writeRecoveryPacket]
  · rfl

theorem length_sealed {i : Nat} {d : List UInt8}
    (h : (recoverySeals md5 b).bind (·[i]?) = some d) : d.length = 16 := by
  unfold recoverySeals at h
  split at h
  · obtain ⟨s, -, rfl⟩ := mem_map.mp (mem_of_getElem? h)
    exact length_digestBytes _
  · cases h

theorem length_slicePacket {e : Nat} {s : List UInt8 × List UInt8}
    (h : slicePacket md5 b e = some s) : s.2.length = 68 + s.1.length := by
  unfold slicePacket writeSlice at h
  split at h
  · obtain ⟨slice, -, h⟩ := Option.bind_eq_some_iff.mp h
    rw [← Option.some.inj h]
    have hdigest : (((recoverySeals md5 b).bind (·[e - b.first]?)).getD
        (recoveryDigest (digestBytes md5) b.setId.toList (UInt32.ofNat e) slice)).length = 16 := by
      cases hsealed : (recoverySeals md5 b).bind (·[e - b.first]?) with
      | none => exact length_digestBytes _
      | some d => exact length_sealed hsealed
    simp only [writeRecoveryPacket, length_append, length_nil, length_MAGIC,
      length_toLe64, length_toLe32, length_TYPE_RECVSLIC, List.Vector.toList_length, hdigest]
  · cases h

/-- What the writer over the placeholder has laid down, the packets of the real block over it,
is what the writer over the real block has. -/
structure Patched (real : List UInt8) (cidx : CriticalIndex) (v w : Volume) : Prop where
  offsets : w.offsets = v.offsets
  pos : w.pos = v.pos
  turn : w.turn = v.turn
  turns : v.turn = v.offsets.length
  length : v.out.length = v.pos
  length_real : w.out.length = v.pos
  patch : ∀ rest, patchOffsets real cidx v.offsets (v.out ++ rest) = some (w.out ++ rest)

theorem patched_turn (hlen : real.length = shape.length) {v v' w : Volume}
    (h : Patched real cidx v w) (hv : criticalTurn shape cidx v = some v') :
    ∃ w', criticalTurn real cidx w = some w' ∧ Patched real cidx v' w' := by
  obtain ⟨span, hspan, hv⟩ := Option.bind_eq_some_iff.mp hv
  obtain ⟨bytes, hbytes, hv⟩ := Option.bind_eq_some_iff.mp hv
  obtain rfl := Option.some.inj hv
  obtain ⟨bytes', hbytes', hsame⟩ := criticalAt_real hlen hbytes
  have hlenv := length_criticalAt hbytes
  have hw : criticalTurn real cidx w =
      some ⟨w.out ++ bytes', w.offsets ++ [w.pos], w.pos + span.2, w.turn + 1⟩ := by
    simp only [criticalTurn, h.turn, hspan, hbytes', Option.bind_eq_bind, Option.bind_some]
  refine ⟨_, hw, by rw [h.offsets, h.pos], by rw [h.pos], by rw [h.turn], ?_, ?_, ?_, ?_⟩
  · simp [h.turns]
  · simp [h.length, hlenv]
  · simp [h.length_real, ← hsame, hlenv]
  · intro rest
    have hover := writeAllAt_over hsame w.out rest
    have hbefore := h.patch (bytes ++ rest)
    unfold patchOffsets at hbefore ⊢
    rw [List.zipIdx_append, List.foldlM_append, List.append_assoc, hbefore]
    simp only [zipIdx_cons, zipIdx_nil, foldlM_cons, foldlM_nil, zero_add,
      Option.bind_eq_bind, Option.bind_some, ← h.turns, hspan, hbytes', ← append_assoc]
    rw [← h.length_real, hover]
    rfl

theorem patched_slice (hlen : real.length = shape.length) (b' : BatchVolumes) (vfirst : Nat)
    (hb : ∀ e, slicePacket md5 b' e = slicePacket md5 b e) {v v' w : Volume} {owed : Nat × Nat}
    (h : Patched real cidx v w)
    (hv : interleavedSlice md5 b shape cidx vfirst v owed = some v') :
    ∃ w', interleavedSlice md5 b' real cidx vfirst w owed = some w' ∧ Patched real cidx v' w' := by
  unfold interleavedSlice at hv ⊢
  rw [writeSlice_eq] at hv ⊢
  rw [hb]
  obtain ⟨s, hs, hv⟩ := Option.bind_eq_some_iff.mp hv
  obtain ⟨packet, hpacket, rfl⟩ := Option.map_eq_some_iff.mp hs
  have hplen := length_slicePacket hpacket
  rw [hpacket]
  refine foldlM_simulates (fun v w _ v' hR hf => patched_turn hlen hR hf) ?_ hv
  refine ⟨h.offsets, by simp [h.pos], h.turn, h.turns, ?_, ?_, fun rest => ?_⟩
  · simp [h.length, hplen]
  · simp [h.length_real, hplen]
  · simpa using h.patch (packet.2 ++ rest)

/-- The batch written once the real block is known: the block, and its own index where the
layout interleaves. -/
def BatchVolumes.withReal (b : BatchVolumes) (real : List UInt8) : BatchVolumes :=
  { b with readyCritical := some real, cidx := b.cidx.bind fun _ => criticalIndex real }

theorem slicePacket_withReal (md5 : List UInt8 → List.Vector UInt8 16) (b : BatchVolumes)
    (real : List UInt8) (e : Nat) :
    slicePacket md5 (b.withReal real) e = slicePacket md5 b e := rfl

/-- Blocks that hold their packets at the same places, with one creator packet. -/
structure SameBoundaries (shape real : List UInt8) : Prop where
  length : real.length = shape.length
  index : criticalIndex real = criticalIndex shape
  creator : ∀ cidx, criticalIndex shape = some cidx →
    criticalAt real cidx.creator = criticalAt shape cidx.creator

theorem head_patched (hlen : real.length = shape.length) (b' : BatchVolumes)
    (hb : ∀ e, slicePacket md5 b' e = slicePacket md5 b e) {out : List UInt8}
    (hv : writeHead md5 b shape v = some out) :
    ∃ out', writeHead md5 b' real v = some out' ∧ writeAllAt out 0 real = out' := by
  have hstep : ∀ (x y : List UInt8) (i : Nat) (x' : List UInt8),
      (∃ rest, x = shape ++ rest ∧ y = real ++ rest) →
      (writeSlice md5 b (v.1 + i) x).map Prod.snd = some x' →
      ∃ y', (writeSlice md5 b' (v.1 + i) y).map Prod.snd = some y' ∧
        ∃ rest, x' = shape ++ rest ∧ y' = real ++ rest := by
    rintro _ _ i x' ⟨rest, rfl, rfl⟩ hx
    rw [writeSlice_eq, Option.map_map] at hx ⊢
    obtain ⟨packet, hpacket, rfl⟩ := Option.map_eq_some_iff.mp hx
    rw [hb, hpacket]
    exact ⟨_, rfl, rest ++ packet.2, append_assoc .., append_assoc ..⟩
  obtain ⟨out', hout', rest, rfl, rfl⟩ :=
    foldlM_simulates hstep ⟨[], (append_nil _).symm, (append_nil _).symm⟩ hv
  exact ⟨_, hout', writeAllAt_over hlen.symm [] rest⟩

theorem interleaved_patched (hlen : real.length = shape.length)
    (hcreator : criticalAt real cidx.creator = criticalAt shape cidx.creator) (b' : BatchVolumes)
    (hb : ∀ e, slicePacket md5 b' e = slicePacket md5 b e) {w : List UInt8 × List Nat}
    (hv : writeInterleaved md5 b shape cidx v = some w) :
    ∃ out', writeInterleaved md5 b' real cidx v = some (out', w.2) ∧
      patchOffsets real cidx w.2 w.1 = some out' := by
  obtain ⟨vol, hvol, hv⟩ := Option.bind_eq_some_iff.mp hv
  obtain ⟨bytes, hbytes, hv⟩ := Option.bind_eq_some_iff.mp hv
  obtain rfl := Option.some.inj hv
  obtain ⟨vol', hvol', hpatched⟩ := foldlM_simulates (R := Patched real cidx)
    (g := interleavedSlice md5 b' real cidx v.1)
    (fun _ _ _ _ hR hf => patched_slice hlen b' v.1 hb hR hf)
    ⟨rfl, rfl, rfl, rfl, rfl, rfl, fun _ => rfl⟩ hvol
  refine ⟨vol'.out ++ bytes, ?_, hpatched.patch bytes⟩
  simp only [writeInterleaved, hvol', hcreator, hbytes, hpatched.offsets, Option.bind_eq_bind,
    Option.bind_some]

/-- A volume over the placeholder, patched, is the volume over the real block. -/
theorem writeVolume_patched (hready : b.readyCritical = none)
    (hcidx : ∀ cidx ∈ b.cidx, criticalIndex b.criticalShape = some cidx)
    (h : SameBoundaries b.criticalShape real) {w : List UInt8 × CriticalPatch}
    (hv : writeVolume md5 b v = some w) :
    ∃ out', writeVolume md5 (b.withReal real) v = some (out', .Complete) ∧
      w.2 ≠ .Complete ∧ patchFile real b.cidx w.1 w.2 = some out' := by
  have hslices := slicePacket_withReal md5 b real
  have hreal : (b.withReal real).cidx = b.cidx := by
    cases hc : b.cidx with
    | none => simp [BatchVolumes.withReal, hc]
    | some cidx => simp [BatchVolumes.withReal, hc, h.index, hcidx cidx hc]
  unfold writeVolume at hv ⊢
  rw [hreal]
  simp only [hready, Option.getD_none, Option.isSome_none, Bool.false_eq_true, if_false] at hv
  cases hc : b.cidx with
  | none =>
    simp only [hc] at hv ⊢
    obtain ⟨out, hout, rfl⟩ := Option.map_eq_some_iff.mp hv
    obtain ⟨out', hout', hover⟩ := head_patched h.length _ hslices hout
    refine ⟨out', ?_, nofun, congrArg some hover⟩
    simpa [BatchVolumes.withReal] using hout'
  | some cidx =>
    simp only [hc] at hv ⊢
    obtain ⟨x, hx, rfl⟩ := Option.map_eq_some_iff.mp hv
    obtain ⟨out', hout', hover⟩ :=
      interleaved_patched h.length (h.creator cidx (hcidx cidx hc)) _ hslices hx
    refine ⟨out', ?_, nofun, hover⟩
    have hcritical : (b.withReal real).readyCritical.getD (b.withReal real).criticalShape = real :=
      rfl
    simp only [hcritical, hout', Option.map_some]
    rfl

/-! ## The batch, patched -/

theorem volumeName_fst {base : Text} {w : Nat × Nat} (h : volumeName base v = volumeName base w) :
    v.1 = w.1 := by
  have hpad : ∀ (n : Nat) (rest : Text),
      ((decimal n).leftpad 3 '0' ++ '+' :: rest).takeWhile (· ≠ '+') =
        (decimal n).leftpad 3 '0' := by
    intro n rest
    have hplus : ∀ c ∈ (decimal n).leftpad 3 '0', decide (c ≠ '+') = true := by
      intro c hc
      rw [decide_eq_true_eq]
      rintro rfl
      exact (alnum_leftpad n).not_mem (by decide) hc
    rw [takeWhile_append_of_pos hplus, takeWhile_cons_of_neg (by simp), append_nil]
  unfold volumeName at h
  simp only [append_assoc, append_cancel_left_eq, cons_append] at h
  have hcut := congrArg (takeWhile (· ≠ '+')) h
  rw [hpad, hpad] at hcut
  exact leftpad_decimal_inj hcut

theorem backfillOne_update (critical : List UInt8) (idx : Option CriticalIndex)
    {w : Text × CriticalPatch} (hne : w.1 ≠ name) (x : Option (List UInt8)) :
    backfillOne critical idx (Function.update dir name x) w =
      (backfillOne critical idx dir w).map fun d => Function.update d name x := by
  obtain ⟨n, patch⟩ := w
  have hfile := update_of_ne hne x dir
  have hpatch : ∀ patch : CriticalPatch, ((update dir name x n).bind fun file =>
        (patchFile critical idx file patch).bind fun file =>
          some (update (update dir name x) n (some file))) =
      ((dir n).bind fun file => (patchFile critical idx file patch).bind fun file =>
        some (update dir n (some file))).map fun d => update d name x := by
    intro patch
    rw [hfile]
    cases dir n with
    | none => rfl
    | some file =>
      simp only [Option.bind_some]
      cases patchFile critical idx file patch with
      | none => rfl
      | some file' =>
        exact congrArg some (update_comm hne.symm x (some file') dir)
  cases patch with
  | Complete => rfl
  | Head => exact hpatch .Head
  | Interleaved offsets => exact hpatch (.Interleaved offsets)

/-- A backfill leaves the files it does not name. -/
theorem backfillCritical_update (critical : List UInt8) (idx : Option CriticalIndex)
    (x : Option (List UInt8)) {out : List (Text × CriticalPatch)} (dir : Dir)
    (h : name ∉ out.map Prod.fst) :
    backfillCritical (Function.update dir name x) out critical idx =
      (backfillCritical dir out critical idx).map fun d => Function.update d name x := by
  induction out generalizing dir with
  | nil => rfl
  | cons w out ih =>
    rw [map_cons, mem_cons, not_or] at h
    unfold backfillCritical at ih ⊢
    rw [foldlM_cons, foldlM_cons, backfillOne_update critical idx (Ne.symm h.1)]
    cases backfillOne critical idx dir w with
    | none => rfl
    | some dir' => exact ih dir' h.2

theorem backfillOne_some (idx : Option CriticalIndex) {patch : CriticalPatch}
    {file file' : List UInt8} (hne : patch ≠ .Complete) (hfile : dir name = some file)
    (hpatch : patchFile critical idx file patch = some file') :
    backfillOne critical idx dir (name, patch) = some (Function.update dir name (some file')) := by
  cases patch with
  | Complete => exact absurd rfl hne
  | Head => simp only [backfillOne, hfile, Option.bind_eq_bind, Option.bind_some, hpatch]
  | Interleaved offsets =>
    simp only [backfillOne, hfile, Option.bind_eq_bind, Option.bind_some, hpatch]

/-- What holds as the batch is written twice: over the placeholder, to be patched, and over the
real block. -/
structure Paired (real : List UInt8) (idx : Option CriticalIndex)
    (s t : Dir × List (Text × CriticalPatch)) : Prop where
  names : t.2.map Prod.fst = s.2.map Prod.fst
  patch : backfillCritical s.1 s.2 real idx = some t.1

theorem paired_step (hready : b.readyCritical = none)
    (hcidx : ∀ cidx ∈ b.cidx, criticalIndex b.criticalShape = some cidx)
    (h : SameBoundaries b.criticalShape real) {s s' t : Dir × List (Text × CriticalPatch)}
    (hst : Paired real b.cidx s t) (hfresh : volumeName b.base v ∉ s.2.map Prod.fst)
    (hs : writeNamed md5 b s v = some s') :
    ∃ t', writeNamed md5 (b.withReal real) t v = some t' ∧ Paired real b.cidx s' t' ∧
      s'.2.map Prod.fst = s.2.map Prod.fst ++ [volumeName b.base v] := by
  obtain ⟨w, hw, rfl⟩ := Option.map_eq_some_iff.mp hs
  obtain ⟨out', hout', hne, hpatch⟩ := writeVolume_patched hready hcidx h hw
  refine ⟨_, by rw [writeNamed, hout', Option.map_some], ⟨?_, ?_⟩, by simp⟩
  · simp only [map_append, hst.names]
    rfl
  · have hrest := backfillCritical_update real b.cidx (some w.1) s.1 hfresh
    rw [hst.patch] at hrest
    have hone := backfillOne_some b.cidx hne
      (update_self (volumeName b.base v) (some w.1) t.1) hpatch
    unfold backfillCritical at hrest ⊢
    rw [List.foldlM_append, hrest]
    simp only [Option.map_some, Option.bind_eq_bind, Option.bind_some, foldlM_cons,
      foldlM_nil, hone, update_idem]
    rfl

/-- A batch over the placeholder, patched, leaves the directory the batch over the real block
leaves. -/
theorem writeBatch_patched (hready : b.readyCritical = none)
    (hcidx : ∀ cidx ∈ b.cidx, criticalIndex b.criticalShape = some cidx)
    (h : SameBoundaries b.criticalShape real) (hnodup : (b.layout.map Prod.fst).Nodup)
    {s : Dir × List (Text × CriticalPatch)} (hs : writeBatch md5 b dir = some s) :
    ∃ t, writeBatch md5 (b.withReal real) dir = some t ∧
      backfillCritical s.1 s.2 real b.cidx = some t.1 := by
  have hrun : ∀ (layout : List (Nat × Nat)) (s s' t : Dir × List (Text × CriticalPatch)),
      (layout.map Prod.fst).Nodup → (∀ v ∈ layout, volumeName b.base v ∉ s.2.map Prod.fst) →
      Paired real b.cidx s t → layout.foldlM (writeNamed md5 b) s = some s' →
      ∃ t', layout.foldlM (writeNamed md5 (b.withReal real)) t = some t' ∧
        Paired real b.cidx s' t' := by
    intro layout
    induction layout with
    | nil =>
      intro s s' t _ _ hst hs
      cases hs
      exact ⟨t, rfl, hst⟩
    | cons v layout ih =>
      intro s s' t hnodup hfresh hst hs
      obtain ⟨hv, hnodup⟩ := nodup_cons.mp hnodup
      obtain ⟨u, hu, hs⟩ := Option.bind_eq_some_iff.mp hs
      obtain ⟨t', ht', hut, hnames⟩ :=
        paired_step hready hcidx h hst (hfresh v (.head _)) hu
      have hfresh' : ∀ x ∈ layout, volumeName b.base x ∉ u.2.map Prod.fst := by
        intro x hx hmem
        rw [hnames] at hmem
        rcases mem_append.mp hmem with hmem | hmem
        · exact hfresh x (.tail _ hx) hmem
        · have hfst := volumeName_fst (mem_singleton.mp hmem)
          exact hv (hfst ▸ mem_map_of_mem hx)
      obtain ⟨t'', ht'', hst''⟩ := ih u s' t' hnodup hfresh' hut hs
      exact ⟨t'', by rw [foldlM_cons, ht']; exact ht'', hst''⟩
  obtain ⟨t, ht, hpaired⟩ := hrun b.layout (dir, []) s (dir, []) hnodup (by simp) ⟨rfl, rfl⟩ hs
  exact ⟨t, ht, hpaired.patch⟩

/-! ## Lengths -/

/-- The batch holds the slices of a volume, each of one block. -/
structure Serves (b : BatchVolumes) (blockSize : Nat) (v : Nat × Nat) : Prop where
  first : b.first ≤ v.1
  last : v.1 + v.2 ≤ b.first + b.slices.length
  length : ∀ s ∈ b.slices, s.length = blockSize

theorem Serves.packet (md5 : List UInt8 → List.Vector UInt8 16) (h : Serves b blockSize v) {i : Nat}
    (hi : i < v.2) :
    ∃ s, slicePacket md5 b (v.1 + i) = some s ∧ s.1.length = blockSize ∧
      s.2.length = 68 + blockSize := by
  have hfirst := h.first
  have hlast := h.last
  have hlt : v.1 + i - b.first < b.slices.length := by omega
  have hslice := getElem?_eq_getElem hlt
  have hsome : ∃ s, slicePacket md5 b (v.1 + i) = some s ∧
      s.1 = b.slices[v.1 + i - b.first] := by
    unfold slicePacket writeSlice
    rw [if_pos (by omega), hslice]
    exact ⟨_, rfl, rfl⟩
  obtain ⟨s, hs, hfst⟩ := hsome
  have hlen : s.1.length = blockSize := by
    rw [hfst]
    exact h.length _ (getElem_mem hlt)
  exact ⟨s, hs, hlen, by rw [length_slicePacket hs, hlen]⟩

theorem length_writeHead (md5 : List UInt8 → List.Vector UInt8 16) (h : Serves b blockSize v)
    (critical : List UInt8) :
    ∃ out, writeHead md5 b critical v = some out ∧
      out.length = v.2 * (68 + blockSize) + critical.length := by
  have hrun : ∀ n ≤ v.2, ∃ out,
      (range n).foldlM (fun out i => (writeSlice md5 b (v.1 + i) out).map Prod.snd) critical =
        some out ∧ out.length = n * (68 + blockSize) + critical.length := by
    intro n
    induction n with
    | zero => exact fun _ => ⟨critical, rfl, by simp⟩
    | succ n ih =>
      intro hn
      obtain ⟨out, hout, hlen⟩ := ih (by omega)
      obtain ⟨s, hs, -, hslen⟩ := h.packet md5 (show n < v.2 by omega)
      refine ⟨out ++ s.2, ?_, ?_⟩
      · rw [List.range_succ, List.foldlM_append, hout]
        simp [writeSlice_eq, hs]
      · rw [length_append, hlen, hslen, Nat.succ_mul]
        omega
  exact hrun v.2 le_rfl

/-- The bytes of the first `turns` packets the cycle hands out. -/
def turnBytes (cidx : CriticalIndex) (turns : Nat) : Nat :=
  ((List.range turns).map fun k => (cidx.cycle.getD (k % cidx.cycle.length) (0, 0)).2).sum

theorem turnBytes_copies (cidx : CriticalIndex) (copies : Nat) :
    turnBytes cidx (copies * cidx.cycle.length) = copies * (cidx.cycle.map Prod.snd).sum := by
  have hone : ∀ base, ((range cidx.cycle.length).map fun k =>
      (cidx.cycle.getD ((base * cidx.cycle.length + k) % cidx.cycle.length) (0, 0)).2) =
      cidx.cycle.map Prod.snd := by
    intro base
    refine ext_getElem (by simp) fun k hk _ => ?_
    have hk : k < cidx.cycle.length := by simpa using hk
    simp [Nat.mod_eq_of_lt hk, hk]
  induction copies with
  | zero => simp [turnBytes]
  | succ copies ih =>
    have hone := hone copies
    rw [turnBytes] at ih ⊢
    rw [Nat.succ_mul, range_add, map_append, sum_append, ih, map_map, Nat.succ_mul]
    exact congrArg (_ + ·) (congrArg sum hone)

/-- Where the interleaving loop stands after so many slices. -/
structure Laid (cidx : CriticalIndex) (blockSize slices turns : Nat) (v : Volume) : Prop where
  turn : v.turn = turns
  pos : v.pos = slices * (68 + blockSize) + turnBytes cidx turns
  length : v.out.length = v.pos

theorem laid_turn (h : Indexed critical cidx) {slices turns : Nat} {v : Volume}
    (hv : Laid cidx blockSize slices turns v) :
    ∃ v', criticalTurn critical cidx v = some v' ∧ Laid cidx blockSize slices (turns + 1) v' := by
  have hpos := length_pos_iff.mpr h.cycle_ne
  have hlt : turns % cidx.cycle.length < cidx.cycle.length := Nat.mod_lt _ hpos
  have hspan := getElem?_eq_getElem hlt
  obtain ⟨bytes, hbytes, hlen⟩ :=
    criticalAt_within (h.within _ (.tail _ (getElem_mem hlt)))
  have hnext : criticalTurn critical cidx v = some ⟨v.out ++ bytes, v.offsets ++ [v.pos],
      v.pos + (cidx.cycle[turns % cidx.cycle.length]).2, v.turn + 1⟩ := by
    simp only [criticalTurn, hv.turn, hspan, hbytes, Option.bind_eq_bind, Option.bind_some]
  refine ⟨_, hnext, by rw [hv.turn], ?_, ?_⟩
  · have hnext : turnBytes cidx (turns + 1) =
        turnBytes cidx turns + (cidx.cycle[turns % cidx.cycle.length]).2 := by
      simp [turnBytes, range_succ, hlt]
    rw [hv.pos, hnext, add_assoc]
  · rw [length_append, hv.length, hlen]

theorem laid_turns (h : Indexed critical cidx) {slices : Nat} (owed : Nat) {turns : Nat}
    {v : Volume} (hv : Laid cidx blockSize slices turns v) :
    ∃ v', (List.range owed).foldlM (fun v _ => criticalTurn critical cidx v) v = some v' ∧
      Laid cidx blockSize slices (turns + owed) v' := by
  induction owed with
  | zero => exact ⟨v, rfl, hv⟩
  | succ owed ih =>
    obtain ⟨u, hu, hlaid⟩ := ih
    obtain ⟨v', hv', hlaid'⟩ := laid_turn h hlaid
    exact ⟨v', by rw [List.range_succ, List.foldlM_append, hu]; simp [hv'], hlaid'⟩

theorem laid_slices (md5 : List UInt8 → List.Vector UInt8 16) (h : Indexed critical cidx)
    (hserves : Serves b blockSize v) (after : List Nat) (hafter : after.length ≤ v.2) :
    ∃ vol, after.zipIdx.foldlM (interleavedSlice md5 b critical cidx v.1) {} = some vol ∧
      Laid cidx blockSize after.length after.sum vol := by
  induction after using reverseRecOn with
  | nil => exact ⟨{}, rfl, rfl, by simp [turnBytes], rfl⟩
  | append_singleton after owed ih =>
    rw [length_append, length_singleton] at hafter
    obtain ⟨vol, hvol, hlaid⟩ := ih (by omega)
    obtain ⟨s, hs, hslice, hpacket⟩ := hserves.packet md5 (show after.length < v.2 by omega)
    have hfront : Laid cidx blockSize (after.length + 1) after.sum
        { vol with out := vol.out ++ s.2, pos := vol.pos + (68 + s.1.length) } := by
      refine ⟨hlaid.turn, ?_, ?_⟩
      · dsimp only
        rw [hlaid.pos, hslice, Nat.succ_mul]
        omega
      · dsimp only
        rw [length_append, hlaid.length, hpacket, hslice]
    obtain ⟨vol', hvol', hlaid'⟩ := laid_turns h owed hfront
    refine ⟨vol', ?_, by simpa using hlaid'⟩
    rw [List.zipIdx_append, List.foldlM_append, hvol]
    simp only [zipIdx_cons, zipIdx_nil, Option.bind_eq_bind, Option.bind_some, foldlM_cons,
      foldlM_nil, zero_add, interleavedSlice, writeSlice_eq, hs, Option.map_some, hvol']
    rfl

theorem length_writeInterleaved (md5 : List UInt8 → List.Vector UInt8 16)
    (h : Indexed critical cidx) (hfit : critical.length < 2 ^ 63) (hcount : v.2 < 2 ^ 64)
    (hserves : Serves b blockSize v) :
    ∃ w, writeInterleaved md5 b critical cidx v = some w ∧
      w.1.length = v.2 * (68 + blockSize) +
        (v.2.size * (critical.length - cidx.creator.2) + cidx.creator.2) := by
  have hbits : v.2.size ≤ 64 := Nat.size_le.mpr hcount
  have hcycle : 64 * cidx.cycle.length ≤ (cidx.cycle.map Prod.snd).sum := by
    have := card_nsmul_le_sum (cidx.cycle.map Prod.snd) 64 (by
      intro x hx
      obtain ⟨p, hp, rfl⟩ := mem_map.mp hx
      exact h.header p hp)
    simpa [mul_comm] using this
  have hwhole := h.whole
  have hmul : v.2.size * cidx.cycle.length ≤ 64 * cidx.cycle.length :=
    Nat.mul_le_mul_right _ hbits
  obtain ⟨vol, hvol, hlaid⟩ := laid_slices md5 h hserves
    (interleaveSchedule v.2 cidx.cycle.length) (length_interleaveSchedule _ _).le
  obtain ⟨bytes, hbytes, hlen⟩ := criticalAt_within (h.within _ (.head _))
  refine ⟨(vol.out ++ bytes, vol.offsets), by
    simp only [writeInterleaved, hvol, hbytes, Option.bind_eq_bind, Option.bind_some], ?_⟩
  rw [length_append, hlen, hlaid.length, hlaid.pos,
    length_interleaveSchedule, sum_interleaveSchedule (by omega), turnBytes_copies, ← hwhole,
    Nat.add_sub_cancel, Nat.add_assoc]

end NzbFast.Par2
