import NzbFast.Extract.Decrypt
import NzbFast.Rar.Volume
import NzbFast.Zip.Directory

/-!
# Containers mapped directly

A zip of stored entries, or a 7z of copied ones, has its members as they are in
ranges of its own bytes. `zip_map::plan` and `sevenz_map::plan`
(`crates/nzbkit/src/extract`) find the ranges; `direct_install` cuts them where the
posted parts meet and gives each part the entries and bases of a stored RAR volume,
which then routes its bytes as any other.
-/

namespace NzbFast.Extract

open NzbFast.Rust Option UInt64
open List hiding lt_trans not_le not_lt

/-- One member of a container, in the container's offsets. -/
structure DirectMember where
  name : String
  start : UInt64
  size : UInt64
  crc : Option UInt32
  deriving DecidableEq

/-- Two neighbours of a list that a check refuses. -/
def windowsAny {α : Type} (p : α → α → Bool) (l : List α) : Bool := (l.zip l.tail).any fun w => p w.1 w.2

/-- Some name is there twice: two neighbours of the sorted names are one. -/
def namesRepeat (names : List String) : Bool :=
  windowsAny (fun a b => a == b) (names.mergeSort fun a b => decide (a ≤ b))

/-! ## Plans -/

namespace ZipMap

open Zip (Entry realMethod crcIsAuthoritative METHOD_STORE)

def ZIP_DIRECT_MAX_MEMBERS : Nat := 1024

/-- `zip_map::screen`. -/
def screen (files : List Entry) : Bool :=
  if files.isEmpty || decide (ZIP_DIRECT_MAX_MEMBERS < files.length) then false
  else files.all fun e =>
    realMethod e == METHOD_STORE && !e.isEncrypted && !e.isSymlink && decide (0 < e.uncompressedSize) &&
      e.compressedSize == e.uncompressedSize

/-- One entry's range, if it ends before the directory does. -/
def member (ceiling : UInt64) (x : Entry × UInt64) : Option DirectMember :=
  (checkedAdd x.2 x.1.uncompressedSize).bind fun stop =>
    if ceiling < stop then none
    else some {
      name := x.1.name
      start := x.2
      size := x.1.uncompressedSize
      crc := if crcIsAuthoritative x.1 then some x.1.crc32 else none }

/-- `zip_map::plan`. -/
def plan (files : List Entry) (offsets : List UInt64) (dirAt total : UInt64) : Option (List DirectMember) :=
  if files.isEmpty || files.length != offsets.length then none
  else
    ((files.zip offsets).mapM (member (min dirAt total))).bind fun out =>
      if windowsAny (fun a b => decide (b.start < saturatingAdd a.start a.size)) out then none
      else if namesRepeat (out.map (·.name)) then none
      else some out

end ZipMap

namespace SevenZMap

def ID_COPY : List UInt8 := [0x00]

/-- A folder: its coders' ids and the length that it unpacks to. -/
structure Block where
  coders : List (List UInt8)
  unpackSize : UInt64

structure ArchiveEntry where
  name : String
  hasStream : Bool
  isDirectory : Bool
  hasCrc : Bool
  crc : UInt64
  size : UInt64

/-- What a plan reads of a parsed archive. -/
structure Archive where
  packPos : UInt64
  packSizes : List UInt64
  blocks : List Block
  files : List ArchiveEntry
  packStreamOffsets : List UInt64
  blockFirstPackStreamIndex : List Nat
  fileBlockIndex : List (Option Nat)

def blockAt (ar : Archive) (packBase total : UInt64) (x : Block × Nat) : Option (UInt64 × UInt64) :=
  if x.1.coders ≠ [ID_COPY] then none
  else
    (ar.blockFirstPackStreamIndex[x.2]?).bind fun fp =>
      let next := (ar.blockFirstPackStreamIndex[x.2 + 1]?).getD ar.packSizes.length
      if next ≠ fp + 1 then none
      else
        (ar.packSizes[fp]?).bind fun len =>
          if x.1.unpackSize ≠ len then none
          else
            (ar.packStreamOffsets[fp]?).bind fun off =>
              (checkedAdd packBase off).bind fun start =>
                (checkedAdd start len).bind fun stop =>
                  if total < stop then none else some (start, len)

/-- The walk over the files: the members so far, how far each block is claimed, and the cursor. -/
structure Walk where
  out : List DirectMember := []
  covered : List UInt64
  cur : Option (Nat × UInt64) := none

/-- Where the next file of block `b` starts in it. -/
def Walk.next (w : Walk) (b : Nat) : Option UInt64 :=
  match w.cur with
  | some (cb, off) => if cb = b then some off else if b < cb then none else some 0
  | none => some 0

def Walk.place (ar : Archive) (blockAt : List (UInt64 × UInt64)) (w : Walk) (x : ArchiveEntry × Nat) :
    Option Walk :=
  if x.1.isDirectory then some w
  else if !x.1.hasStream || x.1.size == 0 then none
  else
    (ar.fileBlockIndex[x.2]?).bind fun b => b.bind fun b =>
      (blockAt[b]?).bind fun blk =>
        (w.next b).bind fun at_ =>
          (checkedAdd at_ x.1.size).bind fun stop =>
            if blk.2 < stop then none
            else
              (checkedAdd blk.1 at_).map fun start =>
                { out := w.out ++ [{
                    name := x.1.name, start, size := x.1.size
                    crc := if x.1.hasCrc then some x.1.crc.toUInt32 else none }]
                  covered := w.covered.set b stop
                  cur := some (b, stop) }

/-- `sevenz_map::plan`. -/
def plan (ar : Archive) (archiveBase total : UInt64) : Option (List DirectMember) :=
  (checkedAdd archiveBase 32).bind fun base =>
    (checkedAdd base ar.packPos).bind fun packBase =>
      if ar.blocks.isEmpty || ar.blockFirstPackStreamIndex.length != ar.blocks.length then none
      else
        (ar.blocks.zipIdx.mapM (blockAt ar packBase total)).bind fun blocks =>
          (ar.files.zipIdx.foldlM (Walk.place ar blocks)
              { covered := List.replicate ar.blocks.length 0 }).bind fun w =>
            if w.out.isEmpty then none
            else if (w.covered.zip blocks).any fun x => x.1 != x.2.2 then none
            else if windowsAny (fun a b => decide (b.start < a.start + a.size)) w.out then none
            else if namesRepeat (w.out.map (·.name)) then none
            else some w.out

end SevenZMap

/-! ## What a plan gives -/

/-- Members that lie in the container, in order, apart, and under names of their own. -/
structure Geometry (total : UInt64) (ms : List DirectMember) : Prop where
  pos : ∀ m ∈ ms, 0 < m.size.toNat
  fits : ∀ m ∈ ms, m.start.toNat + m.size.toNat ≤ total.toNat
  ordered : ms.Pairwise fun a b => a.start.toNat + a.size.toNat ≤ b.start.toNat
  names : (ms.map (·.name)).Nodup

/-- No two neighbours are refused: the chain is unbroken. -/
theorem isChain_of_windowsAny {α : Type} {p : α → α → Bool} : ∀ {l : List α}, windowsAny p l = false →
    l.IsChain fun a b => p a b = false
  | [], _ => .nil
  | [_], _ => .singleton _
  | a :: b :: l, h => by
    unfold windowsAny at h
    rw [tail_cons, zip_cons_cons, any_cons, Bool.or_eq_false_iff] at h
    exact .cons_cons h.1 (isChain_of_windowsAny h.2)

/-- Of sorted names, no two neighbours are alike: none is there twice. -/
theorem nodup_of_sorted : ∀ {l : List String}, (l.Pairwise fun a b => a ≤ b) →
    windowsAny (fun a b => a == b) l = false → l.Nodup
  | [], _, _ => .nil
  | [_], _, _ => nodup_singleton _
  | a :: b :: l, hsorted, h => by
    obtain ⟨hhead, htail⟩ := pairwise_cons.mp hsorted
    unfold windowsAny at h
    rw [tail_cons, zip_cons_cons, any_cons, Bool.or_eq_false_iff] at h
    refine nodup_cons.mpr ⟨fun hmem => ?_, nodup_of_sorted htail h.2⟩
    have hab : a ≠ b := of_decide_eq_false h.1
    rcases mem_cons.mp hmem with rfl | hmem
    · exact hab rfl
    · exact hab (String.le_antisymm (hhead b (.head _)) ((pairwise_cons.mp htail).1 a hmem))

theorem nodup_of_namesRepeat {names : List String} (h : namesRepeat names = false) : names.Nodup := by
  refine (mergeSort_perm names fun a b => decide (a ≤ b)).nodup_iff.mp (nodup_of_sorted ?_ h)
  refine (pairwise_mergeSort (fun a b c hab hbc => ?_) (fun a b => ?_) names).imp fun hab =>
    of_decide_eq_true hab
  · exact decide_eq_true (String.le_trans (of_decide_eq_true hab) (of_decide_eq_true hbc))
  · rw [Bool.or_eq_true, decide_eq_true_eq, decide_eq_true_eq]
    exact String.le_total a b

variable {total : UInt64} {ms : List DirectMember}

theorem geometry_of_checks (hpos : ∀ m ∈ ms, 0 < m.size.toNat)
    (hfits : ∀ m ∈ ms, m.start.toNat + m.size.toNat ≤ total.toNat)
    (hchain : ms.IsChain fun a b => a.start.toNat + a.size.toNat ≤ b.start.toNat)
    (hnames : namesRepeat (ms.map (·.name)) = false) : Geometry total ms where
  pos := hpos
  fits := hfits
  ordered := by
    have : Trans (fun a b : DirectMember => a.start.toNat + a.size.toNat ≤ b.start.toNat)
      (fun a b : DirectMember => a.start.toNat + a.size.toNat ≤ b.start.toNat)
      (fun a b : DirectMember => a.start.toNat + a.size.toNat ≤ b.start.toNat) :=
        ⟨fun hab hbc => by omega⟩
    exact hchain.pairwise
  names := nodup_of_namesRepeat hnames

theorem toNat_add_of_fits {a b c : UInt64} (h : a.toNat + b.toNat ≤ c.toNat) :
    (a + b).toNat = a.toNat + b.toNat := by
  have := c.toNat_lt
  rw [UInt64.toNat_add, Nat.mod_eq_of_lt (by omega)]

theorem mem_of_mapM {α β : Type} {f : α → Option β} : ∀ {l : List α} {out : List β},
    l.mapM f = some out → ∀ b ∈ out, ∃ a ∈ l, f a = some b
  | [], out, h, b, hb => by
    cases h
    cases hb
  | a :: l, out, h, b, hb => by
    rw [mapM_cons, bind_eq_bind, bind_eq_some_iff] at h
    obtain ⟨b', hb', h⟩ := h
    rw [bind_eq_bind, bind_eq_some_iff] at h
    obtain ⟨out', hout', h⟩ := h
    cases h
    rcases mem_cons.mp hb with rfl | hb
    · exact ⟨a, .head _, hb'⟩
    · obtain ⟨a', ha', hfa'⟩ := mem_of_mapM hout' b hb
      exact ⟨a', .tail _ ha', hfa'⟩

theorem ZipMap.plan_geometry {files : List Zip.Entry} {offsets : List UInt64} {dirAt : UInt64}
    (hs : screen files = true) (h : plan files offsets dirAt total = some ms) :
    Geometry total ms := by
  unfold plan at h
  split at h
  case isTrue => cases h
  rw [bind_eq_some_iff] at h
  obtain ⟨out, hout, h⟩ := h
  split at h
  case isTrue => cases h
  case isFalse hwin =>
  split at h
  case isTrue => cases h
  case isFalse hnames =>
  cases h
  have hmember : ∀ m ∈ ms, 0 < m.size.toNat ∧ m.start.toNat + m.size.toNat ≤ total.toNat := by
    intro m hm
    obtain ⟨⟨e, start⟩, he, hf⟩ := mem_of_mapM hout m hm
    unfold member at hf
    rw [bind_eq_some_iff] at hf
    obtain ⟨stop, hstop, hf⟩ := hf
    split at hf
    case isTrue => cases hf
    case isFalse hle =>
    cases hf
    rw [checkedAdd_eq_some] at hstop
    rw [lt_iff_toNat_lt, toNat_min] at hle
    refine ⟨?_, by dsimp only at hstop ⊢; omega⟩
    unfold screen at hs
    split at hs
    case isTrue => cases hs
    have := all_eq_true.mp hs e (of_mem_zip he).1
    simp only [Bool.and_eq_true, decide_eq_true_eq] at this
    exact lt_iff_toNat_lt.mp this.1.2
  refine geometry_of_checks (fun m hm => (hmember m hm).1) (fun m hm => (hmember m hm).2) ?_
    (Bool.eq_false_iff.mpr hnames)
  refine (isChain_of_windowsAny (Bool.eq_false_iff.mpr hwin)).imp_of_mem_imp fun a b ha _ hab => ?_
  have hfits := (hmember a ha).2
  have := total.toNat_lt
  have hle := of_decide_eq_false hab
  rw [saturatingAdd, if_pos (by omega), lt_iff_toNat_lt, toNat_add_of_fits hfits] at hle
  omega

namespace SevenZMap

variable {total : UInt64} {ar : Archive}

/-- A block's stream lies in the container. -/
theorem blockAt_fits {packBase : UInt64} {x : Block × Nat} {blk : UInt64 × UInt64}
    (h : blockAt ar packBase total x = some blk) : blk.1.toNat + blk.2.toNat ≤ total.toNat := by
  unfold blockAt at h
  split at h
  case isTrue => cases h
  simp only [bind_eq_some_iff] at h
  obtain ⟨fp, -, h⟩ := h
  split at h
  case isTrue => cases h
  simp only [bind_eq_some_iff] at h
  obtain ⟨len, -, h⟩ := h
  split at h
  case isTrue => cases h
  simp only [bind_eq_some_iff] at h
  obtain ⟨off, -, start, -, stop, hstop, h⟩ := h
  split at h
  case isTrue => cases h
  case isFalse hle =>
    cases h
    rw [checkedAdd_eq_some] at hstop
    rw [lt_iff_toNat_lt] at hle
    dsimp only
    omega

/-- What the walk has placed so far lies in the container. -/
def Walk.Fits (total : UInt64) (w : Walk) : Prop :=
  ∀ m ∈ w.out, 0 < m.size.toNat ∧ m.start.toNat + m.size.toNat ≤ total.toNat

theorem Walk.Fits.place {blocks : List (UInt64 × UInt64)}
    (hblocks : ∀ blk ∈ blocks, blk.1.toNat + blk.2.toNat ≤ total.toNat) {w w' : Walk}
    (hw : w.Fits total) {x : ArchiveEntry × Nat} (h : w.place ar blocks x = some w') :
    w'.Fits total := by
  unfold Walk.place at h
  split at h
  case isTrue =>
    cases h
    exact hw
  split at h
  case isTrue => cases h
  case isFalse hsize =>
  simp only [bind_eq_some_iff] at h
  obtain ⟨_, -, b, -, blk, hblk, at_, -, stop, hstop, h⟩ := h
  split at h
  case isTrue => cases h
  case isFalse hle =>
  rw [map_eq_some_iff] at h
  obtain ⟨start, hstart, rfl⟩ := h
  intro m hm
  rcases mem_append.mp hm with hm | hm
  · exact hw m hm
  · obtain rfl := mem_singleton.mp hm
    rw [checkedAdd_eq_some] at hstop hstart
    have hb := hblocks blk (mem_of_getElem? hblk)
    rw [lt_iff_toNat_lt] at hle
    refine ⟨pos_of_ne_zero fun hzero => hsize ?_, by dsimp only; omega⟩
    have : x.1.size = 0 := UInt64.toNat_inj.mp hzero
    rw [this, beq_self_eq_true, Bool.or_true]

theorem Walk.Fits.foldlM {blocks : List (UInt64 × UInt64)}
    (hblocks : ∀ blk ∈ blocks, blk.1.toNat + blk.2.toNat ≤ total.toNat) :
    ∀ {files : List (ArchiveEntry × Nat)} {w w' : Walk}, w.Fits total →
      files.foldlM (Walk.place ar blocks) w = some w' → w'.Fits total
  | [], w, w', hw, h => by
    cases h
    exact hw
  | x :: files, w, w', hw, h => by
    rw [foldlM_cons, bind_eq_bind, bind_eq_some_iff] at h
    obtain ⟨w₁, h₁, h⟩ := h
    exact Walk.Fits.foldlM hblocks (hw.place hblocks h₁) h

/-- The ranges that a 7z's plan accepts. -/
theorem plan_geometry {archiveBase : UInt64} {ms : List DirectMember}
    (h : plan ar archiveBase total = some ms) : Geometry total ms := by
  unfold plan at h
  rw [bind_eq_some_iff] at h
  obtain ⟨base, -, h⟩ := h
  rw [bind_eq_some_iff] at h
  obtain ⟨packBase, -, h⟩ := h
  split at h
  case isTrue => cases h
  rw [bind_eq_some_iff] at h
  obtain ⟨blocks, hblocks, h⟩ := h
  rw [bind_eq_some_iff] at h
  obtain ⟨w, hw, h⟩ := h
  split at h
  case isTrue => cases h
  split at h
  case isTrue => cases h
  split at h
  case isTrue => cases h
  case isFalse hwin =>
  split at h
  case isTrue => cases h
  case isFalse hnames =>
  cases h
  have hfits : w.Fits total := Walk.Fits.foldlM (fun blk hblk => by
    obtain ⟨x, -, hx⟩ := mem_of_mapM hblocks blk hblk
    exact blockAt_fits hx) (fun m hm => absurd hm not_mem_nil) hw
  refine geometry_of_checks (fun m hm => (hfits m hm).1) (fun m hm => (hfits m hm).2) ?_
    (Bool.eq_false_iff.mpr hnames)
  refine (isChain_of_windowsAny (Bool.eq_false_iff.mpr hwin)).imp_of_mem_imp fun a b ha _ hab => ?_
  have hle := of_decide_eq_false hab
  rw [lt_iff_toNat_lt, toNat_add_of_fits (hfits a ha).2] at hle
  omega

end SevenZMap

/-! ## Parts -/

/-- An entry of a part, with the CRC that the settle gate reads. -/
structure DirectEntry extends Rar.FileEntry where
  fileCrc : Option UInt32
  deriving DecidableEq

/-- A member's piece in the part over `[pstart, pend)`, with its base. -/
def piece (pstart pend : UInt64) (m : DirectMember) : Option (DirectEntry × UInt64) :=
  let s := max m.start pstart
  let e := min (m.start + m.size) pend
  if e ≤ s then none
  else
    let splitAfter := decide (e < m.start + m.size)
    some ({
      name := m.name
      unpackedSize := m.size
      splitBefore := decide (m.start < s)
      splitAfter
      dataOff := s - pstart
      dataLen := e - s
      fileCrc := if splitAfter then none else m.crc }, s - m.start)

/-- `direct_install`: the entries and bases of a part. -/
def directInstall (idx : Nat) (partSize size : UInt64) (map : List DirectMember) :
    List (DirectEntry × UInt64) :=
  let pstart := UInt64.ofNat (idx - 1) * partSize
  map.filterMap (piece pstart (saturatingAdd pstart size))

def partStart (partSize : UInt64) (idx : Nat) : Nat := (idx - 1) * partSize.toNat

/-- How long a part is: the last one may be shorter. -/
def partLen (total partSize : UInt64) (idx : Nat) : Nat :=
  min partSize.toNat (total.toNat - partStart partSize idx)

def IsPart (total partSize : UInt64) (idx : Nat) : Prop := 0 < idx ∧ partStart partSize idx < total.toNat

def install (total partSize : UInt64) (map : List DirectMember) (idx : Nat) : List (DirectEntry × UInt64) :=
  directInstall idx partSize (UInt64.ofNat (partLen total partSize idx)) map

/-- The entry is the piece of `m` in `[lo, hi)`. -/
structure PieceOf (lo hi : Nat) (m : DirectMember) (x : DirectEntry × UInt64) : Prop where
  lt : max m.start.toNat lo < min (m.start.toNat + m.size.toNat) hi
  name : x.1.name = m.name
  off : lo + x.1.dataOff.toNat = max m.start.toNat lo
  stop : lo + x.1.dataOff.toNat + x.1.dataLen.toNat = min (m.start.toNat + m.size.toNat) hi
  base : m.start.toNat + x.2.toNat = max m.start.toNat lo
  splitBefore : x.1.splitBefore = decide (m.start.toNat < lo)
  splitAfter : x.1.splitAfter = decide (hi < m.start.toNat + m.size.toNat)
  crc : x.1.fileCrc = if hi < m.start.toNat + m.size.toNat then none else m.crc

section Install

variable {total partSize : UInt64} {ms : List DirectMember}

theorem piece_spec {pstart pend : UInt64} {m : DirectMember}
    (hfits : m.start.toNat + m.size.toNat ≤ total.toNat) :
    (piece pstart pend m = none ∧
        min (m.start.toNat + m.size.toNat) pend.toNat ≤ max m.start.toNat pstart.toNat) ∨
      ∃ x, piece pstart pend m = some x ∧ PieceOf pstart.toNat pend.toNat m x := by
  have hstop := toNat_add_of_fits hfits
  have hmax : (max m.start pstart).toNat = max m.start.toNat pstart.toNat := toNat_max _ _
  have hmin : (min (m.start + m.size) pend).toNat = min (m.start.toNat + m.size.toNat) pend.toNat := by
    rw [toNat_min, hstop]
  unfold piece
  dsimp only
  split
  case isTrue hle =>
    rw [le_iff_toNat_le, hmin, hmax] at hle
    exact .inl ⟨rfl, hle⟩
  case isFalse hlt =>
    rw [le_iff_toNat_le, hmin, hmax, not_le] at hlt
    have hsub : (max m.start pstart - pstart).toNat = max m.start.toNat pstart.toNat - pstart.toNat := by
      rw [UInt64.toNat_sub_of_le _ _ (by rw [UInt64.le_iff_toNat_le, hmax]; omega), hmax]
    have hbase : (max m.start pstart - m.start).toNat = max m.start.toNat pstart.toNat - m.start.toNat := by
      rw [UInt64.toNat_sub_of_le _ _ (by rw [UInt64.le_iff_toNat_le, hmax]; omega), hmax]
    have hlen : (min (m.start + m.size) pend - max m.start pstart).toNat =
        min (m.start.toNat + m.size.toNat) pend.toNat - max m.start.toNat pstart.toNat := by
      rw [UInt64.toNat_sub_of_le _ _ (by rw [UInt64.le_iff_toNat_le, hmin, hmax]; omega), hmin, hmax]
    have hafter : (min (m.start + m.size) pend < m.start + m.size) ↔
        pend.toNat < m.start.toNat + m.size.toNat := by
      rw [lt_iff_toNat_lt, hmin, hstop]
      omega
    have hbefore : (m.start < max m.start pstart) ↔ m.start.toNat < pstart.toNat := by
      rw [lt_iff_toNat_lt, hmax]
      omega
    refine .inr ⟨_, rfl, hlt, rfl, ?_, ?_, ?_, ?_, ?_, ?_⟩
    · dsimp only
      omega
    · dsimp only
      omega
    · dsimp only
      omega
    · exact decide_eq_decide.mpr hbefore
    · exact decide_eq_decide.mpr hafter
    · dsimp only
      simp [hafter]

variable {idx : Nat}

theorem part_bounds (hps : 0 < partSize.toNat) (hidx : IsPart total partSize idx) :
    (UInt64.ofNat (idx - 1) * partSize).toNat = partStart partSize idx ∧
      (saturatingAdd (UInt64.ofNat (idx - 1) * partSize) (UInt64.ofNat (partLen total partSize idx))).toNat =
        partStart partSize idx + partLen total partSize idx := by
  obtain ⟨-, hlt⟩ := hidx
  have ht := total.toNat_lt
  have hidx : idx - 1 ≤ partStart partSize idx := Nat.le_mul_of_pos_right _ hps
  have hlen : partLen total partSize idx ≤ total.toNat - partStart partSize idx := min_le_right _ _
  have hstart : (UInt64.ofNat (idx - 1) * partSize).toNat = partStart partSize idx := by
    rw [UInt64.toNat_mul, UInt64.toNat_ofNat_of_lt' (show idx - 1 < 2 ^ 64 by omega), Nat.mod_eq_of_lt (by exact lt_trans hlt ht)]
    rfl
  refine ⟨hstart, ?_⟩
  have hlen' := toNat_ofNat_of_lt' (show partLen total partSize idx < 2 ^ 64 by omega)
  rw [saturatingAdd, if_pos (by omega), @toNat_add_of_fits _ _ total (by omega), hstart, hlen']

/-- A part's entries are the pieces of the members that reach into it. -/
theorem mem_install (hps : 0 < partSize.toNat) (hms : Geometry total ms)
    (hidx : IsPart total partSize idx) :
    (∀ x ∈ install total partSize ms idx, ∃ m ∈ ms,
      PieceOf (partStart partSize idx) (partStart partSize idx + partLen total partSize idx) m x) ∧
    ∀ m ∈ ms, max m.start.toNat (partStart partSize idx) < min (m.start.toNat + m.size.toNat)
        (partStart partSize idx + partLen total partSize idx) →
      ∃ x ∈ install total partSize ms idx,
        PieceOf (partStart partSize idx) (partStart partSize idx + partLen total partSize idx) m x := by
  obtain ⟨hlo, hhi⟩ := part_bounds hps hidx
  rw [← hhi, ← hlo]
  refine ⟨fun x hx => ?_, fun m hm hlt => ?_⟩
  · obtain ⟨m, hm, hx⟩ := mem_filterMap.mp hx
    rcases piece_spec (hms.fits m hm) with ⟨hnone, -⟩ | ⟨x', hx', hp⟩
    · rw [hnone] at hx
      cases hx
    · rw [hx'] at hx
      cases hx
      exact ⟨m, hm, hp⟩
  · rcases piece_spec (hms.fits m hm) with ⟨-, hle⟩ | ⟨x, hx, hp⟩
    · exact absurd hlt (not_lt.mpr hle)
    · exact ⟨x, mem_filterMap.mpr ⟨m, hm, hx⟩, hp⟩

/-- A part's entries go up and keep apart. -/
theorem install_ordered (hms : Geometry total ms) : (install total partSize ms idx).Pairwise fun x y =>
      x.1.dataOff.toNat + x.1.dataLen.toNat ≤ y.1.dataOff.toNat := by
  refine pairwise_filterMap.mpr (hms.ordered.imp_of_mem fun {m n} hm hn hmn x hx y hy => ?_)
  rcases piece_spec (hms.fits m hm) with ⟨hnone, -⟩ | ⟨x', hx', hp⟩
  · rw [hnone] at hx
    cases hx
  rcases piece_spec (hms.fits n hn) with ⟨hnone, -⟩ | ⟨y', hy', hq⟩
  · rw [hnone] at hy
    cases hy
  rw [hx'] at hx
  rw [hy'] at hy
  cases hx
  cases hy
  have h1 := hp.stop
  have h2 := hq.off
  omega

end Install

/-! ## Routing -/

/-- `map_span_into`: which entry, where in it, where in the span, and how much. -/
def mapSpan (entries : List Rar.FileEntry) (off len : Nat) : List (Nat × Nat × Nat × Nat) :=
  let spanEnd := off + len
  let start := (entries.takeWhile fun e => decide (e.dataOff.toNat + e.dataLen.toNat ≤ off)).length
  ((entries.zipIdx.drop start).takeWhile fun x => decide (x.1.dataOff.toNat < spanEnd)).filterMap fun x =>
    let ds := x.1.dataOff.toNat
    let de := x.1.dataOff.toNat + x.1.dataLen.toNat
    let s := max off ds
    let e := min spanEnd de
    if s < e then some (x.2, s - ds, s - off, e - s) else none

/-- `base_for`, of a part whose bases are all there. -/
def baseFor (x : DirectEntry × UInt64) : Nat := if x.1.splitBefore then x.2.toNat else 0

/-- `extract_span`: the writes that a span of a part makes, each to a member's file. -/
def extractSpan (part : List (DirectEntry × UInt64)) (off : Nat) (data : List UInt8) :
    List (String × Nat × List UInt8) :=
  (mapSpan (part.map fun x => x.1.toFileEntry) off data.length).filterMap fun hit =>
    (part[hit.1]?).map fun x =>
      (x.1.name, baseFor x + hit.2.1, (data.drop hit.2.2.1).take hit.2.2.2)

/-- Where the elements before one that passes pass too, it is in the first stretch. -/
theorem mem_takeWhile_of_pairwise {α : Type} {q : α → Bool} {x : α} (hq : q x = true) :
    ∀ {l : List α}, (l.Pairwise fun a b => q b = true → q a = true) → x ∈ l → x ∈ l.takeWhile q
  | a :: l, hp, hx => by
    obtain ⟨hhead, htail⟩ := pairwise_cons.mp hp
    have ha : q a = true := by
      rcases mem_cons.mp hx with rfl | hx
      · exact hq
      · exact hhead x hx hq
    rw [takeWhile_cons, if_pos ha]
    rcases mem_cons.mp hx with rfl | hx
    · exact .head _
    · exact .tail _ (mem_takeWhile_of_pairwise hq htail hx)

theorem of_takeWhile {α : Type} {q : α → Bool} {x : α} : ∀ {l : List α} {i : Nat}, l[i]? = some x →
    i < (l.takeWhile q).length → q x = true
  | a :: l, i, hi, hlt => by
    rw [takeWhile_cons] at hlt
    split at hlt
    case isFalse => exact absurd hlt (Nat.not_lt_zero _)
    case isTrue ha =>
      cases i with
      | zero =>
        cases hi
        exact ha
      | succ i => exact of_takeWhile (l := l) (i := i) hi (Nat.lt_of_succ_lt_succ hlt)

theorem mem_mapSpan {entries : List Rar.FileEntry} {off len : Nat}
    (hord : entries.Pairwise fun x y => x.dataOff.toNat + x.dataLen.toNat ≤ y.dataOff.toNat)
    {hit : Nat × Nat × Nat × Nat} : hit ∈ mapSpan entries off len ↔
      ∃ e, entries[hit.1]? = some e ∧
        max off e.dataOff.toNat < min (off + len) (e.dataOff.toNat + e.dataLen.toNat) ∧
        hit.2.1 = max off e.dataOff.toNat - e.dataOff.toNat ∧ hit.2.2.1 = max off e.dataOff.toNat - off ∧
        hit.2.2.2 = min (off + len) (e.dataOff.toNat + e.dataLen.toNat) - max off e.dataOff.toNat := by
  obtain ⟨i, po, so, n⟩ := hit
  unfold mapSpan
  rw [mem_filterMap]
  constructor
  · rintro ⟨⟨e, j⟩, hx, hhit⟩
    have hmem := (drop_sublist _ _).subset ((takeWhile_sublist _).subset hx)
    dsimp only at hhit
    split at hhit
    case isFalse => cases hhit
    case isTrue hlt =>
      cases hhit
      exact ⟨e, mem_zipIdx_iff_getElem?.mp hmem, hlt, rfl, rfl, rfl⟩
  · rintro ⟨e, hi, hlt, rfl, rfl, rfl⟩
    refine ⟨(e, i), mem_takeWhile_of_pairwise ?_ ?_ ?_, ?_⟩
    · dsimp only
      rw [decide_eq_true_eq]
      omega
    · refine List.Pairwise.sublist (drop_sublist _ _) ?_
      have hfst : (entries.zipIdx.map Prod.fst).Pairwise fun x y =>
          x.dataOff.toNat + x.dataLen.toNat ≤ y.dataOff.toNat := by
        rw [zipIdx_map_fst]
        exact hord
      refine (pairwise_map.mp hfst).imp fun {x y} hxy hy => ?_
      rw [decide_eq_true_eq] at hy ⊢
      omega
    · -- what the search for the start skips ends before the span
      have hstart : (entries.takeWhile fun e => decide (e.dataOff.toNat + e.dataLen.toNat ≤ off)).length ≤ i := by
        by_contra hskip
        have := of_takeWhile hi (not_le.mp hskip)
        rw [decide_eq_true_eq] at this
        omega
      refine mem_of_getElem? (i := i - (entries.takeWhile fun e =>
        decide (e.dataOff.toNat + e.dataLen.toNat ≤ off)).length) ?_
      rw [getElem?_drop, getElem?_zipIdx, Nat.add_sub_cancel' hstart, hi, map_some, zero_add]
    · dsimp only
      rw [if_pos hlt]

theorem take_drop_take_drop {α : Type} (v : List α) {a n k l : Nat} (h : k + l ≤ n) :
    (((v.drop a).take n).drop k).take l = (v.drop (a + k)).take l := by
  rw [drop_take, take_take, drop_drop, min_eq_left (by omega)]

/-- A write puts bytes of a member where they belong in its file. -/
def Belongs (container : List UInt8) (ms : List DirectMember) (w : String × Nat × List UInt8) : Prop :=
  ∃ m ∈ ms, w.1 = m.name ∧ w.2.1 + w.2.2.length ≤ m.size.toNat ∧
    w.2.2 = (container.drop (m.start.toNat + w.2.1)).take w.2.2.length

section Route

variable {total partSize : UInt64} {ms : List DirectMember} {container : List UInt8}

/-- A span of a part is written where its members' files have it, and all that is a member's is written. -/
theorem extractSpan_spec (hps : 0 < partSize.toNat) (hms : Geometry total ms)
    (hlen : container.length = total.toNat) {idx : Nat} (hidx : IsPart total partSize idx) {off n : Nat}
    (hspan : off + n ≤ partLen total partSize idx) :
    (∀ w ∈ extractSpan (install total partSize ms idx) off
        ((container.drop (partStart partSize idx + off)).take n), Belongs container ms w) ∧
      ∀ m ∈ ms, ∀ o, m.start.toNat ≤ o → o < m.start.toNat + m.size.toNat →
        partStart partSize idx + off ≤ o → o < partStart partSize idx + off + n →
        ∃ w ∈ extractSpan (install total partSize ms idx) off
            ((container.drop (partStart partSize idx + off)).take n),
          w.1 = m.name ∧ w.2.1 ≤ o - m.start.toNat ∧ o - m.start.toNat < w.2.1 + w.2.2.length := by
  obtain ⟨hpieces, hreach⟩ := mem_install hps hms hidx
  have hord : (install total partSize ms idx).Pairwise _ := install_ordered hms
  have hend : partStart partSize idx + partLen total partSize idx ≤ total.toNat := by
    have := hidx.2
    unfold partLen
    omega
  have hdata : ((container.drop (partStart partSize idx + off)).take n).length = n := by
    rw [length_take, length_drop]
    omega
  have hhit : ∀ hit, hit ∈ mapSpan ((install total partSize ms idx).map fun x => x.1.toFileEntry) off n ↔ _ :=
    fun hit => mem_mapSpan (pairwise_map.mpr hord)
  generalize partStart partSize idx = lo at *
  unfold extractSpan
  rw [hdata]
  -- where a piece's bytes lie
  have hbase : ∀ {m x}, PieceOf lo (lo + partLen total partSize idx) m x →
      m.start.toNat + baseFor x = lo + x.1.dataOff.toNat := fun {m x} hp => by
    have h1 := hp.base
    have h2 := hp.off
    unfold baseFor
    rw [hp.splitBefore]
    by_cases hs : m.start.toNat < lo
    · rw [if_pos (decide_eq_true hs)]
      omega
    · rw [if_neg (by rw [decide_eq_true_eq]; exact hs)]
      omega
  refine ⟨fun w hw => ?_, fun m hm o hlo hhi hslo hshi => ?_⟩
  · obtain ⟨⟨i, po, so, l⟩, hmem, hw⟩ := mem_filterMap.mp hw
    obtain ⟨x, hx, rfl⟩ := map_eq_some_iff.mp hw
    obtain ⟨e, he, hlt, hpo, hso, hl⟩ := (hhit _).mp hmem
    dsimp only at hx he hpo hso hl ⊢
    rw [getElem?_map, hx, map_some] at he
    cases he
    obtain ⟨m, hm, hp⟩ := hpieces x (mem_of_getElem? hx)
    have hb := hbase hp
    have hstop := hp.stop
    have hwlen : ((((container.drop (lo + off)).take n).drop so).take l).length = l := by
      rw [length_take, length_drop, hdata]
      omega
    refine ⟨m, hm, hp.name, ?_, ?_⟩
    · dsimp only
      omega
    · dsimp only
      rw [hwlen, take_drop_take_drop _ (by omega)]
      congr 2
      omega
  · obtain ⟨x, hx, hp⟩ := hreach m hm (by omega)
    obtain ⟨i, hi⟩ := mem_iff_getElem?.mp hx
    have hb := hbase hp
    have hstop := hp.stop
    have hoff := hp.off
    have hlt : max off x.1.dataOff.toNat < min (off + n) (x.1.dataOff.toNat + x.1.dataLen.toNat) := by omega
    refine ⟨_, mem_filterMap.mpr ⟨(i, max off x.1.dataOff.toNat - x.1.dataOff.toNat,
      max off x.1.dataOff.toNat - off,
      min (off + n) (x.1.dataOff.toNat + x.1.dataLen.toNat) - max off x.1.dataOff.toNat),
      (hhit _).mpr ⟨x.1.toFileEntry, by rw [getElem?_map, hi]; rfl, hlt, rfl, rfl, rfl⟩,
      by rw [hi, map_some]⟩, hp.name, ?_, ?_⟩
    · dsimp only
      omega
    · dsimp only
      rw [length_take, length_drop, hdata]
      omega

def writeMember (fs : String → List UInt8) (w : String × Nat × List UInt8) : String → List UInt8 :=
  Function.update fs w.1 (writeAllAt (fs w.1) w.2.1 w.2.2)

/-- The files once spans are routed: each a part, an offset in it and a length. -/
def routed (container : List UInt8) (total partSize : UInt64) (ms : List DirectMember)
    (spans : List (Nat × Nat × Nat)) : String → List UInt8 :=
  (spans.flatMap fun f => extractSpan (install total partSize ms f.1) f.2.1
    ((container.drop (partStart partSize f.1 + f.2.1)).take f.2.2)).foldl writeMember fun _ => []

/-- The files hold members' bytes where `ws` wrote them, and nothing longer. -/
def WroteMembers (container : List UInt8) (ms : List DirectMember) (ws : List (String × Nat × List UInt8))
    (fs : String → List UInt8) : Prop :=
  ∀ m ∈ ms, (fs m.name).length ≤ m.size.toNat ∧
    ∀ x, (∃ w ∈ ws, w.1 = m.name ∧ w.2.1 ≤ x ∧ x < w.2.1 + w.2.2.length) →
      (fs m.name)[x]? = container[m.start.toNat + x]?

theorem WroteMembers.write (hms : Geometry total ms) (hlen : container.length = total.toNat)
    {ws : List (String × Nat × List UInt8)} {fs : String → List UInt8} (h : WroteMembers container ms ws fs)
    {w : String × Nat × List UInt8} (hw : Belongs container ms w) :
    WroteMembers container ms (ws ++ [w]) (writeMember fs w) := by
  obtain ⟨m₀, hm₀, hname, hfit, hbytes⟩ := hw
  intro m hm
  obtain ⟨hshort, hright⟩ := h m hm
  unfold writeMember
  by_cases hsame : m.name = w.1
  case neg =>
    rw [Function.update_of_ne hsame]
    refine ⟨hshort, fun x ⟨w', hw', hn, hx⟩ => hright x ⟨w', ?_, hn, hx⟩⟩
    rcases mem_append.mp hw' with hw' | hw'
    · exact hw'
    · obtain rfl := mem_singleton.mp hw'
      exact absurd hn.symm hsame
  case pos =>
    obtain rfl : m = m₀ := inj_on_of_nodup_map hms.names hm hm₀ (hsame.trans hname)
    rw [← hsame, Function.update_self]
    refine ⟨?_, fun x hx => ?_⟩
    · rw [length_writeAllAt]
      omega
    · rw [getElem?_writeAllAt]
      by_cases hin : w.2.1 ≤ x ∧ x < w.2.1 + w.2.2.length
      · rw [if_pos hin, hbytes, getElem?_take, if_pos (by omega), getElem?_drop]
        congr 1
        omega
      · have hfits := hms.fits m hm
        have hold : (fs m.name)[x]? = container[m.start.toNat + x]? := by
          obtain ⟨w', hw', hn, hx⟩ := hx
          rcases mem_append.mp hw' with hw' | hw'
          · exact hright x ⟨w', hw', hn, hx⟩
          · obtain rfl := mem_singleton.mp hw'
            exact absurd hx hin
        rw [if_neg hin]
        -- a gap before the new bytes that had been written is not a gap
        have hnogap : ¬ (x < w.2.1 ∧ (fs m.name).length ≤ x) := fun ⟨hlt, hle⟩ => by
          rw [getElem?_eq_none hle] at hold
          have := List.getElem?_eq_none_iff.mp hold.symm
          omega
        rw [if_neg hnogap]
        exact hold

theorem WroteMembers.foldl (hms : Geometry total ms) (hlen : container.length = total.toNat) :
    ∀ {ws done : List (String × Nat × List UInt8)} {fs : String → List UInt8},
      WroteMembers container ms done fs → (∀ w ∈ ws, Belongs container ms w) →
      WroteMembers container ms (done ++ ws) (ws.foldl writeMember fs)
  | [], done, fs, h, _ => by
    rw [append_nil]
    exact h
  | w :: ws, done, fs, h, hws => by
    have := WroteMembers.foldl hms hlen (h.write hms hlen (hws w (.head _))) fun w' hw' =>
      hws w' (.tail _ hw')
    rw [append_assoc, singleton_append] at this
    exact this

theorem foldl_writeMember_of_ne {name : String} : ∀ {ws : List (String × Nat × List UInt8)}
    {fs : String → List UInt8}, (∀ w ∈ ws, w.1 ≠ name) → ws.foldl writeMember fs name = fs name
  | [], _, _ => rfl
  | w :: ws, fs, h => by
    rw [foldl_cons, foldl_writeMember_of_ne fun w' hw' => h w' (.tail _ hw'), writeMember,
      Function.update_of_ne (h w (.head _)).symm]

/-- Whatever the order of the spans, once a member's bytes are all in, its file is those bytes. -/
theorem routed_eq (hps : 0 < partSize.toNat) (hms : Geometry total ms)
    (hlen : container.length = total.toNat) {spans : List (Nat × Nat × Nat)}
    (hspans : ∀ f ∈ spans, IsPart total partSize f.1 ∧ f.2.1 + f.2.2 ≤ partLen total partSize f.1)
    {m : DirectMember} (hm : m ∈ ms)
    (hall : ∀ o, m.start.toNat ≤ o → o < m.start.toNat + m.size.toNat → ∃ f ∈ spans,
      partStart partSize f.1 + f.2.1 ≤ o ∧ o < partStart partSize f.1 + f.2.1 + f.2.2) :
    routed container total partSize ms spans m.name = (container.drop m.start.toNat).take m.size.toNat := by
  have hw := @WroteMembers.foldl total ms container hms hlen (spans.flatMap fun f =>
      extractSpan (install total partSize ms f.1) f.2.1
        ((container.drop (partStart partSize f.1 + f.2.1)).take f.2.2)) [] (fun _ => [])
    (fun m _ => ⟨Nat.zero_le _, fun x ⟨w, hw, _⟩ => absurd hw not_mem_nil⟩) fun w hw => by
      obtain ⟨f, hf, hw⟩ := mem_flatMap.mp hw
      obtain ⟨hidx, hspan⟩ := hspans f hf
      exact (extractSpan_spec hps hms hlen hidx hspan).1 w hw
  obtain ⟨hshort, hright⟩ := hw m hm
  refine ext_getElem? fun x => ?_
  rw [getElem?_take]
  split
  case isFalse hx => exact getElem?_eq_none (hshort.trans (not_lt.mp hx))
  case isTrue hx =>
    rw [getElem?_drop]
    refine hright x ?_
    obtain ⟨f, hf, hflo, hfhi⟩ := hall (m.start.toNat + x) (Nat.le_add_right _ _) (by omega)
    obtain ⟨hidx, hspan⟩ := hspans f hf
    obtain ⟨w, hw, hn, hlo, hhi⟩ := (extractSpan_spec hps hms hlen hidx hspan).2 m hm (m.start.toNat + x)
      (Nat.le_add_right _ _) (by omega) hflo hfhi
    exact ⟨w, mem_flatMap.mpr ⟨f, hf, hw⟩, hn, by omega, by omega⟩

theorem piece_once (hps : 0 < partSize.toNat) (hms : Geometry total ms) {m : DirectMember} (hm : m ∈ ms)
    {o : Nat} (hlo : m.start.toNat ≤ o) (hhi : o < m.start.toNat + m.size.toNat) :
    ∃! p : Nat × DirectEntry × UInt64, IsPart total partSize p.1 ∧ p.2 ∈ install total partSize ms p.1 ∧
      partStart partSize p.1 + p.2.1.dataOff.toNat ≤ o ∧
      o < partStart partSize p.1 + p.2.1.dataOff.toNat + p.2.1.dataLen.toNat := by
  have hfits := hms.fits m hm
  -- the part that the byte falls in
  have hdiv := Nat.div_add_mod o partSize.toNat
  have hmod := Nat.mod_lt o hps
  have hstart : partStart partSize (o / partSize.toNat + 1) = o / partSize.toNat * partSize.toNat := rfl
  rw [mul_comm] at hdiv
  have hidx : IsPart total partSize (o / partSize.toNat + 1) := ⟨Nat.succ_pos _, by omega⟩
  have hin : o < partStart partSize (o / partSize.toNat + 1) + partLen total partSize (o / partSize.toNat + 1) := by
    unfold partLen
    omega
  obtain ⟨x, hx, hp⟩ := (mem_install hps hms hidx).2 m hm (by omega)
  have hoff := hp.off
  have hstop := hp.stop
  refine ⟨(_, x), ⟨hidx, hx, by dsimp only; omega, by dsimp only; omega⟩, ?_⟩
  rintro ⟨j, y⟩ ⟨hj, hy, hylo, hyhi⟩
  dsimp only at hj hy hylo hyhi
  obtain ⟨n, hn, hq⟩ := (mem_install hps hms hj).1 y hy
  have hqstop := hq.stop
  -- no other part has the byte
  have hji : j = o / partSize.toNat + 1 := by
    have hlen : partLen total partSize j ≤ partSize.toNat := min_le_left _ _
    have hj1 : (j - 1) * partSize.toNat ≤ o := by
      have : partStart partSize j = (j - 1) * partSize.toNat := rfl
      omega
    have hj2 : o < (j - 1) * partSize.toNat + partSize.toNat := by
      have : partStart partSize j = (j - 1) * partSize.toNat := rfl
      omega
    have := hj.1
    have : o / partSize.toNat = j - 1 := Nat.div_eq_of_lt_le hj1 (by rw [Nat.succ_mul]; exact hj2)
    omega
  subst hji
  -- and its entry there starts where this one does
  have hxy : y = x := by
    have : Std.Symm fun a b : DirectEntry × UInt64 => a.1.dataOff.toNat + a.1.dataLen.toNat ≤ b.1.dataOff.toNat ∨
        b.1.dataOff.toNat + b.1.dataLen.toNat ≤ a.1.dataOff.toNat := ⟨fun _ _ => Or.symm⟩
    have hapart : (install total partSize ms (o / partSize.toNat + 1)).Pairwise fun a b =>
        a.1.dataOff.toNat + a.1.dataLen.toNat ≤ b.1.dataOff.toNat ∨
          b.1.dataOff.toNat + b.1.dataLen.toNat ≤ a.1.dataOff.toNat :=
      (install_ordered hms).imp .inl
    by_contra hne
    have := hapart.forall hy hx hne
    omega
  rw [hxy]

end Route

/-- The parts' entries route a container as its reader would read it. -/
structure RoutesMembers (total partSize : UInt64) (ms : List DirectMember) : Prop where
  ordered : ∀ idx, IsPart total partSize idx → (install total partSize ms idx).Pairwise fun x y =>
    x.1.dataOff.toNat + x.1.dataLen.toNat ≤ y.1.dataOff.toNat
  /-- An entry is its member's piece in the part: the bytes, the base, the seams and the CRC. -/
  piece : ∀ idx, IsPart total partSize idx → ∀ x ∈ install total partSize ms idx, ∃ m ∈ ms,
    PieceOf (partStart partSize idx) (partStart partSize idx + partLen total partSize idx) m x
  once : ∀ m ∈ ms, ∀ o, m.start.toNat ≤ o → o < m.start.toNat + m.size.toNat →
    ∃! p : Nat × DirectEntry × UInt64, IsPart total partSize p.1 ∧ p.2 ∈ install total partSize ms p.1 ∧
      partStart partSize p.1 + p.2.1.dataOff.toNat ≤ o ∧
      o < partStart partSize p.1 + p.2.1.dataOff.toNat + p.2.1.dataLen.toNat
  routed : ∀ container : List UInt8, container.length = total.toNat → ∀ spans : List (Nat × Nat × Nat),
    (∀ f ∈ spans, IsPart total partSize f.1 ∧ f.2.1 + f.2.2 ≤ partLen total partSize f.1) →
    (∀ m ∈ ms, (∀ o, m.start.toNat ≤ o → o < m.start.toNat + m.size.toNat → ∃ f ∈ spans,
      partStart partSize f.1 + f.2.1 ≤ o ∧ o < partStart partSize f.1 + f.2.1 + f.2.2) →
      Extract.routed container total partSize ms spans m.name =
        (container.drop m.start.toNat).take m.size.toNat) ∧
    ∀ name, (∀ m ∈ ms, m.name ≠ name) → Extract.routed container total partSize ms spans name = []

theorem Geometry.routes {partSize : UInt64} (hms : Geometry total ms) (hps : 0 < partSize.toNat) :
    RoutesMembers total partSize ms where
  ordered _ _ := install_ordered hms
  piece _ hidx := (mem_install hps hms hidx).1
  once _ hm _ hlo hhi := piece_once hps hms hm hlo hhi
  routed container hlen spans hspans := by
    refine ⟨fun m hm hall => routed_eq hps hms hlen hspans hm hall, fun name hname => ?_⟩
    refine foldl_writeMember_of_ne fun w hw => ?_
    obtain ⟨f, hf, hw⟩ := mem_flatMap.mp hw
    obtain ⟨hidx, hspan⟩ := hspans f hf
    obtain ⟨m, hm, hn, -⟩ := (extractSpan_spec hps hms hlen hidx hspan).1 w hw
    rw [hn]
    exact hname m hm

/-- Every map that a plan accepts, cut at any part size, routes its members. -/
theorem direct_routes {total partSize : UInt64} {ms : List DirectMember} (hps : 0 < partSize)
    (h : (∃ files offsets dirAt, ZipMap.screen files = true ∧
        ZipMap.plan files offsets dirAt total = some ms) ∨
      ∃ ar archiveBase, SevenZMap.plan ar archiveBase total = some ms) :
    RoutesMembers total partSize ms := by
  rcases h with ⟨files, offsets, dirAt, hs, hplan⟩ | ⟨ar, archiveBase, hplan⟩
  · exact (ZipMap.plan_geometry hs hplan).routes hps
  · exact (SevenZMap.plan_geometry hplan).routes hps

def storedEntry (name : String) : Zip.Entry where
  name
  method := 0
  crc32 := 7
  compressedSize := 20
  uncompressedSize := 20
  isDir := false
  flags := 0
  dosTime := 0
  aes := none
  unixMode := 0
  localOffset := 0

theorem direct_routes_storedEntry :
    let ms : List DirectMember := [{ name := "a", start := 31, size := 20, crc := some 7 }]
    ZipMap.plan [storedEntry "a"] [31] 51 120 = some ms ∧ RoutesMembers 120 40 ms := by
  intro ms
  have hplan : ZipMap.plan [storedEntry "a"] [31] 51 120 = some ms := by decide +kernel
  exact ⟨hplan, direct_routes (by decide) (.inl ⟨[storedEntry "a"], [31], 51, by decide, hplan⟩)⟩

end NzbFast.Extract
