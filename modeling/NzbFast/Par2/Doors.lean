import NzbFast.Par2.Ranges
import NzbFast.Wire.Crc

/-!
# Verifying a file on disk

`verify_file_path_tiered` (`crates/nzbkit-base/src/par2/verify.rs`) chooses among
the verify doors by what the metadata says: a pipe is streamed, a regular file of
the declared size goes through the one-pass door, one of another size through its
head and its blocks. The fast tier comes before the one-pass door and answers for
a file whose blocks are all proven and all match. Whatever is chosen, the verdict
is the reference's over the whole content; the tier parts from it only where the
blocks match and the file's own MD5 does not.
-/

namespace NzbFast.Par2

open Wire (Source readLoop readLoop_inv readLoop_total)
open Option
open List

def VERIFY_MIN_CHUNK : Nat := 64 * 1024

/-- A file opened by its path: its bytes, and how its reads go, pass by pass for the sequential
ones and by place for the positioned ones. -/
structure OpenFile where
  content : List UInt8
  isFile : Bool
  plan : Nat → Nat → Option Nat
  fails : Nat → Nat → Bool
  small : content.length < 2 ^ 64

/-- The handle at offset 0, as pass `k` finds it. -/
def OpenFile.pass (f : OpenFile) (k : Nat) : Source := ⟨f.content, f.plan k⟩

/-- What the machine decides about a pool's width. -/
structure Machine where
  cpuWorkers : Nat
  apple : Bool
  network : Bool

/-- `VERIFY_NETWORK_WORKERS`, where the storage class is the network's. -/
def Machine.networkCap (m : Machine) : Option Nat := if m.apple && m.network then some 4 else none

def regularFileSizeMismatch (isFile : Bool) (observed expected : Nat) : Bool :=
  isFile && observed ≠ expected

def wholeFileBufferLen (fileLen diskLen : Nat) : Nat :=
  min (max (max fileLen diskLen) VERIFY_MIN_CHUNK) VERIFY_CHUNK

def ifscCoversEveryBlock (file : Par2File) (blockSize : Nat) : Bool :=
  if blockSize = 0 ∨ file.length = 0 then false
  else
    file.blocks.length = (file.length + blockSize - 1) / blockSize &&
      file.blocks.all BlockCheck.isProven

section Model

variable (md5 : List UInt8 → List UInt8) (crc32 : List UInt8 → Nat) (crc32Zeros : Nat → Nat → Nat)
  (m : Machine)

def verifyHead (file : Par2File) (src : Source) : Option Bool :=
  (readLoop (fun filled : List UInt8 => HASH16K_LEN - filled.length)
    (fun filled => decide (HASH16K_LEN ≤ filled.length)) (· ++ ·) (src.rest.length + 1) src
    []).map fun filled => decide (md5 filled = file.md5_16k)

/-- `verify_blocks_path_or_streaming`; `k` is the pass it streams in. -/
def verifyBlocksPathOrStreaming (f : OpenFile) (k : Nat) (file : Par2File)
    (blockSize threads : Nat) : Option (List Bool) :=
  if 1 < threads ∧ 1 < file.blocks.length ∧ VERIFY_PAR_MIN_BYTES ≤ f.content.length ∧
      0 < blockSize then
    verifyBlocksPathParallel md5 crc32 crc32Zeros (readExactAt f.content f.fails) m.cpuWorkers
      m.networkCap file blockSize f.content.length threads
  else verifyBlocksStreaming md5 crc32 crc32Zeros file blockSize (f.pass k)

/-- `ifsc_only_attempt`: the inner option is the tier's own, `none` where it declines. -/
def ifscOnlyAttempt (f : OpenFile) (file : Par2File) (blockSize threads : Nat) :
    Option (Option FileVerify) :=
  if !ifscCoversEveryBlock file blockSize then some none
  else
    (verifyHead md5 file (f.pass 0)).bind fun head =>
      if !head then some none
      else
        (verifyBlocksPathOrStreaming md5 crc32 crc32Zeros m f 1 file blockSize threads).map
          fun blocks => if !blocks.all id then none else some ⟨blocks, true, true⟩

def verifyOnePass (f : OpenFile) (file : Par2File) (blockSize threads : Nat) : Option FileVerify :=
  verifyFileStreamingPath md5 crc32 crc32Zeros file blockSize (f.pass 2) f.content.length threads
    (wholeFileBufferLen file.length f.content.length) m.cpuWorkers

def verifyFilePathTiered (f : OpenFile) (file : Par2File) (blockSize threads : Nat)
    (ifscOnly : Bool) : Option FileVerify :=
  if !f.isFile then
    verifyFileStreamingSized md5 crc32 crc32Zeros file blockSize (f.pass 0) VERIFY_CHUNK
  else if !regularFileSizeMismatch true f.content.length file.length then
    if ifscOnly then
      (ifscOnlyAttempt md5 crc32 crc32Zeros m f file blockSize threads).bind fun verified =>
        match verified with
        | some v => some v
        | none => verifyOnePass md5 crc32 crc32Zeros m f file blockSize threads
    else verifyOnePass md5 crc32 crc32Zeros m f file blockSize threads
  else
    (verifyHead md5 file (f.pass 0)).bind fun md5_16kOk =>
      (verifyBlocksPathOrStreaming md5 crc32 crc32Zeros m f 1 file blockSize threads).map
        fun blocks => ⟨blocks, false, md5_16kOk⟩

end Model

/-! ## The doors on a path -/

section Doors

variable (md5 : List UInt8 → List UInt8) (crc32 : List UInt8 → Nat) {crc32Zeros : Nat → Nat → Nat}
  (m : Machine)

variable {src : Source} {bs : Nat} {file : Par2File} {v : FileVerify}

theorem verifyHead_eq (file : Par2File) {ok : Bool} (h : verifyHead md5 file src = some ok)
    (bs : Nat) : ok = (verifyFile md5 crc32 file bs src.rest).md5_16kOk := by
  obtain ⟨filled, hrun, rfl⟩ := map_eq_some_iff.mp h
  let I : List UInt8 → List UInt8 → Prop := fun c s => s = c ∧ c.length ≤ HASH16K_LEN
  have hstep : ∀ c s bytes rest : List UInt8, src.rest = c ++ bytes ++ rest → I c s →
      decide (HASH16K_LEN ≤ s.length) = false → bytes ≠ [] →
      bytes.length ≤ HASH16K_LEN - s.length → I (c ++ bytes) (s ++ bytes) := by
    rintro c s bytes rest - ⟨rfl, hle⟩ - - hreq
    refine ⟨rfl, ?_⟩
    rw [length_append]
    omega
  obtain ⟨c, rest, hc, ⟨rfl, hle⟩, hend⟩ := readLoop_inv hstep (Nat.lt_succ_self _)
    (nil_append src.rest).symm ⟨rfl, Nat.zero_le _⟩ hrun
  have hhead : src.rest.take (min src.rest.length HASH16K_LEN) = filled := by
    rw [decide_eq_true_eq] at hend
    rw [hc, length_append]
    by_cases hfull : HASH16K_LEN ≤ filled.length
    · rw [show min (filled.length + rest.length) HASH16K_LEN = filled.length by omega, take_left]
    · obtain rfl : rest = [] := by
        rcases hend with hend | hend | hend
        · exact absurd hend hfull
        · omega
        · exact hend
      rw [length_nil, add_zero, min_eq_left hle, append_nil, take_length]
  rw [verifyFile, hhead]

theorem verifyBlocksPathOrStreaming_eq (hz : ExtendsCrc crc32 crc32Zeros) (f : OpenFile) (k : Nat)
    (hgrid : ∀ i < file.blocks.length, i * bs < 2 ^ 64) (threads : Nat) {blocks : List Bool}
    (h : verifyBlocksPathOrStreaming md5 crc32 crc32Zeros m f k file bs threads = some blocks) :
    blocks = verifyFileBlocks md5 crc32 file bs f.content := by
  have hreads := readExactAt_reads f.content f.fails f.content.length
  rw [take_length] at hreads
  have hcap : ∀ n, m.networkCap = some n → 0 < n := by
    intro n hn
    unfold Machine.networkCap at hn
    split at hn
    case isTrue => exact some.inj hn ▸ Nat.zero_lt_succ 3
    case isFalse => cases hn
  unfold verifyBlocksPathOrStreaming at h
  split at h
  case isTrue =>
    exact verifyBlocksPathParallel_eq md5 crc32 hz hreads f.small hgrid _ hcap threads h
  case isFalse => exact verifyBlocksStreaming_eq md5 crc32 hz file bs f.small h

def TierVouches (f : OpenFile) (file : Par2File) (bs : Nat) : Prop :=
  f.isFile = true ∧ f.content.length = file.length ∧ ifscCoversEveryBlock file bs = true ∧
    (verifyFile md5 crc32 file bs f.content).md5_16kOk = true ∧
    ∀ ok ∈ verifyFileBlocks md5 crc32 file bs f.content, ok = true

theorem ifscOnlyAttempt_eq (hz : ExtendsCrc crc32 crc32Zeros) {f : OpenFile} {threads : Nat}
    (hgrid : ∀ i < file.blocks.length, i * bs < 2 ^ 64) (hfile : f.isFile = true)
    (hsize : f.content.length = file.length)
    (h : ifscOnlyAttempt md5 crc32 crc32Zeros m f file bs threads = some (some v)) :
    TierVouches md5 crc32 f file bs ∧
      v = ⟨List.replicate file.blocks.length true, true, true⟩ := by
  unfold ifscOnlyAttempt at h
  split at h
  case isTrue => cases h
  case isFalse hcovers =>
  obtain ⟨head, hhead, h⟩ := bind_eq_some_iff.mp h
  have hmd5 := verifyHead_eq md5 crc32 file hhead bs
  split at h
  case isTrue => cases h
  case isFalse hok =>
  obtain ⟨blocks, hblocks, h⟩ := map_eq_some_iff.mp h
  have hflags := verifyBlocksPathOrStreaming_eq md5 crc32 m hz f 1 hgrid threads hblocks
  split at h
  case isTrue => cases h
  case isFalse hall =>
    rw [Bool.not_eq_true', Bool.not_eq_false] at hcovers hok hall
    have htrue : ∀ ok ∈ blocks, ok = true := fun ok hmem => all_eq_true.mp hall ok hmem
    refine ⟨⟨hfile, hsize, hcovers, ?_, hflags ▸ htrue⟩, ?_⟩
    · rw [OpenFile.pass] at hmd5
      rw [← hmd5, hok]
    · cases h
      have hcount : blocks.length = file.blocks.length := by
        rw [hflags, verifyFileBlocks]
        split
        case isTrue => exact length_replicate
        case isFalse => exact length_mapIdx
      rw [eq_replicate_iff.mpr ⟨hcount, htrue⟩]

theorem verifyOnePass_eq (hz : ExtendsCrc crc32 crc32Zeros) (f : OpenFile) (file : Par2File)
    (bs threads : Nat) (h : verifyOnePass md5 crc32 crc32Zeros m f file bs threads = some v) :
    v = verifyFile md5 crc32 file bs f.content :=
  verifyFileStreamingPath_eq md5 crc32 hz file bs f.small _ threads _ _ h

theorem verifyFilePathTiered_eq (hz : ExtendsCrc crc32 crc32Zeros) (f : OpenFile)
    (hgrid : ∀ i < file.blocks.length, i * bs < 2 ^ 64) (threads : Nat) (ifscOnly : Bool)
    (h : verifyFilePathTiered md5 crc32 crc32Zeros m f file bs threads ifscOnly = some v) :
    v = verifyFile md5 crc32 file bs f.content ∨ (ifscOnly = true ∧ TierVouches md5 crc32 f file bs ∧
      v = ⟨List.replicate file.blocks.length true, true, true⟩) := by
  unfold verifyFilePathTiered at h
  split at h
  case isTrue => exact .inl (verifyFileStreamingSized_eq md5 crc32 hz file bs f.small _ h)
  case isFalse hfile =>
  rw [Bool.not_eq_true', Bool.not_eq_false] at hfile
  split at h
  case isTrue hsame =>
    have hsize : f.content.length = file.length := by
      simpa [regularFileSizeMismatch] using hsame
    split at h
    case isFalse => exact .inl (verifyOnePass_eq md5 crc32 m hz f file bs threads h)
    case isTrue htier =>
    obtain ⟨verified, hattempt, h⟩ := bind_eq_some_iff.mp h
    cases verified with
    | none => exact .inl (verifyOnePass_eq md5 crc32 m hz f file bs threads h)
    | some w =>
      cases h
      obtain ⟨hvouches, hw⟩ := ifscOnlyAttempt_eq md5 crc32 m hz hgrid hfile hsize hattempt
      exact .inr ⟨htier, hvouches, hw⟩
  case isFalse hother =>
    have hsize : f.content.length ≠ file.length := by
      simpa [regularFileSizeMismatch] using hother
    obtain ⟨head, hhead, h⟩ := bind_eq_some_iff.mp h
    obtain ⟨blocks, hblocks, rfl⟩ := map_eq_some_iff.mp h
    have hmd5 := verifyHead_eq md5 crc32 file hhead bs
    rw [OpenFile.pass] at hmd5
    rw [verifyBlocksPathOrStreaming_eq md5 crc32 m hz f 1 hgrid threads hblocks, hmd5]
    refine .inl ?_
    have hmd5Ok : decide (f.content.length = file.length ∧ md5 f.content = file.md5) = false :=
      decide_eq_false fun hboth => hsize hboth.1
    rw [verifyFile, hmd5Ok]
    rfl

/-! ## Doors whose reads do not fail -/

/-- No read of the file fails. -/
structure OpenFile.Sound (f : OpenFile) : Prop where
  passes : ∀ k, (f.pass k).Sound
  places : ∀ off len, f.fails off len = false

variable {md5 crc32}

theorem verifyFileStreamingSized_total (hs : src.Sound) (file : Par2File) (bs bufferLen : Nat) :
    (verifyFileStreamingSized md5 crc32 crc32Zeros file bs src bufferLen).isSome := by
  obtain ⟨s, hrun⟩ := readLoop_total hs
  rw [verifyFileStreamingSized, hrun]
  rfl

theorem verifyBlocksStreaming_total (hs : src.Sound) (file : Par2File) (bs : Nat) :
    (verifyBlocksStreaming md5 crc32 crc32Zeros file bs src).isSome := by
  unfold verifyBlocksStreaming
  dsimp only
  split
  case isTrue => rfl
  case isFalse =>
    obtain ⟨s, hrun⟩ := readLoop_total hs
    rw [hrun]
    rfl

theorem verifyFileSeekable_total {again : Source} (hs : src.Sound) (ha : again.Sound)
    (file : Par2File) (bs : Nat) :
    (verifyFileSeekable md5 crc32 crc32Zeros file bs src again).isSome := by
  obtain ⟨s, hrun⟩ := readLoop_total hs
  rw [verifyFileSeekable, verifyWholeSized, hrun, map_some, bind_some]
  split
  case isTrue => rfl
  case isFalse =>
    rw [isSome_map]
    exact verifyBlocksStreaming_total ha file bs

theorem verifyFileStreamingPath_total (hs : src.Sound) (file : Par2File)
    (bs diskLen threads bufferLen cpuWorkers : Nat) :
    (verifyFileStreamingPath md5 crc32 crc32Zeros file bs src diskLen threads bufferLen
      cpuWorkers).isSome := by
  unfold verifyFileStreamingPath
  dsimp only
  split
  case isTrue => exact verifyFileStreamingSized_total hs file bs bufferLen
  case isFalse =>
  split
  case isTrue => exact verifyFileStreamingSized_total hs file bs bufferLen
  case isFalse =>
    obtain ⟨s, hrun⟩ := readLoop_total hs
    rw [verifyPipeline, hrun]
    rfl

theorem verifyHead_total {src : Source} (hs : src.Sound) (file : Par2File) :
    (verifyHead md5 file src).isSome := by
  obtain ⟨filled, hrun⟩ := readLoop_total hs
  rw [verifyHead, hrun]
  rfl

theorem verifyBlocksPathOrStreaming_total {f : OpenFile} (hs : f.Sound) (k : Nat) (file : Par2File)
    (bs threads : Nat) :
    (verifyBlocksPathOrStreaming md5 crc32 crc32Zeros m f k file bs threads).isSome := by
  unfold verifyBlocksPathOrStreaming
  split
  case isTrue =>
    refine verifyBlocksPathParallel_total md5 crc32 (fun off len hfit => ?_) file _ _ threads
    rw [readExactAt, hs.places, if_neg (by rw [Bool.false_eq_true, false_or]; omega)]
    rfl
  case isFalse => exact verifyBlocksStreaming_total (hs.passes k) file bs

theorem verifyFilePathTiered_total {f : OpenFile} (hs : f.Sound) (file : Par2File)
    (bs threads : Nat) (ifscOnly : Bool) :
    (verifyFilePathTiered md5 crc32 crc32Zeros m f file bs threads ifscOnly).isSome := by
  have honePass : (verifyOnePass md5 crc32 crc32Zeros m f file bs threads).isSome :=
    verifyFileStreamingPath_total (hs.passes 2) file bs _ threads _ _
  obtain ⟨head, hhead⟩ := isSome_iff_exists.mp (@verifyHead_total md5 _ (hs.passes 0) file)
  obtain ⟨blocks, hblocks⟩ := isSome_iff_exists.mp
    (@verifyBlocksPathOrStreaming_total md5 crc32 crc32Zeros m f hs 1 file bs threads)
  unfold verifyFilePathTiered
  split
  case isTrue => exact verifyFileStreamingSized_total (hs.passes 0) file bs VERIFY_CHUNK
  case isFalse =>
  split
  case isFalse =>
    rw [hhead, bind_some, hblocks]
    rfl
  case isTrue =>
  split
  case isFalse => exact honePass
  case isTrue =>
    have hattempt : (ifscOnlyAttempt md5 crc32 crc32Zeros m f file bs threads).isSome := by
      unfold ifscOnlyAttempt
      split
      case isTrue => rfl
      case isFalse =>
        rw [hhead, bind_some]
        split
        case isTrue => rfl
        case isFalse =>
          rw [hblocks]
          rfl
    obtain ⟨verified, hverified⟩ := isSome_iff_exists.mp hattempt
    rw [hverified, bind_some]
    cases verified with
    | none => exact honePass
    | some v => rfl

/-! ## The verdict of every door -/

/-- A door answers `v`, or an error where a read may fail. -/
structure Answers (sound : Prop) (r : Option FileVerify) (v : FileVerify) : Prop where
  value : ∀ w, r = some w → w = v
  total : sound → r = some v

theorem Answers.of {sound : Prop} {r : Option FileVerify} (hvalue : ∀ w, r = some w → w = v)
    (htotal : sound → r.isSome) : Answers sound r v := by
  refine ⟨hvalue, fun hs => ?_⟩
  obtain ⟨w, hw⟩ := isSome_iff_exists.mp (htotal hs)
  rw [hw, hvalue w hw]

end Doors

/-- Every door gives the verdict of `verify_file`, however its reads are cut and whatever its
threads and buffers are. With the fast tier the verdict can differ, and then every block of a
full proven grid matches, and the head, and the whole-file MD5 does not. The path doors take a
grid whose offsets are below `2^64`, which is what `fit_ifsc` makes
(`Par2File.Fits.offset_lt`). -/
theorem doors_give_verdict (md5 : List UInt8 → List UInt8) (crc32 : List UInt8 → Nat)
    (crc32Zeros : Nat → Nat → Nat) (hz : ExtendsCrc crc32 crc32Zeros) (file : Par2File) (bs : Nat) :
    (∀ src : Source, src.rest.length < 2 ^ 64 →
      Answers src.Sound (verifyFileStreaming md5 crc32 crc32Zeros file bs src)
        (verifyFile md5 crc32 file bs src.rest) ∧
      (∀ bufferLen, Answers src.Sound
        (verifyFileStreamingSized md5 crc32 crc32Zeros file bs src bufferLen)
        (verifyFile md5 crc32 file bs src.rest)) ∧
      (∀ diskLen threads bufferLen cpuWorkers, Answers src.Sound
        (verifyFileStreamingPath md5 crc32 crc32Zeros file bs src diskLen threads bufferLen
          cpuWorkers) (verifyFile md5 crc32 file bs src.rest)) ∧
      ∀ again : Source, again.rest = src.rest →
        Answers (src.Sound ∧ again.Sound)
          (verifyFileSeekable md5 crc32 crc32Zeros file bs src again)
          (verifyFile md5 crc32 file bs src.rest)) ∧
    ∀ (m : Machine) (f : OpenFile) (threads : Nat),
      (∀ i < file.blocks.length, i * bs < 2 ^ 64) →
      Answers f.Sound (verifyFilePathTiered md5 crc32 crc32Zeros m f file bs threads false)
        (verifyFile md5 crc32 file bs f.content) ∧
      (f.Sound → (verifyFilePathTiered md5 crc32 crc32Zeros m f file bs threads true).isSome) ∧
      ∀ v, verifyFilePathTiered md5 crc32 crc32Zeros m f file bs threads true = some v →
        v ≠ verifyFile md5 crc32 file bs f.content →
        TierVouches md5 crc32 f file bs ∧ md5 f.content ≠ file.md5 ∧
          v = ⟨List.replicate file.blocks.length true, true, true⟩ := by
  refine ⟨fun src hlen => ⟨?_, fun bufferLen => ?_, fun diskLen threads bufferLen cpuWorkers => ?_,
    fun again hsame => ?_⟩, fun m f threads hgrid => ⟨?_, ?_, fun v hv hne => ?_⟩⟩
  · exact .of (fun _ => verifyFileStreamingSized_eq md5 crc32 hz file bs hlen VERIFY_CHUNK)
      fun hs => verifyFileStreamingSized_total hs file bs VERIFY_CHUNK
  · exact .of (fun _ => verifyFileStreamingSized_eq md5 crc32 hz file bs hlen bufferLen)
      fun hs => verifyFileStreamingSized_total hs file bs bufferLen
  · exact .of
      (fun _ => verifyFileStreamingPath_eq md5 crc32 hz file bs hlen diskLen threads bufferLen
        cpuWorkers)
      fun hs => verifyFileStreamingPath_total hs file bs diskLen threads bufferLen cpuWorkers
  · exact .of (fun _ => verifyFileSeekable_eq md5 crc32 hz file bs hsame hlen)
      fun hs => verifyFileSeekable_total hs.1 hs.2 file bs
  · refine .of (fun w hw => ?_) fun hs => verifyFilePathTiered_total m hs file bs threads false
    rcases verifyFilePathTiered_eq md5 crc32 m hz f hgrid threads false hw with heq | ⟨htier, -⟩
    · exact heq
    · exact absurd htier Bool.false_ne_true
  · exact fun hs => verifyFilePathTiered_total m hs file bs threads true
  · rcases verifyFilePathTiered_eq md5 crc32 m hz f hgrid threads true hv with
      heq | ⟨-, hvouches, hw⟩
    · exact absurd heq hne
    · refine ⟨hvouches, fun hmd5 => hne ?_, hw⟩
      -- the file's own MD5 settles the blocks as the tier does
      have hhead := hvouches.2.2.2.1
      have hok : decide (f.content.length = file.length ∧ md5 f.content = file.md5) = true :=
        decide_eq_true ⟨hvouches.2.1, hmd5⟩
      rw [verifyFile, hok, if_pos rfl, hw]
      exact congrArg _ hhead.symm

/-! Nine declared bytes over blocks of four, the middle cell unproven; on disk the middle block is
another. -/

def nineBytes : Par2File where
  fileId := List.replicate 16 1
  name := "nine"
  length := 9
  md5 := [133, 150, 193, 175, 85, 177, 75, 123, 50, 1, 18, 148, 79, 203, 133, 54]
  md5_16k := [133, 150, 193, 175, 85, 177, 75, 123, 50, 1, 18, 148, 79, 203, 133, 54]
  blocks := [⟨[8, 214, 192, 90, 33, 81, 42, 121, 161, 223, 235, 157, 42, 143, 38, 47], 3057449933⟩,
    UNPROVEN,
    ⟨[154, 25, 141, 79, 72, 20, 78, 32, 102, 29, 247, 253, 45, 196, 27, 247], 1548521622⟩]

def nineDamaged : List UInt8 := [1, 2, 3, 4, 9, 9, 9, 9, 9]

/-- MD5 on the byte strings that a verify of `nineDamaged` hashes. -/
def nineMd5 (x : List UInt8) : List UInt8 :=
  if x = [1, 2, 3, 4] then [8, 214, 192, 90, 33, 81, 42, 121, 161, 223, 235, 157, 42, 143, 38, 47]
  else if x = [9, 0, 0, 0] then
    [154, 25, 141, 79, 72, 20, 78, 32, 102, 29, 247, 253, 45, 196, 27, 247]
  else [1, 169, 120, 15, 45, 26, 44, 100, 52, 177, 151, 182, 165, 63, 188, 190]

theorem crc32Zeros_extends : ExtendsCrc Wire.crc32 Wire.crc32Zeros := Wire.crc32Zeros_eq

theorem doors_give_verdict_nineDamaged :
    verifyFileStreaming nineMd5 Wire.crc32 Wire.crc32Zeros nineBytes 4
        ⟨nineDamaged, fun i => some (i % 3)⟩ = some ⟨[true, false, true], false, false⟩ ∧
      verifyFilePathTiered nineMd5 Wire.crc32 Wire.crc32Zeros ⟨8, true, true⟩
        ⟨nineDamaged, true, fun _ _ => some 2, fun _ _ => false, by decide⟩ nineBytes 4 6 false =
        some ⟨[true, false, true], false, false⟩ := by
  obtain ⟨hstreams, hpaths⟩ :=
    doors_give_verdict nineMd5 Wire.crc32 Wire.crc32Zeros crc32Zeros_extends nineBytes 4
  refine ⟨(hstreams ⟨nineDamaged, _⟩ (by decide)).1.total fun i => rfl, ?_⟩
  exact (hpaths ⟨8, true, true⟩ ⟨nineDamaged, true, fun _ _ => some 2, fun _ _ => false, by decide⟩ 6
    (by decide)).1.total ⟨fun k i => rfl, fun off len => rfl⟩

end NzbFast.Par2
