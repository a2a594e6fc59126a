import NzbFast.Par2.Lanes

/-!
# The positioned verify door

`verify_blocks_path_parallel` (`crates/nzbkit-base/src/par2/verify.rs`): the
diagnostic blocks are divided into contiguous ranges, one lane each, and a lane
reads the blocks of its range at their own offsets. The ranges are of one length,
or, on a sparse grid, of about as many proven blocks each
(`balanced_proven_ranges`). Either way they are a division of the blocks, and a
block's flag does not depend on the range it fell in.
-/

namespace NzbFast.Par2

open List

def rawRangeGeometry (blocks workers : Nat) : Nat × Nat :=
  if blocks = 0 ∨ workers = 0 then (0, 0)
  else
    let per := (blocks + workers - 1) / workers
    (per, (blocks + per - 1) / per)

def rawWork (cells : List BlockCheck) (per rawRanges : Nat) : List Nat :=
  (List.range rawRanges).map fun r =>
    ((List.range cells.length).filter fun i =>
      (cells.getD i UNPROVEN).isProven && (min (i / per) (rawRanges - 1) == r)).length

/-- The second loop of `balanced_proven_ranges` from `index` on: the ends so far, the proven
blocks in the open range and its quota. -/
def balanceFrom (lanes base extra : Nat) :
    List BlockCheck → Nat → List Nat → Nat → Nat → List Nat
  | [], _, ends, _, _ => ends
  | check :: cells, index, ends, inLane, quota =>
    let inLane := if check.isProven then inLane + 1 else inLane
    if inLane = quota ∧ ends.length + 1 < lanes then
      let ends := ends ++ [index + 1]
      balanceFrom lanes base extra cells (index + 1) ends 0
        (base + if ends.length < extra then 1 else 0)
    else balanceFrom lanes base extra cells (index + 1) ends inLane quota

/-- `balanced_proven_ranges`: the end offsets, or none where the raw ranges will do. -/
def balancedProvenRanges (cells : List BlockCheck) (workers provenBlocks : Nat) :
    Option (List Nat) :=
  if cells = [] ∨ workers = 0 ∨ provenBlocks = 0 ∨ provenBlocks = cells.length then none
  else
    let (per, rawRanges) := rawRangeGeometry cells.length (min workers VERIFY_MAX_WORKERS)
    let ideal := (provenBlocks + rawRanges - 1) / rawRanges
    let rebalanceAbove := ideal + ideal / 4
    if (rawWork cells per rawRanges).all fun work => decide (work ≤ rebalanceAbove) then none
    else
      let lanes := min rawRanges provenBlocks
      let base := provenBlocks / lanes
      let extra := provenBlocks % lanes
      some (balanceFrom lanes base extra cells 0 [] 0 (base + if 0 < extra then 1 else 0) ++
        [cells.length])

def boundedVerifyWorkers (cpuWorkers requested blocks chunkBuf : Nat) : Nat :=
  if blocks = 0 then 0
  else
    min (min (min (min (max requested 1) blocks) (max cpuWorkers 1)) VERIFY_MAX_WORKERS)
      (max (VERIFY_POOL_BYTES / max chunkBuf 1) 1)

/-- `capped_workers`: `cap` is the network cap where the storage class has one. -/
def cappedWorkers (workers : Nat) (cap : Option Nat) : Nat :=
  match cap with
  | some cap => min workers cap
  | none => workers

section Model

variable (md5 : List UInt8 → List UInt8) (crc32 : List UInt8 → Nat) (crc32Zeros : Nat → Nat → Nat)
  (read : Nat → Nat → Option (List UInt8))

/-- The bytes of a block wider than the buffer, read in windows. -/
def readWindows (bufLen off avail : Nat) : Nat → Nat → Option (List UInt8)
  | 0, _ => some []
  | fuel + 1, pos =>
    if pos < avail then
      (read (off + pos) (min (avail - pos) bufLen)).bind fun bytes =>
        (readWindows bufLen off avail fuel (pos + min (avail - pos) bufLen)).map (bytes ++ ·)
    else some []

/-- One block of the closure `verify_range`. The offset is a product of two `u64`, wrapped as a
release build wraps it. -/
def verifyRangeBlock (cells : List BlockCheck) (blockSize diskLen chunkBuf bidx : Nat) :
    Option Bool :=
  let check := cells.getD bidx UNPROVEN
  if !check.isProven then some false
  else
    let off := bidx * blockSize % 2 ^ 64
    if diskLen ≤ off then some false
    else
      let avail := min (diskLen - off) blockSize
      if avail ≤ chunkBuf then
        (read off avail).map fun bytes =>
          proveResidentBlock md5 crc32 crc32Zeros check bytes (blockSize - avail)
      else
        (readWindows read chunkBuf off avail avail 0).map fun hashed =>
          let crc :=
            if avail = blockSize then crc32 hashed
            else crc32Zeros (crc32 hashed) (blockSize - avail)
          md5 (hashed ++ zeros (blockSize - avail)) = check.md5 && crc = check.crc32

/-- The closure `verify_range` over the blocks `first .. stop`. -/
def verifyRange (cells : List BlockCheck) (blockSize diskLen chunkBuf first stop : Nat) :
    Option (List Bool) :=
  (List.range (stop - first)).mapM fun j =>
    verifyRangeBlock md5 crc32 crc32Zeros read cells blockSize diskLen chunkBuf (first + j)

/-- The ranges' ends: the balanced ones, or multiples of `per` up to the blocks there are. The
first range is the caller's, each other one a child's. -/
def rangeEnds (cells : List BlockCheck) (diag workers provenBlocks : Nat) : List Nat :=
  let (per, rawRanges) := rawRangeGeometry diag workers
  let balanced :=
    if provenBlocks < diag then balancedProvenRanges (cells.take diag) workers provenBlocks
    else none
  balanced.getD ((List.range rawRanges).map fun r => min ((r + 1) * per) diag)

/-- Every range verified, the caller's first; the flags in block order. -/
def verifyRanges (cells : List BlockCheck) (blockSize diskLen chunkBuf : Nat) :
    Nat → List Nat → Option (List Bool)
  | _, [] => some []
  | first, stop :: ends =>
    (verifyRange md5 crc32 crc32Zeros read cells blockSize diskLen chunkBuf first stop).bind
      fun oks =>
        (verifyRanges cells blockSize diskLen chunkBuf stop ends).map (oks ++ ·)

def verifyBlocksPathParallel (cpuWorkers : Nat) (cap : Option Nat) (file : Par2File)
    (blockSize diskLen threads : Nat) : Option (List Bool) :=
  let diag := diagnosticBlockCount file.blocks
  if blockSize = 0 ∨ diag = 0 then some (List.replicate file.blocks.length false)
  else
    let provenBlocks := ((file.blocks.take diag).filter BlockCheck.isProven).length
    let chunkBuf := min blockSize VERIFY_CHUNK
    let workers := cappedWorkers (boundedVerifyWorkers cpuWorkers threads provenBlocks chunkBuf) cap
    (verifyRanges md5 crc32 crc32Zeros read file.blocks blockSize diskLen chunkBuf 0
      (rangeEnds file.blocks diag workers provenBlocks)).map fun oks =>
        oks ++ List.replicate (file.blocks.length - diag) false

end Model

/-! ## The ranges divide the blocks -/

/-- The ends of contiguous ranges that run from `first` to `last`. -/
def Divides : Nat → List Nat → Nat → Prop
  | first, [], last => first = last
  | first, stop :: ends, last => first ≤ stop ∧ Divides stop ends last

theorem Divides.snoc {first last : Nat} {ends : List Nat} (h : Divides first ends last) {n : Nat}
    (hn : last ≤ n) : Divides first (ends ++ [n]) n := by
  induction ends generalizing first with
  | nil => exact ⟨h ▸ hn, rfl⟩
  | cons stop ends ih => exact ⟨h.1, ih h.2⟩

theorem Divides.le {first last : Nat} {ends : List Nat} (h : Divides first ends last) :
    first ≤ last := by
  induction ends generalizing first with
  | nil => exact le_of_eq h
  | cons stop ends ih => exact h.1.trans (ih h.2)

theorem rawRangeGeometry_spec {blocks workers : Nat} (hb : 0 < blocks) (hw : 0 < workers) :
    0 < (rawRangeGeometry blocks workers).1 ∧
      blocks ≤ (rawRangeGeometry blocks workers).2 * (rawRangeGeometry blocks workers).1 := by
  have hceil : ∀ {a b : Nat}, 0 < b → a ≤ (a + b - 1) / b * b := fun {a b} hb => by
    have := Nat.lt_div_mul_add (a := a + b - 1) hb
    omega
  unfold rawRangeGeometry
  rw [if_neg (by omega)]
  have hper : 0 < (blocks + workers - 1) / workers := Nat.div_pos (by omega) hw
  exact ⟨hper, hceil hper⟩

theorem divides_raw (per blocks n k : Nat) :
    Divides (min (k * per) blocks) ((List.range' k n).map fun r => min ((r + 1) * per) blocks)
      (min ((k + n) * per) blocks) := by
  induction n generalizing k with
  | zero => exact rfl
  | succ n ih =>
    rw [range'_succ, map_cons]
    have hnext := ih (k + 1)
    rw [show k + 1 + n = k + (n + 1) by omega] at hnext
    refine ⟨?_, hnext⟩
    rw [Nat.succ_mul]
    omega

theorem balanceFrom_divides (lanes base extra : Nat) (cells : List BlockCheck) :
    ∀ {index m inLane quota : Nat} {ends : List Nat}, Divides 0 ends m → m ≤ index →
      ∃ m' ≤ index + cells.length,
        Divides 0 (balanceFrom lanes base extra cells index ends inLane quota) m' := by
  induction cells with
  | nil => exact fun {_ m _ _ _} h hm => ⟨m, hm, h⟩
  | cons check cells ih =>
    intro index m inLane quota ends h hm
    unfold balanceFrom
    rw [length_cons, ← add_assoc, add_right_comm]
    dsimp only
    generalize (if check.isProven = true then inLane + 1 else inLane) = inLane'
    split
    case isTrue => exact ih (h.snoc (by omega)) le_rfl
    case isFalse => exact ih h (by omega)

theorem balancedProvenRanges_divides {cells : List BlockCheck} {workers provenBlocks : Nat}
    {ends : List Nat} (h : balancedProvenRanges cells workers provenBlocks = some ends) :
    Divides 0 ends cells.length := by
  unfold balancedProvenRanges at h
  split at h
  case isTrue => cases h
  case isFalse =>
  dsimp only at h
  split at h
  case isTrue => cases h
  case isFalse =>
    cases h
    have hnone : Divides 0 [] 0 := rfl
    obtain ⟨m, hm, hd⟩ := @balanceFrom_divides _ _ _ cells 0 0 0 _ [] hnone le_rfl
    exact hd.snoc (by omega)

theorem rangeEnds_divides {cells : List BlockCheck} {diag workers : Nat} (provenBlocks : Nat)
    (hdiag : 0 < diag) (hcells : diag ≤ cells.length) (hw : 0 < workers) :
    Divides 0 (rangeEnds cells diag workers provenBlocks) diag := by
  obtain ⟨hper, hcover⟩ := rawRangeGeometry_spec hdiag hw
  have hraw := divides_raw (rawRangeGeometry diag workers).1 diag (rawRangeGeometry diag workers).2 0
  rw [zero_add, Nat.zero_mul, zero_min, min_eq_right hcover, ← range_eq_range'] at hraw
  unfold rangeEnds
  dsimp only
  split
  case isTrue =>
    cases hb : balancedProvenRanges (cells.take diag) workers provenBlocks with
    | none => exact hraw
    | some ends =>
      have hd := balancedProvenRanges_divides hb
      rwa [length_take, min_eq_left hcells] at hd
  case isFalse => exact hraw

/-! ## A block's flag does not depend on its range -/

section Positioned

variable (md5 : List UInt8 → List UInt8) (crc32 : List UInt8 → Nat) {crc32Zeros : Nat → Nat → Nat}
  {read : Nat → Nat → Option (List UInt8)} {content : List UInt8} {cells : List BlockCheck}
  {bs chunkBuf : Nat}

theorem readWindows_eq (hr : Reads read content content.length) (hbuf : 0 < chunkBuf)
    {off avail : Nat} (hfit : off + avail ≤ content.length) :
    ∀ {fuel pos : Nat} {bytes : List UInt8}, pos ≤ avail → avail < fuel + pos + 1 →
      readWindows read chunkBuf off avail fuel pos = some bytes →
      bytes = slice content (off + pos) (off + avail)
  | 0, pos, bytes, hle, hfuel, h => by
    cases h
    rw [show pos = avail by omega, slice_self]
  | fuel + 1, pos, bytes, hle, hfuel, h => by
    unfold readWindows at h
    split at h
    case isFalse =>
      cases h
      rw [show pos = avail by omega, slice_self]
    case isTrue hlt =>
      obtain ⟨piece, hread, h⟩ := Option.bind_eq_some_iff.mp h
      obtain ⟨rest, hrest, rfl⟩ := Option.map_eq_some_iff.mp h
      obtain ⟨-, rfl⟩ := hr _ _ _ (by omega) (by omega) hread
      rw [readWindows_eq hr hbuf hfit (by omega) (by omega) hrest, ← add_assoc,
        ← slice_append (by omega) (by omega)]

theorem verifyRangeBlock_eq (hz : ExtendsCrc crc32 crc32Zeros)
    (hr : Reads read content content.length) (hbuf : 0 < chunkBuf) {i : Nat}
    (hi : i * bs < 2 ^ 64) {ok : Bool}
    (h : verifyRangeBlock md5 crc32 crc32Zeros read cells bs content.length chunkBuf i = some ok) :
    ok = blockFlag md5 crc32 cells bs content i := by
  unfold verifyRangeBlock at h
  dsimp only at h
  rw [Nat.mod_eq_of_lt hi] at h
  unfold blockFlag
  generalize cells.getD i UNPROVEN = check at h ⊢
  cases hp : check.isProven with
  | false =>
    rw [hp] at h
    cases h
    rfl
  | true =>
    rw [hp, Bool.not_true, if_neg Bool.false_ne_true] at h
    split at h
    case isTrue hpast =>
      cases h
      rw [decide_eq_false (by omega), Bool.and_false, Bool.false_and]
    case isFalse hstart =>
    rw [decide_eq_true (by omega : i * bs < content.length), Bool.and_self, Bool.true_and]
    have hslice : slice content (i * bs) (i * bs + min (content.length - i * bs) bs) =
        slice content (i * bs) (i * bs + bs) := by
      by_cases hfull : bs ≤ content.length - i * bs
      · rw [min_eq_right hfull]
      · rw [slice, slice, take_of_length_le (by omega), take_of_length_le (by omega)]
    have hpad : bs - min (content.length - i * bs) bs = bs - (content.length - i * bs) := by omega
    split at h
    case isTrue =>
      obtain ⟨bytes, hread, rfl⟩ := Option.map_eq_some_iff.mp h
      obtain ⟨-, rfl⟩ := hr _ _ _ (by omega) (by omega) hread
      rw [proveResidentBlock_eq hz, hp, Bool.true_and, hslice, hpad]
    case isFalse =>
      obtain ⟨hashed, hread, rfl⟩ := Option.map_eq_some_iff.mp h
      have hbytes := readWindows_eq hr hbuf (by omega) (Nat.zero_le _) (by omega) hread
      rw [add_zero, hslice] at hbytes
      have hcrc : (if min (content.length - i * bs) bs = bs then crc32 hashed
          else crc32Zeros (crc32 hashed) (bs - min (content.length - i * bs) bs)) =
          crc32 (hashed ++ zeros (bs - min (content.length - i * bs) bs)) := by
        split
        case isTrue hfull => rw [hfull, Nat.sub_self, zeros, replicate_zero, append_nil]
        case isFalse => exact hz _ _
      rw [hcrc, hpad, hbytes, closeBlock]

theorem mapM_eq_map {α β : Type} {f : α → Option β} {g : α → β} {l : List α}
    (hf : ∀ a ∈ l, ∀ b, f a = some b → b = g a) {r : List β} (h : l.mapM f = some r) :
    r = l.map g := by
  induction l generalizing r with
  | nil =>
    cases h
    rfl
  | cons a l ih =>
    rw [mapM_cons] at h
    obtain ⟨b, hb, h⟩ := Option.bind_eq_some_iff.mp h
    obtain ⟨bs, hbs, h⟩ := Option.bind_eq_some_iff.mp h
    cases h
    rw [map_cons, hf a mem_cons_self b hb,
      ih (fun x hx => hf x (mem_cons_of_mem _ hx)) hbs]

theorem verifyRanges_eq (hz : ExtendsCrc crc32 crc32Zeros)
    (hr : Reads read content content.length) (hbuf : 0 < chunkBuf) {last : Nat}
    (hgrid : ∀ i < last, i * bs < 2 ^ 64) :
    ∀ {first : Nat} {ends : List Nat} {oks : List Bool}, Divides first ends last →
      verifyRanges md5 crc32 crc32Zeros read cells bs content.length chunkBuf first ends = some oks →
      oks = (List.range' first (last - first)).map (blockFlag md5 crc32 cells bs content)
  | first, [], oks, hd, h => by
    cases h
    have heq : first = last := hd
    rw [heq, Nat.sub_self]
    rfl
  | first, stop :: ends, oks, hd, h => by
    obtain ⟨front, hfront, h⟩ := Option.bind_eq_some_iff.mp h
    obtain ⟨rest, hrest, rfl⟩ := Option.map_eq_some_iff.mp h
    have hlast := hd.2.le
    have hfront := mapM_eq_map (g := fun j => blockFlag md5 crc32 cells bs content (first + j))
      (fun j hj b hb => verifyRangeBlock_eq md5 crc32 hz hr hbuf
        (hgrid _ (by have := mem_range.mp hj; omega)) hb) hfront
    have hsplit : range' first (last - first) =
        range' first (stop - first) ++ range' stop (last - stop) := by
      have hle := hd.1
      have happ := @range'_append_1 first (stop - first) (last - stop)
      rw [show first + (stop - first) = stop by omega,
        show stop - first + (last - stop) = last - first by omega] at happ
      exact happ.symm
    have hshift : range' first (stop - first) =
        (range (stop - first)).map (first + ·) := range'_eq_map_range
    rw [verifyRanges_eq hz hr hbuf hgrid hd.2 hrest, hsplit, map_append, hfront, hshift, map_map]
    rfl

theorem provenBlocks_pos {cells : List BlockCheck} (h : 0 < diagnosticBlockCount cells) :
    0 < ((cells.take (diagnosticBlockCount cells)).filter BlockCheck.isProven).length := by
  obtain ⟨hle, -, hlast⟩ := diagnosticBlockCount_spec cells
  have hp := hlast h
  rw [getD_eq_getElem _ _ (by omega)] at hp
  refine length_pos_of_mem (a := cells[diagnosticBlockCount cells - 1])
    (mem_filter.mpr ⟨?_, hp⟩)
  refine mem_of_getElem? (i := diagnosticBlockCount cells - 1) ?_
  rw [getElem?_take, if_pos (by omega), getElem?_eq_getElem (by omega)]

theorem verifyBlocksPathParallel_eq (hz : ExtendsCrc crc32 crc32Zeros)
    (hr : Reads read content content.length) (hlen : content.length < 2 ^ 64) {file : Par2File}
    (hgrid : ∀ i < file.blocks.length, i * bs < 2 ^ 64) (cpuWorkers : Nat) {cap : Option Nat}
    (hcap : ∀ n, cap = some n → 0 < n) (threads : Nat) {blocks : List Bool}
    (h : verifyBlocksPathParallel md5 crc32 crc32Zeros read cpuWorkers cap file bs content.length
      threads = some blocks) :
    blocks = verifyFileBlocks md5 crc32 file bs content := by
  obtain ⟨hcells, hun, -⟩ := diagnosticBlockCount_spec file.blocks
  unfold verifyBlocksPathParallel at h
  dsimp only at h
  split at h
  case isTrue hnone =>
    cases h
    exact noDiagnostic_eq md5 crc32 hlen hnone
  case isFalse hsome =>
  obtain ⟨hbs, hdiag⟩ := not_or.mp hsome
  have hbs : 0 < bs := pos_of_ne_zero hbs
  have hdiag := pos_of_ne_zero hdiag
  have hchunk : 0 < min bs VERIFY_CHUNK := Nat.lt_min.mpr ⟨hbs, by decide⟩
  obtain ⟨oks, hoks, rfl⟩ := Option.map_eq_some_iff.mp h
  have hworkers : 0 < cappedWorkers (boundedVerifyWorkers cpuWorkers threads
      ((file.blocks.take (diagnosticBlockCount file.blocks)).filter BlockCheck.isProven).length
      (min bs VERIFY_CHUNK)) cap := by
    have hproven := provenBlocks_pos hdiag
    have hbound : 0 < boundedVerifyWorkers cpuWorkers threads
        ((file.blocks.take (diagnosticBlockCount file.blocks)).filter BlockCheck.isProven).length
        (min bs VERIFY_CHUNK) := by
      have hmax : 0 < VERIFY_MAX_WORKERS := by decide
      unfold boundedVerifyWorkers
      rw [if_neg (by omega)]
      omega
    unfold cappedWorkers
    cases cap with
    | none => exact hbound
    | some cap =>
      have := hcap cap rfl
      dsimp only
      omega
  have hflags := verifyRanges_eq md5 crc32 hz hr hchunk (fun i hi => hgrid i (by omega))
    (rangeEnds_divides _ hdiag hcells hworkers) hoks
  rw [verifyFileBlocks_eq md5 crc32 hlen hbs, hflags, Nat.sub_zero, ← range_eq_range']
  have hresize := @resizeFlags_range (blockFlag md5 crc32 file.blocks bs content)
    (diagnosticBlockCount file.blocks) file.blocks.length hcells fun i hi => by
      rw [blockFlag, hun i hi, Bool.false_and, Bool.false_and]
  rw [← hresize, resizeFlags, take_of_length_le (by simpa using hcells), length_map,
    length_range]

/-! ## Reads that do not fail -/

theorem readWindows_total (hread : ∀ off len, off + len ≤ content.length → (read off len).isSome)
    {off avail : Nat} (hfit : off + avail ≤ content.length) :
    ∀ {fuel pos : Nat}, (readWindows read chunkBuf off avail fuel pos).isSome
  | 0, _ => rfl
  | fuel + 1, pos => by
    unfold readWindows
    split
    case isFalse => rfl
    case isTrue =>
      obtain ⟨bytes, hbytes⟩ := Option.isSome_iff_exists.mp
        (hread (off + pos) (min (avail - pos) chunkBuf) (by omega))
      rw [hbytes, Option.bind_some, Option.isSome_map]
      exact readWindows_total hread hfit

theorem verifyRangeBlock_total
    (hread : ∀ off len, off + len ≤ content.length → (read off len).isSome) (i : Nat) :
    (verifyRangeBlock md5 crc32 crc32Zeros read cells bs content.length chunkBuf i).isSome := by
  unfold verifyRangeBlock
  dsimp only
  split
  case isTrue => rfl
  case isFalse =>
  split
  case isTrue => rfl
  case isFalse =>
  split
  case isTrue =>
    rw [Option.isSome_map]
    exact hread _ _ (by omega)
  case isFalse =>
    rw [Option.isSome_map]
    exact readWindows_total hread (by omega)

theorem mapM_total {α β : Type} {f : α → Option β} (hf : ∀ a, (f a).isSome) (l : List α) :
    (l.mapM f).isSome := by
  induction l with
  | nil => rfl
  | cons a l ih =>
    obtain ⟨b, hb⟩ := Option.isSome_iff_exists.mp (hf a)
    obtain ⟨bs, hbs⟩ := Option.isSome_iff_exists.mp ih
    rw [mapM_cons, hb, hbs]
    rfl

theorem verifyRanges_total
    (hread : ∀ off len, off + len ≤ content.length → (read off len).isSome) :
    ∀ {first : Nat} {ends : List Nat},
      (verifyRanges md5 crc32 crc32Zeros read cells bs content.length chunkBuf first ends).isSome
  | _, [] => rfl
  | first, stop :: ends => by
    obtain ⟨front, hfront⟩ := Option.isSome_iff_exists.mp
      (mapM_total (fun j => verifyRangeBlock_total md5 crc32 hread (first + j))
        (range (stop - first)))
    rw [verifyRanges, verifyRange, hfront, Option.bind_some, Option.isSome_map]
    exact verifyRanges_total hread

theorem verifyBlocksPathParallel_total
    (hread : ∀ off len, off + len ≤ content.length → (read off len).isSome) (file : Par2File)
    (cpuWorkers : Nat) (cap : Option Nat) (threads : Nat) :
    (verifyBlocksPathParallel md5 crc32 crc32Zeros read cpuWorkers cap file bs content.length
      threads).isSome := by
  unfold verifyBlocksPathParallel
  dsimp only
  split
  case isTrue => rfl
  case isFalse =>
    rw [Option.isSome_map]
    exact verifyRanges_total md5 crc32 hread

end Positioned

end NzbFast.Par2
