import NzbFast.Par2.Verify

/-!
# The pipelined verify door

`verify_file_streaming_path` (`crates/nzbkit-base/src/par2/verify.rs`): the caller
reads a file once, feeds the whole-file hasher and lends each buffer to the lane
that owns its group of blocks. A lane is a thread behind a channel of its own: it
takes its batches in the order they were sent and shares nothing but the buffers,
so it is modelled as the fold of its batches.
-/

namespace NzbFast.Par2

open Wire Bool Nat
open List hiding not_le not_lt

def VERIFY_POOL_BYTES : Nat := 64 * 1024 * 1024
def VERIFY_MAX_WORKERS : Nat := 64
def VERIFY_PIPELINE_MAX_HASH_WORKERS : Nat := 2
def VERIFY_PAR_MIN_BYTES : Nat := 8 * 1024 * 1024

/-- `bounded_pipeline_workers`; `cpuWorkers` is what `mem::cpu_workers` answers. -/
def boundedPipelineWorkers (cpuWorkers requestedThreads activeGroups bufferLen : Nat) : Nat :=
  if activeGroups = 0 then 0
  else
    min (min (min (min (min (requestedThreads - 1) (max cpuWorkers 1 - 1)) (VERIFY_MAX_WORKERS - 1))
      VERIFY_PIPELINE_MAX_HASH_WORKERS) (VERIFY_POOL_BYTES / max bufferLen 1 - 1)) activeGroups

/-- The locals of `verify_pipeline_lane` between two batches. -/
structure Lane where
  matched : List Nat := []
  activeBlock : Option Nat := none
  filled : Nat := 0
  hashed : List UInt8 := []
  deriving DecidableEq, Repr

/-- `matches.push(bidx)` where the block matched. -/
def Lane.mark (lane : Lane) (ok : Bool) (bidx : Nat) : Lane :=
  if ok then { lane with matched := lane.matched ++ [bidx] } else lane

/-- The lanes of the groups: a group with no proven cell has none, the others take turns. -/
def assignLanes (workers : Nat) : Nat → List Bool → List (Option Nat)
  | _, [] => []
  | next, false :: groups => none :: assignLanes workers next groups
  | next, true :: groups => some next :: assignLanes workers ((next + 1) % workers) groups

/-- Whether each group of `blocksPerGroup` cells has a proven one. -/
def activeGroups (cells : List BlockCheck) (diag blocksPerGroup : Nat) : List Bool :=
  (List.range ((diag + blocksPerGroup - 1) / blocksPerGroup)).map fun group =>
    ((cells.take (min (group * blocksPerGroup + blocksPerGroup) diag)).drop
      (group * blocksPerGroup)).any BlockCheck.isProven

/-- The geometry the caller and the lanes agree on. -/
structure Groups where
  blockSize : Nat
  diag : Nat
  blocksPerGroup : Nat
  lanes : List (Option Nat)

def Groups.bytes (g : Groups) : Nat := g.blockSize * g.blocksPerGroup

def Groups.diagnosticEnd (g : Groups) : Nat := g.blockSize * g.diag

/-- The lane of the group at byte `offset`. -/
def Groups.laneAt (g : Groups) (offset : Nat) : Option Nat := g.lanes.getD (offset / g.bytes) none

/-- The bytes asked for at `total`: up to the end of its group, then whole buffers. -/
def Groups.request (g : Groups) (bufLen total : Nat) : Nat :=
  if total < g.diagnosticEnd then
    min (min ((total / g.bytes + 1) * g.bytes) g.diagnosticEnd - total) bufLen
  else bufLen

/-- The caller's state: the sequential hashers, and each lane with the batches sent so far. -/
structure PipelineState where
  stream : StreamState := {}
  lanes : List Lane

section Model

variable (md5 : List UInt8 → List UInt8) (crc32 : List UInt8 → Nat) (crc32Zeros : Nat → Nat → Nat)

/-- The loop of `verify_pipeline_lane` over one batch. A round takes at least one byte. -/
def Lane.batch (cells : List BlockCheck) (bs : Nat) : Nat → Lane → Nat → List UInt8 → Lane
  | 0, lane, _, _ => lane
  | fuel + 1, lane, offset, bytes =>
    if bytes = [] then lane
    else
      let bidx := offset / bs
      let within := offset % bs
      let seg := min (bs - within) bytes.length
      let check := cells.getD bidx UNPROVEN
      if within = 0 ∧ seg = bs ∧ check.isProven = true then
        let ok := proveResidentBlock md5 crc32 crc32Zeros check (bytes.take seg) 0
        Lane.batch cells bs fuel (lane.mark ok bidx) (offset + seg) (bytes.drop seg)
      else
        let fed : Lane :=
          if check.isProven then
            { lane with
              activeBlock := some (lane.activeBlock.getD bidx)
              hashed := lane.hashed ++ bytes.take seg
              filled := lane.filled + seg }
          else lane
        let next : Lane :=
          if within + seg = bs then
            if check.isProven then
              { fed.mark (closeBlock md5 crc32 check fed.hashed) bidx with
                hashed := [], activeBlock := none, filled := 0 }
            else { fed with activeBlock := none, filled := 0 }
          else fed
        Lane.batch cells bs fuel next (offset + seg) (bytes.drop seg)

/-- The end of `verify_pipeline_lane`: the block the input ended in, padded. -/
def Lane.finish (cells : List BlockCheck) (bs : Nat) (lane : Lane) : List Nat :=
  match lane.activeBlock with
  | none => lane.matched
  | some bidx =>
    (lane.mark (closePadded md5 crc32 crc32Zeros (cells.getD bidx UNPROVEN) lane.hashed
      (bs - lane.filled)) bidx).matched

/-- One read of the caller: hash it, and send it to the lane of its group. -/
def pipelineStep (cells : List BlockCheck) (g : Groups) (s : PipelineState) (bytes : List UInt8) :
    PipelineState :=
  let offset := s.stream.total
  let stream := s.stream.hash bytes
  if offset < g.diagnosticEnd then
    match g.laneAt offset with
    | some lane =>
      ⟨stream, s.lanes.modify lane fun l =>
        l.batch md5 crc32 crc32Zeros cells g.blockSize bytes.length offset bytes⟩
    | none => ⟨stream, s.lanes⟩
  else ⟨stream, s.lanes⟩

/-- `verify_file_streaming_path` from the spawned lanes on. -/
def verifyPipeline (file : Par2File) (g : Groups) (workers : Nat) (src : Source) (bufferLen : Nat) :
    Option FileVerify :=
  (readLoop (fun s : PipelineState => g.request (max bufferLen 1) s.stream.total) (fun _ => false)
    (pipelineStep md5 crc32 crc32Zeros file.blocks g) (src.rest.length + 1) src
    ⟨{}, List.replicate workers {}⟩).map fun s =>
      let laneMatches := s.lanes.flatMap (Lane.finish md5 crc32 crc32Zeros file.blocks g.blockSize)
      let md5Ok : Bool := s.stream.total = file.length ∧ md5 s.stream.whole = file.md5
      { blocks :=
          if md5Ok then List.replicate file.blocks.length true
          else laneMatches.foldl (fun blocks i => blocks.set i true)
            (List.replicate file.blocks.length false)
        md5Ok
        md5_16kOk := md5 s.stream.head = file.md5_16k }

def verifyFileStreamingPath (file : Par2File) (blockSize : Nat) (src : Source)
    (diskLen threads bufferLen cpuWorkers : Nat) : Option FileVerify :=
  let serial := verifyFileStreamingSized md5 crc32 crc32Zeros file blockSize src bufferLen
  let diag := diagnosticBlockCount file.blocks
  if blockSize = 0 ∨ diag = 0 ∨ diskLen < VERIFY_PAR_MIN_BYTES ∨ threads < 2 then serial
  else
    let blocksPerGroup := max (bufferLen / blockSize) 1
    let active := activeGroups file.blocks diag blocksPerGroup
    let workers := boundedPipelineWorkers cpuWorkers threads (active.filter id).length bufferLen
    if workers = 0 then serial
    else
      verifyPipeline md5 crc32 crc32Zeros file
        ⟨blockSize, diag, blocksPerGroup, assignLanes workers 0 active⟩ workers src bufferLen

end Model

/-! ## What a lane knows -/

section Lanes

variable (md5 : List UInt8 → List UInt8) (crc32 : List UInt8 → Nat) {crc32Zeros : Nat → Nat → Nat}
  {cells : List BlockCheck} {bs : Nat} {content : List UInt8} {mine : Nat → Prop}

/-- The block a lane has open after `n` bytes: `w` bytes into block `i`, where that is one of its
proven ones, and none otherwise. -/
def OpenBlock (cells : List BlockCheck) (bs : Nat) (content : List UInt8) (mine : Nat → Prop)
    (n i w : Nat) (lane : Lane) : Prop :=
  (0 < w ∧ mine i ∧ (cells.getD i UNPROVEN).isProven = true ∧ lane.activeBlock = some i ∧
      lane.filled = w ∧ lane.hashed = slice content (i * bs) n) ∨
    (¬ (0 < w ∧ mine i ∧ (cells.getD i UNPROVEN).isProven = true) ∧ lane.activeBlock = none ∧
      lane.filled = 0 ∧ lane.hashed = [])

/-- A lane once the first `n` bytes were read; `mine` are the blocks of its groups. -/
structure LaneAt (cells : List BlockCheck) (bs : Nat) (content : List UInt8) (mine : Nat → Prop)
    (n : Nat) (lane : Lane) : Prop where
  matched : ∀ i, i ∈ lane.matched ↔
    mine i ∧ i * bs + bs ≤ n ∧ blockFlag md5 crc32 cells bs content i = true
  current : ∀ i w, n = i * bs + w → w < bs → OpenBlock cells bs content mine n i w lane

/-- A block that the bytes from `n` to `n'` reach into. -/
def Touches (bs n n' i : Nat) : Prop := i * bs < n' ∧ n < i * bs + bs

theorem block_unique {bs i j w w' : Nat} (h : i * bs + w = j * bs + w') (hw : w < bs)
    (hw' : w' < bs) : i = j ∧ w = w' := by
  have hi : (i * bs + w) / bs = i := by
    rw [mul_comm, mul_add_div (by omega), div_eq_of_lt hw, add_zero]
  have hj : (j * bs + w') / bs = j := by
    rw [mul_comm, mul_add_div (by omega), div_eq_of_lt hw', add_zero]
  have hij : i = j := by rw [← hi, ← hj, h]
  subst hij
  exact ⟨rfl, by omega⟩

theorem LaneAt.start (hbs : 0 < bs) : LaneAt md5 crc32 cells bs content mine 0 {} := by
  refine ⟨fun i => ?_, fun i w h hw => ?_⟩
  · simp only [not_mem_nil, false_iff]
    omega
  · exact .inr ⟨fun hpos => by omega, rfl, rfl, rfl⟩

/-- Bytes that reach into none of a lane's blocks leave it as it is. -/
theorem LaneAt.skip (hbs : 0 < bs) {n n' : Nat} {lane : Lane} (hn : n < n')
    (h : LaneAt md5 crc32 cells bs content mine n lane)
    (hother : ∀ i, Touches bs n n' i → ¬ mine i) :
    LaneAt md5 crc32 cells bs content mine n' lane := by
  have hnone : lane.activeBlock = none ∧ lane.filled = 0 ∧ lane.hashed = [] := by
    have hdiv : n = n / bs * bs + n % bs := (div_add_mod' n bs).symm
    have hmod := mod_lt n hbs
    rcases h.current _ _ hdiv hmod with ⟨hw, hmine, -⟩ | ⟨-, hnone⟩
    · exact absurd hmine (hother _ ⟨by omega, by omega⟩)
    · exact hnone
  refine ⟨fun i => ?_, fun i w hi hw => .inr ⟨fun ⟨hpos, hmine, _⟩ => ?_, hnone⟩⟩
  · rw [h.matched]
    refine and_congr_right fun hmine => and_congr_left fun _ => ⟨fun hle => by omega, fun hle => ?_⟩
    by_contra hlt
    exact hother i ⟨by omega, by omega⟩ hmine
  · by_cases hlt : n < i * bs + bs
    · exact hother i ⟨by omega, hlt⟩ hmine
    · omega

theorem mem_mark (lane : Lane) (ok : Bool) (bidx i : Nat) :
    i ∈ (lane.mark ok bidx).matched ↔ i ∈ lane.matched ∨ (i = bidx ∧ ok = true) := by
  cases ok <;> simp [Lane.mark]

/-- A lane whose block `i` closed with its last byte. -/
theorem LaneAt.close (hbs : 0 < bs) {n n' i : Nat} {lane lane' : Lane} {ok : Bool}
    (h : LaneAt md5 crc32 cells bs content mine n lane) (hmine : mine i) (hle : i * bs ≤ n)
    (hlt : n < n') (hn : n' = i * bs + bs) (hok : ok = blockFlag md5 crc32 cells bs content i)
    (hmatched : ∀ j, j ∈ lane'.matched ↔ j ∈ lane.matched ∨ (j = i ∧ ok = true))
    (hnone : lane'.activeBlock = none ∧ lane'.filled = 0 ∧ lane'.hashed = []) :
    LaneAt md5 crc32 cells bs content mine n' lane' := by
  refine ⟨fun j => ?_, fun j w hj hw => .inr ⟨fun ⟨hpos, _, _⟩ => ?_, hnone⟩⟩
  · rw [hmatched, h.matched, hok]
    constructor
    · rintro (⟨hm, hj, hf⟩ | ⟨rfl, hf⟩)
      · exact ⟨hm, by omega, hf⟩
      · exact ⟨hmine, by omega, hf⟩
    · rintro ⟨hm, hj, hf⟩
      by_cases hji : j = i
      · subst hji
        exact .inr ⟨rfl, hf⟩
      · -- an earlier block ended before the read
        have hless : j < i := by
          by_contra hge
          have hmul := mul_le_mul_right bs (lt_of_le_of_ne (not_lt.mp hge) (Ne.symm hji))
          rw [succ_mul] at hmul
          omega
        have hmul := mul_le_mul_right bs hless
        rw [succ_mul] at hmul
        exact .inl ⟨hm, by omega, hf⟩
  · have heq : j * bs + w = (i + 1) * bs + 0 := by rw [succ_mul]; omega
    have := (block_unique heq hw hbs).2
    omega

/-- No block ends inside block `i`. -/
theorem ends_within {bs n i w seg j : Nat} (hn : n = i * bs + w) (hw : w + seg < bs) :
    j * bs + bs ≤ n + seg ↔ j * bs + bs ≤ n := by
  by_contra hgt
  have hij : i ≤ j := by
    by_contra hlt
    have := mul_le_mul_right bs (not_le.mp hlt)
    rw [succ_mul] at this
    omega
  have := mul_le_mul_right bs hij
  omega

/-- A lane's step over the bytes of one of its groups. -/
theorem LaneAt.batch (hz : ExtendsCrc crc32 crc32Zeros) (hbs : 0 < bs) :
    ∀ {fuel n : Nat} {lane : Lane} {bytes : List UInt8}, bytes.length ≤ fuel →
      n + bytes.length ≤ content.length → bytes = slice content n (n + bytes.length) →
      (∀ i, Touches bs n (n + bytes.length) i → mine i) →
      LaneAt md5 crc32 cells bs content mine n lane →
      LaneAt md5 crc32 cells bs content mine (n + bytes.length)
        (lane.batch md5 crc32 crc32Zeros cells bs fuel n bytes)
  | 0, n, lane, bytes, hfuel, _, _, _, h => by
    rw [le_zero.mp hfuel]
    exact h
  | fuel + 1, n, lane, bytes, hfuel, hfit, hbytes, hmine, h => by
    unfold Lane.batch
    split
    case isTrue hnil =>
      rw [hnil]
      exact h
    case isFalse hne =>
    have hpos := length_pos_of_ne_nil hne
    have hdiv : n = n / bs * bs + n % bs := (div_add_mod' n bs).symm
    have hmod := mod_lt n hbs
    have hcur := h.current _ _ hdiv hmod
    dsimp only
    generalize n / bs = i at hdiv hcur ⊢
    generalize n % bs = w at hdiv hmod hcur ⊢
    generalize hseg : min (bs - w) bytes.length = seg
    have htake : bytes.take seg = slice content n (n + seg) := take_of_slice hbytes (by omega)
    have hdrop := drop_of_slice hbytes seg
    have hdlen : (bytes.drop seg).length = bytes.length - seg := length_drop
    have hend : n + bytes.length = n + seg + (bytes.drop seg).length := by omega
    have hi : mine i := hmine i ⟨by omega, by omega⟩
    have hrest : ∀ j, Touches bs (n + seg) (n + seg + (bytes.drop seg).length) j → mine j :=
      fun j hj => hmine j ⟨by have := hj.1; omega, by have := hj.2; omega⟩
    have hflag : w + seg = bs → blockFlag md5 crc32 cells bs content i =
        ((cells.getD i UNPROVEN).isProven && closeBlock md5 crc32 (cells.getD i UNPROVEN)
          (slice content (i * bs) (n + seg))) := fun hclose => by
      rw [blockFlag_full md5 crc32 hbs (by omega), show i * bs + bs = n + seg by omega]
    rw [hend]
    split
    case isTrue hres =>
      refine LaneAt.batch hz hbs (by omega) (by omega) hdrop hrest ?_
      have hclosed : lane.activeBlock = none ∧ lane.filled = 0 ∧ lane.hashed = [] := by
        rcases hcur with ⟨hw, -⟩ | ⟨-, hnone⟩
        · omega
        · exact hnone
      refine h.close md5 crc32 hbs hi (by omega) (by omega) (by omega) ?_ (mem_mark lane _ i) ?_
      · rw [proveResidentBlock_eq hz, zeros, replicate_zero, append_nil, htake,
          hflag (by omega), show i * bs = n by omega]
      · unfold Lane.mark
        split <;> exact hclosed
    case isFalse hpart =>
      refine LaneAt.batch hz hbs (by omega) (by omega) hdrop hrest ?_
      cases hp : (cells.getD i UNPROVEN).isProven with
      | false =>
        rw [hp, Bool.false_and] at hflag
        have hclosed : lane.activeBlock = none ∧ lane.filled = 0 ∧ lane.hashed = [] := by
          rcases hcur with ⟨-, -, hp', -⟩ | ⟨-, hnone⟩
          · rw [hp] at hp'; cases hp'
          · exact hnone
        rw [if_neg Bool.false_ne_true, if_neg Bool.false_ne_true]
        by_cases hclose : w + seg = bs
        case pos =>
          rw [if_pos hclose]
          refine h.close md5 crc32 hbs hi (by omega) (by omega) (by omega) (hflag hclose).symm ?_
            ⟨rfl, rfl, hclosed.2.2⟩
          exact fun j => ⟨.inl, fun hj => hj.resolve_right fun hf => false_ne_true hf.2⟩
        case neg =>
          rw [if_neg hclose]
          refine ⟨fun j => ?_, fun j w' hj hw' => ?_⟩
          · rw [h.matched, ends_within hdiv (by omega)]
          · have heq : j * bs + w' = i * bs + (w + seg) := by omega
            obtain ⟨rfl, -⟩ := block_unique heq hw' (by omega)
            exact .inr ⟨fun hgood => absurd hgood.2.2 (by simp only [hp, false_eq_true, not_false_iff]), hclosed⟩
      | true =>
        rw [hp, Bool.true_and] at hflag
        -- the block is open from here on, whether or not it was
        have hopen : lane.activeBlock.getD i = i ∧ lane.filled + seg = w + seg ∧
            lane.hashed ++ bytes.take seg = slice content (i * bs) (n + seg) := by
          rcases hcur with ⟨hw, -, -, ha, hfilled, hh⟩ | ⟨hnot, ha, hfilled, hh⟩
          · rw [ha, hfilled, hh, htake, ← slice_append (by omega) (by omega)]
            exact ⟨rfl, rfl, rfl⟩
          · have hzero : w = 0 := Nat.eq_zero_of_not_pos fun hw => hnot ⟨hw, hi, hp⟩
            rw [ha, hfilled, hh, htake, hzero, nil_append, show i * bs = n by omega]
            exact ⟨rfl, rfl, rfl⟩
        obtain ⟨hact, hfill, hhash⟩ := hopen
        rw [if_pos rfl, if_pos rfl, hact, hfill, hhash]
        by_cases hclose : w + seg = bs
        case pos =>
          rw [if_pos hclose]
          refine h.close md5 crc32 hbs hi (by omega) (by omega) (by omega) (hflag hclose).symm ?_
            ⟨rfl, rfl, rfl⟩
          exact mem_mark _ _ i
        case neg =>
          rw [if_neg hclose]
          refine ⟨fun j => ?_, fun j w' hj hw' => ?_⟩
          · rw [h.matched, ends_within hdiv (by omega)]
          · have heq : j * bs + w' = i * bs + (w + seg) := by omega
            obtain ⟨rfl, hw⟩ := block_unique heq hw' (by omega)
            exact .inl ⟨by omega, hi, hp, rfl, hw.symm, rfl⟩

/-- A lane that has seen everything marks the blocks of its own that match. -/
theorem LaneAt.mem_finish (hz : ExtendsCrc crc32 crc32Zeros) (hbs : 0 < bs) {lane : Lane}
    (h : LaneAt md5 crc32 cells bs content mine content.length lane) (i : Nat) :
    i ∈ lane.finish md5 crc32 crc32Zeros cells bs ↔
      mine i ∧ blockFlag md5 crc32 cells bs content i = true := by
  -- the block that the content ends in, padded
  have hpadded : ∀ j w, content.length = j * bs + w → 0 < w → w < bs →
      (cells.getD j UNPROVEN).isProven = true →
      closePadded md5 crc32 crc32Zeros (cells.getD j UNPROVEN) (slice content (j * bs) content.length)
        (bs - w) = blockFlag md5 crc32 cells bs content j := by
    intro j w hj hw hlt hp
    have hslice : slice content (j * bs) (j * bs + bs) = slice content (j * bs) content.length := by
      rw [slice, slice, take_of_length_le (by omega), take_length]
    rw [closePadded_eq hz, blockFlag, hp, hslice, Bool.true_and,
      decide_eq_true (by omega : j * bs < content.length), Bool.true_and,
      show content.length - j * bs = w by omega]
  have hflag : blockFlag md5 crc32 cells bs content i = true →
      i * bs < content.length ∧ (cells.getD i UNPROVEN).isProven = true := by
    intro hf
    rw [blockFlag, and_eq_true, and_eq_true] at hf
    exact ⟨of_decide_eq_true hf.1.2, hf.1.1⟩
  have hdiv : content.length = content.length / bs * bs + content.length % bs :=
    (div_add_mod' _ bs).symm
  have hmod := mod_lt content.length hbs
  have hcur := h.current _ _ hdiv hmod
  generalize content.length / bs = j at hdiv hcur
  generalize content.length % bs = w at hdiv hmod hcur
  have hother : mine i → blockFlag md5 crc32 cells bs content i = true →
      i ∉ lane.matched → i = j ∧ 0 < w := by
    intro hmine hf hnot
    obtain ⟨hstart, hp⟩ := hflag hf
    have hlt : ¬ i * bs + bs ≤ content.length := fun hle => hnot ((h.matched i).mpr ⟨hmine, hle, hf⟩)
    have heq : i * bs + (content.length - i * bs) = j * bs + w := by omega
    obtain ⟨rfl, hw⟩ := block_unique heq (by omega) hmod
    exact ⟨rfl, by omega⟩
  unfold Lane.finish
  rcases hcur with ⟨hw, hmine, hp, ha, hfilled, hh⟩ | ⟨hnot, ha, -, -⟩
  · rw [ha]
    rw [mem_mark, hfilled, hh, hpadded j w hdiv hw hmod hp]
    constructor
    · rintro (hm | ⟨rfl, hf⟩)
      · obtain ⟨hm, -, hf⟩ := (h.matched i).mp hm
        exact ⟨hm, hf⟩
      · exact ⟨hmine, hf⟩
    · rintro ⟨hm, hf⟩
      by_cases hin : i ∈ lane.matched
      · exact .inl hin
      · obtain ⟨rfl, -⟩ := hother hm hf hin
        exact .inr ⟨rfl, hf⟩
  · rw [ha]
    constructor
    · intro hm
      obtain ⟨hm, -, hf⟩ := (h.matched i).mp hm
      exact ⟨hm, hf⟩
    · rintro ⟨hm, hf⟩
      by_contra hin
      obtain ⟨rfl, hw⟩ := hother hm hf hin
      exact hnot ⟨hw, hm, (hflag hf).2⟩

end Lanes

/-! ## Groups -/

/-- Block `i` is one of lane `l`'s. -/
def Groups.Owns (g : Groups) (l i : Nat) : Prop :=
  i < g.diag ∧ g.lanes.getD (i / g.blocksPerGroup) none = some l

theorem Groups.touches_group {g : Groups} (hbs : 0 < g.blockSize) (hbpg : 0 < g.blocksPerGroup)
    {n k bufLen i : Nat} (hn : n < g.diagnosticEnd) (hk : k ≤ g.request bufLen n)
    (hi : Touches g.blockSize n (n + k) i) :
    i < g.diag ∧ i / g.blocksPerGroup = n / g.bytes := by
  have hbytes : 0 < g.bytes := mul_pos hbs hbpg
  unfold Groups.request at hk
  rw [if_pos hn] at hk
  have hlow := div_mul_le_self n g.bytes
  have hhigh : n < (n / g.bytes + 1) * g.bytes := by
    rw [succ_mul]
    exact lt_div_mul_add hbytes
  obtain ⟨hstart, hstop⟩ := hi
  generalize n / g.bytes = group at hk hlow hhigh ⊢
  have hend : n + k ≤ (group + 1) * g.bytes ∧ n + k ≤ g.diagnosticEnd := by omega
  have hassoc : ∀ m, m * g.bytes = m * g.blocksPerGroup * g.blockSize := fun m => by
    rw [Groups.bytes, mul_comm g.blockSize, mul_assoc]
  rw [hassoc] at hend hlow
  rw [Groups.diagnosticEnd, mul_comm g.blockSize] at hend
  refine ⟨Nat.lt_of_mul_lt_mul_right (hstart.trans_le hend.2), ?_⟩
  refine Nat.div_eq_of_lt_le ?_ (Nat.lt_of_mul_lt_mul_right (hstart.trans_le hend.1))
  refine Nat.le_of_lt_succ (Nat.lt_of_mul_lt_mul_right (a := g.blockSize) (hlow.trans_lt ?_))
  rw [succ_mul]
  exact hstop

theorem Groups.touches_past {g : Groups} {n k i : Nat} (hn : g.diagnosticEnd ≤ n)
    (hi : Touches g.blockSize n (n + k) i) : ¬ i < g.diag := by
  intro hlt
  have hmul := mul_le_mul_right g.blockSize hlt
  rw [succ_mul] at hmul
  rw [Groups.diagnosticEnd, mul_comm] at hn
  have := hi.2
  omega

theorem assignLanes_active {workers next k : Nat} {groups : List Bool} (hnext : next < workers)
    (h : groups.getD k false = true) :
    ∃ l < workers, (assignLanes workers next groups).getD k none = some l := by
  induction groups generalizing next k with
  | nil => cases h
  | cons group groups ih =>
    cases group with
    | false =>
      cases k with
      | zero => cases h
      | succ k => exact ih hnext h
    | true =>
      cases k with
      | zero => exact ⟨next, hnext, rfl⟩
      | succ k => exact ih (mod_lt _ (by omega)) h

theorem activeGroups_proven {cells : List BlockCheck} {diag bpg i : Nat} (hbpg : 0 < bpg)
    (hdiag : diag ≤ cells.length) (hi : i < diag) (hp : (cells.getD i UNPROVEN).isProven = true) :
    (activeGroups cells diag bpg).getD (i / bpg) false = true := by
  have hlt : i / bpg < (diag + bpg - 1) / bpg := by
    rw [div_lt_iff_lt_mul hbpg]
    have := div_add_mod (diag + bpg - 1) bpg
    have := mod_lt (diag + bpg - 1) hbpg
    rw [mul_comm]
    omega
  have hlow := div_mul_le_self i bpg
  have hhigh : i < i / bpg * bpg + bpg := lt_div_mul_add hbpg
  unfold activeGroups
  rw [getD_eq_getElem _ _ (by simpa using hlt), getElem_map, getElem_range,
    any_eq_true]
  rw [getD_eq_getElem _ _ (by omega)] at hp
  refine ⟨cells[i], mem_of_getElem? (i := i - i / bpg * bpg) ?_, hp⟩
  rw [getElem?_drop, getElem?_take, if_pos (by omega),
    show i / bpg * bpg + (i - i / bpg * bpg) = i by omega, getElem?_eq_getElem (by omega)]

/-! ## The pipeline gives the reference verdict -/

section Pipeline

variable (md5 : List UInt8 → List UInt8) (crc32 : List UInt8 → Nat) {crc32Zeros : Nat → Nat → Nat}

/-- The caller and its lanes after a prefix of the content. -/
structure Piped (cells : List BlockCheck) (g : Groups) (workers : Nat) (content c : List UInt8)
    (s : PipelineState) : Prop where
  hashed : Hashed c s.stream
  count : s.lanes.length = workers
  lanes : ∀ l (hl : l < s.lanes.length),
    LaneAt md5 crc32 cells g.blockSize content (g.Owns l) c.length (s.lanes[l])

theorem Piped.step (hz : ExtendsCrc crc32 crc32Zeros) {cells : List BlockCheck} {g : Groups}
    (hbs : 0 < g.blockSize) (hbpg : 0 < g.blocksPerGroup) {workers bufLen : Nat}
    {content c bytes rest : List UInt8} {s : PipelineState} (hc : content = c ++ bytes ++ rest)
    (hne : bytes ≠ []) (hreq : bytes.length ≤ g.request bufLen s.stream.total)
    (h : Piped md5 crc32 cells g workers content c s) :
    Piped md5 crc32 cells g workers content (c ++ bytes)
      (pipelineStep md5 crc32 crc32Zeros cells g s bytes) := by
  obtain ⟨hbytes, hfit⟩ := slice_of_append hc
  have hpos := length_pos_of_ne_nil hne
  have hhash : Hashed (c ++ bytes) (s.stream.hash bytes) := h.hashed.hash
  rw [h.hashed.total] at hreq
  unfold pipelineStep
  dsimp only
  rw [h.hashed.total]
  have hskip : ∀ l (hl : l < s.lanes.length),
      (∀ i, Touches g.blockSize c.length (c.length + bytes.length) i → ¬ g.Owns l i) →
      LaneAt md5 crc32 cells g.blockSize content (g.Owns l) (c ++ bytes).length (s.lanes[l]) := by
    intro l hl hother
    rw [length_append]
    exact (h.lanes l hl).skip md5 crc32 hbs (by omega) hother
  split
  case isFalse hpast =>
    refine ⟨hhash, h.count, fun l hl => hskip l hl fun i hi hown => ?_⟩
    exact Groups.touches_past (not_lt.mp hpast) hi hown.1
  case isTrue hin =>
  have hgroup := fun i hi => Groups.touches_group (i := i) hbs hbpg hin hreq hi
  split
  case h_2 hnone =>
    refine ⟨hhash, h.count, fun l hl => hskip l hl fun i hi hown => ?_⟩
    have hlane := hown.2
    rw [(hgroup i hi).2, ← Groups.laneAt, hnone] at hlane
    cases hlane
  case h_1 lane hlane =>
    refine ⟨hhash, by rw [length_modify, h.count], fun l hl => ?_⟩
    rw [length_modify] at hl
    rw [getElem_modify]
    split
    case isTrue heq =>
      subst heq
      rw [length_append]
      refine (h.lanes lane hl).batch md5 crc32 hz hbs le_rfl hfit hbytes fun i hi => ?_
      obtain ⟨hlt, hdiv⟩ := hgroup i hi
      exact ⟨hlt, by rw [hdiv]; exact hlane⟩
    case isFalse hneq =>
      refine hskip l hl fun i hi hown => hneq ?_
      have hl' := hown.2
      rw [(hgroup i hi).2, ← Groups.laneAt, hlane] at hl'
      exact Option.some.inj hl'

theorem foldl_set_true (is : List Nat) (m : Nat) :
    is.foldl (fun blocks i => blocks.set i true) (List.replicate m false) =
      (List.range m).map fun i => decide (i ∈ is) := by
  induction is using reverseRecOn with
  | nil =>
    simp
  | append_singleton is j ih =>
    rw [foldl_append, ih]
    refine ext_getElem (by simp) fun i h h' => ?_
    simp only [foldl_cons, foldl_nil, getElem_set, getElem_map,
      getElem_range, mem_append, mem_singleton]
    split
    case isTrue hji => simp [hji]
    case isFalse hji => simp [Ne.symm hji]

theorem verifyPipeline_eq (hz : ExtendsCrc crc32 crc32Zeros) (file : Par2File) {g : Groups}
    (hbs : 0 < g.blockSize) (hbpg : 0 < g.blocksPerGroup)
    (hdiag : g.diag = diagnosticBlockCount file.blocks) {workers : Nat}
    (hlanes : ∀ i < g.diag, (file.blocks.getD i UNPROVEN).isProven = true →
      ∃ l < workers, g.lanes.getD (i / g.blocksPerGroup) none = some l)
    {src : Source} (hlen : src.rest.length < 2 ^ 64) (bufferLen : Nat) {v : FileVerify}
    (h : verifyPipeline md5 crc32 crc32Zeros file g workers src bufferLen = some v) :
    v = verifyFile md5 crc32 file g.blockSize src.rest := by
  obtain ⟨s, hrun, hv⟩ := Option.map_eq_some_iff.mp h
  have hstart : Piped md5 crc32 file.blocks g workers src.rest [] ⟨{}, replicate workers {}⟩ := by
    refine ⟨Hashed.start, length_replicate, fun l hl => ?_⟩
    rw [getElem_replicate]
    exact LaneAt.start md5 crc32 hbs
  have hstep : ∀ c (s : PipelineState) bytes rest, src.rest = c ++ bytes ++ rest →
      Piped md5 crc32 file.blocks g workers src.rest c s → false = false → bytes ≠ [] →
      bytes.length ≤ g.request (max bufferLen 1) s.stream.total →
      Piped md5 crc32 file.blocks g workers src.rest (c ++ bytes)
        (pipelineStep md5 crc32 crc32Zeros file.blocks g s bytes) :=
    fun _ _ _ _ hc hI _ hne hreq => hI.step md5 crc32 hz hbs hbpg hc hne hreq
  obtain ⟨c, rest, hc, hs, hend⟩ := readLoop_inv hstep (lt_succ_self _)
    (nil_append src.rest).symm hstart hrun
  have hnil : rest = [] := by
    rcases hend with hd | hd | hd
    · cases hd
    · -- a request for nothing: the group never ends where a read starts
      have hbytes : 0 < g.bytes := mul_pos hbs hbpg
      have hgroup : s.stream.total < (s.stream.total / g.bytes + 1) * g.bytes := by
        rw [succ_mul]
        exact lt_div_mul_add hbytes
      unfold Groups.request at hd
      split at hd
      case isTrue hlt => omega
      case isFalse => omega
    · exact hd
  rw [hnil, append_nil] at hc
  subst hc
  rw [← hv]
  refine hs.hashed.verdict md5 file _ ?_
  rw [verifyFileBlocks_eq md5 crc32 hlen hbs, foldl_set_true]
  refine map_congr_left fun i _ => ?_
  rw [Bool.eq_iff_iff, decide_eq_true_iff, mem_flatMap]
  constructor
  · rintro ⟨lane, hmem, hi⟩
    obtain ⟨l, hl, rfl⟩ := mem_iff_getElem.mp hmem
    exact (((hs.lanes l hl).mem_finish md5 crc32 hz hbs i).mp hi).2
  · intro hf
    have hp : (file.blocks.getD i UNPROVEN).isProven = true := by
      rw [blockFlag, and_eq_true, and_eq_true] at hf
      exact hf.1.1
    have hlt : i < g.diag := by
      by_contra hge
      rw [(diagnosticBlockCount_spec file.blocks).2.1 i (by omega)] at hp
      cases hp
    obtain ⟨l, hl, hlane⟩ := hlanes i hlt hp
    have hl : l < s.lanes.length := by rw [hs.count]; exact hl
    exact ⟨_, getElem_mem hl, ((hs.lanes l hl).mem_finish md5 crc32 hz hbs i).mpr ⟨⟨hlt, hlane⟩, hf⟩⟩

theorem verifyFileStreamingPath_eq (hz : ExtendsCrc crc32 crc32Zeros) (file : Par2File) (bs : Nat)
    {src : Source} (hlen : src.rest.length < 2 ^ 64) (diskLen threads bufferLen cpuWorkers : Nat)
    {v : FileVerify}
    (h : verifyFileStreamingPath md5 crc32 crc32Zeros file bs src diskLen threads bufferLen
      cpuWorkers = some v) :
    v = verifyFile md5 crc32 file bs src.rest := by
  unfold verifyFileStreamingPath at h
  dsimp only at h
  split at h
  case isTrue => exact verifyFileStreamingSized_eq md5 crc32 hz file bs hlen bufferLen h
  case isFalse hpar =>
  split at h
  case isTrue => exact verifyFileStreamingSized_eq md5 crc32 hz file bs hlen bufferLen h
  case isFalse hworkers =>
    have hbs : 0 < bs := pos_of_ne_zero (not_or.mp hpar).1
    refine verifyPipeline_eq md5 crc32 hz file (g := ⟨bs, _, _, _⟩) hbs (le_max_right _ 1) rfl
      (fun i hi hp => ?_) hlen bufferLen h
    refine assignLanes_active (pos_of_ne_zero hworkers) ?_
    exact activeGroups_proven (le_max_right _ 1) (diagnosticBlockCount_spec file.blocks).1 hi hp

end Pipeline

end NzbFast.Par2
