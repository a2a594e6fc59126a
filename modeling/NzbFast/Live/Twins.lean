import NzbFast.Live.Adopted

/-!
# Which twin a damaged slot is

The block evidence of `crates/nzbkit-base/src/live/twintier.rs`: `probe_blocks`
reads a strided sample of a slot's blocks, `ifsc_pairing` says whose they are.
The code goes through a strict maximum of matched blocks and then looks for
blocks that speak for a rival; what it decides is pairwise (`Outweighs`).

`try_match_whole` asks only about a group of two or more descriptors. An index
out of range, an underflow and a failed `debug_assert!` are `none`.
-/

namespace NzbFast.Live

open NzbFast.Par2
open List hiding not_lt

/-! ## Counting -/

section Counting

variable {α ι : Type*} (xs : List α) (hit : ι → α → Bool) (same : ι → ι → α → Bool)

/-- How many of the blocks two candidates are told apart by were matched for the first. -/
def apart (i j : ι) : Nat := (xs.filter fun x => !same i j x).countP (hit i)

theorem countP_hit (i j : ι) :
    xs.countP (hit i) = (xs.filter (same i j)).countP (hit i) + apart xs hit same i j :=
  countP_eq_countP_filter_add xs (hit i) (same i j)

variable {hit same}

/-- A block two candidates declare alike counts for both or neither, so their difference is made
of the blocks that tell them apart. -/
theorem countP_add_apart (hsame : ∀ i j x, same i j x = true → hit i x = hit j x)
    (hsymm : ∀ i j x, same i j x = same j i x) (i j : ι) :
    xs.countP (hit i) + apart xs hit same j i = xs.countP (hit j) + apart xs hit same i j := by
  have hshared : (xs.filter (same i j)).countP (hit i) = (xs.filter (same j i)).countP (hit j) := by
    have hfilter : xs.filter (same i j) = xs.filter (same j i) :=
      filter_congr fun x _ => hsymm i j x
    rw [← hfilter]
    refine countP_congr fun x hx => ?_
    rw [hsame i j x (mem_filter.mp hx).2]
  rw [countP_hit xs hit same i j, countP_hit xs hit same j i, hshared]
  omega

variable (hit same)

/-- The blocks two candidates are told apart by speak for the first and never for the second. -/
def Leads (i j : ι) : Prop := 0 < apart xs hit same i j ∧ apart xs hit same j i = 0

variable {hit same}

theorem Leads.countP_lt (hsame : ∀ i j x, same i j x = true → hit i x = hit j x)
    (hsymm : ∀ i j x, same i j x = same j i x) {i j : ι} (h : Leads xs hit same i j) :
    xs.countP (hit j) < xs.countP (hit i) := by
  have := countP_add_apart xs hsame hsymm i j
  have hpos := h.1
  rw [h.2] at this
  omega

theorem apart_pos_of_countP_lt (hsame : ∀ i j x, same i j x = true → hit i x = hit j x)
    (hsymm : ∀ i j x, same i j x = same j i x) {i j : ι}
    (h : xs.countP (hit j) < xs.countP (hit i)) : 0 < apart xs hit same i j := by
  have := countP_add_apart xs hsame hsymm i j
  omega

end Counting

/-- An entry is counted twice exactly if another position holds the same. -/
theorem count_map_range_le_one {n w : Nat} (T : Nat → Nat) (hw : w < n) :
    ((List.range n).map T).count (T w) ≤ 1 ↔ ∀ j < n, j ≠ w → T j ≠ T w := by
  have hnodup : ((range n).filter fun j => T j == T w).Nodup := nodup_range.filter _
  have hmem : ∀ j, j ∈ (range n).filter (fun j => T j == T w) ↔ j < n ∧ T j = T w := by simp
  have hcount : ((range n).map T).count (T w) =
      ((range n).filter fun j => T j == T w).length := by
    rw [count_eq_countP, countP_map, countP_eq_length_filter]
    rfl
  rw [hcount]
  generalize (range n).filter (fun j => T j == T w) = l at hnodup hmem
  constructor
  · intro hlen j hj hne heq
    have hjl := (hmem j).mpr ⟨hj, heq⟩
    have hwl := (hmem w).mpr ⟨hw, rfl⟩
    obtain ⟨x, rfl⟩ : ∃ x, l = [x] :=
      length_eq_one_iff.mp (le_antisymm hlen (length_pos_of_mem hjl))
    exact hne ((mem_singleton.mp hjl).trans (mem_singleton.mp hwl).symm)
  · intro hall
    have honly : ∀ j ∈ l, j = w := fun j hj => by
      by_contra hne
      exact hall j ((hmem j).mp hj).1 hne ((hmem j).mp hj).2
    have hsub : l ⊆ [w] := fun j hj => mem_singleton.mpr (honly j hj)
    exact (hnodup.subperm hsub).length_le

/-- The first index of the greatest entry, by the strict comparison of the code. -/
def argmax (ns : List Nat) : Nat :=
  (List.range' 1 (ns.length - 1)).foldl (fun w c => if ns.getD w 0 < ns.getD c 0 then c else w) 0

theorem argmax_spec (ns : List Nat) (h : ns ≠ []) :
    argmax ns < ns.length ∧ ∀ i < ns.length, ns.getD i 0 ≤ ns.getD (argmax ns) 0 := by
  have hpos := length_pos_of_ne_nil h
  have hrun : ∀ n, n + 1 ≤ ns.length →
      (range' 1 n).foldl (fun w c => if ns.getD w 0 < ns.getD c 0 then c else w) 0 < n + 1 ∧
      ∀ i < n + 1, ns.getD i 0 ≤ ns.getD ((range' 1 n).foldl
        (fun w c => if ns.getD w 0 < ns.getD c 0 then c else w) 0) 0 := by
    intro n
    induction n with
    | zero =>
      intro _
      refine ⟨one_pos, fun i hi => ?_⟩
      obtain rfl : i = 0 := by omega
      exact le_refl _
    | succ n ih =>
      intro hn
      obtain ⟨hlt, hmax⟩ := ih (by omega)
      rw [range'_concat, foldl_append, foldl_cons, foldl_nil]
      rw [one_mul]
      split_ifs with hless
      · refine ⟨by omega, fun i hi => ?_⟩
        rcases lt_or_ge i (n + 1) with hi' | hi'
        · exact le_of_lt (lt_of_le_of_lt (hmax i hi') hless)
        · obtain rfl : i = 1 + n := by omega
          exact le_refl _
      · refine ⟨by omega, fun i hi => ?_⟩
        rcases lt_or_ge i (n + 1) with hi' | hi'
        · exact hmax i hi'
        · obtain rfl : i = 1 + n := by omega
          exact not_lt.mp hless
  have hn := hrun (ns.length - 1) (by omega)
  rw [Nat.sub_add_cancel hpos] at hn
  exact hn

/-! ## Reading blocks -/

/-- What stands behind a slot: a range comes back whole or not at all. -/
structure Backing where
  read : Nat → Nat → Option (List UInt8)
  length_read : ∀ off n bytes, read off n = some bytes → bytes.length = n

def PROBES : Nat := 32

def BYTE_CAP : Nat := 64 * 1024 * 1024

def PROBE_CHUNK : Nat := 8 * 1024 * 1024

section Probe

variable (d : Digests)

/-- `block_digest`, and `StreamedBlock::digest` of the same bytes; `pad_to` underflows on more than
a block. -/
def blockDigest (bs : Nat) (bytes : List UInt8) : Option BlockCheck :=
  if bs < bytes.length then none
  else
    some
      { md5 := d.md5 (bytes ++ List.replicate (bs - bytes.length) 0)
        crc32 := d.zeros (d.crc32 bytes) (bs - bytes.length) }

/-- `read_block_chunked` from `done` on; the chunks joined. -/
def readBlockChunked (f : Backing) (base blen done : Nat) : Option (List UInt8) :=
  if blen ≤ done then some []
  else
    (f.read (base + done) (min (blen - done) PROBE_CHUNK)).bind fun bytes =>
      (readBlockChunked f base blen (done + min (blen - done) PROBE_CHUNK)).map (bytes ++ ·)
termination_by blen - done
decreasing_by
  unfold PROBE_CHUNK
  omega

theorem length_readBlockChunked (f : Backing) (base blen done : Nat) {bytes : List UInt8}
    (h : readBlockChunked f base blen done = some bytes) : bytes.length = blen - done := by
  induction done using readBlockChunked.induct blen generalizing bytes with
  | case1 done hle =>
    rw [readBlockChunked, if_pos hle] at h
    rw [← Option.some.inj h, length_nil]
    omega
  | case2 done hlt ih =>
    rw [readBlockChunked, if_neg hlt] at h
    obtain ⟨chunk, hread, hrest⟩ := Option.bind_eq_some_iff.mp h
    obtain ⟨rest, hsome, rfl⟩ := Option.map_eq_some_iff.mp hrest
    have hchunk := f.length_read _ _ _ hread
    rw [length_append, hchunk, ih hsome]
    omega

/-- A block's bytes: in one read where it fits the buffer, else chunk by chunk. -/
def readBlock (f : Backing) (bs base blen : Nat) : Option (List UInt8) :=
  if bs ≤ PROBE_CHUNK then f.read base blen else readBlockChunked f base blen 0

theorem length_readBlock {f : Backing} {bs base blen : Nat} {bytes : List UInt8}
    (h : readBlock f bs base blen = some bytes) : bytes.length = blen := by
  unfold readBlock at h
  split at h
  · exact f.length_read _ _ _ h
  · exact length_readBlockChunked f base blen 0 h

def strided (nblocks : Nat) : List Nat :=
  let step := max ((nblocks + PROBES - 1) / PROBES) 1
  List.range' 0 ((nblocks + step - 1) / step) step

theorem lt_of_mem_strided {nblocks bi : Nat} (h : bi ∈ strided nblocks) : bi < nblocks := by
  obtain ⟨i, hi, rfl⟩ := mem_range'.mp h
  have hstep : 0 < max ((nblocks + PROBES - 1) / PROBES) 1 := by omega
  have hmul := (Nat.le_div_iff_mul_le hstep).mp (Nat.succ_le_of_lt hi)
  rw [Nat.succ_mul, mul_comm] at hmul
  omega

/-- The loop of `probe_blocks` over the blocks `bis`, `spent` bytes read so far. -/
def probeFrom (f : Backing) (length bs : Nat) (decls : List (List BlockCheck))
    (stopEarly : List Bool → Bool) : List Nat → Nat → Option (List (Nat × List Bool))
  | [], _ => some []
  | bi :: bis, spent =>
    let blen := blockLen length bs bi
    if BYTE_CAP < spent + blen then some []
    else
      match readBlock f bs (bi * bs) blen with
      -- a block that cannot be read matches nobody
      | none => probeFrom f length bs decls stopEarly bis (spent + blen)
      | some bytes =>
        (blockDigest d bs bytes).bind fun seen =>
          (decls.mapM fun decl => (decl[bi]?).map (· == seen)).bind fun hit =>
            if stopEarly hit then some [(bi, hit)]
            else (probeFrom f length bs decls stopEarly bis (spent + blen)).map ((bi, hit) :: ·)

/-- `probe_blocks`; `none` behind the slot is a file that is missing or does not open. -/
def probeBlocks (src : Option Backing) (length bs nblocks : Nat) (decls : List (List BlockCheck))
    (stopEarly : List Bool → Bool) : Option (List (Nat × List Bool)) :=
  match src with
  | none => some []
  | some f => probeFrom d f length bs decls stopEarly (strided nblocks) 0

/-- The blocks of the sample that were read, each with the checksums its bytes carry. -/
def seenFrom (f : Backing) (length bs : Nat) : List Nat → Nat → List (Nat × BlockCheck)
  | [], _ => []
  | bi :: bis, spent =>
    let blen := blockLen length bs bi
    if BYTE_CAP < spent + blen then []
    else
      (((readBlock f bs (bi * bs) blen).bind (blockDigest d bs)).map (bi, ·)).toList ++
        seenFrom f length bs bis (spent + blen)

def seenBlocks (src : Option Backing) (length bs nblocks : Nat) : List (Nat × BlockCheck) :=
  src.elim [] fun f => seenFrom d f length bs (strided nblocks) 0

theorem blockLen_le (length bs bi : Nat) : blockLen length bs bi ≤ bs := min_le_right _ _

/-- What the hit flags of a probe say, per block seen. -/
def flagged (decls : List (List BlockCheck)) (x : Nat × BlockCheck) : Nat × List Bool :=
  (x.1, decls.map fun decl => decl[x.1]? == some x.2)

theorem mapM_hit {decls : List (List BlockCheck)} {bi : Nat} (seen : BlockCheck)
    (h : ∀ decl ∈ decls, bi < decl.length) :
    (decls.mapM fun decl => (decl[bi]?).map (· == seen)) =
      some (decls.map fun decl => decl[bi]? == some seen) := by
  induction decls with
  | nil => rfl
  | cons decl decls ih =>
    have hlt := h decl (.head _)
    rw [mapM_cons, ih fun x hx => h x (.tail _ hx), map_cons,
      getElem?_eq_getElem hlt]
    rfl

/-- Where every candidate declares every block, a probe that never stops early answers for every
block seen. -/
theorem probeFrom_eq {f : Backing} {length bs : Nat} {decls : List (List BlockCheck)} {bis : List Nat}
    (h : ∀ bi ∈ bis, ∀ decl ∈ decls, bi < decl.length) (spent : Nat) :
    probeFrom d f length bs decls (fun _ => false) bis spent =
      some ((seenFrom d f length bs bis spent).map (flagged decls)) := by
  induction bis generalizing spent with
  | nil => rfl
  | cons bi bis ih =>
    have ih := fun spent => ih (fun b hb => h b (.tail _ hb)) spent
    rw [probeFrom, seenFrom]
    by_cases hcap : BYTE_CAP < spent + blockLen length bs bi
    · rw [if_pos hcap, if_pos hcap]
      rfl
    rw [if_neg hcap, if_neg hcap]
    cases hread : readBlock f bs (bi * bs) (blockLen length bs bi) with
    | none => exact ih _
    | some bytes =>
      have hlen : ¬ bs < bytes.length := by
        rw [length_readBlock hread]
        exact not_lt.mpr (blockLen_le length bs bi)
      dsimp only
      rw [Option.bind_some, blockDigest, if_neg hlen, Option.bind_some,
        mapM_hit _ (h bi (.head _)), Option.bind_some, if_neg Bool.false_ne_true, ih]
      rfl

theorem probeBlocks_eq (src : Option Backing) (length bs nblocks : Nat)
    (decls : List (List BlockCheck)) (h : ∀ decl ∈ decls, decl.length = nblocks) :
    probeBlocks d src length bs nblocks decls (fun _ => false) =
      some ((seenBlocks d src length bs nblocks).map (flagged decls)) := by
  cases src with
  | none => rfl
  | some f =>
    refine probeFrom_eq d (fun bi hbi decl hdecl => ?_) 0
    rw [h decl hdecl]
    exact lt_of_mem_strided hbi

end Probe

/-! ## The pairing -/

section Pairing

variable {h : Host} (d : Digests) (a : Adopted h)

/-- The loop over the rivals of `w`: `none` where the assertion fails, `false` where a block speaks
for a rival. -/
def judgeRivals (decls : List (List BlockCheck)) (probe : List (Nat × List Bool)) (w : Nat) :
    List Nat → Option Bool
  | [] => some true
  | c :: cs =>
    if c = w then judgeRivals decls probe w cs
    else
      let differing := probe.filter fun x => !((decls.getD w [])[x.1]? == (decls.getD c [])[x.1]?)
      if differing.countP (·.2.getD w false) < 1 then none
      else if 0 < differing.countP (·.2.getD c false) then some false
      else judgeRivals decls probe w cs

/-- `ifsc_pairing`: the candidate the bytes belong to, and the score line. -/
def ifscPairing (src : Option Backing) (cands : List Nat) : Option (Option Nat × String) := do
  let c0 ← cands.head?
  let f0 ← a.file c0
  let files ← cands.mapM a.file
  let bs := a.blockSize c0
  let nblocks := f0.blocks.length
  if ¬ (0 < bs ∧ 0 < nblocks ∧ (∀ fi ∈ cands, a.blockSize fi = bs) ∧
      ∀ f ∈ files, f.length = f0.length ∧ f.blocks.length = nblocks) then
    return (none, "no comparable per-block checksums")
  else
    let decls := files.map (·.blocks)
    let probe ← probeBlocks d src f0.length bs nblocks decls fun _ => false
    let totals := (List.range cands.length).map fun c => probe.countP (·.2.getD c false)
    let scores := ", ".intercalate
      ((files.zip totals).map fun x => x.1.name ++ ": " ++ toString x.2 ++ "/" ++ toString probe.length)
    let w := argmax totals
    if totals.getD w 0 = 0 ∨ 1 < totals.count (totals.getD w 0) then return (none, scores)
    else
      let kept ← judgeRivals decls probe w (List.range cands.length)
      return (if kept then cands[w]? else none, scores)

def Adopted.declares (fi bi : Nat) : Option BlockCheck := (a.file fi).bind (·.blocks[bi]?)

def Uniform (cands : List Nat) (bs length nblocks : Nat) : Prop :=
  0 < bs ∧ ∀ fi ∈ cands, a.blockSize fi = bs ∧
    ∃ f, a.file fi = some f ∧ f.length = length ∧ f.blocks.length = nblocks

/-- Of the blocks seen that `w` and `c` declare differently, at least one matches `w` and none
matches `c`. -/
def Outweighs (seen : List (Nat × BlockCheck)) (w c : Nat) : Prop :=
  (∃ x ∈ seen, a.declares w x.1 ≠ a.declares c x.1 ∧ a.declares w x.1 = some x.2) ∧
    ∀ x ∈ seen, a.declares w x.1 ≠ a.declares c x.1 → a.declares c x.1 ≠ some x.2

/-- The rule: the group is uniform, and `w` outweighs every rival in it. -/
def Pairs (src : Option Backing) (cands : List Nat) (w : Nat) : Prop :=
  ∃ bs length nblocks, Uniform a cands bs length nblocks ∧ w ∈ cands ∧
    ∀ c ∈ cands.erase w, Outweighs a (seenBlocks d src length bs nblocks) w c

/-! ## Positions in the group -/

variable (decls : List (List BlockCheck)) (seen : List (Nat × BlockCheck))

/-- The block's bytes carry what the candidate at `i` declares. -/
def hitAt (i : Nat) (x : Nat × BlockCheck) : Bool := (decls.getD i [])[x.1]? == some x.2

/-- The candidates at `i` and `j` declare the block alike. -/
def sameAt (i j : Nat) (x : Nat × BlockCheck) : Bool :=
  (decls.getD i [])[x.1]? == (decls.getD j [])[x.1]?

theorem hitAt_of_sameAt (i j : Nat) (x : Nat × BlockCheck) (hx : sameAt decls i j x = true) :
    hitAt decls i x = hitAt decls j x := by
  unfold hitAt
  rw [eq_of_beq hx]

theorem sameAt_comm (i j : Nat) (x : Nat × BlockCheck) : sameAt decls i j x = sameAt decls j i x :=
  Bool.beq_comm

theorem flagged_getD (i : Nat) (x : Nat × BlockCheck) :
    (flagged decls x).2.getD i false = hitAt decls i x := by
  unfold flagged hitAt
  rw [getD_eq_getElem?_getD, getElem?_map, getD_eq_getElem?_getD]
  cases decls[i]? <;> rfl

theorem countP_flagged (i : Nat) :
    (seen.map (flagged decls)).countP (·.2.getD i false) = seen.countP (hitAt decls i) := by
  rw [countP_map]
  exact countP_congr fun x _ => by rw [Function.comp_apply, flagged_getD]

theorem countP_differing (i j k : Nat) :
    ((seen.map (flagged decls)).filter fun x =>
        !((decls.getD i [])[x.1]? == (decls.getD j [])[x.1]?)).countP (·.2.getD k false) =
      (seen.filter fun x => !sameAt decls i j x).countP (hitAt decls k) := by
  rw [filter_map, countP_flagged]
  rfl

/-- Where the blocks that tell `w` from each rival speak for `w`, the assertion holds, and `w` is
kept exactly if none of them speaks for the rival. -/
theorem judgeRivals_eq {w : Nat} {cs : List Nat}
    (h : ∀ c ∈ cs, c ≠ w → 0 < apart seen (hitAt decls) (sameAt decls) w c) :
    judgeRivals decls (seen.map (flagged decls)) w cs =
      some (cs.all fun c => c == w || apart seen (hitAt decls) (sameAt decls) c w == 0) := by
  induction cs with
  | nil => rfl
  | cons c cs ih =>
    have ih := ih fun c hc => h c (.tail _ hc)
    rw [judgeRivals, all_cons]
    by_cases hcw : c = w
    · rw [if_pos hcw, ih, hcw, beq_self_eq_true, Bool.true_or, Bool.true_and]
    have hw : 0 < (seen.filter fun x => !sameAt decls w c x).countP (hitAt decls w) :=
      h c (.head _) hcw
    have hc : (seen.filter fun x => !sameAt decls w c x).countP (hitAt decls c) =
        apart seen (hitAt decls) (sameAt decls) c w := by
      unfold apart
      rw [filter_congr fun x _ => by rw [sameAt_comm]]
    dsimp only
    rw [countP_differing, countP_differing, hc, if_neg (not_lt.mpr hw)]
    by_cases hzero : apart seen (hitAt decls) (sameAt decls) c w = 0
    · rw [if_neg (by omega), ih, hzero]
      simp
    · rw [if_pos (pos_of_ne_zero hzero)]
      simp [hcw, hzero]

/-- The code's decision on the group, from the blocks seen. -/
def pairingAt (n : Nat) : Option (Option Nat) :=
  let totals := (List.range n).map fun c => seen.countP (hitAt decls c)
  let w := argmax totals
  if totals.getD w 0 = 0 ∨ 1 < totals.count (totals.getD w 0) then some none
  else
    (judgeRivals decls (seen.map (flagged decls)) w (List.range n)).map fun kept =>
      if kept then some w else none

theorem pairingAt_exact {n : Nat} (hn : 2 ≤ n) :
    ∃ r, pairingAt decls seen n = some r ∧ ∀ p, r = some p ↔
      p < n ∧ ∀ j < n, j ≠ p → Leads seen (hitAt decls) (sameAt decls) p j := by
  have hsame := hitAt_of_sameAt decls
  have hsymm := sameAt_comm decls
  obtain ⟨T, hT⟩ : ∃ T : Nat → Nat, T = fun c => seen.countP (hitAt decls c) := ⟨_, rfl⟩
  have hget : ∀ i < n, ((range n).map T).getD i 0 = T i := fun i hi => by
    simp [getD_eq_getElem?_getD, hi]
  have hmax := argmax_spec ((range n).map T) (by
    rw [ne_eq, map_eq_nil_iff, range_eq_nil]
    omega)
  unfold pairingAt
  rw [← hT]
  dsimp only
  generalize argmax ((range n).map T) = w at hmax ⊢
  rw [length_map, length_range] at hmax
  obtain ⟨hw, hmax⟩ := hmax
  rw [hget w hw] at hmax ⊢
  have hmax : ∀ i < n, T i ≤ T w := fun i hi => hget i hi ▸ hmax i hi
  -- Whoever leads every other has strictly the most, so it is `w`.
  have hlead : ∀ p < n, (∀ j < n, j ≠ p → Leads seen (hitAt decls) (sameAt decls) p j) →
      p = w ∧ ∀ j < n, j ≠ w → T j < T w := by
    intro p hp hall
    have hlt : ∀ j < n, j ≠ p → T j < T p := fun j hj hne => by
      rw [hT]
      exact (hall j hj hne).countP_lt seen hsame hsymm
    obtain rfl : p = w := by
      by_contra hne
      exact absurd (hmax p hp) (not_le.mpr (hlt w hw (Ne.symm hne)))
    exact ⟨rfl, hlt⟩
  split_ifs with hdecline
  · refine ⟨none, rfl, fun p => iff_of_false (fun h => by cases h) fun hp => ?_⟩
    obtain ⟨-, hlt⟩ := hlead p hp.1 hp.2
    rcases hdecline with hzero | htie
    · obtain ⟨j, hj, hne⟩ : ∃ j < n, j ≠ w := by
        by_cases h0 : w = 0
        · exact ⟨1, by omega, by omega⟩
        · exact ⟨0, by omega, by omega⟩
      have := hlt j hj hne
      omega
    · have hle := (count_map_range_le_one T hw).mpr fun j hj hne => ne_of_lt (hlt j hj hne)
      omega
  · obtain ⟨-, hcount⟩ := not_or.mp hdecline
    have hne := (count_map_range_le_one T hw).mp (not_lt.mp hcount)
    have hpos : ∀ c ∈ range n, c ≠ w → 0 < apart seen (hitAt decls) (sameAt decls) w c := by
      intro c hc hcw
      have hcn := mem_range.mp hc
      have hlt := lt_of_le_of_ne (hmax c hcn) (hne c hcn hcw)
      rw [hT] at hlt
      exact apart_pos_of_countP_lt seen hsame hsymm hlt
    rw [judgeRivals_eq decls seen hpos]
    refine ⟨_, rfl, fun p => ?_⟩
    dsimp only
    split_ifs with hkept
    · have hall : ∀ j < n, j ≠ w → Leads seen (hitAt decls) (sameAt decls) w j := by
        intro j hj hjw
        have hz := all_eq_true.mp hkept j (mem_range.mpr hj)
        refine ⟨hpos j (mem_range.mpr hj) hjw, ?_⟩
        simpa [hjw] using hz
      constructor
      · intro hp
        obtain rfl := Option.some.inj hp
        exact ⟨hw, hall⟩
      · rintro ⟨hp, hothers⟩
        rw [(hlead p hp hothers).1]
    · refine iff_of_false (fun h => by cases h) fun hp => hkept ?_
      obtain ⟨rfl, -⟩ := hlead p hp.1 hp.2
      refine all_eq_true.mpr fun c hc => ?_
      by_cases hcp : c = p
      · simp [hcp]
      · simp [(hp.2 c (mem_range.mp hc) hcp).2]

/-! ## The group -/

variable {a} in
theorem mapM_file {cands : List Nat} (h : ∀ fi ∈ cands, (a.file fi).isSome = true) :
    ∃ files, cands.mapM a.file = some files ∧
      ∀ i : Nat, files[i]? = (cands[i]?).bind a.file := by
  induction cands with
  | nil => exact ⟨[], rfl, fun i => rfl⟩
  | cons fi cands ih =>
    obtain ⟨files, hfiles, hget⟩ := ih fun x hx => h x (.tail _ hx)
    obtain ⟨f, hf⟩ := Option.isSome_iff_exists.mp (h fi (.head _))
    refine ⟨f :: files, ?_, fun i => ?_⟩
    · rw [mapM_cons, hf, hfiles]
      rfl
    · cases i with
      | zero => exact hf.symm
      | succ i => exact hget i

section Group

variable {a seen} {cands : List Nat} {files : List Par2File}

theorem getD_blocks (hget : ∀ i : Nat, files[i]? = (cands[i]?).bind a.file) {i fi : Nat}
    (hi : cands[i]? = some fi) (bi : Nat) :
    ((files.map (·.blocks)).getD i [])[bi]? = a.declares fi bi := by
  rw [getD_eq_getElem?_getD, getElem?_map, hget, hi, Option.bind_some, Adopted.declares]
  cases a.file fi <;> rfl

theorem leads_iff (hget : ∀ i : Nat, files[i]? = (cands[i]?).bind a.file) {i j w c : Nat}
    (hi : cands[i]? = some w) (hj : cands[j]? = some c) :
    Leads seen (hitAt (files.map (·.blocks))) (sameAt (files.map (·.blocks))) i j ↔
      Outweighs a seen w c := by
  have hhit : ∀ {k fk}, cands[k]? = some fk → ∀ x,
      hitAt (files.map (·.blocks)) k x = true ↔ a.declares fk x.1 = some x.2 := fun hk x => by
    rw [hitAt, getD_blocks hget hk, beq_iff_eq]
  have hdiff : ∀ {k l fk fl}, cands[k]? = some fk → cands[l]? = some fl → ∀ x,
      (!sameAt (files.map (·.blocks)) k l x) = true ↔ a.declares fk x.1 ≠ a.declares fl x.1 :=
    fun hk hl x => by
      rw [sameAt, getD_blocks hget hk, getD_blocks hget hl, Bool.not_eq_true', beq_eq_false_iff_ne]
  unfold Leads Outweighs apart
  rw [countP_pos_iff, countP_eq_zero]
  refine and_congr ⟨?_, ?_⟩ ⟨?_, ?_⟩
  · rintro ⟨x, hx, hm⟩
    obtain ⟨hxs, hd⟩ := mem_filter.mp hx
    exact ⟨x, hxs, (hdiff hi hj x).mp hd, (hhit hi x).mp hm⟩
  · rintro ⟨x, hxs, hd, hm⟩
    exact ⟨x, mem_filter.mpr ⟨hxs, (hdiff hi hj x).mpr hd⟩, (hhit hi x).mpr hm⟩
  · intro hall x hxs hd hm
    exact hall x (mem_filter.mpr ⟨hxs, (hdiff hj hi x).mpr hd.symm⟩) ((hhit hj x).mpr hm)
  · intro hall x hx hm
    obtain ⟨hxs, hd⟩ := mem_filter.mp hx
    exact hall x hxs ((hdiff hj hi x).mp hd).symm ((hhit hj x).mp hm)

end Group

section Rivals

variable {α : Type*} [BEq α] [LawfulBEq α] {l : List α} {x : α}

theorem eraseIdx_perm_erase {p : Nat} (hp : l[p]? = some x) : (l.eraseIdx p).Perm (l.erase x) := by
  obtain ⟨hlt, hpx⟩ := List.getElem?_eq_some_iff.mp hp
  have hcons := getElem_cons_eraseIdx_perm hlt
  rw [hpx] at hcons
  exact (hcons.trans (perm_cons_erase (mem_of_getElem? hp))).cons_inv

theorem exists_position_iff {P : α → Prop} :
    (∃ p : Nat, l[p]? = some x ∧ ∀ j : Nat, j ≠ p → ∀ c, l[j]? = some c → P c) ↔
      x ∈ l ∧ ∀ c ∈ l.erase x, P c := by
  constructor
  · rintro ⟨p, hp, hall⟩
    refine ⟨mem_of_getElem? hp, fun c hc => ?_⟩
    obtain ⟨j, hne, hj⟩ := mem_eraseIdx_iff_getElem?.mp
      ((eraseIdx_perm_erase hp).mem_iff.mpr hc)
    exact hall j hne c hj
  · rintro ⟨hmem, hall⟩
    obtain ⟨p, hp⟩ := mem_iff_getElem?.mp hmem
    exact ⟨p, hp, fun j hne c hj => hall c
      ((eraseIdx_perm_erase hp).mem_iff.mp (mem_eraseIdx_iff_getElem?.mpr ⟨j, hne, hj⟩))⟩

end Rivals

/-! ## The rule -/

section Rule

variable {a} {src : Option Backing} {cands : List Nat}

/-- The first candidate says what the group has in common. -/
theorem Uniform.eq {bs length nblocks bs' length' nblocks' : Nat} (hu : Uniform a cands bs length nblocks)
    (hu' : Uniform a cands bs' length' nblocks') (hne : cands ≠ []) :
    bs' = bs ∧ length' = length ∧ nblocks' = nblocks := by
  obtain ⟨c, hc⟩ := exists_mem_of_ne_nil cands hne
  obtain ⟨hs, f, hf, hl, hn⟩ := hu.2 c hc
  obtain ⟨hs', g, hg, hl', hn'⟩ := hu'.2 c hc
  rw [hf] at hg
  obtain rfl := Option.some.inj hg
  exact ⟨hs'.symm.trans hs, hl'.symm.trans hl, hn'.symm.trans hn⟩

/-- Who pairs against a rival declares a block. -/
theorem Pairs.nblocks_pos {w bs length nblocks : Nat} (hu : Uniform a cands bs length nblocks)
    (hw : Pairs d a src cands w) (h2 : 2 ≤ cands.length) : 0 < nblocks := by
  obtain ⟨bs', length', nblocks', -, hmem, hall⟩ := hw
  obtain ⟨c, hc⟩ : ∃ c, c ∈ cands.erase w := by
    refine exists_mem_of_ne_nil _ (ne_nil_of_length_pos ?_)
    rw [length_erase_of_mem hmem]
    omega
  obtain ⟨⟨x, -, -, hx⟩, -⟩ := hall c hc
  obtain ⟨-, f, hf, -, hn⟩ := hu.2 w hmem
  rw [Adopted.declares, hf, Option.bind_some] at hx
  have := (List.getElem?_eq_some_iff.mp hx).1
  omega

theorem ifscPairing_mixed (hvalid : ∀ fi ∈ cands, (a.file fi).isSome = true) (hne : cands ≠ [])
    {files : List Par2File} (hfiles : cands.mapM a.file = some files)
    (hget : ∀ i : Nat, files[i]? = (cands[i]?).bind a.file)
    (hmixed : ¬ ∃ bs length nblocks, Uniform a cands bs length nblocks ∧ 0 < nblocks) :
    ifscPairing d a src cands = some (none, "no comparable per-block checksums") := by
  obtain ⟨c0, rest, rfl⟩ := exists_cons_of_ne_nil hne
  obtain ⟨f0, hf0⟩ := Option.isSome_iff_exists.mp (hvalid c0 (.head _))
  unfold ifscPairing
  simp only [head?_cons, Option.bind_eq_bind, Option.bind_some, hf0, hfiles]
  rw [if_pos]
  · rfl
  · rintro ⟨hbs, hn, hsize, hsame⟩
    refine hmixed ⟨a.blockSize c0, f0.length, f0.blocks.length,
      ⟨hbs, fun fi hfi => ⟨hsize fi hfi, ?_⟩⟩, hn⟩
    obtain ⟨f, hf⟩ := Option.isSome_iff_exists.mp (hvalid fi hfi)
    obtain ⟨i, hi⟩ := mem_iff_getElem?.mp hfi
    have hfile : files[i]? = some f := by rw [hget, hi, Option.bind_some, hf]
    exact ⟨f, hf, hsame f (mem_of_getElem? hfile)⟩

variable (src)

theorem ifscPairing_uniform {bs length nblocks : Nat} (hu : Uniform a cands bs length nblocks)
    (hn : 0 < nblocks) (hne : cands ≠ []) {files : List Par2File}
    (hfiles : cands.mapM a.file = some files)
    (hget : ∀ i : Nat, files[i]? = (cands[i]?).bind a.file) :
    ∃ scores, ifscPairing d a src cands =
      (pairingAt (files.map (·.blocks)) (seenBlocks d src length bs nblocks) cands.length).map
        fun r => (r.bind (cands[·]?), scores) := by
  obtain ⟨c0, rest, rfl⟩ := exists_cons_of_ne_nil hne
  obtain ⟨hbs, hall⟩ := hu
  obtain ⟨hsize, f0, hf0, hl0, hn0⟩ := hall c0 (.head _)
  have hfall : ∀ f ∈ files, f.length = length ∧ f.blocks.length = nblocks := by
    intro f hf
    obtain ⟨i, hi⟩ := mem_iff_getElem?.mp hf
    rw [hget] at hi
    obtain ⟨fi, hfi, hfile⟩ := Option.bind_eq_some_iff.mp hi
    obtain ⟨-, g, hg, hgl, hgn⟩ := hall fi (mem_of_getElem? hfi)
    rw [hg] at hfile
    obtain rfl := Option.some.inj hfile
    exact ⟨hgl, hgn⟩
  have hprobe := probeBlocks_eq d src length bs nblocks (files.map (·.blocks)) (by
    intro decl hdecl
    obtain ⟨f, hf, rfl⟩ := mem_map.mp hdecl
    exact (hfall f hf).2)
  unfold ifscPairing pairingAt
  simp only [head?_cons, Option.bind_eq_bind, Option.bind_some, hf0, hfiles, hsize, hl0, hn0]
  rw [if_neg (not_not.mpr ⟨hbs, hn, fun fi hfi => (hall fi hfi).1, hfall⟩), hprobe]
  simp only [Option.bind_some, countP_flagged]
  split_ifs
  · exact ⟨_, rfl⟩
  · generalize judgeRivals _ _ _ _ = kept
    rcases kept with _ | _ | _
    · exact ⟨"", rfl⟩
    · exact ⟨_, rfl⟩
    · exact ⟨_, rfl⟩

/-- The pairing answers on every group, and what it answers is the rule. -/
theorem ifscPairing_iff (hvalid : ∀ fi ∈ cands, (a.file fi).isSome = true) (h2 : 2 ≤ cands.length) :
    ∃ r scores, ifscPairing d a src cands = some (r, scores) ∧
      ∀ w, r = some w ↔ Pairs d a src cands w := by
  obtain ⟨files, hfiles, hget⟩ := mapM_file hvalid
  have hne : cands ≠ [] := by
    rintro rfl
    exact absurd h2 (by decide)
  by_cases hu : ∃ bs length nblocks, Uniform a cands bs length nblocks ∧ 0 < nblocks
  · obtain ⟨bs, length, nblocks, hu, hn⟩ := hu
    obtain ⟨scores, heq⟩ := ifscPairing_uniform d src hu hn hne hfiles hget
    obtain ⟨r, hr, hiff⟩ := pairingAt_exact (files.map (·.blocks))
      (seenBlocks d src length bs nblocks) h2
    rw [hr] at heq
    refine ⟨_, _, heq, fun w => ?_⟩
    have hbind : r.bind (cands[·]?) = some w ↔ ∃ p : Nat, cands[p]? = some w ∧
        ∀ j : Nat, j ≠ p → ∀ c, cands[j]? = some c →
          Outweighs a (seenBlocks d src length bs nblocks) w c := by
      rw [Option.bind_eq_some_iff]
      refine exists_congr fun p => ?_
      rw [hiff, and_comm]
      refine and_congr_right fun hp => ?_
      have hplt := (List.getElem?_eq_some_iff.mp hp).1
      constructor
      · rintro ⟨-, hall⟩ j hj c hc
        exact (leads_iff hget hp hc).mp (hall j (List.getElem?_eq_some_iff.mp hc).1 hj)
      · intro hall
        refine ⟨hplt, fun j hj hjp => ?_⟩
        have hc := getElem?_eq_getElem hj
        exact (leads_iff hget hp hc).mpr (hall j hjp _ hc)
    rw [hbind, exists_position_iff]
    constructor
    · exact fun hw => ⟨bs, length, nblocks, hu, hw⟩
    · rintro ⟨bs', length', nblocks', hu', hw⟩
      obtain ⟨rfl, rfl, rfl⟩ := hu.eq hu' hne
      exact hw
  · refine ⟨none, _, ifscPairing_mixed d hvalid hne hfiles hget hu, fun w => ?_⟩
    refine iff_of_false (fun h => by cases h) fun hw => hu ?_
    obtain ⟨bs, length, nblocks, hu', -⟩ := id hw
    exact ⟨bs, length, nblocks, hu', hw.nblocks_pos d hu' h2⟩

/-- The pairing is the pairwise rule on every group of two or more descriptors: it always answers, at
most one candidate fits the rule, and the order of the candidates does not matter. -/
theorem ifscPairing_exact (hvalid : ∀ fi ∈ cands, (a.file fi).isSome = true)
    (h2 : 2 ≤ cands.length) :
    (∃ r scores, ifscPairing d a src cands = some (r, scores) ∧
      ∀ w, r = some w ↔ Pairs d a src cands w) ∧
    (∀ w w', Pairs d a src cands w → Pairs d a src cands w' → w = w') ∧
    ∀ cands' : List Nat, cands'.Perm cands →
      (ifscPairing d a src cands').map (·.1) = (ifscPairing d a src cands).map (·.1) := by
  obtain ⟨r, scores, heq, hr⟩ := ifscPairing_iff d src hvalid h2
  refine ⟨⟨r, scores, heq, hr⟩, fun w w' hw hw' => ?_, fun cands' hperm => ?_⟩
  · exact Option.some.inj (((hr w).mpr hw).symm.trans ((hr w').mpr hw'))
  · obtain ⟨r', scores', heq', hr'⟩ := ifscPairing_iff d src
      (fun fi hfi => hvalid fi (hperm.mem_iff.mp hfi)) (hperm.length_eq.symm ▸ h2)
    have hpairs : ∀ w, Pairs d a src cands' w ↔ Pairs d a src cands w := fun w => by
      refine exists_congr fun bs => exists_congr fun length => exists_congr fun nblocks => ?_
      refine and_congr (and_congr_right' ?_) (and_congr hperm.mem_iff ?_)
      · exact forall_congr' fun fi => imp_congr_left hperm.mem_iff
      · exact forall_congr' fun c => imp_congr_left (hperm.erase w).mem_iff
    have hsame : r' = r :=
      Option.ext fun w => (hr' w).trans ((hpairs w).trans (hr w).symm)
    rw [heq, heq', hsame]
    rfl

end Rule

end Pairing

/-- A slot whose bytes are all there. -/
def Backing.ofBytes (content : List UInt8) : Backing where
  read off n := if off + n ≤ content.length then some ((content.drop off).take n) else none
  length_read off n bytes h := by
    split at h
    · rw [← Option.some.inj h, List.length_take, List.length_drop]
      omega
    · cases h

def twinHost : Host where
  md5 _ := []
  sha256 _ := .replicate 32 0
  windows := false

def twinDigests : Digests where
  crc32 bytes := bytes.foldl (fun n b => n + b.toNat) 0
  combine _ _ _ := 0
  zeros crc _ := crc
  unzero crc _ := crc
  md5 _ := []

/-- Two files of two blocks that differ in the second. -/
def twinSet : Par2Set where
  recoverySetId := []
  blockSize := 4
  files := [⟨[], "a", 8, [], [], [⟨[], 4⟩, ⟨[], 8⟩]⟩, ⟨[], "b", 8, [], [], [⟨[], 4⟩, ⟨[], 12⟩]⟩]
  nonrecovery := []
  comment := none
  recoveryBlocksSeen := 0

def twinGroup : Adopted twinHost := .new twinHost [twinSet]

/-- The second block speaks for the first file. -/
theorem ifscPairing_exact_twins :
    Pairs twinDigests twinGroup (some (.ofBytes [1, 1, 1, 1, 2, 2, 2, 2])) [1, 0] 0 ∧
      ¬ Pairs twinDigests twinGroup (some (.ofBytes [1, 1, 1, 1, 2, 2, 2, 2])) [1, 0] 1 := by
  have hvalid : ∀ fi ∈ [1, 0], (twinGroup.file fi).isSome = true := by decide
  obtain ⟨⟨r, scores, heq, hr⟩, honly, -⟩ := ifscPairing_exact twinDigests
    (some (.ofBytes [1, 1, 1, 1, 2, 2, 2, 2])) hvalid (by decide)
  have hrun : (ifscPairing twinDigests twinGroup (some (.ofBytes [1, 1, 1, 1, 2, 2, 2, 2])) [1, 0]).map
      (·.1) = some (some 0) := by decide
  rw [heq] at hrun
  have h0 := (hr 0).mp (Option.some.inj hrun)
  exact ⟨h0, fun h1 => absurd (honly _ _ h0 h1) (by decide)⟩

end NzbFast.Live
