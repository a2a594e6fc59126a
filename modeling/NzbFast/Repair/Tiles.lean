import NzbFast.Repair.Kernels

/-!
# One unit of the fold, tile by tile

`fold_chunk_tiled_prepared` and `fold_chunk_multi`
(`crates/nzbkit-base/src/par2repair/linalg.rs`): a unit's sources are taken in groups, its
columns in tiles, and each tile is folded row after row. The second is used where the
platform has a fused kernel: sources that cover a whole tile go through it together, what
it leaves and the sources that end inside the tile are folded singly.

Groups, tiles and windows only arrange the work. Over every arrangement a unit visits each
of its cells once (`cells_foldChunk`), with the source's word and the cell's coefficient
(`mem_foldChunk`).
-/

namespace NzbFast.Repair

open Gf16 Tiling Multiset
open List hiding map_map range replicate

/-- What the build, the processor and the environment decide. -/
structure Machine where
  /-- `gf16::multi_fold_width()`: the sources a fused kernel takes, or zero. -/
  multiFoldWidth : Nat
  /-- `gf16::multi_fold_schedule_granule_words()`. -/
  granule : Nat
  granule_eq : granule = 16 ∨ granule = 32
  /-- How many words of a tile the fused kernel covers, which also depends on the coefficients: there
  is a shortcut for all ones. -/
  covered : Nat → List Gf16 → Nat
  covered_le : ∀ n cs, covered n cs ≤ n
  /-- `gf16::PreparedSources::enabled()`. -/
  planarEnabled : Bool
  l2TargetWords : Nat
  sizeofFoldTable : Nat

variable {m : Machine}

theorem Machine.granule_pos (m : Machine) : 0 < m.granule := by
  rcases m.granule_eq with h | h
  · omega
  · omega

/-! ## Sizes -/

def MIN_TILE_WORDS : Nat := 2 * 1024

def clamp (x lo hi : Nat) : Nat := max lo (min x hi)

/-- `x & !(g - 1)`, for a power of two. -/
def alignDown (x g : Nat) : Nat := x / g * g

/-- The group of `fold_chunk_tiled_prepared`: as many sources as the budget holds tables for. -/
def tableGroup (m : Machine) (budget rows srcs : Nat) : Nat :=
  clamp (budget / max (m.sizeofFoldTable * rows) 1) 1 srcs

/-- The tile of `fold_chunk_tiled_prepared`. -/
def tableTile (m : Machine) (tileWords rows : Nat) : Nat :=
  clamp (m.l2TargetWords / rows) (min MIN_TILE_WORDS (max tileWords 1)) (max tileWords 1)

/-- The granule of `fold_chunk_multi`: a ceiling below the kernel's keeps 16. -/
def tileGranule (m : Machine) (tileWords : Nat) : Nat :=
  if m.granule ≤ tileWords then m.granule else 16

/-- The tile of `fold_chunk_multi`. -/
def multiTile (m : Machine) (tileWords rows : Nat) (prepacked : Bool) : Nat :=
  let granule := tileGranule m tileWords
  let ceiling := max tileWords granule
  let tile := alignDown (clamp (m.l2TargetWords / rows) (min MIN_TILE_WORDS ceiling) ceiling) granule
  if prepacked then alignDown (max tile granule) 32 else max tile granule

/-- The group of `fold_chunk_multi`. -/
def multiGroup (m : Machine) (prepacked : Bool) : Nat :=
  if prepacked then min (min m.multiFoldWidth 16) 4 else min m.multiFoldWidth 16

theorem tableGroup_pos (m : Machine) (budget rows srcs : Nat) : 0 < tableGroup m budget rows srcs := by
  unfold tableGroup clamp
  omega

theorem tableTile_pos (m : Machine) (tileWords rows : Nat) : 0 < tableTile m tileWords rows := by
  unfold tableTile clamp MIN_TILE_WORDS
  omega

theorem multiGroup_pos (h : 0 < m.multiFoldWidth) (prepacked : Bool) : 0 < multiGroup m prepacked := by
  unfold multiGroup
  split
  · omega
  · omega

theorem tileGranule_eq (m : Machine) (tileWords : Nat) :
    tileGranule m tileWords = 16 ∨ tileGranule m tileWords = 32 ∧ 32 ≤ tileWords := by
  have := m.granule_eq
  unfold tileGranule
  split
  · omega
  · omega

variable {prepacked : Bool} {tileWords words : Nat} {srcs : List (List UInt8)} {t : Nat × Nat}
  {full : List (Nat × List UInt8)} {d : Slice} {v : Visit} {dsts : List Slice}

/-- A tile is never empty. Tiles of packed sources are cut on 32 words, which a ceiling of 32 words
leaves room for. -/
theorem multiTile_pos (m : Machine) (rows : Nat) (h : prepacked = true → 32 ≤ tileWords) :
    0 < multiTile m tileWords rows prepacked := by
  have hg := tileGranule_eq m tileWords
  unfold multiTile alignDown clamp MIN_TILE_WORDS
  dsimp only
  generalize tileGranule m tileWords = g at hg ⊢
  split
  case isTrue hp =>
    have h32 := h hp
    rcases hg with rfl | ⟨rfl, -⟩
    · omega
    · omega
  case isFalse => omega

theorem dvd_multiTile (m : Machine) (tileWords rows : Nat) : 32 ∣ multiTile m tileWords rows true := by
  exact dvd_mul_left 32 _

/-! ## Windows -/

/-- The sources of a group, each cut to a tile; one with no bytes there is passed. -/
def windows (srcs : List (List UInt8)) (g t : Nat × Nat) : List (Nat × List UInt8) :=
  ((between g).map fun i => (i, window (srcs.getD i []) t.1 t.2)).filter fun x => !x.2.isEmpty

theorem mem_windows {g : Nat × Nat} {x : Nat × List UInt8} (h : x ∈ windows srcs g t) :
    (g.1 ≤ x.1 ∧ x.1 < g.2) ∧ x.2 = window (srcs.getD x.1 []) t.1 t.2 := by
  obtain ⟨i, hi, rfl⟩ := mem_map.mp (mem_of_mem_filter h)
  exact ⟨mem_between.mp hi, rfl⟩

/-- What is done for every window is done for every source, if an empty one asks for nothing. -/
theorem bind_windows {β : Type} (srcs : List (List UInt8)) (g t : Nat × Nat)
    (f : Nat → List UInt8 → Multiset β) (hnil : ∀ i, f i [] = 0) :
    (windows srcs g t : Multiset (Nat × List UInt8)).bind (fun x => f x.1 x.2) =
      (between g : Multiset Nat).bind fun i => f i (window (srcs.getD i []) t.1 t.2) := by
  have hall := bind_filter_not ((between g).map fun i => (i, window (srcs.getD i []) t.1 t.2))
    (fun x => !x.2.isEmpty) fun x => f x.1 x.2
  have hrest : ((((between g).map fun i => (i, window (srcs.getD i []) t.1 t.2)).filter
      fun x => !!x.2.isEmpty : List (Nat × List UInt8)) : Multiset (Nat × List UInt8)).bind
        (fun x => f x.1 x.2) = 0 := by
    rw [Multiset.bind_congr (g := fun _ => (0 : Multiset β)), bind_zero]
    intro x hx
    have hempty := (mem_filter.mp (mem_coe.mp hx)).2
    rw [Bool.not_not] at hempty
    rw [List.isEmpty_iff.mp hempty, hnil]
  rw [hrest, add_zero, ← map_coe, Multiset.bind_map] at hall
  exact hall.symm

/-! ## The table path -/

/-- The coefficient tables of one call, built once. -/
structure CoeffTable where
  table : List Gf16
  stride : Nat

def groupCoeffs (coeff : Nat → Nat → Gf16) (rowBase rows : Nat) (g : Nat × Nat) : List Gf16 :=
  (List.range rows).flatMap fun j => (between g).map fun i => coeff (rowBase + j) i

/-- The loops of `fold_chunk_tiled_prepared`, where there is no fused kernel. -/
def foldChunkTables (m : Machine) (dsts : List Slice) (srcs : List (List UInt8))
    (coeff : Nat → Nat → Gf16) (rowBase tileWords tableBudget words : Nat) : List Visit :=
  (spans (tableGroup m tableBudget dsts.length srcs.length) srcs.length).flatMap fun g =>
    let coeffs := groupCoeffs coeff rowBase dsts.length g
    (spans (tableTile m tileWords dsts.length) words).flatMap fun t =>
      (windows srcs g t).flatMap fun x =>
        dsts.zipIdx.flatMap fun d =>
          xorMulInto (d.1.sub t.1 t.2) x.1 (coeffs.getD (d.2 * (g.2 - g.1) + (x.1 - g.1)) 0) x.2

/-! ## The fused path -/

/-- `PreparedSources::prepare`: whether the sources of a tile were packed for the planar kernel. -/
def prepare (m : Machine) (full : List (Nat × List UInt8)) : Bool :=
  m.planarEnabled && decide (full.length ≤ 4) &&
    match full.head? with
    | none => false
    | some x => x.2.length != 0 && x.2.length % 64 == 0 && full.all fun y => y.2.length == x.2.length

/-- The words `planar_fold` covers: whole chunks of 64 bytes. -/
def planarCovered (d : Slice) (full : List (Nat × List UInt8)) : Nat :=
  min ((full.map fun x => x.2.length / 64 * 2).min?.getD 0) (d.len / 32 * 2) * 16

/-- What the selected kernel reads as word `k` of a source. -/
def kernelWord (prepacked planar : Bool) (bytes : List UInt8) (k : Nat) : Gf16 :=
  if prepacked then planarWord bytes k
  else if planar then planarWord (preparePlanar bytes) k
  else srcWord bytes k

/-- One row of one tile: the fused kernel over the sources that cover it, what that left of each, and
the sources that end inside. -/
def foldTile (m : Machine) (prepacked packed : Bool) (d : Slice) (c : Nat → Gf16)
    (full short : List (Nat × List UInt8)) : List Visit :=
  let planar := prepacked || packed && !full.all fun x => decide (c x.1 = 1)
  let done := if planar then planarCovered d full else m.covered d.len (full.map fun x => c x.1)
  (if full.isEmpty then []
    else xorMulMulti d done (full.map fun x => (x.1, c x.1, kernelWord prepacked planar x.2)) ++
      if done < d.len then
        full.flatMap fun x => xorMulInto (d.sub done d.len) x.1 (c x.1) (x.2.drop (2 * done))
      else []) ++
    short.flatMap fun x => xorMulInto d x.1 (c x.1) x.2

def foldChunkMulti (m : Machine) (dsts : List Slice) (srcs : List (List UInt8))
    (coeff : Nat → Nat → Gf16) (rowBase tileWords words : Nat) (prepacked : Bool)
    (prepared : Option CoeffTable) : List Visit :=
  let usePlanar := decide (8 ≤ dsts.length) && m.planarEnabled
  (spans (multiGroup m prepacked) srcs.length).flatMap fun g =>
    let coeffs := groupCoeffs coeff rowBase dsts.length g
    (spans (multiTile m tileWords dsts.length prepacked) words).flatMap fun t =>
      let full := (windows srcs g t).filter fun x => x.2.length == (t.2 - t.1) * 2
      let short := (windows srcs g t).filter fun x => !(x.2.length == (t.2 - t.1) * 2)
      let packed := !prepacked && usePlanar && prepare m full
      dsts.zipIdx.flatMap fun d =>
        let row := match prepared with
          | some p => (p.table.drop ((rowBase + d.2) * p.stride + g.1)).take (g.2 - g.1)
          | none => (coeffs.drop (d.2 * (g.2 - g.1))).take (g.2 - g.1)
        foldTile m prepacked packed (d.1.sub t.1 t.2) (fun i => row.getD (i - g.1) 0) full short

/-- `fold_chunk_tiled_prepared`. The `assert!` that packed sources have a fused kernel is the caller's
to keep. -/
def foldChunkTiledPrepared (m : Machine) (dsts : List Slice) (srcs : List (List UInt8))
    (coeff : Nat → Nat → Gf16) (rowBase tileWords tableBudget : Nat) (prepacked : Bool)
    (prepared : Option CoeffTable) : List Visit :=
  match dsts, srcs with
  | [], _ | _, [] => []
  | d :: dsts, s :: srcs =>
    if 0 < m.multiFoldWidth then
      foldChunkMulti m (d :: dsts) (s :: srcs) coeff rowBase tileWords d.len prepacked prepared
    else foldChunkTables m (d :: dsts) (s :: srcs) coeff rowBase tileWords tableBudget d.len

/-! ## Cells of a tile -/

/-- The cell of a word of a slice and a source, if the source reaches it. -/
def point (d : Slice) (i : Nat) (s : List UInt8) (w : Nat) : Multiset (Nat × Nat × Nat) :=
  if 2 * w < s.length then {(d.row, i, d.start + w)} else 0

theorem span_sub (d : Slice) (i a e n : Nat) : span (d.sub a e) i 0 n = span d i a (a + n) := by
  unfold span between Slice.sub
  rw [Nat.add_sub_cancel_left, Nat.sub_zero, ← range_eq_range', range'_eq_map_range, List.map_map]
  refine congrArg _ (map_congr_left fun k _ => ?_)
  rw [Function.comp_apply, add_assoc]

/-- A window visits the words of its tile that the source reaches. -/
theorem span_window (d : Slice) (i : Nat) (s : List UInt8) (ht : t.1 ≤ t.2) :
    span (d.sub t.1 t.2) i 0 (((window s t.1 t.2).length + 1) / 2) =
      (between t : Multiset Nat).bind (point d i s) := by
  have hlen := length_window s t.1 t.2
  generalize hn : ((window s t.1 t.2).length + 1) / 2 = n
  have hbound : t.1 + n ≤ t.2 := by omega
  have hin : (between (t.1, t.1 + n) : Multiset Nat).bind (point d i s) =
      span (d.sub t.1 t.2) i 0 n := by
    have hpoint : ∀ w ∈ (between (t.1, t.1 + n) : Multiset Nat),
        point d i s w = {(d.row, i, d.start + w)} := fun w hw => by
      have := mem_between.mp (mem_coe.mp hw)
      exact if_pos (by dsimp only at this; omega)
    rw [bind_congr hpoint, bind_singleton, map_coe, span_sub, span]
  have hout : (between (t.1 + n, t.2) : Multiset Nat).bind (point d i s) = 0 := by
    have hpoint : ∀ w ∈ (between (t.1 + n, t.2) : Multiset Nat), point d i s w = 0 := fun w hw => by
      have := mem_between.mp (mem_coe.mp hw)
      exact if_neg (by dsimp only at this; omega)
    rw [bind_congr hpoint, bind_zero]
  have hsplit : (between t : Multiset Nat) = between (t.1, t.1 + n) + between (t.1 + n, t.2) := by
    rw [coe_add, between_append (Nat.le_add_right t.1 n) hbound]
  rw [hsplit, add_bind, hin, hout, add_zero]

theorem cells_foldTile (prepacked packed : Bool) (d : Slice) (c : Nat → Gf16)
    {short : List (Nat × List UInt8)} (hfull : ∀ x ∈ full, x.2.length = d.len * 2) :
    cells (foldTile m prepacked packed d c full short) =
      (full : Multiset (Nat × List UInt8)).bind (fun x => span d x.1 0 ((x.2.length + 1) / 2)) +
        (short : Multiset (Nat × List UInt8)).bind fun x => span d x.1 0 ((x.2.length + 1) / 2) := by
  unfold foldTile
  dsimp only
  generalize (prepacked || packed && !full.all fun x => decide (c x.1 = 1)) = planar
  have hdone : (if planar then planarCovered d full else m.covered d.len (full.map fun x => c x.1)) ≤
      d.len := by
    split
    · unfold planarCovered
      omega
    · exact m.covered_le _ _
  generalize (if planar then planarCovered d full else m.covered d.len (full.map fun x => c x.1)) = done
    at hdone ⊢
  rw [cells_append, cells_flatMap, bind_congr fun x _ => cells_xorMulInto d x.1 (c x.1) x.2]
  refine congrArg (· + _) ?_
  split
  case isTrue hnil =>
    rw [List.isEmpty_iff.mp hnil]
    rfl
  case isFalse =>
    have hrest : cells (if done < d.len then
        full.flatMap fun x => xorMulInto (d.sub done d.len) x.1 (c x.1) (x.2.drop (2 * done)) else []) =
        (full : Multiset (Nat × List UInt8)).bind fun x => span d x.1 done d.len := by
      split
      case isTrue hlt =>
        rw [cells_flatMap]
        refine bind_congr fun x hx => ?_
        have hlen := hfull x (mem_coe.mp hx)
        have hend : done + (d.len * 2 - 2 * done + 1) / 2 = d.len := by omega
        rw [cells_xorMulInto, span_sub, length_drop, hlen, hend]
      case isFalse hge =>
        have heq : done = d.len := by omega
        have hempty : ∀ i, span d i d.len d.len = 0 := fun i => by
          unfold span between
          rw [Nat.sub_self]
          rfl
        rw [cells_nil, heq, bind_congr fun x _ => hempty x.1, bind_zero]
    rw [cells_append, hrest, cells_xorMulMulti, ← map_coe, bind_map, ← bind_add]
    refine bind_congr fun x hx => ?_
    have hend : (d.len * 2 + 1) / 2 = d.len := by omega
    rw [hfull x (mem_coe.mp hx), hend]
    exact span_append d x.1 (Nat.zero_le done) hdone

/-! ## Cells of a unit -/

theorem cells_foldWindows (prepacked packed : Bool) (d : Slice) (c : Nat → Gf16)
    (srcs : List (List UInt8)) (g : Nat × Nat) (ht : t.1 ≤ t.2) :
    cells (foldTile m prepacked packed (d.sub t.1 t.2) c
        ((windows srcs g t).filter fun x => x.2.length == (t.2 - t.1) * 2)
        ((windows srcs g t).filter fun x => !(x.2.length == (t.2 - t.1) * 2))) =
      (between g : Multiset Nat).bind fun i =>
        (between t : Multiset Nat).bind (point d i (srcs.getD i [])) := by
  have hfull : ∀ x ∈ (windows srcs g t).filter fun x => x.2.length == (t.2 - t.1) * 2,
      x.2.length = (d.sub t.1 t.2).len * 2 := fun x hx => eq_of_beq (mem_filter.mp hx).2
  rw [cells_foldTile prepacked packed (d.sub t.1 t.2) c hfull,
    ← bind_filter_not (windows srcs g t) (fun x => x.2.length == (t.2 - t.1) * 2) fun x =>
      span (d.sub t.1 t.2) x.1 0 ((x.2.length + 1) / 2),
    bind_windows srcs g t (fun i bytes => span (d.sub t.1 t.2) i 0 ((bytes.length + 1) / 2)) fun _ => rfl]
  exact bind_congr fun i _ => span_window d i (srcs.getD i []) ht

/-- The cells of a unit: every row, every source, every column the source reaches. -/
def unitCells (dsts : List Slice) (srcs : List (List UInt8)) (words : Nat) :
    Multiset (Nat × Nat × Nat) :=
  (dsts : Multiset Slice).bind fun d => (Multiset.range srcs.length).bind fun i =>
    (Multiset.range words).bind (point d i (srcs.getD i []))

/-- Groups and tiles of any size, walked in this order, are the cells of a unit. -/
theorem bind_unit (dsts : List Slice) (srcs : List (List UInt8)) (words : Nat) {group tile : Nat}
    (hgroup : 0 < group) (htile : 0 < tile) :
    ((spans group srcs.length : Multiset (Nat × Nat)).bind fun g =>
      (spans tile words : Multiset (Nat × Nat)).bind fun t =>
        (dsts : Multiset Slice).bind fun d => (between g : Multiset Nat).bind fun i =>
          (between t : Multiset Nat).bind (point d i (srcs.getD i []))) = unitCells dsts srcs words := by
  have htiles : ∀ g : Nat × Nat, ((spans tile words : Multiset (Nat × Nat)).bind fun t =>
      (dsts : Multiset Slice).bind fun d => (between g : Multiset Nat).bind fun i =>
        (between t : Multiset Nat).bind (point d i (srcs.getD i []))) =
      (dsts : Multiset Slice).bind fun d => (between g : Multiset Nat).bind fun i =>
        (range words).bind (point d i (srcs.getD i [])) := fun g => by
    rw [bind_bind]
    refine bind_congr fun d _ => ?_
    rw [bind_bind]
    exact bind_congr fun i _ => bind_spans htile words _
  rw [bind_congr fun g _ => htiles g, bind_bind]
  exact bind_congr fun d _ => bind_spans hgroup srcs.length _

/-- The loops over rows only count them. -/
theorem bind_zipIdx {β : Type} (dsts : List Slice) (f : Slice → Multiset β) :
    (dsts.zipIdx : Multiset (Slice × Nat)).bind (fun d => f d.1) = (dsts : Multiset Slice).bind f := by
  rw [← bind_map (dsts.zipIdx : Multiset (Slice × Nat)) f Prod.fst, map_coe, zipIdx_map_fst]

theorem cells_foldChunkTables (m : Machine) (dsts : List Slice) (srcs : List (List UInt8))
    (coeff : Nat → Nat → Gf16) (rowBase tileWords tableBudget words : Nat) :
    cells (foldChunkTables m dsts srcs coeff rowBase tileWords tableBudget words) =
      unitCells dsts srcs words := by
  rw [← bind_unit dsts srcs words (tableGroup_pos m tableBudget dsts.length srcs.length)
    (tableTile_pos m tileWords dsts.length)]
  unfold foldChunkTables
  rw [cells_flatMap]
  refine bind_congr fun g _ => ?_
  rw [cells_flatMap]
  refine bind_congr fun t ht => ?_
  have hle := (mem_spans (tableTile_pos m tileWords dsts.length) (mem_coe.mp ht)).1.le
  rw [cells_flatMap, bind_congr fun x _ => cells_flatMap dsts.zipIdx _, bind_bind,
    ← bind_zipIdx]
  refine bind_congr fun d _ => ?_
  rw [bind_congr fun x _ => cells_xorMulInto _ _ _ _,
    bind_windows srcs g t (fun i bytes => span (d.1.sub t.1 t.2) i 0 ((bytes.length + 1) / 2)) fun _ => rfl]
  exact bind_congr fun i _ => span_window d.1 i (srcs.getD i []) hle

theorem cells_foldChunkMulti (dsts : List Slice) (srcs : List (List UInt8))
    (coeff : Nat → Nat → Gf16) (rowBase : Nat) (words : Nat) (prepared : Option CoeffTable)
    (hm : 0 < m.multiFoldWidth) (hpre : prepacked = true → 32 ≤ tileWords) :
    cells (foldChunkMulti m dsts srcs coeff rowBase tileWords words prepacked prepared) =
      unitCells dsts srcs words := by
  rw [← bind_unit dsts srcs words (multiGroup_pos hm prepacked) (multiTile_pos m dsts.length hpre)]
  unfold foldChunkMulti
  rw [cells_flatMap]
  refine bind_congr fun g _ => ?_
  rw [cells_flatMap]
  refine bind_congr fun t ht => ?_
  have hle := (mem_spans (multiTile_pos m dsts.length hpre) (mem_coe.mp ht)).1.le
  rw [cells_flatMap, ← bind_zipIdx]
  exact bind_congr fun d _ => cells_foldWindows _ _ d.1 _ srcs g hle

/-! ## What a unit reads -/

/-- Word `k` of a source as the fold is to read it. -/
def sourceWord (prepacked : Bool) (src : List UInt8) (k : Nat) : Gf16 :=
  if prepacked then planarWord src k else srcWord src k

theorem planarCovered_eq (hne : full ≠ []) (hfull : ∀ x ∈ full, x.2.length = d.len * 2) :
    planarCovered d full = d.len / 32 * 32 := by
  have hmap : (full.map fun x => x.2.length / 64 * 2) = List.replicate full.length (d.len * 2 / 64 * 2) :=
    eq_replicate_iff.mpr ⟨length_map _, fun n hn => by
      obtain ⟨x, hx, rfl⟩ := mem_map.mp hn
      rw [hfull x hx]⟩
  unfold planarCovered
  rw [hmap, min?_replicate_of_pos (length_pos_of_ne_nil hne), Option.getD_some]
  omega

theorem srcWord_drop (bytes : List UInt8) (n k : Nat) :
    srcWord (bytes.drop (2 * n)) k = srcWord bytes (n + k) := by
  have hget : ∀ x, (bytes.drop (2 * n)).getD x 0 = bytes.getD (2 * n + x) 0 := fun x => by
    rw [getD_eq_getElem?_getD, getD_eq_getElem?_getD, getElem?_drop]
  unfold srcWord
  rw [hget, hget, mul_add, add_assoc (2 * n)]

/-- `prepare` admits whole chunks of 64 bytes only. -/
theorem dvd_of_prepare (h : prepare m full = true) : ∀ x ∈ full, 64 ∣ x.2.length := by
  intro x hx
  unfold prepare at h
  cases full with
  | nil => cases hx
  | cons y full =>
    simp only [head?_cons, Bool.and_eq_true, bne_iff_ne, beq_iff_eq, all_eq_true] at h
    rw [h.2.2 x hx]
    exact Nat.dvd_of_mod_eq_zero h.2.1.2

/-- What a tile may visit. -/
structure TileOk (prepacked packed : Bool) (d : Slice) (full short : List (Nat × List UInt8)) : Prop where
  covers : ∀ x ∈ full, x.2.length = d.len * 2
  inside : ∀ x ∈ short, x.2.length ≤ d.len * 2
  chunks : packed = true → ∀ x ∈ full, 64 ∣ x.2.length
  whole : prepacked = true → 32 ∣ d.len ∧ short = []

theorem mem_foldTile {packed : Bool} {c : Nat → Gf16} {short : List (Nat × List UInt8)}
    (hok : TileOk prepacked packed d full short)
    (h : v ∈ foldTile m prepacked packed d c full short) :
    ∃ x ∈ full ++ short, ∃ k < d.len, v.At d x.1 k (c x.1) (sourceWord prepacked x.2 k) := by
  unfold foldTile at h
  generalize hplanar : (prepacked || packed && !full.all fun x => decide (c x.1 = 1)) = planar at h
  rcases mem_append.mp h with h | h
  · split at h
    case isTrue => cases h
    case isFalse hne =>
      rw [List.isEmpty_iff] at hne
      have hcover := planarCovered_eq hne hok.covers
      generalize hdone : (if planar then planarCovered d full
        else m.covered d.len (full.map fun x => c x.1)) = done at h
      rcases mem_append.mp h with h | h
      · obtain ⟨s, hs, k, hk, hat⟩ := mem_xorMulMulti h
        obtain ⟨x, hx, rfl⟩ := mem_map.mp hs
        have hle : done ≤ d.len := by
          rw [← hdone]
          split
          · omega
          · exact m.covered_le _ _
        have hlen := hok.covers x hx
        have hword : kernelWord prepacked planar x.2 k = sourceWord prepacked x.2 k := by
          cases prepacked with
          | true => rfl
          | false =>
            cases planar with
            | false => rfl
            | true =>
              have hp : packed = true := (Bool.and_eq_true_iff.mp hplanar).1
              exact planarWord_preparePlanar (hok.chunks hp x hx) (by omega)
        refine ⟨x, mem_append_left short hx, k, hk.trans_le hle, ?_⟩
        rw [← hword]
        exact hat
      · split at h
        case isTrue hlt =>
          obtain ⟨x, hx, hv⟩ := mem_flatMap.mp h
          obtain ⟨k, hk, hat⟩ := mem_xorMulInto hv
          have hlen := hok.covers x hx
          rw [length_drop] at hk
          have hpre : prepacked = false := Bool.eq_false_of_not_eq_true fun hp => by
            -- packed tiles are whole chunks, so the planar kernel leaves nothing
            have h32 := (hok.whole hp).1
            rw [← hplanar, hp, Bool.true_or, if_pos rfl] at hdone
            omega
          refine ⟨x, mem_append_left short hx, done + k, by omega, hat.row, ?_, hat.src, hat.c, ?_,
            hat.skipped⟩
          · rw [hat.word, Slice.sub, add_assoc]
          · rw [hat.value, srcWord_drop, hpre]
            rfl
        case isFalse => cases h
  · obtain ⟨x, hx, hv⟩ := mem_flatMap.mp h
    obtain ⟨k, hk, hat⟩ := mem_xorMulInto hv
    have hlen := hok.inside x hx
    have hpre : prepacked = false := Bool.eq_false_of_not_eq_true fun hp => by
      rw [(hok.whole hp).2] at hx
      cases hx
    rw [hpre]
    exact ⟨x, mem_append_right full hx, k, by omega, hat⟩

/-! ## Coefficients -/

def CoeffTable.For (p : CoeffTable) (coeff : Nat → Nat → Gf16) (rows srcs : Nat) : Prop :=
  ∀ j < rows, ∀ i < srcs, p.table.getD (j * p.stride + i) 0 = coeff j i

theorem getD_take_drop {α : Type} (l : List α) (d : α) {a n x : Nat} (h : x < n) :
    ((l.drop a).take n).getD x d = l.getD (a + x) d := by
  rw [getD_eq_getElem?_getD, getD_eq_getElem?_getD, getElem?_take_of_lt h, getElem?_drop]

theorem getD_groupCoeffs (coeff : Nat → Nat → Gf16) (rowBase : Nat) {rows j i : Nat} {g : Nat × Nat}
    (hj : j < rows) (hi : g.1 ≤ i ∧ i < g.2) :
    (groupCoeffs coeff rowBase rows g).getD (j * (g.2 - g.1) + (i - g.1)) 0 = coeff (rowBase + j) i := by
  unfold groupCoeffs between
  rw [getD_rows (fun j i => coeff (rowBase + j) i) 0 hj (by omega)]
  have hadd : g.1 + (i - g.1) = i := by omega
  rw [hadd]

/-! ## Visits of a unit -/

/-- A visit of row `j`, source `i` and word `k` of a unit. -/
def InUnit (dsts : List Slice) (srcs : List (List UInt8)) (coeff : Nat → Nat → Gf16) (rowBase words : Nat)
    (prepacked : Bool) (v : Visit) : Prop :=
  ∃ j d, dsts[j]? = some d ∧ ∃ i < srcs.length, ∃ k < words,
    v.At d i k (coeff (rowBase + j) i) (sourceWord prepacked (srcs.getD i []) k)

theorem Visit.At.of_sub {a e i k : Nat} {x y : Gf16} (h : v.At (d.sub a e) i k x y) :
    v.At d i (a + k) x y where
  row := h.row
  word := by rw [h.word, Slice.sub, add_assoc]
  src := h.src
  c := h.c
  value := h.value
  skipped := h.skipped

theorem mem_foldChunkTables {coeff : Nat → Nat → Gf16} {rowBase tableBudget : Nat}
    (h : v ∈ foldChunkTables m dsts srcs coeff rowBase tileWords tableBudget words) :
    InUnit dsts srcs coeff rowBase words false v := by
  obtain ⟨g, hg, h⟩ := mem_flatMap.mp h
  obtain ⟨t, ht, h⟩ := mem_flatMap.mp h
  obtain ⟨x, hx, h⟩ := mem_flatMap.mp h
  obtain ⟨d, hd, h⟩ := mem_flatMap.mp h
  obtain ⟨-, hgle, -⟩ := mem_spans (tableGroup_pos m tableBudget dsts.length srcs.length) hg
  obtain ⟨-, htle, -⟩ := mem_spans (tableTile_pos m tileWords dsts.length) ht
  obtain ⟨hin, hbytes⟩ := mem_windows hx
  have hrow := mem_zipIdx_iff_getElem?.mp hd
  obtain ⟨k, hk, hat⟩ := mem_xorMulInto h
  have hlen := length_window (srcs.getD x.1 []) t.1 t.2
  rw [hbytes] at hk hat
  have hword : t.1 + k < t.2 := by omega
  rw [getD_groupCoeffs coeff rowBase (List.getElem?_eq_some_iff.mp hrow).1 hin, srcWord_window hword] at hat
  exact ⟨d.2, d.1, hrow, x.1, by omega, t.1 + k, by omega, hat.of_sub⟩

/-- The tiles of a unit are as `mem_foldTile` needs them, packed sources being whole. -/
theorem tileOk_windows (srcs : List (List UInt8)) (g t : Nat × Nat) (d : Slice) {packed : Bool}
    (hpacked : packed = true → prepare m ((windows srcs g t).filter fun x => x.2.length == (t.2 - t.1) * 2) = true)
    (hpre : prepacked = true → 32 ∣ t.1 ∧ 32 ∣ t.2 ∧ ∀ i, g.1 ≤ i → i < g.2 → t.2 * 2 ≤ (srcs.getD i []).length) :
    TileOk prepacked packed (d.sub t.1 t.2)
      ((windows srcs g t).filter fun x => x.2.length == (t.2 - t.1) * 2)
      ((windows srcs g t).filter fun x => !(x.2.length == (t.2 - t.1) * 2)) where
  covers x hx := eq_of_beq (mem_filter.mp hx).2
  inside x hx := by
    have hlen := length_window (srcs.getD x.1 []) t.1 t.2
    rw [(mem_windows (mem_of_mem_filter hx)).2]
    show _ ≤ (t.2 - t.1) * 2
    omega
  chunks hp := dvd_of_prepare (hpacked hp)
  whole hp := by
    obtain ⟨hlow, hhigh, hwhole⟩ := hpre hp
    refine ⟨Nat.dvd_sub hhigh hlow, filter_eq_nil_iff.mpr fun x hx => ?_⟩
    obtain ⟨hin, hbytes⟩ := mem_windows hx
    have hlen := length_window (srcs.getD x.1 []) t.1 t.2
    have := hwhole x.1 hin.1 hin.2
    rw [hbytes, Bool.not_eq_true', beq_eq_false_iff_ne]
    omega

theorem sourceWord_window {src : List UInt8} {w0 w1 k : Nat}
    (hpre : prepacked = true → 32 ∣ w0 ∧ 32 ∣ w1) (h : w0 + k < w1) :
    sourceWord prepacked (window src w0 w1) k = sourceWord prepacked src (w0 + k) := by
  unfold sourceWord
  split
  case isTrue hp => exact planarWord_window (hpre hp).1 (hpre hp).2 h
  case isFalse => exact srcWord_window h

theorem mem_foldChunkMulti {coeff : Nat → Nat → Gf16} {rowBase rows : Nat}
    {prepared : Option CoeffTable} (hm : 0 < m.multiFoldWidth)
    (hpre : prepacked = true → 32 ≤ tileWords ∧ 32 ∣ words ∧ ∀ i < srcs.length, words * 2 ≤ (srcs.getD i []).length)
    (hrows : rowBase + dsts.length ≤ rows)
    (hprepared : ∀ p ∈ prepared, p.For coeff rows srcs.length)
    (h : v ∈ foldChunkMulti m dsts srcs coeff rowBase tileWords words prepacked prepared) :
    InUnit dsts srcs coeff rowBase words prepacked v := by
  obtain ⟨g, hg, h⟩ := mem_flatMap.mp h
  obtain ⟨t, ht, h⟩ := mem_flatMap.mp h
  obtain ⟨d, hd, h⟩ := mem_flatMap.mp h
  obtain ⟨-, hgle, -⟩ := mem_spans (multiGroup_pos hm prepacked) hg
  obtain ⟨-, htle, hlow, hhigh⟩ := mem_spans (multiTile_pos m dsts.length fun hp => (hpre hp).1) ht
  have hedges : prepacked = true → 32 ∣ t.1 ∧ 32 ∣ t.2 := fun hp => by
    have h32 := dvd_multiTile m tileWords dsts.length
    rw [hp] at hlow hhigh
    rcases hhigh with hhigh | hend
    · exact ⟨h32.trans hlow, h32.trans hhigh⟩
    · exact ⟨h32.trans hlow, hend ▸ (hpre hp).2.1⟩
  have hwhole : prepacked = true → 32 ∣ t.1 ∧ 32 ∣ t.2 ∧ ∀ i, g.1 ≤ i → i < g.2 →
      t.2 * 2 ≤ (srcs.getD i []).length := fun hp => ⟨(hedges hp).1, (hedges hp).2, fun i _ hi =>
    (Nat.mul_le_mul_right 2 htle).trans ((hpre hp).2.2 i (by omega))⟩
  have hrow := mem_zipIdx_iff_getElem?.mp hd
  have hj := (List.getElem?_eq_some_iff.mp hrow).1
  have hvisit := fun hok => mem_foldTile hok h
  obtain ⟨x, hx, k, hk, hat⟩ := hvisit
    (tileOk_windows srcs g t d.1 (fun hp => (Bool.and_eq_true_iff.mp hp).2) hwhole)
  have hmem : x ∈ windows srcs g t := by
    rcases mem_append.mp hx with hx | hx
    · exact mem_of_mem_filter hx
    · exact mem_of_mem_filter hx
  obtain ⟨hin, hbytes⟩ := mem_windows hmem
  have hword : t.1 + k < t.2 := Nat.add_lt_of_lt_sub' hk
  rw [hbytes, sourceWord_window hedges hword] at hat
  refine ⟨d.2, d.1, hrow, x.1, by omega, t.1 + k, by omega, ?_⟩
  have hlt : x.1 - g.1 < g.2 - g.1 := by omega
  have hadd : g.1 + (x.1 - g.1) = x.1 := by omega
  cases prepared with
  | none =>
    rw [getD_take_drop _ _ hlt, getD_groupCoeffs coeff rowBase hj hin] at hat
    exact hat.of_sub
  | some p =>
    rw [getD_take_drop _ _ hlt, add_assoc, hadd,
      hprepared p rfl _ (by omega) _ (by omega)] at hat
    exact hat.of_sub

/-! ## A unit -/

/-- A unit of equal slices visits each of its cells once. -/
theorem cells_foldChunk (coeff : Nat → Nat → Gf16) (rowBase : Nat) (tableBudget : Nat)
    (prepared : Option CoeffTable) (hlen : ∀ d ∈ dsts, d.len = words)
    (hpre : prepacked = true → 32 ≤ tileWords) :
    cells (foldChunkTiledPrepared m dsts srcs coeff rowBase tileWords tableBudget prepacked prepared) =
      unitCells dsts srcs words := by
  cases dsts with
  | nil => rfl
  | cons d dsts =>
    cases srcs with
    | nil => exact (bind_zero _).symm
    | cons s srcs =>
      unfold foldChunkTiledPrepared
      dsimp only
      rw [hlen d (.head _)]
      split
      case isTrue hm => exact cells_foldChunkMulti _ _ coeff rowBase words prepared hm hpre
      case isFalse => exact cells_foldChunkTables m _ _ coeff rowBase tileWords tableBudget words

theorem mem_foldChunk {dsts : List Slice} {srcs : List (List UInt8)}
    {coeff : Nat → Nat → Gf16} {rowBase rows tileWords tableBudget words : Nat} {prepacked : Bool}
    {prepared : Option CoeffTable} {v : Visit} (hlen : ∀ d ∈ dsts, d.len = words)
    (hpre : prepacked = true → 0 < m.multiFoldWidth ∧ 32 ≤ tileWords ∧ 32 ∣ words ∧
      ∀ i < srcs.length, words * 2 ≤ (srcs.getD i []).length)
    (hrows : rowBase + dsts.length ≤ rows) (hprepared : ∀ p ∈ prepared, p.For coeff rows srcs.length)
    (h : v ∈ foldChunkTiledPrepared m dsts srcs coeff rowBase tileWords tableBudget prepacked prepared) :
    InUnit dsts srcs coeff rowBase words prepacked v := by
  unfold foldChunkTiledPrepared at h
  split at h
  · cases h
  · cases h
  · rw [hlen _ (.head _)] at h
    split at h
    case isTrue hm => exact mem_foldChunkMulti hm (fun hp => (hpre hp).2) hrows hprepared h
    case isFalse hm =>
      have hp : prepacked = false := Bool.eq_false_of_not_eq_true fun hp => hm (hpre hp).1
      rw [hp]
      exact mem_foldChunkTables h

end NzbFast.Repair
