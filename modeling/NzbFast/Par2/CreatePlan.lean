import NzbFast.Par2.VolumeFiles

/-!
# What a create would write

`plan_files_with_comment` (`crates/nzbkit-base/src/par2gen.rs`) prices a create without reading a
source byte: the critical block over placeholder digests, and the writer's own layout and
schedule. The volumes a create writes have the planned lengths, whichever block they carry.
-/

namespace NzbFast.Par2

open NzbFast.Rust List

inductive CriticalLayout where
  | Head
  | Interleaved

/-- `CreatePlan`, without the refusal to overwrite. -/
structure CreatePlan where
  volumes : VolumePlan
  critical : CriticalLayout
  firstExponent : Nat
  maxBlocksPerVolume : Option Nat

structure PlannedFile where
  name : Text
  firstExponent : Nat
  blocks : Nat
  bytes : Nat

def zeroDigest : List.Vector UInt8 16 := List.Vector.replicate 16 0

def placeholder (blockSize : UInt64) (m : String × UInt64) : Scanned where
  namePadded := pad4 (asBytes m.1)
  fileId := zeroDigest
  md5Whole := zeroDigest
  md516k := zeroDigest
  length := m.2
  blocks := List.replicate ((m.2.toNat + blockSize.toNat - 1) / blockSize.toNat) (zeroDigest, 0)

/-- `max(1)`. -/
def atLeastOne (n : Nat) : ℕ+ :=
  ⟨max n 1, Nat.lt_of_lt_of_le Nat.zero_lt_one (Nat.le_max_right n 1)⟩

def CreatePlan.perVolume (plan : CreatePlan) (perBatch : Nat) : ℕ+ :=
  match plan.maxBlocksPerVolume with
  | none => atLeastOne perBatch
  | some l => min (atLeastOne perBatch) (atLeastOne l)

def usableComment (comment : Option String) : Option String :=
  comment.filter fun c => !c.isEmpty && (checkComment c).isOk

/-- The layout's index of a block; none where the block stands once at the front. -/
def CriticalLayout.index (layout : CriticalLayout) (cidx : CriticalIndex) : Option CriticalIndex :=
  match layout with
  | .Head => none
  | .Interleaved => some cidx

def planVolume (plan : CreatePlan) (base : Text) (blockSize : Nat) (critical : List UInt8)
    (cidx : CriticalIndex) (v : Nat × Nat) : PlannedFile :=
  let creatorBytes := cidx.creator.2
  let cycleBytes := critical.length - creatorBytes
  let recoveryBytes := v.2 * (68 + blockSize)
  let criticalBytes :=
    match plan.critical with
    | .Head => critical.length
    | .Interleaved => v.2.size * cycleBytes + creatorBytes
  { name := volumeName base v
    firstExponent := v.1
    blocks := v.2
    -- the sum is a `u64`
    bytes := (recoveryBytes + criticalBytes) % 2 ^ 64 }

/-- `plan_files_with_comment`, under the accumulator budget of the moment. -/
def planFilesWithComment (md5 : List UInt8 → List.Vector UInt8 16) (version : String)
    (accumBudget : Nat) (members : List (String × UInt64)) (base : Text) (blockSize : UInt64)
    (n : Nat) (plan : CreatePlan) (comment : Option String) : Option (List PlannedFile) := do
  let comment := usableComment comment
  let blockSize := max blockSize 4
  let placeholders := members.map (placeholder blockSize)
  let (_, critical) ← criticalPackets md5 version placeholders blockSize comment
  let index : PlannedFile := ⟨base ++ ".par2".toList, 0, 0, critical.length⟩
  if n = 0 then return [index]
  let cidx ← criticalIndex critical
  let perVol := plan.perVolume (accumBudget / blockSize.toNat)
  return index :: (volumeLayout n perVol plan.volumes plan.firstExponent).map
    (planVolume plan base blockSize.toNat critical cidx)

variable {md5 : List UInt8 → List.Vector UInt8 16}

theorem Tiles.eq_nil {cap a : Nat} {out : List (Nat × Nat)} (h : Tiles cap a a out) : out = [] := by
  cases out with
  | nil => rfl
  | cons v vs =>
    obtain ⟨-, hpos, -, hrest⟩ := h
    have := hrest.le
    omega

theorem writeVolume_planned {plan : CreatePlan} {b : BatchVolumes} {critical : List UInt8}
    {cidx : CriticalIndex} (h : Indexed critical cidx) (hfit : critical.length < 2 ^ 63)
    (hcritical : b.readyCritical.getD b.criticalShape = critical)
    (hcidx : b.cidx = plan.critical.index cidx) {blockSize : Nat} {v : Nat × Nat}
    (hcount : v.2 < 2 ^ 64) (hserves : Serves b blockSize v) (base : Text)
    {planned : List UInt8} {pidx : CriticalIndex} (hlen : planned.length = critical.length)
    (hcreator : pidx.creator.2 = cidx.creator.2) :
    ∃ w, writeVolume md5 b v = some w ∧
      w.1.length % 2 ^ 64 = (planVolume plan base blockSize planned pidx v).bytes := by
  unfold writeVolume planVolume
  rw [hcritical, hcidx, hlen, hcreator]
  dsimp only
  cases plan.critical with
  | Head =>
    obtain ⟨out, hout, houtlen⟩ := length_writeHead md5 hserves critical
    exact ⟨_, by simp only [CriticalLayout.index, hout, Option.map_some]; rfl, by rw [← houtlen]⟩
  | Interleaved =>
    obtain ⟨out, hout, houtlen⟩ := length_writeInterleaved md5 h hfit hcount hserves
    exact ⟨_, by simp only [CriticalLayout.index, hout, Option.map_some]; rfl, by rw [← houtlen]⟩

/-- The plan of a create, and the volumes a create over the same members writes. -/
theorem planned_volumes (version : String) (accumBudget : Nat) {members : List (String × UInt64)}
    (base : Text) {blockSize : UInt64} {n : Nat} {plan : CreatePlan} {comment : Option String}
    (hend : plan.firstExponent + n < 2 ^ 64) {scanned : List Scanned}
    (hshape : ((members.map (placeholder (max blockSize 4))).map Scanned.shape).Perm
      (scanned.map Scanned.shape)) {setId : List.Vector UInt8 16} {critical : List UInt8}
    (hcritical : criticalPackets md5 version scanned (max blockSize 4) (usableComment comment) =
      some (setId, critical)) (hfit : critical.length < 2 ^ 63) :
    ∃ index vols cidx,
      planFilesWithComment md5 version accumBudget members base blockSize n plan comment =
        some (index :: vols) ∧
      index.bytes = critical.length ∧ criticalIndex critical = some cidx ∧
      (vols.map fun p => (p.firstExponent, p.blocks)) = volumeLayout n
        (plan.perVolume (accumBudget / (max blockSize 4).toNat)) plan.volumes plan.firstExponent ∧
      ∀ b : BatchVolumes, b.readyCritical.getD b.criticalShape = critical →
        b.cidx = plan.critical.index cidx →
        ∀ p ∈ vols, Serves b (max blockSize 4).toNat (p.firstExponent, p.blocks) →
          p.name = volumeName base (p.firstExponent, p.blocks) ∧
          ∃ w, writeVolume md5 b (p.firstExponent, p.blocks) = some w ∧
            (w.1.length < 2 ^ 64 → w.1.length = p.bytes) := by
  obtain ⟨planned, hplanned⟩ : ∃ planned, criticalPackets md5 version
      (members.map (placeholder (max blockSize 4))) (max blockSize 4) (usableComment comment) =
        some planned := ⟨_, criticalPackets_eq ..⟩
  have hplen : planned.2.length = critical.length := by
    rw [length_criticalPackets hplanned, length_criticalPackets hcritical,
      spanBytes_cyclePackets, spanBytes_cyclePackets, (hshape.map _).sum_eq]
  obtain ⟨cidx, hindexed, hcreator⟩ := criticalPackets_indexed hcritical (by omega)
  obtain ⟨pidx, hpindexed, hpcreator⟩ := criticalPackets_indexed hplanned (by omega)
  have htiles := volumeLayout_tiles n
    (plan.perVolume (accumBudget / (max blockSize 4).toNat)) plan.volumes hend.le
  refine ⟨⟨base ++ ".par2".toList, 0, 0, planned.2.length⟩, (volumeLayout n
    (plan.perVolume (accumBudget / (max blockSize 4).toNat)) plan.volumes plan.firstExponent).map
      (planVolume plan base (max blockSize 4).toNat planned.2 pidx), cidx, ?_, hplen,
    hindexed.index, ?_, ?_⟩
  · unfold planFilesWithComment
    simp only [hplanned, hpindexed.index, Option.bind_eq_bind, Option.bind_some]
    split
    · rename_i hzero
      rw [hzero, add_zero] at htiles
      rw [hzero, htiles.eq_nil]
      rfl
    · rfl
  · rw [map_map]
    exact map_id' _
  · intro b hb hbidx p hp hserves
    obtain ⟨v, hv, rfl⟩ := mem_map.mp hp
    have hin := htiles.nodup.2 v hv
    have hcount : v.2 < 2 ^ 64 := by omega
    obtain ⟨w, hw, hwlen⟩ := writeVolume_planned hindexed hfit hb hbidx hcount hserves base
      hplen (hpcreator.trans hcreator.symm)
    exact ⟨rfl, w, hw, fun hfile => by rw [← hwlen, Nat.mod_eq_of_lt hfile]⟩

/-- Volumes tile the recovery exponents under the cap; a schedule hands out whole copies of the
cycle; a batch over a placeholder, patched, leaves what the batch over the real block leaves; and
the volumes of a create have the planned names and lengths. -/
theorem recovery_volumes (md5 : List UInt8 → List.Vector UInt8 16) :
    (∀ (n : Nat) (cap : ℕ+) (plan : VolumePlan) (f : Nat), f + n < 2 ^ 64 →
      Tiles cap f (f + n) (volumeLayout n cap plan f)) ∧
    (∀ count c : Nat, count < 2 ^ 64 → 64 * c < 2 ^ 63 →
      (interleaveSchedule count c).length = count ∧
        (interleaveSchedule count c).sum = count.size * c) ∧
    (∀ (b : BatchVolumes) (real : List UInt8), b.readyCritical = none →
      (∀ cidx ∈ b.cidx, criticalIndex b.criticalShape = some cidx) →
      SameBoundaries b.criticalShape real → (b.layout.map Prod.fst).Nodup →
      ∀ (dir : Dir) (s : Dir × List (Text × CriticalPatch)), writeBatch md5 b dir = some s →
        ∃ t, writeBatch md5 (b.withReal real) dir = some t ∧
          backfillCritical s.1 s.2 real b.cidx = some t.1) ∧
    ∀ (version : String) (accumBudget : Nat) (members : List (String × UInt64)) (base : Text)
      (blockSize : UInt64) (n : Nat) (plan : CreatePlan) (comment : Option String)
      (scanned : List Scanned) (setId : List.Vector UInt8 16) (critical : List UInt8),
      plan.firstExponent + n < 2 ^ 64 →
      ((members.map (placeholder (max blockSize 4))).map Scanned.shape).Perm
        (scanned.map Scanned.shape) →
      criticalPackets md5 version scanned (max blockSize 4) (usableComment comment) =
        some (setId, critical) → critical.length < 2 ^ 63 →
      ∃ index vols cidx,
        planFilesWithComment md5 version accumBudget members base blockSize n plan comment =
          some (index :: vols) ∧
        index.bytes = critical.length ∧ criticalIndex critical = some cidx ∧
        (vols.map fun p => (p.firstExponent, p.blocks)) = volumeLayout n
          (plan.perVolume (accumBudget / (max blockSize 4).toNat)) plan.volumes
            plan.firstExponent ∧
        ∀ b : BatchVolumes, b.readyCritical.getD b.criticalShape = critical →
          b.cidx = plan.critical.index cidx →
          ∀ p ∈ vols, Serves b (max blockSize 4).toNat (p.firstExponent, p.blocks) →
            p.name = volumeName base (p.firstExponent, p.blocks) ∧
            ∃ w, writeVolume md5 b (p.firstExponent, p.blocks) = some w ∧
              (w.1.length < 2 ^ 64 → w.1.length = p.bytes) := by
  refine ⟨fun n cap plan f hend => volumeLayout_tiles n cap plan hend.le, ?_, ?_, ?_⟩
  · intro count c hcount hcycle
    have hbits : count.size ≤ 64 := Nat.size_le.mpr hcount
    have hmul : count.size * c ≤ 64 * c := Nat.mul_le_mul_right c hbits
    exact ⟨length_interleaveSchedule count c, sum_interleaveSchedule (by omega)⟩
  · intro b real hready hcidx h hnodup dir s hs
    exact writeBatch_patched hready hcidx h hnodup hs
  · intro version accumBudget members base blockSize n plan comment scanned setId critical hend
      hshape hcritical hfit
    exact planned_volumes version accumBudget base hend hshape hcritical hfit

def smallBlock (body : List UInt8) : List UInt8 :=
  packetsBytes (fun _ => zeroDigest) zeroDigest.toList
    ([(TYPE_MAIN, body)] ++ [(TYPE_CREATOR, [78, 90, 66, 0])])

def smallBatch : BatchVolumes where
  base := ['a']
  layout := [(0, 1)]
  setId := zeroDigest
  first := 0
  slices := [[1, 2, 3, 4]]
  sealing := true
  readyCritical := none
  criticalShape := smallBlock [0, 0, 0, 0]
  cidx := some ⟨[(0, 68)], (68, 68)⟩

theorem smallBlock_indexed {body : List UInt8} (h : body.length = 4) :
    (smallBlock body).length = 136 ∧ Indexed (smallBlock body) ⟨[(0, 68)], (68, 68)⟩ := by
  have htyped : ∀ p ∈ [(TYPE_MAIN, body)], p.1.length = 16 ∧ p.1 ≠ TYPE_CREATOR := by
    intro p hp
    rw [mem_singleton.mp hp]
    exact ⟨rfl, show TYPE_MAIN ≠ TYPE_CREATOR by decide⟩
  have hlen : (smallBlock body).length = 136 := by
    rw [smallBlock, length_packetsBytes (List.Vector.toList_length _)]
    · simp [spanBytes, h]
    · intro p hp
      rcases mem_append.mp hp with hp | hp
      · exact (htyped p hp).1
      · rw [mem_singleton.mp hp]
        rfl
  have hindexed := packets_indexed (List.Vector.toList_length zeroDigest) (cons_ne_nil _ _)
    (fun p hp => (htyped p hp).1) (fun p hp => (htyped p hp).2) (show smallBlock body = _ from rfl)
    (by rw [hlen]; decide)
  refine ⟨hlen, ?_⟩
  simpa [spans, spanBytes, h] using hindexed

set_option maxRecDepth 20000 in
theorem recovery_volumes_small :
    Tiles 2 3 8 (volumeLayout 5 2 .Variable 3) ∧ (interleaveSchedule 8 3).sum = 12 ∧
    ∃ s t, writeBatch (fun _ => zeroDigest) smallBatch (fun _ => none) = some s ∧
      writeBatch (fun _ => zeroDigest) (smallBatch.withReal (smallBlock [5, 6, 7, 8]))
        (fun _ => none) = some t ∧
      backfillCritical s.1 s.2 (smallBlock [5, 6, 7, 8]) smallBatch.cidx = some t.1 := by
  obtain ⟨htiles, hschedule, hpatch, -⟩ := recovery_volumes fun _ => zeroDigest
  obtain ⟨hlen, hshape⟩ := smallBlock_indexed (show [0, 0, 0, 0].length = 4 from rfl)
  obtain ⟨hlen', hreal⟩ := smallBlock_indexed (show [5, 6, 7, 8].length = 4 from rfl)
  have hserves : Serves smallBatch 4 (0, 1) := ⟨le_rfl, le_rfl, by decide⟩
  obtain ⟨w, hw, -⟩ := length_writeInterleaved (fun _ => zeroDigest) hshape
    (by rw [hlen]; decide) (show (1 : Nat) < 2 ^ 64 by decide) hserves
  have hsame : SameBoundaries smallBatch.criticalShape (smallBlock [5, 6, 7, 8]) := by
    refine ⟨hlen'.trans hlen.symm, hreal.index.trans hshape.index.symm, fun cidx hcidx => ?_⟩
    obtain rfl := Option.some.inj (hcidx.symm.trans hshape.index)
    decide
  have hbatch : writeBatch (fun _ => zeroDigest) smallBatch (fun _ => none) =
      some (Function.update (fun _ => none) (volumeName ['a'] (0, 1)) (some w.1),
        [(volumeName ['a'] (0, 1), .Interleaved w.2)]) := by
    have hvolume : writeVolume (fun _ => zeroDigest) smallBatch (0, 1) =
        some (w.1, .Interleaved w.2) := by
      have hw : writeInterleaved (fun _ => zeroDigest) smallBatch
        (smallBatch.readyCritical.getD smallBatch.criticalShape) ⟨[(0, 68)], (68, 68)⟩ (0, 1) =
          some w := hw
      simp only [writeVolume, smallBatch] at hw ⊢
      rw [hw]
      rfl
    simp only [writeBatch, writeNamed, smallBatch, foldlM_cons, foldlM_nil] at hvolume ⊢
    rw [hvolume]
    rfl
  obtain ⟨t, ht, hback⟩ := hpatch smallBatch (smallBlock [5, 6, 7, 8]) rfl
    (fun cidx hcidx => by
      obtain rfl := Option.some.inj hcidx
      exact hshape.index) hsame (by decide) _ _ hbatch
  exact ⟨htiles 5 2 .Variable 3 (by decide), (hschedule 8 3 (by decide) (by decide)).2, _, t, hbatch,
    ht, hback⟩

end NzbFast.Par2
