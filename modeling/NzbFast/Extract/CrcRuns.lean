import NzbFast.Rust.BTreeMap
import NzbFast.Wire.Crc
import NzbFast.Wire.Intervals
import NzbFast.Wire.Slice

/-!
# CRCs composed out of order

`CrcRuns` (`crates/nzbkit/src/extract/settle.rs`): the CRC-32 of each run of bytes
seen so far, runs joined by `crc32_combine` as the gaps between them fill. Every
run is the CRC of the bytes of a map at its place (`Right`), and stays so when the
map changes under an `overwrite`.
-/

namespace NzbFast.Extract

open NzbFast.Rust
open Wire (slice crc32 crc32Combine gaps Covers)

structure CrcRuns where
  /-- Start to length and CRC. -/
  runs : BTreeMap (Nat × Nat) := .empty
  stale : List (Nat × Nat) := []

namespace CrcRuns

/-- The second loop of `coalesce_at`: successors absorbed while they touch. A round takes a run
away. -/
def absorb : Nat → BTreeMap (Nat × Nat) → Nat → BTreeMap (Nat × Nat)
  | 0, runs, _ => runs
  | fuel + 1, runs, start =>
    match runs.get start, runs.firstGT start with
    | some (l, c), some (ns, nl, nc) =>
      if ns ≠ start + l then runs
      else absorb fuel ((runs.remove ns).insert start (l + nl, crc32Combine c nc nl)) start
    | _, _ => runs

def coalesceAt (runs : BTreeMap (Nat × Nat)) (s : Nat) : BTreeMap (Nat × Nat) :=
  match runs.get s with
  | none => runs
  | some (l, c) =>
    match (runs.lastLT s).filter fun x => decide (x.1 + x.2.1 = s) with
    | some (ps, pl, pc) =>
      let runs := (runs.remove s).insert ps (pl + l, crc32Combine pc c l)
      absorb runs.entries.length runs ps
    | none => absorb runs.entries.length runs s

/-- The runs below `stop`, as ranges. -/
def ranges (runs : BTreeMap (Nat × Nat)) (stop : Nat) : List (Nat × Nat) :=
  (runs.range 0 stop).map fun x => (x.1, x.1 + x.2.1)

/-- `add`: bytes clipped to what no run has. -/
def add (r : CrcRuns) (off : Nat) (data : List UInt8) : CrcRuns :=
  if data = [] then r
  else
    let fresh := gaps (ranges r.runs (off + data.length)) off (off + data.length)
    let runs := fresh.foldl (fun runs g =>
      runs.insert g.1 (g.2 - g.1, crc32 ((data.drop (g.1 - off)).take (g.2 - g.1)))) r.runs
    { r with runs := (fresh.map (·.1)).foldl coalesceAt runs }

/-- `overwrite`: the runs that the bytes overlap go, and what was theirs outside is stale. -/
def overwrite (r : CrcRuns) (off : Nat) (data : List UInt8) : CrcRuns :=
  if data = [] then r
  else
    let stop := off + data.length
    let hit := (r.runs.range 0 stop).filter fun x => decide (off < x.1 + x.2.1)
    let stale := hit.flatMap fun x =>
      (if x.1 < off then [(x.1, off)] else []) ++
        if stop < x.1 + x.2.1 then [(stop, x.1 + x.2.1)] else []
    let runs := hit.foldl (fun runs x => runs.remove x.1) r.runs
    ({ runs, stale := r.stale ++ stale } : CrcRuns).add off data

/-- `add_run`: refused where a run overlaps. -/
def addRun (r : CrcRuns) (off len crc : Nat) : CrcRuns × Bool :=
  if len = 0 then (r, false)
  else if (r.runs.range 0 (off + len)).any fun x => decide (off < x.1 + x.2.1) then (r, false)
  else ({ r with runs := coalesceAt (r.runs.insert off (len, crc)) off }, true)

def whole (r : CrcRuns) (len : Nat) : Option Nat :=
  match r.runs.entries with
  | [(0, l, c)] => if l = len then some c else none
  | _ => none

/-! ## Runs of a map -/

/-- Some run has `x`. -/
def Has (runs : BTreeMap (Nat × Nat)) (x : Nat) : Prop :=
  ∃ y ∈ runs, y.1 ≤ x ∧ x < y.1 + y.2.1

/-- The runs are not empty, keep off each other and are the CRCs of the map's bytes. -/
structure Right (val : Nat → UInt8) (runs : BTreeMap (Nat × Nat)) : Prop where
  crc : ∀ y ∈ runs, 0 < y.2.1 ∧ y.2.2 = crc32 (slice val y.1 y.2.1)
  disjoint : ∀ y ∈ runs, ∀ z ∈ runs, y.1 < z.1 → y.1 + y.2.1 ≤ z.1

def Apart (runs : BTreeMap (Nat × Nat)) : Prop :=
  ∀ y ∈ runs, ∀ z ∈ runs, y.1 < z.1 → y.1 + y.2.1 ≠ z.1

variable {val : Nat → UInt8} {runs : BTreeMap (Nat × Nat)}

theorem Right.join (h : Right val runs) {s l c t m d : Nat} (hs : (s, l, c) ∈ runs)
    (ht : (t, m, d) ∈ runs) (htouch : t = s + l) :
    Right val ((runs.remove t).insert s (l + m, crc32Combine c d m)) ∧
      ∀ x, Has ((runs.remove t).insert s (l + m, crc32Combine c d m)) x ↔ Has runs x := by
  have hl := h.crc _ hs
  have hm := h.crc _ ht
  have hmem : ∀ y, y ∈ (runs.remove t).insert s (l + m, crc32Combine c d m) ↔
      y = (s, l + m, crc32Combine c d m) ∨ (y ∈ runs ∧ y.1 ≠ t ∧ y.1 ≠ s) := fun y => by
    rw [BTreeMap.mem_insert, BTreeMap.mem_remove, and_assoc]
  have hcrc : crc32Combine c d m = crc32 (slice val s (l + m)) := by
    have hcombine := Wire.crc32Combine_eq (slice val s l) (slice val t m)
    rw [Wire.length_slice, ← hl.2, ← hm.2, Wire.slice_join htouch.symm] at hcombine
    exact hcombine
  refine ⟨⟨fun y hy => ?_, fun y hy z hz hlt => ?_⟩, fun x => ?_⟩
  · rcases (hmem y).mp hy with rfl | ⟨hy, -, -⟩
    · exact ⟨Nat.add_pos_left hl.1 m, hcrc⟩
    · exact h.crc y hy
  · rcases (hmem y).mp hy with rfl | ⟨hy, hyt, hys⟩
    · rcases (hmem z).mp hz with rfl | ⟨hz, hzt, hzs⟩
      · exact absurd hlt (lt_irrefl _)
      · have h1 := h.disjoint _ hs z hz hlt
        dsimp only at h1 hlt ⊢
        have h2 := h.disjoint _ ht z hz (by dsimp only; omega)
        dsimp only at h2
        omega
    · rcases (hmem z).mp hz with rfl | ⟨hz, hzt, hzs⟩
      · exact h.disjoint y hy (s, l, c) hs hlt
      · exact h.disjoint y hy z hz hlt
  · constructor
    · rintro ⟨y, hy, hlo, hhi⟩
      rcases (hmem y).mp hy with rfl | ⟨hy, -, -⟩
      · dsimp only at hlo hhi
        by_cases hx : x < t
        · exact ⟨_, hs, hlo, by dsimp only; omega⟩
        · exact ⟨_, ht, Nat.le_of_not_lt hx, by dsimp only; omega⟩
      · exact ⟨y, hy, hlo, hhi⟩
    · rintro ⟨y, hy, hlo, hhi⟩
      by_cases hys : y.1 = s
      · obtain rfl := BTreeMap.mem_unique hy hs hys
        exact ⟨_, (hmem _).mpr (.inl rfl), hlo, by dsimp only at hhi ⊢; omega⟩
      · by_cases hyt : y.1 = t
        · obtain rfl := BTreeMap.mem_unique hy ht hyt
          exact ⟨_, (hmem _).mpr (.inl rfl), by dsimp only at hlo ⊢; omega,
            by dsimp only at hhi ⊢; omega⟩
        · exact ⟨y, (hmem y).mpr (.inr ⟨hy, hyt, hys⟩), hlo, hhi⟩

theorem Right.absorb (start : Nat) : ∀ (fuel : Nat) {runs : BTreeMap (Nat × Nat)}, Right val runs →
    Right val (absorb fuel runs start) ∧ ∀ x, Has (absorb fuel runs start) x ↔ Has runs x
  | 0, _, h => ⟨h, fun _ => .rfl⟩
  | fuel + 1, runs, h => by
    unfold CrcRuns.absorb
    split
    case h_2 => exact ⟨h, fun _ => .rfl⟩
    case h_1 l c ns nl nc hget hnext =>
    split
    case isTrue => exact ⟨h, fun _ => .rfl⟩
    case isFalse htouch =>
      obtain ⟨hjoin, hhas⟩ := h.join (BTreeMap.get_eq_some.mp hget) (BTreeMap.firstGT_some hnext).1
        (not_not.mp htouch)
      obtain ⟨hright, hhas'⟩ := Right.absorb start fuel hjoin
      exact ⟨hright, fun x => (hhas' x).trans (hhas x)⟩

theorem Right.coalesceAt (h : Right val runs) (s : Nat) :
    Right val (coalesceAt runs s) ∧ ∀ x, Has (coalesceAt runs s) x ↔ Has runs x := by
  unfold CrcRuns.coalesceAt
  split
  case h_1 => exact ⟨h, fun _ => .rfl⟩
  case h_2 l c hget =>
  split
  case h_2 => exact Right.absorb s _ h
  case h_1 ps pl pc hprev =>
    obtain ⟨hlast, htouch⟩ := Option.filter_eq_some_iff.mp hprev
    obtain ⟨hjoin, hhas⟩ := h.join (BTreeMap.lastLT_some hlast).1 (BTreeMap.get_eq_some.mp hget)
      (of_decide_eq_true htouch).symm
    obtain ⟨hright, hhas'⟩ := Right.absorb ps _ hjoin
    exact ⟨hright, fun x => (hhas' x).trans (hhas x)⟩

/-- A run put where there was none. -/
theorem Right.insert (h : Right val runs) {s l c : Nat} (hl : 0 < l) (hc : c = crc32 (slice val s l))
    (hfree : ∀ x, s ≤ x → x < s + l → ¬ Has runs x) :
    Right val (runs.insert s (l, c)) ∧
      ∀ x, Has (runs.insert s (l, c)) x ↔ Has runs x ∨ (s ≤ x ∧ x < s + l) := by
  have hout : ∀ y ∈ runs, y.1 + y.2.1 ≤ s ∨ s + l ≤ y.1 := fun y hy => by
    have hpos := (h.crc y hy).1
    by_contra hin
    refine hfree (max s y.1) (by omega) (by omega) ⟨y, hy, by omega, by omega⟩
  have hne : ∀ y ∈ runs, y.1 ≠ s := fun y hy heq => by
    have hpos := (h.crc y hy).1
    have := hout y hy
    omega
  refine ⟨⟨fun y hy => ?_, fun y hy z hz hlt => ?_⟩, fun x => ?_⟩
  · rcases BTreeMap.mem_insert.mp hy with rfl | ⟨hy, -⟩
    · exact ⟨hl, hc⟩
    · exact h.crc y hy
  · rcases BTreeMap.mem_insert.mp hy with rfl | ⟨hy, -⟩
    · rcases BTreeMap.mem_insert.mp hz with rfl | ⟨hz, -⟩
      · exact absurd hlt (lt_irrefl _)
      · have := hout z hz
        dsimp only at hlt ⊢
        omega
    · rcases BTreeMap.mem_insert.mp hz with rfl | ⟨hz, -⟩
      · have := hout y hy
        omega
      · exact h.disjoint y hy z hz hlt
  · constructor
    · rintro ⟨y, hy, hlo, hhi⟩
      rcases BTreeMap.mem_insert.mp hy with rfl | ⟨hy, -⟩
      · exact .inr ⟨hlo, hhi⟩
      · exact .inl ⟨y, hy, hlo, hhi⟩
    · rintro (⟨y, hy, hlo, hhi⟩ | ⟨hlo, hhi⟩)
      · exact ⟨y, BTreeMap.mem_insert.mpr (.inr ⟨hy, hne y hy⟩), hlo, hhi⟩
      · exact ⟨_, BTreeMap.mem_insert.mpr (.inl rfl), hlo, hhi⟩

/-! ## Runs that keep apart -/

theorem absorb_of_apart (h : Apart runs) (fuel start : Nat) : absorb fuel runs start = runs := by
  cases fuel with
  | zero => rfl
  | succ fuel =>
    unfold absorb
    split
    case h_2 => rfl
    case h_1 l c ns nl nc hget hnext =>
      obtain ⟨hmem, hlt, -⟩ := BTreeMap.firstGT_some hnext
      rw [if_pos fun heq => h _ (BTreeMap.get_eq_some.mp hget) _ hmem hlt heq.symm]

/-- Where only the run at `start` may touch its successor, one round of absorbing is enough. -/
theorem apart_absorb (h : Right val runs) {start : Nat}
    (honly : ∀ y ∈ runs, ∀ z ∈ runs, y.1 < z.1 → y.1 + y.2.1 = z.1 → y.1 = start) {fuel : Nat}
    (hfuel : 0 < fuel) : Apart (absorb fuel runs start) := by
  obtain ⟨fuel, rfl⟩ := Nat.exists_eq_add_one_of_ne_zero (ne_of_gt hfuel)
  unfold absorb
  split
  case h_2 hnone =>
    intro y hy z hz hlt htouch
    obtain ⟨ys, yl, yc⟩ := y
    obtain rfl : ys = start := honly _ hy z hz hlt htouch
    cases hnext : runs.firstGT ys with
    | none =>
      have := BTreeMap.firstGT_none hnext hz
      omega
    | some x => exact hnone yl yc x.1 x.2.1 x.2.2 (BTreeMap.get_eq_some.mpr hy) hnext
  case h_1 l c ns nl nc hget hnext =>
  have hstart := BTreeMap.get_eq_some.mp hget
  obtain ⟨hmem, hlt, hmin⟩ := BTreeMap.firstGT_some hnext
  split
  case isTrue hgap =>
    intro y hy z hz hyz htouch
    have hys := honly y hy z hz hyz htouch
    obtain rfl := BTreeMap.mem_unique hy hstart hys
    have hns := hmin z hz hyz
    have hle := h.disjoint _ hstart _ hmem hlt
    dsimp only at htouch hle
    omega
  case isFalse htouch =>
    have hapart : Apart ((runs.remove ns).insert start (l + nl, crc32Combine c nc nl)) := by
      intro y hy z hz hyz heq
      rcases BTreeMap.mem_insert.mp hz with rfl | ⟨hz, hzs⟩
      · -- nothing touches the run at `start` from below
        rcases BTreeMap.mem_insert.mp hy with rfl | ⟨hy, hys⟩
        · exact absurd hyz (lt_irrefl _)
        · exact hys (honly y (BTreeMap.mem_remove.mp hy).1 _ hstart hyz heq)
      · obtain ⟨hz, hzn⟩ := BTreeMap.mem_remove.mp hz
        rcases BTreeMap.mem_insert.mp hy with rfl | ⟨hy, hys⟩
        · have hnz : ns < z.1 := by
            have := hmin z hz hyz
            omega
          have := honly _ hmem z hz hnz (by dsimp only at heq ⊢; omega)
          omega
        · exact hys (honly y (BTreeMap.mem_remove.mp hy).1 z hz hyz heq)
    rw [absorb_of_apart hapart]
    exact hapart

/-- A run added in a gap leaves runs that keep apart. -/
theorem Apart.coalesceAt (h : Apart runs) {s l c : Nat} (hright : Right val (runs.insert s (l, c))) :
    Apart (coalesceAt (runs.insert s (l, c)) s) := by
  have hmem : (s, l, c) ∈ runs.insert s (l, c) := BTreeMap.mem_insert.mpr (.inl rfl)
  have hget := BTreeMap.get_eq_some.mpr hmem
  -- whatever touches involves the new run
  have honly : ∀ y ∈ runs.insert s (l, c), ∀ z ∈ runs.insert s (l, c), y.1 < z.1 →
      y.1 + y.2.1 = z.1 → y.1 = s ∨ z.1 = s := fun y hy z hz hlt htouch => by
    rcases BTreeMap.mem_insert.mp hy with rfl | ⟨hy, -⟩
    · exact .inl rfl
    · rcases BTreeMap.mem_insert.mp hz with rfl | ⟨hz, -⟩
      · exact .inr rfl
      · exact absurd htouch (h y hy z hz hlt)
  unfold CrcRuns.coalesceAt
  rw [hget]
  dsimp only
  split
  case h_1 ps pl pc hprev =>
    obtain ⟨hlast, htouch⟩ := Option.filter_eq_some_iff.mp hprev
    obtain ⟨hpmem, hplt, -⟩ := BTreeMap.lastLT_some hlast
    have htouch : ps + pl = s := of_decide_eq_true htouch
    obtain ⟨hjoin, -⟩ := hright.join hpmem hmem htouch.symm
    refine apart_absorb hjoin (fun y hy z hz hyz heq => ?_) (List.length_pos_of_mem
      (BTreeMap.mem_insert.mpr (.inl rfl) : (ps, _) ∈ (BTreeMap.remove _ _).insert ps _))
    rcases BTreeMap.mem_insert.mp hy with rfl | ⟨hy, hyp⟩
    · rfl
    · obtain ⟨hy, hys⟩ := BTreeMap.mem_remove.mp hy
      rcases BTreeMap.mem_insert.mp hz with rfl | ⟨hz, hzp⟩
      · exact ((honly y hy _ hpmem hyz heq).resolve_left hys ▸ hplt).false.elim
      · obtain ⟨hz, hzs⟩ := BTreeMap.mem_remove.mp hz
        exact absurd (honly y hy z hz hyz heq) (not_or.mpr ⟨hys, hzs⟩)
  case h_2 hprev =>
    refine apart_absorb hright (fun y hy z hz hyz heq => ?_) (List.length_pos_of_mem hmem)
    refine (honly y hy z hz hyz heq).resolve_right fun hzs => ?_
    -- the run below the new one would touch it
    have hys : y.1 < s := hzs ▸ hyz
    cases hlast : (runs.insert s (l, c)).lastLT s with
    | none =>
      have := BTreeMap.lastLT_none hlast hy
      omega
    | some x =>
      obtain ⟨hx, hxlt, hmax⟩ := BTreeMap.lastLT_some hlast
      rw [hlast, Option.filter_eq_none_iff] at hprev
      have hno := hprev x rfl
      rw [decide_eq_true_eq] at hno
      rcases lt_or_eq_of_le (hmax y hy hys) with hlt | heq'
      · have := hright.disjoint y hy x hx hlt
        omega
      · obtain rfl := BTreeMap.mem_unique hy hx heq'
        exact hno (heq.trans hzs)

/-- `add_run` in a gap: taken, and the runs have the gap too. -/
theorem addRun_spec {r : CrcRuns} (h : Right val r.runs) {off len crc : Nat} (hlen : 0 < len)
    (hcrc : crc = crc32 (slice val off len)) (hfree : ∀ x, off ≤ x → x < off + len → ¬ Has r.runs x) :
    (r.addRun off len crc).2 = true ∧ Right val (r.addRun off len crc).1.runs ∧
      (∀ x, Has (r.addRun off len crc).1.runs x ↔ Has r.runs x ∨ (off ≤ x ∧ x < off + len)) ∧
      (Apart r.runs → Apart (r.addRun off len crc).1.runs) := by
  have hno : ((r.runs.range 0 (off + len)).any fun x => decide (off < x.1 + x.2.1)) = false := by
    rw [List.any_eq_false]
    intro y hy hlt
    obtain ⟨hy, -, hhi⟩ := BTreeMap.mem_range.mp hy
    rw [decide_eq_true_eq] at hlt
    have hpos := (h.crc y hy).1
    exact hfree (max off y.1) (by omega) (by omega) ⟨y, hy, by omega, by omega⟩
  unfold addRun
  rw [if_neg (ne_of_gt hlen), hno, if_neg Bool.false_ne_true]
  obtain ⟨hins, hhas⟩ := h.insert hlen hcrc hfree
  obtain ⟨hright, hhas'⟩ := hins.coalesceAt off
  exact ⟨rfl, hright, fun x => (hhas' x).trans (hhas x), fun hapart => hapart.coalesceAt hins⟩

/-- One run that has all of `[0, len)` and nothing else. -/
theorem whole_eq {r : CrcRuns} (h : Right val r.runs) (hapart : Apart r.runs) {len : Nat}
    (hlen : 0 < len) (hhas : ∀ x, Has r.runs x ↔ x < len) :
    r.whole len = some (crc32 (slice val 0 len)) := by
  obtain ⟨y, hy, hlo, hhi⟩ := (hhas 0).mpr hlen
  obtain ⟨ys, yl, yc⟩ := y
  obtain rfl : ys = 0 := Nat.le_zero.mp hlo
  have hcrc := h.crc _ hy
  -- the run ends where the map does: past it there would be a run that touches it
  have hyl : yl = len := by
    refine le_antisymm (Nat.le_of_not_lt fun hlt => ?_) (Nat.le_of_not_lt fun hlt => ?_)
    · exact absurd ((hhas len).mp ⟨_, hy, Nat.zero_le _, by dsimp only; omega⟩) (Nat.lt_irrefl _)
    · obtain ⟨z, hz, hzlo, hzhi⟩ := (hhas yl).mpr hlt
      have hz0 : 0 < z.1 := by
        refine pos_of_ne_zero fun hz0 => ?_
        obtain rfl := BTreeMap.mem_unique hz hy hz0
        dsimp only at hzhi
        omega
      have hle := h.disjoint _ hy z hz hz0
      have hne := hapart _ hy z hz hz0
      dsimp only at hle hne
      omega
  subst hyl
  have hone : r.runs.entries = [(0, yl, yc)] := by
    have hall : ∀ z ∈ r.runs, z = (0, yl, yc) := fun z hz => by
      have hzpos := (h.crc z hz).1
      rcases eq_zero_or_pos z.1 with hz0 | hz0
      · exact BTreeMap.mem_unique hz hy hz0
      · have hle := h.disjoint _ hy z hz hz0
        have := (hhas z.1).mp ⟨z, hz, le_rfl, by omega⟩
        dsimp only at hle
        omega
    have hnodup : r.runs.entries.Nodup :=
      r.runs.sorted.imp fun hlt heq => absurd (heq ▸ hlt) (lt_irrefl _)
    exact List.perm_singleton.mp ((List.perm_ext_iff_of_nodup hnodup (List.nodup_singleton _)).mpr
      fun z => ⟨fun hz => List.mem_singleton.mpr (hall z hz), fun hz => List.mem_singleton.mp hz ▸ hy⟩)
  unfold whole
  rw [hone, ← hcrc.2]
  exact if_pos rfl

end CrcRuns

end NzbFast.Extract
