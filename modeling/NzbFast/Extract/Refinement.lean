import NzbFast.Extract.Interleaving

/-!
# The frontier buffer is a byte map

What a buffer reports of itself (`frontier`, `plan_peek`, `intervals`, and the
drain by `pop_span`) against the map of the bytes last delivered. The counts, the
frontier and the reads are right in every state that a run reaches; the ranges and
the drain are as long as no trim went past the start of a parked span or a paged
region, since only the drain's paged arm clips at `base`.
-/

namespace NzbFast.Extract

open NzbFast.Rust BTreeMap FrontierState Wire
open List hiding not_lt
open Wire (byteAt byteAt_some_range byteAt_eq_none byteAt_isSome Covers)
open FrontierState (Piece)

variable {st : FrontierState} {sc : Scratch} {rest : Nat} {last : Nat → Option UInt8}

/-! ## Coverage -/

/-- From `base` on, the bytes with a copy are those that were delivered. -/
theorem Holds.covered_iff (h : Holds st sc rest last) {x : Nat} (hx : st.base ≤ x) :
    Covered st x ↔ (last x).isSome := by
  have hsome : ∀ {s : Nat} {v : List UInt8}, Agrees st.base (Is last) s v → s ≤ x →
      x < s + v.length → (last x).isSome := fun {s v} hagrees hlo hhi => by
    obtain ⟨b, hb⟩ := Option.isSome_iff_exists.mp (byteAt_isSome.mpr ⟨hlo, hhi⟩)
    exact Option.isSome_iff_exists.mpr ⟨b, hagrees x b hx hb⟩
  constructor
  · rintro (⟨hlo, hhi⟩ | ⟨y, hy, hlo, hhi⟩ | ⟨y, hy, hlo, hhi⟩)
    · exact hsome h.stage.run hlo hhi
    · exact hsome (h.stage.parked y hy) hlo hhi
    · exact hsome (h.stage.pages y hy) hlo (by rw [h.stage.region_length hy]; exact hhi)
  · intro hlast
    obtain ⟨b, hb⟩ := Option.isSome_iff_exists.mp hlast
    exact h.kept x b hx hb

theorem FrontierState.covers_ranges {x : Nat} :
    Covers (st.parkedRanges ++ st.pagedRanges) x ↔
      (∃ y ∈ st.pending, y.1 ≤ x ∧ x < y.1 + y.2.length) ∨ ∃ y ∈ st.paged, y.1 ≤ x ∧ x < y.1 + y.2.2 := by
  rw [covers_append]
  refine or_congr ?_ ?_
  · unfold Covers parkedRanges
    simp only [mem_map, exists_exists_and_eq_and]
    rfl
  · unfold Covers pagedRanges
    simp only [mem_map, exists_exists_and_eq_and]
    rfl

/-- `frontier` is the end of the contiguous coverage from `base`. -/
theorem Holds.frontier_spec (h : Holds st sc rest last) :
    st.base ≤ st.frontier ∧ (∀ x, st.base ≤ x → x < st.frontier → (last x).isSome) ∧
      last st.frontier = none := by
  have hparked : st.parkedRanges.Pairwise fun p q => p.1 ≤ q.1 :=
    pairwise_map.mpr (st.pending.sorted.imp le_of_lt)
  have hpaged : st.pagedRanges.Pairwise fun p q => p.1 ≤ q.1 :=
    pairwise_map.mpr (st.paged.sorted.imp le_of_lt)
  obtain ⟨hle, hcov, hno⟩ := sweep_spec (st.parkedRanges ++ st.pagedRanges).length
    (f := st.frontierRam) le_rfl hparked hpaged
  have hram : st.base ≤ st.frontierRam := Nat.le_add_right _ _
  refine ⟨hram.trans hle, fun x hx hlt => (h.covered_iff hx).mp ?_, ?_⟩
  · by_cases hrun : x < st.frontierRam
    · exact .inl ⟨hx, hrun⟩
    · exact .inr (covers_ranges.mp (hcov x (not_lt.mp hrun) hlt))
  · refine Option.not_isSome_iff_eq_none.mp fun hlast => ?_
    rcases (h.covered_iff (hram.trans hle)).mpr hlast with hrun | hranges
    · exact absurd hrun.2 (not_lt.mpr hle)
    · exact hno (covers_ranges.mpr hranges)

/-! ## Reads -/

/-- A piece's bytes, read off the scratch where the read was put off. -/
def FrontierState.Piece.bytes (sc : Scratch) : Piece → Option (List UInt8)
  | .ram bytes => some bytes
  | .deferred off len => sc.read off len

def readPieces (sc : Scratch) : List Piece → Option (List UInt8)
  | [] => some []
  | p :: pieces => (p.bytes sc).bind fun bytes => (readPieces sc pieces).map (bytes ++ ·)

/-- A plan for `[pos, stop)`: the map's bytes where it has them all, and an error else. -/
structure Serves (sc : Scratch) (last : Nat → Option UInt8) (pos stop : Nat)
    (plan : Option (List Piece)) : Prop where
  whole : (∀ x, pos ≤ x → x < stop → (last x).isSome) → ∃ pieces bytes, plan = some pieces ∧
    readPieces sc pieces = some bytes ∧ bytes.length = stop - pos ∧
    ∀ x, pos ≤ x → x < stop → byteAt pos bytes x = last x
  hole : ∀ x, pos ≤ x → x < stop → last x = none → plan = none

/-- One more piece in front of a plan. -/
theorem Serves.cons {pos n stop : Nat} {plan : Option (List Piece)} {p : Piece} {bytes : List UInt8}
    (h : Serves sc last (pos + n) stop plan) (hp : p.bytes sc = some bytes) (hlen : bytes.length = n)
    (hn : pos + n ≤ stop)
    (hbytes : ∀ x, pos ≤ x → x < pos + n → ∃ b, byteAt pos bytes x = some b ∧ last x = some b) :
    Serves sc last pos stop (plan.map (p :: ·)) := by
  refine ⟨fun hall => ?_, fun x hlo hhi hx => ?_⟩
  · obtain ⟨pieces, tail, hplan, hread, htail, hmatch⟩ := h.whole fun x hlo => hall x (by omega)
    refine ⟨p :: pieces, bytes ++ tail, by rw [hplan]; rfl, ?_, ?_, fun x hlo hhi => ?_⟩
    · rw [readPieces, hp, hread]
      rfl
    · rw [length_append]
      omega
    · rw [byteAt_append, hlen]
      split
      case isTrue hin =>
        obtain ⟨b, hb, hlast⟩ := hbytes x hlo hin
        rw [hb, hlast]
      case isFalse hout => exact hmatch x (not_lt.mp hout) hhi
  · have hout : ¬ x < pos + n := fun hin => by
      obtain ⟨b, -, hlast⟩ := hbytes x hlo hin
      rw [hx] at hlast
      cases hlast
    rw [h.hole x (not_lt.mp hout) hhi hx]
    rfl

namespace FrontierState

/-- A choice made along a list is one of its elements. -/
theorem foldl_choice {α : Type} {f : Option α → α → Option α}
    (hf : ∀ best z, f best z = some z ∨ (best.isSome ∧ f best z = best)) {l : List α}
    {best : Option α} :
    (∀ x, l.foldl f best = some x → best = some x ∨ x ∈ l) ∧ (l.foldl f best = none → l = []) := by
  induction l generalizing best with
  | nil => exact ⟨fun x h => .inl h, fun _ => rfl⟩
  | cons z l ih =>
    have hkept : best.isSome → l.foldl f best ≠ none := fun hbest hnone => by
      have hnil := ih.2 hnone
      subst hnil
      rw [foldl_nil] at hnone
      rw [hnone] at hbest
      cases hbest
    rw [foldl_cons]
    rcases hf best z with hz | ⟨hsome, hz⟩
    · rw [hz]
      refine ⟨fun x h => ?_, fun h => ?_⟩
      · rcases ih.1 x h with he | hx
        · exact .inr (Option.some.inj he ▸ (.head _))
        · exact .inr (.tail _ hx)
      · have hnil := (@ih (some z)).2 h
        subst hnil
        cases h
    · rw [hz]
      exact ⟨fun x h => (ih.1 x h).imp_right (mem_cons_of_mem _), fun h => absurd h (hkept hsome)⟩

theorem furthest_spec {l : List (Nat × List UInt8)} :
    (∀ x, furthest l = some x → x ∈ l) ∧ (furthest l = none → l = []) := by
  have hchoice : ∀ f : Option (Nat × List UInt8) → Nat × List UInt8 → Option (Nat × List UInt8),
      (∀ best z, f best z = some z ∨ (best.isSome ∧ f best z = best)) →
      (∀ x, l.foldl f none = some x → x ∈ l) ∧ (l.foldl f none = none → l = []) := fun f hf =>
    ⟨fun x h => ((foldl_choice hf).1 x h).resolve_left (Option.some_ne_none x).symm,
      (foldl_choice hf).2⟩
  refine hchoice _ fun best z => ?_
  cases best with
  | none => exact .inl rfl
  | some y =>
    dsimp only
    split
    · exact .inl rfl
    · exact .inr ⟨rfl, rfl⟩

theorem pendingAt_some {pos : Nat} {y : Nat × List UInt8} (h : st.pendingAt pos = some y) :
    y ∈ st.pending ∧ y.1 ≤ pos ∧ pos < y.1 + y.2.length := by
  obtain ⟨hy, hend⟩ := mem_filter.mp (furthest_spec.1 y h)
  obtain ⟨hmem, -, hlt⟩ := mem_range.mp hy
  exact ⟨hmem, Nat.le_of_lt_succ hlt, of_decide_eq_true hend⟩

theorem pendingAt_none (hb : Bounded st) {pos : Nat} (h : st.pendingAt pos = none)
    {y : Nat × List UInt8} (hy : y ∈ st.pending) (hle : y.1 ≤ pos) : y.1 + y.2.length ≤ pos := by
  have hnil := furthest_spec.2 h
  refine not_lt.mp fun hlt => ?_
  have hlen := hb y hy
  have hrange : y ∈ st.pending.range (pos - st.pendingMaxLen) (pos + 1) :=
    mem_range.mpr ⟨hy, by omega, Nat.lt_succ_of_le hle⟩
  have hmem : y ∈ (st.pending.range (pos - st.pendingMaxLen) (pos + 1)).filter fun x =>
      decide (pos < x.1 + x.2.length) := mem_filter.mpr ⟨hrange, decide_eq_true hlt⟩
  rw [hnil] at hmem
  cases hmem

/-- A copy's bytes from `pos` on, as a piece. -/
theorem served_bytes {s pos n : Nat} {v : List UInt8} (h : Agrees st.base (Is last) s v)
    (hbase : st.base ≤ pos) (hlo : s ≤ pos) (hn : pos + n ≤ s + v.length) :
    ((v.drop (pos - s)).take n).length = n ∧ ∀ x, pos ≤ x → x < pos + n →
      ∃ b, byteAt pos ((v.drop (pos - s)).take n) x = some b ∧ last x = some b := by
  refine ⟨by rw [length_take, length_drop]; omega, fun x hx hlt => ?_⟩
  obtain ⟨b, hb⟩ := Option.isSome_iff_exists.mp
    ((@byteAt_isSome s x v).mpr ⟨hlo.trans hx, by omega⟩)
  have hdrop := @Wire.byteAt_drop s (pos - s) x v
  rw [show s + (pos - s) = pos by omega, if_pos hx] at hdrop
  refine ⟨b, ?_, h x b (hbase.trans hx) hb⟩
  rw [byteAt_take, if_pos hlt, hdrop, hb]

theorem planFrom_serves (h : Holds st sc rest last) {stop : Nat} : ∀ (fuel : Nat) {pos : Nat},
    st.base ≤ pos → (pos < stop → st.frontierRam ≤ pos) → stop ≤ pos + fuel →
    Serves sc last pos stop (st.planFrom fuel pos stop)
  | 0, pos, _, _, hfuel =>
    ⟨fun _ => ⟨[], [], rfl, rfl, by rw [length_nil]; omega, fun x hlo hhi => by omega⟩,
      fun x hlo hhi => by omega⟩
  | fuel + 1, pos, hbase, hram, hfuel => by
    unfold planFrom
    split
    case isFalse hend =>
      exact ⟨fun _ => ⟨[], [], rfl, rfl, by rw [length_nil]; omega, fun x hlo hhi => by omega⟩,
        fun x hlo hhi => by omega⟩
    case isTrue hlt =>
    have hnext : ∀ n, 0 < n → Serves sc last (pos + n) stop (st.planFrom fuel (pos + n) stop) :=
      fun n hn => planFrom_serves h fuel (by omega) (fun _ => by omega) (by omega)
    cases hpark : st.pendingAt pos with
    | some y =>
      obtain ⟨hy, hlo, hhi⟩ := pendingAt_some hpark
      obtain ⟨hlen, hbytes⟩ := @served_bytes st last y.1 pos (min (y.1 + y.2.length) stop - pos) y.2
        (h.stage.parked y hy) hbase hlo (by omega)
      exact (hnext _ (by omega)).cons rfl hlen (by omega) hbytes
    | none =>
      cases hpage : st.pagedAt pos with
      | some y =>
        obtain ⟨hy, hlo, hhi⟩ := pagedAt_some hpage
        obtain ⟨s, po, len⟩ := y
        dsimp only at hlo hhi ⊢
        have hregion : (sc.region (po, len)).length = len := h.stage.region_length hy
        obtain ⟨n, hn⟩ : ∃ n, n = min (s + len) stop - pos := ⟨_, rfl⟩
        obtain ⟨hlen, hbytes⟩ := @served_bytes st last s pos n (sc.region (po, len))
          (h.stage.pages _ hy) hbase hlo (by omega)
        rw [← hn]
        refine (hnext n (by omega)).cons ?_ hlen (by omega) hbytes
        exact Scratch.read_inside ((h.stage.backed _ hy).trans h.stage.cursor)
          (show pos - s + n ≤ len by omega)
      | none =>
        have hnone : last pos = none := by
          refine Option.not_isSome_iff_eq_none.mp fun hlast => ?_
          rcases (h.covered_iff hbase).mpr hlast with ⟨-, hrun⟩ | ⟨y, hy, hlo, hhi⟩ | ⟨y, hy, hlo, hhi⟩
          · omega
          · have := pendingAt_none h.bounded hpark hy hlo
            omega
          · have := pagedAt_none h.stage.disjoint hpage hy hlo
            omega
        refine ⟨fun hall => ?_, fun _ _ _ _ => rfl⟩
        have hsome := hall pos le_rfl hlt
        rw [hnone] at hsome
        cases hsome

/-- `plan_peek` serves exactly the reads that the map from `base` on can answer. -/
theorem planPeek_serves (h : Holds st sc rest last) {off : Nat} (hoff : st.base ≤ off) (len : Nat) :
    Serves sc last off (off + len) (st.planPeek off len) := by
  have hram : st.frontierRam = st.base + st.data.length := rfl
  unfold planPeek
  rw [if_neg (not_lt.mpr hoff)]
  by_cases hin : off < st.frontierRam
  · rw [if_pos hin]
    obtain ⟨hlen, hbytes⟩ := @served_bytes st last st.base off (min st.frontierRam (off + len) - off)
      st.data h.stage.run hoff hoff (by omega)
    exact (planFrom_serves h len (by omega) (fun _ => by omega) (by omega)).cons rfl hlen (by omega) hbytes
  · rw [if_neg hin]
    exact (planFrom_serves h len (by omega) (fun _ => by omega) (by omega)).cons rfl
      (by rw [take_zero, length_nil]) (by omega) fun x hlo hhi => by omega

end FrontierState

/-! ## Ranges -/

/-- `intervals` has the bytes of its window that have a copy, in ranges that keep apart. -/
theorem FrontierState.intervals_spec (st : FrontierState) (off len : Nat) :
    (∀ x, Covers (st.intervals off len) x ↔ off ≤ x ∧ x < off + len ∧ Covered st x) ∧
      (∀ iv ∈ st.intervals off len, iv.1 < iv.2) ∧
      (st.intervals off len).Pairwise fun p q => p.2 < q.1 := by
  have hclip : ∀ (rs : List (Nat × Nat)) (x : Nat),
      Covers ((rs.map fun r => (max off r.1, min (off + len) r.2)).filter fun r =>
        decide (r.1 < r.2)) x ↔ off ≤ x ∧ x < off + len ∧ Covers rs x := fun rs x => by
    constructor
    · rintro ⟨iv, hiv, hlo, hhi⟩
      obtain ⟨r, hr, rfl⟩ := mem_map.mp (mem_filter.mp hiv).1
      exact ⟨by omega, by omega, r, hr, by omega, by omega⟩
    · rintro ⟨hoff, hstop, r, hr, hlo, hhi⟩
      refine ⟨_, mem_filter.mpr ⟨mem_map.mpr ⟨r, hr, rfl⟩, decide_eq_true ?_⟩, ?_, ?_⟩
      all_goals
        omega
  have hrun : ∀ x, Covers (if max off st.base < st.frontierRam ∧ max off st.base < off + len then
      [(max off st.base, min st.frontierRam (off + len))] else []) x ↔
        off ≤ x ∧ x < off + len ∧ st.base ≤ x ∧ x < st.frontierRam := fun x => by
    split
    case isTrue =>
      rw [covers_cons, iff_false_intro (covers_nil x), or_false]
      omega
    case isFalse =>
      rw [iff_false_intro (covers_nil x), false_iff]
      omega
  refine ⟨fun x => ?_, apart_mergeIntervals fun iv hiv => ?_⟩
  · unfold intervals
    rw [covers_mergeIntervals, covers_append, covers_append, hrun, hclip, hclip,
      Covered, ← covers_ranges, covers_append]
    tauto
  · rcases mem_append.mp hiv with hiv | hiv
    · rcases mem_append.mp hiv with hiv | hiv
      · split at hiv
        case isTrue hlt =>
          obtain rfl := mem_singleton.mp hiv
          exact lt_min hlt.1 hlt.2
        case isFalse => cases hiv
      · exact of_decide_eq_true (mem_filter.mp hiv).2
    · exact of_decide_eq_true (mem_filter.mp hiv).2

/-! ## The drain -/

/-- What a drain will ship: the parked spans whole, the rest from `base` on. -/
def Ships (st : FrontierState) (sc : Scratch) (x : Nat) (b : UInt8) : Prop :=
  byteAt st.base st.data x = some b ∨
    (st.base ≤ x ∧ ∃ y ∈ st.paged, byteAt y.1 (sc.region y.2) x = some b) ∨
    ∃ y ∈ st.pending, byteAt y.1 y.2 x = some b

theorem Stage.letGo {R P G : Nat → UInt8 → Prop} (h : Stage st sc rest R P G) {s po len : Nat}
    (hy : (s, po, len) ∈ st.paged) :
    Stage { st with paged := st.paged.remove s, pagedBytes := st.pagedBytes - len } (sc.release len)
        rest R P G ∧
      ∀ z ∈ st.paged.remove s, (sc.release len).region z.2 = sc.region z.2 := by
  have hsum := sum_remove (·.2) hy
  have hcharged := h.charged
  have hlive := h.live
  have hrl := sc.release_live len
  have hsame : ∀ z ∈ st.paged.remove s, z ∈ st.paged ∧ (sc.release len).file = sc.file ∧
      (sc.release len).cursor = sc.cursor := fun z hz => by
    have hzm := (mem_remove.mp hz).1
    have hzpos := h.positive z hzm
    have hzle := le_sum (·.2) hz
    refine ⟨hzm, (sc.release_shrinks len).same ?_⟩
    omega
  have hregion : ∀ z ∈ st.paged.remove s, (sc.release len).region z.2 = sc.region z.2 := fun z hz => by
    rw [Scratch.region, Scratch.region, (hsame z hz).2.1]
  refine ⟨⟨h.run, h.parked, h.nonempty, fun z hz => ?_, fun z hz z' hz' => ?_, fun z hz => ?_,
    fun z hz => ?_, Scratch.release_cursor h.cursor len, ?_, ?_⟩, hregion⟩
  · rw [hregion z hz]
    exact h.pages z (hsame z hz).1
  · exact h.disjoint z (hsame z hz).1 z' (hsame z' hz').1
  · exact h.positive z (hsame z hz).1
  · rw [(hsame z hz).2.2]
    exact h.backed z (hsame z hz).1
  · dsimp only
    omega
  · dsimp only
    omega

namespace FrontierState

def spansLeft (st : FrontierState) : Nat :=
  (if st.data = [] then 0 else 1) + st.paged.entries.length + st.pending.entries.length

/-- What a pop leaves. -/
structure Popped (st : FrontierState) (sc : Scratch) (rest : Nat) (P G : Nat → UInt8 → Prop)
    (st' : FrontierState) (sc' : Scratch) (span : Option (Nat × List UInt8)) : Prop where
  stage : Stage st' sc' rest P P G
  ships : ∀ x b, Ships st sc x b ↔
    (∃ sp, span = some sp ∧ byteAt sp.1 sp.2 x = some b) ∨ Ships st' sc' x b
  left : st'.spansLeft + (if span.isSome then 1 else 0) ≤ st.spansLeft

/-- The loop over the regions ships the part of the first one that reaches past `base`. -/
theorem popPaged_spec {P G : Nat → UInt8 → Prop} : ∀ {regions : List (Nat × Nat × Nat)}
    {st : FrontierState} {sc : Scratch}, Stage st sc rest P P G → st.paged.entries = regions →
    ∃ st' sc' span, popPaged sc st regions = some (st', sc', span) ∧
      Popped st sc rest P G st' sc' span ∧ st'.data = st.data ∧
      (span = none → st'.paged.entries = [])
  | [], st, sc, h, hregions =>
    ⟨st, sc, none, rfl, ⟨h, fun x b => ⟨.inr, fun hor => hor.resolve_left nofun⟩, le_rfl⟩, rfl,
      fun _ => hregions⟩
  | (s, po, len) :: regions, st, sc, h, hregions => by
    have hy : (s, po, len) ∈ st.paged := by
      change _ ∈ st.paged.entries
      rw [hregions]
      exact .head _
    obtain ⟨hstage, hregion⟩ := h.letGo hy
    have hlen : (sc.region (po, len)).length = len := h.region_length hy
    have hfit := (h.backed _ hy).trans h.cursor
    obtain ⟨skip, hskip⟩ : ∃ skip, skip = min (st.base - s) len := ⟨_, rfl⟩
    have hread : (if len - skip = 0 then some [] else sc.read (po + skip) (len - skip)) =
        some ((sc.region (po, len)).drop skip) := by
      split
      case isTrue hzero => rw [drop_of_length_le (by omega)]
      case isFalse =>
        rw [Scratch.read_inside (r := (po, len)) hfit (by dsimp only; omega),
          take_of_length_le (by rw [length_drop]; omega)]
    -- the region's bytes from `base` on are those past the skip
    have hclip : ∀ x b, byteAt (s + skip) ((sc.region (po, len)).drop skip) x = some b ↔
        st.base ≤ x ∧ byteAt s (sc.region (po, len)) x = some b := fun x b => by
      rw [byteAt_drop]
      constructor
      · intro hb
        split at hb
        case isFalse => cases hb
        case isTrue hle =>
          have := byteAt_some_range hb
          exact ⟨by omega, hb⟩
      · rintro ⟨hbase, hb⟩
        have := byteAt_some_range hb
        rw [if_pos (by omega), hb]
    have hships : ∀ x b, Ships st sc x b ↔
        byteAt (s + skip) ((sc.region (po, len)).drop skip) x = some b ∨
          Ships { st with paged := st.paged.remove s, pagedBytes := st.pagedBytes - len }
            (sc.release len) x b := fun x b => by
      have hpages : (∃ y ∈ st.paged, byteAt y.1 (sc.region y.2) x = some b) ↔
          byteAt s (sc.region (po, len)) x = some b ∨
            ∃ y ∈ st.paged.remove s, byteAt y.1 ((sc.release len).region y.2) x = some b := by
        constructor
        · rintro ⟨y, hym, hb⟩
          by_cases hys : y.1 = s
          · obtain rfl := mem_unique hym hy hys
            exact .inl hb
          · have hyr := mem_remove.mpr ⟨hym, hys⟩
            exact .inr ⟨y, hyr, by rw [hregion y hyr]; exact hb⟩
        · rintro (hb | ⟨y, hyr, hb⟩)
          · exact ⟨_, hy, hb⟩
          · rw [hregion y hyr] at hb
            exact ⟨y, (mem_remove.mp hyr).1, hb⟩
      unfold Ships
      rw [hpages, hclip, and_or_left, or_assoc, or_left_comm]
    have hcount : spansLeft { st with paged := st.paged.remove s, pagedBytes := st.pagedBytes - len } +
        1 = st.spansLeft := by
      have hentries := remove_head hregions
      unfold spansLeft
      dsimp only
      rw [hentries, hregions, length_cons]
      omega
    rw [popPaged, ← hskip]
    rw [hread, Option.bind_some]
    split
    case isTrue hnil =>
      rw [hnil] at hships
      obtain ⟨st', sc', span, hpop, hpopped, hdata, hnone⟩ :=
        popPaged_spec hstage (remove_head hregions)
      refine ⟨st', sc', span, hpop, ⟨hpopped.stage, fun x b => ?_, ?_⟩, hdata, hnone⟩
      · rw [hships, byteAt_nil, ← hpopped.ships]
        exact ⟨fun hor => hor.resolve_left nofun, .inr⟩
      · have := hpopped.left
        omega
    case isFalse =>
      refine ⟨_, _, _, rfl, ⟨hstage, fun x b => ?_, hcount.le⟩, rfl, nofun⟩
      rw [hships]
      refine or_congr_left ⟨fun hb => ⟨_, rfl, hb⟩, ?_⟩
      rintro ⟨sp, he, hb⟩
      cases he
      exact hb

/-- `pop_span` ships the run, a region or a parked span, and nothing once there is none. -/
theorem popSpan_spec {P G : Nat → UInt8 → Prop} (h : Stage st sc rest P P G) :
    ∃ st' sc' span, st.popSpan sc = some (st', sc', span) ∧ Popped st sc rest P G st' sc' span ∧
      (span = none → ∀ x b, ¬ Ships st' sc' x b) := by
  unfold popSpan
  split
  case isTrue hdata =>
    refine ⟨_, _, _, rfl, ⟨?_, fun x b => ?_, ?_⟩, nofun⟩
    · exact ⟨fun x b _ hb => (nomatch (byteAt_nil st.base x).symm.trans hb), h.parked, h.nonempty,
        h.pages, h.disjoint, h.positive, h.backed, h.cursor, h.live, h.charged⟩
    · unfold Ships
      dsimp only [resyncRetained]
      simp [byteAt_nil]
    · unfold spansLeft
      dsimp only [resyncRetained]
      rw [if_neg hdata]
      simp only [ite_true, Option.isSome_some]
      omega
  case isFalse hdata =>
    rw [not_not] at hdata
    obtain ⟨st₁, sc₁, span, hpop, hpopped, hdata₁, hnone⟩ := popPaged_spec h rfl
    rw [hpop, Option.map_some]
    cases span with
    | some sp => exact ⟨_, _, _, rfl, hpopped, nofun⟩
    | none =>
      have hpaged := hnone rfl
      have hstage₁ := hpopped.stage
      have hships : ∀ x b, Ships st sc x b ↔ Ships st₁ sc₁ x b := fun x b =>
        (hpopped.ships x b).trans ⟨fun hor => hor.resolve_left nofun, .inr⟩
      cases hpending : st₁.pending.entries with
      | nil =>
        refine ⟨_, _, _, rfl, ⟨hstage₁.resync, fun x b => ?_, hpopped.left⟩, fun _ x b => ?_⟩
        · rw [hships]
          exact ⟨.inr, fun hor => hor.resolve_left nofun⟩
        · rintro (hb | ⟨-, y, hy, -⟩ | ⟨y, hy, -⟩)
          · dsimp only [resyncRetained] at hb
            rw [hdata₁, hdata, byteAt_nil] at hb
            cases hb
          · change y ∈ st₁.paged.entries at hy
            rw [hpaged] at hy
            cases hy
          · change y ∈ st₁.pending.entries at hy
            rw [hpending] at hy
            cases hy
      | cons y parked =>
        obtain ⟨s, v⟩ := y
        have hy : (s, v) ∈ st₁.pending := by
          change _ ∈ st₁.pending.entries
          rw [hpending]
          exact .head _
        have hsub : ∀ z ∈ st₁.pending.remove s, z ∈ st₁.pending := fun z hz =>
          (mem_remove.mp hz).1
        refine ⟨_, _, _, rfl, ⟨?_, fun x b => ?_, ?_⟩, nofun⟩
        · exact ⟨hstage₁.run, fun z hz => hstage₁.parked z (hsub z hz),
            fun z hz => hstage₁.nonempty z (hsub z hz), hstage₁.pages, hstage₁.disjoint,
            hstage₁.positive, hstage₁.backed, hstage₁.cursor, hstage₁.live, hstage₁.charged⟩
        · have hparked : (∃ z ∈ st₁.pending, byteAt z.1 z.2 x = some b) ↔
              byteAt s v x = some b ∨ ∃ z ∈ st₁.pending.remove s, byteAt z.1 z.2 x = some b := by
            constructor
            · rintro ⟨z, hz, hb⟩
              by_cases hzs : z.1 = s
              · obtain rfl := mem_unique hz hy hzs
                exact .inl hb
              · exact .inr ⟨z, mem_remove.mpr ⟨hz, hzs⟩, hb⟩
            · rintro (hb | ⟨z, hz, hb⟩)
              · exact ⟨_, hy, hb⟩
              · exact ⟨z, hsub z hz, hb⟩
          rw [hships]
          unfold Ships
          dsimp only [resyncRetained]
          rw [hparked, or_left_comm (b := byteAt s v x = some b),
            or_left_comm (b := byteAt s v x = some b)]
          simp only [Option.some.injEq, exists_eq_left']
        · have hentries := remove_head hpending
          have hcount : spansLeft ({ st₁ with pending := st₁.pending.remove s }.resyncRetained) + 1 =
              st₁.spansLeft := by
            unfold spansLeft
            dsimp only [resyncRetained]
            rw [hentries, hpending, length_cons]
            rfl
          exact hcount.le.trans hpopped.left

/-- Enough pops empty the buffer, and have shipped what it would ship. -/
theorem drain_spec {P G : Nat → UInt8 → Prop} : ∀ (fuel : Nat) {st : FrontierState} {sc : Scratch},
    Stage st sc rest P P G → st.spansLeft < fuel → ∃ spans, drain fuel st sc = some spans ∧
      ∀ x b, Ships st sc x b ↔ ∃ y ∈ spans, byteAt y.1 y.2 x = some b
  | 0, _, _, _, hfuel => absurd hfuel (Nat.not_lt_zero _)
  | fuel + 1, st, sc, h, hfuel => by
    obtain ⟨st', sc', span, hpop, hpopped, hempty⟩ := popSpan_spec h
    unfold drain
    rw [hpop, Option.bind_some]
    have hleft := hpopped.left
    cases span with
    | none =>
      refine ⟨[], rfl, fun x b => iff_of_false (fun hb => ?_) (by simp)⟩
      rcases (hpopped.ships x b).mp hb with ⟨sp, he, -⟩ | hb
      · cases he
      · exact hempty rfl x b hb
    | some sp =>
      rw [Option.isSome_some, if_pos rfl] at hleft
      obtain ⟨spans, hdrain, hships⟩ := drain_spec fuel hpopped.stage (by omega)
      refine ⟨sp :: spans, by dsimp only; rw [hdrain]; rfl, fun x b => ?_⟩
      rw [hpopped.ships, hships]
      simp

end FrontierState

/-! ## The refinement -/

/-- What every state of a run is of the bytes last delivered. -/
structure World.Exact (w : World) (last : Nat → Option UInt8) : Prop where
  run : Agrees w.st.base (Is last) w.st.base w.st.data
  parked : ∀ y ∈ w.st.pending, Agrees w.st.base (Is last) y.1 y.2
  pages : ∀ y ∈ w.st.paged, Agrees w.st.base (Is last) y.1 (w.sc.region y.2)
  kept : ∀ x b, w.st.base ≤ x → last x = some b → Covered w.st x
  disjoint : ∀ y ∈ w.st.paged, ∀ z ∈ w.st.paged, y.1 < z.1 → y.1 + y.2.2 ≤ z.1
  stored : w.st.stored = w.st.data.length + w.st.pending.sum List.length
  pagedBytes : w.st.pagedBytes = w.st.paged.sum (·.2)
  frontier : w.st.base ≤ w.st.frontier ∧
    (∀ x, w.st.base ≤ x → x < w.st.frontier → (last x).isSome) ∧ last w.st.frontier = none
  peek : ∀ off len, w.st.base ≤ off → Serves w.sc last off (off + len) (w.st.planPeek off len)
  refused : ∀ off len, off < w.st.base → w.st.planPeek off len = none

/-- The buffer is the map of the bytes last delivered from `base` on: its copies, its counts, what
it reports and what it drains to. -/
structure World.Refines (w : World) (last : Nat → Option UInt8) : Prop where
  exact : w.Exact last
  covers : ∀ off len x, Covers (w.st.intervals off len) x ↔
    w.st.base ≤ x ∧ off ≤ x ∧ x < off + len ∧ (last x).isSome
  apart : ∀ off len, (w.st.intervals off len).Pairwise fun p q => p.2 < q.1
  drains : ∃ spans, FrontierState.drain (w.st.spansLeft + 1) w.st w.sc = some spans ∧
    ∀ x b, (∃ y ∈ spans, byteAt y.1 y.2 x = some b) ↔ w.st.base ≤ x ∧ last x = some b

theorem World.Inv.exact {w : World} (h : w.Inv last) : w.Exact last :=
  ⟨h.holds.stage.run, h.holds.stage.parked, h.holds.stage.pages, h.holds.kept,
    h.holds.stage.disjoint, h.holds.stored, h.holds.stage.charged, h.holds.frontier_spec,
    fun _ len hoff => planPeek_serves h.holds hoff len, fun _ _ hoff => if_pos hoff⟩

theorem Holds.ships_iff (h : Holds st sc rest last) {x : Nat} (hx : st.base ≤ x) (b : UInt8) :
    Ships st sc x b ↔ last x = some b := by
  have hcopy : ∀ {s : Nat} {v : List UInt8}, Agrees st.base (Is last) s v → s ≤ x →
      x < s + v.length → last x = some b → byteAt s v x = some b := fun {s v} hagrees hlo hhi hb => by
    obtain ⟨c, hc⟩ := Option.isSome_iff_exists.mp (byteAt_isSome.mpr ⟨hlo, hhi⟩)
    have hlast : last x = some c := hagrees x c hx hc
    rw [hc, ← hlast, hb]
  constructor
  · rintro (hb | ⟨-, y, hy, hb⟩ | ⟨y, hy, hb⟩)
    · exact h.stage.run x b hx hb
    · exact h.stage.pages y hy x b hx hb
    · exact h.stage.parked y hy x b hx hb
  · intro hb
    rcases h.kept x b hx hb with ⟨hlo, hhi⟩ | ⟨y, hy, hlo, hhi⟩ | ⟨y, hy, hlo, hhi⟩
    · exact .inl (hcopy h.stage.run hlo hhi hb)
    · exact .inr (.inr ⟨y, hy, hcopy (h.stage.parked y hy) hlo hhi hb⟩)
    · refine .inr (.inl ⟨hx, y, hy, hcopy (h.stage.pages y hy) hlo ?_ hb⟩)
      rw [h.stage.region_length hy]
      exact hhi

/-- A buffer refines the map just where no copy starts below `base`. -/
theorem World.Inv.refines_iff {w : World} (h : w.Inv last) : w.Refines last ↔ AboveBase w.st := by
  obtain ⟨spans, hdrain, hships⟩ :=
    drain_spec (w.st.spansLeft + 1) h.holds.stage (Nat.lt_succ_self _)
  constructor
  · intro hr
    refine ⟨fun y hy => ?_, fun y hy => ?_⟩
    · -- the drain ships the span's first byte
      obtain ⟨spans', hdrain', hdrains⟩ := hr.drains
      have hpos := length_pos_of_ne_nil (h.holds.stage.nonempty y hy)
      obtain ⟨b, hb⟩ := Option.isSome_iff_exists.mp
        ((@byteAt_isSome y.1 y.1 y.2).mpr ⟨le_rfl, by omega⟩)
      obtain rfl := Option.some.inj (hdrain.symm.trans hdrain')
      exact ((hdrains y.1 b).mp ((hships y.1 b).mp (.inr (.inr ⟨y, hy, hb⟩)))).1
    · -- the ranges have the region's first byte
      have hpos := h.holds.stage.positive y hy
      refine ((hr.covers y.1 1 y.1).mp ?_).1
      exact ((w.st.intervals_spec y.1 1).1 y.1).mpr
        ⟨le_rfl, Nat.lt_succ_self _, .inr (.inr ⟨y, hy, le_rfl, by omega⟩)⟩
  · intro habove
    have hbase : ∀ x, Covered w.st x → w.st.base ≤ x := by
      rintro x (⟨hlo, -⟩ | ⟨y, hy, hlo, -⟩ | ⟨y, hy, hlo, -⟩)
      · exact hlo
      · exact (habove.1 y hy).trans hlo
      · exact (habove.2 y hy).trans hlo
    refine ⟨h.exact, fun off len x => ?_, fun off len => (w.st.intervals_spec off len).2.2,
      spans, hdrain, fun x b => ?_⟩
    · rw [(w.st.intervals_spec off len).1]
      constructor
      · rintro ⟨hoff, hstop, hcov⟩
        exact ⟨hbase x hcov, hoff, hstop, (h.holds.covered_iff (hbase x hcov)).mp hcov⟩
      · rintro ⟨hx, hoff, hstop, hlast⟩
        exact ⟨hoff, hstop, (h.holds.covered_iff hx).mpr hlast⟩
    · rw [← hships]
      constructor
      · intro hb
        have hx : w.st.base ≤ x := by
          rcases hb with hb | ⟨hx, -⟩ | ⟨y, hy, hb⟩
          · exact (byteAt_some_range hb).1
          · exact hx
          · exact (habove.1 y hy).trans (byteAt_some_range hb).1
        exact ⟨hx, (h.holds.ships_iff hx b).mp hb⟩
      · rintro ⟨hx, hb⟩
        exact (h.holds.ships_iff hx b).mpr hb

theorem World.run_append (w : World) (last : Nat → Option UInt8) (before after : List Action) :
    w.run last (before ++ after) = (w.run last before).1.run (w.run last before).2 after := by
  induction before generalizing w last with
  | nil => rfl
  | cons a before ih => exact ih (w.step a) (w.delivered last a)

/-- In every run the copies, the counts, the frontier and the reads are those of the bytes last
delivered; the ranges and the drain are too, in every state of the run, just where no step of it
trims past the start of a parked span or a paged region. -/
theorem World.run_refines (total : Nat) (actions : List Action) :
    (∀ before after, actions = before ++ after →
      ((World.fresh total).run (fun _ => none) before).1.Exact
        ((World.fresh total).run (fun _ => none) before).2) ∧
    ((∀ before after, actions = before ++ after →
        ((World.fresh total).run (fun _ => none) before).1.Refines
          ((World.fresh total).run (fun _ => none) before).2) ↔
      ∀ before a after, actions = before ++ a :: after →
        ((World.fresh total).run (fun _ => none) before).1.Clear a) := by
  have hinv := fun before => (World.Inv.fresh total).run before
  have hstep : ∀ before a, AboveBase ((World.fresh total).run (fun _ => none) before).1.st →
      (AboveBase ((World.fresh total).run (fun _ => none) (before ++ [a])).1.st ↔
        ((World.fresh total).run (fun _ => none) before).1.Clear a) := fun before a habove => by
    rw [World.run_append]
    exact World.aboveBase_step (hinv before) habove a
  refine ⟨fun before _ _ => (hinv before).exact, fun hall before a after he => ?_,
    fun hclear before => ?_⟩
  · have hbefore := (hinv before).refines_iff.mp (hall before (a :: after) he)
    refine (hstep before a hbefore).mp ((hinv _).refines_iff.mp (hall (before ++ [a]) after ?_))
    rw [he, append_assoc]
    rfl
  · induction before using reverseRecOn with
    | nil => exact fun _ _ => (hinv []).refines_iff.mpr ⟨nofun, nofun⟩
    | append_singleton before a ih =>
      intro after he
      rw [append_assoc] at he
      have hbefore := (hinv before).refines_iff.mp (ih (a :: after) he)
      exact (hinv _).refines_iff.mpr ((hstep before a hbefore).mpr (hclear before a after he))

/-- A region that the run was folded into, taken back off the scratch by a repair past the run's
end and trimmed into. -/
def staleRun : List Action :=
  [.write 2 (List.replicate 4096 7), .pageCold 8192 4096 false, .pager 0, .pager 0, .pager 0,
    .pager 0, .write 1 [9, 7], .write 0 [1], .write 10 [8], .trimTo 3 1]

/-- Its last state has `base` 3 and a span parked at 2, that the drain ships whole. -/
theorem staleRun_not_refines :
    ((World.fresh 8192).run (fun _ => none) staleRun).1.st.base = 3 ∧
      ¬ ((World.fresh 8192).run (fun _ => none) staleRun).1.Refines
        ((World.fresh 8192).run (fun _ => none) staleRun).2 := by
  have hbase : ((World.fresh 8192).run (fun _ => none) staleRun).1.st.base = 3 := by decide +kernel
  have hstarts : ((World.fresh 8192).run (fun _ => none) staleRun).1.st.pending.entries.map (·.1) =
      [2, 10] := by decide +kernel
  refine ⟨hbase, fun hr => ?_⟩
  have habove := ((World.Inv.fresh 8192).run staleRun).refines_iff.mp hr
  obtain ⟨y, hy, hstart⟩ := mem_map.mp (hstarts ▸ mem_cons_self : (2 : Nat) ∈ _)
  have hle := habove.1 y hy
  omega

end NzbFast.Extract
