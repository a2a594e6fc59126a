import NzbFast.Extract.CrcRuns

/-!
# Runs that follow their content

`take_stale_gaps` of `CrcRuns` (`crates/nzbkit/src/extract/settle.rs`), and every sequence of what
is done to the runs of a content: bytes added, runs added, ranges overwritten, and rounds in which
the gaps an overwrite left are computed again or left out.
-/

namespace NzbFast.Extract

open NzbFast.Rust BTreeMap Wire
open List hiding mem_range not_lt sum
open Wire (slice crc32 crc32Combine gaps Covers ofBytes)

namespace CrcRuns

/-- One stale range: what no run has of it, from where the last gap ended. -/
def staleStep (runs : BTreeMap (Nat × Nat)) (out : List (Nat × Nat)) (iv : Nat × Nat) :
    List (Nat × Nat) :=
  let s := match out.getLast? with
    | some last => if iv.1 < last.2 then last.2 else iv.1
    | none => iv.1
  out ++ gaps (ranges runs iv.2) s iv.2

def takeStaleGaps (r : CrcRuns) : CrcRuns × List (Nat × Nat) :=
  ({ r with stale := [] },
    (r.stale.insertionSort fun p q => p.1 < q.1 ∨ (p.1 = q.1 ∧ p.2 ≤ q.2)).foldl
      (staleStep r.runs) [])

variable {val : Nat → UInt8} {runs : BTreeMap (Nat × Nat)}

/-! ## Ranges -/

theorem covers_ranges {stop x : Nat} (hx : x < stop) : Covers (ranges runs stop) x ↔ Has runs x := by
  constructor
  · rintro ⟨iv, hiv, hlo, hhi⟩
    obtain ⟨y, hy, rfl⟩ := mem_map.mp hiv
    exact ⟨y, (mem_range.mp hy).1, hlo, hhi⟩
  · rintro ⟨y, hy, hlo, hhi⟩
    have hmem : y ∈ runs.range 0 stop := mem_range.mpr ⟨hy, Nat.zero_le _, by omega⟩
    exact ⟨_, mem_map_of_mem hmem, hlo, hhi⟩

theorem ranges_sorted (runs : BTreeMap (Nat × Nat)) (stop : Nat) :
    (ranges runs stop).Pairwise fun p q => p.1 ≤ q.1 := by
  rw [ranges, pairwise_map]
  exact (range_sorted runs 0 stop).imp fun hlt => le_of_lt hlt

theorem ranges_below {stop : Nat} : ∀ iv ∈ ranges runs stop, iv.1 ≤ iv.2 ∧ iv.1 < stop := by
  intro iv hiv
  obtain ⟨y, hy, rfl⟩ := mem_map.mp hiv
  exact ⟨Nat.le_add_right _ _, (mem_range.mp hy).2.2⟩

theorem gaps_ranges (runs : BTreeMap (Nat × Nat)) (cur stop : Nat) :
    (∀ g ∈ gaps (ranges runs stop) cur stop, cur ≤ g.1 ∧ g.1 < g.2 ∧ g.2 ≤ stop) ∧
      ((gaps (ranges runs stop) cur stop).Pairwise fun p q => p.2 ≤ q.1) ∧
      ∀ x, Covers (gaps (ranges runs stop) cur stop) x ↔ cur ≤ x ∧ x < stop ∧ ¬ Has runs x := by
  obtain ⟨hin, hsorted, hcov⟩ := gaps_spec (ranges_sorted runs stop) cur ranges_below
  refine ⟨hin, hsorted, fun x => (hcov x).trans ?_⟩
  refine and_congr_right fun _ => and_congr_right fun hx => not_congr (covers_ranges hx)

/-! ## Absorbing to the end -/

theorem length_entries (m : BTreeMap (Nat × Nat)) : m.entries.length = m.sum fun _ => 1 := by
  simp [sum]

/-- A round of absorbing takes a run away. -/
theorem length_join {s t l m : Nat} {c d : Nat} (hs : (s, l, c) ∈ runs) (ht : (t, m, d) ∈ runs)
    (hne : t ≠ s) (v : Nat × Nat) :
    ((runs.remove t).insert s v).entries.length + 1 = runs.entries.length := by
  have hs' := mem_remove.mpr ⟨hs, Ne.symm hne⟩
  rw [length_entries, length_entries, sum_insert, sum_remove (fun _ => 1) ht,
    sum_remove (fun _ => 1) hs']

theorem absorb_cases (h : Right val runs) (fuel start : Nat) :
    (absorb (fuel + 1) runs start = runs ∧
        ∀ l c, (start, l, c) ∈ runs → ∀ z ∈ runs, start < z.1 → start + l ≠ z.1) ∨
      ∃ l c nl nc, (start, l, c) ∈ runs ∧ (start + l, nl, nc) ∈ runs ∧ 0 < l ∧
        absorb (fuel + 1) runs start =
          absorb fuel ((runs.remove (start + l)).insert start (l + nl, crc32Combine c nc nl))
            start := by
  cases hget : runs.get start with
  | none =>
    refine .inl ⟨by simp only [absorb, hget], fun l c hmem => ?_⟩
    exact absurd rfl (get_eq_none.mp hget _ hmem)
  | some v =>
    obtain ⟨l, c⟩ := v
    have hstart := get_eq_some.mp hget
    have hall : ∀ l' c', (start, l', c') ∈ runs → l' = l := fun l' c' hmem =>
      congrArg (fun y : Nat × Nat × Nat => y.2.1) (mem_unique hmem hstart rfl)
    cases hnext : runs.firstGT start with
    | none =>
      refine .inl ⟨by simp only [absorb, hget, hnext], fun l' c' hmem z hz hlt => ?_⟩
      exact absurd (firstGT_none hnext hz) (not_le_of_gt hlt)
    | some x =>
      obtain ⟨ns, nl, nc⟩ := x
      obtain ⟨hmem, hlt, hmin⟩ := firstGT_some hnext
      by_cases htouch : ns = start + l
      · subst htouch
        refine .inr ⟨l, c, nl, nc, hstart, hmem, (h.crc _ hstart).1, ?_⟩
        simp only [absorb, hget, hnext, ne_eq, not_true_eq_false, if_false]
      · refine .inl ⟨by simp only [absorb, hget, hnext, ne_eq, htouch, not_false_eq_true, if_true],
          fun l' c' hmem' z hz hz0 heq => ?_⟩
        have hle := h.disjoint _ hstart _ hmem hlt
        have hns := hmin z hz hz0
        rw [hall l' c' hmem'] at heq
        dsimp only at hle hns
        omega

/-- What absorbing leaves of the other runs, and of the one at `start`; with a round for every run,
that one touches none above it in the end. -/
theorem absorb_settles (start : Nat) : ∀ (fuel : Nat) {runs : BTreeMap (Nat × Nat)}, Right val runs →
    (∀ y ∈ absorb fuel runs start, y.1 ≠ start → y ∈ runs) ∧
      ((∃ v, (start, v) ∈ absorb fuel runs start) → ∃ v, (start, v) ∈ runs) ∧
      (runs.entries.length ≤ fuel → ∀ l c, (start, l, c) ∈ absorb fuel runs start →
        ∀ z ∈ absorb fuel runs start, start < z.1 → start + l ≠ z.1)
  | 0, runs, _ => by
    refine ⟨fun _ hy _ => hy, fun h => h, fun hfuel l c hmem => ?_⟩
    have hnone : runs.entries = [] := eq_nil_of_length_eq_zero (Nat.le_zero.mp hfuel)
    have hmem : (start, l, c) ∈ runs.entries := hmem
    rw [hnone] at hmem
    exact absurd hmem not_mem_nil
  | fuel + 1, runs, h => by
    rcases absorb_cases h fuel start with ⟨heq, hsettled⟩ | ⟨l, c, nl, nc, hs, ht, hl, heq⟩
    · rw [heq]
      exact ⟨fun _ hy _ => hy, fun h => h, fun _ => hsettled⟩
    · have hlen := length_join hs ht (by omega) (l + nl, crc32Combine c nc nl)
      obtain ⟨hkeep, -, hlast⟩ := absorb_settles start fuel (h.join hs ht rfl).1
      rw [heq]
      refine ⟨fun y hy hne => ?_, fun _ => ⟨_, hs⟩, fun hfuel => hlast (by omega)⟩
      rcases mem_insert.mp (hkeep y hy hne) with rfl | ⟨hy, -⟩
      · exact absurd rfl hne
      · exact (mem_remove.mp hy).1

/-! ## Coalescing one fresh run of many -/

/-- Runs touch only where one of them starts at one of `keys`. -/
def ApartBut (keys : List Nat) (runs : BTreeMap (Nat × Nat)) : Prop :=
  ∀ y ∈ runs, ∀ z ∈ runs, y.1 < z.1 → y.1 + y.2.1 = z.1 → y.1 ∈ keys ∨ z.1 ∈ keys

theorem apartBut_nil : ApartBut [] runs ↔ Apart runs := by
  refine ⟨fun h y hy z hz hlt heq => ?_, fun h y hy z hz hlt heq => absurd heq (h y hy z hz hlt)⟩
  rcases h y hy z hz hlt heq with h | h <;> exact absurd h not_mem_nil

/-- After its coalescing, a run that was fresh touches nothing. -/
theorem ApartBut.coalesceAt (h : Right val runs) {s : Nat} {keys : List Nat}
    (hbut : ApartBut (s :: keys) runs) : ApartBut keys (coalesceAt runs s) := by
  unfold CrcRuns.coalesceAt
  split
  case h_1 hget =>
    intro y hy z hz hlt heq
    have hnone := get_eq_none.mp hget
    rcases hbut y hy z hz hlt heq with hk | hk
    · exact .inl ((mem_cons.mp hk).resolve_left (hnone y hy))
    · exact .inr ((mem_cons.mp hk).resolve_left (hnone z hz))
  case h_2 l c hget =>
  have hs := get_eq_some.mp hget
  split
  case h_1 ps pl pc hprev =>
    obtain ⟨hlast, htouch⟩ := Option.filter_eq_some_iff.mp hprev
    obtain ⟨hp, hplt, -⟩ := lastLT_some hlast
    have htouch : ps + pl = s := of_decide_eq_true htouch
    obtain ⟨hjoin, -⟩ := h.join hp hs htouch.symm
    set joined := (runs.remove s).insert ps (pl + l, crc32Combine pc c l)
    obtain ⟨hkeep, -, hsettled⟩ := absorb_settles ps joined.entries.length hjoin
    have hold : ∀ y ∈ absorb joined.entries.length joined ps, y.1 ≠ ps → y ∈ runs ∧ y.1 ≠ s := by
      intro y hy hne
      rcases mem_insert.mp (hkeep y hy hne) with rfl | ⟨hy, -⟩
      · exact absurd rfl hne
      · exact mem_remove.mp hy
    intro y hy z hz hlt heq
    by_cases hyp : y.1 = ps
    · obtain ⟨ys, yl, yc⟩ := y
      obtain rfl : ys = ps := hyp
      exact absurd heq (hsettled le_rfl yl yc hy z hz hlt)
    obtain ⟨hy, hys⟩ := hold y hy hyp
    by_cases hzp : z.1 = ps
    · rcases hbut y hy _ hp (hzp ▸ hlt) (hzp ▸ heq) with hk | hk
      · exact .inl ((mem_cons.mp hk).resolve_left hys)
      · exact .inr (hzp ▸ (mem_cons.mp hk).resolve_left hplt.ne)
    · obtain ⟨hz, hzs⟩ := hold z hz hzp
      rcases hbut y hy z hz hlt heq with hk | hk
      · exact .inl ((mem_cons.mp hk).resolve_left hys)
      · exact .inr ((mem_cons.mp hk).resolve_left hzs)
  case h_2 hprev =>
    obtain ⟨hkeep, -, hsettled⟩ := absorb_settles s runs.entries.length h
    -- nothing below the run touches it
    have hbelow : ∀ y ∈ runs, y.1 < s → y.1 + y.2.1 ≠ s := by
      intro y hy hys heq
      cases hlast : runs.lastLT s with
      | none => exact absurd (lastLT_none hlast hy) (by omega)
      | some x =>
        obtain ⟨hx, hxlt, hmax⟩ := lastLT_some hlast
        rw [hlast, Option.filter_eq_none_iff] at hprev
        have hno := hprev x rfl
        rw [decide_eq_true_eq] at hno
        rcases lt_or_eq_of_le (hmax y hy hys) with hlt | heq'
        · have := h.disjoint y hy x hx hlt
          omega
        · obtain rfl := mem_unique hy hx heq'
          exact hno heq
    intro y hy z hz hlt heq
    by_cases hyp : y.1 = s
    · obtain ⟨ys, yl, yc⟩ := y
      obtain rfl : ys = s := hyp
      exact absurd heq (hsettled le_rfl yl yc hy z hz hlt)
    have hy := hkeep y hy hyp
    by_cases hzp : z.1 = s
    · exact absurd (heq.trans hzp) (hbelow y hy (hzp ▸ hlt))
    · rcases hbut y hy z (hkeep z hz hzp) hlt heq with hk | hk
      · exact .inl ((mem_cons.mp hk).resolve_left hyp)
      · exact .inr ((mem_cons.mp hk).resolve_left hzp)

/-! ## Adding -/

def putFresh (off : Nat) (data : List UInt8) (runs : BTreeMap (Nat × Nat)) (g : Nat × Nat) :
    BTreeMap (Nat × Nat) :=
  runs.insert g.1 (g.2 - g.1, crc32 ((data.drop (g.1 - off)).take (g.2 - g.1)))

/-- The bytes of the fresh ranges, put among the runs. -/
theorem insertFresh (val : Nat → UInt8) (off n : Nat) : ∀ (fresh : List (Nat × Nat))
    {runs : BTreeMap (Nat × Nat)}, Right val runs → (∀ g ∈ fresh, off ≤ g.1 ∧ g.1 < g.2 ∧ g.2 ≤ off + n) →
    (fresh.Pairwise fun p q => p.2 ≤ q.1) → (∀ x, Covers fresh x → ¬ Has runs x) →
    Right val (fresh.foldl (putFresh off (Wire.slice val off n)) runs) ∧
      (∀ x, Has (fresh.foldl (putFresh off (Wire.slice val off n)) runs) x ↔
        Has runs x ∨ Covers fresh x) ∧
      ∀ keys, ApartBut keys runs →
        ApartBut (fresh.map (·.1) ++ keys) (fresh.foldl (putFresh off (Wire.slice val off n)) runs)
  | [], runs, h, _, _, _ => ⟨h, fun x => by simp, fun keys hbut => hbut⟩
  | g :: fresh, runs, h, hin, hsorted, hfree => by
    obtain ⟨hlo, hne, hhi⟩ := hin g (.head _)
    obtain ⟨hafter, hsorted⟩ := pairwise_cons.mp hsorted
    have hcrc : crc32 (((slice val off n).drop (g.1 - off)).take (g.2 - g.1)) =
        crc32 (slice val g.1 (g.2 - g.1)) := by
      rw [take_drop_slice (by omega), Nat.add_sub_cancel' hlo]
    obtain ⟨hright, hhas⟩ := h.insert (s := g.1) (Nat.sub_pos_of_lt hne) hcrc fun x hxlo hxhi =>
      hfree x (covers_cons.mpr (.inl ⟨hxlo, by omega⟩))
    have hrest : ∀ x, Covers fresh x → g.2 ≤ x := fun x ⟨iv, hiv, hx, _⟩ => (hafter iv hiv).trans hx
    obtain ⟨hright', hhas', hbut'⟩ := insertFresh val off n fresh hright
      (fun g' hg' => hin g' (.tail _ hg')) hsorted fun x hx hhasx => by
        rcases (hhas x).mp hhasx with hold | hnew
        · exact hfree x (covers_cons.mpr (.inr hx)) hold
        · have := hrest x hx
          omega
    refine ⟨hright', fun x => ?_, fun keys hbut => ?_⟩
    · refine (hhas' x).trans ((or_congr_left (hhas x)).trans ?_)
      rw [covers_cons, or_assoc, Nat.add_sub_cancel' hne.le]
    · have hone : ApartBut (g.1 :: keys) (runs.insert g.1 (g.2 - g.1,
          crc32 (((slice val off n).drop (g.1 - off)).take (g.2 - g.1)))) := by
        intro y hy z hz hlt heq
        rcases mem_insert.mp hy with rfl | ⟨hy, -⟩
        · exact .inl (.head _)
        · rcases mem_insert.mp hz with rfl | ⟨hz, -⟩
          · exact .inr (.head _)
          · exact (hbut y hy z hz hlt heq).imp (mem_cons_of_mem _) (mem_cons_of_mem _)
      have hall := hbut' _ hone
      intro y hy z hz hlt heq
      have hkeys : ∀ k, k ∈ fresh.map (·.1) ++ g.1 :: keys → k ∈ g.1 :: (fresh.map (·.1) ++ keys) := by
        intro k hk
        rw [mem_append, mem_cons] at hk
        rw [mem_cons, mem_append]
        tauto
      exact (hall y hy z hz hlt heq).imp (hkeys _) (hkeys _)

theorem coalesceFresh : ∀ (keys : List Nat) {runs : BTreeMap (Nat × Nat)}, Right val runs →
    Right val (keys.foldl coalesceAt runs) ∧
      (∀ x, Has (keys.foldl coalesceAt runs) x ↔ Has runs x) ∧
      (ApartBut keys runs → Apart (keys.foldl coalesceAt runs))
  | [], runs, h => ⟨h, fun _ => .rfl, fun hbut => apartBut_nil.mp hbut⟩
  | s :: keys, runs, h => by
    obtain ⟨hright, hhas⟩ := h.coalesceAt s
    obtain ⟨hright', hhas', hapart⟩ := coalesceFresh keys hright
    exact ⟨hright', fun x => (hhas' x).trans (hhas x), fun hbut => hapart (hbut.coalesceAt h)⟩

/-- `add` of the map's own bytes: the runs have them too. -/
theorem add_spec {r : CrcRuns} (h : Right val r.runs) (off n : Nat) :
    Right val (r.add off (Wire.slice val off n)).runs ∧
      (∀ x, Has (r.add off (Wire.slice val off n)).runs x ↔ Has r.runs x ∨ (off ≤ x ∧ x < off + n)) ∧
      (Apart r.runs → Apart (r.add off (Wire.slice val off n)).runs) ∧
      (r.add off (Wire.slice val off n)).stale = r.stale := by
  unfold add
  split
  case isTrue hnil =>
    have hn : n = 0 := by
      rw [← length_slice (c := val) (s := off) (n := n), hnil]
      rfl
    refine ⟨h, fun x => ⟨.inl, fun hx => hx.resolve_right (by omega)⟩, id, rfl⟩
  case isFalse =>
    rw [length_slice]
    obtain ⟨hin, hsorted, hcov⟩ := gaps_ranges r.runs off (off + n)
    obtain ⟨hright, hhas, hbut⟩ := insertFresh val off n _ h hin hsorted
      fun x hx => ((hcov x).mp hx).2.2
    obtain ⟨hright', hhas', hapart⟩ := coalesceFresh
      ((gaps (ranges r.runs (off + n)) off (off + n)).map (·.1)) hright
    refine ⟨hright', fun x => ?_, fun ha => hapart ?_, rfl⟩
    · refine (hhas' x).trans ((hhas x).trans ?_)
      rw [hcov]
      tauto
    · have hkeys := hbut [] (apartBut_nil.mpr ha)
      rwa [append_nil] at hkeys

/-! ## Overwriting -/

theorem mem_removeAll {y : Nat × Nat × Nat} : ∀ {hit : List (Nat × Nat × Nat)}
    {runs : BTreeMap (Nat × Nat)}, y ∈ hit.foldl (fun runs x => runs.remove x.1) runs ↔
      y ∈ runs ∧ ∀ x ∈ hit, y.1 ≠ x.1
  | [], runs => by simp
  | x :: hit, runs => by
    rw [foldl_cons, mem_removeAll, mem_remove, forall_mem_cons, and_assoc]

/-- Runs that are right of a map that changes where none of them is. -/
theorem Right.change {val' : Nat → UInt8} (h : Right val runs)
    (hsame : ∀ x, Has runs x → val' x = val x) : Right val' runs := by
  refine ⟨fun y hy => ?_, h.disjoint⟩
  obtain ⟨hpos, hcrc⟩ := h.crc y hy
  refine ⟨hpos, hcrc.trans ?_⟩
  rw [slice_congr fun x hlo hhi => (hsame x ⟨y, hy, hlo, hhi⟩).symm]

/-- `overwrite` with the bytes of a map that differs only there: the runs have the span, and what a
run had outside is with a run or stale. -/
theorem overwrite_spec {r : CrcRuns} (h : Right val r.runs) (val' : Nat → UInt8) (off n : Nat)
    (hsame : ∀ x, x < off ∨ off + n ≤ x → val' x = val x) :
    Right val' (r.overwrite off (Wire.slice val' off n)).runs ∧
      (Apart r.runs → Apart (r.overwrite off (Wire.slice val' off n)).runs) ∧
      (∀ x, Has (r.overwrite off (Wire.slice val' off n)).runs x ∨
          Covers (r.overwrite off (Wire.slice val' off n)).stale x →
        Has r.runs x ∨ Covers r.stale x ∨ (off ≤ x ∧ x < off + n)) ∧
      ∀ x, Has r.runs x ∨ Covers r.stale x ∨ (off ≤ x ∧ x < off + n) →
        Has (r.overwrite off (Wire.slice val' off n)).runs x ∨
          Covers (r.overwrite off (Wire.slice val' off n)).stale x := by
  unfold overwrite
  split
  case isTrue hnil =>
    have hn : n = 0 := by
      rw [← length_slice (c := val') (s := off) (n := n), hnil]
      rfl
    have hval : val' = val := funext fun x => hsame x (by omega)
    refine ⟨hval ▸ h, id, fun x hx => hx.imp_right .inl, fun x hx => ?_⟩
    rcases hx with hx | hx | hx
    · exact .inl hx
    · exact .inr hx
    · omega
  case isFalse =>
    dsimp only
    rw [length_slice]
    generalize hhit : (r.runs.range 0 (off + n)).filter (fun x => decide (off < x.1 + x.2.1)) = hit
    have hmem : ∀ y, y ∈ hit ↔ y ∈ r.runs ∧ y.1 < off + n ∧ off < y.1 + y.2.1 := fun y => by
      rw [← hhit, List.mem_filter, mem_range, decide_eq_true_eq]
      constructor
      · rintro ⟨⟨hy, -, hlt⟩, hgt⟩
        exact ⟨hy, hlt, hgt⟩
      · rintro ⟨hy, hlt, hgt⟩
        exact ⟨⟨hy, Nat.zero_le _, hlt⟩, hgt⟩
    generalize hleft : hit.foldl (fun runs x => remove runs x.1) r.runs = left
    have hkept : ∀ y, y ∈ left ↔ y ∈ r.runs ∧ (off + n ≤ y.1 ∨ y.1 + y.2.1 ≤ off) := fun y => by
      rw [← hleft, mem_removeAll]
      refine and_congr_right fun hy => ⟨fun hno => ?_, fun hout x hx heq => ?_⟩
      · by_contra hin
        exact hno y ((hmem y).mpr ⟨hy, by omega, by omega⟩) rfl
      · obtain ⟨hx, hlt, hgt⟩ := (hmem x).mp hx
        obtain rfl := mem_unique hy hx heq
        omega
    have hright : Right val' left := by
      have hold : Right val left := ⟨fun y hy => h.crc y ((hkept y).mp hy).1, fun y hy z hz =>
        h.disjoint y ((hkept y).mp hy).1 z ((hkept z).mp hz).1⟩
      refine hold.change fun x ⟨y, hy, hlo, hhi⟩ => hsame x ?_
      have := ((hkept y).mp hy).2
      omega
    obtain ⟨hadd, hhas, hapart, hstale⟩ := add_spec (r := { r with
      runs := left
      stale := r.stale ++ hit.flatMap fun x =>
        (if x.1 < off then [(x.1, off)] else []) ++
          if off + n < x.1 + x.2.1 then [(off + n, x.1 + x.2.1)] else [] }) hright off n
    refine ⟨hadd, fun ha => hapart fun y hy z hz => ?_, fun x hx => ?_, fun x hx => ?_⟩
    · exact ha y ((hkept y).mp hy).1 z ((hkept z).mp hz).1
    · rw [hhas, hstale, covers_append] at hx
      rcases hx with (⟨y, hy, hin⟩ | hx) | hx | ⟨iv, hiv, hlo, hhi⟩
      · exact .inl ⟨y, ((hkept y).mp hy).1, hin⟩
      · exact .inr (.inr hx)
      · exact .inr (.inl hx)
      · obtain ⟨y, hy, hiv⟩ := mem_flatMap.mp hiv
        refine .inl ⟨y, ((hmem y).mp hy).1, ?_⟩
        have := (hmem y).mp hy
        rcases mem_append.mp hiv with hiv | hiv
        · split at hiv
          · obtain rfl := mem_singleton.mp hiv
            omega
          · cases hiv
        · split at hiv
          · obtain rfl := mem_singleton.mp hiv
            omega
          · cases hiv
    · rw [hhas, hstale, covers_append]
      rcases hx with ⟨y, hy, hlo, hhi⟩ | hx | hx
      · by_cases hspan : off ≤ x ∧ x < off + n
        · exact .inl (.inr hspan)
        by_cases hout : off + n ≤ y.1 ∨ y.1 + y.2.1 ≤ off
        · exact .inl (.inl ⟨y, (hkept y).mpr ⟨hy, hout⟩, hlo, hhi⟩)
        · have hyhit : y ∈ hit := (hmem y).mpr ⟨hy, by omega, by omega⟩
          refine .inr (.inr ?_)
          rcases lt_or_ge x off with hx | hx
          · refine ⟨(y.1, off), mem_flatMap.mpr ⟨y, hyhit, ?_⟩, hlo, hx⟩
            rw [if_pos (by omega)]
            exact mem_append_left _ (.head _)
          · refine ⟨(off + n, y.1 + y.2.1), mem_flatMap.mpr ⟨y, hyhit, ?_⟩, ?_, hhi⟩
            swap
            · dsimp only
              omega
            rw [if_pos (by omega : off + n < y.1 + y.2.1)]
            exact mem_append_right _ (.head _)
      · exact .inr (.inl hx)
      · exact .inl (.inr hx)

/-! ## Stale gaps -/

/-- The gaps so far, of the stale ranges so far. -/
structure Gaps (runs : BTreeMap (Nat × Nat)) (stale out : List (Nat × Nat)) : Prop where
  nonempty : ∀ g ∈ out, g.1 < g.2
  sorted : out.Pairwise fun p q => p.2 ≤ q.1
  within : ∀ g ∈ out, ∃ iv ∈ stale, g.2 ≤ iv.2
  covers : ∀ x, Covers out x ↔ Covers stale x ∧ ¬ Has runs x

theorem Gaps.step {stale out : List (Nat × Nat)} (h : Gaps runs stale out) {iv : Nat × Nat}
    (hlast : ∀ iv' ∈ stale, iv'.1 ≤ iv.1) : Gaps runs (stale ++ [iv]) (staleStep runs out iv) := by
  -- where the last gap ended, every byte of the range below is in a gap or a run
  have hstart : ∃ s, staleStep runs out iv = out ++ gaps (ranges runs iv.2) s iv.2 ∧ iv.1 ≤ s ∧
      (∀ g ∈ out, g.2 ≤ s) ∧ ∀ x, iv.1 ≤ x → x < s → Covers stale x := by
    unfold staleStep
    cases hout : out.getLast? with
    | none =>
      obtain rfl : out = [] := getLast?_eq_none_iff.mp hout
      exact ⟨iv.1, rfl, le_rfl, by simp, fun x hlo hhi => absurd hhi (by omega)⟩
    | some last =>
      obtain ⟨front, rfl⟩ := getLast?_eq_some_iff.mp hout
      have hbefore : ∀ g ∈ front ++ [last], g.2 ≤ last.2 := by
        intro g hg
        rcases mem_append.mp hg with hg | hg
        · have := (pairwise_append.mp h.sorted).2.2 g hg last (.head _)
          have := h.nonempty last (mem_append_right _ (.head _))
          omega
        · exact (mem_singleton.mp hg) ▸ le_rfl
      obtain ⟨iv', hiv', hle⟩ := h.within last (mem_append_right _ (.head _))
      dsimp only
      split
      case isTrue hlt =>
        exact ⟨last.2, rfl, hlt.le, hbefore, fun x hlo hhi =>
          ⟨iv', hiv', (hlast iv' hiv').trans hlo, hhi.trans_le hle⟩⟩
      case isFalse hge =>
        exact ⟨iv.1, rfl, le_rfl, fun g hg => (hbefore g hg).trans (not_lt.mp hge),
          fun x hlo hhi => absurd hhi (by omega)⟩
  obtain ⟨s, heq, hs, hends, hbelow⟩ := hstart
  obtain ⟨hin, hsorted, hcov⟩ := gaps_ranges runs s iv.2
  rw [heq]
  refine ⟨fun g hg => ?_, pairwise_append.mpr ⟨h.sorted, hsorted, fun g hg g' hg' => ?_⟩,
    fun g hg => ?_, fun x => ?_⟩
  · exact (mem_append.mp hg).elim (h.nonempty g) fun hg => (hin g hg).2.1
  · exact (hends g hg).trans (hin g' hg').1
  · rcases mem_append.mp hg with hg | hg
    · obtain ⟨iv', hiv', hle⟩ := h.within g hg
      exact ⟨iv', mem_append_left _ hiv', hle⟩
    · exact ⟨iv, mem_append_right _ (.head _), (hin g hg).2.2⟩
  · rw [covers_append, covers_append, h.covers, hcov, covers_cons]
    have hnil := covers_nil x
    constructor
    · rintro (⟨hx, hno⟩ | ⟨hlo, hhi, hno⟩)
      · exact ⟨.inl hx, hno⟩
      · exact ⟨.inr (.inl ⟨hs.trans hlo, hhi⟩), hno⟩
    · rintro ⟨hx | (⟨hlo, hhi⟩ | hx), hno⟩
      · exact .inl ⟨hx, hno⟩
      · rcases lt_or_ge x s with hlt | hge
        · exact .inl ⟨hbelow x hlo hlt, hno⟩
        · exact .inr ⟨hge, hhi, hno⟩
      · exact absurd hx hnil

/-- The gaps of `take_stale_gaps` keep off each other and are what no run has of the stale ranges. -/
theorem takeStaleGaps_spec (r : CrcRuns) : r.takeStaleGaps.1.runs = r.runs ∧
    r.takeStaleGaps.1.stale = [] ∧ (∀ g ∈ r.takeStaleGaps.2, g.1 < g.2) ∧
    (r.takeStaleGaps.2.Pairwise fun p q => p.2 ≤ q.1) ∧
    ∀ x, Covers r.takeStaleGaps.2 x ↔ Covers r.stale x ∧ ¬ Has r.runs x := by
  have hfold : ∀ (l done out : List (Nat × Nat)), (done ++ l).Pairwise (fun p q => p.1 ≤ q.1) →
      Gaps r.runs done out → Gaps r.runs (done ++ l) (l.foldl (staleStep r.runs) out) := by
    intro l
    induction l with
    | nil =>
      intro done out _ h
      rwa [append_nil]
    | cons iv l ih =>
      intro done out hsorted h
      have hlast := fun iv' hiv' =>
        (pairwise_append.mp hsorted).2.2 iv' hiv' iv (.head _)
      have hsplit : done ++ iv :: l = (done ++ [iv]) ++ l := by
        rw [append_assoc, singleton_append]
      rw [hsplit] at hsorted ⊢
      exact ih _ _ hsorted (h.step hlast)
  have hperm := perm_insertionSort (fun p q : Nat × Nat => p.1 < q.1 ∨ (p.1 = q.1 ∧ p.2 ≤ q.2))
    r.stale
  have h := hfold _ [] [] (sorted_starts r.stale) ⟨by simp, .nil, by simp, fun x => by simp⟩
  refine ⟨rfl, rfl, h.nonempty, h.sorted, fun x => (h.covers x).trans (and_congr_left fun _ => ?_)⟩
  exact covers_perm hperm

end CrcRuns

/-! ## The runs of a content -/

/-- What is done to the runs: bytes added, a run added, a range overwritten, or a round over the stale
gaps in which some are computed again. -/
inductive Feed where
  | add (off n : Nat)
  | addRun (off n : Nat)
  | overwrite (off : Nat) (data : List UInt8)
  | round (again : Nat × Nat → Bool)

/-- The range lies in a content of length `len`. -/
def Feed.Fits (len : Nat) : Feed → Prop
  | .add off n => off + n ≤ len
  | .addRun off n => off + n ≤ len
  | .overwrite off data => off + data.length ≤ len
  | .round _ => True

/-- A content and its runs, with the bytes delivered so far and those of gaps that a round left out
and nothing delivered since. -/
structure Composed where
  content : List UInt8
  runs : CrcRuns := {}
  delivered : Set Nat := ∅
  leftOut : Set Nat := ∅

namespace Composed

def part (s : Composed) (off n : Nat) : List UInt8 := (s.content.drop off).take n

def land (s : Composed) (runs : CrcRuns) (off n : Nat) : Composed :=
  { s with
    runs
    delivered := s.delivered ∪ Set.Ico off (off + n)
    leftOut := s.leftOut \ Set.Ico off (off + n) }

def refill (again : Nat × Nat → Bool) (s : Composed) (g : Nat × Nat) : Composed :=
  let r := s.runs.addRun g.1 (g.2 - g.1) (crc32 (s.part g.1 (g.2 - g.1)))
  if again g && r.2 then s.land r.1 g.1 (g.2 - g.1)
  else { s with leftOut := s.leftOut ∪ Set.Ico g.1 g.2 }

def step (s : Composed) : Feed → Composed
  | .add off n => s.land (s.runs.add off (s.part off n)) off n
  | .addRun off n =>
    let r := s.runs.addRun off n (crc32 (s.part off n))
    if r.2 then s.land r.1 off n else s
  | .overwrite off data =>
    let content := s.content.take off ++ data ++ s.content.drop (off + data.length)
    { s with content }.land (s.runs.overwrite off data) off data.length
  | .round again =>
    let t := s.runs.takeStaleGaps
    t.2.foldl (refill again) { s with runs := t.1 }

def run (content : List UInt8) (feeds : List Feed) : Composed := feeds.foldl step { content }

open CrcRuns (Has Right Apart)

/-- What holds between two feeds, with gaps still to come in a round. -/
structure Inv (s : Composed) (rest : List (Nat × Nat)) : Prop where
  right : Right (ofBytes s.content) s.runs.runs
  apart : Apart s.runs.runs
  inside : ∀ x, Has s.runs.runs x ∨ Covers s.runs.stale x ∨ Covers rest x → x ∈ s.delivered
  bounded : ∀ x ∈ s.delivered, x < s.content.length
  accounted : ∀ x ∈ s.delivered,
    Has s.runs.runs x ∨ Covers s.runs.stale x ∨ Covers rest x ∨ x ∈ s.leftOut

theorem part_eq {s : Composed} {off n : Nat} (h : off + n ≤ s.content.length) :
    s.part off n = Wire.slice (ofBytes s.content) off n := take_drop_eq_slice h

theorem Inv.land {s : Composed} {rest rest' : List (Nat × Nat)} (h : s.Inv rest) {runs : CrcRuns}
    {off n : Nat} (hfit : off + n ≤ s.content.length) (hright : Right (ofBytes s.content) runs.runs)
    (hapart : Apart runs.runs)
    (hhas : ∀ x, Has runs.runs x ↔ Has s.runs.runs x ∨ (off ≤ x ∧ x < off + n))
    (hstale : runs.stale = s.runs.stale)
    (hrest : ∀ x, Covers rest x → Covers rest' x ∨ (off ≤ x ∧ x < off + n))
    (hrest' : ∀ x, Covers rest' x → Covers rest x) : (s.land runs off n).Inv rest' := by
  refine ⟨hright, hapart, fun x hx => ?_, fun x hx => ?_, fun x hx => ?_⟩
  · change x ∈ s.delivered ∪ Set.Ico off (off + n)
    change Has runs.runs x ∨ Covers runs.stale x ∨ Covers rest' x at hx
    rw [hhas, hstale] at hx
    rcases hx with (hx | hx) | hx | hx
    · exact .inl (h.inside x (.inl hx))
    · exact .inr hx
    · exact .inl (h.inside x (.inr (.inl hx)))
    · exact .inl (h.inside x (.inr (.inr (hrest' x hx))))
  · rcases hx with hx | hx
    · exact h.bounded x hx
    · exact hx.2.trans_le hfit
  · change Has runs.runs x ∨ Covers runs.stale x ∨ Covers rest' x ∨
      x ∈ s.leftOut \ Set.Ico off (off + n)
    rw [hhas, hstale]
    by_cases hin : off ≤ x ∧ x < off + n
    · exact .inl (.inr hin)
    · rcases h.accounted x (hx.resolve_right hin) with hx | hx | hx | hx
      · exact .inl (.inl hx)
      · exact .inr (.inl hx)
      · exact .inr (.inr (.inl ((hrest x hx).resolve_right hin)))
      · exact .inr (.inr (.inr ⟨hx, hin⟩))

/-- A gap of a round, computed again or left out. -/
theorem Inv.refill {s : Composed} {g : Nat × Nat} {rest : List (Nat × Nat)} (h : s.Inv (g :: rest))
    (hg : g.1 < g.2) (hfree : ∀ x, g.1 ≤ x → x < g.2 → ¬ Has s.runs.runs x)
    (again : Nat × Nat → Bool) : (s.refill again g).Inv rest ∧
      (s.refill again g).content = s.content ∧
      ∀ x, Has (s.refill again g).runs.runs x → Has s.runs.runs x ∨ (g.1 ≤ x ∧ x < g.2) := by
  have hend := Nat.add_sub_cancel' hg.le
  have hfit : g.1 + (g.2 - g.1) ≤ s.content.length := by
    have hlast := h.inside (g.2 - 1) (.inr (.inr (covers_cons.mpr (.inl (by omega)))))
    have := h.bounded _ hlast
    omega
  have hcrc := congrArg crc32 (part_eq hfit)
  obtain ⟨-, hright, hhas, hapart⟩ := CrcRuns.addRun_spec h.right (Nat.sub_pos_of_lt hg) hcrc
    fun x hlo hhi => hfree x hlo (by omega)
  unfold Composed.refill
  dsimp only
  split
  · refine ⟨h.land hfit hright (hapart h.apart) hhas ?_ (fun x hx => ?_) fun x hx => ?_, rfl,
      fun x hx => ?_⟩
    · unfold CrcRuns.addRun
      split
      · rfl
      · split <;> rfl
    · rw [hend]
      exact (covers_cons.mp hx).symm
    · exact covers_cons.mpr (.inr hx)
    · have := (hhas x).mp hx
      rwa [hend] at this
  · refine ⟨⟨h.right, h.apart, fun x hx => h.inside x ?_, h.bounded, fun x hx => ?_⟩, rfl,
      fun x hx => .inl hx⟩
    · exact hx.imp_right fun hx => hx.imp_right fun hx => covers_cons.mpr (.inr hx)
    · rcases h.accounted x hx with hx | hx | hx | hx
      · exact .inl hx
      · exact .inr (.inl hx)
      · rcases covers_cons.mp hx with hx | hx
        · exact .inr (.inr (.inr (.inr hx)))
        · exact .inr (.inr (.inl hx))
      · exact .inr (.inr (.inr (.inl hx)))

/-- The gaps of a round, one after the other. -/
theorem Inv.refills (again : Nat × Nat → Bool) : ∀ {gaps : List (Nat × Nat)} {s : Composed},
    s.Inv gaps → (∀ g ∈ gaps, g.1 < g.2) → (gaps.Pairwise fun p q => p.2 ≤ q.1) →
    (∀ x, Covers gaps x → ¬ Has s.runs.runs x) →
    (gaps.foldl (Composed.refill again) s).Inv [] ∧
      (gaps.foldl (Composed.refill again) s).content = s.content
  | [], _, h, _, _, _ => ⟨h, rfl⟩
  | g :: gaps, s, h, hne, hsorted, hfree => by
    obtain ⟨hafter, hsorted⟩ := pairwise_cons.mp hsorted
    obtain ⟨hinv, hcontent, hhas⟩ := h.refill (hne g (.head _))
      (fun x hlo hhi => hfree x (covers_cons.mpr (.inl ⟨hlo, hhi⟩))) again
    obtain ⟨hinv', hcontent'⟩ := Inv.refills again hinv
      (fun g' hg' => hne g' (.tail _ hg')) hsorted fun x hx hin => by
        rcases hhas x hin with hin | hin
        · exact hfree x (covers_cons.mpr (.inr hx)) hin
        · obtain ⟨g', hg', hlo, -⟩ := hx
          have := hafter g' hg'
          omega
    exact ⟨hinv', hcontent'.trans hcontent⟩

theorem ofBytes_splice {content data : List UInt8} {off : Nat}
    (h : off + data.length ≤ content.length) :
    ofBytes (content.take off ++ data ++ content.drop (off + data.length)) = fun x =>
      if off ≤ x ∧ x < off + data.length then data.getD (x - off) 0 else ofBytes content x := by
  funext x
  simp only [ofBytes, getD_eq_getElem?_getD, append_assoc]
  have htake : (content.take off).length = off := length_take_of_le (by omega)
  rcases lt_or_ge x off with hx | hx
  · rw [getElem?_append_left (by omega), getElem?_take, if_pos hx, if_neg (by omega)]
  · rw [getElem?_append_right (by omega), htake]
    rcases lt_or_ge x (off + data.length) with hx' | hx'
    · rw [getElem?_append_left (by omega), if_pos ⟨hx, hx'⟩]
    · rw [getElem?_append_right (by omega), getElem?_drop, if_neg (by omega)]
      congr 2
      omega

theorem Inv.step {s : Composed} (h : s.Inv []) {f : Feed} (hfit : f.Fits s.content.length) :
    (s.step f).Inv [] ∧ (s.step f).content.length = s.content.length := by
  cases f with
  | add off n =>
    have hspec := CrcRuns.add_spec h.right off n
    rw [← part_eq hfit] at hspec
    obtain ⟨hright, hhas, hapart, hstale⟩ := hspec
    exact ⟨h.land hfit hright (hapart h.apart) hhas hstale (fun x hx => .inl hx) fun x hx => hx, rfl⟩
  | addRun off n =>
    unfold Composed.step
    dsimp only
    split
    case isFalse => exact ⟨h, rfl⟩
    case isTrue htaken =>
      -- a run is taken only where there is none
      have hpos : 0 < n := by
        by_contra hn
        rw [CrcRuns.addRun, if_pos (by omega)] at htaken
        cases htaken
      have hfree : ∀ x, off ≤ x → x < off + n → ¬ Has s.runs.runs x := by
        rintro x hlo hhi ⟨y, hy, hylo, hyhi⟩
        have hany : ((s.runs.runs.range 0 (off + n)).any fun x => decide (off < x.1 + x.2.1)) = true :=
          any_eq_true.mpr ⟨y, mem_range.mpr ⟨hy, Nat.zero_le _, by omega⟩,
            decide_eq_true (by omega)⟩
        rw [CrcRuns.addRun, if_neg (by omega), if_pos hany] at htaken
        cases htaken
      obtain ⟨-, hright, hhas, hapart⟩ := CrcRuns.addRun_spec h.right hpos
        (congrArg crc32 (part_eq hfit)) hfree
      refine ⟨h.land hfit hright (hapart h.apart) hhas ?_ (fun x hx => .inl hx) fun x hx => hx, rfl⟩
      unfold CrcRuns.addRun
      split
      · rfl
      · split <;> rfl
  | overwrite off data =>
    have hfit : off + data.length ≤ s.content.length := hfit
    have hval := ofBytes_splice hfit
    set content := s.content.take off ++ data ++ s.content.drop (off + data.length) with hcontent
    have hlen : content.length = s.content.length := by
      rw [hcontent, length_append, length_append, length_take, length_drop]
      omega
    have hdata : data = slice (ofBytes content) off data.length := by
      refine eq_slice rfl fun i hi => ?_
      rw [hval]
      dsimp only
      rw [if_pos (by omega), Nat.add_sub_cancel_left, getElem?_eq_getElem hi,
        getD_eq_getElem?_getD, getElem?_eq_getElem hi, Option.getD_some]
    have hspec := CrcRuns.overwrite_spec h.right (ofBytes content) off data.length
      fun x hx => by
        rw [hval]
        dsimp only
        rw [if_neg (by omega)]
    rw [← hdata] at hspec
    obtain ⟨hright, hapart, hhas, hkept⟩ := hspec
    refine ⟨⟨hright, hapart h.apart, fun x hx => ?_, fun x hx => ?_, fun x hx => ?_⟩, hlen⟩
    · change x ∈ s.delivered ∪ Set.Ico off (off + data.length)
      have hold := hhas x (hx.imp_right fun hx => hx.resolve_right (covers_nil x))
      rcases hold with hx | hx | hx
      · exact .inl (h.inside x (.inl hx))
      · exact .inl (h.inside x (.inr (.inl hx)))
      · exact .inr hx
    · rcases hx with hx | hx
      · exact (h.bounded x hx).trans_eq hlen.symm
      · exact hx.2.trans_le (hfit.trans_eq hlen.symm)
    · change Has (s.runs.overwrite off data).runs x ∨ Covers (s.runs.overwrite off data).stale x ∨
        Covers [] x ∨ x ∈ s.leftOut \ Set.Ico off (off + data.length)
      by_cases hin : off ≤ x ∧ x < off + data.length
      · exact (hkept x (.inr (.inr hin))).imp_right .inl
      · rcases h.accounted x (hx.resolve_right hin) with hx | hx | hx | hx
        · exact (hkept x (.inl hx)).imp_right .inl
        · exact (hkept x (.inr (.inl hx))).imp_right .inl
        · exact absurd hx (covers_nil x)
        · exact .inr (.inr (.inr ⟨hx, hin⟩))
  | round again =>
    obtain ⟨hruns, hstale, hne, hsorted, hcov⟩ := CrcRuns.takeStaleGaps_spec s.runs
    have hstart : Inv { s with runs := s.runs.takeStaleGaps.1 } s.runs.takeStaleGaps.2 := by
      refine ⟨h.right, h.apart, fun x hx => h.inside x ?_, h.bounded, fun x hx => ?_⟩
      · rcases hx with hx | hx | hx
        · exact .inl hx
        · exact absurd hx (covers_nil x)
        · exact .inr (.inl ((hcov x).mp hx).1)
      · change Has s.runs.runs x ∨ Covers [] x ∨ Covers s.runs.takeStaleGaps.2 x ∨ x ∈ s.leftOut
        rw [hcov]
        have := h.accounted x hx
        tauto
    obtain ⟨hinv, hcontent⟩ := Inv.refills again hstart hne hsorted fun x hx => ((hcov x).mp hx).2
    exact ⟨hinv, congrArg length hcontent⟩

theorem Inv.run {s : Composed} (h : s.Inv []) {feeds : List Feed}
    (hfit : ∀ f ∈ feeds, f.Fits s.content.length) :
    (feeds.foldl Composed.step s).Inv [] ∧
      (feeds.foldl Composed.step s).content.length = s.content.length := by
  induction feeds generalizing s with
  | nil => exact ⟨h, rfl⟩
  | cons f feeds ih =>
    obtain ⟨hinv, hlen⟩ := h.step (hfit f (.head _))
    obtain ⟨hinv', hlen'⟩ := ih hinv fun f' hf' => hlen ▸ hfit f' (.tail _ hf')
    exact ⟨hinv', hlen'.trans hlen⟩

theorem Inv.start (content : List UInt8) : Inv { content } [] := by
  have hempty : ∀ y : Nat × Nat × Nat, y ∉ (empty : BTreeMap (Nat × Nat)) :=
    fun y => not_mem_empty y
  refine ⟨⟨fun y hy => absurd hy (hempty y), fun y hy => absurd hy (hempty y)⟩,
    fun y hy => absurd hy (hempty y), fun x hx => ?_, fun x hx => absurd hx id,
    fun x hx => absurd hx id⟩
  rcases hx with ⟨y, hy, -⟩ | hx | hx
  · exact absurd hy (hempty y)
  · exact absurd hx (covers_nil x)
  · exact absurd hx (covers_nil x)

/-! ## What the runs say -/

theorem Inv.run_within {s : Composed} (h : s.Inv []) {y : Nat × Nat × Nat} (hy : y ∈ s.runs.runs) :
    0 < y.2.1 ∧ y.1 + y.2.1 ≤ s.content.length ∧ y.2.2 = crc32 (s.part y.1 y.2.1) := by
  obtain ⟨hpos, hcrc⟩ := h.right.crc y hy
  have hfit : y.1 + y.2.1 ≤ s.content.length := by
    have hlast := h.inside (y.1 + y.2.1 - 1) (.inl ⟨y, hy, by omega, by omega⟩)
    have := h.bounded _ hlast
    omega
  exact ⟨hpos, hfit, by rw [part_eq hfit, hcrc]⟩

theorem Inv.whole_sound {s : Composed} (h : s.Inv []) {len c : Nat}
    (hwhole : s.runs.whole len = some c) : len ≤ s.content.length ∧ c = crc32 (s.content.take len) := by
  unfold CrcRuns.whole at hwhole
  split at hwhole
  case h_2 => cases hwhole
  case h_1 l c' hone =>
    split at hwhole
    case isFalse => cases hwhole
    case isTrue hl =>
      cases hwhole
      subst hl
      have hmem : (0, l, c) ∈ s.runs.runs.entries := hone ▸ (.head _)
      obtain ⟨-, hfit, hcrc⟩ := h.run_within hmem
      rw [zero_add] at hfit
      exact ⟨hfit, hcrc⟩

theorem Inv.whole_complete {s : Composed} (h : s.Inv []) {len : Nat} (hlen : 0 < len)
    (hall : ∀ x, x ∈ s.delivered ↔ x < len) (hleft : s.leftOut = ∅)
    (hgaps : s.runs.takeStaleGaps.2 = []) : s.runs.whole len = some (crc32 (s.content.take len)) := by
  obtain ⟨-, -, -, -, hcov⟩ := CrcRuns.takeStaleGaps_spec s.runs
  have hhas : ∀ x, Has s.runs.runs x ↔ x < len := by
    intro x
    refine ⟨fun hx => (hall x).mp (h.inside x (.inl hx)), fun hx => ?_⟩
    by_contra hno
    rcases h.accounted x ((hall x).mpr hx) with hx | hx | hx | hx
    · exact hno hx
    · have hgap := (hcov x).mpr ⟨hx, hno⟩
      rw [hgaps] at hgap
      exact covers_nil x hgap
    · exact covers_nil x hx
    · rw [hleft] at hx
      exact hx
  have hfit : 0 + len ≤ s.content.length := by
    have := h.bounded (len - 1) ((hall _).mpr (by omega))
    omega
  rw [CrcRuns.whole_eq h.right h.apart hlen hhas, ← part_eq hfit]
  rfl

end Composed

/-- Whatever is done to the runs of a content, they are sorted, keep apart and are the CRCs of its
current bytes, and so is `whole`; and `whole` answers for a prefix that is not empty once every byte
of it and no other was delivered and no gap is left. -/
theorem runs_speak (content : List UInt8) (feeds : List Feed)
    (hfit : ∀ f ∈ feeds, f.Fits content.length) :
    (Composed.run content feeds).content.length = content.length ∧
    ((Composed.run content feeds).runs.runs.entries.Pairwise fun y z => y.1 + y.2.1 < z.1) ∧
    (∀ y ∈ (Composed.run content feeds).runs.runs, 0 < y.2.1 ∧ y.1 + y.2.1 ≤ content.length ∧
      y.2.2 = crc32 ((Composed.run content feeds).part y.1 y.2.1)) ∧
    (∀ len c, (Composed.run content feeds).runs.whole len = some c →
      len ≤ content.length ∧ c = crc32 ((Composed.run content feeds).content.take len)) ∧
    ∀ len, 0 < len → (∀ x, x ∈ (Composed.run content feeds).delivered ↔ x < len) →
      (Composed.run content feeds).leftOut = ∅ →
      (Composed.run content feeds).runs.takeStaleGaps.2 = [] →
      (Composed.run content feeds).runs.whole len =
        some (crc32 ((Composed.run content feeds).content.take len)) := by
  obtain ⟨hinv, hlen⟩ := (Composed.Inv.start content).run hfit
  refine ⟨hlen, ?_, fun y hy => hlen ▸ hinv.run_within hy,
    fun len c hwhole => hlen ▸ hinv.whole_sound hwhole, fun len hpos hall hleft hgaps => hinv.whole_complete hpos hall hleft hgaps⟩
  refine (Composed.run content feeds).runs.runs.sorted.imp_of_mem fun {y z} hy hz hlt => ?_
  have hdisjoint := hinv.right.disjoint y hy z hz hlt
  have htouch := hinv.apart y hy z hz hlt
  omega

theorem runs_speak_rewritten :
    (Composed.run [1, 2, 3] [.add 0 2, .overwrite 1 [9], .add 0 3]).runs.whole 3 =
      some (crc32 [1, 9, 3]) := by
  refine (runs_speak [1, 2, 3] [.add 0 2, .overwrite 1 [9], .add 0 3] ?_).2.2.2.2 3 (by decide)
    (fun x => ?_) ?_ (by decide)
  · simp [Feed.Fits]
  · simp [Composed.run, Composed.step, Composed.land]
    omega
  · ext x
    simp [Composed.run, Composed.step, Composed.land]

/-- Nothing is composed where there is no byte, and `whole` of less than was delivered is none. -/
theorem whole_of_nothing :
    (¬ ∀ (content : List UInt8) (feeds : List Feed), (∀ f ∈ feeds, f.Fits content.length) →
      (∀ x < content.length, x ∈ (Composed.run content feeds).delivered) →
      (Composed.run content feeds).leftOut = ∅ →
      (Composed.run content feeds).runs.takeStaleGaps.2 = [] →
      ((Composed.run content feeds).runs.whole content.length).isSome) ∧
    (Composed.run [1, 2] [.add 0 2]).runs.whole 1 = none := by
  refine ⟨fun h => ?_, by decide⟩
  have hnone := h [] [] (by simp) (by simp) rfl rfl
  exact absurd hnone (by decide)

end NzbFast.Extract
