import NzbFast.Extract.Delivery

/-!
# Trims and pagers keep the copies together

A pager's clone was right when it was taken, and stays right while the count of
rewrites stands still (`Clone`). Its commit asks for that count, so the region it
publishes has the bytes last delivered. What others do meanwhile is seen through
`Advance` and, on the scratch, through `Keeps`: charge that is not let go keeps
its bytes.
-/

namespace NzbFast.Extract

open NzbFast.Rust BTreeMap Option
open List hiding not_lt
open Wire (byteAt byteAt_some_range byteAt_eq_none byteAt_isSome)

variable {st : FrontierState} {sc : Scratch} {rest : Nat} {last : Nat → Option UInt8}

/-- A buffer's copies in the middle of a locked region, before its counts are made again. -/
structure Kept (st : FrontierState) (sc : Scratch) (rest : Nat) (last : Nat → Option UInt8) :
    Prop where
  stage : Stage st sc rest (Is last) (Is last) (Is last)
  kept : ∀ x b, st.base ≤ x → last x = some b → Covered st x

theorem Holds.keeps (h : Holds st sc rest last) : Kept st sc rest last := ⟨h.stage, h.kept⟩

theorem Kept.resync (h : Kept st sc rest last) : Holds st.resyncRetained sc rest last :=
  ⟨h.stage.resync, h.kept, st.resyncRetained_bounded, rfl⟩

/-- No copy starts below `base`. -/
def AboveBase (st : FrontierState) : Prop :=
  (∀ y ∈ st.pending, st.base ≤ y.1) ∧ ∀ y ∈ st.paged, st.base ≤ y.1

/-! ## Trims -/

variable {n : Nat}

theorem Kept.drop (h : Kept st sc rest last) (hn : n ≤ st.data.length) :
    Kept { st with data := st.data.drop n, base := st.base + n } sc rest last := by
  have hle : st.base ≤ st.base + n := Nat.le_add_right _ _
  refine ⟨⟨h.stage.run.drop.mono hle, fun y hy => (h.stage.parked y hy).mono hle, h.stage.nonempty,
    fun y hy => (h.stage.pages y hy).mono hle, h.stage.disjoint, h.stage.positive, h.stage.backed,
    h.stage.cursor, h.stage.live, h.stage.charged⟩, fun x b hx hb => ?_⟩
  dsimp only at hx
  rcases h.kept x b (by omega) hb with ⟨-, hrun⟩ | hpark
  · refine .inl ⟨hx, ?_⟩
    dsimp only [FrontierState.frontierRam] at hrun ⊢
    rw [length_drop]
    omega
  · exact .inr hpark

namespace FrontierState

theorem trimCut_some {watermark minRelease cut : Nat}
    (h : st.trimCut watermark minRelease = some cut) :
    st.base < cut ∧ cut - st.base ≤ st.data.length := by
  unfold trimCut at h
  split at h
  case isTrue => cases h
  case isFalse =>
  dsimp only at h
  split at h
  case isTrue => cases h
  case isFalse hcut =>
    cases h
    dsimp only [frontierRam] at hcut ⊢
    omega

def trimmedTo (st : FrontierState) (at_ seqBefore : Nat) : Option Nat :=
  if st.trimPending ≠ 0 ∧ st.trimConsistent at_ st.trimPending seqBefore = true then
    some (st.base + st.trimPending)
  else none

theorem trimTo_holds (h : Holds st sc rest last) (watermark minRelease : Nat) :
    Holds (st.trimTo watermark minRelease).1 sc rest last ∧
      Advance st (st.trimTo watermark minRelease).1 last last := by
  unfold trimTo
  cases hcut : st.trimCut watermark minRelease with
  | none => exact ⟨h, ⟨le_rfl, le_rfl, fun _ x b _ hb => hb⟩⟩
  | some cut =>
    exact ⟨(h.keeps.drop (trimCut_some hcut).2).resync,
      ⟨Nat.le_add_right _ _, le_rfl, fun _ x b _ hb => hb⟩⟩

theorem trimCommit_holds (h : Holds st sc rest last) (at_ seqBefore : Nat) :
    Holds (st.trimCommit at_ seqBefore).1 sc rest last ∧
      Advance st (st.trimCommit at_ seqBefore).1 last last := by
  have hclear : Kept { st with trimPending := 0 } sc rest last :=
    ⟨⟨h.stage.run, h.stage.parked, h.stage.nonempty, h.stage.pages, h.stage.disjoint,
      h.stage.positive, h.stage.backed, h.stage.cursor, h.stage.live, h.stage.charged⟩, h.kept⟩
  unfold trimCommit
  dsimp only
  split
  case isTrue => exact ⟨hclear.resync, ⟨le_rfl, le_rfl, fun _ x b _ hb => hb⟩⟩
  case isFalse hok =>
    rw [Bool.or_eq_true, not_or, Bool.not_eq_true', Bool.not_eq_false] at hok
    have hfit : st.trimPending ≤ st.data.length := by
      have hcons := hok.2
      rw [trimConsistent, Bool.and_eq_true, Bool.and_eq_true, Bool.and_eq_true, Bool.and_eq_true]
        at hcons
      exact of_decide_eq_true hcons.1.1.1.2
    exact ⟨(hclear.drop hfit).resync, ⟨Nat.le_add_right _ _, le_rfl, fun _ x b _ hb => hb⟩⟩

end FrontierState

/-! ## Regions that others hold -/

/-- A step of the scratch after which regions of at most `n` bytes have theirs. -/
def Scratch.Keeps (sc sc' : Scratch) (n : Nat) : Prop :=
  ∀ r : Nat × Nat, 0 < r.2 → r.2 ≤ n → r.1 + r.2 ≤ sc.cursor →
    r.1 + r.2 ≤ sc'.cursor ∧ sc'.region r = sc.region r

theorem Scratch.Keeps.refl (sc : Scratch) (n : Nat) : sc.Keeps sc n := fun _ _ _ h => ⟨h, rfl⟩

theorem Scratch.Keeps.trans {sc₁ sc₂ sc₃ : Scratch} (h : sc₁.Keeps sc₂ n) (h' : sc₂.Keeps sc₃ n) :
    sc₁.Keeps sc₃ n := fun r hpos hn hr => by
  obtain ⟨hin, hreg⟩ := h r hpos hn hr
  obtain ⟨hin', hreg'⟩ := h' r hpos hn hin
  exact ⟨hin', hreg'.trans hreg⟩

theorem Scratch.Keeps.mono {sc' : Scratch} {m : Nat} (h : sc.Keeps sc' n) (hm : m ≤ n) :
    sc.Keeps sc' m := fun r hpos hle => h r hpos (hle.trans hm)

theorem Scratch.Shrinks.keeps {sc' : Scratch} (h : sc.Shrinks sc') (hn : n ≤ sc'.live) :
    sc.Keeps sc' n := fun r hpos hle hr => by
  obtain ⟨hfile, hcursor⟩ := h.same (by omega)
  exact ⟨hcursor ▸ hr, by rw [Scratch.region, Scratch.region, hfile]⟩

theorem Scratch.append_keeps (hcursor : sc.cursor ≤ sc.file.length) (hn : n ≤ sc.live)
    (bytes : List UInt8) (cap : Nat) : sc.Keeps (sc.append bytes cap).1 n :=
  fun r hpos hle hr => (sc.append_spec bytes cap hcursor).2.1 r (by omega) hr

/-- An append leaves the buffer's regions alone; its own charge goes to `rest`. -/
theorem Stage.append {R P G : Nat → UInt8 → Prop} (h : Stage st sc rest R P G) (bytes : List UInt8)
    (cap : Nat) :
    Stage st (sc.append bytes cap).1
      (rest + if (sc.append bytes cap).2.isSome then bytes.length else 0) R P G := by
  obtain ⟨hcursor, hkeeps, hsome, hnone⟩ := sc.append_spec bytes cap h.cursor
  have hpages : ∀ y ∈ st.paged, 0 < sc.live := fun y hy => by
    have hpos := h.positive y hy
    have hle := le_sum (·.2) hy
    have hcharged := h.charged
    have hlive := h.live
    omega
  refine ⟨h.run, h.parked, h.nonempty, fun y hy => ?_, h.disjoint, h.positive, fun y hy => ?_, hcursor,
    ?_, h.charged⟩
  · rw [(hkeeps y.2 (hpages y hy) (h.backed y hy)).2]
    exact h.pages y hy
  · exact (hkeeps y.2 (hpages y hy) (h.backed y hy)).1
  · have hlive := h.live
    cases hoff : (sc.append bytes cap).2 with
    | none =>
      rw [hnone hoff, hlive]
      rfl
    | some off =>
      rw [(hsome off hoff).1, hlive, isSome_some, if_pos rfl]
      omega

/-! ## Clones -/

/-- Bytes cloned at `s` when the count of rewrites was `seq`: right while it stands still. -/
def Clone (st : FrontierState) (last : Nat → Option UInt8) (seq s : Nat) (v : List UInt8) : Prop :=
  seq ≤ st.rewriteSeq ∧ (st.rewriteSeq = seq → Agrees st.base (Is last) s v)

theorem Clone.advance {st' : FrontierState} {last' : Nat → Option UInt8} {seq s : Nat}
    {v : List UInt8} (h : Clone st last seq s v)
    (ha : FrontierState.Advance st st' last last') : Clone st' last' seq s v := by
  refine ⟨h.1.trans ha.seq, fun heq => ?_⟩
  have hstill := le_antisymm (heq ▸ ha.seq) h.1
  exact ((h.2 hstill).mono ha.base).imp fun x b hx _ _ hb =>
    ha.same (heq.trans hstill.symm) x b hx hb

/-- A written clone: its region has its bytes. -/
structure Written (st : FrontierState) (sc : Scratch) (last : Nat → Option UInt8) (seq s : Nat)
    (v : List UInt8) (off : Nat) : Prop where
  clone : Clone st last seq s v
  positive : 0 < v.length
  inside : off + v.length ≤ sc.cursor
  region : sc.region (off, v.length) = v

theorem Written.step {st' : FrontierState} {sc' : Scratch} {last' : Nat → Option UInt8}
    {seq s off n : Nat} {v : List UInt8} (h : Written st sc last seq s v off)
    (ha : FrontierState.Advance st st' last last') (hk : sc.Keeps sc' n) (hn : v.length ≤ n) :
    Written st' sc' last' seq s v off := by
  obtain ⟨hin, hreg⟩ := hk (off, v.length) h.positive hn h.inside
  exact ⟨h.clone.advance ha, h.positive, hin, hreg.trans h.region⟩

namespace FrontierState

variable {off s seq stop : Nat} {v : List UInt8}

/-- Where the region that reaches furthest below `stop` starts at `s` or ends by it, every other
region is to one side of `[s, stop)`. -/
theorem apart_of_pagedOverlap
    (hdisjoint : ∀ y ∈ st.paged, ∀ z ∈ st.paged, y.1 < z.1 → y.1 + y.2.2 ≤ z.1)
    (hover : ∀ z, st.pagedOverlap s stop = some z → z.1 = s) {y : Nat × Nat × Nat}
    (hy : y ∈ st.paged) (hne : y.1 ≠ s) : y.1 + y.2.2 ≤ s ∨ stop ≤ y.1 := by
  by_cases hlt : y.1 < stop
  case neg => exact .inr (not_lt.mp hlt)
  case pos =>
  cases hlast : st.paged.lastLT stop with
  | none => exact .inr (lastLT_none hlast hy)
  | some z =>
    obtain ⟨hz, -, hmax⟩ := lastLT_some hlast
    have hle := hmax y hy hlt
    by_cases hz' : s < z.1 + z.2.2
    · have hzs := hover z (by rw [pagedOverlap, hlast, filter_some, decide_eq_true hz', if_pos rfl])
      exact .inl (hzs ▸ hdisjoint y hy z hz (by omega))
    · rcases lt_or_ge y.1 z.1 with hyz | hyz
      · have := hdisjoint y hy z hz hyz
        exact .inl (by omega)
      · obtain rfl := mem_unique hy hz (le_antisymm hle hyz)
        exact .inl (not_lt.mp hz')

/-- A new region in the paged map, beside those it is apart from. -/
theorem disjoint_insert (hdisjoint : ∀ y ∈ st.paged, ∀ z ∈ st.paged, y.1 < z.1 → y.1 + y.2.2 ≤ z.1)
    {len : Nat} (hapart : ∀ y ∈ st.paged, y.1 ≠ s → y.1 + y.2.2 ≤ s ∨ s + len ≤ y.1) :
    ∀ y ∈ st.paged.insert s (off, len), ∀ z ∈ st.paged.insert s (off, len), y.1 < z.1 →
      y.1 + y.2.2 ≤ z.1 := by
  intro y hy z hz hlt
  rcases mem_insert.mp hy with rfl | ⟨hy, hys⟩ <;>
    rcases mem_insert.mp hz with rfl | ⟨hz, hzs⟩
  · exact absurd hlt (lt_irrefl _)
  · have := hapart z hz hzs
    dsimp only at hlt ⊢
    omega
  · have := hapart y hy hys
    omega
  · exact hdisjoint y hy z hz hlt

theorem commitStands_spec (h : st.commitStands s v seq = true) :
    st.rewriteSeq = seq ∧ (∃ cur, (s, cur) ∈ st.pending ∧ cur.length = v.length) ∧
      ∀ z, st.pagedOverlap s (s + v.length) = some z → z.1 = s ∧ z.2.2 < v.length := by
  rw [commitStands, Bool.and_eq_true, Bool.and_eq_true, Bool.and_eq_true] at h
  obtain ⟨⟨⟨-, hseq⟩, hcur⟩, hclean⟩ := h
  refine ⟨of_decide_eq_true hseq, ?_, fun z hz => ?_⟩
  · obtain ⟨cur, hget, hlen⟩ := (any_eq_true _ _).mp hcur
    exact ⟨cur, get_eq_some.mp hget, of_decide_eq_true hlen⟩
  · rw [hz, all_some, Bool.and_eq_true, decide_eq_true_eq, decide_eq_true_eq] at hclean
    exact hclean

/-- What a step inside a pager's locked region leaves as it was. -/
structure SamePlace (st st' : FrontierState) : Prop where
  base : st'.base = st.base
  rewriteSeq : st'.rewriteSeq = st.rewriteSeq
  above : AboveBase st → AboveBase st'

theorem SamePlace.refl (st : FrontierState) : SamePlace st st := ⟨rfl, rfl, id⟩

theorem SamePlace.trans {st₁ st₂ st₃ : FrontierState} (h : SamePlace st₁ st₂)
    (h' : SamePlace st₂ st₃) : SamePlace st₁ st₃ :=
  ⟨h'.base.trans h.base, h'.rewriteSeq.trans h.rewriteSeq, h'.above ∘ h.above⟩

theorem SamePlace.advance {st' : FrontierState} (h : SamePlace st st') : Advance st st' last last :=
  ⟨h.base.ge, h.rewriteSeq.ge, fun _ _ _ _ hb => hb⟩

/-- One written clone committed or let go. -/
theorem commitOne_spec {c : Committing} (h : Kept c.st c.sc (v.length + rest) last)
    (hw : Written c.st c.sc last seq s v off) :
    Kept (commitOne seq c (s, v, off)).st (commitOne seq c (s, v, off)).sc rest last ∧
      SamePlace c.st (commitOne seq c (s, v, off)).st ∧
      c.sc.Keeps (commitOne seq c (s, v, off)).sc rest := by
  have hlive := h.stage.live
  have hshr := c.sc.release_shrinks v.length
  unfold commitOne
  dsimp only
  split
  case isTrue =>
    have hrest : (c.sc.release v.length).live = c.st.pagedBytes + rest := by
      rw [c.sc.release_live]
      omega
    exact ⟨⟨h.stage.shrink hshr (Scratch.release_cursor h.stage.cursor _) hrest, h.kept⟩, .refl _,
      hshr.keeps (hrest ▸ Nat.le_add_left _ _)⟩
  case isFalse hstands =>
    rw [Bool.not_eq_true', Bool.not_eq_false] at hstands
    obtain ⟨hseq, ⟨cur, hcur, hcurlen⟩, hclean⟩ := commitStands_spec hstands
    have hagrees := hw.clone.2 hseq
    have hapart : ∀ y ∈ c.st.paged, y.1 ≠ s → y.1 + y.2.2 ≤ s ∨ s + v.length ≤ y.1 := fun y hy hne =>
      apart_of_pagedOverlap h.stage.disjoint (fun z hz => (hclean z hz).1) hy hne
    -- the region that the new one replaces, if any, is the shorter
    obtain ⟨oldLen, sc', hold, hsc', hsum, hlive', hcursor', hshr', hshort⟩ : ∃ oldLen sc',
        (c.st.paged.get s).elim 0 (·.2) = oldLen ∧
        (if (c.st.paged.get s).isSome then c.sc.release oldLen else c.sc) = sc' ∧
        c.st.pagedBytes = (c.st.paged.remove s).sum (·.2) + oldLen ∧ sc'.live = c.sc.live - oldLen ∧
        sc'.cursor ≤ sc'.file.length ∧ c.sc.Shrinks sc' ∧
        ∀ r, (s, r) ∈ c.st.paged → r.2 ≤ v.length := by
      cases hget : c.st.paged.get s with
      | none =>
        refine ⟨0, c.sc, rfl, rfl, ?_, rfl, h.stage.cursor, .refl _,
          fun r hr => absurd rfl (get_eq_none.mp hget _ hr)⟩
        rw [remove_of_get_none hget]
        exact h.stage.charged
      | some r =>
        have hr := get_eq_some.mp hget
        refine ⟨r.2, c.sc.release r.2, rfl, rfl, ?_, c.sc.release_live r.2,
          Scratch.release_cursor h.stage.cursor _, c.sc.release_shrinks r.2, fun r' hr' => ?_⟩
        · rw [h.stage.charged]
          exact sum_remove (·.2) hr
        · obtain rfl : r' = r := congrArg Prod.snd (mem_unique hr' hr rfl)
          cases hlast : c.st.paged.lastLT (s + v.length) with
          | none =>
            have hge := lastLT_none hlast hr
            have := hw.positive
            omega
          | some z =>
            obtain ⟨hz, -, hmax⟩ := lastLT_some hlast
            have hle := hmax _ hr (by have := hw.positive; dsimp only; omega)
            have hzpos := h.stage.positive z hz
            have hzover := hclean z (by
              rw [pagedOverlap, hlast, filter_some, decide_eq_true, if_pos rfl]
              omega)
            obtain rfl := mem_unique hz hr hzover.1
            exact hzover.2.le
    rw [hold, hsc']
    have hsame : sc'.file = c.sc.file ∧ sc'.cursor = c.sc.cursor := by
      refine hshr'.same ?_
      have := hw.positive
      omega
    have hregion : ∀ r, sc'.region r = c.sc.region r := fun r => by
      rw [Scratch.region, Scratch.region, hsame.1]
    refine ⟨⟨⟨h.stage.run, fun y hy => h.stage.parked y (mem_remove.mp hy).1,
      fun y hy => h.stage.nonempty y (mem_remove.mp hy).1, fun y hy => ?_,
      disjoint_insert h.stage.disjoint hapart, fun y hy => ?_, fun y hy => ?_, hcursor', ?_, ?_⟩,
      fun x b hx hb => ?_⟩, ⟨rfl, rfl, fun hab => ⟨fun y hy => ?_, fun y hy => ?_⟩⟩,
      hshr'.keeps (by omega)⟩
    · rw [hregion]
      rcases mem_insert.mp hy with rfl | ⟨hy, -⟩
      · rw [hw.region]
        exact hagrees
      · exact h.stage.pages y hy
    · rcases mem_insert.mp hy with rfl | ⟨hy, -⟩
      · exact hw.positive
      · exact h.stage.positive y hy
    · rw [hsame.2]
      rcases mem_insert.mp hy with rfl | ⟨hy, -⟩
      · exact hw.inside
      · exact h.stage.backed y hy
    · dsimp only
      omega
    · dsimp only
      rw [sum_insert]
      omega
    · have hnew : s ≤ x → x < s + v.length → Covered { c.st with
          pending := c.st.pending.remove s
          paged := c.st.paged.insert s (off, v.length) } x := fun hlo hhi =>
        .inr (.inr ⟨(s, off, v.length), mem_insert.mpr (.inl rfl), hlo, hhi⟩)
      rcases h.kept x b hx hb with hrun | ⟨y, hy, hyx⟩ | ⟨y, hy, hyx⟩
      · exact .inl hrun
      · by_cases hys : y.1 = s
        · obtain rfl := mem_unique hy hcur hys
          dsimp only at hyx
          exact hnew (by omega) (by omega)
        · exact .inr (.inl ⟨y, mem_remove.mpr ⟨hy, hys⟩, hyx⟩)
      · by_cases hys : y.1 = s
        · have := hshort y.2 (hys ▸ hy)
          exact hnew (by omega) (by omega)
        · exact .inr (.inr ⟨y, mem_insert.mpr (.inr ⟨hy, hys⟩), hyx⟩)
    · exact hab.1 y (mem_remove.mp hy).1
    · rcases mem_insert.mp hy with rfl | ⟨hy, -⟩
      · exact hab.1 _ hcur
      · exact hab.2 y hy

def writtenBytes (written : List (Nat × List UInt8 × Nat)) : Nat :=
  (written.map fun w => w.2.1.length).sum

theorem commit_spec : ∀ {written : List (Nat × List UInt8 × Nat)} {c : Committing},
    Kept c.st c.sc (writtenBytes written + rest) last →
    (∀ w ∈ written, Written c.st c.sc last seq w.1 w.2.1 w.2.2) →
    Kept (written.foldl (commitOne seq) c).st (written.foldl (commitOne seq) c).sc rest last ∧
      SamePlace c.st (written.foldl (commitOne seq) c).st ∧
      c.sc.Keeps (written.foldl (commitOne seq) c).sc rest
  | [], c, h, _ => by
    rw [writtenBytes, map_nil, sum_nil, zero_add] at h
    exact ⟨h, .refl _, .refl _ _⟩
  | (s, v, off) :: written, c, h, hw => by
    have hbytes : writtenBytes ((s, v, off) :: written) + rest = v.length + (writtenBytes written + rest) := by
      rw [writtenBytes, map_cons, sum_cons, add_assoc]
      rfl
    rw [hbytes] at h
    obtain ⟨hone, hplace, hkeeps⟩ := commitOne_spec h (hw _ (.head _))
    have hrest : ∀ w ∈ written, w.2.1.length ≤ writtenBytes written + rest := fun w hw => by
      have := le_sum_of_mem (mem_map.mpr ⟨w, hw, rfl⟩ :
        w.2.1.length ∈ written.map fun w => w.2.1.length)
      exact this.trans (Nat.le_add_right _ _)
    obtain ⟨hall, hplace', hkeeps'⟩ := commit_spec hone fun w hmem =>
      (hw w (.tail _ hmem)).step hplace.advance hkeeps (hrest w hmem)
    exact ⟨hall, hplace.trans hplace', (hkeeps.mono (Nat.le_add_left _ _)).trans hkeeps'⟩

/-- A parked span that a region has all of may go. -/
theorem kept_remove (h : Kept st sc rest last) (hs : (s, v) ∈ st.pending) {z : Nat × Nat × Nat}
    (hz : z ∈ st.paged) (hle : z.1 ≤ s) (hend : s + v.length ≤ z.1 + z.2.2) :
    Kept { st with pending := st.pending.remove s } sc rest last := by
  refine ⟨{ h.stage with
    parked := fun y hy => h.stage.parked y (mem_remove.mp hy).1
    nonempty := fun y hy => h.stage.nonempty y (mem_remove.mp hy).1 }, fun x b hx hb => ?_⟩
  rcases h.kept x b hx hb with hrun | ⟨y, hy, hyx⟩ | hpage
  · exact .inl hrun
  · by_cases hys : y.1 = s
    · obtain rfl := mem_unique hy hs hys
      dsimp only at hyx
      exact .inr (.inr ⟨z, hz, by omega⟩)
    · exact .inr (.inl ⟨y, mem_remove.mpr ⟨hy, hys⟩, hyx⟩)
  · exact .inr (.inr hpage)

theorem pickParked_spec : ∀ {starts : List Nat} {p : Picking}, Kept p.st sc rest last →
    (∀ y ∈ p.picked, Agrees p.st.base (Is last) y.1 y.2 ∧ 0 < y.2.length) →
    Kept (pickParked starts p).st sc rest last ∧ SamePlace p.st (pickParked starts p).st ∧
      ∀ y ∈ (pickParked starts p).picked, Agrees p.st.base (Is last) y.1 y.2 ∧ 0 < y.2.length
  | [], p, h, hp => ⟨h, .refl _, hp⟩
  | s :: starts, p, h, hp => by
    unfold pickParked
    split
    case isTrue => exact ⟨h, .refl _, hp⟩
    case isFalse =>
    dsimp only
    split
    case isTrue => exact pickParked_spec h hp
    case isFalse hlen =>
    have hmin : 0 < HOLDS_PAGE_MIN := by decide
    obtain ⟨v, hget⟩ : ∃ v, p.st.pending.get s = some v := by
      cases hget : p.st.pending.get s with
      | none =>
        rw [hget] at hlen
        exact absurd hmin hlen
      | some v => exact ⟨v, rfl⟩
    rw [hget, getD_some] at hlen ⊢
    have hs := get_eq_some.mp hget
    have hpicked : ∀ y ∈ p.picked ++ [(s, v)], Agrees p.st.base (Is last) y.1 y.2 ∧ 0 < y.2.length := by
      intro y hy
      rcases mem_append.mp hy with hy | hy
      · exact hp y hy
      · obtain rfl := mem_singleton.mp hy
        exact ⟨h.stage.parked _ hs, by dsimp only; omega⟩
    split
    case h_1 ps po plen hover =>
      obtain ⟨hlast, -⟩ := filter_eq_some_iff.mp hover
      have hz := (lastLT_some hlast).1
      split
      case isTrue hcov =>
        have hkept := kept_remove h hs hz hcov.1 hcov.2
        obtain ⟨hk, hplace, hpick⟩ := @pickParked_spec starts { p with
          st := { p.st with pending := p.st.pending.remove s }
          moved := p.moved + v.length
          need := p.need - v.length } hkept hp
        refine ⟨hk, ⟨hplace.base, hplace.rewriteSeq, fun hab => hplace.above ⟨fun y hy => ?_, hab.2⟩⟩, hpick⟩
        exact hab.1 y (mem_remove.mp hy).1
      case isFalse =>
      split
      case isTrue => exact pickParked_spec h hp
      case isFalse => exact @pickParked_spec starts { p with
        picked := p.picked ++ [(s, v)], pickedBytes := p.pickedBytes + v.length } h hpicked
    case h_2 => exact @pickParked_spec starts { p with
        picked := p.picked ++ [(s, v)], pickedBytes := p.pickedBytes + v.length } h hpicked

theorem tailChunk_spec (h : Kept st sc rest last) {need at_ : Nat} {bytes : List UInt8}
    (hc : st.tailChunk need = some (at_, bytes, stop, seq)) :
    Clone st last seq at_ bytes ∧ 0 < bytes.length ∧ at_ + bytes.length = stop := by
  unfold tailChunk at hc
  split at hc
  case isTrue => cases hc
  case isFalse =>
  dsimp only at hc
  split at hc
  case isTrue => cases hc
  case isFalse htake =>
    cases hc
    have hmin : 0 < HOLDS_PAGE_MIN := by decide
    have hram : st.frontierRam = st.base + st.data.length := rfl
    have hlen : (st.data.drop (st.data.length - min (min st.data.length need) TAIL_CHUNK)).length =
        min (min st.data.length need) TAIL_CHUNK := by
      rw [length_drop]
      omega
    refine ⟨⟨le_rfl, fun _ => ?_⟩, by omega, by omega⟩
    have hdrop := h.stage.run.drop (k := st.data.length - min (min st.data.length need) TAIL_CHUNK)
    rwa [show st.base + (st.data.length - min (min st.data.length need) TAIL_CHUNK) =
      st.frontierRam - min (min st.data.length need) TAIL_CHUNK by omega] at hdrop

theorem commitTail_spec {at_ : Nat} {bytes : List UInt8} (h : Kept st sc (bytes.length + rest) last)
    (hw : Written st sc last seq at_ bytes off) (hstop : at_ + bytes.length = stop)
    (hstill : st.tailStoodStill at_ stop bytes.length seq = true) :
    Holds (st.commitTail at_ bytes.length off) sc rest last ∧
      SamePlace st (st.commitTail at_ bytes.length off) := by
  rw [tailStoodStill, Bool.and_eq_true, Bool.and_eq_true, Bool.and_eq_true, Bool.and_eq_true] at hstill
  obtain ⟨⟨⟨⟨-, hseq⟩, hram⟩, hlen⟩, hover⟩ := hstill
  have hram := of_decide_eq_true hram
  have hdata : st.frontierRam = st.base + st.data.length := rfl
  have hlen := of_decide_eq_true hlen
  have hnone := isNone_iff_eq_none.mp hover
  have hagrees := hw.clone.2 (of_decide_eq_true hseq)
  have hpos := hw.positive
  have hother : ∀ z, st.pagedOverlap at_ (at_ + bytes.length) = some z → z.1 = at_ := fun z hz => by
    rw [hstop, hnone] at hz
    cases hz
  have hfresh : ∀ y ∈ st.paged, y.1 ≠ at_ := fun y hy heq => by
    cases hlast : st.paged.lastLT stop with
    | none =>
      have := lastLT_none hlast hy
      omega
    | some z =>
      obtain ⟨hz, -, hmax⟩ := lastLT_some hlast
      have hle := hmax y hy (by omega)
      have hzpos := h.stage.positive z hz
      rw [pagedOverlap, hlast, filter_some, decide_eq_true (by omega), if_pos rfl] at hnone
      cases hnone
  have hkept : Kept { st with
      data := st.data.take (st.data.length - bytes.length)
      pagedBytes := st.pagedBytes + bytes.length
      paged := st.paged.insert at_ (off, bytes.length) } sc rest last := by
    refine ⟨⟨h.stage.run.take, h.stage.parked, h.stage.nonempty, fun y hy => ?_,
      disjoint_insert h.stage.disjoint fun y hy hne =>
        apart_of_pagedOverlap h.stage.disjoint hother hy hne,
      fun y hy => ?_, fun y hy => ?_, h.stage.cursor, ?_, ?_⟩, fun x b hx hb => ?_⟩
    · rcases mem_insert.mp hy with rfl | ⟨hy, -⟩
      · rw [hw.region]
        exact hagrees
      · exact h.stage.pages y hy
    · rcases mem_insert.mp hy with rfl | ⟨hy, -⟩
      · exact hpos
      · exact h.stage.positive y hy
    · rcases mem_insert.mp hy with rfl | ⟨hy, -⟩
      · exact hw.inside
      · exact h.stage.backed y hy
    · have hlive := h.stage.live
      dsimp only
      omega
    · dsimp only
      rw [sum_insert, remove_of_get_none (get_eq_none.mpr hfresh), h.stage.charged]
    · rcases h.kept x b hx hb with hrun | hpark | ⟨y, hy, hyx⟩
      · by_cases hxa : x < at_
        · refine .inl ⟨hrun.1, ?_⟩
          change x < st.base + (st.data.take (st.data.length - bytes.length)).length
          rw [length_take]
          omega
        · exact .inr (.inr ⟨_, mem_insert.mpr (.inl rfl), by dsimp only; omega⟩)
      · exact .inr (.inl hpark)
      · exact .inr (.inr ⟨y, mem_insert.mpr (.inr ⟨hy, hfresh y hy⟩), hyx⟩)
  refine ⟨hkept.resync, ⟨rfl, rfl, fun hab => ⟨hab.1, fun y hy => ?_⟩⟩⟩
  rcases mem_insert.mp hy with rfl | ⟨hy, -⟩
  · change st.base ≤ at_
    omega
  · exact hab.2 y hy

end FrontierState

end NzbFast.Extract
