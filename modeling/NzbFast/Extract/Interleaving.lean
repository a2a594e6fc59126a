import NzbFast.Extract.Pagers

/-!
# Every interleaving keeps the copies together

`World.Inv` holds of a fresh buffer and of whatever a call on it, a region of a
pager or another user of the scratch makes of one (`World.Inv.step`), so it holds
after every run. A trim can take `base` past the start of a span that is parked or
paged; where none does, no copy ever starts below it (`World.aboveBase_step`).
-/

namespace NzbFast.Extract

open NzbFast.Rust FrontierState Pager World List
open FrontierState (Advance SamePlace writtenBytes)

variable {st : FrontierState} {sc : Scratch} {rest : Nat} {last : Nat → Option UInt8}

/-! ## One pager -/

/-- What a pager holds between two of its regions is still good for the commit it leads to. -/
def Pager.Ok (st : FrontierState) (sc : Scratch) (last : Nat → Option UInt8) (p : Pager) : Prop :=
  match p.pc with
  | .append todo written seq =>
    (∀ y ∈ todo, Clone st last seq y.1 y.2 ∧ 0 < y.2.length) ∧
      ∀ w ∈ written, Written st sc last seq w.1 w.2.1 w.2.2
  | .commit written seq _ => ∀ w ∈ written, Written st sc last seq w.1 w.2.1 w.2.2
  | .tailAppend at_ bytes stop seq =>
    Clone st last seq at_ bytes ∧ 0 < bytes.length ∧ at_ + bytes.length = stop
  | .tailCommit at_ bytes stop seq off =>
    Written st sc last seq at_ bytes off ∧ at_ + bytes.length = stop
  | _ => True

/-- What a pager has live on the scratch and no one else answers for. -/
def Pager.charge (p : Pager) : Nat :=
  match p.pc with
  | .append _ written _ => writtenBytes written
  | .commit written _ _ => writtenBytes written
  | .tailCommit _ bytes _ _ _ => bytes.length
  | _ => 0

theorem length_le_writtenBytes {written : List (Nat × List UInt8 × Nat)}
    {w : Nat × List UInt8 × Nat} (h : w ∈ written) : w.2.1.length ≤ writtenBytes written :=
  le_sum_of_mem (mem_map.mpr ⟨w, h, rfl⟩)

/-- What others do leaves a pager's clones and regions good. -/
theorem Pager.Ok.step {p : Pager} {st' : FrontierState} {sc' : Scratch}
    {last' : Nat → Option UInt8} {n : Nat} (h : p.Ok st sc last) (ha : Advance st st' last last')
    (hk : sc.Keeps sc' n) (hn : p.charge ≤ n) : p.Ok st' sc' last' := by
  obtain ⟨cap, need, includeData, moved, rounds, retries, pc⟩ := p
  cases pc with
  | append todo written seq =>
    exact ⟨fun y hy => ⟨(h.1 y hy).1.advance ha, (h.1 y hy).2⟩,
      fun w hw => (h.2 w hw).step ha hk ((length_le_writtenBytes hw).trans hn)⟩
  | commit written seq refused =>
    exact fun w hw => (h w hw).step ha hk ((length_le_writtenBytes hw).trans hn)
  | tailAppend at_ bytes stop seq => exact ⟨h.1.advance ha, h.2⟩
  | tailCommit at_ bytes stop seq off => exact ⟨h.1.step ha hk hn, h.2⟩
  | pick => trivial
  | tail => trivial
  | done => trivial

/-- A region of a pager. -/
structure Pager.Stepped (st : FrontierState) (sc : Scratch) (rest : Nat) (last : Nat → Option UInt8)
    (r : Pager × FrontierState × Scratch) : Prop where
  holds : Holds r.2.1 r.2.2 (r.1.charge + rest) last
  ok : r.1.Ok r.2.1 r.2.2 last
  place : SamePlace st r.2.1
  keeps : sc.Keeps r.2.2 rest

/-- A region that touches neither the buffer nor the scratch. -/
theorem Pager.Stepped.idle {p p' : Pager} (h : Holds st sc (p.charge + rest) last)
    (hcharge : p'.charge = p.charge) (hok : p'.Ok st sc last) :
    Pager.Stepped st sc rest last (p', st, sc) :=
  ⟨hcharge ▸ h, hok, .refl st, .refl sc rest⟩

theorem Pager.step_spec (p : Pager) (h : Holds st sc (p.charge + rest) last)
    (hok : p.Ok st sc last) : Pager.Stepped st sc rest last (p.step st sc) := by
  obtain ⟨cap, need, includeData, moved, rounds, retries, pc⟩ := p
  have hlive := h.stage.live
  cases pc with
  | pick =>
    unfold step
    dsimp only
    split
    case isTrue => exact .idle h rfl trivial
    case isFalse =>
    split
    case isTrue => exact .idle h rfl trivial
    case isFalse =>
    split
    case isTrue => exact .idle h rfl trivial
    case isFalse =>
      obtain ⟨hkept, hplace, hpicked⟩ := @FrontierState.pickParked_spec sc _ last
        (st.pending.entries.map (·.1)).reverse { st, need, moved } h.keeps nofun
      generalize pickParked (st.pending.entries.map (·.1)).reverse { st, need, moved } = r
        at hkept hplace hpicked ⊢
      have hplace' : SamePlace st r.st.resyncRetained := ⟨hplace.base, hplace.rewriteSeq, hplace.above⟩
      by_cases hnil : r.picked = []
      · rw [if_pos hnil]
        exact ⟨hkept.resync, trivial, hplace', .refl sc rest⟩
      · rw [if_neg hnil]
        refine ⟨hkept.resync, ⟨fun y hy => ⟨⟨le_rfl, fun _ => ?_⟩, (hpicked y hy).2⟩, nofun⟩, hplace',
          .refl sc rest⟩
        exact hplace.base ▸ (hpicked y hy).1
  | append todo written seq =>
    cases todo with
    | nil => exact .idle h rfl hok.2
    | cons y todo =>
      obtain ⟨s, v⟩ := y
      have hstage := h.stage.append v cap
      have hkeeps := Scratch.append_keeps h.stage.cursor (hlive ▸ Nat.le_add_left _ _) v cap
      have hwritten : ∀ w ∈ written, Written st (sc.append v cap).1 last seq w.1 w.2.1 w.2.2 :=
        fun w hw => (hok.2 w hw).step (SamePlace.refl st).advance hkeeps
          ((length_le_writtenBytes hw).trans (Nat.le_add_right _ _))
      obtain ⟨-, -, hsome, -⟩ := sc.append_spec v cap h.stage.cursor
      unfold step
      dsimp only
      cases hoff : (sc.append v cap).2 with
      | none =>
        rw [hoff] at hstage
        exact ⟨⟨hstage, h.kept, h.bounded, h.stored⟩, hwritten, .refl st, hkeeps.mono (Nat.le_add_left _ _)⟩
      | some off =>
        rw [hoff] at hstage
        obtain ⟨-, hinside, hregion⟩ := hsome off hoff
        refine ⟨⟨?_, h.kept, h.bounded, h.stored⟩, ⟨fun y hy => hok.1 y (mem_cons_of_mem _ hy),
          fun w hw => ?_⟩, .refl st, hkeeps.mono (Nat.le_add_left _ _)⟩
        · have hcharge : writtenBytes (written ++ [(s, v, off)]) + rest =
              writtenBytes written + rest + v.length := by
            rw [writtenBytes, map_append, sum_append, writtenBytes]
            simp only [map_cons, map_nil, sum_cons, sum_nil]
            omega
          change Stage st (sc.append v cap).1 (writtenBytes (written ++ [(s, v, off)]) + rest) _ _ _
          rw [hcharge]
          exact hstage
        · rcases mem_append.mp hw with hw | hw
          · exact hwritten w hw
          · obtain rfl := mem_singleton.mp hw
            obtain ⟨hclone, hpos⟩ := hok.1 _ mem_cons_self
            exact ⟨hclone, hpos, hinside, hregion⟩
  | commit written seq refused =>
    obtain ⟨hkept, hplace, hkeeps⟩ := commit_spec
      (c := { st, sc, need, moved }) h.keeps hok
    have hcharge : ∀ need moved, charge ⟨cap, need, includeData, moved, rounds, retries,
        if refused = true then .done else .pick⟩ = 0 := by
      cases refused <;> exact fun _ _ => rfl
    refine ⟨?_, ?_, ⟨hplace.base, hplace.rewriteSeq, hplace.above⟩, hkeeps⟩
    · unfold step
      rw [hcharge, zero_add]
      exact hkept.resync
    · cases refused <;> trivial
  | tail =>
    unfold step
    dsimp only
    split
    case isTrue => exact .idle h rfl trivial
    case isFalse =>
    cases hchunk : st.tailChunk need with
    | none => exact .idle h rfl trivial
    | some chunk => exact .idle h rfl (tailChunk_spec h.keeps hchunk)
  | tailAppend at_ bytes stop seq =>
    have hstage := h.stage.append bytes cap
    have hkeeps := Scratch.append_keeps h.stage.cursor
        (hlive ▸ (Nat.le_add_left _ _).trans (Nat.le_add_left _ _)) bytes cap
    obtain ⟨-, -, hsome, -⟩ := sc.append_spec bytes cap h.stage.cursor
    unfold step
    dsimp only
    cases hoff : (sc.append bytes cap).2 with
    | none =>
      rw [hoff] at hstage
      exact ⟨⟨hstage, h.kept, h.bounded, h.stored⟩, trivial, .refl st, hkeeps⟩
    | some off =>
      rw [hoff] at hstage
      obtain ⟨-, hinside, hregion⟩ := hsome off hoff
      refine ⟨⟨?_, h.kept, h.bounded, h.stored⟩, ⟨⟨hok.1, hok.2.1, hinside, hregion⟩, hok.2.2⟩, .refl st,
        hkeeps⟩
      have hcharge : 0 + rest + bytes.length = bytes.length + rest := by omega
      change Stage st (sc.append bytes cap).1 (bytes.length + rest) _ _ _
      rw [← hcharge]
      exact hstage
  | tailCommit at_ bytes stop seq off =>
    unfold step
    dsimp only
    split
    case isTrue =>
      have hlive' : (sc.release bytes.length).live = st.pagedBytes + rest := by
        rw [sc.release_live]
        have : sc.live = st.pagedBytes + (bytes.length + rest) := hlive
        omega
      have hshr := sc.release_shrinks bytes.length
      have hstage := h.stage.shrink hshr (Scratch.release_cursor h.stage.cursor _) hlive'
      rw [← zero_add rest] at hstage
      exact ⟨⟨hstage, h.kept, h.bounded, h.stored⟩, trivial, .refl st,
        hshr.keeps (hlive' ▸ Nat.le_add_left _ _)⟩
    case isFalse hstill =>
      rw [Bool.not_eq_true', Bool.not_eq_false] at hstill
      obtain ⟨hholds, hplace⟩ := commitTail_spec h.keeps hok.1 hok.2 hstill
      rw [← zero_add rest] at hholds
      exact ⟨hholds, trivial, hplace, .refl sc rest⟩
  | done => exact .idle h rfl trivial

/-! ## The world -/

/-- What is live on the scratch besides the buffer's own regions. -/
def World.elsewhere (w : World) : Nat := (w.pagers.map Pager.charge).sum + w.others

structure World.Inv (w : World) (last : Nat → Option UInt8) : Prop where
  holds : Holds w.st w.sc w.elsewhere last
  pagers : ∀ p ∈ w.pagers, p.Ok w.st w.sc last

theorem World.charge_le {w : World} {p : Pager} (h : p ∈ w.pagers) : p.charge ≤ w.elsewhere :=
  (le_sum_of_mem (mem_map.mpr ⟨p, h, rfl⟩)).trans (Nat.le_add_right _ _)

theorem sum_map_set {α : Type} (f : α → Nat) : ∀ {l : List α} {i : Nat} {x : α}, l[i]? = some x →
    ∃ n, (l.map f).sum = f x + n ∧ (∀ y, ((l.set i y).map f).sum = f y + n) ∧
      ∀ y z, z ∈ l.set i y → z = y ∨ (z ∈ l ∧ f z ≤ n)
  | [], _, _, h => by cases h
  | a :: l, 0, x, h => by
    cases h
    refine ⟨(l.map f).sum, rfl, fun y => rfl, fun y z hz => ?_⟩
    rcases mem_cons.mp hz with rfl | hz
    · exact .inl rfl
    · exact .inr ⟨mem_cons_of_mem _ hz, le_sum_of_mem (mem_map.mpr ⟨z, hz, rfl⟩)⟩
  | a :: l, i + 1, x, h => by
    obtain ⟨n, hsum, hset, hmem⟩ := sum_map_set f (l := l) (i := i) (x := x) h
    refine ⟨f a + n, ?_, fun y => ?_, fun y z hz => ?_⟩
    · rw [map_cons, sum_cons, hsum]
      omega
    · rw [set_cons_succ, map_cons, sum_cons, hset]
      omega
    · rcases mem_cons.mp hz with rfl | hz
      · exact .inr ⟨mem_cons_self, Nat.le_add_right _ _⟩
      · exact (hmem y z hz).imp_right fun h => ⟨mem_cons_of_mem _ h.1, by omega⟩

/-- A step of the buffer alone, whose scratch may only let charge go. -/
theorem World.Inv.buffer {w : World} {st' : FrontierState} {sc' : Scratch}
    {last' : Nat → Option UInt8} (h : w.Inv last) (hholds : Holds st' sc' w.elsewhere last')
    (ha : Advance w.st st' last last') (hs : w.sc.Shrinks sc') :
    World.Inv { w with st := st', sc := sc' } last' := by
  have hlive := hholds.stage.live
  exact ⟨hholds, fun p hp => (h.pagers p hp).step ha (hs.keeps (hlive ▸ Nat.le_add_left _ _))
    (charge_le hp)⟩

/-- A step of the scratch alone, that another user of it takes. -/
theorem World.Inv.scratch {w : World} {sc' : Scratch} {others : Nat} (h : w.Inv last)
    (hstage : Stage w.st sc' ((w.pagers.map Pager.charge).sum + others) (Is last) (Is last) (Is last))
    (hk : w.sc.Keeps sc' (w.pagers.map Pager.charge).sum) :
    World.Inv { w with sc := sc', others } last :=
  ⟨⟨hstage, h.holds.kept, h.holds.bounded, h.holds.stored⟩, fun p hp =>
    (h.pagers p hp).step (SamePlace.refl w.st).advance hk
      (le_sum_of_mem (mem_map.mpr ⟨p, hp, rfl⟩))⟩

theorem Holds.marks {total served trimPending : Nat} {conflict : Bool}
    (h : Holds st sc rest last) :
    Holds { st with total, served, trimPending, conflict } sc rest last :=
  ⟨⟨h.stage.run, h.stage.parked, h.stage.nonempty, h.stage.pages, h.stage.disjoint, h.stage.positive,
    h.stage.backed, h.stage.cursor, h.stage.live, h.stage.charged⟩, h.kept, h.bounded, h.stored⟩

theorem World.Inv.step {w : World} (h : w.Inv last) (a : Action) :
    (w.step a).Inv (w.delivered last a) := by
  have hstill : ∀ {st' : FrontierState}, Holds st' w.sc w.elsewhere last → Advance w.st st' last last →
      World.Inv { w with st := st' } last := fun hholds ha => h.buffer hholds ha (.refl w.sc)
  have hmark : ∀ {st' : FrontierState}, st'.base = w.st.base → st'.rewriteSeq = w.st.rewriteSeq →
      Advance w.st st' last last := fun hbase hseq => ⟨hbase.ge, hseq.ge, fun _ _ _ _ hb => hb⟩
  cases a with
  | write offset bytes =>
    have hlast : w.delivered last (.write offset bytes) = if w.st.abort.isSome then last
        else written last offset (bytes.take (w.st.total - offset)) := by
      rw [delivered]
      split <;> rfl
    obtain ⟨hholds, hshr, ha, -⟩ := writeSpan_spec h.holds offset bytes hlast
    exact h.buffer hholds ha hshr
  | trimTo watermark minRelease =>
    obtain ⟨hholds, ha⟩ := trimTo_holds h.holds watermark minRelease
    exact hstill hholds ha
  | trimPlan watermark minRelease =>
    refine hstill ?_ ?_
    · unfold trimPlan
      split
      · exact h.holds
      · exact h.holds.marks
    · unfold trimPlan
      split <;> exact hmark rfl rfl
  | trimCommit at_ seqBefore =>
    obtain ⟨hholds, ha⟩ := trimCommit_holds h.holds at_ seqBefore
    exact hstill hholds ha
  | trimAbandon => exact hstill h.holds.marks.keeps.resync (hmark rfl rfl)
  | closeTotal total =>
    refine hstill ?_ ?_
    · unfold closeTotal
      split
      · exact h.holds
      · exact h.holds.marks
    · unfold closeTotal
      split <;> exact hmark rfl rfl
  | pageCold cap need includeData =>
    have hrest : ((w.pagers ++ [({ cap, need, includeData } : Pager)]).map charge).sum =
        (w.pagers.map charge).sum := by
      rw [map_append, sum_append]
      rfl
    refine ⟨?_, fun p hp => ?_⟩
    · change Holds w.st w.sc (((w.pagers ++ [({ cap, need, includeData } : Pager)]).map charge).sum +
        w.others) last
      rw [hrest]
      exact h.holds
    · rcases mem_append.mp hp with hp | hp
      · exact h.pagers p hp
      · obtain rfl := mem_singleton.mp hp
        trivial
  | pager i =>
    unfold World.step
    dsimp only
    cases hp : w.pagers[i]? with
    | none => exact h
    | some p =>
      obtain ⟨n, hsum, hset, hmem⟩ := sum_map_set charge hp
      have hholds : Holds w.st w.sc (p.charge + (n + w.others)) last := by
        have hrest : p.charge + (n + w.others) = w.elsewhere := by
          rw [elsewhere, hsum]
          omega
        exact hrest ▸ h.holds
      have hstep := p.step_spec hholds (h.pagers p (mem_of_getElem? hp))
      refine ⟨?_, fun q hq => ?_⟩
      · have hrest : ((w.pagers.set i (p.step w.st w.sc).1).map charge).sum + w.others =
            (p.step w.st w.sc).1.charge + (n + w.others) := by
          rw [hset]
          omega
        exact (congrArg (fun r => Holds _ _ r last) hrest).mpr hstep.holds
      · rcases hmem _ q hq with rfl | ⟨hq, hle⟩
        · exact hstep.ok
        · exact (h.pagers q hq).step hstep.place.advance hstep.keeps (by omega)
  | serve stop => exact hstill h.holds.marks (hmark rfl rfl)
  | markConflict => exact hstill h.holds.marks (hmark rfl rfl)
  | append bytes cap =>
    have hlive := h.holds.stage.live
    refine h.scratch ?_ (Scratch.append_keeps h.holds.stage.cursor ?_ bytes cap)
    · have hcharge : (w.pagers.map charge).sum +
          (if (w.sc.append bytes cap).2.isSome then w.others + bytes.length else w.others) =
          w.elsewhere + if (w.sc.append bytes cap).2.isSome then bytes.length else 0 := by
        rw [elsewhere]
        split <;> omega
      exact (congrArg (fun r => Stage w.st (w.sc.append bytes cap).1 r _ _ _) hcharge).mpr
        (h.holds.stage.append bytes cap)
    · exact hlive ▸ (Nat.le_add_right _ _).trans (Nat.le_add_left _ _)
  | release len =>
    unfold World.step
    dsimp only
    split
    case isFalse => exact h
    case isTrue hle =>
      have hlive : (w.sc.release len).live =
          w.st.pagedBytes + ((w.pagers.map charge).sum + (w.others - len)) := by
        rw [w.sc.release_live, h.holds.stage.live, elsewhere]
        omega
      have hshr := w.sc.release_shrinks len
      refine h.scratch (h.holds.stage.shrink hshr (Scratch.release_cursor h.holds.stage.cursor _) hlive)
        (hshr.keeps ?_)
      omega
  | pin =>
    exact h.scratch (h.holds.stage.shrink ⟨le_rfl, fun _ => ⟨rfl, rfl⟩⟩ h.holds.stage.cursor
      h.holds.stage.live) fun r _ _ hr => ⟨hr, rfl⟩
  | unpin =>
    exact h.scratch (h.holds.stage.shrink ⟨le_rfl, fun _ => ⟨rfl, rfl⟩⟩ h.holds.stage.cursor
      h.holds.stage.live) fun r _ _ hr => ⟨hr, rfl⟩

theorem World.Inv.run {w : World} (h : w.Inv last) (actions : List Action) :
    (w.run last actions).1.Inv (w.run last actions).2 := by
  induction actions generalizing w last with
  | nil => exact h
  | cons a actions ih => exact ih (h.step a)

/-- A buffer on which nothing has been called yet. -/
def World.fresh (total : Nat) : World := { st := { total } }

theorem World.Inv.fresh (total : Nat) : (World.fresh total).Inv fun _ => none := by
  refine ⟨⟨⟨?_, nofun, nofun, nofun, nofun, nofun, nofun, le_rfl, rfl, rfl⟩, nofun, nofun, rfl⟩, nofun⟩
  intro x b _ hb
  cases hb

/-! ## Copies below the base -/

def World.trimsTo (w : World) : Action → Option Nat
  | .trimTo watermark minRelease => w.st.trimCut watermark minRelease
  | .trimCommit at_ seqBefore => w.st.trimmedTo at_ seqBefore
  | _ => none

/-- The step trims past the start of no parked span and of no paged region. -/
def World.Clear (w : World) (a : Action) : Prop :=
  ∀ cut, w.trimsTo a = some cut → (∀ y ∈ w.st.pending, cut ≤ y.1) ∧ ∀ y ∈ w.st.paged, cut ≤ y.1

theorem FrontierState.aboveBase_trimTo (h : AboveBase st) (watermark minRelease : Nat) :
    AboveBase (st.trimTo watermark minRelease).1 ↔ ∀ cut, st.trimCut watermark minRelease = some cut →
      (∀ y ∈ st.pending, cut ≤ y.1) ∧ ∀ y ∈ st.paged, cut ≤ y.1 := by
  unfold trimTo
  cases hcut : st.trimCut watermark minRelease with
  | none => exact iff_of_true h nofun
  | some cut =>
    have hbase : (st.drop (cut - st.base)).base = cut := by
      change st.base + (cut - st.base) = cut
      have := (trimCut_some hcut).1
      omega
    change (∀ y ∈ st.pending, (st.drop (cut - st.base)).base ≤ y.1) ∧
      (∀ y ∈ st.paged, (st.drop (cut - st.base)).base ≤ y.1) ↔ _
    rw [hbase]
    exact ⟨fun hcut' cut' he => Option.some.inj he ▸ hcut', fun hcut' => hcut' cut rfl⟩

theorem FrontierState.aboveBase_trimCommit (h : AboveBase st) (at_ seqBefore : Nat) :
    AboveBase (st.trimCommit at_ seqBefore).1 ↔ ∀ cut, st.trimmedTo at_ seqBefore = some cut →
      (∀ y ∈ st.pending, cut ≤ y.1) ∧ ∀ y ∈ st.paged, cut ≤ y.1 := by
  have hcons : ({ st with trimPending := 0 } : FrontierState).trimConsistent at_ st.trimPending
      seqBefore = st.trimConsistent at_ st.trimPending seqBefore := rfl
  unfold trimCommit trimmedTo
  dsimp only
  rw [hcons]
  by_cases hok : st.trimPending ≠ 0 ∧ st.trimConsistent at_ st.trimPending seqBefore = true
  case pos =>
    rw [if_neg (by simp [hok.1, hok.2]), if_pos hok]
    exact ⟨fun hcut' cut' he => Option.some.inj he ▸ hcut', fun hcut' => hcut' _ rfl⟩
  case neg =>
    rw [if_pos (by
      rw [Bool.or_eq_true, decide_eq_true_eq, Bool.not_eq_true', ← Bool.not_eq_true]
      tauto), if_neg hok]
    exact iff_of_true h nofun

/-- A step leaves a copy that starts below `base` just where it trims past one. -/
theorem World.aboveBase_step {w : World} (h : w.Inv last) (habove : AboveBase w.st) (a : Action) :
    AboveBase (w.step a).st ↔ w.Clear a := by
  have hkeep : AboveBase (w.step a).st → w.trimsTo a = none → (AboveBase (w.step a).st ↔ w.Clear a) :=
    fun hst hnone => iff_of_true hst fun cut he => by rw [hnone] at he; cases he
  cases a with
  | write offset bytes =>
    refine hkeep ?_ rfl
    obtain ⟨-, -, -, hstarts⟩ := writeSpan_spec h.holds offset bytes rfl
    refine ⟨fun y hy => ?_, fun y hy => ?_⟩
    · refine hstarts.base.le.trans ?_
      rcases hstarts.pending y hy with ⟨z, hz, he⟩ | ⟨z, hz, he⟩ | hle
      · exact he ▸ habove.1 z hz
      · exact he ▸ habove.2 z hz
      · exact hle
    · exact hstarts.base.le.trans (habove.2 y (hstarts.paged y hy))
  | trimTo watermark minRelease =>
    exact aboveBase_trimTo habove watermark minRelease
  | trimCommit at_ seqBefore => exact aboveBase_trimCommit habove at_ seqBefore
  | trimPlan watermark minRelease =>
    refine hkeep ?_ rfl
    change AboveBase (w.st.trimPlan watermark minRelease).1
    unfold trimPlan
    split <;> exact habove
  | trimAbandon => exact hkeep habove rfl
  | closeTotal total =>
    refine hkeep ?_ rfl
    change AboveBase (w.st.closeTotal total)
    unfold closeTotal
    split <;> exact habove
  | pageCold cap need includeData => exact hkeep habove rfl
  | pager i =>
    refine hkeep ?_ rfl
    unfold step
    dsimp only
    cases hp : w.pagers[i]? with
    | none => exact habove
    | some p =>
      obtain ⟨n, hsum, -, -⟩ := sum_map_set charge hp
      have hrest : w.elsewhere = p.charge + (n + w.others) := by
        rw [elsewhere, hsum]
        omega
      exact (p.step_spec (hrest ▸ h.holds) (h.pagers p (mem_of_getElem? hp))).place.above habove
  | serve stop => exact hkeep habove rfl
  | markConflict => exact hkeep habove rfl
  | append bytes cap => exact hkeep habove rfl
  | release len =>
    refine hkeep ?_ rfl
    unfold step
    dsimp only
    split <;> exact habove
  | pin => exact hkeep habove rfl
  | unpin => exact hkeep habove rfl

end NzbFast.Extract
