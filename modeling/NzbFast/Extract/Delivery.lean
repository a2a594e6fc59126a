import NzbFast.Extract.Copies

/-!
# A delivery keeps the copies together

`write_span` brings every copy of the delivered range to the new bytes, the run
first, then the paged regions, then the parked spans, and only then places the
bytes it did not hold. The parked spans may be left as they were when the run
already has the whole delivery, since the fold that follows uses them beyond the
run only (`foldRun_agrees`).
-/

namespace NzbFast.Extract

open NzbFast.Rust BTreeMap Option
open List hiding not_le not_lt
open Wire (byteAt byteAt_some_range byteAt_eq_none byteAt_isSome overlay)

/-- Right before a delivery or after it. -/
def Half (last : Nat → Option UInt8) (offset : Nat) (bytes : List UInt8) (x : Nat) (b : UInt8) :
    Prop := Is last x b ∨ Is (written last offset bytes) x b

theorem Agrees.half {base s offset : Nat} {v bytes : List UInt8} {last : Nat → Option UInt8}
    (h : Agrees base (Is last) s v) : Agrees base (Half last offset bytes) s v :=
  h.imp fun _ _ _ _ _ => .inl

theorem Agrees.half' {base s offset : Nat} {v bytes : List UInt8} {last : Nat → Option UInt8}
    (h : Agrees base (Is (written last offset bytes)) s v) :
    Agrees base (Half last offset bytes) s v :=
  h.imp fun _ _ _ _ _ => .inr

theorem Agrees.delivered (base : Nat) {offset : Nat} {bytes : List UInt8}
    {last : Nat → Option UInt8} : Agrees base (Is (written last offset bytes)) offset bytes :=
  fun _ _ _ hb => written_of_some hb

def NoDiff (s : Nat) (v : List UInt8) (offset : Nat) (bytes : List UInt8) : Prop :=
  ∀ x b c, byteAt s v x = some b → byteAt offset bytes x = some c → b = c

namespace FrontierState

/-! ## The run -/

section Run

variable {st : FrontierState} {sc : Scratch} {rest offset : Nat} {bytes : List UInt8}
  {last : Nat → Option UInt8} {P G : Nat → UInt8 → Prop}

theorem reconcileRun_spec (h : Agrees st.base (Is last) st.base st.data) :
    ∃ data, (st.reconcileRun offset bytes).1 = { st with data } ∧
      data.length = st.data.length ∧ Agrees st.base (Is (written last offset bytes)) st.base data ∧
      ((st.reconcileRun offset bytes).2 = none → NoDiff st.base st.data offset bytes) := by
  unfold reconcileRun
  split
  case isTrue =>
    exact ⟨_, rfl, length_reconcile _ _ _ _ _, agrees_reconcile none h.half,
      fun hnone => (reconcile_low hnone).2⟩
  case isFalse hapart =>
    have hno : NoDiff st.base st.data offset bytes := fun x b c hb hc => by
      have hb := byteAt_some_range hb
      have hc := byteAt_some_range hc
      have hram : st.frontierRam = st.base + st.data.length := rfl
      omega
    exact ⟨st.data, rfl, rfl, h.half.same hno, fun _ => hno⟩

end Run

/-! ## The regions -/

/-- The two reads' comparison says whether the region differs from the delivery. -/
theorem noDiff_of_slices {s offset a b : Nat} {v bytes : List UInt8} (ha : a = max offset s)
    (hb : b = min (offset + bytes.length) (s + v.length))
    (h : (v.drop (a - s)).take (b - a) = (bytes.take (b - offset)).drop (a - offset)) :
    NoDiff s v offset bytes := by
  intro x p c hp hc
  have hpr := byteAt_some_range hp
  have hcr := byteAt_some_range hc
  have hv : byteAt a ((v.drop (a - s)).take (b - a)) x = some p := by
    have hdrop := @Wire.byteAt_drop s (a - s) x v
    rw [show s + (a - s) = a by omega] at hdrop
    rw [Wire.byteAt_take, if_pos (by omega), hdrop, if_pos (by omega), hp]
  have hw : byteAt a ((bytes.take (b - offset)).drop (a - offset)) x = some c := by
    have hdrop := @Wire.byteAt_drop offset (a - offset) x (bytes.take (b - offset))
    rw [show offset + (a - offset) = a by omega] at hdrop
    rw [hdrop, if_pos (by omega), Wire.byteAt_take, if_pos (by omega), hc]
  rw [h, hw] at hv
  exact (some.inj hv).symm

theorem repark_spec (st : FrontierState) (s : Nat) (w : List UInt8) :
    ∃ v, st.repark s w = { st with pending := st.pending.insert s v } ∧ w.length ≤ v.length ∧
      (∀ old, (s, old) ∈ st.pending → old.length ≤ v.length) ∧
      (v = w ∨ ∃ old, (s, old) ∈ st.pending ∧ v = w ++ old.drop w.length) := by
  unfold repark
  split
  case h_1 old hget =>
    have hold := get_eq_some.mp hget
    have huniq : ∀ old', (s, old') ∈ st.pending → old' = old := fun old' h =>
      congrArg Prod.snd (mem_unique h hold rfl)
    split
    case isTrue hle =>
      refine ⟨_, rfl, by rw [length_append]; omega, fun old' h => ?_, .inr ⟨old, hold, rfl⟩⟩
      rw [huniq old' h, length_append, length_drop]
      omega
    case isFalse hlt =>
      exact ⟨w, rfl, le_rfl, fun old' h => huniq old' h ▸ Nat.le_of_not_le hlt, .inl rfl⟩
  case h_2 hget =>
    exact ⟨w, rfl, le_rfl, fun old' h => absurd rfl (get_eq_none.mp hget _ h), .inl rfl⟩

section Regions

variable {st : FrontierState} {sc : Scratch} {rest offset : Nat} {bytes : List UInt8}
  {last : Nat → Option UInt8} {R : Nat → UInt8 → Prop}

/-- The walk over the regions with those of `l` still to come. -/
structure Unpaged (st : FrontierState) (sc : Scratch) (low : Option Nat) (rest offset : Nat)
    (bytes : List UInt8) (last : Nat → Option UInt8) (R : Nat → UInt8 → Prop)
    (l : List (Nat × Nat × Nat)) (u : Unpaging) : Prop where
  frame : u.st = { st with pending := u.st.pending, paged := u.st.paged, pagedBytes := u.st.pagedBytes }
  stage : Stage u.st u.sc rest R (Half last offset bytes) (Is last)
  settled : ∀ y ∈ u.st.paged, y ∈ l ∨ Agrees st.base (Is (written last offset bytes)) y.1 (u.sc.region y.2)
  todo : ∀ y ∈ l, y ∈ u.st.paged
  paged : ∀ y ∈ u.st.paged, y ∈ st.paged ∧ u.sc.region y.2 = sc.region y.2
  shrinks : sc.Shrinks u.sc
  covered : ∀ x, Covered st x → Covered u.st x
  starts : ∀ y ∈ u.st.pending, (∃ z ∈ st.pending, z.1 = y.1) ∨ ∃ z ∈ st.paged, z.1 = y.1
  noDiff : u.low = none → low = none ∧ ∀ y ∈ st.paged, y ∉ l → NoDiff y.1 (sc.region y.2) offset bytes
  still : u.unpaged = false → u.st.pending = st.pending
  quiet : u.low = none → u.unpaged = false

theorem Unpaged.step {low : Option Nat} {l : List (Nat × Nat × Nat)} {u : Unpaging}
    {y : Nat × Nat × Nat} (h : Unpaged st sc low rest offset bytes last R (y :: l) u)
    (hfresh : ∀ z ∈ l, z.1 ≠ y.1) (hlo : offset < y.1 + y.2.2)
    (hhi : y.1 < offset + bytes.length) :
    Unpaged st sc low rest offset bytes last R l (unpage offset bytes u y) := by
  obtain ⟨s, po, len⟩ := y
  have hy := h.todo _ (.head _)
  have hbase : u.st.base = st.base := by rw [h.frame]
  have hpos := h.stage.positive _ hy
  have hfit := (h.stage.backed _ hy).trans h.stage.cursor
  have hregion : (u.sc.region (po, len)).length = len := h.stage.region_length hy
  have hagrees := h.stage.pages _ hy
  dsimp only at hlo hhi hpos hfit hagrees
  have hread : ∀ {skip n : Nat}, skip + n ≤ len →
      u.sc.read (po + skip) n = some (((u.sc.region (po, len)).drop skip).take n) :=
    fun hn => Scratch.read_inside (r := (po, len)) hfit hn
  have hwhole : u.sc.read po len = some (u.sc.region (po, len)) := by
    have := @hread 0 len (by omega)
    rwa [add_zero, drop_zero, take_of_length_le (by rw [hregion])] at this
  unfold unpage
  dsimp only
  rw [hread (by omega)]
  dsimp only
  split
  case isTrue hsame =>
    -- the region has the delivered bytes already
    have hno := noDiff_of_slices rfl (by rw [hregion]) hsame
    refine { h with
      settled := fun z hz => ?_
      todo := fun z hz => h.todo z (.tail _ hz)
      noDiff := fun hlow => ⟨(h.noDiff hlow).1, fun z hz hzl => ?_⟩ }
    · rcases h.settled z hz with hmem | hok
      · rcases mem_cons.mp hmem with rfl | hmem
        · exact .inr (hbase ▸ hagrees.half.same hno)
        · exact .inl hmem
      · exact .inr hok
    · by_cases hzy : z = (s, po, len)
      · rw [hzy, ← (h.paged _ hy).2]
        exact hno
      · exact (h.noDiff hlow).2 z hz fun hmem => (mem_cons.mp hmem).elim hzy hzl
  case isFalse hdiff =>
  rw [hwhole]
  dsimp only
  obtain ⟨v, hv, hlen, hold, hbytesv⟩ := repark_spec
    { u.st with paged := u.st.paged.remove s, pagedBytes := u.st.pagedBytes - len } s
    (overlay s (u.sc.region (po, len)) offset bytes)
  rw [Wire.length_overlay, hregion] at hlen
  rw [hv]
  have hsum := sum_remove (·.2) hy
  have hcharged := h.stage.charged
  have hlive := h.stage.live
  have hshr := h.shrinks.trans (u.sc.release_shrinks len)
  have hrl := u.sc.release_live len
  have hpaged : ∀ z ∈ u.st.paged.remove s, z ∈ u.st.paged ∧ z.1 ≠ s ∧
      (u.sc.release len).file = u.sc.file ∧ (u.sc.release len).cursor = u.sc.cursor := by
    intro z hz
    have hzm := mem_remove.mp hz
    have hzpos := h.stage.positive z hzm.1
    have hzle := le_sum (·.2) hz
    refine ⟨hzm.1, hzm.2, (u.sc.release_shrinks len).same ?_⟩
    omega
  have hvagrees : Agrees u.st.base (Half last offset bytes) s v := by
    have hnew : Agrees u.st.base (Half last offset bytes) s
        (overlay s (u.sc.region (po, len)) offset bytes) := hagrees.half.overlay.half'
    rcases hbytesv with rfl | ⟨old, holdm, rfl⟩
    · exact hnew
    · exact hnew.append (h.stage.parked _ holdm).drop
  have hmemv : (s, v) ∈ u.st.pending.insert s v := mem_insert.mpr (.inl rfl)
  refine ⟨?_, ⟨h.stage.run, fun z hz => ?_, fun z hz => ?_, fun z hz => ?_, fun z hz z' hz' => ?_,
    fun z hz => ?_, fun z hz => ?_, Scratch.release_cursor h.stage.cursor len, ?_, ?_⟩, fun z hz => ?_,
    fun z hz => ?_, fun z hz => ?_, hshr, fun x hx => ?_, fun z hz => ?_, nofun, nofun, nofun⟩
  · rw [h.frame]
  · rcases mem_insert.mp hz with rfl | ⟨hz, -⟩
    · exact hvagrees
    · exact h.stage.parked z hz
  · rcases mem_insert.mp hz with rfl | ⟨hz, -⟩
    · exact ne_nil_of_length_pos (by dsimp only; omega)
    · exact h.stage.nonempty z hz
  · obtain ⟨hzm, -, hfile, -⟩ := hpaged z hz
    rw [Scratch.region, hfile]
    exact h.stage.pages z hzm
  · exact h.stage.disjoint z (hpaged z hz).1 z' (hpaged z' hz').1
  · exact h.stage.positive z (hpaged z hz).1
  · obtain ⟨hzm, -, -, hcursor⟩ := hpaged z hz
    rw [hcursor]
    exact h.stage.backed z hzm
  · dsimp only
    omega
  · dsimp only
    omega
  · obtain ⟨hzm, hzs, hfile, -⟩ := hpaged z hz
    rcases h.settled z hzm with hmem | hok
    · rcases mem_cons.mp hmem with rfl | hmem
      · exact absurd rfl hzs
      · exact .inl hmem
    · rw [Scratch.region, hfile]
      exact .inr hok
  · exact mem_remove.mpr ⟨h.todo z (.tail _ hz), hfresh z hz⟩
  · obtain ⟨hzm, -, hfile, -⟩ := hpaged z hz
    obtain ⟨hz0, hreg⟩ := h.paged z hzm
    exact ⟨hz0, by rw [← hreg, Scratch.region, Scratch.region, hfile]⟩
  · -- what the region or the replaced span covered, the new span covers
    rcases h.covered x hx with hrun | ⟨z, hz, hzx⟩ | ⟨z, hz, hzx⟩
    · exact .inl hrun
    · by_cases hzs : z.1 = s
      · refine .inr (.inl ⟨(s, v), hmemv, ?_⟩)
        have := hold z.2 (hzs ▸ hz)
        dsimp only
        omega
      · exact .inr (.inl ⟨z, mem_insert.mpr (.inr ⟨hz, hzs⟩), hzx⟩)
    · by_cases hzs : z.1 = s
      · obtain rfl := mem_unique hz hy hzs
        refine .inr (.inl ⟨(s, v), hmemv, ?_⟩)
        dsimp only at hzx ⊢
        omega
      · exact .inr (.inr ⟨z, mem_remove.mpr ⟨hz, hzs⟩, hzx⟩)
  · rcases mem_insert.mp hz with rfl | ⟨hz, -⟩
    · exact .inr ⟨_, (h.paged _ hy).1, rfl⟩
    · exact h.starts z hz

theorem Unpaged.run {low : Option Nat} (hne : bytes ≠ []) :
    ∀ {l : List (Nat × Nat × Nat)} {u : Unpaging}, (l.Pairwise fun y z => y.1 < z.1) →
      (∀ y ∈ l, offset < y.1 + y.2.2 ∧ y.1 < offset + bytes.length) →
      Unpaged st sc low rest offset bytes last R l u →
      Unpaged st sc low rest offset bytes last R [] (l.foldl (unpage offset bytes) u)
  | [], _, _, _, h => h
  | y :: l, u, hp, hl, h => by
    obtain ⟨hhead, htail⟩ := pairwise_cons.mp hp
    obtain ⟨hlo, hhi⟩ := hl y (.head _)
    rw [foldl_cons]
    exact Unpaged.run hne htail (fun z hz => hl z (.tail _ hz))
      (h.step (fun z hz => (ne_of_lt (hhead z hz)).symm) hlo hhi)

/-- Every start of a copy comes from a copy that was there, or is new and not below `base`. -/
structure Starts (st st' : FrontierState) : Prop where
  base : st'.base = st.base
  pending : ∀ y ∈ st'.pending,
    (∃ z ∈ st.pending, z.1 = y.1) ∨ (∃ z ∈ st.paged, z.1 = y.1) ∨ st.base ≤ y.1
  paged : ∀ y ∈ st'.paged, y ∈ st.paged

/-- The run and the count of rewrites are as they were. -/
structure SameRun (st st' : FrontierState) : Prop where
  base : st'.base = st.base
  data : st'.data = st.data
  rewriteSeq : st'.rewriteSeq = st.rewriteSeq

/-- A region outside the walk is outside the delivery. -/
theorem apart_of_not_mem
    (hdisjoint : ∀ y ∈ st.paged, ∀ z ∈ st.paged, y.1 < z.1 → y.1 + y.2.2 ≤ z.1)
    {y : Nat × Nat × Nat} (hy : y ∈ st.paged)
    (h : y ∉ (st.paged.range ((st.paged.lastLE offset).elim 0 (·.1)) (offset + bytes.length)).filter
      fun x => decide (offset < x.1 + x.2.2)) :
    y.1 + y.2.2 ≤ offset ∨ offset + bytes.length ≤ y.1 := by
  by_contra hin
  obtain ⟨hlo, hhi⟩ := not_or.mp hin
  refine h (mem_filter.mpr ⟨mem_range.mpr ⟨hy, ?_, not_le.mp hhi⟩,
    decide_eq_true (not_le.mp hlo)⟩)
  cases hlast : st.paged.lastLE offset with
  | none => exact Nat.zero_le _
  | some z =>
    obtain ⟨hz, hzle, hmax⟩ := lastLE_some hlast
    by_contra hlt
    have := hdisjoint y hy z hz (not_le.mp hlt)
    omega

theorem noDiff_of_apart {s : Nat} {v : List UInt8}
    (h : s + v.length ≤ offset ∨ offset + bytes.length ≤ s) : NoDiff s v offset bytes := by
  intro x b c hb hc
  have hb := byteAt_some_range hb
  have hc := byteAt_some_range hc
  omega

theorem Unpaged.start (h : Stage st sc rest R (Is last) (Is last)) (low : Option Nat)
    (offset : Nat) (bytes : List UInt8) :
    Unpaged st sc low rest offset bytes last R
      ((st.paged.range ((st.paged.lastLE offset).elim 0 (·.1)) (offset + bytes.length)).filter
        fun x => decide (offset < x.1 + x.2.2)) { st, sc, low } := by
  have hhalf : Stage st sc rest R (Half last offset bytes) (Is last) :=
    { h with parked := fun y hy => (h.parked y hy).half }
  have hlenr : ∀ y ∈ st.paged, (sc.region y.2).length = y.2.2 := fun y hy => h.region_length hy
  refine ⟨rfl, hhalf, fun y hy => ?_, fun y hy => ?_, fun y hy => ⟨hy, rfl⟩, .refl sc,
    fun x hx => hx, fun y hy => .inl ⟨y, hy, rfl⟩, fun hlow => ⟨hlow, fun y hy hyl => ?_⟩,
    fun _ => rfl, fun _ => rfl⟩
  · by_cases hyl : y ∈ (st.paged.range ((st.paged.lastLE offset).elim 0 (·.1))
      (offset + bytes.length)).filter fun x => decide (offset < x.1 + x.2.2)
    · exact .inl hyl
    · have hapart := apart_of_not_mem h.disjoint hy hyl
      exact .inr ((h.pages y hy).half.same (noDiff_of_apart (by rw [hlenr y hy]; exact hapart)))
  · exact (mem_range.mp (mem_filter.mp hy).1).1
  · exact noDiff_of_apart (by rw [hlenr y hy]; exact apart_of_not_mem h.disjoint hy hyl)

theorem reconcilePaged_spec (h : Stage st sc rest R (Is last) (Is last)) (hb : Bounded st)
    (hne : bytes ≠ []) (low : Option Nat) :
    SameRun st (st.reconcilePaged sc low offset bytes).1 ∧
      Stage (st.reconcilePaged sc low offset bytes).1 (st.reconcilePaged sc low offset bytes).2.1 rest
        R (Half last offset bytes) (Is (written last offset bytes)) ∧
      Bounded (st.reconcilePaged sc low offset bytes).1 ∧
      sc.Shrinks (st.reconcilePaged sc low offset bytes).2.1 ∧
      (∀ x, Covered st x → Covered (st.reconcilePaged sc low offset bytes).1 x) ∧
      Starts st (st.reconcilePaged sc low offset bytes).1 ∧
      ((st.reconcilePaged sc low offset bytes).2.2 = none → low = none ∧
        (st.reconcilePaged sc low offset bytes).1.pending = st.pending ∧
        (st.base < offset + bytes.length →
          ∀ y ∈ st.paged, NoDiff y.1 (sc.region y.2) offset bytes)) := by
  have hhalf : Stage st sc rest R (Half last offset bytes) (Is last) :=
    ⟨h.run, fun y hy => (h.parked y hy).half, h.nonempty, h.pages, h.disjoint, h.positive, h.backed,
      h.cursor, h.live, h.charged⟩
  unfold reconcilePaged
  split
  case isTrue hcond =>
    have hrun := Unpaged.run hne ((st.paged.range_sorted _ _).filter _) (fun y hy => by
      obtain ⟨hy, hlo⟩ := mem_filter.mp hy
      exact ⟨of_decide_eq_true hlo, (mem_range.mp hy).2.2⟩) (Unpaged.start h low offset bytes)
    dsimp only
    generalize hu : ((st.paged.range ((st.paged.lastLE offset).elim 0 (·.1))
      (offset + bytes.length)).filter fun x => decide (offset < x.1 + x.2.2)).foldl
        (unpage offset bytes) { st, sc, low } = u at hrun ⊢
    have hstage : Stage u.st u.sc rest R (Half last offset bytes)
        (Is (written last offset bytes)) := by
      have hbase : u.st.base = st.base := by rw [hrun.frame]
      refine { hrun.stage with pages := fun y hy => ?_ }
      rcases hrun.settled y hy with hnil | hok
      · cases hnil
      · rwa [hbase]
    have hstarts : Starts st u.st :=
      ⟨by rw [hrun.frame], fun y hy => (hrun.starts y hy).imp_right .inl,
        fun y hy => (hrun.paged y hy).1⟩
    have hlow : u.low = none → low = none ∧ u.st.pending = st.pending ∧
        (st.base < offset + bytes.length → ∀ y ∈ st.paged, NoDiff y.1 (sc.region y.2) offset bytes) :=
      fun hlow => ⟨(hrun.noDiff hlow).1, hrun.still (hrun.quiet hlow),
        fun _ y hy => (hrun.noDiff hlow).2 y hy not_mem_nil⟩
    have hsame : SameRun st u.st :=
      ⟨by rw [hrun.frame], by rw [hrun.frame], by rw [hrun.frame]⟩
    cases hflag : u.unpaged with
    | true =>
      exact ⟨⟨hsame.base, hsame.data, hsame.rewriteSeq⟩, hstage.resync,
        resyncRetained_bounded _, hrun.shrinks, hrun.covered,
        ⟨hstarts.base, hstarts.pending, hstarts.paged⟩, hlow⟩
    | false =>
      refine ⟨hsame, hstage, fun y hy => ?_, hrun.shrinks, hrun.covered, hstarts, hlow⟩
      rw [if_neg Bool.false_ne_true] at hy ⊢
      rw [hrun.still hflag] at hy
      rw [hrun.frame]
      exact hb y hy
  case isFalse hcond =>
    refine ⟨⟨rfl, rfl, rfl⟩, ?_, hb, .refl sc, fun x hx => hx,
      ⟨rfl, fun y hy => .inl ⟨y, hy, rfl⟩, fun y hy => hy⟩,
      fun hlow => ⟨hlow, rfl, fun hbase y hy => ?_⟩⟩
    · refine { hhalf with pages := fun y hy => ?_ }
      intro x b hx hbyte
      have hempty := ne_nil_of_mem hy
      have hend := not_lt.mp fun hlt => hcond ⟨hempty, hlt⟩
      exact (written_of_none (byteAt_eq_none.mpr (.inr (hend.trans hx)))).trans
        (h.pages y hy x b hx hbyte)
    · exact absurd ⟨ne_nil_of_mem hy, hbase⟩ hcond

end Regions

/-! ## The parked spans -/

section Parked

variable {st : FrontierState} {sc : Scratch} {rest offset : Nat} {bytes : List UInt8}
  {last : Nat → Option UInt8} {R G : Nat → UInt8 → Prop}

/-- What a parked span knows after its walk: the new bytes, where the delivery passes the run. -/
def ParkedKnows (st : FrontierState) (last : Nat → Option UInt8) (offset : Nat)
    (bytes : List UInt8) (x : Nat) (b : UInt8) : Prop :=
  Half last offset bytes x b ∧
    (st.frontierRam < offset + bytes.length → Is (written last offset bytes) x b)

/-- Beyond the run such a span has the new bytes. -/
theorem ParkedKnows.beyond {x : Nat} {b : UInt8} (h : ParkedKnows st last offset bytes x b)
    (hx : st.frontierRam ≤ x) : Is (written last offset bytes) x b := by
  by_cases hend : st.frontierRam < offset + bytes.length
  · exact h.2 hend
  · rcases h.1 with hlast | hnew
    · exact (written_of_none (byteAt_eq_none.mpr (.inr (by omega)))).trans hlast
    · exact hnew

theorem foldl_low {l : List (Nat × List UInt8)} {low : Option Nat}
    (h : l.foldl (fun low x => (reconcile x.1 x.2 offset bytes low).2) low = none) :
    low = none ∧ ∀ y ∈ l, NoDiff y.1 y.2 offset bytes := by
  induction l generalizing low with
  | nil => exact ⟨h, fun y hy => nomatch hy⟩
  | cons y l ih =>
    obtain ⟨hlow, hl⟩ := ih h
    obtain ⟨hlow, hy⟩ := reconcile_low hlow
    refine ⟨hlow, fun z hz => ?_⟩
    rcases mem_cons.mp hz with rfl | hz
    · exact hy
    · exact hl z hz

theorem reconcileParked_spec (h : Stage st sc rest R (Half last offset bytes) G) (hb : Bounded st)
    (low : Option Nat) :
    ∃ pending, (st.reconcileParked low offset bytes).1 = { st with pending } ∧
      Stage { st with pending } sc rest R (ParkedKnows st last offset bytes) G ∧
      (∀ x, Covered st x → Covered { st with pending } x) ∧
      (∀ y ∈ pending, ∃ z ∈ st.pending, z.1 = y.1) ∧
      ((st.reconcileParked low offset bytes).2 = none → low = none ∧
        (st.frontierRam < offset + bytes.length → ∀ y ∈ st.pending, NoDiff y.1 y.2 offset bytes)) := by
  have hout : ∀ y ∈ st.pending, ¬ (offset - st.pendingMaxLen ≤ y.1 ∧ y.1 < offset + bytes.length) →
      y.1 + y.2.length ≤ offset ∨ offset + bytes.length ≤ y.1 := fun y hy hout => by
    have := hb y hy
    omega
  unfold reconcileParked
  split
  case isTrue hend =>
    have hlen : ∀ s v, (if offset - st.pendingMaxLen ≤ s ∧ s < offset + bytes.length then
        (reconcile s v offset bytes none).1 else v).length = v.length := fun s v => by
      split
      · exact length_reconcile _ _ _ _ _
      · rfl
    refine ⟨_, rfl, { h with parked := fun y hy => ?_, nonempty := fun y hy => ?_ }, fun x hx => ?_,
      fun y hy => ?_, fun hlow => ?_⟩
    · obtain ⟨v, hv, he⟩ := mem_mapVals.mp hy
      rw [he]
      have hnew : Agrees st.base (Is (written last offset bytes)) y.1
          (if offset - st.pendingMaxLen ≤ y.1 ∧ y.1 < offset + bytes.length then
            (reconcile y.1 v offset bytes none).1 else v) := by
        split
        case isTrue => exact agrees_reconcile none (h.parked _ hv)
        case isFalse hcond => exact (h.parked _ hv).same (noDiff_of_apart (hout _ hv hcond))
      exact hnew.imp fun x b _ _ _ hw => ⟨.inr hw, fun _ => hw⟩
    · obtain ⟨v, hv, he⟩ := mem_mapVals.mp hy
      refine ne_nil_of_length_pos ?_
      rw [he, hlen]
      exact length_pos_of_ne_nil (h.nonempty _ hv)
    · rcases hx with hrun | ⟨y, hy, hyx⟩ | hpage
      · exact .inl hrun
      · refine .inr (.inl ⟨_, mem_mapVals_of_mem _ hy, ?_⟩)
        rw [hlen]
        exact hyx
      · exact .inr (.inr hpage)
    · obtain ⟨v, hv, -⟩ := mem_mapVals.mp hy
      exact ⟨_, hv, rfl⟩
    · obtain ⟨hlow, hrange⟩ := foldl_low hlow
      refine ⟨hlow, fun _ y hy => ?_⟩
      by_cases hcond : offset - st.pendingMaxLen ≤ y.1 ∧ y.1 < offset + bytes.length
      · exact hrange y (mem_range.mpr ⟨hy, hcond.1, hcond.2⟩)
      · exact noDiff_of_apart (hout y hy hcond)
  case isFalse hend =>
    refine ⟨st.pending, rfl, { h with parked := fun y hy => ?_ }, fun x hx => hx,
      fun y hy => ⟨y, hy, rfl⟩, fun hlow => ⟨hlow, fun hlt => absurd hlt hend⟩⟩
    exact (h.parked y hy).imp fun x b _ _ _ hhalf => ⟨hhalf, fun hlt => absurd hlt hend⟩

end Parked

/-! ## Placing what is new -/

theorem pagedAt_some {st : FrontierState} {pos : Nat} {y : Nat × Nat × Nat}
    (h : st.pagedAt pos = some y) : y ∈ st.paged ∧ y.1 ≤ pos ∧ pos < y.1 + y.2.2 := by
  obtain ⟨hlast, hpos⟩ := filter_eq_some_iff.mp h
  obtain ⟨hy, hle, -⟩ := lastLE_some hlast
  exact ⟨hy, hle, of_decide_eq_true hpos⟩

theorem pagedAt_none {st : FrontierState} {pos : Nat}
    (hdisjoint : ∀ y ∈ st.paged, ∀ z ∈ st.paged, y.1 < z.1 → y.1 + y.2.2 ≤ z.1)
    (h : st.pagedAt pos = none) {y : Nat × Nat × Nat} (hy : y ∈ st.paged) (hle : y.1 ≤ pos) :
    y.1 + y.2.2 ≤ pos := by
  cases hlast : st.paged.lastLE pos with
  | none =>
    have := lastLE_none hlast hy
    omega
  | some z =>
    obtain ⟨hz, hzle, hmax⟩ := lastLE_some hlast
    rw [pagedAt, hlast, filter_eq_none_iff] at h
    have hend := h z rfl
    rw [decide_eq_true_eq, not_lt] at hend
    rcases lt_or_ge y.1 z.1 with hlt | hge
    · exact (hdisjoint y hy z hz hlt).trans hzle
    · exact mem_unique hy hz (le_antisymm (hmax y hy hle) hge) ▸ hend

theorem pagedTo_covers {st : FrontierState} {pos stop : Nat} (h : st.pagedTo pos stop = true) :
    ∃ y ∈ st.paged, y.1 ≤ pos ∧ stop ≤ y.1 + y.2.2 := by
  unfold pagedTo at h
  cases hp : st.pagedAt pos with
  | none =>
    rw [hp] at h
    cases h
  | some y =>
    rw [hp, any_some, decide_eq_true_eq] at h
    obtain ⟨hy, hle, -⟩ := pagedAt_some hp
    exact ⟨y, hy, hle, h⟩

theorem appendStop_le {st : FrontierState} {stop : Nat} (h : st.frontierRam < stop) :
    st.frontierRam ≤ st.appendStop stop ∧ st.appendStop stop ≤ stop := by
  unfold appendStop
  split
  case isTrue => exact ⟨le_rfl, h.le⟩
  case isFalse =>
    cases hhead : (st.paged.range st.frontierRam stop).head? with
    | none => exact ⟨h.le, le_rfl⟩
    | some y =>
      obtain ⟨-, hlo, hhi, -⟩ := head_range_some hhead
      exact ⟨hlo, hhi.le⟩

theorem park_spec {st : FrontierState} {sc : Scratch} {rest s : Nat} {v : List UInt8}
    {R P G : Nat → UInt8 → Prop} (h : Stage st sc rest R P G) (hv : Agrees st.base P s v)
    (hne : v ≠ []) :
    ∃ pending, st.park s v = { st with pending } ∧ Stage { st with pending } sc rest R P G ∧
      (∀ x, Covered st x → Covered { st with pending } x) ∧
      (∀ x, s ≤ x → x < s + v.length → Covered { st with pending } x) ∧
      ∀ y ∈ pending, y ∈ st.pending ∨ y.1 = s := by
  unfold park
  dsimp only
  cases hpaged : st.pagedTo s (s + v.length) with
  | true =>
    obtain ⟨y, hy, hle, hend⟩ := pagedTo_covers hpaged
    exact ⟨st.pending, rfl, h, fun x hx => hx,
      fun x hlo hhi => .inr (.inr ⟨y, hy, by omega⟩), fun y hy => .inl hy⟩
  | false =>
  rw [Bool.not_false, Bool.true_and]
  split
  case isTrue hkeep =>
    refine ⟨_, rfl, { h with parked := fun y hy => ?_, nonempty := fun y hy => ?_ }, fun x hx => ?_,
      fun x hlo hhi => .inr (.inl ⟨_, mem_insert.mpr (.inl rfl), hlo, hhi⟩), fun y hy => ?_⟩
    · rcases mem_insert.mp hy with rfl | ⟨hy, -⟩
      · exact hv
      · exact h.parked y hy
    · rcases mem_insert.mp hy with rfl | ⟨hy, -⟩
      · exact hne
      · exact h.nonempty y hy
    · rcases hx with hrun | ⟨y, hy, hyx⟩ | hpage
      · exact .inl hrun
      · by_cases hys : y.1 = s
        · have hlt : y.2.length < v.length := by
            rw [get_eq_some.mpr (hys ▸ hy : (s, y.2) ∈ st.pending), all_some,
              decide_eq_true_eq] at hkeep
            exact hkeep
          exact .inr (.inl ⟨(s, v), mem_insert.mpr (.inl rfl), by dsimp only; omega⟩)
        · exact .inr (.inl ⟨y, mem_insert.mpr (.inr ⟨hy, hys⟩), hyx⟩)
      · exact .inr (.inr hpage)
    · rcases mem_insert.mp hy with rfl | ⟨hy, -⟩
      · exact .inr rfl
      · exact .inl hy
  case isFalse hdrop =>
    refine ⟨st.pending, rfl, h, fun x hx => hx, fun x hlo hhi => ?_, fun y hy => .inl hy⟩
    cases hget : st.pending.get s with
    | none =>
      rw [hget] at hdrop
      exact absurd rfl hdrop
    | some old =>
      rw [hget, all_some, decide_eq_true_eq, not_lt] at hdrop
      exact .inr (.inl ⟨(s, old), get_eq_some.mp hget, by dsimp only; omega⟩)

/-- The fold takes the run over the parked spans it reaches: what it takes from a span lies beyond
the run. -/
theorem foldRun_spec {base : Nat} {P Q : Nat → UInt8 → Prop} :
    ∀ {l : List (Nat × List UInt8)} {data : List UInt8}, (l.Pairwise fun y z => y.1 < z.1) →
      Agrees base P base data → (∀ y ∈ l, Agrees base Q y.1 y.2) →
      (∀ x b, base + data.length ≤ x → Q x b → P x b) →
      data.length ≤ (foldRun base data l).1.length ∧ Agrees base P base (foldRun base data l).1 ∧
      (∀ y ∈ (foldRun base data l).2, Agrees base P y.1 y.2) ∧
      ∀ y ∈ l, y ∈ (foldRun base data l).2 ∨
        y.1 + y.2.length ≤ base + (foldRun base data l).1.length
  | [], data, _, hdata, _, _ => ⟨le_rfl, hdata, fun y hy => (nomatch hy), fun y hy => (nomatch hy)⟩
  | (s, v) :: l, data, hp, hdata, hl, hbeyond => by
    obtain ⟨hhead, htail⟩ := pairwise_cons.mp hp
    have hv := hl (s, v) (.head _)
    unfold foldRun
    split
    case isTrue hgap =>
      refine ⟨le_rfl, hdata, fun y hy => (hl y hy).imp fun x b _ hx _ hq => hbeyond x b ?_ hq,
        fun y hy => .inl hy⟩
      rcases mem_cons.mp hy with rfl | hy
      · exact hgap.le.trans hx
      · exact (hgap.trans (hhead y hy)).le.trans hx
    case isFalse hreach =>
      have hplace : s + (base + data.length - s) = base + data.length := by omega
      have hdata' : Agrees base P base (data ++ v.drop (base + data.length - s)) := by
        refine hdata.append ?_
        have hdrop := hv.drop (k := base + data.length - s)
        rw [hplace] at hdrop
        exact hdrop.imp fun x b _ hx _ hq => hbeyond x b hx hq
      have hgrow : (data ++ v.drop (base + data.length - s)).length =
          data.length + (v.length - (base + data.length - s)) := by
        rw [length_append, length_drop]
      obtain ⟨hlen, hrun, hrest, hall⟩ := foldRun_spec htail hdata'
        (fun y hy => hl y (.tail _ hy)) fun x b hx hq => hbeyond x b (by omega) hq
      refine ⟨by omega, hrun, hrest, fun y hy => ?_⟩
      rcases mem_cons.mp hy with rfl | hy
      · refine .inr ?_
        dsimp only
        omega
      · exact hall y hy

theorem foldParked_spec {st : FrontierState} {sc : Scratch} {rest : Nat} {P Q : Nat → UInt8 → Prop}
    (h : Stage st sc rest P Q P) (hbeyond : ∀ x b, st.frontierRam ≤ x → Q x b → P x b) :
    Stage st.foldParked sc rest P P P ∧ st.foldParked.base = st.base ∧
      st.foldParked.rewriteSeq = st.rewriteSeq ∧ st.foldParked.paged = st.paged ∧
      (∀ x, st.base ≤ x → Covered st x → Covered st.foldParked x) ∧
      ∀ y ∈ st.foldParked.pending, y ∈ st.pending := by
  have hsub : ∀ y ∈ st.foldParked.pending, y ∈ st.pending := fun y hy =>
    (foldRun_suffix _ _ _).subset hy
  obtain ⟨hlen, hrun, hrest, hall⟩ := foldRun_spec (P := P) (Q := Q) st.pending.sorted h.run h.parked
    hbeyond
  refine ⟨⟨hrun, hrest, fun y hy => h.nonempty y (hsub y hy), h.pages, h.disjoint, h.positive,
    h.backed, h.cursor, h.live, h.charged⟩, rfl, rfl, rfl, fun x hx hcov => ?_, hsub⟩
  have hram : st.foldParked.frontierRam = st.base + (foldRun st.base st.data st.pending.entries).1.length :=
    rfl
  rcases hcov with hrunx | ⟨y, hy, hyx⟩ | hpage
  · refine .inl ⟨hx, ?_⟩
    have : st.frontierRam = st.base + st.data.length := rfl
    omega
  · rcases hall y hy with hstay | hgone
    · exact .inr (.inl ⟨y, hstay, hyx⟩)
    · exact .inl ⟨hx, by omega⟩
  · exact .inr (.inr hpage)

section Place

variable {st : FrontierState} {sc : Scratch} {rest offset : Nat} {bytes : List UInt8}
  {last : Nat → Option UInt8}

theorem appendRun_spec {P : Nat → UInt8 → Prop}
    (h : Stage st sc rest (Is (written last offset bytes)) P (Is (written last offset bytes)))
    (hoffset : offset ≤ st.frontierRam) {stop : Nat} (hlo : st.frontierRam ≤ stop)
    (hhi : stop ≤ offset + bytes.length) :
    (st.appendRun offset bytes stop).frontierRam = stop ∧
      Stage (st.appendRun offset bytes stop) sc rest (Is (written last offset bytes)) P
        (Is (written last offset bytes)) ∧
      ∀ x, Covered st x → Covered (st.appendRun offset bytes stop) x := by
  have hram : st.frontierRam = st.base + st.data.length := rfl
  have hstop : (st.appendRun offset bytes stop).frontierRam = stop := by
    dsimp only [frontierRam, appendRun] at hoffset hlo ⊢
    rw [length_append, length_drop, length_take]
    omega
  refine ⟨hstop, ⟨?_, h.parked, h.nonempty, h.pages, h.disjoint, h.positive, h.backed, h.cursor,
    h.live, h.charged⟩, fun x hx => ?_⟩
  · refine h.run.append ?_
    have hdrop := ((@Agrees.delivered st.base offset bytes last).take (k := stop - offset)).drop
      (k := st.frontierRam - offset)
    rwa [show offset + (st.frontierRam - offset) = st.base + st.data.length by omega] at hdrop
  · rcases hx with hrun | hpark
    · exact .inl ⟨hrun.1, by rw [hstop]; omega⟩
    · exact .inr hpark

theorem extend_spec
    (h : Stage st sc rest (Is (written last offset bytes)) (ParkedKnows st last offset bytes)
      (Is (written last offset bytes)))
    (hoffset : offset ≤ st.frontierRam) :
    Stage (st.extend offset bytes) sc rest (Is (written last offset bytes))
        (Is (written last offset bytes)) (Is (written last offset bytes)) ∧
      (st.extend offset bytes).base = st.base ∧
      (st.extend offset bytes).rewriteSeq = st.rewriteSeq ∧
      (st.extend offset bytes).paged = st.paged ∧
      (∀ x, st.base ≤ x → Covered st x ∨ (offset ≤ x ∧ x < offset + bytes.length) →
        Covered (st.extend offset bytes) x) ∧
      ∀ y ∈ (st.extend offset bytes).pending, y ∈ st.pending ∨ st.base ≤ y.1 := by
  have hram : st.frontierRam = st.base + st.data.length := rfl
  unfold extend
  dsimp only
  split
  case isFalse hend =>
    obtain ⟨hstage, hbase, hseq, hpaged, hcov, hsub⟩ := foldParked_spec h fun x b hx hq => hq.beyond hx
    refine ⟨hstage, hbase, hseq, hpaged, fun x hx hor => hcov x hx ?_, fun y hy => .inl (hsub y hy)⟩
    exact hor.elim id fun hin => .inl (by omega)
  case isTrue hend =>
    have hnew := { h with parked := fun y hy => (h.parked y hy).imp fun x b _ _ _ hq => hq.2 hend }
    obtain ⟨hlo, hhi⟩ := appendStop_le hend
    obtain ⟨hstop, happ, hcov⟩ := appendRun_spec hnew hoffset hlo hhi
    generalize st.appendStop (offset + bytes.length) = stop at hlo hhi hstop happ hcov ⊢
    generalize hst : st.appendRun offset bytes stop = st₁ at hstop happ hcov ⊢
    have hbase₁ : st₁.base = st.base := hst ▸ rfl
    have hseq₁ : st₁.rewriteSeq = st.rewriteSeq := hst ▸ rfl
    have hpaged₁ : st₁.paged = st.paged := hst ▸ rfl
    have hpending₁ : st₁.pending = st.pending := hst ▸ rfl
    have hrun₁ : ∀ x, st.base ≤ x → x < stop → Covered st₁ x := fun x hx hlt =>
      .inl ⟨hbase₁ ▸ hx, hstop ▸ hlt⟩
    split
    case isFalse hall =>
      obtain ⟨hstage, hbase, hseq, hpaged, hfold, hsub⟩ := foldParked_spec happ fun x b _ hq => hq
      refine ⟨hstage, hbase.trans hbase₁, hseq.trans hseq₁, hpaged.trans hpaged₁,
        fun x hx hor => hfold x (hbase₁ ▸ hx) ?_, fun y hy => .inl (hpending₁ ▸ hsub y hy)⟩
      exact hor.elim (hcov x) fun hin => hrun₁ x hx (by omega)
    case isTrue hpart =>
      have hagrees : Agrees st₁.base (Is (written last offset bytes)) stop
          (bytes.drop (stop - offset)) := by
        have hdrop := (@Agrees.delivered st₁.base offset bytes last).drop (k := stop - offset)
        rwa [show offset + (stop - offset) = stop by omega] at hdrop
      have hlen : (bytes.drop (stop - offset)).length = offset + bytes.length - stop := by
        rw [length_drop]
        omega
      obtain ⟨pending, hpark, hstage₂, hcov₂, hnew₂, hsub₂⟩ := park_spec happ hagrees
        (ne_nil_of_length_pos (by omega))
      rw [hpark]
      obtain ⟨hstage, hbase, hseq, hpaged, hfold, hsub⟩ := foldParked_spec hstage₂ fun x b _ hq => hq
      refine ⟨hstage, hbase.trans hbase₁, hseq.trans hseq₁, hpaged.trans hpaged₁,
        fun x hx hor => hfold x (hbase₁ ▸ hx) ?_, fun y hy => ?_⟩
      · rcases hor with hold | hin
        · exact hcov₂ x (hcov x hold)
        · by_cases hxs : x < stop
          · exact hcov₂ x (hrun₁ x hx hxs)
          · exact hnew₂ x (by omega) (by omega)
      · rcases hsub₂ y (hsub y hy) with hy | hy
        · exact .inl (hpending₁ ▸ hy)
        · exact .inr (by omega)

/-- What a step of the buffer does to the map of delivered bytes, as a clone taken before sees it:
where the count of rewrites did not move, no byte changed. -/
structure Advance (st st' : FrontierState) (last last' : Nat → Option UInt8) : Prop where
  base : st.base ≤ st'.base
  seq : st.rewriteSeq ≤ st'.rewriteSeq
  same : st'.rewriteSeq = st.rewriteSeq → ∀ x b, st'.base ≤ x → last x = some b → last' x = some b

theorem holds_flag (h : Stage st sc rest (Is last) (Is last) (Is last))
    (hkept : ∀ x b, st.base ≤ x → last x = some b → Covered st x) (low : Option Nat) :
    Holds (st.flagRewrite low).resyncRetained sc rest last := by
  have hsame : ∃ rewriteSeq rewrittenLow conflict,
      st.flagRewrite low = { st with rewriteSeq, rewrittenLow, conflict } := by
    cases low with
    | none => exact ⟨_, _, _, rfl⟩
    | some x => exact ⟨_, _, _, rfl⟩
  obtain ⟨rewriteSeq, rewrittenLow, conflict, hst⟩ := hsame
  rw [hst]
  exact ⟨⟨h.run, h.parked, h.nonempty, h.pages, h.disjoint, h.positive, h.backed, h.cursor, h.live,
    h.charged⟩, hkept, resyncRetained_bounded _, rfl⟩

theorem place_spec
    (h : Stage st sc rest (Is (written last offset bytes)) (ParkedKnows st last offset bytes)
      (Is (written last offset bytes))) (hne : bytes ≠ []) {st' : FrontierState}
    (hst' : st' = if offset ≤ st.frontierRam then st.extend offset bytes else st.park offset bytes) :
    Stage st' sc rest (Is (written last offset bytes)) (Is (written last offset bytes))
        (Is (written last offset bytes)) ∧ st'.base = st.base ∧ st'.rewriteSeq = st.rewriteSeq ∧
      st'.paged = st.paged ∧
      (∀ x, st.base ≤ x → Covered st x ∨ (offset ≤ x ∧ x < offset + bytes.length) → Covered st' x) ∧
      ∀ y ∈ st'.pending, y ∈ st.pending ∨ st.base ≤ y.1 := by
  subst hst'
  split
  case isTrue hle => exact extend_spec h hle
  case isFalse hgt =>
    have hram : st.frontierRam = st.base + st.data.length := rfl
    have hnew :=
      { h with parked := fun y hy => (h.parked y hy).imp fun x b _ _ _ hq => hq.2 (by omega) }
    obtain ⟨pending, hpark, hstage, hcov, hdel, hsub⟩ := park_spec hnew (.delivered st.base) hne
    rw [hpark]
    refine ⟨hstage, rfl, rfl, rfl, fun x _ hor => hor.elim (hcov x) fun hin => hdel x hin.1 hin.2,
      fun y hy => (hsub y hy).imp_right fun heq => ?_⟩
    omega

theorem unchanged_of_noDiff (h : Holds st sc rest last)
    (hrun : NoDiff st.base st.data offset bytes)
    (hpages : st.base < offset + bytes.length → ∀ y ∈ st.paged, NoDiff y.1 (sc.region y.2) offset bytes)
    (hparked : st.frontierRam < offset + bytes.length → ∀ y ∈ st.pending, NoDiff y.1 y.2 offset bytes) :
    ∀ x b, st.base ≤ x → last x = some b → written last offset bytes x = some b := by
  intro x b hx hb
  cases hnew : byteAt offset bytes x with
  | none => rw [written_of_none hnew, hb]
  | some c =>
    have hin := byteAt_some_range hnew
    -- any copy of the byte has both values
    have hcopy : ∀ {s : Nat} {v : List UInt8}, Agrees st.base (Is last) s v → NoDiff s v offset bytes →
        s ≤ x → x < s + v.length → b = c := fun {s v} hagrees hno hlo hhi => by
      obtain ⟨d, hd⟩ := isSome_iff_exists.mp (byteAt_isSome.mpr ⟨hlo, hhi⟩)
      have hlast : last x = some d := hagrees x d hx hd
      rw [hb] at hlast
      exact (some.inj hlast).trans (hno x d c hd hnew)
    have hbc : b = c := by
      by_cases hram : x < st.frontierRam
      · exact hcopy h.stage.run hrun hx hram
      · rcases h.kept x b hx hb with hcov | ⟨y, hy, hlo, hhi⟩ | ⟨y, hy, hlo, hhi⟩
        · exact absurd hcov.2 hram
        · exact hcopy (h.stage.parked y hy) (hparked (by omega) y hy) hlo hhi
        · exact hcopy (h.stage.pages y hy) (hpages (by omega) y hy) hlo
            (by rw [h.stage.region_length hy]; exact hhi)
    rw [written_of_some hnew, hbc]

/-- `write_span` past its checks. -/
theorem deliver_spec (h : Holds st sc rest last) (hne : bytes ≠ [])
    {st₁ st₂ st₃ st₄ : FrontierState} {sc₂ : Scratch} {low₁ low₂ low₃ : Option Nat}
    (h₁ : st.reconcileRun offset bytes = (st₁, low₁))
    (h₂ : st₁.reconcilePaged sc low₁ offset bytes = (st₂, sc₂, low₂))
    (h₃ : st₂.reconcileParked low₂ offset bytes = (st₃, low₃))
    (h₄ : st₄ = if offset ≤ st₃.frontierRam then st₃.extend offset bytes else st₃.park offset bytes) :
    Holds (st₄.flagRewrite low₃).resyncRetained sc₂ rest (written last offset bytes) ∧
      sc.Shrinks sc₂ ∧
      Advance st (st₄.flagRewrite low₃).resyncRetained last (written last offset bytes) ∧
      Starts st (st₄.flagRewrite low₃).resyncRetained := by
  obtain ⟨data, hst₁, hlen₁, hrun₁, hlow₁⟩ := @reconcileRun_spec st offset bytes last
    h.stage.run
  rw [h₁] at hst₁ hlow₁
  dsimp only at hst₁ hlow₁
  have hstage₁ : Stage st₁ sc rest (Is (written last offset bytes)) (Is last) (Is last) := by
    rw [hst₁]
    exact { h.stage with run := hrun₁ }
  have hram₁ : st₁.frontierRam = st.frontierRam := by
    rw [hst₁, frontierRam, frontierRam, hlen₁]
  have hbase₁ : st₁.base = st.base := by rw [hst₁]
  have hpending₁ : st₁.pending = st.pending := by rw [hst₁]
  have hpaged₁ : st₁.paged = st.paged := by rw [hst₁]
  have hcov₁ : ∀ x, Covered st x → Covered st₁ x := fun x hx => by
    rw [Covered, hram₁, hbase₁, hpending₁, hpaged₁]
    exact hx
  have hbounded₁ : Bounded st₁ := by
    rw [hst₁]
    exact h.bounded
  obtain ⟨hsame₂, hstage₂, hbounded₂, hshr₂, hcov₂, hstarts₂, hlow₂⟩ :=
    @reconcilePaged_spec st₁ sc rest offset bytes last _ hstage₁ hbounded₁ hne low₁
  rw [h₂] at hsame₂ hstage₂ hbounded₂ hshr₂ hcov₂ hstarts₂ hlow₂
  have hram₂ : st₂.frontierRam = st.frontierRam := by
    rw [← hram₁, frontierRam, frontierRam, hsame₂.base, hsame₂.data]
  obtain ⟨pending, hst₃, hstage₃, hcov₃, hsub₃, hlow₃⟩ := reconcileParked_spec hstage₂ hbounded₂ low₂
  rw [h₃] at hst₃ hlow₃
  subst hst₃
  obtain ⟨hstage₄, hbase₄, hseq₄, hpaged₄, hcov₄, hsub₄⟩ := place_spec hstage₃ hne h₄
  have hbase := hbase₄.trans (hsame₂.base.trans hbase₁)
  have hseq : st₄.rewriteSeq = st.rewriteSeq := hseq₄.trans (hsame₂.rewriteSeq.trans (by rw [hst₁]))
  have hkept : ∀ x b, st₄.base ≤ x → written last offset bytes x = some b → Covered st₄ x := by
    intro x b hx hb
    refine hcov₄ x (hbase₄ ▸ hx) ?_
    cases hnew : byteAt offset bytes x with
    | some c => exact .inr (byteAt_some_range hnew)
    | none =>
      rw [written_of_none hnew] at hb
      exact .inl (hcov₃ x (hcov₂ x (hcov₁ x (h.kept x b (hbase ▸ hx) hb))))
  have hflag : (st₄.flagRewrite low₃).base = st₄.base ∧
      (st₄.flagRewrite low₃).rewriteSeq = st₄.rewriteSeq + (if low₃.isSome then 1 else 0) ∧
      (st₄.flagRewrite low₃).pending = st₄.pending ∧ (st₄.flagRewrite low₃).paged = st₄.paged := by
    cases low₃ with
    | none => exact ⟨rfl, rfl, rfl, rfl⟩
    | some x => exact ⟨rfl, rfl, rfl, rfl⟩
  obtain ⟨hfbase, hfseq, hfpending, hfpaged⟩ := hflag
  refine ⟨holds_flag hstage₄ hkept low₃, hshr₂, ⟨?_, ?_, fun heq x b hx hb => ?_⟩,
    ⟨hfbase.trans hbase, fun y hy => ?_, fun y hy => ?_⟩⟩
  · exact (hfbase.trans hbase).ge
  · change st.rewriteSeq ≤ (st₄.flagRewrite low₃).rewriteSeq
    omega
  · change (st₄.flagRewrite low₃).rewriteSeq = st.rewriteSeq at heq
    have hnone : low₃ = none := by
      cases low₃ with
      | none => rfl
      | some x =>
        rw [hfseq, hseq] at heq
        exact absurd heq (Nat.succ_ne_self _)
    obtain ⟨hnone₂, hparked⟩ := hlow₃ hnone
    obtain ⟨hnone₁, hsame, hpages⟩ := hlow₂ hnone₂
    refine unchanged_of_noDiff h (hlow₁ hnone₁) ?_ ?_ x b ((hfbase.trans hbase) ▸ hx) hb
    · rw [← hbase₁, ← hpaged₁]
      exact hpages
    · rw [← hram₂, ← hpending₁, ← hsame]
      exact hparked
  · rw [← hpending₁, ← hpaged₁, ← hbase₁]
    rcases hsub₄ y (hfpending ▸ hy) with hy | hy
    · obtain ⟨z, hz, hzy⟩ := hsub₃ y hy
      rcases hstarts₂.pending z hz with ⟨z', hz', he⟩ | ⟨z', hz', he⟩ | hle
      · exact .inl ⟨z', hz', he.trans hzy⟩
      · exact .inr (.inl ⟨z', hz', he.trans hzy⟩)
      · exact .inr (.inr (hzy ▸ hle))
    · exact .inr (.inr (hsame₂.base ▸ hy))
  · have hy₄ : y ∈ st₂.paged := hpaged₄ ▸ hfpaged ▸ hy
    exact hpaged₁ ▸ hstarts₂.paged y hy₄

/-- A delivery, clipped at the total and ignored by an aborted buffer. -/
theorem writeSpan_spec (h : Holds st sc rest last) (offset : Nat) (bytes : List UInt8)
    {last' : Nat → Option UInt8}
    (hlast : last' = if st.abort.isSome then last
      else written last offset (bytes.take (st.total - offset))) :
    Holds (st.writeSpan sc offset bytes).1 (st.writeSpan sc offset bytes).2.1 rest last' ∧
      sc.Shrinks (st.writeSpan sc offset bytes).2.1 ∧
      Advance st (st.writeSpan sc offset bytes).1 last last' ∧
      Starts st (st.writeSpan sc offset bytes).1 := by
  have hidle : last' = last → Holds st sc rest last' ∧ sc.Shrinks sc ∧ Advance st st last last' ∧
      Starts st st := by
    rintro rfl
    exact ⟨h, .refl sc, ⟨le_rfl, le_rfl, fun _ x b _ hb => hb⟩,
      ⟨rfl, fun y hy => .inl ⟨y, hy, rfl⟩, fun y hy => hy⟩⟩
  unfold writeSpan
  split
  case isTrue habort => exact hidle (by rw [hlast, if_pos habort])
  case isFalse habort =>
  rw [if_neg habort] at hlast
  split
  case isTrue hempty =>
    refine hidle (hlast.trans (funext fun x => written_of_none (byteAt_eq_none.mpr ?_)))
    rw [length_take]
    omega
  case isFalse hsome =>
    have hclip : bytes.take (min (offset + bytes.length) st.total - offset) =
        bytes.take (st.total - offset) := by
      rw [take_eq_take_iff]
      omega
    have hne : bytes.take (st.total - offset) ≠ [] := by
      refine ne_nil_of_length_pos ?_
      rw [length_take]
      omega
    subst hlast
    rw [hclip]
    exact deliver_spec h hne rfl rfl rfl rfl

end Place

end FrontierState

end NzbFast.Extract
