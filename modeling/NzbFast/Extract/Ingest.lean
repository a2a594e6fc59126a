import NzbFast.Extract.Seams

/-!
# Ingests in any order

`CryptoWorld.Inv` ties an output's state to the posted bytes: its runs are runs of
them that neither meet nor overlap, what calls under way have planned keeps off the
runs and off each other and is marked in flight, and everything decrypted is filed.
A call's plan, its bodies and its commit each keep it, whatever other calls do in
between, so it holds after every run.
-/

namespace NzbFast.Extract

open NzbFast.Rust List
open Wire (slice plainAt prevBlock gaps Covers covers_nil covers_cons covers_append take_drop_slice)

namespace CryptoState

variable {cs : CryptoState} {c : Nat → UInt8}

/-! ## What nobody has -/

/-- Two ranges that have nothing in common. -/
def Off (g h : Nat × Nat) : Prop := g.2 ≤ h.1 ∨ h.2 ≤ g.1

theorem Off.symm {g h : Nat × Nat} (hoff : Off g h) : Off h g := Or.symm hoff

theorem off_of_disjoint {g h : Nat × Nat} (hg : g.1 < g.2) (hh : h.1 < h.2)
    (hno : ∀ x, g.1 ≤ x → x < g.2 → h.1 ≤ x → x < h.2 → False) : Off g h := by
  unfold Off
  by_contra hin
  exact hno (max g.1 h.1) (by omega) (by omega) (by omega) (by omega)

/-- A range in flight taken out of ranges. -/
theorem clipFlight_spec {novel : List (Nat × Nat)} {lo hi : Nat} {f : Nat × Nat} (hf : f.1 ≤ f.2)
    (hin : ∀ g ∈ novel, lo ≤ g.1 ∧ g.1 < g.2 ∧ g.2 ≤ hi)
    (hp : novel.Pairwise fun p q => p.2 ≤ q.1) :
    (∀ g ∈ clipFlight novel f, lo ≤ g.1 ∧ g.1 < g.2 ∧ g.2 ≤ hi) ∧
      ((clipFlight novel f).Pairwise fun p q => p.2 ≤ q.1) ∧
      ∀ x, Covers (clipFlight novel f) x ↔ Covers novel x ∧ ¬ (f.1 ≤ x ∧ x < f.2) := by
  -- the parts of one range, and what they have
  let cut : Nat × Nat → List (Nat × Nat) := fun r =>
    if f.2 ≤ r.1 ∨ r.2 ≤ f.1 then [r]
    else
      (if r.1 < f.1 then [(r.1, f.1)] else []) ++ if f.2 < r.2 then [(f.2, r.2)] else []
  have hcut : ∀ r : Nat × Nat, r.1 < r.2 → (∀ g ∈ cut r, r.1 ≤ g.1 ∧ g.1 < g.2 ∧ g.2 ≤ r.2) ∧
      ((cut r).Pairwise fun p q => p.2 ≤ q.1) ∧
      ∀ x, Covers (cut r) x ↔ (r.1 ≤ x ∧ x < r.2) ∧ ¬ (f.1 ≤ x ∧ x < f.2) := by
    rintro ⟨s, e⟩ hse
    dsimp only [cut] at hse ⊢
    by_cases hout : f.2 ≤ s ∨ e ≤ f.1
    · rw [if_pos hout]
      refine ⟨fun g hg => ?_, pairwise_singleton _ _, fun x => ?_⟩
      · obtain rfl := mem_singleton.mp hg
        exact ⟨le_rfl, hse, le_rfl⟩
      · rw [covers_cons, iff_false_intro (covers_nil x), or_false]
        omega
    · rw [if_neg hout]
      have hmem : ∀ {p : Prop} [Decidable p] {r g : Nat × Nat}, g ∈ (if p then [r] else []) → p ∧ g = r :=
        fun {p} _ {r g} hg => by
          split at hg
          case isTrue hp => exact ⟨hp, mem_singleton.mp hg⟩
          case isFalse => cases hg
      refine ⟨fun g hg => ?_, pairwise_append.mpr ⟨?_, ?_, fun g hg g' hg' => ?_⟩, fun x => ?_⟩
      · rcases mem_append.mp hg with hg | hg
        · obtain ⟨hl, rfl⟩ := hmem hg
          omega
        · obtain ⟨hr, rfl⟩ := hmem hg
          omega
      · split
        · exact pairwise_singleton _ _
        · exact .nil
      · split
        · exact pairwise_singleton _ _
        · exact .nil
      · obtain ⟨-, rfl⟩ := hmem hg
        obtain ⟨-, rfl⟩ := hmem hg'
        exact hf
      · rw [covers_append, Wire.covers_ite, Wire.covers_ite]
        omega
  refine ⟨fun g hg => ?_, pairwise_flatMap.mpr ⟨fun r hr => ?_,
    hp.imp_of_mem fun {p q} hpm hqm hpq => ?_⟩, fun x => ?_⟩
  · obtain ⟨r, hr, hg⟩ := mem_flatMap.mp hg
    have hrin := hin r hr
    have := (hcut r hrin.2.1).1 g hg
    omega
  · exact (hcut r (hin r hr).2.1).2.1
  · intro g hg g' hg'
    have h1 := (hcut p (hin p hpm).2.1).1 g hg
    have h2 := (hcut q (hin q hqm).2.1).1 g' hg'
    omega
  · constructor
    · rintro ⟨g, hg, hlo, hhi⟩
      obtain ⟨r, hr, hg⟩ := mem_flatMap.mp hg
      have hx := ((hcut r (hin r hr).2.1).2.2 x).mp ⟨g, hg, hlo, hhi⟩
      exact ⟨⟨r, hr, hx.1⟩, hx.2⟩
    · rintro ⟨⟨r, hr, hx⟩, hno⟩
      obtain ⟨g, hg, hgx⟩ := ((hcut r (hin r hr).2.1).2.2 x).mpr ⟨hx, hno⟩
      exact ⟨g, mem_flatMap.mpr ⟨r, hr, hg⟩, hgx⟩

variable {st : CryptoSt} {l : FreshPlan × Option (Landed × List UInt8)}

theorem covers_runRanges {stop x : Nat} (hx : x < stop) :
    Covers (runRanges st stop) x ↔ RunHas st.runs x := by
  constructor
  · rintro ⟨iv, hiv, hlo, hhi⟩
    obtain ⟨y, hy, rfl⟩ := mem_map.mp hiv
    exact ⟨y, (BTreeMap.mem_range.mp hy).1, hlo, hhi⟩
  · rintro ⟨y, hy, hlo, hhi⟩
    exact ⟨_, mem_map.mpr ⟨y, BTreeMap.mem_range.mpr ⟨hy, Nat.zero_le _, by omega⟩, rfl⟩, hlo, hhi⟩

theorem runRanges_sorted (st : CryptoSt) (stop : Nat) :
    (runRanges st stop).Pairwise fun p q => p.1 ≤ q.1 :=
  pairwise_map.mpr ((st.runs.range_sorted 0 stop).imp le_of_lt)

theorem runRanges_lt {stop : Nat} (h : ∀ y ∈ st.runs, y.1 < y.2.stop) :
    ∀ iv ∈ runRanges st stop, iv.1 ≤ iv.2 ∧ iv.1 < stop := by
  intro iv hiv
  obtain ⟨y, hy, rfl⟩ := mem_map.mp hiv
  obtain ⟨hy, -, hlt⟩ := BTreeMap.mem_range.mp hy
  exact ⟨le_of_lt (h y hy), hlt⟩

/-- `novel_ranges` are what neither a run nor a call under way has. -/
theorem novelRanges_spec (hruns : ∀ y ∈ st.runs, y.1 < y.2.stop)
    (hflight : ∀ g ∈ st.inflight, g.1 ≤ g.2) (at_ stop : Nat) :
    (∀ g ∈ novelRanges st at_ stop, at_ ≤ g.1 ∧ g.1 < g.2 ∧ g.2 ≤ stop) ∧
      ((novelRanges st at_ stop).Pairwise fun p q => p.2 ≤ q.1) ∧
      ∀ x, Covers (novelRanges st at_ stop) x ↔
        (at_ ≤ x ∧ x < stop) ∧ ¬ RunHas st.runs x ∧ ¬ Covers st.inflight x := by
  obtain ⟨hin, hp, hcov⟩ := Wire.gaps_spec (runRanges_sorted st stop) at_ (runRanges_lt hruns)
  have hfold : ∀ (fs : List (Nat × Nat)) (novel : List (Nat × Nat)), (∀ f ∈ fs, f.1 ≤ f.2) →
      (∀ g ∈ novel, at_ ≤ g.1 ∧ g.1 < g.2 ∧ g.2 ≤ stop) → (novel.Pairwise fun p q => p.2 ≤ q.1) →
      (∀ g ∈ fs.foldl clipFlight novel, at_ ≤ g.1 ∧ g.1 < g.2 ∧ g.2 ≤ stop) ∧
        ((fs.foldl clipFlight novel).Pairwise fun p q => p.2 ≤ q.1) ∧
        ∀ x, Covers (fs.foldl clipFlight novel) x ↔ Covers novel x ∧ ¬ Covers fs x := by
    intro fs
    induction fs with
    | nil => exact fun novel _ hin hp => ⟨hin, hp, fun x => by simp⟩
    | cons f fs ih =>
      intro novel hfs hin hp
      obtain ⟨hin', hp', hcov'⟩ := clipFlight_spec (hfs f (.head _)) hin hp
      obtain ⟨hin'', hp'', hcov''⟩ := ih _ (fun g hg => hfs g (.tail _ hg)) hin' hp'
      refine ⟨hin'', hp'', fun x => ?_⟩
      rw [foldl_cons, hcov'', hcov', covers_cons, not_or, and_assoc]
  obtain ⟨hin', hp', hcov'⟩ := hfold st.inflight _ hflight hin hp
  refine ⟨hin', hp', fun x => ?_⟩
  unfold novelRanges
  rw [hcov', hcov]
  constructor
  · rintro ⟨⟨hlo, hhi, hno⟩, hno'⟩
    exact ⟨⟨hlo, hhi⟩, fun h => hno ((covers_runRanges hhi).mpr h), hno'⟩
  · rintro ⟨⟨hlo, hhi⟩, hno, hno'⟩
    exact ⟨⟨hlo, hhi, fun h => hno ((covers_runRanges hhi).mp h)⟩, hno'⟩

/-! ## Calls under way -/

def planRange (p : FreshPlan) : Nat × Nat := (p.start, p.run.stop)

def Ingest.plans (call : Ingest) : List FreshPlan := call.landed.map (·.1) ++ call.todo.map (·.1)

/-- The plan of its range. -/
structure PlanOk (cs : CryptoState) (c : Nat → UInt8) (p : FreshPlan) : Prop where
  eq : p = planOf cs c p.start p.run.stop
  lt : p.start < p.run.stop
  inside : p.run.stop ≤ cs.cipherLen

theorem PlanOk.run {p : FreshPlan} (hp : PlanOk cs c p) : RunIs c p.start p.run := by
  have hr := congrArg FreshPlan.run hp.eq
  exact hr ▸ runIs_planOf hp.lt

def LandedOk (cs : CryptoState) (c : Nat → UInt8) (file : List UInt8)
    (l : FreshPlan × Option (Landed × List UInt8)) : Prop :=
  match l.1.body, l.2 with
  | some body, some (landed, buf) => LandedIs cs c body.at_ body.full landed buf ∧
    ∀ x, body.at_ ≤ x ∧ x < body.at_ + body.full → Wrote cs c file x
  | none, none => True
  | _, _ => False

theorem LandedOk.mono {file file' : List UInt8} (h : LandedOk cs c file l)
    (hw : ∀ x, Wrote cs c file x → Wrote cs c file' x) : LandedOk cs c file' l := by
  unfold LandedOk at h ⊢
  split at h
  case h_1 => exact ⟨h.1, fun x hx => hw x (h.2 x hx)⟩
  case h_2 => trivial
  case h_3 => exact h.elim

/-- The plan phase over ranges of the posted bytes. -/
theorem planRanges_spec {at_ : Nat} {data : List UInt8} : ∀ (gs : List (Nat × Nat)) (st : CryptoSt)
    (acc : List (FreshPlan × List UInt8)),
    (∀ g ∈ gs, g.1 < g.2 ∧ g.2 ≤ cs.cipherLen ∧
      (data.drop (g.1 - at_)).take (g.2 - g.1) = slice c g.1 (g.2 - g.1)) →
    ∃ checkpoints events, gs.foldl (fun acc g =>
        let cipher := (data.drop (g.1 - at_)).take (g.2 - g.1)
        let (st, plan) := cs.planFresh acc.1 g.1 cipher
        ({ st with inflight := st.inflight ++ [g] }, acc.2 ++ [(plan, cipher)])) (st, acc) =
      ({ st with checkpoints, events, inflight := st.inflight ++ gs },
        acc ++ gs.map fun g => (planOf cs c g.1 g.2, slice c g.1 (g.2 - g.1))) ∧
      (∀ D file, Filed cs c D st file →
        Filed cs c D { st with checkpoints, events, inflight := st.inflight ++ gs } file) ∧
      ∀ y ∈ checkpoints, y ∈ st.checkpoints ∨
        ∃ g ∈ gs, pLoOf g.1 + 16 ≤ g.2 ∧ pLoOf g.1 ≤ y.1 ∧ y.1 ≤ g.2 / 16 * 16
  | [], st, acc, _ => by
    refine ⟨st.checkpoints, st.events, ?_, fun D file h => ?_, fun y hy => .inl hy⟩
    · rw [map_nil, append_nil, append_nil]
      rfl
    · rw [append_nil]
      exact h
  | g :: gs, st, acc, hgs => by
    obtain ⟨hlt, hend, hdata⟩ := hgs g (.head _)
    obtain ⟨checkpoints, events, hplan, hfiled, hck⟩ := @planFresh_spec cs c st g.1 (g.2 - g.1)
      (by omega) (by omega)
    rw [show g.1 + (g.2 - g.1) = g.2 by omega] at hplan hck
    obtain ⟨checkpoints', events', hfold, hfiled', hck'⟩ := planRanges_spec gs
      { st with checkpoints, events, inflight := st.inflight ++ [g] }
      (acc ++ [(planOf cs c g.1 g.2, slice c g.1 (g.2 - g.1))])
      fun g' hg' => hgs g' (.tail _ hg')
    refine ⟨checkpoints', events', ?_, fun D file h => ?_, fun y hy => ?_⟩
    · rw [foldl_cons]
      dsimp only
      rw [hdata, hplan]
      rw [hfold]
      rw [append_assoc, append_assoc, singleton_append, singleton_append, map_cons]
    · have hf := hfiled D file h
      have := hfiled' D file ⟨hf.wrote, hf.short, hf.checkpoints, hf.pad, hf.crc, hf.crcIn⟩
      exact ⟨this.wrote, this.short, this.checkpoints, this.pad, this.crc, this.crcIn⟩
    · rcases hck' y hy with hy | ⟨g', hg', hin⟩
      · exact (hck y hy).imp_right fun hin => ⟨g, .head _, hin⟩
      · exact .inr ⟨g', .tail _ hg', hin⟩

/-! ## One range committed -/

/-- A run put where there was none. -/
theorem RunsOk.insert {runs : BTreeMap CryptoRun} (h : RunsOk cs c runs) {s : Nat} {r : CryptoRun}
    (hrun : RunIs c s r) (hend : r.stop ≤ cs.cipherLen)
    (hclear : ∀ x, s ≤ x → x < r.stop → ¬ RunHas runs x) :
    RunsOk cs c (runs.insert s r) ∧
      (∀ x, RunHas (runs.insert s r) x ↔ RunHas runs x ∨ (s ≤ x ∧ x < r.stop)) ∧
      (∀ x, Decrypted (runs.insert s r) x ↔ Decrypted runs x ∨ InRegion r x) ∧
      (∀ k, Spanned runs k → Spanned (runs.insert s r) k) ∧
      ∀ t, Touch (runs.insert s r) t → Touch runs t ∨ t = s ∨ t = r.stop := by
  have hb := hrun.bounds
  have hout : ∀ y ∈ runs, y.2.stop ≤ s ∨ r.stop ≤ y.1 := fun y hy => by
    have hby := (h.is y hy).bounds
    exact off_of_disjoint (g := (y.1, y.2.stop)) (h := (s, r.stop)) hby.1 hb.1 fun x hlo hhi hlo' hhi' =>
      hclear x hlo' hhi' ⟨y, hy, hlo, hhi⟩
  have hne : ∀ y ∈ runs, y.1 ≠ s := fun y hy heq => by
    have hby := (h.is y hy).bounds
    have := hout y hy
    omega
  have hmem : ∀ y, y ∈ runs.insert s r ↔ y = (s, r) ∨ y ∈ runs := fun y => by
    rw [BTreeMap.mem_insert]
    exact ⟨fun hy => hy.imp_right And.left, fun hy => hy.imp_right fun hy => ⟨hy, hne y hy⟩⟩
  refine ⟨⟨fun y hy => ?_, fun y hy => ?_, fun y hy z hz hyz => ?_⟩, fun x => ?_, fun x => ?_,
    fun k => ?_, fun t => ?_⟩
  · rcases (hmem y).mp hy with rfl | hy
    · exact hrun
    · exact h.is y hy
  · rcases (hmem y).mp hy with rfl | hy
    · exact hend
    · exact h.inside y hy
  · rcases (hmem y).mp hy with rfl | hy
    · rcases (hmem z).mp hz with rfl | hz
      · exact absurd hyz (lt_irrefl _)
      · have := hout z hz
        have hbz := (h.is z hz).bounds
        dsimp only at hyz ⊢
        omega
    · rcases (hmem z).mp hz with rfl | hz
      · have := hout y hy
        omega
      · exact h.disjoint y hy z hz hyz
  · unfold RunHas
    simp only [hmem]
    constructor
    · rintro ⟨y, rfl | hy, hlo, hhi⟩
      · exact .inr ⟨hlo, hhi⟩
      · exact .inl ⟨y, hy, hlo, hhi⟩
    · rintro (⟨y, hy, hlo, hhi⟩ | ⟨hlo, hhi⟩)
      · exact ⟨y, .inr hy, hlo, hhi⟩
      · exact ⟨_, .inl rfl, hlo, hhi⟩
  · unfold Decrypted
    simp only [hmem]
    constructor
    · rintro ⟨y, rfl | hy, hx⟩
      · exact .inr hx
      · exact .inl ⟨y, hy, hx⟩
    · rintro (⟨y, hy, hx⟩ | hx)
      · exact ⟨y, .inr hy, hx⟩
      · exact ⟨_, .inl rfl, hx⟩
  · rintro ⟨y, hy, hk⟩
    exact ⟨y, (hmem y).mpr (.inr hy), hk⟩
  · rintro ⟨⟨y, hy, hyt⟩, z, hz, hzt⟩
    rcases (hmem y).mp hy with rfl | hy
    · exact .inr (.inr hyt.symm)
    · rcases (hmem z).mp hz with rfl | hz
      · exact .inr (.inl hzt.symm)
      · exact .inl ⟨⟨y, hy, hyt⟩, z, hz, hzt⟩

theorem Decrypted.has {runs : BTreeMap CryptoRun} (h : RunsOk cs c runs) {x : Nat}
    (hx : Decrypted runs x) : RunHas runs x := by
  obtain ⟨y, hy, hlo, hhi⟩ := hx
  have := (h.is y hy).bounds
  exact ⟨y, hy, by omega, by omega⟩

/-- What the commit of plans leaves of a state. -/
structure Committed (cs : CryptoState) (c : Nat → UInt8) (s : CryptoSt × List UInt8)
    (ps : List FreshPlan) (s' : CryptoSt × List UInt8) : Prop where
  ok : RunsOk cs c s'.1.runs
  apart : ∀ t, ¬ Touch s'.1.runs t
  has : ∀ x, RunHas s'.1.runs x ↔ RunHas s.1.runs x ∨ Covers (ps.map planRange) x
  filed : Filed cs c (Decrypted s'.1.runs) s'.1 s'.2
  crcFull : CrcFull cs (Decrypted s.1.runs) s.1 → CrcFull cs (Decrypted s'.1.runs) s'.1
  wrote : ∀ x, Wrote cs c s.2 x → Wrote cs c s'.2 x
  inflight : s'.1.inflight = s.1.inflight
  spanned : ∀ k, Spanned s.1.runs k → Spanned s'.1.runs k
  landed : ∀ p ∈ ps, p.run.pLo < p.run.pHi → ∀ k, p.run.pLo ≤ k → k ≤ p.run.pHi → Spanned s'.1.runs k
  checkpoints : ∀ y ∈ s'.1.checkpoints, y ∈ s.1.checkpoints ∨ Spanned s'.1.runs y.1

theorem landed_filed {D : Nat → Prop} {file : List UInt8} (h : Filed cs c D st file)
    (hp : PlanOk cs c l.1) (hl : LandedOk cs c file l)
    (hfree : ∀ x, l.1.start ≤ x → x < l.1.run.stop → ¬ D x) :
    ∃ plain tailPad tailDone events,
      cs.fileLanded st l.2 = { st with plain, tailPad, tailDone, events } ∧
      Filed cs c (fun x => D x ∨ InRegion l.1.run x) { st with plain, tailPad, tailDone, events } file ∧
      (CrcFull cs D st →
        CrcFull cs (fun x => D x ∨ InRegion l.1.run x) { st with plain, tailPad, tailDone, events }) := by
  obtain ⟨p, result⟩ := l
  obtain ⟨heq, hlt, hinside⟩ := hp
  dsimp only at heq hlt hinside hfree ⊢
  obtain ⟨hle, hmod, -⟩ := pLoOf_spec p.start
  unfold LandedOk at hl
  cases hb : p.body with
  | none =>
    have hsliver := body_none (heq ▸ hb)
    have hrun : p.run.pLo = p.start ∧ p.run.pHi = p.start := by
      rw [heq, planOf, if_neg (by omega)]
      exact ⟨rfl, rfl⟩
    have hempty : ∀ x, ¬ InRegion p.run x := fun x hx => by
      unfold InRegion at hx
      omega
    rw [hb] at hl
    cases result with
    | some r => exact hl.elim
    | none =>
      refine ⟨_, _, _, _, rfl, h.mono fun x => ⟨.inl, fun hx => hx.resolve_right (hempty x)⟩, fun hf => ?_⟩
      exact hf.mono fun x hx => hx.resolve_right (hempty x)
  | some body =>
    have hbody : pLoOf p.start + 16 ≤ p.run.stop := by
      by_contra hno
      rw [heq, planOf, if_neg hno] at hb
      cases hb
    obtain ⟨hbeq, -⟩ := bodyBytes_slice hbody (heq ▸ hb)
    have hregion : ∀ x, InRegion p.run x ↔
        body.at_ ≤ x ∧ x < body.at_ + 16 * ((p.run.stop - pLoOf p.start) / 16) := fun x => by
      have hrun : p.run.pLo = pLoOf p.start ∧ p.run.pHi = p.run.stop / 16 * 16 := by
        have hr := congrArg FreshPlan.run heq
        rw [planOf, if_pos hbody] at hr
        exact ⟨congrArg CryptoRun.pLo hr, congrArg CryptoRun.pHi hr⟩
      unfold InRegion
      rw [hrun.1, hrun.2, hbeq]
      dsimp only
      omega
    rw [hb] at hl
    cases result with
    | none => exact hl.elim
    | some r =>
      obtain ⟨hlanded, hwrote⟩ := hl
      rw [hbeq] at hlanded hwrote
      rw [hbeq] at hregion
      dsimp only at hlanded hwrote hregion
      obtain ⟨hfiled, hcrc, plain, tailPad, tailDone, events, hst⟩ := h.commitLanded
        (show 0 < (p.run.stop - pLoOf p.start) / 16 by omega) (by omega) hlanded hwrote
        fun x hlo hhi => hfree x (by omega) (by omega)
      rw [hst] at hfiled hcrc
      exact ⟨plain, tailPad, tailDone, events, hst,
        hfiled.mono fun x => or_congr_right (hregion x).symm,
        fun hf => (hcrc hf).mono fun x hx => hx.imp_right (hregion x).mp⟩

theorem commitRange_spec {s : CryptoSt × List UInt8} (h : RunsOk cs c s.1.runs)
    (happart : ∀ t, ¬ Touch s.1.runs t) (hf : Filed cs c (Decrypted s.1.runs) s.1 s.2)
    (hp : PlanOk cs c l.1) (hl : LandedOk cs c s.2 l)
    (hclear : ∀ x, l.1.start ≤ x → x < l.1.run.stop → ¬ RunHas s.1.runs x) :
    Committed cs c s [l.1] (cs.commitRange s l) := by
  obtain ⟨plain, tailPad, tailDone, events, hst, hfiled, hcrc⟩ := landed_filed hf hp hl
    fun x hlo hhi hx => hclear x hlo hhi (hx.has h)
  obtain ⟨hok, hhas, hdec, hspan, htouch⟩ := h.insert hp.run hp.inside hclear
  obtain ⟨st₂, hst₂⟩ : ∃ st₂ : CryptoSt, st₂ = { s.1 with
      plain, tailPad, tailDone, events, runs := s.1.runs.insert l.1.start l.1.run } := ⟨_, rfl⟩
  have hruns₂ : st₂.runs = s.1.runs.insert l.1.start l.1.run := by rw [hst₂]
  have hfiled₂ : Filed cs c (Decrypted st₂.runs) st₂ s.2 := by
    have := hfiled.mono fun x => (hdec x).symm
    rw [hst₂]
    exact ⟨this.wrote, this.short, this.checkpoints, this.pad, this.crc, this.crcIn⟩
  have hcrc₂ : CrcFull cs (Decrypted s.1.runs) s.1 → CrcFull cs (Decrypted st₂.runs) st₂ := fun hfull => by
    have := (hcrc hfull).mono fun x hx => (hdec x).mp hx
    rw [hst₂]
    exact ⟨this.apart, this.has⟩
  have hflight₂ : st₂.inflight = s.1.inflight := by rw [hst₂]
  have hck₂ : st₂.checkpoints = s.1.checkpoints := by rw [hst₂]
  rw [← hruns₂] at hok hhas hspan htouch
  unfold commitRange
  dsimp only
  rw [hst]
  rw [← hst₂]
  obtain ⟨hm₁, hno₁⟩ := mergeAt_spec hok hfiled₂ l.1.start
  obtain ⟨hm₂, hno₂⟩ := mergeAt_spec hm₁.ok hm₁.filed l.1.run.stop
  have hm := hm₁.trans hm₂
  refine ⟨hm.ok, fun t ht => ?_, fun x => ?_, hm.filed, fun hfull => hm.crcFull (hcrc₂ hfull), hm.wrote,
    hm.inflight.trans hflight₂, fun k hk => hm.spanned k (hspan k hk), fun p hp' hlt k hlo hhi => ?_,
    fun y hy => hck₂ ▸ hm.checkpoints y hy⟩
  · have ht₁ := hm₂.touch t ht
    rcases htouch t (hm₁.touch t ht₁) with hold | rfl | rfl
    · exact happart t hold
    · exact hno₁ ht₁
    · exact hno₂ ht
  · rw [hm.has, hhas, map_singleton, covers_cons, iff_false_intro (covers_nil x), or_false]
    rfl
  · obtain rfl := mem_singleton.mp hp'
    refine hm.spanned k ⟨(l.1.start, l.1.run), ?_, hlt, hlo, hhi⟩
    rw [hruns₂]
    exact BTreeMap.mem_insert.mpr (.inl rfl)

theorem commitRanges_spec : ∀ {ls : List (FreshPlan × Option (Landed × List UInt8))}
    {s : CryptoSt × List UInt8}, RunsOk cs c s.1.runs → (∀ t, ¬ Touch s.1.runs t) →
    Filed cs c (Decrypted s.1.runs) s.1 s.2 → (∀ l ∈ ls, PlanOk cs c l.1 ∧ LandedOk cs c s.2 l) →
    (ls.Pairwise fun l l' => Off (planRange l.1) (planRange l'.1)) →
    (∀ l ∈ ls, ∀ x, l.1.start ≤ x → x < l.1.run.stop → ¬ RunHas s.1.runs x) →
    Committed cs c s (ls.map (·.1)) (ls.foldl cs.commitRange s)
  | [], s, h, happart, hf, _, _, _ =>
    ⟨h, happart, fun x => by rw [map_nil, map_nil, iff_false_intro (covers_nil x), or_false]; rfl,
      hf, id, fun _ => id, rfl, fun _ => id, nofun, fun _ => .inl⟩
  | l :: ls, s, h, happart, hf, hls, hdis, hclear => by
    obtain ⟨hhead, htail⟩ := pairwise_cons.mp hdis
    obtain ⟨hp, hl⟩ := hls l (.head _)
    have h₁ := commitRange_spec h happart hf hp hl (hclear l (.head _))
    have h₂ := @commitRanges_spec ls _ h₁.ok h₁.apart h₁.filed (fun l' hl' =>
        ⟨(hls l' (.tail _ hl')).1, (hls l' (.tail _ hl')).2.mono h₁.wrote⟩)
        htail fun l' hl' x hlo hhi hx => by
      rcases (h₁.has x).mp hx with hx | hx
      · exact hclear l' (.tail _ hl') x hlo hhi hx
      · rw [map_singleton, covers_cons, iff_false_intro (covers_nil x), or_false] at hx
        have := hhead l' hl'
        unfold Off planRange at this
        unfold planRange at hx
        omega
    refine ⟨h₂.ok, h₂.apart, fun x => ?_, h₂.filed, fun hfull => h₂.crcFull (h₁.crcFull hfull),
      fun x hx => h₂.wrote x (h₁.wrote x hx), h₂.inflight.trans h₁.inflight,
      fun k hk => h₂.spanned k (h₁.spanned k hk), fun p hp' hlt k hlo hhi => ?_, fun y hy => ?_⟩
    · rw [foldl_cons, h₂.has, h₁.has, map_singleton, map_cons, map_cons, covers_cons,
        covers_cons, iff_false_intro (covers_nil x), or_false, or_assoc]
    · rcases mem_cons.mp hp' with rfl | hp'
      · exact h₂.spanned k (h₁.landed _ (.head _) hlt k hlo hhi)
      · exact h₂.landed p hp' hlt k hlo hhi
    · rcases h₂.checkpoints y hy with hy | hy
      · exact (h₁.checkpoints y hy).imp_right (h₂.spanned y.1)
      · exact .inr hy

end CryptoState

/-! ## The world -/

namespace CryptoWorld

open CryptoState

variable {cs : CryptoState} {c : Nat → UInt8} {w : CryptoWorld}

def plans (w : CryptoWorld) : List FreshPlan := w.calls.flatMap Ingest.plans

structure Inv (cs : CryptoState) (c : Nat → UInt8) (w : CryptoWorld) : Prop where
  runs : RunsOk cs c w.st.runs
  apart : ∀ t, ¬ Touch w.st.runs t
  filed : Filed cs c (Decrypted w.st.runs) w.st w.file
  plans : ∀ p ∈ w.plans, PlanOk cs c p
  todo : ∀ call ∈ w.calls, ∀ l ∈ call.todo, l.2 = slice c l.1.start (l.1.run.stop - l.1.start)
  landed : ∀ call ∈ w.calls, ∀ l ∈ call.landed, LandedOk cs c w.file l
  flight : w.st.inflight.Perm (w.plans.map planRange)
  disjoint : w.plans.Pairwise fun p q => Off (planRange p) (planRange q)
  clear : ∀ p ∈ w.plans, ∀ x, p.start ≤ x → x < p.run.stop → ¬ RunHas w.st.runs x
  located : ∀ y ∈ w.st.checkpoints, Spanned w.st.runs y.1 ∨
    ∃ p ∈ w.plans, p.run.pLo < p.run.pHi ∧ p.run.pLo ≤ y.1 ∧ y.1 ≤ p.run.pHi

theorem Inv.covers_inflight (h : w.Inv cs c) (x : Nat) :
    Covers w.st.inflight x ↔ ∃ p ∈ w.plans, p.start ≤ x ∧ x < p.run.stop := by
  rw [Wire.covers_perm h.flight]
  constructor
  · rintro ⟨g, hg, hx⟩
    obtain ⟨p, hp, rfl⟩ := mem_map.mp hg
    exact ⟨p, hp, hx⟩
  · rintro ⟨p, hp, hx⟩
    exact ⟨_, mem_map.mpr ⟨p, hp, rfl⟩, hx⟩

theorem Inv.novel (h : w.Inv cs c) (at_ stop : Nat) :
    (∀ g ∈ novelRanges w.st at_ stop, at_ ≤ g.1 ∧ g.1 < g.2 ∧ g.2 ≤ stop) ∧
      ((novelRanges w.st at_ stop).Pairwise fun p q => p.2 ≤ q.1) ∧
      ∀ x, Covers (novelRanges w.st at_ stop) x ↔ (at_ ≤ x ∧ x < stop) ∧ ¬ RunHas w.st.runs x ∧
        ¬ ∃ p ∈ w.plans, p.start ≤ x ∧ x < p.run.stop := by
  obtain ⟨hin, hp, hcov⟩ := novelRanges_spec (fun y hy => (h.runs.is y hy).bounds.1) (fun g hg => by
    obtain ⟨p, hp, rfl⟩ := mem_map.mp (h.flight.mem_iff.mp hg)
    exact le_of_lt (h.plans p hp).lt) at_ stop
  exact ⟨hin, hp, fun x => by rw [hcov, h.covers_inflight]⟩

theorem plans_planned {w' : CryptoWorld} {call : Ingest} (h : w'.calls = w.calls ++ [call]) :
    w'.plans = w.plans ++ call.plans := by
  unfold plans
  rw [h, flatMap_append, flatMap_singleton]

/-- A call's plan phase, over a span of the posted bytes. -/
theorem Inv.plan (h : w.Inv cs c) {at_ : Nat} {data : List UInt8}
    (hend : at_ + data.length ≤ cs.cipherLen)
    (hdata : ∀ g ∈ novelRanges w.st at_ (at_ + data.length),
      (data.drop (g.1 - at_)).take (g.2 - g.1) = slice c g.1 (g.2 - g.1)) :
    (w.step cs (.ingest at_ data)).Inv cs c ∧
      (w.step cs (.ingest at_ data)).st.runs = w.st.runs ∧
      (w.step cs (.ingest at_ data)).plans = w.plans ++
        (novelRanges w.st at_ (at_ + data.length)).map (fun g => planOf cs c g.1 g.2) ∧
      (CrcFull cs (Decrypted w.st.runs) w.st →
        CrcFull cs (Decrypted w.st.runs) (w.step cs (.ingest at_ data)).st) := by
  obtain ⟨hin, hsorted, hcov⟩ := h.novel at_ (at_ + data.length)
  generalize hgs : novelRanges w.st at_ (at_ + data.length) = gs at hin hsorted hcov hdata ⊢
  obtain ⟨checkpoints, events, hfold, hfiled, hck⟩ := @planRanges_spec cs c at_ data gs w.st []
    fun g hg => ⟨(hin g hg).2.1, by have := hin g hg; omega, hdata g hg⟩
  have hstep : w.step cs (.ingest at_ data) = { w with
      st := { w.st with checkpoints, events, inflight := w.st.inflight ++ gs }
      calls := w.calls ++
        [{ todo := gs.map fun g => (planOf cs c g.1 g.2, slice c g.1 (g.2 - g.1)) }] } := by
    unfold step
    dsimp only
    unfold ingestPlan
    rw [hgs, hfold]
    rfl
  have hplans : (w.step cs (.ingest at_ data)).plans = w.plans ++ gs.map fun g => planOf cs c g.1 g.2 := by
    rw [hstep, plans_planned rfl]
    unfold Ingest.plans
    rw [map_nil, nil_append, map_map]
    rfl
  have hrange : ∀ g, planRange (planOf cs c g.1 g.2) = g := fun g => by
    unfold planRange
    rw [planOf_start, planOf_stop]
  refine ⟨⟨?_, ?_, ?_, fun p hp => ?_, fun call hcall => ?_, fun call hcall => ?_, ?_, ?_, fun p hp => ?_,
    fun y hy => ?_⟩, by rw [hstep], hplans, fun hf => by rw [hstep]; exact ⟨hf.apart, hf.has⟩⟩
  · rw [hstep]
    exact h.runs
  · rw [hstep]
    exact h.apart
  · rw [hstep]
    exact hfiled _ _ h.filed
  · rw [hplans] at hp
    rcases mem_append.mp hp with hp | hp
    · exact h.plans p hp
    · obtain ⟨g, hg, rfl⟩ := mem_map.mp hp
      have := hin g hg
      refine ⟨?_, ?_, ?_⟩
      · rw [planOf_start, planOf_stop]
      · rw [planOf_start, planOf_stop]
        omega
      · rw [planOf_stop]
        omega
  · rw [hstep] at hcall
    rcases mem_append.mp hcall with hcall | hcall
    · exact h.todo call hcall
    · obtain rfl := mem_singleton.mp hcall
      intro l hl
      obtain ⟨g, hg, rfl⟩ := mem_map.mp hl
      rw [planOf_start, planOf_stop]
  · rw [hstep] at hcall ⊢
    rcases mem_append.mp hcall with hcall | hcall
    · exact h.landed call hcall
    · obtain rfl := mem_singleton.mp hcall
      exact nofun
  · rw [hplans, hstep, map_append, map_map]
    refine List.Perm.append h.flight ?_
    rw [show planRange ∘ (fun g => planOf cs c g.1 g.2) = id from funext hrange, map_id]
  · rw [hplans]
    refine pairwise_append.mpr ⟨h.disjoint, pairwise_map.mpr ?_, fun p hp q hq => ?_⟩
    · refine hsorted.imp fun {g g'} hle => ?_
      rw [hrange, hrange]
      exact .inl hle
    · obtain ⟨g, hg, rfl⟩ := mem_map.mp hq
      rw [hrange]
      refine off_of_disjoint (h.plans p hp).lt (hin g hg).2.1 fun x hlo hhi hlo' hhi' => ?_
      exact ((hcov x).mp ⟨g, hg, hlo', hhi'⟩).2.2 ⟨p, hp, hlo, hhi⟩
  · rw [hplans] at hp
    rw [hstep]
    rcases mem_append.mp hp with hp | hp
    · exact h.clear p hp
    · obtain ⟨g, hg, rfl⟩ := mem_map.mp hp
      rw [planOf_start, planOf_stop]
      exact fun x hlo hhi => ((hcov x).mp ⟨g, hg, hlo, hhi⟩).2.1
  · rw [hplans]
    rw [hstep] at hy ⊢
    rcases hck y hy with hy | ⟨g, hg, hbody, hlo, hhi⟩
    · exact (h.located y hy).imp_right fun ⟨p, hp, hk⟩ => ⟨p, mem_append_left _ hp, hk⟩
    · refine .inr ⟨_, mem_append_right _ (mem_map.mpr ⟨g, hg, rfl⟩), ?_⟩
      rw [planOf, if_pos hbody]
      dsimp only
      omega

theorem plans_ingestWrite (file : List UInt8) (call : Ingest) :
    (cs.ingestWrite file call).2.plans = call.plans := by
  obtain ⟨todo, landed⟩ := call
  cases todo with
  | nil => rfl
  | cons l todo =>
    unfold ingestWrite Ingest.plans
    dsimp only
    split <;> simp only [map_append, map_cons, map_nil, append_assoc,
      singleton_append]

theorem flatMap_set {α β : Type} {f : α → List β} : ∀ {l : List α} {i : Nat} {x y : α}, l[i]? = some x →
    f y = f x → (l.set i y).flatMap f = l.flatMap f
  | a :: l, 0, x, y, h, hf => by
    cases h
    rw [set_cons_zero, flatMap_cons, flatMap_cons, hf]
  | a :: l, i + 1, x, y, h, hf => by
    rw [set_cons_succ, flatMap_cons, flatMap_cons, flatMap_set (l := l) (i := i) h hf]

/-- A body of a call written, off the lock. -/
theorem Inv.write (h : w.Inv cs c) (i : Nat) :
    (w.step cs (.write i)).Inv cs c ∧ (w.step cs (.write i)).st = w.st ∧
      (w.step cs (.write i)).plans = w.plans := by
  unfold step
  dsimp only
  cases hi : w.calls[i]? with
  | none => exact ⟨h, rfl, rfl⟩
  | some call =>
    have hcall := mem_of_getElem? hi
    have hplans : CryptoWorld.plans { w with
        file := (cs.ingestWrite w.file call).1, calls := w.calls.set i (cs.ingestWrite w.file call).2 } =
        w.plans := flatMap_set hi (plans_ingestWrite w.file call)
    -- what the write does to the file, and that the new entry is landed
    obtain ⟨hwrote, hshort, htodo, hlanded⟩ :
        (∀ x, Wrote cs c w.file x → Wrote cs c (cs.ingestWrite w.file call).1 x) ∧
        (cs.ingestWrite w.file call).1.length ≤ cs.unp ∧
        (∀ l ∈ (cs.ingestWrite w.file call).2.todo, l ∈ call.todo) ∧
        ∀ l ∈ (cs.ingestWrite w.file call).2.landed,
          l ∈ call.landed ∨ LandedOk cs c (cs.ingestWrite w.file call).1 l := by
      obtain ⟨todo, landed⟩ := call
      cases todo with
      | nil => exact ⟨fun _ => id, h.filed.short, fun l hl => hl, fun l hl => .inl hl⟩
      | cons l todo =>
        obtain ⟨p, cipher⟩ := l
        have hcipher := h.todo _ hcall _ (.head _)
        have hp : PlanOk cs c p := h.plans p (mem_flatMap.mpr ⟨_, hcall,
          mem_append_right _ (mem_map.mpr ⟨_, .head _, rfl⟩)⟩)
        dsimp only at hcipher
        unfold ingestWrite
        dsimp only
        cases hb : p.body with
        | none =>
          refine ⟨fun _ => id, h.filed.short, fun l hl => .tail _ hl, fun l hl => ?_⟩
          rcases mem_append.mp hl with hl | hl
          · exact .inl hl
          · obtain rfl := mem_singleton.mp hl
            refine .inr ?_
            unfold LandedOk
            rw [hb]
            trivial
        | some body =>
          have hbody : pLoOf p.start + 16 ≤ p.run.stop := by
            by_contra hno
            rw [hp.eq, planOf, if_neg hno] at hb
            cases hb
          obtain ⟨hbeq, hbytes⟩ := bodyBytes_slice hbody (hp.eq ▸ hb)
          obtain ⟨hle, hmod, -⟩ := pLoOf_spec p.start
          have hinside := hp.inside
          obtain ⟨hl, hshort, hwrote⟩ := @decryptWrite_spec cs c (pLoOf p.start)
            ((p.run.stop - pLoOf p.start) / 16) hmod (by omega) (by omega) w.file h.filed.short body hbeq
          dsimp only
          rw [hcipher, hbytes]
          refine ⟨fun x hx => hwrote x (.inr hx), hshort, fun l hl => .tail _ hl,
            fun l hl' => ?_⟩
          rcases mem_append.mp hl' with hl' | hl'
          · exact .inl hl'
          · obtain rfl := mem_singleton.mp hl'
            refine .inr ?_
            unfold LandedOk
            rw [hb]
            subst hbeq
            exact ⟨hl, fun x hx => hwrote x (.inl hx)⟩
    refine ⟨⟨h.runs, h.apart, ?_, hplans ▸ h.plans, fun call' hc' => ?_, fun call' hc' => ?_,
      hplans ▸ h.flight, hplans ▸ h.disjoint, hplans ▸ h.clear, hplans ▸ h.located⟩, rfl, hplans⟩
    · exact { h.filed with wrote := fun x hx => hwrote x (h.filed.wrote x hx), short := hshort }
    · rcases mem_or_eq_of_mem_set hc' with hc' | rfl
      · exact h.todo call' hc'
      · exact fun l hl => h.todo call hcall l (htodo l hl)
    · rcases mem_or_eq_of_mem_set hc' with hc' | rfl
      · exact fun l hl => (h.landed call' hc' l hl).mono hwrote
      · intro l hl
        rcases hlanded l hl with hl | hl
        · exact (h.landed call hcall l hl).mono hwrote
        · exact hl

def committing (w : CryptoWorld) : CryptoAction → List (Nat × Nat)
  | .commit i => ((w.calls[i]?).filter fun call => decide (call.todo = [])).elim [] fun call =>
      call.landed.map fun l => planRange l.1
  | _ => []

theorem plans_eraseIdx {i : Nat} {call : Ingest} (hi : w.calls[i]? = some call) :
    w.plans.Perm (call.plans ++ (w.calls.eraseIdx i).flatMap Ingest.plans) := by
  obtain ⟨hlt, rfl⟩ := List.getElem?_eq_some_iff.mp hi
  exact (List.Perm.flatMap_right _ (getElem_cons_eraseIdx_perm hlt)).symm

theorem Inv.commit (h : w.Inv cs c) (i : Nat) :
    (w.step cs (.commit i)).Inv cs c ∧
      (∀ x, RunHas (w.step cs (.commit i)).st.runs x ↔
        RunHas w.st.runs x ∨ Covers (w.committing (.commit i)) x) ∧
      (w.plans.map planRange).Perm
        (w.committing (.commit i) ++ (w.step cs (.commit i)).plans.map planRange) ∧
      (CrcFull cs (Decrypted w.st.runs) w.st →
        CrcFull cs (Decrypted (w.step cs (.commit i)).st.runs) (w.step cs (.commit i)).st) := by
  have hsame : w.Inv cs c ∧ (∀ x, RunHas w.st.runs x ↔ RunHas w.st.runs x ∨ Covers [] x) ∧
      (w.plans.map planRange).Perm ([] ++ w.plans.map planRange) ∧
      (CrcFull cs (Decrypted w.st.runs) w.st → CrcFull cs (Decrypted w.st.runs) w.st) :=
    ⟨h, fun x => by rw [iff_false_intro (covers_nil x), or_false], .refl _, id⟩
  unfold step committing
  dsimp only
  cases hi : w.calls[i]? with
  | none => exact hsame
  | some call =>
  dsimp only
  by_cases htodo : call.todo = []
  case neg =>
    rw [if_neg htodo, Option.filter_some, if_neg (by simpa using htodo)]
    exact hsame
  case pos =>
  rw [if_pos htodo, Option.filter_some, if_pos (by simpa using htodo)]
  dsimp only [Option.elim]
  have hcall := mem_of_getElem? hi
  have hplans : call.plans = call.landed.map (·.1) := by
    unfold Ingest.plans
    rw [htodo, map_nil, append_nil]
  have hperm := plans_eraseIdx hi
  generalize hrest : (w.calls.eraseIdx i).flatMap Ingest.plans = others at hperm
  have hmem : ∀ p, p ∈ w.plans ↔ p ∈ call.plans ∨ p ∈ others := fun p => by
    rw [hperm.mem_iff, mem_append]
  have hpair : (call.plans ++ others).Pairwise fun p q => Off (planRange p) (planRange q) :=
    (hperm.pairwise_iff fun hpq => Off.symm hpq).mp h.disjoint
  obtain ⟨hcp, hop, hoff⟩ := pairwise_append.mp hpair
  have hlanded : ∀ l ∈ call.landed, l.1 ∈ call.plans := fun l hl => by
    rw [hplans]
    exact mem_map.mpr ⟨l, hl, rfl⟩
  have hdis : call.landed.Pairwise fun l l' => Off (planRange l.1) (planRange l'.1) := by
    rw [hplans, pairwise_map] at hcp
    exact hcp
  -- the marks of the call go, those of the others stay
  have hflight : (w.st.inflight.filter fun g => !call.landed.any fun l => decide (l.1.start = g.1)).Perm
      (others.map planRange) := by
    refine ((h.flight.trans (hperm.map _)).filter _).trans ?_
    rw [map_append, filter_append, filter_eq_nil_iff.mpr fun g hg => ?_,
      filter_eq_self.mpr fun g hg => ?_, nil_append]
    · obtain ⟨p, hp, rfl⟩ := mem_map.mp hg
      rw [Bool.not_eq_true', any_eq_false]
      intro l hl heq
      have heq := of_decide_eq_true heq
      have hq := hlanded l hl
      have hlp := (h.plans p ((hmem p).mpr (.inr hp))).lt
      have hlq := (h.plans l.1 ((hmem _).mpr (.inl hq))).lt
      have := hoff l.1 hq p hp
      unfold Off planRange at this
      unfold planRange at heq
      omega
    · obtain ⟨p, hp, rfl⟩ := mem_map.mp hg
      rw [hplans] at hp
      obtain ⟨l, hl, rfl⟩ := mem_map.mp hp
      rw [Bool.not_eq_true', Bool.not_eq_false, any_eq_true]
      exact ⟨l, hl, decide_eq_true rfl⟩
  have hC := @commitRanges_spec cs c call.landed ({ w.st with
      inflight := w.st.inflight.filter fun g => !call.landed.any fun l => decide (l.1.start = g.1) }, w.file)
    h.runs h.apart ⟨h.filed.wrote, h.filed.short, h.filed.checkpoints, h.filed.pad, h.filed.crc, h.filed.crcIn⟩
    (fun l hl => ⟨h.plans _ ((hmem _).mpr (.inl (hlanded l hl))), h.landed call hcall l hl⟩)
    hdis (fun l hl => h.clear _ ((hmem _).mpr (.inl (hlanded l hl))))
  rw [← hplans] at hC
  have hranges : call.landed.map (fun l => planRange l.1) = call.plans.map planRange := by
    rw [hplans, map_map]
    rfl
  rw [hranges]
  unfold ingestCommit
  generalize call.landed.foldl cs.commitRange ({ w.st with
      inflight := w.st.inflight.filter fun g => !call.landed.any fun l => decide (l.1.start = g.1) }, w.file) = s
    at hC ⊢
  have hplans' : CryptoWorld.plans { st := s.1, file := s.2, calls := w.calls.eraseIdx i } = others := hrest
  refine ⟨⟨hC.ok, hC.apart, hC.filed, fun p hp => ?_, fun call' hc' => ?_, fun call' hc' l hl => ?_, ?_, ?_,
    fun p hp x hlo hhi hx => ?_, fun y hy => ?_⟩, hC.has, ?_,
    fun hf => hC.crcFull ⟨hf.apart, hf.has⟩⟩
  · exact h.plans p ((hmem p).mpr (.inr (hplans' ▸ hp)))
  · exact h.todo call' (mem_of_mem_eraseIdx hc')
  · exact (h.landed call' (mem_of_mem_eraseIdx hc') l hl).mono hC.wrote
  · rw [hplans', hC.inflight]
    exact hflight
  · rw [hplans']
    exact hop
  · rw [hplans'] at hp
    rcases (hC.has x).mp hx with hx | ⟨g, hg, hglo, hghi⟩
    · exact h.clear p ((hmem p).mpr (.inr hp)) x hlo hhi hx
    · obtain ⟨q, hq, rfl⟩ := mem_map.mp hg
      have := hoff q hq p hp
      unfold Off at this
      unfold planRange at this hglo hghi
      omega
  · rw [hplans']
    rcases hC.checkpoints y hy with hy | hy
    · rcases h.located y hy with hy | ⟨p, hp, hlt, hlo, hhi⟩
      · exact .inl (hC.spanned y.1 hy)
      · rcases (hmem p).mp hp with hp | hp
        · exact .inl (hC.landed p hp hlt y.1 hlo hhi)
        · exact .inr ⟨p, hp, hlt, hlo, hhi⟩
    · exact .inl hy
  · rw [hplans', ← map_append]
    exact hperm.map _

end CryptoWorld

end NzbFast.Extract
