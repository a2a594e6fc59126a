import NzbFast.Repair.Workers

/-!
# The workers leave together

The two barriers of a column in the fanned-out inverse, from the worker that completes
them; and from the invariant, that the workers of a run never part: they leave at one
place, none is left waiting, and without a cancel the result is the serial one.
-/

namespace NzbFast.Repair

open Function Gf16 Option Bool
open NzbFast.Gf (Tableau)
open Sync (Barrier)

variable {m threads : Nat} {a : Rows m} {s : World m threads} {w : Fin threads} {col p : Fin m}

/-! ## The barriers -/

theorem Inv.arrived (h : Inv a s) {q : Pc m} (hlt : s.shared.barrier.count + 1 < threads)
    (hw : (s.pc w).waits = none) (hq : q.waits = some s.shared.barrier.generation)
    (hlocal : Local w s.shared q)
    (hpending : q.pending s.shared.barrier.generation = (s.pc w).pending s.shared.barrier.generation) :
    Inv a (⟨{ s.shared with barrier := s.shared.barrier.arrive threads }, update s.pc w q⟩ :
      World m threads) := by
  have harrive : s.shared.barrier.arrive threads =
      { s.shared.barrier with count := s.shared.barrier.count + 1 } := if_pos hlt
  have hframe : ∀ v : Fin threads, Frame v s.shared
      { s.shared with barrier := { s.shared.barrier with count := s.shared.barrier.count + 1 } } := fun v =>
    ⟨rfl, id, id, id, fun _ _ hs => hs, fun _ _ hc => hc, fun _ _ => rfl,
      fun _ _ _ _ _ hn => hn.congr rfl rfl, fun _ _ _ _ _ hp => hp.congr rfl rfl rfl⟩
  obtain ⟨V, hV, hdata⟩ := h.data
  rw [harrive]
  refine ⟨?_, (forall_update_iff s.pc fun v q => Local v _ q).mpr
    ⟨⟨hlocal.clock, (hframe w).facts hlocal⟩,
      fun v _ => ⟨(h.locals v).clock, (hframe v).facts (h.locals v)⟩⟩,
    ⟨h.flags.control, h.flags.cancelled, h.flags.singular⟩, V, hV.move rfl rfl rfl hpending,
    hdata.congr rfl rfl rfl⟩
  · rw [← harrive]
    refine h.counts.arrive (waits_ne hw _) ?_ (fun v hv => ?_) hlt
    · dsimp only
      rw [update_self, hq]
    · dsimp only
      rw [update_of_ne hv]

theorem Inv.waits_even (h : Inv a s) (hclock : s.shared.barrier.generation = 2 * col.val) {v : Fin threads}
    (hv : (s.pc v).waits = some s.shared.barrier.generation) :
    s.pc v = .waiting col s.shared.barrier.generation := by
  have hlocal := h.locals v
  cases hpc : s.pc v with
  | waiting c l =>
    rw [hpc] at hv hlocal
    obtain ⟨hl, -⟩ := hlocal.clock
    have hgen := some.inj hv
    obtain rfl : c = col := Fin.ext (by omega)
    rw [hgen]
  | waitingAgain c q l =>
    rw [hpc] at hv hlocal
    obtain ⟨hl, -⟩ := hlocal.clock
    have hgen := some.inj hv
    omega
  | _ =>
    rw [hpc] at hv
    cases hv

/-- Whoever waits at an odd clock waits at the second barrier, for the same pivot. -/
theorem Inv.waits_odd (h : Inv a s) (hclock : s.shared.barrier.generation = 2 * col.val + 1)
    {v : Fin threads} (hv : (s.pc v).waits = some s.shared.barrier.generation) :
    ∃ q, s.pc v = .waitingAgain col q s.shared.barrier.generation ∧ Going s.shared col q ∧
      (q.val % threads = v.val → Published s.shared col q) := by
  have hlocal := h.locals v
  cases hpc : s.pc v with
  | waiting c l =>
    rw [hpc] at hv hlocal
    obtain ⟨hl, -⟩ := hlocal.clock
    have hgen := some.inj hv
    omega
  | waitingAgain c q l =>
    rw [hpc] at hv hlocal
    obtain ⟨hl, -⟩ := hlocal.clock
    have hgen := some.inj hv
    obtain rfl : c = col := Fin.ext (by omega)
    exact ⟨q, by rw [hgen], hlocal.facts.2 hgen.symm⟩
  | _ =>
    rw [hpc] at hv
    cases hv

/-- The last to arrive at the first barrier: every shard has been scanned. -/
theorem Inv.scanned (h : Inv a s) (hpc : s.pc w = .arrive col)
    (hlast : ¬ s.shared.barrier.count + 1 < threads) :
    Inv a (⟨{ s.shared with barrier := s.shared.barrier.arrive threads },
      update s.pc w (.readCancelled col)⟩ : World m threads) := by
  have hlocal := h.here hpc
  have hclock : s.shared.barrier.generation = 2 * col.val := hlocal.clock
  have harrive : s.shared.barrier.arrive threads = ⟨0, s.shared.barrier.generation + 1⟩ := if_neg hlast
  have hothers : ∀ v, v ≠ w → s.pc v = .waiting col s.shared.barrier.generation := fun v hv =>
    h.waits_even hclock (h.counts.last (waits_ne (hpc ▸ rfl) _) hlast v hv)
  have hscanned : ∀ v, Scanned v s.shared col := fun v => by
    by_cases hv : v = w
    · rw [hv]
      exact hlocal.facts
    · have hlocal' := h.locals v
      rw [hothers v hv] at hlocal'
      exact hlocal'.facts rfl
  have hpending : ∀ v g, (s.pc v).pending g = none := fun v g => by
    by_cases hv : v = w
    · exact hv ▸ hpc ▸ rfl
    · exact hothers v hv ▸ rfl
  obtain ⟨V, hV, hdata⟩ := h.data
  have hrows : ∀ r : Fin m, V.a r = s.shared.rows.a r ∧ V.inv r = s.shared.rows.inv r := fun r => by
    obtain ⟨v, hv⟩ := owner w.pos r
    have hagree := hV v r hv
    rwa [hpending v] at hagree
  refine ⟨?_, fun v => ?_, ?_, V, fun v r _ => ?_, ?_⟩
  · refine h.counts.next hlast fun v g hg => ?_
    dsimp only at hg
    by_cases hv : v = w
    · rw [hv, update_self] at hg
      cases hg
    · rw [update_of_ne hv, hothers v hv] at hg
      exact (some.inj hg).ge
  · dsimp only
    rw [harrive]
    by_cases hv : v = w
    · rw [hv, update_self]
      exact ⟨congrArg (· + 1) hclock, trivial⟩
    · rw [update_of_ne hv, hothers v hv]
      exact ⟨⟨hclock, .inr rfl⟩, fun hg => absurd hg (Nat.succ_ne_self _)⟩
  · dsimp only
    rw [harrive]
    refine ⟨h.flags.control, fun _ => ?_, fun hs => ?_⟩
    · dsimp only
      omega
    · have := (h.flags.singular hs).1
      omega
  · have hnone : (update s.pc w (.readCancelled col) v).pending
        (s.shared.barrier.arrive threads).generation = none := by
      by_cases hv : v = w
      · rw [hv, update_self]
        rfl
      · rw [update_of_ne hv]
        exact hpending v _
    rw [hnone]
    exact hrows r
  · dsimp only
    rw [harrive]
    obtain ⟨hreached, hreduced, hbehind, hahead, hcandidate, hmarked, htaken, hstuck⟩ := hdata
    have hhalf : (s.shared.barrier.generation + 1) / 2 = s.shared.barrier.generation / 2 := by omega
    have hodd : (s.shared.barrier.generation + 1) % 2 = 1 := by omega
    rw [← hhalf] at hreduced hbehind hahead hcandidate hmarked
    refine ⟨hreached, hreduced, hbehind, hahead, hcandidate, hmarked, fun r hr => ?_,
      fun _ c hc hnone r hr => ?_⟩
    · obtain ⟨j, hj, hpiv, -⟩ := htaken r hr
      exact ⟨j, by dsimp only; omega, hpiv, fun _ => hodd⟩
    · dsimp only at hc hr
      rw [hhalf] at hc hr
      obtain rfl : c = col := Fin.ext (by omega)
      by_contra hne
      obtain ⟨v, hv⟩ := owner w.pos r
      rw [(hrows r).1] at hne
      refine hscanned v r hv ?_ hne hnone
      by_contra hused
      obtain ⟨j, hj, hpiv, hat⟩ := htaken r (eq_true_of_not_eq_false hused)
      have hlt : j.val < s.shared.barrier.generation / 2 := by
        rcases lt_or_eq_of_le hj with hlt | heq
        · exact hlt
        · have := hat heq
          omega
      exact hr j ((if_pos hlt).trans hpiv)

theorem settled_succ {c : Nat} {piv : Fin m → Option (Fin m)} (hcol : col.val = c)
    (hp : piv col = some p) : settled (c + 1) piv = update (settled c piv) col (some p) := by
  funext j
  by_cases hj : j = col
  · rw [hj, update_self, settled, if_pos (by omega), hp]
  · rw [update_of_ne hj]
    refine if_congr ?_ rfl rfl
    omega

/-- The last to arrive at the second barrier: the pivot row is published, and every row is to be
folded against it. -/
theorem Inv.passed (h : Inv a s) (hpc : s.pc w = .arriveAgain col p)
    (hlast : ¬ s.shared.barrier.count + 1 < threads) :
    Inv a (⟨{ s.shared with barrier := s.shared.barrier.arrive threads },
      update s.pc w (.lockRead col p)⟩ : World m threads) := by
  have hlocal := h.here hpc
  have hclock : s.shared.barrier.generation = 2 * col.val + 1 := hlocal.clock
  obtain ⟨hgoing, hown⟩ := hlocal.facts
  have hodd : s.shared.barrier.generation % 2 = 1 := by omega
  have harrive : s.shared.barrier.arrive threads = ⟨0, s.shared.barrier.generation + 1⟩ := if_neg hlast
  have hothers : ∀ v, v ≠ w → s.pc v = .waitingAgain col p s.shared.barrier.generation ∧
      (p.val % threads = v.val → Published s.shared col p) := fun v hv => by
    obtain ⟨q, hq, hgoing', hpub⟩ := h.waits_odd hclock (h.counts.last (waits_ne (hpc ▸ rfl) _) hlast v hv)
    obtain rfl := some.inj (hgoing.piv.symm.trans hgoing'.piv)
    exact ⟨hq, hpub⟩
  -- its owner is among those who arrived
  have hpublished : Published s.shared col p := by
    obtain ⟨v, hv⟩ := owner w.pos p
    by_cases hvw : v = w
    · exact hown (hvw ▸ hv)
    · exact (hothers v hvw).2 hv
  have hdata := h.data_odd w.pos hodd
  obtain ⟨hfresh, -⟩ := hdata.candidate col p (by omega) hgoing.piv
  have hhalf : s.shared.barrier.generation / 2 = col.val := by omega
  have hhalf' : (s.shared.barrier.generation + 1) / 2 = col.val + 1 := by omega
  refine ⟨?_, fun v => ?_, ?_, s.shared.rows.clear p col, fun v r _ => ?_, ?_⟩
  · refine h.counts.next hlast fun v g hg => ?_
    dsimp only at hg
    by_cases hv : v = w
    · rw [hv, update_self] at hg
      cases hg
    · rw [update_of_ne hv, (hothers v hv).1] at hg
      exact (some.inj hg).ge
  · dsimp only
    rw [harrive]
    by_cases hv : v = w
    · rw [hv, update_self]
      exact ⟨congrArg (· + 1) hclock, hgoing.piv⟩
    · rw [update_of_ne hv, (hothers v hv).1]
      exact ⟨⟨hclock, .inr rfl⟩, hgoing.piv, fun hg => absurd hg (Nat.succ_ne_self _)⟩
  · dsimp only
    refine ⟨h.flags.control, fun hc => ?_, fun hs => ?_⟩
    · exact absurd (hgoing.cancelled.symm.trans hc) false_ne_true
    · have hnone := (h.flags.singular hs).2 col hhalf.symm
      exact absurd (hgoing.piv.symm.trans hnone) (some_ne_none p)
  · have hpending : (update s.pc w (.lockRead col p) v).pending
        (s.shared.barrier.arrive threads).generation = some (col, p) := by
      rw [harrive]
      by_cases hv : v = w
      · rw [hv, update_self]
        rfl
      · rw [update_of_ne hv, (hothers v hv).1]
        exact if_pos (Nat.lt_succ_self _)
    rw [hpending]
    obtain ⟨ha, hinv⟩ := eliminateRow_apply p col s.shared.pivotRows s.shared.rows r r
    have hcond : r = p ↔ ¬ (r = r ∧ r ≠ p) := by simp
    refine ⟨?_, ?_⟩
    · dsimp only
      rw [ha, Tableau.clear_a, hpublished.buffer, if_congr hcond rfl rfl, ite_not]
    · dsimp only
      rw [hinv, Tableau.clear_inv, hpublished.buffer, if_congr hcond rfl rfl, ite_not]
  · dsimp only
    rw [harrive]
    obtain ⟨hreached, hreduced, hbehind, hahead, hcandidate, hmarked, htaken, hstuck⟩ := hdata
    rw [hhalf] at hreduced hbehind hahead hmarked htaken hfresh
    have hsettled := settled_succ rfl hgoing.piv
    refine ⟨hreached.clear p col, ?_, fun j hj => ?_, fun j hj => ?_, fun c q hc hq => ?_,
      fun j q hq => ?_, fun q hq => ?_, fun heven => ?_⟩
    · dsimp only
      rw [hhalf', hsettled]
      exact hreduced.clear hfresh hpublished.one
    · dsimp only at hj
      by_cases hjc : j = col
      · rw [hjc, hgoing.piv]
        exact some_ne_none p
      · have := Fin.val_ne_of_ne hjc
        exact hbehind j (by omega)
    · dsimp only at hj
      exact hahead j (by omega)
    · dsimp only at hc hq
      rw [hahead c (by omega)] at hq
      cases hq
    · dsimp only at hq
      rw [hhalf', hsettled] at hq
      by_cases hjc : j = col
      · rw [hjc, update_self] at hq
        obtain rfl := some.inj hq
        exact hpublished.used
      · rw [update_of_ne hjc] at hq
        exact hmarked j q hq
    · obtain ⟨j, hj, hpiv, -⟩ := htaken q hq
      exact ⟨j, by dsimp only; omega, hpiv, fun hat => by dsimp only at hat; omega⟩
    · dsimp only at heven
      omega

/-! ## Every step -/

theorem Inv.step (hle : threads ≤ m) (h : Inv a s) {s' : World m threads} (hstep : s.step w = some s') :
    Inv a s' := by
  obtain ⟨x, hx, rfl⟩ := map_eq_some_iff.mp hstep
  have hlocal := h.locals w
  cases hpc : s.pc w with
  | check col =>
    rw [hpc] at hx
    obtain rfl := some.inj hx
    exact h.check hpc
  | latch col =>
    rw [hpc] at hx
    obtain rfl := some.inj hx
    exact h.latch hpc
  | scan col =>
    rw [hpc, turn] at hx
    cases hoffer : (shard m w).find? fun r => !s.shared.used r && s.shared.rows.a r col ≠ 0 with
    | none =>
      rw [hoffer] at hx
      obtain rfl := some.inj hx
      exact h.scan_none hpc hoffer
    | some r =>
      rw [hoffer] at hx
      obtain rfl := some.inj hx
      exact h.scan_some hpc hoffer
  | arrive col =>
    rw [hpc] at hx hlocal
    obtain rfl := some.inj hx
    have hclock := hlocal.clock
    split
    case isTrue hlt =>
      exact h.arrived hlt (hpc ▸ rfl) rfl ⟨⟨hclock, .inl rfl⟩, fun _ => hlocal.facts⟩ (hpc ▸ rfl)
    case isFalse hlast => exact h.scanned hpc hlast
  | waiting col l =>
    rw [hpc, turn] at hx
    rw [hpc] at hlocal
    split at hx
    · cases hx
    case isFalse hne =>
      obtain rfl := some.inj hx
      obtain ⟨hl, hg⟩ := hlocal.clock
      refine h.quiet (fun hw => ?_) rfl ⟨show s.shared.barrier.generation = 2 * col.val + 1 by omega, trivial⟩
        (hpc ▸ rfl)
      rw [hpc] at hw
      exact hne (some.inj hw).symm
  | readCancelled col =>
    rw [hpc] at hx
    obtain rfl := some.inj hx
    exact h.readCancelled hpc
  | readPivot col =>
    rw [hpc, turn] at hx
    cases hpiv : s.shared.piv col with
    | none =>
      rw [hpiv] at hx
      obtain rfl := some.inj hx
      exact h.readPivot hle hpc (.inl ⟨hpiv, rfl⟩)
    | some p =>
      rw [hpiv] at hx
      obtain rfl := some.inj hx
      exact h.readPivot hle hpc (.inr ⟨p, hpiv, rfl⟩)
  | storeSingular col =>
    rw [hpc] at hx
    obtain rfl := some.inj hx
    exact h.storeSingular hpc
  | publish col p =>
    rw [hpc] at hx
    obtain rfl := some.inj hx
    exact h.publish w.pos hpc
  | lockWrite col p =>
    rw [hpc, turn] at hx
    rw [hpc] at hlocal
    split at hx
    · cases hx
    · obtain rfl := some.inj hx
      exact h.quiet (hpc ▸ waits_ne rfl _) rfl ⟨hlocal.clock, hlocal.facts⟩ (hpc ▸ rfl)
  | writing col p =>
    rw [hpc] at hx
    obtain rfl := some.inj hx
    exact h.writing hpc
  | arriveAgain col p =>
    rw [hpc] at hx hlocal
    obtain rfl := some.inj hx
    have hclock := hlocal.clock
    split
    case isTrue hlt =>
      refine h.arrived hlt (hpc ▸ rfl) rfl ⟨⟨hclock, .inl rfl⟩, hlocal.facts.1.piv, fun _ => hlocal.facts⟩ ?_
      rw [hpc]
      exact if_neg (lt_irrefl _)
    case isFalse hlast => exact h.passed hpc hlast
  | waitingAgain col p l =>
    rw [hpc, turn] at hx
    rw [hpc] at hlocal
    split at hx
    · cases hx
    case isFalse hne =>
      obtain rfl := some.inj hx
      obtain ⟨hl, hg⟩ := hlocal.clock
      refine h.quiet (fun hw => ?_) rfl
        ⟨show s.shared.barrier.generation = 2 * col.val + 2 by omega, hlocal.facts.1⟩ ?_
      · rw [hpc] at hw
        exact hne (some.inj hw).symm
      · rw [hpc]
        exact (if_pos (by omega)).symm
  | lockRead col p =>
    rw [hpc, turn] at hx
    rw [hpc] at hlocal
    split at hx
    · cases hx
    · obtain rfl := some.inj hx
      exact h.quiet (hpc ▸ waits_ne rfl _) rfl ⟨hlocal.clock, hlocal.facts⟩ (hpc ▸ rfl)
  | folding col p =>
    rw [hpc] at hx
    obtain rfl := some.inj hx
    exact h.folding hpc
  | left e =>
    rw [hpc] at hx
    cases hx

/-- The control may become cancelled at any moment. -/
theorem Inv.cancel (h : Inv a s) :
    Inv a ({ s with shared := { s.shared with control := true } } : World m threads) := by
  obtain ⟨V, hV, hdata⟩ := h.data
  refine ⟨h.counts, fun v => ⟨(h.locals v).clock, Frame.facts ?_ (h.locals v)⟩,
    ⟨fun _ => rfl, h.flags.cancelled, h.flags.singular⟩, V, fun v r hr => ?_, hdata.congr rfl rfl rfl⟩
  · exact ⟨rfl, fun _ => rfl, id, id, fun _ _ hs => hs, fun _ _ hc => hc, fun _ _ => rfl,
      fun _ _ _ _ _ hn => hn.congr rfl rfl, fun _ _ _ _ _ hp => hp.congr rfl rfl rfl⟩
  · have hagree := hV v r hr
    cases hpending : (s.pc v).pending s.shared.barrier.generation with
    | none =>
      rw [hpending] at hagree
      exact hagree
    | some x =>
      rw [hpending] at hagree
      exact hagree

/-- Every interleaving keeps the invariant. -/
theorem Run.inv (hthreads : 0 < threads) (hle : threads ≤ m) {n : Nat} (h : Run a n s) : Inv a s := by
  induction h with
  | start => exact inv_start a hthreads
  | step w _ hstep ih => exact ih.step hle hstep
  | cancel _ ih => exact ih.cancel

/-! ## Nobody is left behind -/

theorem Inv.exits_agree (h : Inv a s) {v : Fin threads} {e e' : Exit m} (hw : s.pc w = .left e)
    (hv : s.pc v = .left e') : e = e' := by
  have hlocal := h.locals w
  have hlocal' := h.locals v
  rw [hw] at hlocal
  rw [hv] at hlocal'
  obtain ⟨hclock, hfacts⟩ := hlocal
  obtain ⟨hclock', hfacts'⟩ := hlocal'
  cases e with
  | cancelled c =>
    cases e' with
    | cancelled c' =>
      have h1 : s.shared.barrier.generation = 2 * c.val + 1 := hclock
      have h2 : s.shared.barrier.generation = 2 * c'.val + 1 := hclock'
      rw [Fin.ext (by omega : c.val = c'.val)]
    | singular c' => exact absurd (hfacts'.1.1.symm.trans hfacts) false_ne_true
    | finished =>
      have h1 : s.shared.barrier.generation = 2 * c.val + 1 := hclock
      have h2 : s.shared.barrier.generation = 2 * m := hclock'
      omega
  | singular c =>
    cases e' with
    | cancelled c' => exact absurd (hfacts.1.1.symm.trans hfacts') false_ne_true
    | singular c' =>
      have h1 : s.shared.barrier.generation = 2 * c.val + 1 := hclock
      have h2 : s.shared.barrier.generation = 2 * c'.val + 1 := hclock'
      rw [Fin.ext (by omega : c.val = c'.val)]
    | finished =>
      have h1 : s.shared.barrier.generation = 2 * c.val + 1 := hclock
      have h2 : s.shared.barrier.generation = 2 * m := hclock'
      omega
  | finished =>
    cases e' with
    | cancelled c' | singular c' =>
      have h1 : s.shared.barrier.generation = 2 * m := hclock
      have h2 : s.shared.barrier.generation = 2 * c'.val + 1 := hclock'
      omega
    | finished => rfl

theorem Inv.locks_free (h : Inv a s) :
    (∀ col p, s.pc w = .lockWrite col p → ∀ v, (s.pc v).reads = false ∧ (s.pc v).writes = false) ∧
      ∀ col p, s.pc w = .lockRead col p → ∀ v, (s.pc v).writes = false := by
  have hlocal := h.locals w
  constructor
  · intro col p hpc v
    rw [hpc] at hlocal
    have hlocal' := h.locals v
    have hclock : s.shared.barrier.generation = 2 * col.val + 1 := hlocal.clock
    cases hv : s.pc v with
    | folding c q =>
      rw [hv] at hlocal'
      have hclock' : s.shared.barrier.generation = 2 * c.val + 2 := hlocal'.clock
      omega
    | writing c q =>
      rw [hv] at hlocal'
      have hclock' : s.shared.barrier.generation = 2 * c.val + 1 := hlocal'.clock
      obtain rfl : c = col := Fin.ext (by omega)
      obtain rfl := some.inj (hlocal.facts.1.1.piv.symm.trans hlocal'.facts.1.1.piv)
      obtain rfl : v = w := Fin.ext (hlocal'.facts.1.2.symm.trans hlocal.facts.1.2)
      rw [hpc] at hv
      cases hv
    | _ => exact ⟨rfl, rfl⟩
  · intro col p hpc v
    rw [hpc] at hlocal
    have hlocal' := h.locals v
    have hclock : s.shared.barrier.generation = 2 * col.val + 2 := hlocal.clock
    cases hv : s.pc v with
    | writing c q =>
      rw [hv] at hlocal'
      have hclock' : s.shared.barrier.generation = 2 * c.val + 1 := hlocal'.clock
      omega
    | _ => rfl

/-- A worker that has not left and does not wait for this generation can step. -/
theorem Inv.step_isSome (h : Inv a s) (hleft : ∀ e, s.pc w ≠ .left e)
    (hwaits : (s.pc w).waits ≠ some s.shared.barrier.generation) : (s.step w).isSome := by
  unfold World.step
  cases hpc : s.pc w with
  | scan col =>
    rw [turn]
    split
    · rfl
    · rfl
  | waiting col l | waitingAgain col p l =>
    rw [hpc] at hwaits
    rw [turn, if_neg fun heq => hwaits (congrArg some heq.symm)]
    rfl
  | readPivot col =>
    rw [turn]
    split
    · rfl
    · rfl
  | lockWrite col p =>
    have hfree := h.locks_free.1 col p hpc
    have hreads : decide (∃ v, (s.pc v).reads = true) = false :=
      decide_eq_false fun ⟨v, hv⟩ => false_ne_true ((hfree v).1.symm.trans hv)
    have hwrites : decide (∃ v, (s.pc v).writes = true) = false :=
      decide_eq_false fun ⟨v, hv⟩ => false_ne_true ((hfree v).2.symm.trans hv)
    rw [turn, hreads, hwrites]
    rfl
  | lockRead col p =>
    have hfree := h.locks_free.2 col p hpc
    have hwrites : decide (∃ v, (s.pc v).writes = true) = false :=
      decide_eq_false fun ⟨v, hv⟩ => false_ne_true ((hfree v).symm.trans hv)
    rw [turn, hwrites]
    rfl
  | left e => exact absurd hpc (hleft e)
  | _ => rfl

/-- As long as somebody has not left, somebody can step. -/
theorem Inv.progress (h : Inv a s) (hw : ∀ e, s.pc w ≠ .left e) : ∃ v, (s.step v).isSome := by
  by_cases hwaits : (s.pc w).waits = some s.shared.barrier.generation
  · -- somebody else has not arrived, and cannot have left either
    obtain ⟨v, hv⟩ := h.counts.missing
    refine ⟨v, h.step_isSome (fun e he => ?_) hv⟩
    have hlocal := h.locals v
    rw [he] at hlocal
    rcases Nat.mod_two_eq_zero_or_one s.shared.barrier.generation with heven | hodd
    · cases e with
      | cancelled c | singular c =>
        have hclock : s.shared.barrier.generation = 2 * c.val + 1 := hlocal.clock
        omega
      | finished =>
        have hclock : s.shared.barrier.generation = 2 * m := hlocal.clock
        have hplace := h.locals w
        cases hpc : s.pc w with
        | waiting c l | waitingAgain c q l =>
          rw [hpc] at hplace hwaits
          obtain ⟨hl, -⟩ := hplace.clock
          have hgen := some.inj hwaits
          omega
        | _ =>
          rw [hpc] at hwaits
          cases hwaits
    · cases e with
      | cancelled c =>
        obtain ⟨q, -, hgoing, -⟩ := h.waits_odd hlocal.clock hwaits
        exact false_ne_true (hgoing.cancelled.symm.trans hlocal.facts)
      | singular c =>
        obtain ⟨q, -, hgoing, -⟩ := h.waits_odd hlocal.clock hwaits
        exact some_ne_none q (hgoing.piv.symm.trans hlocal.facts.1.2)
      | finished =>
        have hclock : s.shared.barrier.generation = 2 * m := hlocal.clock
        omega
  · exact ⟨w, h.step_isSome hw hwaits⟩

/-! ## Every run ends -/

/-- How far a worker has come. -/
def Pc.rank : Pc m → Nat
  | .check col => 16 * col.val
  | .latch col => 16 * col.val + 1
  | .scan col => 16 * col.val + 2
  | .arrive col => 16 * col.val + 3
  | .waiting col _ => 16 * col.val + 4
  | .readCancelled col => 16 * col.val + 5
  | .readPivot col => 16 * col.val + 6
  | .storeSingular col | .publish col _ => 16 * col.val + 7
  | .lockWrite col _ => 16 * col.val + 8
  | .writing col _ => 16 * col.val + 9
  | .arriveAgain col _ => 16 * col.val + 10
  | .waitingAgain col _ _ => 16 * col.val + 11
  | .lockRead col _ => 16 * col.val + 12
  | .folding col _ => 16 * col.val + 13
  | .left _ => 16 * m

theorem rank_nextColumn {c : Nat} (h : c ≤ m) : (nextColumn m c).rank = 16 * c := by
  unfold nextColumn
  split
  case isTrue => rfl
  case isFalse hge =>
    have hm : c = m := by omega
    rw [hm]
    rfl

theorem Pc.rank_le (pc : Pc m) : pc.rank ≤ 16 * m := by
  cases pc with
  | left e => exact le_refl _
  | check c | latch c | scan c | arrive c | waiting c | readCancelled c | readPivot c | storeSingular c =>
    simp only [Pc.rank]
    omega
  | publish c | lockWrite c | writing c | arriveAgain c | waitingAgain c | lockRead c | folding c =>
    simp only [Pc.rank]
    omega

theorem turn_rank_lt {reading writing : Bool} {sh : Shared m} {pc : Pc m} {x : Shared m × Pc m}
    (h : turn w reading writing sh pc = some x) : pc.rank < x.2.rank := by
  cases pc with
  | check c | arrive c | readCancelled c | arriveAgain c p =>
    obtain rfl := some.inj h
    split
    · simp only [Pc.rank]
      omega
    · simp only [Pc.rank]
      omega
  | latch c | storeSingular c | publish c p | writing c p =>
    obtain rfl := some.inj h
    simp only [Pc.rank]
    omega
  | scan c =>
    rw [turn] at h
    split at h
    · obtain rfl := some.inj h
      exact Nat.lt_succ_self _
    · obtain rfl := some.inj h
      exact Nat.lt_succ_self _
  | waiting c l | lockWrite c p | waitingAgain c p l | lockRead c p =>
    rw [turn] at h
    split at h
    · cases h
    · obtain rfl := some.inj h
      exact Nat.lt_succ_self _
  | readPivot c =>
    rw [turn] at h
    split at h
    · obtain rfl := some.inj h
      exact Nat.lt_succ_self _
    · obtain rfl := some.inj h
      split
      · exact Nat.lt_succ_self _
      · simp only [Pc.rank]
        omega
  | folding c p =>
    obtain rfl := some.inj h
    rw [rank_nextColumn c.isLt, Pc.rank]
    omega
  | left e => cases h

theorem Run.le_rank {n : Nat} (h : Run a n s) : n ≤ ∑ v, (s.pc v).rank := by
  induction h with
  | start => exact Nat.zero_le _
  | @step n s s' w _ hstep ih =>
    obtain ⟨x, hx, rfl⟩ := map_eq_some_iff.mp hstep
    have hlt := turn_rank_lt hx
    refine Nat.succ_le_of_lt (ih.trans_lt (Finset.sum_lt_sum (fun v _ => ?_) ⟨w, Finset.mem_univ w, ?_⟩))
    · dsimp only
      by_cases hv : v = w
      · rw [hv, update_self]
        exact hlt.le
      · rw [update_of_ne hv]
    · dsimp only
      rwa [update_self]
  | cancel _ ih => exact ih

theorem Run.length_le {n : Nat} (h : Run a n s) : n ≤ threads * (16 * m) := by
  refine h.le_rank.trans ((Finset.sum_le_card_nsmul Finset.univ _ (16 * m) fun v _ => Pc.rank_le _).trans ?_)
  rw [Finset.card_univ, Fintype.card_fin, smul_eq_mul]

/-! ## The result -/

/-- Once everybody has left, the result is the serial one, unless the latch is up. -/
theorem Inv.result (hthreads : 0 < threads) (h : Inv a s) (hall : ∀ v, ∃ e, s.pc v = .left e) :
    s.shared.cancelled = true ∧ s.shared.result = some (.error .cancelled) ∨
      s.shared.cancelled = false ∧ s.shared.result = some (invertSerial a) := by
  obtain ⟨e, he⟩ := hall ⟨0, hthreads⟩
  have hlocal := h.locals ⟨0, hthreads⟩
  rw [he] at hlocal
  obtain ⟨hclock, hfacts⟩ := hlocal
  cases e with
  | cancelled c =>
    have hc : s.shared.cancelled = true := hfacts
    refine .inl ⟨hc, ?_⟩
    rw [Shared.result, if_pos hc]
  | singular c =>
    obtain ⟨⟨hc, hnone⟩, hs⟩ := hfacts
    have hgen : s.shared.barrier.generation = 2 * c.val + 1 := hclock
    have hdata := h.data_odd hthreads (by omega)
    have hhalf : c.val = s.shared.barrier.generation / 2 := by omega
    obtain ⟨v, hv, hzero⟩ := hdata.reduced.singular hdata.reached (if_neg (by omega))
      (hdata.stuck (by omega) c hhalf hnone)
    refine .inr ⟨hc, ?_⟩
    rw [Shared.result, if_neg (by simp [hc]), if_pos hs]
    rcases invertSerial_spec a with ⟨X, -, hX⟩ | ⟨herr, -⟩
    · exact absurd (Tableau.mulVec_injective hX hzero) hv
    · rw [herr]
  | finished =>
    have hgen : s.shared.barrier.generation = 2 * m := hclock
    have hc := eq_false_of_not_eq_true fun hc => by
      have := h.flags.cancelled hc
      omega
    have hs := eq_false_of_not_eq_true fun hs => by
      have := (h.flags.singular hs).1
      omega
    obtain ⟨V, hV, hdata⟩ := h.data
    have hhalf : s.shared.barrier.generation / 2 = m := by omega
    have hsome : ∀ c, (s.shared.piv c).isSome := fun c =>
      isSome_iff_ne_none.mpr (hdata.behind c (by rw [hhalf]; exact c.isLt))
    have hinv : ∀ r, V.inv r = s.shared.rows.inv r := fun r => by
      obtain ⟨v, hv⟩ := owner hthreads r
      have hagree := hV v r hv
      obtain ⟨e, he⟩ := hall v
      rw [he] at hagree
      exact hagree.2
    have hleft := hdata.reduced.left_inverse hdata.reached (p := fun c => (s.shared.piv c).get (hsome c))
      fun c => by rw [settled, if_pos (by rw [hhalf]; exact c.isLt), some_get]
    refine .inr ⟨hc, ?_⟩
    rw [Shared.result, if_neg (by simp [hc]), if_neg (by simp [hs]), dif_pos hsome]
    rcases invertSerial_spec a with ⟨X, hok, hX⟩ | ⟨-, v, hv, hzero⟩
    · rw [hok]
      have heq := Tableau.left_inverse_unique hleft hX
      refine congrArg (fun Y => some (Except.ok Y)) (funext fun c => ?_)
      rw [← hinv]
      exact congrFun heq c
    · exact absurd (Tableau.mulVec_injective hleft hzero) hv

/-- The fanned-out inverse, over every interleaving and every moment of a cancel: runs are bounded,
somebody can step until all have left, all leave in one place, and the result is the serial one
unless a cancel was seen. -/
theorem invert_parallel_refines (hthreads : 2 ≤ threads) (hle : threads ≤ m) {n : Nat}
    (hrun : Run a n s) :
    n ≤ threads * (16 * m) ∧
      (∀ w v e e', s.pc w = .left e → s.pc v = .left e' → e = e') ∧
      ((∃ w, ∀ e, s.pc w ≠ .left e) → ∃ v, (s.step v).isSome) ∧
      ((∀ v, ∃ e, s.pc v = .left e) →
        (s.shared.control = false → s.shared.result = some (invertSerial a)) ∧
        (s.shared.result = some (invertSerial a) ∨
          s.shared.control = true ∧ s.shared.result = some (.error .cancelled))) := by
  have hpos : 0 < threads := by omega
  have hinv := hrun.inv hpos hle
  refine ⟨hrun.length_le, fun w v e e' => hinv.exits_agree, fun ⟨w, hw⟩ => hinv.progress hw,
    fun hall => ?_⟩
  rcases hinv.result hpos hall with ⟨hc, hresult⟩ | ⟨-, hresult⟩
  · have hcontrol := hinv.flags.control hc
    exact ⟨fun h => absurd (h.symm.trans hcontrol) false_ne_true, .inr ⟨hcontrol, hresult⟩⟩
  · exact ⟨fun _ => hresult, .inl hresult⟩

def World.schedule (s : World m threads) (ws : List (Fin threads)) : Option (World m threads) :=
  ws.foldlM World.step s

theorem Run.schedule {ws : List (Fin threads)} : ∀ {n : Nat} {s s' : World m threads}, Run a n s →
    s.schedule ws = some s' → Run a (n + ws.length) s' := by
  induction ws with
  | nil =>
    intro n s s' h hs
    cases hs
    exact h
  | cons w ws ih =>
    intro n s s' h hs
    rw [World.schedule, List.foldlM_cons, bind_eq_bind, bind_eq_some_iff] at hs
    obtain ⟨t, ht, hs⟩ := hs
    rw [List.length_cons, add_comm ws.length, ← add_assoc]
    exact ih (.step w h ht) hs

/-- Two workers on two zero rows: both leave on the first column. -/
theorem invert_parallel_two : ∃ s : World 2 2, Run (fun _ _ => 0) 13 s ∧
    s.pc 0 = .left (.singular 0) ∧ s.pc 1 = .left (.singular 0) ∧
      s.shared.result = some (invertSerial fun _ _ => 0) := by
  have hsome : ((World.start (m := 2) (fun _ _ => 0)).schedule
      [0, 0, 0, 1, 1, 1, 0, 0, 0, 0, 1, 1, (1 : Fin 2)]).any (fun s =>
        s.pc 0 = .left (.singular 0) ∧ s.pc 1 = .left (.singular 0) ∧ s.shared.control = false) = true := by
    decide
  cases hs : (World.start (m := 2) (fun _ _ => 0)).schedule
      [0, 0, 0, 1, 1, 1, 0, 0, 0, 0, 1, 1, (1 : Fin 2)] with
  | none =>
    rw [hs] at hsome
    cases hsome
  | some s =>
    rw [hs] at hsome
    obtain ⟨h0, h1, hcontrol⟩ := of_decide_eq_true hsome
    have hrun : Run _ 13 s := Run.start.schedule hs
    have hleft : ∀ v, ∃ e, s.pc v = .left e := Fin.forall_fin_two.mpr ⟨⟨_, h0⟩, ⟨_, h1⟩⟩
    exact ⟨s, hrun, h0, h1,
      ((invert_parallel_refines (by decide) (by decide) hrun).2.2.2 hleft).1 hcontrol⟩

end NzbFast.Repair
