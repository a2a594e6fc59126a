import NzbFast.Live.Watermark

/-!
# The chase gate over whole runs

`Step.Clean` is what a step asks of the state it is taken in, so that the gate
stays sound: nothing is bound over a mark that is up, no grid is reset under
one, and a forced read-back takes back no Ok the gate was told of. Over clean
steps `GateSound` holds in every state of every interleaving; `forceReadback`
after a publish is a run where it does not.
-/

namespace NzbFast.Live

open NzbFast.Par2 LiveVerifier

def Consulted (s : SlotState) (r : Option (Option Nomination)) (m : Option Nomination)
    (n : Nomination) : Prop :=
  (s.file = none ∧ m = some n) ∨
  (s.file ≠ none ∧ s.confirmed = false ∧ (r = some (some n) ∨ (r ≠ none ∧ m = some n)))

/-- The step neither binds the slot nor resets its grid over what the gate already published. -/
def Step.Clean (d : Digests) (w : World) : Step → Prop
  | .claim slot _ r m => ∀ n, Consulted (w.v.slots slot) r m n → Unraised w.v slot n
  | .forceReadback slot => (w.v.slots slot).blocks = [] ∨
      ∀ mark b, w.v.cell slot = some (mark, b) → mark.getD 0 = 0
  | .finish slot src l =>
      let s := w.v.slots slot
      -- an Ok among the blocks of a forced read-back reads back Ok
      (s.confirmed = false → s.headNominated = true → ∀ f bs, w.v.bound slot = some (f, bs) →
        ∀ bi ∈ s.readbackForced, s.blocks[bi]? = some .ok →
          LiveVerifier.readVerdict d f bs src bi = .ok) ∧
      -- and a slot that is matched again has no mark up
      (s.file = none ∨ (s.confirmed = false ∧ l.settled = false) → l.refused = false →
        ∀ a n, w.v.plan = .active a → l.first = some n ∨ l.late = some n ∨ l.again = some n →
          Unraised (w.v.forcedReadback d slot a src) slot n)
  | _ => True

section Steps

variable {v : LiveVerifier} {slot : Nat} {d : Digests}

/-- A slot a re-judgement left unbound was unbound, or lost its binding over the same cells. -/
theorem unraised_rejudge {a : Active} {r : Option (Option Nomination)} {m : Option Nomination}
    {n : Nomination} (hu : ∀ n, Consulted (v.slots slot) r m n → Unraised v slot n)
    (hm : m = some n) (hf : ((v.rejudgeBinding slot a r).slots slot).file = none) :
    Unraised (v.rejudgeBinding slot a r) slot n := by
  unfold rejudgeBinding at hf ⊢
  dsimp only at hf ⊢
  split at hf
  case isTrue hc =>
    rw [if_pos hc]
    exact hu n (Or.inl ⟨hf, hm⟩)
  case isFalse hc =>
    rw [if_neg hc]
    rw [not_or, Bool.not_eq_true] at hc
    cases r with
    | none => exact absurd hf hc.1
    | some m' =>
      dsimp only at hf ⊢
      cases ht : (v.forgetBinding slot).tryMatch slot a m' with
      | none =>
        exact (hu n (Or.inr ⟨hc.1, hc.2, Or.inr ⟨Option.some_ne_none _, hm⟩⟩)).forgetBinding
      | some v' =>
        obtain ⟨n', f, -, -, rfl⟩ := tryMatch_eq ht
        rw [ht, Option.getD_some, slots_put_self] at hf
        cases hf

theorem GateAt.onDataClaim {f : Feed} {r : Option (Option Nomination)} {m : Option Nomination}
    (h : GateAt v slot) (hu : ∀ n, Consulted (v.slots slot) r m n → Unraised v slot n) :
    GateAt (v.onDataClaim slot f r m).1 slot := by
  unfold LiveVerifier.onDataClaim
  cases hp : v.plan with
  | off => exact h
  | waiting => exact h.put rfl rfl rfl rfl
  | active a =>
    dsimp only
    have h1 : GateAt (v.rejudgeBinding slot a r) slot :=
      h.rejudgeBinding hp fun hf hc n hn => hu n (Or.inr ⟨hf, hc, Or.inl hn⟩)
    have hm : Moved a slot v (v.rejudgeBinding slot a r) := moved_rejudgeBinding
    split
    case isTrue hf =>
      cases ht : (v.rejudgeBinding slot a r).tryMatch slot a m with
      | none => exact h1
      | some v' =>
        refine GateAt.claimSpan (GateAt.engageGate (h1.tryMatch (hm.frame.plan.trans hp) hf ?_ ht))
        exact fun n hn => unraised_rejudge hu hn hf
    case isFalse => exact h1.claimSpan

/-- The slot between settling and the blocks: the last-chance matches run where it had no binding,
or just lost a denied one. -/
theorem GateAt.rematched {a : Active} {l : Ladder} {headBound : Bool} (h : GateAt v slot)
    (hp : v.plan = .active a)
    (hu : (v.slots slot).file = none ∨ ((v.slots slot).confirmed = false ∧ l.settled = false) →
      l.refused = false →
      ∀ n, l.first = some n ∨ l.late = some n ∨ l.again = some n → Unraised v slot n) :
    let kept := (v.settleBinding slot l.settled).2
    let dropped := (v.slots slot).file.isSome && !kept
    let v' := if dropped then (v.settleBinding slot l.settled).1.forgetBinding slot
      else (v.settleBinding slot l.settled).1
    let v'' := if (v'.slots slot).file = none ∧ ¬ l.refused then
      v'.lastChance slot a l (!(dropped && headBound)) else v'
    GateAt v'' slot ∧ v''.plan = .active a := by
  have hlast : ∀ v' : LiveVerifier, v'.plan = .active a → GateAt v' slot →
      ((v'.slots slot).file = none → l.refused = false →
        ∀ n, l.first = some n ∨ l.late = some n ∨ l.again = some n → Unraised v' slot n) →
      ∀ mayRematch, GateAt (if (v'.slots slot).file = none ∧ ¬ l.refused then
          v'.lastChance slot a l mayRematch else v') slot ∧
        (if (v'.slots slot).file = none ∧ ¬ l.refused then
          v'.lastChance slot a l mayRematch else v').plan = .active a := by
    intro v' hp' h' hu' mayRematch
    split
    case isTrue hr =>
      exact ⟨h'.lastChance hp' hr.1 (hu' hr.1 (by simpa using hr.2)),
        (moved_lastChance hr.1).frame.plan.trans hp'⟩
    case isFalse => exact ⟨h', hp'⟩
  rcases settleBinding_cases v slot l.settled with ⟨hf, he⟩ | ⟨hf, hf', hk⟩ | ⟨hf, hc, hs, he⟩
  · simp only [he, hf, Option.isSome_none, Bool.false_and, Bool.false_eq_true, if_false]
    have := hlast v hp h (fun hf => hu (Or.inl hf)) true
    simpa only [hf, Bool.not_false] using this
  · have hm : Moved a slot v (v.settleBinding slot l.settled).1 := moved_settleBinding
    simp only [hk, Bool.not_true, Bool.and_false, Bool.false_eq_true, if_false]
    exact hlast _ (hm.frame.plan.trans hp) h.settleBinding (fun hn => absurd hn hf') _
  · have hsome : (v.slots slot).file.isSome = true := Option.isSome_iff_ne_none.mpr hf
    simp only [he, hsome, Bool.not_false, Bool.and_self, if_true]
    exact hlast (v.forgetBinding slot) (plan_onVouch.trans hp) h.forgetBinding
      (fun _ hr n hn => (hu (Or.inr ⟨hc, hs⟩) hr n hn).forgetBinding) _

theorem GateAt.finishSlot {src : ReadAt} {l : Ladder} {w : World} (h : GateAt w.v slot)
    (hc : (Step.finish slot src l).Clean d w) : GateAt (w.v.finishSlot d slot src l) slot := by
  obtain ⟨hkeep, hmatch⟩ := hc
  unfold LiveVerifier.finishSlot
  cases hp : w.v.plan with
  | off => exact h
  | waiting => exact h
  | active a =>
    have h1 := h.forcedReadback hp hkeep
    have hm : Moved a slot w.v (w.v.forcedReadback d slot a src) := moved_forcedReadback
    obtain ⟨hfile, hconf⟩ := binding_forcedReadback w.v slot a d src
    have hmatch' := fun hf hr n => hmatch hf hr a n hp
    rw [← hfile, ← hconf] at hmatch'
    dsimp only
    rw [← hfile]
    obtain ⟨h2, hp2⟩ := h1.rematched (hm.frame.plan.trans hp) hmatch'
    exact h2.finishBound hp2

/-! ## Runs -/

/-- A second set going live renumbers nothing. -/
theorem GateAt.activate (h : GateAt v slot) (sets : List ParsedSet) :
    GateAt (v.activate sets) slot := by
  have hdesc : ∀ f bs, (v.activate sets).plan.desc (v.slots slot).file = some (f, bs) →
      v.plan.desc (v.slots slot).file = some (f, bs) := by
    intro f bs hd
    have hf : (v.slots slot).file ≠ none := by
      intro hf
      rw [hf, Plan.desc_none] at hd
      cases hd
    obtain ⟨f', bs', hd', -⟩ := h.desc hf
    rw [hd', ← Plan.desc_activate hd']
    exact hd
  refine ⟨h.unbound, fun hf => ?_, h.oks, fun f bs m b hd => h.mark f bs m b (hdesc f bs hd), h.idle,
    fun hv f bs mark b hd => h.spans hv f bs mark b (hdesc f bs hd),
    fun hv f bs mark b hd => h.armed hv f bs mark b (hdesc f bs hd)⟩
  obtain ⟨f, bs, hd, hl⟩ := h.desc hf
  exact ⟨f, bs, Plan.desc_activate hd, hl⟩

/-- A framed operation leaves the other slots' cells alone. -/
theorem GateAt.frame {v' : LiveVerifier} {i : Nat} (hfr : Frame slot v v') (hi : i ≠ slot)
    (h : GateAt v i) : GateAt v' i := by
  unfold GateAt
  rw [hfr.plan, hfr.others i hi, hfr.cells i hi]
  exact h

/-- An operation framed on one slot, with what it does to that slot. -/
theorem gateAt_all {v' : LiveVerifier} (hfr : Frame slot v v') (h : ∀ i, GateAt v i)
    (hs : GateAt v' slot) (i : Nat) : GateAt v' i := by
  by_cases hi : i = slot
  · subst hi; exact hs
  · exact GateAt.frame hfr hi (h i)

theorem gateAt_step {O : Origin} {w : World} {x : Step} (hw : O.Inv w) (h : ∀ i, GateAt w.v i)
    (hc : x.Clean O.d w) (i : Nat) : GateAt (w.step O.d x).v i := by
  cases x with
  | claim slot f r m => exact gateAt_all frame_onDataClaim h ((h slot).onDataClaim hc) i
  | record k =>
    cases hj : w.jobs[k]? with
    | none => rw [World.step_record_none hj]; exact h i
    | some j =>
      have hmem := List.mem_of_getElem? hj
      rw [World.step_record hj]
      refine gateAt_all (hw.record hmem).2 h ?_ i
      by_cases hgen : (w.v.slots j.slot).bindGen = j.bindGen
      · exact (h j.slot).onDataRecord (hw.work j hmem) (hw.good hmem hgen) hw.noReuse
      · rw [onDataRecord_stale hgen]; exact h j.slot
  | promote slot won =>
    exact gateAt_all frame_promoteBinding h (h slot).promoteBinding i
  | forceReadback slot =>
    exact gateAt_all (moved_forceReadback (a := ⟨[]⟩)).frame h ((h slot).forceReadback hc) i
  | seedPreSpans slot spans =>
    exact gateAt_all (moved_seedPreSpans (a := ⟨[]⟩)).frame h
      ((h slot).put rfl rfl rfl rfl) i
  | takePreSpans slot =>
    exact gateAt_all (moved_takePreSpans (a := ⟨[]⟩)).frame h
      ((h slot).put rfl rfl rfl rfl) i
  | activate sets => exact (h i).activate sets
  | finish slot src l =>
    refine gateAt_all ?_ h ((h slot).finishSlot hc) i
    by_cases hp : ∃ a, w.v.plan = .active a
    · obtain ⟨a, hp⟩ := hp
      exact (moved_finishSlot hp).frame
    · rw [show w.v.finishSlot O.d slot src l = w.v from
        finishSlot_idle fun a ha => hp ⟨a, ha⟩]
      exact .refl slot w.v

end Steps

def CleanRun (d : Digests) : World → List Step → Prop
  | _, [] => True
  | w, x :: tr => x.Clean d w ∧ CleanRun d (w.step d x) tr

theorem cleanRun_snoc {d : Digests} {w : World} {tr : List Step} {x : Step} :
    CleanRun d w (tr ++ [x]) ↔ CleanRun d w tr ∧ x.Clean d (w.run d tr) := by
  induction tr generalizing w with
  | nil => simp [CleanRun, World.run]
  | cons y tr ih =>
    rw [List.cons_append, CleanRun, ih, CleanRun, and_assoc]
    rfl

theorem CleanRun.before {d : Digests} {w : World} {before tr : List Step} (h : CleanRun d w tr)
    (hpre : before <+: tr) : CleanRun d w before := by
  induction tr using List.reverseRecOn with
  | nil => rw [List.prefix_nil.mp hpre]; trivial
  | append_singleton tr x ih =>
    rcases prefix_snoc hpre with hpre | rfl
    · exact ih (cleanRun_snoc.mp h).1 hpre
    · exact h

section Start

variable (d : Digests) (fast lean noReuse gated : Bool) (cap : Nat)

theorem gateAt_run (tr : List Step)
    (h : CleanRun d (World.start fast lean noReuse gated cap) tr) (slot : Nat) :
    GateAt ((World.start fast lean noReuse gated cap).run d tr).v slot := by
  induction tr using List.reverseRecOn generalizing slot with
  | nil =>
    refine ⟨fun _ => ⟨rfl, rfl, rfl⟩, fun hf => absurd rfl hf, fun i hi => absurd hi (Nat.not_lt_zero i),
      fun f bs m b hd => (nomatch hd), fun _ mark b hc => ?_, fun _ f bs mark b hd => (nomatch hd),
      fun hv => (nomatch hv)⟩
    cases gated with
    | false => cases hc
    | true => cases hc
  | append_singleton tr x ih =>
    obtain ⟨htr, hx⟩ := cleanRun_snoc.mp h
    rw [World.run_snoc]
    exact gateAt_step (inv_run d fast lean noReuse gated cap tr) (ih htr) hx slot

/-- Along every clean interleaving, every engaged slot with a binding keeps a finite mark within its
Ok prefix, and no reader is handed a byte of a block that is not Ok. -/
theorem gate_sound_of_clean_run (tr : List Step)
    (h : CleanRun d (World.start fast lean noReuse gated cap) tr) :
    ∀ before, before <+: tr → ∀ slot,
      GateSound ((World.start fast lean noReuse gated cap).run d before).v slot :=
  fun before hpre slot =>
    (gateAt_run d fast lean noReuse gated cap before (h.before hpre) slot).sound

end Start

/-! ## A volume of two blocks -/

/-- The checks of the blocks `abcd` and `efgh`. -/
def twoBlockChecks : BlockCheck × BlockCheck :=
  (⟨[226, 252, 113, 76, 71, 39, 238, 147, 149, 243, 36, 205, 46, 127, 51, 31], 0xED82CD11⟩,
   ⟨[31, 118, 144, 235, 221, 155, 76, 175, 143, 171, 73, 202, 23, 87, 191, 39], 0x8337BB5⟩)

def twoBlockDigests : Digests where
  crc32 b := if b = [97, 98, 99, 100] then twoBlockChecks.1.crc32 else twoBlockChecks.2.crc32
  combine _ _ _ := 0
  zeros c _ := c
  unzero c _ := c
  md5 b := if b = [97, 98, 99, 100] then twoBlockChecks.1.md5 else twoBlockChecks.2.md5

def twoBlockFile : Par2File where
  fileId := []
  name := "volume.rar"
  length := 8
  md5 := []
  md5_16k := []
  blocks := [twoBlockChecks.1, twoBlockChecks.2]

def twoBlockSet : ParsedSet where
  set := ⟨[], 4, [twoBlockFile], [], none, 0⟩
  fits := by
    intro f hf
    rw [List.mem_singleton.mp hf]
    exact Or.inr ⟨by decide, rfl⟩

def firstArticle : List Step :=
  [.activate [twoBlockSet],
   .claim 0 ⟨.fresh, 0, [97, 98, 99, 100], none⟩ none (some ⟨0, true, false⟩),
   .record 0]

theorem gate_sound_of_clean_run_first :
    CleanRun twoBlockDigests (World.start false false false true 0) firstArticle ∧
    ∀ before, before <+: firstArticle → ∀ slot,
      GateSound ((World.start false false false true 0).run twoBlockDigests before).v slot := by
  have hclean : CleanRun twoBlockDigests (World.start false false false true 0) firstArticle := by
    refine ⟨trivial, fun n _ mark b hc => ?_, trivial, trivial⟩
    cases hc
    exact ⟨rfl, fun _ _ _ _ hb => nomatch hb⟩
  exact ⟨hclean, gate_sound_of_clean_run twoBlockDigests false false false true 0 firstArticle hclean⟩

/-- A slot whose writer saw an overlapping write is reset for read-back under a mark that stays up. -/
theorem gate_unsound_after_forced_readback :
    ¬ GateSound ((World.start false false false true 0).run twoBlockDigests
      (firstArticle ++ [.forceReadback 0])).v 0 := by
  intro h
  have hle := (h _ twoBlockFile 4 4 rfl rfl rfl).1 (by decide)
  revert hle
  decide

end NzbFast.Live
