import NzbFast.Live.Verifier

/-!
# What the verifier's operations do to a slot

`Frame slot v v'`: the operation touched slot `slot` only, and no setting.
`Moves a s s'`: in the binding's terms the slot went through keeps, drops and
matches. A `keep` leaves descriptor, generation and grid size and adds no
partial. Every locked region but the claim loop and the record phase is a
framed chain of moves, so what holds of the three moves holds of all of them.
-/

namespace NzbFast.Live

open NzbFast.Par2 Fold VerifyGate

/-- The marks against a slot's pre-activation spans are never taken back. -/
structure PreLe (s s' : SlotState) : Prop where
  unvouched : s.preUnvouched ≤ s'.preUnvouched
  seeded : s.resumeSeeded ≤ s'.resumeSeeded

theorem PreLe.refl (s : SlotState) : PreLe s s := ⟨le_refl _, le_refl _⟩

variable {s s' : SlotState} {slot : Nat} {v v' : LiveVerifier} {a : Active}

theorem PreLe.same (h : s.preUnvouched = s'.preUnvouched) (h' : s.resumeSeeded = s'.resumeSeeded) :
    PreLe s s' := ⟨le_of_eq h, le_of_eq h'⟩

theorem PreLe.trans {s'' : SlotState} (h : PreLe s s') (h' : PreLe s' s'') : PreLe s s'' :=
  ⟨h.unvouched.trans h'.unvouched, h.seeded.trans h'.seeded⟩

def LiveVerifier.cell (v : LiveVerifier) (slot : Nat) : Option (Option Nat × Option VouchBits) :=
  v.gate.map fun g => (g.marks slot, g.vouch slot)

/-- Only `slot` changed; plan and settings did not. -/
structure Frame (slot : Nat) (v v' : LiveVerifier) : Prop where
  plan : v'.plan = v.plan
  fast : v'.fast = v.fast
  lean : v'.lean = v.lean
  noReuse : v'.noReuse = v.noReuse
  others : ∀ i, i ≠ slot → v'.slots i = v.slots i
  cells : ∀ i, i ≠ slot → v'.cell i = v.cell i
  pre : PreLe (v.slots slot) (v'.slots slot)

theorem Frame.refl (slot : Nat) (v : LiveVerifier) : Frame slot v v :=
  ⟨rfl, rfl, rfl, rfl, fun _ _ => rfl, fun _ _ => rfl, .refl _⟩

theorem Frame.trans {v'' : LiveVerifier} (h : Frame slot v v') (h' : Frame slot v' v'') :
    Frame slot v v'' :=
  ⟨h'.plan.trans h.plan, h'.fast.trans h.fast, h'.lean.trans h.lean, h'.noReuse.trans h.noReuse,
    fun i hi => (h'.others i hi).trans (h.others i hi),
    fun i hi => (h'.cells i hi).trans (h.cells i hi), h.pre.trans h'.pre⟩

theorem Frame.preLe (h : Frame slot v v') (i : Nat) : PreLe (v.slots i) (v'.slots i) := by
  by_cases hi : i = slot
  · subst hi; exact h.pre
  · rw [h.others i hi]; exact .refl _

/-- One move of a slot's binding. -/
inductive Move (a : Active) : SlotState → SlotState → Prop
  | keep {s s' : SlotState} : s'.file = s.file → s'.bindGen = s.bindGen →
      s'.blocks.length = s.blocks.length →
      (∀ bi p, s'.partials.lookup bi = some p → s.partials.lookup bi = some p) → Move a s s'
  | drop (s : SlotState) : Move a s s.unbind
  | bind {s : SlotState} {n : Nomination} {f : Par2File × Nat} : s.file = none →
      a.files[n.file]? = some f → Move a s (s.bind n f.1)

abbrev Moves (a : Active) : SlotState → SlotState → Prop := Relation.ReflTransGen (Move a)

theorem Moves.keep (h1 : s'.file = s.file) (h2 : s'.bindGen = s.bindGen)
    (h3 : s'.blocks.length = s.blocks.length) (h4 : s'.partials = s.partials) : Moves a s s' :=
  .single (.keep h1 h2 h3 fun _ _ h => by rwa [h4] at h)

/-- A framed chain of moves. -/
structure Moved (a : Active) (slot : Nat) (v v' : LiveVerifier) : Prop where
  frame : Frame slot v v'
  moves : Moves a (v.slots slot) (v'.slots slot)

theorem Moved.refl (a : Active) (slot : Nat) (v : LiveVerifier) : Moved a slot v v :=
  ⟨.refl slot v, .refl⟩

theorem Moved.trans {v'' : LiveVerifier} (h : Moved a slot v v') (h' : Moved a slot v' v'') :
    Moved a slot v v'' :=
  ⟨h.frame.trans h'.frame, h.moves.trans h'.moves⟩

theorem Moved.ite {v₁ v₂ : LiveVerifier} {c : Prop} [Decidable c] (h₁ : c → Moved a slot v v₁)
    (h₂ : ¬ c → Moved a slot v v₂) : Moved a slot v (if c then v₁ else v₂) := by
  split
  · exact h₁ ‹_›
  · exact h₂ ‹_›

namespace LiveVerifier

variable {v : LiveVerifier} {slot : Nat} {s : SlotState} {a : Active}

@[simp] theorem slots_put_self : (v.put slot s).slots slot = s := by simp [put]

theorem slots_put_ne {i : Nat} (h : i ≠ slot) : (v.put slot s).slots i = v.slots i := by
  simp [put, h]

@[simp] theorem gate_put : (v.put slot s).gate = v.gate := rfl

@[simp] theorem plan_put : (v.put slot s).plan = v.plan := rfl

theorem frame_put (h : PreLe (v.slots slot) s) : Frame slot v (v.put slot s) :=
  ⟨rfl, rfl, rfl, rfl, fun _ h => slots_put_ne h, fun _ _ => rfl, by rwa [slots_put_self]⟩

variable {f : VouchBits → VouchBits} {bs : Nat} {m : Option Nomination} {won : Bool}

@[simp] theorem slots_onVouch : (v.onVouch slot f).slots = v.slots := by
  unfold onVouch; split <;> rfl

@[simp] theorem plan_onVouch : (v.onVouch slot f).plan = v.plan := by
  unfold onVouch; split <;> rfl

theorem frame_gate {g : Option VerifyGate}
    (h : ∀ i, i ≠ slot → ({ v with gate := g } : LiveVerifier).cell i = v.cell i) :
    Frame slot v { v with gate := g } :=
  ⟨rfl, rfl, rfl, rfl, fun _ _ => rfl, h, .refl _⟩

theorem frame_mapGate {f : VerifyGate → VerifyGate}
    (h : ∀ g i, i ≠ slot → (f g).marks i = g.marks i ∧ (f g).vouch i = g.vouch i) :
    Frame slot v { v with gate := v.gate.map f } := by
  refine frame_gate fun i hi => ?_
  unfold cell
  cases v.gate with
  | none => rfl
  | some g => simp [h g i hi]

theorem frame_onVouch : Frame slot v (v.onVouch slot f) := by
  unfold onVouch
  split
  · exact frame_mapGate fun g i hi => ⟨rfl, by simp [onBits, hi]⟩
  · exact .refl slot v

/-- The gate after a publish: the bitmap armed and seeded if need be, then the mark advanced. -/
def publishedGate (g : VerifyGate) (slot bs okPrefix : Nat) (s : SlotState) : VerifyGate :=
  (if s.vouch then g
    else (g.armVouch slot s.blocks.length bs).onBits slot
      (·.seed ((List.range s.blocks.length).filter fun i => s.blocks[i]? = some .ok))).advance slot
    (if okPrefix = s.blocks.length then U64_MAX else okPrefix * bs)

def publishedPrefix (s : SlotState) : Nat :=
  s.okPrefix + ((s.blocks.drop s.okPrefix).takeWhile (· = .ok)).length

theorem gatePublish_eq (h : (v.slots slot).file ≠ none) :
    v.gatePublish slot bs =
      match v.gate with
      | none => v.put slot { v.slots slot with okPrefix := publishedPrefix (v.slots slot) }
      | some g =>
        { v.put slot { v.slots slot with
            okPrefix := publishedPrefix (v.slots slot), vouch := true } with
          gate := some (publishedGate g slot bs (publishedPrefix (v.slots slot)) (v.slots slot)) } := by
  unfold gatePublish
  rw [if_neg h]
  rfl

theorem gatePublish_unbound (h : (v.slots slot).file = none) : v.gatePublish slot bs = v := by
  unfold gatePublish
  rw [if_pos h]

theorem publishedGate_ne {g : VerifyGate} {okPrefix i : Nat} (hi : i ≠ slot) :
    (publishedGate g slot bs okPrefix s).marks i = g.marks i ∧
    (publishedGate g slot bs okPrefix s).vouch i = g.vouch i := by
  unfold publishedGate
  rw [advance_marks_ne _ _ hi, advance_vouch]
  split
  · exact ⟨rfl, rfl⟩
  · exact ⟨rfl, by simp [onBits, armVouch, hi]⟩

theorem frame_gatePublish : Frame slot v (v.gatePublish slot bs) := by
  by_cases hf : (v.slots slot).file = none
  · rw [gatePublish_unbound hf]; exact .refl slot v
  rw [gatePublish_eq hf]
  cases hg : v.gate with
  | none => exact frame_put (.same rfl rfl)
  | some g =>
    refine .trans (frame_put (s := { v.slots slot with
      okPrefix := publishedPrefix (v.slots slot), vouch := true }) (.same rfl rfl)) (frame_gate ?_)
    intro i hi
    simp only [cell, gate_put, hg, Option.map_some]
    rw [(publishedGate_ne hi).1, (publishedGate_ne hi).2]

/-- A publish moves the prefix and the handle, nothing else of the slot. -/
theorem slots_gatePublish (v : LiveVerifier) (slot bs : Nat) : ∃ okPrefix vouch,
    (v.gatePublish slot bs).slots slot = { v.slots slot with okPrefix := okPrefix, vouch := vouch } := by
  by_cases hf : (v.slots slot).file = none
  · rw [gatePublish_unbound hf]; exact ⟨_, _, rfl⟩
  rw [gatePublish_eq hf]
  cases v.gate with
  | none => exact ⟨_, _, slots_put_self⟩
  | some g => exact ⟨_, _, slots_put_self⟩

theorem moved_gatePublish : Moved a slot v (v.gatePublish slot bs) := by
  obtain ⟨okPrefix, vouch, h⟩ := v.slots_gatePublish slot bs
  refine ⟨frame_gatePublish, ?_⟩
  rw [h]
  exact .keep rfl rfl rfl rfl

theorem moved_mapGate {f : VerifyGate → VerifyGate}
    (h : ∀ g i, i ≠ slot → (f g).marks i = g.marks i ∧ (f g).vouch i = g.vouch i) :
    Moved a slot v { v with gate := v.gate.map f } :=
  ⟨frame_mapGate h, .refl⟩

theorem moved_advance {bytes : Nat} :
    Moved a slot v { v with gate := v.gate.map (·.advance slot bytes) } :=
  moved_mapGate fun g _ hi => ⟨g.advance_marks_ne _ hi, by rw [advance_vouch]⟩

theorem moved_put (h1 : s.file = (v.slots slot).file) (h2 : s.bindGen = (v.slots slot).bindGen)
    (h3 : s.blocks.length = (v.slots slot).blocks.length)
    (h4 : s.partials = (v.slots slot).partials) (h5 : PreLe (v.slots slot) s) :
    Moved a slot v (v.put slot s) := by
  refine ⟨frame_put h5, ?_⟩
  rw [slots_put_self]
  exact .keep h1 h2 h3 h4

theorem moved_onVouch : Moved a slot v (v.onVouch slot f) :=
  ⟨frame_onVouch, by rw [slots_onVouch]⟩

/-! ## Bindings -/

@[simp] theorem slots_forgetBinding : (v.forgetBinding slot).slots slot = (v.slots slot).unbind :=
  slots_put_self

theorem frame_forgetBinding : Frame slot v (v.forgetBinding slot) := by
  have h : Frame slot v ((v.onVouch slot .clear).put slot (v.slots slot).unbind) :=
    frame_onVouch.trans (frame_put (by rw [slots_onVouch]; exact .same rfl rfl))
  exact ⟨h.plan, h.fast, h.lean, h.noReuse, h.others, h.cells, h.pre⟩

theorem moved_forgetBinding : Moved a slot v (v.forgetBinding slot) :=
  ⟨frame_forgetBinding, by rw [slots_forgetBinding]; exact .single (.drop _)⟩

theorem tryMatch_eq {m : Option Nomination} {v' : LiveVerifier} (h : v.tryMatch slot a m = some v') :
    ∃ n f, m = some n ∧ a.files[n.file]? = some f ∧ v' = v.put slot ((v.slots slot).bind n f.1) := by
  obtain ⟨n, rfl, h⟩ := Option.bind_eq_some_iff.mp h
  obtain ⟨f, hf, rfl⟩ := Option.map_eq_some_iff.mp h
  exact ⟨n, f, rfl, hf, rfl⟩

theorem moved_tryMatch {v' : LiveVerifier} (h : v.tryMatch slot a m = some v')
    (hf : (v.slots slot).file = none) : Moved a slot v v' := by
  obtain ⟨n, f, rfl, hn, rfl⟩ := tryMatch_eq h
  exact ⟨frame_put (.same rfl rfl), by rw [slots_put_self]; exact .single (.bind hf hn)⟩

theorem moved_tryMatch_getD (hf : (v.slots slot).file = none) :
    Moved a slot v ((v.tryMatch slot a m).getD v) := by
  cases h : v.tryMatch slot a m with
  | none => exact .refl a slot v
  | some v' => exact moved_tryMatch h hf

theorem moved_rejudgeBinding {r : Option (Option Nomination)} :
    Moved a slot v (v.rejudgeBinding slot a r) := by
  unfold rejudgeBinding
  dsimp only
  split
  · exact .refl a slot v
  · cases r with
    | none => exact .refl a slot v
    | some m =>
      exact moved_forgetBinding.trans (moved_tryMatch_getD (by rw [slots_forgetBinding]; rfl))

theorem moved_promoteBinding (hp : v.plan = .active a) :
    Moved a slot v (v.promoteBinding slot won) := by
  unfold promoteBinding
  rw [hp]
  refine .ite (fun _ => .refl a slot v) fun _ => .ite (fun _ => ?_) fun _ => moved_forgetBinding
  exact moved_put rfl rfl rfl rfl (.same rfl rfl)

theorem promoteBinding_idle (h : ∀ a, v.plan ≠ .active a) : v.promoteBinding slot won = v := by
  unfold promoteBinding
  split
  case _ a hp => exact absurd hp (h a)
  case _ => rfl

theorem frame_promoteBinding : Frame slot v (v.promoteBinding slot won) := by
  by_cases h : ∃ a, v.plan = .active a
  · obtain ⟨a, h⟩ := h
    exact (moved_promoteBinding h).frame
  · rw [promoteBinding_idle fun a ha => h ⟨a, ha⟩]
    exact .refl slot v

theorem moved_settleBinding {holds : Bool} : Moved a slot v (v.settleBinding slot holds).1 := by
  unfold settleBinding
  dsimp only
  split
  · exact .refl a slot v
  split
  · exact .refl a slot v
  split
  · exact moved_put rfl rfl rfl rfl (.same rfl rfl)
  · exact .refl a slot v

/-- A match at finish either binds, or leaves an unbound slot unbound. -/
theorem moved_matchAtFinish {holds : Bool} (hf : (v.slots slot).file = none) :
    Moved a slot v (v.matchAtFinish slot a m holds).1 ∧
    ((v.matchAtFinish slot a m holds).2 = false →
      ((v.matchAtFinish slot a m holds).1.slots slot).file = none) := by
  unfold matchAtFinish
  cases h : v.tryMatch slot a m with
  | none => exact ⟨.refl a slot v, fun _ => hf⟩
  | some v' =>
    have hm := moved_tryMatch h hf
    dsimp only
    split
    · have hs : Moved a slot v (v'.settleBinding slot holds).1 := hm.trans moved_settleBinding
      split
      · exact ⟨hs, fun h => nomatch h⟩
      · exact ⟨hs.trans moved_forgetBinding, fun _ => by rw [slots_forgetBinding]; rfl⟩
    · exact ⟨hm, fun h => nomatch h⟩

theorem moved_engageGate : Moved a slot v (v.engageGate slot) :=
  moved_mapGate fun _ i hi => ⟨by simp [engage, hi], rfl⟩

/-! ## Settling -/

section Settle

variable {d : Digests} {file : Par2File} {bs : Nat} {src : ReadAt}

theorem moved_late {m : Option Nomination} {bound : Bool} (h : bound = false → (v.slots slot).file = none) :
    Moved a slot v (if bound then (v, true)
      else match v.tryMatch slot a m with
        | some v => (v, true)
        | none => (v, false)).1 ∧
    ((if bound then (v, true)
      else match v.tryMatch slot a m with
        | some v => (v, true)
        | none => (v, false)).2 = false →
      ((if bound then (v, true)
        else match v.tryMatch slot a m with
          | some v => (v, true)
          | none => (v, false)).1.slots slot).file = none) := by
  cases bound with
  | true => exact ⟨.refl a slot v, fun h => nomatch h⟩
  | false =>
    cases hm : v.tryMatch slot a m with
    | none => exact ⟨.refl a slot v, fun _ => h rfl⟩
    | some v' => exact ⟨moved_tryMatch hm (h rfl), fun h => nomatch h⟩

variable {l : Ladder}

theorem moved_lastChance {mayRematch : Bool} (hf : (v.slots slot).file = none) :
    Moved a slot v (v.lastChance slot a l mayRematch) := by
  unfold lastChance
  -- the first match, under `may_rematch`
  have h1 : Moved a slot v (if mayRematch then v.matchAtFinish slot a l.first l.firstHolds
        else (v, false)).1 ∧
      ((if mayRematch then v.matchAtFinish slot a l.first l.firstHolds else (v, false)).2 = false →
        ((if mayRematch then v.matchAtFinish slot a l.first l.firstHolds
          else (v, false)).1.slots slot).file = none) := by
    cases mayRematch with
    | true => exact moved_matchAtFinish hf
    | false => exact ⟨.refl a slot v, fun _ => hf⟩
  generalize (if mayRematch then v.matchAtFinish slot a l.first l.firstHolds else (v, false)) = x1
    at h1 ⊢
  obtain ⟨v1, bound1⟩ := x1
  dsimp only at h1 ⊢
  have h2 := moved_late (a := a) (m := l.late) h1.2
  generalize (if bound1 then (v1, true)
      else match v1.tryMatch slot a l.late with
        | some v => (v, true)
        | none => (v1, false)) = x2 at h2 ⊢
  obtain ⟨v2, bound2⟩ := x2
  -- the retry runs on a slot that is still unbound
  have h3 : Moved a slot v2 (if (!bound2 && mayRematch && l.shrank) = true
      then v2.matchAtFinish slot a l.again l.againHolds else (v2, bound2)).1 := by
    split
    case isTrue h =>
      simp only [Bool.and_eq_true, Bool.not_eq_true'] at h
      exact (moved_matchAtFinish (h2.2 h.1.1)).1
    case isFalse => exact .refl a slot v2
  have h123 := (h1.1.trans h2.1).trans h3
  exact .ite (fun _ => h123.trans moved_engageGate) fun _ => h123

theorem moved_readbackBlock {bi : Nat} : Moved a slot v (readbackBlock d file bs src slot v bi) := by
  have hput : Moved a slot v (v.put slot { v.slots slot with
      ifscSelfContradicted := (v.slots slot).ifscSelfContradicted ||
        readVerdict d file bs src bi == .contradicted
      blocks := (v.slots slot).blocks.set bi
        (if readVerdict d file bs src bi = .ok then .ok else .bad) }) :=
    moved_put rfl rfl List.length_set rfl (.same rfl rfl)
  exact .ite (fun _ => hput.trans moved_onVouch) fun _ => hput

theorem moved_readbackBlocks {want : List Nat} :
    Moved a slot v (v.readbackBlocks d slot file bs src want) := by
  have hfold : ∀ (want : List Nat) (v : LiveVerifier),
      Moved a slot v (want.foldl (readbackBlock d file bs src slot) v) := by
    intro want
    induction want with
    | nil => exact .refl a slot
    | cons bi want ih => exact fun v => moved_readbackBlock.trans (ih _)
  exact .ite (fun _ => .refl a slot v) fun _ => (hfold want v).trans moved_gatePublish

theorem moved_acceptWhole : Moved a slot v (v.acceptWhole slot bs) := by
  refine .trans (.trans ?_ moved_onVouch) moved_gatePublish
  exact moved_put rfl rfl List.length_replicate rfl (.same rfl rfl)

theorem moved_settleBlocks : Moved a slot v (v.settleBlocks d slot file bs src) := by
  exact .ite (fun _ => moved_readbackBlocks.trans moved_acceptWhole) fun _ => moved_readbackBlocks

theorem moved_dropPartials : Moved a slot v (v.dropPartials slot) := by
  have h : Frame slot v (v.put slot { v.slots slot with partials := ∅, partialBytes := 0 }) :=
    frame_put (.same rfl rfl)
  refine ⟨⟨h.plan, h.fast, h.lean, h.noReuse, h.others, h.cells, h.pre⟩, .single (.keep ?_ ?_ ?_ ?_)⟩
  all_goals simp [dropPartials]

theorem moved_releaseUnbound : Moved a slot v (v.releaseUnbound slot) := by
  refine moved_mapGate fun g i hi => ?_
  split
  · exact ⟨g.advance_marks_ne _ hi, by rw [advance_vouch]⟩
  · exact ⟨rfl, rfl⟩

theorem moved_finishBound : Moved a slot v (v.finishBound d slot a src) := by
  unfold finishBound
  split
  · exact moved_releaseUnbound
  · exact .ite (fun _ => moved_dropPartials.trans moved_advance)
      fun _ => moved_dropPartials.trans moved_settleBlocks

theorem moved_forcedReadback : Moved a slot v (v.forcedReadback d slot a src) := by
  have hput : Moved a slot v (v.put slot { v.slots slot with readbackForced := [] }) :=
    moved_put rfl rfl rfl rfl (.same rfl rfl)
  refine .ite (fun _ => ?_) fun _ => hput
  split
  · exact .ite (fun _ => hput.trans moved_readbackBlocks) fun _ => hput
  · exact hput

theorem moved_finishSlot (hp : v.plan = .active a) :
    Moved a slot v (v.finishSlot d slot src l) := by
  unfold finishSlot
  rw [hp]
  have hr : Moved a slot v (v.forcedReadback d slot a src) := moved_forcedReadback
  have h : Moved a slot v ((v.forcedReadback d slot a src).settleBinding slot l.settled).1 :=
    hr.trans moved_settleBinding
  have h2 : Moved a slot v (if ((v.slots slot).file.isSome &&
      !((v.forcedReadback d slot a src).settleBinding slot l.settled).2) = true then
        ((v.forcedReadback d slot a src).settleBinding slot l.settled).1.forgetBinding slot
      else ((v.forcedReadback d slot a src).settleBinding slot l.settled).1) :=
    .ite (fun _ => h.trans moved_forgetBinding) fun _ => h
  exact (h2.trans (.ite (fun hc => moved_lastChance hc.1) fun _ => .refl ..)).trans moved_finishBound

theorem finishSlot_idle (h : ∀ a, v.plan ≠ .active a) : v.finishSlot d slot src l = v := by
  unfold finishSlot
  split
  case _ a hp => exact absurd hp (h a)
  case _ => rfl

theorem moved_forceReadback : Moved a slot v (v.forceReadback slot) := by
  refine .trans ?_ moved_onVouch
  exact moved_put rfl rfl List.length_replicate rfl (.same rfl rfl)

end Settle

/-! ## Pre-activation spans -/

theorem moved_preSpan {f : Feed} : Moved a slot v (v.preSpan slot f) :=
  moved_put rfl rfl rfl rfl ⟨Bool.left_le_or _ _, Bool.left_le_or _ _⟩

theorem moved_seedPreSpans {spans : List (Nat × Nat)} :
    Moved a slot v (v.seedPreSpans slot spans) :=
  moved_put rfl rfl rfl rfl ⟨le_refl _, Bool.le_true _⟩

theorem moved_takePreSpans : Moved a slot v (v.takePreSpans slot).2 := moved_put rfl rfl rfl rfl (.same rfl rfl)

end LiveVerifier

end NzbFast.Live
