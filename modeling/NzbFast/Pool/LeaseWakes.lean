import Mathlib.Data.List.Induction
import NzbFast.Pool.Lease

/-!
# Wake-ups at the account lease

A parked call that nobody is about to wake should be one that a check would refuse.
Every change that frees a slot or moves the cap wakes all parked calls, so this
holds of what a check reads under the lock. A spill also reads how many calls it
stands behind, and the drop of the last such registration wakes nobody: it leaves a
spill asleep beside a free slot, and nothing else does.
-/

namespace NzbFast.Pool

open List

namespace HostLease

variable {l l' : HostLease}

/-- A parked call that nobody is about to wake would be refused. -/
def Wakeful (l : HostLease) : Prop :=
  ∀ call ∈ l.calls, call.phase = .parked false → l.owed = 0 → l.tryTake call.cls = none

/-- The action does not give back the last registration that spills stand behind, with a slot free
for a spill that is parked and that nobody is about to wake. -/
def Keeps (l : HostLease) (a : LeaseAction) : Prop :=
  ∀ i call again, a = .advance i → l.calls[i]? = some call → call.phase = .releasePrio again →
    call.cls.prio = true → l.prioWaiters = 1 → l.owed = 0 → l.st.held < downloadCapOf l.st.cap →
    ∀ s ∈ l.calls, s.cls = .spill → s.phase ≠ .parked false

theorem limitFor_congr {st st' : LeaseState} (h : st'.cap = st.cap) (cls : LeaseClass) :
    limitFor st' cls = limitFor st cls := by
  cases cls with
  | postProcess => exact h
  | _ => exact congrArg downloadCapOf h

/-- What is refused stays so while the cap stands, no permit goes and no registration does. -/
theorem tryTake_none_mono {cls : LeaseClass} (h : l.tryTake cls = none) (hcap : l'.st.cap = l.st.cap)
    (hheld : l.st.held ≤ l'.st.held) (hprio : l.prioWaiters ≤ l'.prioWaiters) :
    l'.tryTake cls = none := by
  rw [tryTake_none] at h ⊢
  rw [limitFor_congr hcap]
  rcases h with ⟨hs, hpos⟩ | hle
  · exact .inl ⟨hs, Nat.lt_of_lt_of_le hpos hprio⟩
  · exact .inr (Nat.le_trans hle hheld)

/-- A call put in a phase that is not asleep, or where it was just refused. -/
theorem Wakeful.setPhase {calls : List Acquire} {i : Nat} {call : Acquire} {phase : Phase}
    (hcalls : l.calls = calls)
    (h : ∀ x ∈ calls, x.phase = .parked false → l.owed = 0 → l.tryTake x.cls = none)
    (hphase : phase ≠ .parked false ∨ l.tryTake call.cls = none) : (l.setPhase i call phase).Wakeful := by
  intro x hx hp howed
  have hx' : x ∈ calls.set i { call with phase } := hcalls ▸ hx
  rcases mem_or_eq_of_mem_set hx' with hx' | rfl
  · exact h x hx' hp howed
  · exact hphase.resolve_left fun hne => hne hp

theorem Wakeful.check (h : l.Wakeful) {i : Nat} {call : Acquire} {won lost : Phase}
    (hwon : won ≠ .parked false) : (l.check i call won lost).Wakeful := by
  unfold HostLease.check
  cases htake : l.tryTake call.cls with
  | none => exact Wakeful.setPhase rfl h (.inr htake)
  | some st =>
    obtain ⟨-, -, rfl⟩ := tryTake_some htake
    refine Wakeful.setPhase rfl (fun x hx hp howed => ?_) (.inl hwon)
    exact tryTake_none_mono (h x hx hp howed) rfl (Nat.le_succ _) (Nat.le_refl _)

/-- The one move that can leave a call asleep is the last of a guard's drop. -/
theorem Wakeful.move (h : l.Wakeful) {i : Nat} {call : Acquire} (hi : l.calls[i]? = some call)
    (hk : l.Keeps (.advance i)) : (l.move i call).Wakeful := by
  have hmono : ∀ {l' : HostLease}, l'.calls = l.calls → l'.owed = l.owed → l'.st = l.st →
      l.prioWaiters ≤ l'.prioWaiters →
      ∀ x ∈ l.calls, x.phase = .parked false → l'.owed = 0 → l'.tryTake x.cls = none :=
    fun {l'} _ howed hst hprio x hx hp h0 =>
      tryTake_none_mono (h x hx hp (howed ▸ h0)) (by rw [hst]) (hst ▸ Nat.le_refl _) hprio
  obtain ⟨cls, phase⟩ := call
  cases phase with
  | first => exact h.check nofun
  | recheck woken => exact h.check nofun
  | ended => exact h
  | register => exact Wakeful.setPhase rfl (hmono rfl rfl rfl (Nat.le_refl _)) (.inl nofun)
  | registerPrio => exact Wakeful.setPhase rfl (hmono rfl rfl rfl (Nat.le_add_right _ _)) (.inl nofun)
  | enable => exact Wakeful.setPhase rfl h (.inl nofun)
  | parked woken =>
    cases woken with
    | false => exact h
    | true => exact Wakeful.setPhase rfl h (.inl nofun)
  | release again => exact Wakeful.setPhase rfl (hmono rfl rfl rfl (Nat.le_refl _)) (.inl nofun)
  | releasePrio again =>
    refine Wakeful.setPhase rfl (fun x hx hp howed => ?_) (.inl (by cases again <;> exact nofun))
    have hno := h x hx hp howed
    rw [tryTake_none] at hno ⊢
    -- only a spill that stood back for the last registration could be let in now
    rcases hno with ⟨hspill, hpos⟩ | hle
    case inr => exact .inr hle
    case inl =>
      by_cases hfull : limitFor l.st x.cls ≤ l.st.held
      · exact .inr hfull
      · refine .inl ⟨hspill, ?_⟩
        cases hprio : cls.prio with
        | false => exact hpos
        | true =>
          refine Nat.sub_pos_of_lt (Nat.lt_of_le_of_ne hpos fun hone => ?_)
          rw [hspill] at hfull
          exact hk i _ again rfl hi rfl hprio hone.symm howed (Nat.lt_of_not_le hfull) x hx hspill hp

theorem Wakeful.step (h : l.Wakeful) {a : LeaseAction} (hk : l.Keeps a) : (l.step a).Wakeful := by
  cases a with
  | acquireAs cls =>
    intro x hx hp howed
    rcases mem_append.mp hx with hx | hx
    · exact h x hx hp howed
    · obtain rfl := mem_singleton.mp hx
      cases hp
  | advance i =>
    unfold HostLease.step
    dsimp only
    cases hi : l.calls[i]? with
    | none => exact h
    | some call => exact h.move hi hk
  | cancel i =>
    unfold HostLease.step
    dsimp only
    split
    · split
      · exact Wakeful.setPhase rfl h (.inl nofun)
      · exact h
    · exact h
  | dropPermit i =>
    unfold HostLease.step
    dsimp only
    split
    case isFalse => exact h
    case isTrue => exact fun x _ _ howed => absurd howed (Nat.succ_ne_zero _)
  | notifyWaiters =>
    unfold HostLease.step
    dsimp only
    split
    case isFalse => exact h
    case isTrue =>
      intro x hx hp
      obtain ⟨y, -, rfl⟩ := mem_map.mp hx
      obtain ⟨cls, phase⟩ := y
      cases phase <;> cases hp
  | setCap cap =>
    intro x hx hp howed
    by_cases hsame : l.st.cap = max cap 1
    · have howed : l.owed = 0 := by
        dsimp only [HostLease.step] at howed
        rw [if_neg (fun hne => hne hsame)] at howed
        exact howed
      exact tryTake_none_mono (h x hx hp howed) hsame.symm (Nat.le_refl _) (Nat.le_refl _)
    · dsimp only [HostLease.step] at howed
      rw [if_pos hsame] at howed
      exact absurd howed (Nat.succ_ne_zero _)
  | setSpares want =>
    exact fun x hx hp howed =>
      tryTake_none_mono (h x hx hp howed) rfl (Nat.le_refl _) (Nat.le_refl _)

theorem Keeps.of_step {a : LeaseAction} (h : (l.step a).Wakeful) : l.Keeps a := by
  rintro i call again rfl hi hphase hprio hone howed hfree s hs hspill hparked
  have hstep : l.step (.advance i) =
      { l with prioWaiters := l.prioWaiters - call.cls.prio.toNat }.setPhase i call
        (if again then .first else .ended) := by
    unfold HostLease.step
    dsimp only
    rw [hi]
    dsimp only
    unfold HostLease.move
    rw [hphase]
  have hmem : s ∈ (l.step (.advance i)).calls := by
    rw [hstep]
    obtain ⟨j, hj⟩ := mem_iff_getElem?.mp hs
    refine mem_iff_getElem?.mpr ⟨j, ?_⟩
    dsimp only [HostLease.setPhase]
    rw [getElem?_set_ne, hj]
    rintro rfl
    rw [hi] at hj
    cases hj
    rw [hphase] at hparked
    cases hparked
  have hno := h s hmem hparked (by rw [hstep]; exact howed)
  rw [tryTake_none, hspill, hstep] at hno
  dsimp only [HostLease.setPhase] at hno
  rw [hone, hprio] at hno
  rcases hno with ⟨-, hpos⟩ | hle
  · exact absurd hpos (by decide)
  · exact Nat.not_le_of_lt hfree hle

theorem run_concat (l : HostLease) (actions : List LeaseAction) (a : LeaseAction) :
    l.run (actions ++ [a]) = (l.run actions).step a := by
  induction actions generalizing l with
  | nil => rfl
  | cons b actions ih => exact ih (l.step b)

/-- No call is left asleep in any state of a run exactly when no action of the run gives back the last
registration that a sleeping spill stands behind, beside a free slot. -/
theorem run_wakeful_iff (cap : Nat) (actions : List LeaseAction) :
    (∀ pre post, actions = pre ++ post → ((new cap).run pre).Wakeful) ↔
      ∀ pre a post, actions = pre ++ a :: post → ((new cap).run pre).Keeps a := by
  constructor
  · intro h pre a post heq
    have := h (pre ++ [a]) post (by rw [heq, append_assoc, singleton_append])
    rw [run_concat] at this
    exact Keeps.of_step this
  · intro h pre
    induction pre using reverseRecOn with
    | nil => exact fun _ _ => nofun
    | append_singleton pre a ih =>
      intro post heq
      rw [append_assoc, singleton_append] at heq
      rw [run_concat]
      exact (ih (a :: post) heq).step (h pre a post heq)

/-- Two downloads hold an account of three; a reclaim and a spill park. A permit goes and wakes both.
The spill checks first, stands back and parks again; then the reclaim is cancelled. -/
def reclaimCancelled : List LeaseAction :=
  [.acquireAs .download, .advance 0, .acquireAs .download, .advance 1] ++
    .acquireAs .reclaim :: List.replicate 5 (.advance 2) ++
    .acquireAs .spill :: List.replicate 5 (.advance 3) ++
    [.dropPermit 0, .notifyWaiters] ++ List.replicate 8 (.advance 3) ++
    [.cancel 2, .advance 2, .advance 2]

/-- The spill is asleep for good, with one of its account's two slots free. -/
theorem reclaimCancelled_asleep :
    let l := (new 3).run reclaimCancelled
    (∃ call ∈ l.calls, call.cls = .spill ∧ call.phase = .parked false) ∧ l.owed = 0 ∧
      l.prioWaiters = 0 ∧ l.st.held = 1 ∧ downloadCapOf l.st.cap = 2 ∧ ¬ l.Wakeful := by
  refine ⟨by decide, by decide, by decide, by decide, by decide, fun h => ?_⟩
  have := h { cls := .spill, phase := .parked false } (by decide) rfl (by decide)
  exact absurd (tryTake_none.mp this) (by decide)

end HostLease

end NzbFast.Pool
