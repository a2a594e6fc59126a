import Mathlib.Data.List.Basic

/-!
# The account lease

`HostLease` (`crates/nzbkit/src/pool/handoff.rs`): one account's connection cap as
permits, taken by workers of four classes. An `acquire_as` that is refused
registers as a waiter, enables its notification, checks again and parks; a step
here is one hold of the lock or one move of a counter outside it, so calls
interleave between any two of those. A thread that frees a slot or moves the cap
owes a wake-up from when it lets go of the lock until it notifies.
-/

namespace NzbFast.Pool

open List

inductive LeaseClass where
  | download
  | postProcess
  | spill
  | reclaim
  deriving DecidableEq

def LeaseClass.prio : LeaseClass → Bool
  | .reclaim | .postProcess => true
  | .download | .spill => false

def POST_PROCESS_RESERVE : Nat := 1

def MIN_DOWNLOAD_FLEET : Nat := 2

/-- What the lock protects. -/
structure LeaseState where
  cap : Nat
  held : Nat
  spares : Nat

def trimSpares (st : LeaseState) : LeaseState := { st with spares := min st.spares (st.cap - st.held) }

def downloadCapOf (cap : Nat) : Nat :=
  min (max (cap - POST_PROCESS_RESERVE) MIN_DOWNLOAD_FLEET) (max cap 1)

def limitFor (st : LeaseState) : LeaseClass → Nat
  | .download | .spill | .reclaim => downloadCapOf st.cap
  | .postProcess => st.cap

/-- Where a call of `acquire_as` is. A guard is built in two moves and dropped in two. -/
inductive Phase where
  /-- Before the check at the head of the loop. -/
  | first
  | register
  | registerPrio
  | enable
  | recheck (woken : Bool)
  | parked (woken : Bool)
  /-- Before the guard's drop, with what comes after it: the loop again, or the end. -/
  | release (again : Bool)
  | releasePrio (again : Bool)
  | ended
  deriving DecidableEq

structure Acquire where
  cls : LeaseClass
  phase : Phase
  deriving DecidableEq

/-- An account's lease, the permits that live and the calls under way. -/
structure HostLease where
  st : LeaseState
  waiters : Nat := 0
  prioWaiters : Nat := 0
  permits : List LeaseClass := []
  calls : List Acquire := []
  /-- Threads that have changed the state and not notified yet. -/
  owed : Nat := 0

inductive LeaseAction where
  | acquireAs (cls : LeaseClass)
  /-- The next move of a call. -/
  | advance (i : Nat)
  /-- A parked call's future dropped. -/
  | cancel (i : Nat)
  /-- A permit's drop, up to where it lets go of the lock. -/
  | dropPermit (i : Nat)
  | notifyWaiters
  | setCap (cap : Nat)
  | setSpares (want : Nat)

namespace HostLease

/-- `HostLease::new`. -/
def new (cap : Nat) : HostLease := { st := { cap := max cap 1, held := 0, spares := 0 } }

/-- `try_take`. The state it leaves, if it admits. -/
def tryTake (l : HostLease) (cls : LeaseClass) : Option LeaseState :=
  let yielding := decide (cls = .spill) && decide (0 < l.prioWaiters)
  if yielding || decide (limitFor l.st cls ≤ l.st.held) then none
  else some (trimSpares { l.st with held := l.st.held + 1 })

def setPhase (l : HostLease) (i : Nat) (call : Acquire) (phase : Phase) : HostLease :=
  { l with calls := l.calls.set i { call with phase } }

/-- A check of the call: admitted, with `won` next, or refused, with `lost`. -/
def check (l : HostLease) (i : Nat) (call : Acquire) (won lost : Phase) : HostLease :=
  match l.tryTake call.cls with
  | some st => { l with st, permits := l.permits ++ [call.cls] }.setPhase i call won
  | none => l.setPhase i call lost

def move (l : HostLease) (i : Nat) (call : Acquire) : HostLease :=
  match call.phase with
  | .first => l.check i call .ended .register
  | .register => { l with waiters := l.waiters + 1 }.setPhase i call .registerPrio
  | .registerPrio => { l with prioWaiters := l.prioWaiters + call.cls.prio.toNat }.setPhase i call .enable
  | .enable => l.setPhase i call (.recheck false)
  | .recheck woken => l.check i call (.release false) (.parked woken)
  | .parked true => l.setPhase i call (.release true)
  | .parked false => l
  | .release again => { l with waiters := l.waiters - 1 }.setPhase i call (.releasePrio again)
  | .releasePrio again =>
    { l with prioWaiters := l.prioWaiters - call.cls.prio.toNat }.setPhase i call
      (if again then .first else .ended)
  | .ended => l

/-- What a notification does to a call: those enabled are woken. -/
def wake (call : Acquire) : Acquire :=
  match call.phase with
  | .recheck _ => { call with phase := .recheck true }
  | .parked _ => { call with phase := .parked true }
  | _ => call

def step (l : HostLease) : LeaseAction → HostLease
  | .acquireAs cls => { l with calls := l.calls ++ [{ cls, phase := .first }] }
  | .advance i =>
    match l.calls[i]? with
    | some call => l.move i call
    | none => l
  | .cancel i =>
    match l.calls[i]? with
    | some call =>
      match call.phase with
      | .parked _ => l.setPhase i call (.release false)
      | _ => l
    | none => l
  | .dropPermit i =>
    if i < l.permits.length then
      { l with
        st := { l.st with held := l.st.held - 1 }
        permits := l.permits.eraseIdx i
        owed := l.owed + 1 }
    else l
  | .notifyWaiters =>
    if 0 < l.owed then { l with calls := l.calls.map wake, owed := l.owed - 1 } else l
  | .setCap cap =>
    let cap := max cap 1
    { l with
      st := trimSpares { l.st with cap }
      owed := if l.st.cap ≠ cap then l.owed + 1 else l.owed }
  | .setSpares want =>
    { l with st := { l.st with spares := if 0 < l.waiters then 0 else min want (l.st.cap - l.st.held) } }

def run (l : HostLease) : List LeaseAction → HostLease
  | [] => l
  | a :: actions => (l.step a).run actions

/-! ## The counters -/

end HostLease

namespace Acquire

def counted (call : Acquire) : Bool :=
  match call.phase with
  | .registerPrio | .enable | .recheck _ | .parked _ | .release _ => true
  | _ => false

/-- The call is counted among those that a spill stands behind. -/
def countedPrio (call : Acquire) : Bool :=
  call.cls.prio && match call.phase with
    | .enable | .recheck _ | .parked _ | .release _ | .releasePrio _ => true
    | _ => false

def registered (call : Acquire) : Bool :=
  match call.phase with
  | .enable | .recheck _ | .parked _ | .release _ => true
  | _ => false

def isParked (call : Acquire) : Bool :=
  match call.phase with
  | .parked _ => true
  | _ => false

def settled (call : Acquire) : Bool :=
  match call.phase with
  | .first | .register | .parked _ | .ended => true
  | _ => false

theorem counted_of_settled {call : Acquire} (h : call.settled = true) :
    call.counted = call.isParked ∧ call.countedPrio = (call.cls.prio && call.isParked) := by
  obtain ⟨cls, phase⟩ := call
  cases phase <;> first | exact ⟨rfl, rfl⟩ | cases h

theorem countedPrio_of_registered {call : Acquire} (h : call.registered = true)
    (hp : call.cls.prio = true) : call.countedPrio = true := by
  obtain ⟨cls, phase⟩ := call
  cases phase <;> first | exact Bool.and_eq_true_iff.mpr ⟨hp, rfl⟩ | cases h

theorem counted_wake (call : Acquire) : (HostLease.wake call).counted = call.counted := by
  obtain ⟨cls, phase⟩ := call
  cases phase <;> rfl

theorem countedPrio_wake (call : Acquire) : (HostLease.wake call).countedPrio = call.countedPrio := by
  obtain ⟨cls, phase⟩ := call
  cases phase <;> rfl

end Acquire

namespace HostLease

variable {l : HostLease}

/-- A call put in another's place. -/
theorem countP_set_add {α : Type} {p : α → Bool} : ∀ {calls : List α} {i : Nat} {x : α} (y : α), calls[i]? = some x →
    (calls.set i y).countP p + (p x).toNat = calls.countP p + (p y).toNat
  | c :: calls, 0, x, y, h => by
    cases h
    rw [set_cons_zero, countP_cons, countP_cons]
    cases p c <;> cases p y <;> simp
  | c :: calls, i + 1, x, y, h => by
    have := @countP_set_add α p calls i x y h
    rw [set_cons_succ, countP_cons, countP_cons]
    omega

structure Inv (l : HostLease) : Prop where
  cap : 0 < l.st.cap
  held : l.st.held = l.permits.length
  spares : l.st.spares ≤ l.st.cap - l.st.held
  waiters : l.waiters = l.calls.countP Acquire.counted
  prio : l.prioWaiters = l.calls.countP Acquire.countedPrio

theorem downloadCapOf_le {cap : Nat} (h : 0 < cap) : downloadCapOf cap ≤ cap := by
  unfold downloadCapOf
  omega

theorem limitFor_le (h : 0 < l.st.cap) (cls : LeaseClass) : limitFor l.st cls ≤ l.st.cap := by
  cases cls with
  | postProcess => exact Nat.le_refl _
  | download => exact downloadCapOf_le h
  | spill => exact downloadCapOf_le h
  | reclaim => exact downloadCapOf_le h

/-- What an admission says of the state it is made in. -/
theorem tryTake_some {cls : LeaseClass} {st : LeaseState} (h : l.tryTake cls = some st) :
    l.st.held < limitFor l.st cls ∧ (cls = .spill → l.prioWaiters = 0) ∧
      st = trimSpares { l.st with held := l.st.held + 1 } := by
  unfold tryTake at h
  dsimp only at h
  split at h
  case isTrue => cases h
  case isFalse hno =>
    rw [Bool.or_eq_true, Bool.and_eq_true, decide_eq_true_eq, decide_eq_true_eq, decide_eq_true_eq, not_or,
      not_and] at hno
    refine ⟨Nat.lt_of_not_le hno.2, fun hs => ?_, (Option.some.inj h).symm⟩
    exact Nat.le_zero.mp (Nat.le_of_not_lt (hno.1 hs))

theorem tryTake_none {cls : LeaseClass} :
    l.tryTake cls = none ↔ (cls = .spill ∧ 0 < l.prioWaiters) ∨ limitFor l.st cls ≤ l.st.held := by
  unfold tryTake
  dsimp only
  split
  case isTrue hyes =>
    rw [Bool.or_eq_true, Bool.and_eq_true, decide_eq_true_eq, decide_eq_true_eq, decide_eq_true_eq] at hyes
    exact ⟨fun _ => hyes, fun _ => rfl⟩
  case isFalse hno =>
    rw [Bool.or_eq_true, Bool.and_eq_true, decide_eq_true_eq, decide_eq_true_eq, decide_eq_true_eq] at hno
    exact ⟨nofun, fun h => absurd h hno⟩

theorem toNat_le_countP {α : Type} {p : α → Bool} {calls : List α} {i : Nat} {x : α}
    (h : calls[i]? = some x) : (p x).toNat ≤ calls.countP p := by
  cases hp : p x with
  | false => exact Nat.zero_le _
  | true => exact countP_pos_iff.mpr ⟨x, mem_of_getElem? h, hp⟩

/-- A call moved on, with counters that differ by what the move changes. -/
theorem Inv.setPhase {i : Nat} {call : Acquire} (hi : l.calls[i]? = some call) {phase : Phase}
    (hcap : 0 < l.st.cap) (hheld : l.st.held = l.permits.length)
    (hspares : l.st.spares ≤ l.st.cap - l.st.held)
    (hw : l.waiters + call.counted.toNat =
      l.calls.countP Acquire.counted + ({ call with phase } : Acquire).counted.toNat)
    (hp : l.prioWaiters + call.countedPrio.toNat =
      l.calls.countP Acquire.countedPrio + ({ call with phase } : Acquire).countedPrio.toNat) :
    (l.setPhase i call phase).Inv := by
  have hc := @countP_set_add _ Acquire.counted l.calls i call { call with phase } hi
  have hcp := @countP_set_add _ Acquire.countedPrio l.calls i call { call with phase } hi
  refine ⟨hcap, hheld, hspares, ?_, ?_⟩
  · dsimp only [HostLease.setPhase]
    omega
  · dsimp only [HostLease.setPhase]
    omega

/-- A check moves a call and counts the permit that it hands out. -/
theorem Inv.check (h : l.Inv) {i : Nat} {call : Acquire} (hi : l.calls[i]? = some call)
    {won lost : Phase} (hwon : ({ call with phase := won } : Acquire).counted = call.counted ∧
      ({ call with phase := won } : Acquire).countedPrio = call.countedPrio)
    (hlost : ({ call with phase := lost } : Acquire).counted = call.counted ∧
      ({ call with phase := lost } : Acquire).countedPrio = call.countedPrio) :
    (l.check i call won lost).Inv := by
  unfold HostLease.check
  cases htake : l.tryTake call.cls with
  | none =>
    refine Inv.setPhase hi h.cap h.held h.spares ?_ ?_
    · rw [hlost.1, h.waiters]
    · rw [hlost.2, h.prio]
  | some st =>
    obtain ⟨-, -, rfl⟩ := tryTake_some htake
    apply Inv.setPhase
    · exact hi
    · exact h.cap
    · dsimp only [trimSpares]
      rw [length_append, length_singleton, h.held]
    · exact Nat.min_le_right _ _
    · rw [hwon.1, h.waiters]
    · rw [hwon.2, h.prio]

/-- A move of a call keeps the counters true. -/
theorem Inv.move (h : l.Inv) {i : Nat} {call : Acquire} (hi : l.calls[i]? = some call) :
    (l.move i call).Inv := by
  have hw := h.waiters
  have hp := h.prio
  have hcw := toNat_le_countP (p := Acquire.counted) hi
  have hcp := toNat_le_countP (p := Acquire.countedPrio) hi
  obtain ⟨cls, phase⟩ := call
  cases phase with
  | first =>
    refine h.check hi ⟨rfl, ?_⟩ ⟨rfl, ?_⟩ <;> exact (Bool.and_false _).trans (Bool.and_false _).symm
  | recheck woken => exact h.check hi ⟨rfl, rfl⟩ ⟨rfl, rfl⟩
  | ended => exact h
  | parked woken =>
    cases woken with
    | false => exact h
    | true => exact Inv.setPhase hi h.cap h.held h.spares (by rw [hw]; rfl) (by rw [hp]; rfl)
  | register =>
    apply Inv.setPhase
    · exact hi
    · exact h.cap
    · exact h.held
    · exact h.spares
    · simp only [Acquire.counted, Bool.toNat_true, Bool.toNat_false]
      omega
    · simp only [Acquire.countedPrio, Bool.and_false]
      omega
  | registerPrio =>
    apply Inv.setPhase
    · exact hi
    · exact h.cap
    · exact h.held
    · exact h.spares
    · simp only [Acquire.counted]
      omega
    · simp only [Acquire.countedPrio, Bool.and_false, Bool.and_true, Bool.toNat_false]
      omega
  | enable => exact Inv.setPhase hi h.cap h.held h.spares (by rw [hw]; rfl) (by rw [hp]; rfl)
  | release again =>
    apply Inv.setPhase
    · exact hi
    · exact h.cap
    · exact h.held
    · exact h.spares
    · simp only [Acquire.counted, Bool.toNat_true, Bool.toNat_false] at hcw ⊢
      omega
    · simp only [Acquire.countedPrio, Bool.and_true]
      omega
  | releasePrio again =>
    apply Inv.setPhase
    · exact hi
    · exact h.cap
    · exact h.held
    · exact h.spares
    · rw [show ({ cls, phase := if again then .first else .ended } : Acquire).counted = false by
        cases again <;> rfl]
      simp only [Acquire.counted]
      omega
    · rw [show ({ cls, phase := if again then .first else .ended } : Acquire).countedPrio = false by
        cases again <;> exact Bool.and_false _]
      simp only [Acquire.countedPrio, Bool.and_true, Bool.toNat_false] at hcp ⊢
      omega

theorem Inv.new (cap : Nat) : (HostLease.new cap).Inv :=
  ⟨Nat.lt_of_lt_of_le Nat.one_pos (Nat.le_max_right _ _), rfl, Nat.zero_le _, rfl, rfl⟩

theorem Inv.step (h : l.Inv) (a : LeaseAction) : (l.step a).Inv := by
  cases a with
  | acquireAs cls =>
    refine ⟨h.cap, h.held, h.spares, ?_, ?_⟩
    · rw [HostLease.step, countP_append, h.waiters]
      rfl
    · rw [HostLease.step, countP_append, h.prio, countP_singleton]
      simp only [Acquire.countedPrio, Bool.and_false]
      rfl
  | advance i =>
    unfold HostLease.step
    dsimp only
    cases hi : l.calls[i]? with
    | none => exact h
    | some call => exact h.move hi
  | cancel i =>
    unfold HostLease.step
    dsimp only
    cases hi : l.calls[i]? with
    | none => exact h
    | some call =>
      obtain ⟨cls, phase⟩ := call
      cases phase with
      | parked woken =>
        exact Inv.setPhase hi h.cap h.held h.spares (by rw [h.waiters]; rfl) (by rw [h.prio]; rfl)
      | _ => exact h
  | dropPermit i =>
    unfold HostLease.step
    dsimp only
    split
    case isFalse => exact h
    case isTrue hi =>
      have hheld := h.held
      have hspares := h.spares
      refine ⟨h.cap, ?_, ?_, h.waiters, h.prio⟩
      · dsimp only
        rw [length_eraseIdx_of_lt hi, hheld]
      · dsimp only
        omega
  | notifyWaiters =>
    unfold HostLease.step
    dsimp only
    split
    case isFalse => exact h
    case isTrue =>
      refine ⟨h.cap, h.held, h.spares, ?_, ?_⟩
      · rw [countP_map, h.waiters]
        exact countP_congr fun call _ => by rw [Function.comp_apply, Acquire.counted_wake]
      · rw [countP_map, h.prio]
        exact countP_congr fun call _ => by rw [Function.comp_apply, Acquire.countedPrio_wake]
  | setCap cap =>
    exact ⟨Nat.lt_of_lt_of_le Nat.one_pos (Nat.le_max_right _ _), h.held, Nat.min_le_right _ _, h.waiters,
      h.prio⟩
  | setSpares want =>
    refine ⟨h.cap, h.held, ?_, h.waiters, h.prio⟩
    dsimp only [HostLease.step]
    split
    case isTrue => exact Nat.zero_le _
    case isFalse => exact Nat.min_le_right _ _

theorem Inv.run (h : l.Inv) (actions : List LeaseAction) : (l.run actions).Inv := by
  induction actions generalizing l with
  | nil => exact h
  | cons a actions ih => exact ih (h.step a)

/-! ## Admissions -/

/-- A step hands out a permit of a class that a check admits, or none, and only `set_cap` moves the
cap. -/
def Outcome (l : HostLease) (a : LeaseAction) (l' : HostLease) : Prop :=
  (∃ cls st, l.tryTake cls = some st ∧ l'.permits = l.permits ++ [cls] ∧ l'.st.cap = l.st.cap) ∨
    (l'.permits.length ≤ l.permits.length ∧ (l'.st.cap = l.st.cap ∨ ∃ cap, a = .setCap cap))

theorem Outcome.same {l' : HostLease} (a : LeaseAction) (hp : l'.permits = l.permits)
    (hcap : l'.st.cap = l.st.cap) : Outcome l a l' :=
  .inr ⟨hp ▸ Nat.le_refl _, .inl hcap⟩

theorem check_outcome (a : LeaseAction) (i : Nat) (call : Acquire) (won lost : Phase) :
    Outcome l a (l.check i call won lost) := by
  unfold check
  cases htake : l.tryTake call.cls with
  | none => exact .same a rfl rfl
  | some st =>
    obtain ⟨-, -, rfl⟩ := tryTake_some htake
    exact .inl ⟨call.cls, _, htake, rfl, rfl⟩

theorem step_outcome (l : HostLease) (a : LeaseAction) : Outcome l a (l.step a) := by
  unfold step
  cases a with
  | advance i =>
    dsimp only
    cases hi : l.calls[i]? with
    | none => exact .same _ rfl rfl
    | some call =>
      obtain ⟨cls, phase⟩ := call
      cases phase with
      | first => exact check_outcome _ i _ _ _
      | recheck woken => exact check_outcome _ i _ _ _
      | parked woken => cases woken <;> exact .same _ rfl rfl
      | _ => exact .same _ rfl rfl
  | dropPermit i =>
    dsimp only
    split
    case isFalse => exact .same _ rfl rfl
    case isTrue => exact .inr ⟨length_eraseIdx_le _ _, .inl rfl⟩
  | cancel i =>
    dsimp only
    split
    · split
      · exact .same _ rfl rfl
      · exact .same _ rfl rfl
    · exact .same _ rfl rfl
  | notifyWaiters =>
    dsimp only
    split
    · exact .same _ rfl rfl
    · exact .same _ rfl rfl
  | setCap cap => exact .inr ⟨Nat.le_refl _, .inr ⟨cap, rfl⟩⟩
  | acquireAs cls => exact .same _ rfl rfl
  | setSpares want => exact .same _ rfl rfl

/-- What holds of an account's lease and of each admission that it can make next. -/
structure Bounded (l : HostLease) : Prop where
  held : l.st.held = l.permits.length
  spares : l.st.held + l.st.spares ≤ max l.st.cap l.st.held
  waiters : l.waiters = l.calls.countP Acquire.counted
  prioWaiters : l.prioWaiters = l.calls.countP Acquire.countedPrio
  /-- Between moves of the calls, those counted are the parked ones. -/
  parked : (∀ call ∈ l.calls, call.settled = true) → l.waiters = l.calls.countP Acquire.isParked ∧
    l.prioWaiters = l.calls.countP fun call => call.cls.prio && call.isParked
  admits : ∀ a cls, (l.step a).permits = l.permits ++ [cls] → l.st.held < limitFor l.st cls ∧
    (cls ≠ .postProcess → l.st.held < downloadCapOf l.st.cap) ∧
    (cls = .spill → ∀ call ∈ l.calls, ¬ (call.registered = true ∧ call.cls.prio = true))
  within : ∀ a, (∀ cap, a ≠ .setCap cap) → l.st.held ≤ l.st.cap → (l.step a).st.held ≤ (l.step a).st.cap

theorem Inv.admits (h : l.Inv) {a : LeaseAction} {cls : LeaseClass}
    (ha : (l.step a).permits = l.permits ++ [cls]) : l.st.held < limitFor l.st cls ∧
      (cls ≠ .postProcess → l.st.held < downloadCapOf l.st.cap) ∧
      (cls = .spill → ∀ call ∈ l.calls, ¬ (call.registered = true ∧ call.cls.prio = true)) := by
  rcases step_outcome l a with ⟨cls', st, htake, hp, -⟩ | ⟨hle, -⟩
  case inr =>
    rw [ha, length_append, length_singleton] at hle
    omega
  case inl =>
    obtain rfl : cls = cls' := singleton_inj.mp (append_cancel_left (ha.symm.trans hp))
    obtain ⟨hlt, hyield, -⟩ := tryTake_some htake
    refine ⟨hlt, fun hpp => ?_, fun hspill call hcall hreg => ?_⟩
    · cases cls with
      | postProcess => exact absurd rfl hpp
      | _ => exact hlt
    · have hpos := countP_pos_iff.mpr
        ⟨call, hcall, Acquire.countedPrio_of_registered hreg.1 hreg.2⟩
      rw [← h.prio, hyield hspill] at hpos
      exact Nat.lt_irrefl _ hpos

theorem Inv.within (h : l.Inv) {a : LeaseAction} (ha : ∀ cap, a ≠ .setCap cap)
    (hle : l.st.held ≤ l.st.cap) : (l.step a).st.held ≤ (l.step a).st.cap := by
  have hheld := h.held
  have hheld' := (h.step a).held
  rcases step_outcome l a with ⟨cls, st, htake, hp, hcap⟩ | ⟨hle', hcap⟩
  · obtain ⟨hlt, -, -⟩ := tryTake_some htake
    have := limitFor_le h.cap cls
    rw [hheld', hcap, hp, length_append, length_singleton]
    omega
  · rcases hcap with hcap | ⟨cap, rfl⟩
    · omega
    · exact absurd rfl (ha cap)

theorem Inv.bounded (h : l.Inv) : l.Bounded where
  held := h.held
  spares := by
    have := h.spares
    omega
  waiters := h.waiters
  prioWaiters := h.prio
  parked hs := by
    rw [h.waiters, h.prio]
    constructor
    · exact countP_congr fun call hcall => by rw [(Acquire.counted_of_settled (hs call hcall)).1]
    · exact countP_congr fun call hcall => by rw [(Acquire.counted_of_settled (hs call hcall)).2]
  admits _ _ ha := h.admits ha
  within _ ha hle := h.within ha hle

/-- Whatever an account's workers, permits and settings do, its lease is bounded. -/
theorem run_bounded (cap : Nat) (actions : List LeaseAction) : ((new cap).run actions).Bounded :=
  ((Inv.new cap).run actions).bounded

end HostLease

end NzbFast.Pool
