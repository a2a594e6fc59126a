import Mathlib.Logic.Function.Basic
import NzbFast.Pool.Lease

/-!
# The head-counts of a fleet

`WorkerLife` (`crates/nzbkit/src/pool/runlife.rs`) and `claim_handoff` (`pool/handoff.rs`). A claim
takes its worker out of `alive` and records that decrement in `handoff_retired` one move later; an
exit takes a recorded decrement if there is one, whosever it is, and lowers `alive` itself if not.
-/

namespace NzbFast.Pool

open List Function

/-- Where a worker is in a claim or in its exit. -/
inductive LifePhase where
  | working
  /-- `handoff_out` is raised; the floor is as it was read. -/
  | claiming (keep : Nat)
  | refused
  | reserved
  | granted
  /-- It found no recorded decrement. -/
  | lowering (deliberate : Bool)
  | counted (deliberate : Bool)
  | gone
  deriving DecidableEq

structure WorkerLife where
  idx : Nat
  phase : LifePhase

structure Fleet where
  alive : Nat → Nat
  handoffRetired : Nat → Nat
  handoffOut : Nat → Nat
  workersLive : Nat
  workers : List WorkerLife
  /-- The retiring workers that saw themselves as the last. -/
  lasts : Nat

/-- `parked` is what a move reads of the bodies parked on admission or on the lease. -/
inductive FleetMove where
  | birth (idx : Nat)
  | claim (i : Nat) (drainFloor : Bool) (parked : Nat)
  | advance (i : Nat) (parked : Nat)
  /-- A retirement, or a panic's drop. -/
  | leave (i : Nat) (deliberate : Bool)

def handoffFloor (drainFloor : Bool) : Nat := if drainFloor then 2 else 1

namespace Fleet

def new : Fleet := ⟨fun _ => 0, fun _ => 0, fun _ => 0, 0, [], 0⟩

def setPhase (f : Fleet) (i : Nat) (w : WorkerLife) (phase : LifePhase) : Fleet :=
  { f with workers := f.workers.set i { w with phase } }

/-- The next move of a claim or of an exit. -/
def advance (f : Fleet) (i parked : Nat) (w : WorkerLife) : Fleet :=
  match w.phase with
  | .claiming keep =>
    if parked + keep < f.alive w.idx then
      { f with alive := Function.update f.alive w.idx (f.alive w.idx - 1) }.setPhase i w .reserved
    else f.setPhase i w .refused
  | .refused =>
    { f with handoffOut := Function.update f.handoffOut w.idx (f.handoffOut w.idx - 1) }.setPhase i w .working
  | .reserved =>
    { f with handoffRetired := Function.update f.handoffRetired w.idx (f.handoffRetired w.idx + 1) }.setPhase
      i w .granted
  | .lowering deliberate =>
    { f with alive := Function.update f.alive w.idx (f.alive w.idx - 1) }.setPhase i w (.counted deliberate)
  | .counted deliberate =>
    { f with
      workersLive := f.workersLive - 1
      lasts := if deliberate && decide (f.workersLive = 1) then f.lasts + 1 else f.lasts }.setPhase i w .gone
  | _ => f

/-- `count_out`, up to where it finds a recorded decrement or none. -/
def leave (f : Fleet) (i : Nat) (deliberate : Bool) (w : WorkerLife) : Fleet :=
  if w.phase = .working ∨ w.phase = .granted then
    if f.handoffRetired w.idx = 0 then f.setPhase i w (.lowering deliberate)
    else { f with
      handoffRetired := Function.update f.handoffRetired w.idx (f.handoffRetired w.idx - 1) }.setPhase i w
        (.counted deliberate)
  else f

def step (f : Fleet) : FleetMove → Fleet
  | .birth idx => { f with
      alive := Function.update f.alive idx (f.alive idx + 1)
      workersLive := f.workersLive + 1
      workers := f.workers ++ [⟨idx, .working⟩] }
  | .claim i drainFloor parked =>
    match f.workers[i]? with
    | none => f
    | some w =>
      if w.phase = .working ∧ f.handoffOut w.idx + handoffFloor drainFloor < f.alive w.idx - parked then
        { f with handoffOut := Function.update f.handoffOut w.idx (f.handoffOut w.idx + 1) }.setPhase i w
          (.claiming (handoffFloor drainFloor))
      else f
  | .advance i parked => (f.workers[i]?).elim f (f.advance i parked)
  | .leave i deliberate => (f.workers[i]?).elim f (f.leave i deliberate)

def run (f : Fleet) (moves : List FleetMove) : Fleet := moves.foldl step f

/-! ## The identity -/

/-- A worker that is not counted out. -/
def living : LifePhase → Bool
  | .counted _ | .gone => false
  | _ => true

/-- Between a claim's two counters. -/
def between (phase : LifePhase) : Bool := decide (phase = .reserved)

/-- Out of `alive` by a claim of its own. -/
def prepaid (phase : LifePhase) : Bool := decide (phase = .reserved ∨ phase = .granted)

def lowers : LifePhase → Bool
  | .lowering _ => true
  | _ => false

def present (phase : LifePhase) : Bool := decide (phase ≠ .gone)

def count (f : Fleet) (p : LifePhase → Bool) (s : Nat) : Nat :=
  f.workers.countP fun w => decide (w.idx = s) && p w.phase

structure Inv (f : Fleet) : Prop where
  identity : ∀ s, f.alive s + f.handoffRetired s + f.count between s = f.count living s
  paid : ∀ s, f.handoffRetired s + f.count between s ≤ f.count prepaid s
  live : f.workersLive = f.workers.countP fun w => present w.phase

variable {f : Fleet} {i : Nat} {w : WorkerLife}

theorem count_set (hi : f.workers[i]? = some w) (phase : LifePhase) (p : LifePhase → Bool) (s : Nat) :
    ((f.workers.set i { w with phase }).countP fun w => decide (w.idx = s) && p w.phase) +
      (decide (w.idx = s) && p w.phase).toNat = f.count p s + (decide (w.idx = s) && p phase).toNat :=
  HostLease.countP_set_add (p := fun w : WorkerLife => decide (w.idx = s) && p w.phase) { w with phase } hi

theorem le_of_disjoint {p q r : LifePhase → Bool}
    (hpoint : ∀ phase, (p phase).toNat + (q phase).toNat ≤ (r phase).toNat) (s : Nat) :
    f.count p s + f.count q s ≤ f.count r s := by
  unfold count
  induction f.workers with
  | nil => exact Nat.le_refl _
  | cons w l ih =>
    have := hpoint w.phase
    by_cases hs : w.idx = s
    · cases hp : p w.phase <;> cases hq : q w.phase <;> cases hr : r w.phase <;>
        simp [hs, hp, hq, hr] at this ⊢ <;> omega
    · simpa [hs] using ih

/-- One worker moves on, with the counters of its server. -/
theorem Inv.move {f' : Fleet} {phase : LifePhase} (h : Inv f) (hi : f.workers[i]? = some w)
    (hworkers : f'.workers = f.workers.set i { w with phase })
    (hrest : ∀ s, w.idx ≠ s → f'.alive s = f.alive s ∧ f'.handoffRetired s = f.handoffRetired s)
    (hid : f'.alive w.idx + f'.handoffRetired w.idx + (between phase).toNat + (living w.phase).toNat =
      f.alive w.idx + f.handoffRetired w.idx + (between w.phase).toNat + (living phase).toNat)
    (hpaid : f'.handoffRetired w.idx + (between phase).toNat + (prepaid w.phase).toNat ≤
      f.handoffRetired w.idx + (between w.phase).toNat + (prepaid phase).toNat ∨
      f'.handoffRetired w.idx = 0)
    (hlive : f'.workersLive + (present w.phase).toNat = f.workersLive + (present phase).toNat) :
    Inv f' := by
  have hcount := fun p s => count_set hi phase p s
  rw [← hworkers] at hcount
  refine ⟨fun s => ?_, fun s => ?_, ?_⟩
  · have hb := hcount between s
    have hl := hcount living s
    have := h.identity s
    rw [count, count]
    by_cases hs : w.idx = s
    · subst hs
      simp only [decide_true, Bool.true_and] at hb hl
      omega
    · simp only [hs, decide_false, Bool.false_and, Bool.toNat_false] at hb hl
      have := hrest s hs
      omega
  · have hb := hcount between s
    have hl := hcount prepaid s
    have := h.paid s
    rw [count, count]
    by_cases hs : w.idx = s
    · subst hs
      have hle := @le_of_disjoint f' between (fun _ => false) prepaid
        (fun phase => by cases phase <;> simp [between, prepaid]) w.idx
      simp only [decide_true, Bool.true_and] at hb hl
      unfold count at hle
      omega
    · simp only [hs, decide_false, Bool.false_and, Bool.toNat_false] at hb hl
      have := hrest s hs
      omega
  · have := HostLease.countP_set_add (p := fun w : WorkerLife => present w.phase) { w with phase } hi
    have := h.live
    rw [hworkers]
    dsimp only at *
    omega

/-- An exit that is about to lower `alive` finds it raised. -/
theorem Inv.lowers_le (h : Inv f) (s : Nat) : f.count lowers s ≤ f.alive s := by
  have := @le_of_disjoint f lowers prepaid living (fun phase => by cases phase <;> simp [lowers, prepaid, living]) s
  have := h.identity s
  have := h.paid s
  omega

theorem count_pos {p : LifePhase → Bool} (hi : f.workers[i]? = some w) (hp : p w.phase = true) :
    0 < f.count p w.idx :=
  countP_pos_iff.mpr ⟨w, mem_of_getElem? hi, by simp [hp]⟩

theorem Inv.alive_pos (h : Inv f) (hi : f.workers[i]? = some w) (hp : lowers w.phase = true) :
    0 < f.alive w.idx := Nat.lt_of_lt_of_le (count_pos hi hp) (h.lowers_le w.idx)

theorem Inv.live_pos (h : Inv f) (hi : f.workers[i]? = some w) (hp : w.phase ≠ .gone) :
    0 < f.workersLive := by
  rw [h.live]
  exact countP_pos_iff.mpr ⟨w, mem_of_getElem? hi, decide_eq_true hp⟩

theorem update_rest (g : Nat → Nat) (n : Nat) {s : Nat} (hs : w.idx ≠ s) :
    Function.update g w.idx n s = g s := update_of_ne (Ne.symm hs) ..

theorem Inv.advance (h : Inv f) (hi : f.workers[i]? = some w) (parked : Nat) :
    Inv (f.advance i parked w) := by
  unfold Fleet.advance
  split <;> rename_i hw
  · rename_i keep
    split
    · refine h.move hi rfl (fun s hs => ⟨update_rest _ _ hs, rfl⟩) ?_ ?_ ?_ <;>
        simp [setPhase, hw, between, living, prepaid, present] <;> omega
    · refine h.move hi rfl (fun s hs => ⟨rfl, rfl⟩) ?_ ?_ ?_ <;>
        simp [setPhase, hw, between, living, prepaid, present]
  · refine h.move hi rfl (fun s hs => ⟨rfl, rfl⟩) ?_ ?_ ?_ <;>
      simp [setPhase, hw, between, living, prepaid, present]
  · refine h.move hi rfl (fun s hs => ⟨rfl, update_rest _ _ hs⟩) ?_ ?_ ?_ <;>
      simp [setPhase, hw, between, living, prepaid, present] <;> omega
  · have := h.alive_pos hi (by rw [hw]; rfl)
    refine h.move hi rfl (fun s hs => ⟨update_rest _ _ hs, rfl⟩) ?_ ?_ ?_ <;>
      simp [setPhase, hw, between, living, prepaid, present] <;> omega
  · have := h.live_pos hi (by rw [hw]; nofun)
    refine h.move hi rfl (fun s hs => ⟨rfl, rfl⟩) ?_ ?_ ?_ <;>
      simp [setPhase, hw, between, living, prepaid, present] <;> omega
  · exact h

theorem Inv.leave (h : Inv f) (hi : f.workers[i]? = some w) (deliberate : Bool) :
    Inv (f.leave i deliberate w) := by
  unfold Fleet.leave
  split
  · rename_i hw
    split
    · rename_i h0
      refine h.move hi rfl (fun s hs => ⟨rfl, rfl⟩) ?_ (.inr h0) ?_ <;> rcases hw with hw | hw <;>
        simp [setPhase, hw, between, living, present]
    · refine h.move hi rfl (fun s hs => ⟨rfl, update_rest _ _ hs⟩) ?_ ?_ ?_ <;> rcases hw with hw | hw <;>
        simp [setPhase, hw, between, living, prepaid, present] <;> omega
  · exact h

theorem Inv.step (h : Inv f) (m : FleetMove) : Inv (f.step m) := by
  cases m with
  | birth idx =>
    refine ⟨fun s => ?_, fun s => ?_, ?_⟩
    · have := h.identity s
      by_cases hs : idx = s
      · subst hs
        simp [Fleet.step, count, living, between] at this ⊢
        omega
      · simpa [Fleet.step, count, living, between, hs, update_of_ne (Ne.symm hs)] using this
    · have := h.paid s
      simpa [Fleet.step, count, between, prepaid] using this
    · simp [Fleet.step, h.live, present]
  | claim i drainFloor parked =>
    simp only [Fleet.step]
    split
    · exact h
    rename_i w hi
    split
    · rename_i hw
      refine h.move hi rfl (fun s hs => ⟨rfl, rfl⟩) ?_ ?_ ?_ <;>
        simp [setPhase, hw.1, between, living, prepaid, present]
    · exact h
  | advance i parked =>
    simp only [Fleet.step]
    cases hi : f.workers[i]? with
    | none => exact h
    | some w => exact h.advance hi parked
  | leave i deliberate =>
    simp only [Fleet.step]
    cases hi : f.workers[i]? with
    | none => exact h
    | some w => exact h.leave hi deliberate

theorem inv_new : Inv new := ⟨fun _ => rfl, fun _ => Nat.le_refl _, rfl⟩

theorem Inv.run (moves : List FleetMove) : ∀ f : Fleet, Inv f → Inv (f.run moves) := by
  induction moves with
  | nil => exact fun _ => id
  | cons m moves ih => exact fun f h => ih _ (h.step m)

/-! ## The last one out -/

/-- A move of a run whose workers are all born, and leave by retiring. -/
def Orderly : FleetMove → Prop
  | .birth _ | .leave _ false => False
  | _ => True

/-- Nobody leaves by a panic, and the last one was told so. -/
structure Told (f : Fleet) : Prop where
  deliberate : ∀ w ∈ f.workers, w.phase ≠ .lowering false ∧ w.phase ≠ .counted false
  none : 0 < f.workersLive → f.lasts = 0
  one : f.workersLive = 0 → f.lasts = 1

theorem Told.set {f' : Fleet} {phase : LifePhase} (ht : Told f)
    (hworkers : f'.workers = f.workers.set i { w with phase }) (hlasts : f'.lasts = f.lasts)
    (hlive : f'.workersLive = f.workersLive) (hphase : phase ≠ .lowering false ∧ phase ≠ .counted false) :
    Told f' := by
  refine ⟨fun w' hw' => ?_, by rw [hlive, hlasts]; exact ht.none, by rw [hlive, hlasts]; exact ht.one⟩
  rcases mem_or_eq_of_mem_set (hworkers ▸ hw') with h | rfl
  · exact ht.deliberate w' h
  · exact hphase

theorem Told.step {m : FleetMove} (ht : Told f) (h : Inv f) (hm : Orderly m) : Told (f.step m) := by
  cases m with
  | birth idx => exact hm.elim
  | claim i drainFloor parked =>
    simp only [Fleet.step]
    split
    · exact ht
    · split
      · exact ht.set rfl rfl rfl ⟨nofun, nofun⟩
      · exact ht
  | leave i deliberate =>
    obtain rfl : deliberate = true := by
      cases deliberate
      · exact hm.elim
      · rfl
    simp only [Fleet.step]
    cases hi : f.workers[i]? with
    | none => exact ht
    | some w =>
      simp only [Option.elim, Fleet.leave]
      split
      · split <;> exact ht.set rfl rfl rfl ⟨nofun, nofun⟩
      · exact ht
  | advance i parked =>
    simp only [Fleet.step]
    cases hi : f.workers[i]? with
    | none => exact ht
    | some w =>
      have hdel := ht.deliberate w (mem_of_getElem? hi)
      simp only [Option.elim, Fleet.advance]
      split <;> rename_i hw
      · split <;> exact ht.set rfl rfl rfl ⟨nofun, nofun⟩
      · exact ht.set rfl rfl rfl ⟨nofun, nofun⟩
      · exact ht.set rfl rfl rfl ⟨nofun, nofun⟩
      · rename_i deliberate
        cases deliberate
        · exact absurd hw hdel.1
        · exact ht.set rfl rfl rfl ⟨nofun, nofun⟩
      · rename_i deliberate
        cases deliberate
        · exact absurd hw hdel.2
        have hpos := h.live_pos hi (by rw [hw]; nofun)
        have h0 := ht.none hpos
        refine ⟨fun w' hw' => ?_, fun hlive => ?_, fun hlive => ?_⟩
        · rcases mem_or_eq_of_mem_set hw' with h | rfl
          · exact ht.deliberate w' h
          · exact ⟨nofun, nofun⟩
        · have hne : f.workersLive ≠ 1 := by
            simp only [setPhase] at hlive
            omega
          simp [setPhase, hne, h0]
        · have heq : f.workersLive = 1 := by
            simp only [setPhase] at hlive
            omega
          simp [setPhase, heq, h0]
      · exact ht

/-! ## Runs -/

/-- What the head-counts promise of a state and of the claim that is granted from it. -/
structure Counts (f : Fleet) : Prop where
  identity : ∀ s, f.alive s + f.handoffRetired s + f.count between s = f.count living s
  alive : ∀ w ∈ f.workers, lowers w.phase = true → 0 < f.alive w.idx
  live : ∀ w ∈ f.workers, w.phase ≠ .gone → 0 < f.workersLive
  floor : ∀ i parked w keep, f.workers[i]? = some w → w.phase = .claiming keep →
    ((f.advance i parked w).workers[i]?).any (between ·.phase) = true →
      parked + keep ≤ (f.advance i parked w).alive w.idx

/-- Births come first and every worker retires: then one of them is the last. -/
theorem told_run {births : List Nat} {moves : List FleetMove} (hm : ∀ m ∈ moves, Orderly m)
    (hb : births ≠ []) (hgone : ∀ w ∈ (new.run (births.map .birth ++ moves)).workers, w.phase = .gone) :
    (new.run (births.map .birth ++ moves)).lasts = 1 := by
  have hborn : ∀ (births : List Nat) (f : Fleet), Inv f → (∀ w ∈ f.workers, w.phase = .working) →
      f.lasts = 0 → Inv (f.run (births.map .birth)) ∧
        (∀ w ∈ (f.run (births.map .birth)).workers, w.phase = .working) ∧
        (f.run (births.map .birth)).lasts = 0 ∧
        (f.run (births.map .birth)).workersLive = f.workersLive + births.length := by
    intro births
    induction births with
    | nil => exact fun f h hw hl => ⟨h, hw, hl, rfl⟩
    | cons idx births ih =>
      intro f h hw hl
      obtain ⟨h', hw', hl', hlive⟩ := ih (f.step (.birth idx)) (h.step _) (fun w hmem => by
        rcases mem_append.mp hmem with hmem | hmem
        · exact hw w hmem
        · exact mem_singleton.mp hmem ▸ rfl) hl
      exact ⟨h', hw', hl', hlive.trans (by simp [Fleet.step]; omega)⟩
  have htold : ∀ (moves : List FleetMove) (f : Fleet), Told f → Inv f → (∀ m ∈ moves, Orderly m) →
      Told (f.run moves) := by
    intro moves
    induction moves with
    | nil => exact fun _ ht _ _ => ht
    | cons m moves ih =>
      exact fun f ht h hm => ih _ (ht.step h (hm m mem_cons_self)) (h.step m) fun m' hm' =>
        hm m' (mem_cons_of_mem _ hm')
  obtain ⟨h, hw, hl, hlive⟩ := hborn births new inv_new nofun rfl
  have hpos := length_pos_iff.mpr hb
  rw [run, foldl_append] at hgone ⊢
  have ht := htold moves _ ⟨fun w hmem => by rw [hw w hmem]; exact ⟨nofun, nofun⟩, fun _ => hl,
    fun h0 => absurd h0 (by omega)⟩ h hm
  refine ht.one ((h.run moves _).live.trans (countP_eq_zero.mpr fun w hmem => ?_))
  simp [present, hgone w hmem]

theorem head_counts (births : List Nat) (moves : List FleetMove) :
    (∀ moves, Counts (new.run moves)) ∧
      ((∀ m ∈ moves, Orderly m) → births ≠ [] →
        (∀ w ∈ (new.run (births.map .birth ++ moves)).workers, w.phase = .gone) →
          (new.run (births.map .birth ++ moves)).lasts = 1) := by
  refine ⟨fun moves => ?_, told_run⟩
  have h := Inv.run moves new inv_new
  refine ⟨h.identity, fun w hw hp => ?_, fun w hw hp => ?_, fun i parked w keep hi hw => ?_⟩
  · obtain ⟨i, hi⟩ := getElem?_of_mem hw
    exact h.alive_pos hi hp
  · obtain ⟨i, hi⟩ := getElem?_of_mem hw
    exact h.live_pos hi hp
  · obtain ⟨hlt, -⟩ := List.getElem?_eq_some_iff.mp hi
    simp only [Fleet.advance, hw]
    split
    · rename_i hroom
      intro _
      simp only [setPhase, update_self]
      omega
    · simp [setPhase, hlt, between]

theorem head_counts_alone :
    (new.run ([0].map .birth ++ [.leave 0 true, .advance 0 0, .advance 0 0])).lasts = 1 :=
  (head_counts [0] [.leave 0 true, .advance 0 0, .advance 0 0]).2 (by simp [Orderly]) nofun (by decide)

/-- A worker born after the others have left is a second last one. -/
theorem born_late : ∃ moves, (∀ w ∈ (new.run moves).workers, w.phase = .gone) ∧
    (∀ m ∈ moves, ∀ i, m ≠ .leave i false) ∧ (new.run moves).lasts = 2 :=
  ⟨[.birth 0, .leave 0 true, .advance 0 0, .advance 0 0, .birth 0, .leave 1 true, .advance 1 0,
    .advance 1 0], by decide, by simp, by decide⟩

end Fleet

end NzbFast.Pool
