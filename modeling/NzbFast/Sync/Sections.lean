import Mathlib.Logic.Relation
import Mathlib.Tactic.Common

/-!
# Sections under private locks

Parties with a lock each share a state that they reach through short atomic
sections. `Prog` is what a party does while it holds its lock: at each `act` it
waits for a section with its cell as it stands, and `free` is the lock down.
A world runs one section of one party at a time, so a run is an interleaving of
sections; a party with its lock down may start another program, and the shared
state may be swapped while every lock is down.

`Reachable.held` is the invariant rule: a `Contract` holds in every reachable
world once every program that a party may start is `Sound` for it. `Sound.free`,
`Sound.act` and `Sound.weaken` build such proofs section by section.
-/

namespace Sync

open Function

/-- A party under its lock, with its cell between sections; the rest of the program sees the shared
state as the section found it. -/
inductive Prog (ω σ κ : Type) where
  | free (c : κ)
  | act (c : κ) (o : ω) (next : σ → Prog ω σ κ)

variable {ω σ κ ι : Type}

namespace Prog

def cell : Prog ω σ κ → κ
  | free c => c
  | act c _ _ => c

@[simp] theorem cell_free (c : κ) : (free c : Prog ω σ κ).cell = c := rfl

@[simp] theorem cell_act (c : κ) (o : ω) (next : σ → Prog ω σ κ) : (act c o next).cell = c := rfl

def solo (run : ω → σ → σ) : Prog ω σ κ → σ → κ × σ
  | free c, w => (c, w)
  | act _ o next, w => (next w).solo run (run o w)

/-- A cell the program may end with, whatever its sections find. -/
inductive Leaves : Prog ω σ κ → κ → Prop
  | free (c : κ) : Leaves (.free c) c
  | act {c c' : κ} {o : ω} {next : σ → Prog ω σ κ} (w : σ) : Leaves (next w) c' →
      Leaves (.act c o next) c'

theorem leaves_free {c c' : κ} : (free c : Prog ω σ κ).Leaves c' ↔ c' = c := by
  constructor
  · rintro ⟨⟩
    rfl
  · rintro rfl
    exact .free _

theorem leaves_act {c c' : κ} {o : ω} {next : σ → Prog ω σ κ} :
    (act c o next).Leaves c' ↔ ∃ w, (next w).Leaves c' := by
  constructor
  · rintro ⟨⟩
    exact ⟨_, by assumption⟩
  · rintro ⟨w, hw⟩
    exact .act w hw

end Prog

/-- What the sections do, which programs a party may start, and what may happen to the shared state
while every lock is down. -/
structure System (ω σ κ ι : Type) where
  run : ω → σ → σ
  enter : ι → κ → Prog ω σ κ → Prop
  swap : σ → σ → Prop

structure World (ω σ κ ι : Type) where
  shared : σ
  party : ι → Prog ω σ κ

def World.cells (w : World ω σ κ ι) (i : ι) : κ := (w.party i).cell

section Runs

variable [DecidableEq ι] (S : System ω σ κ ι)

inductive Step (w : World ω σ κ ι) : World ω σ κ ι → Prop
  | tick (i : ι) {c : κ} {o : ω} {next : σ → Prog ω σ κ} : w.party i = .act c o next →
      Step w ⟨S.run o w.shared, Function.update w.party i (next w.shared)⟩
  | enter (i : ι) {c : κ} {p : Prog ω σ κ} : w.party i = .free c → S.enter i c p →
      Step w ⟨w.shared, Function.update w.party i p⟩
  | swap {s : σ} : (∀ i, ∃ c, w.party i = .free c) → S.swap w.shared s →
      Step w ⟨s, w.party⟩

def Reachable (start : World ω σ κ ι) : World ω σ κ ι → Prop :=
  Relation.ReflTransGen (Step S) start

end Runs

/-! ## The invariant rule -/

/-- What is proved of a system: an invariant of the shared state and all cells, what a section finds
when it runs, and what holds of a cell whose lock is down. -/
structure Contract (ω σ κ ι : Type) where
  Inv : σ → (ι → κ) → Prop
  req : ι → σ → κ → ω → Prop
  rest : κ → Prop

section Invariant

variable [DecidableEq ι] (S : System ω σ κ ι) (C : Contract ω σ κ ι)

/-- Every section keeps the invariant and finds its requirement, whatever ran in between. -/
def Keeps (i : ι) : Prog ω σ κ → Prop
  | .free c => C.rest c
  | .act c o next => ∀ w cells, C.Inv w (Function.update cells i c) →
      C.req i w c o ∧ C.Inv (S.run o w) (Function.update cells i (next w).cell) ∧ Keeps i (next w)

/-- A program that may go on from cell `c`. -/
structure Sound (i : ι) (c : κ) (p : Prog ω σ κ) : Prop where
  cell : ∀ w cells, C.Inv w (Function.update cells i c) →
    C.Inv w (Function.update cells i p.cell)
  keeps : Keeps S C i p

variable {S C} {i : ι} {c : κ}

theorem Sound.free (h : C.rest c) : Sound S C i c (.free c) := ⟨fun _ _ hw => hw, h⟩

/-- A section is sound when it keeps the invariant for some cell its rest may go on from. -/
theorem Sound.act {c₁ : κ} {o : ω} {next : σ → Prog ω σ κ}
    (h : ∀ w cells, C.Inv w (Function.update cells i c) → C.Inv w (Function.update cells i c₁))
    (hsec : ∀ w cells, C.Inv w (Function.update cells i c₁) → C.req i w c₁ o ∧
      ∃ c₂, C.Inv (S.run o w) (Function.update cells i c₂) ∧ Sound S C i c₂ (next w)) :
    Sound S C i c (.act c₁ o next) := by
  refine ⟨h, fun w cells hw => ?_⟩
  obtain ⟨hreq, c₂, hc₂, hs⟩ := hsec w cells hw
  exact ⟨hreq, hs.cell _ cells hc₂, hs.keeps⟩

/-- Local code in front of a sound program. -/
theorem Sound.weaken {c₁ : κ} {p : Prog ω σ κ}
    (h : ∀ w cells, C.Inv w (Function.update cells i c) → C.Inv w (Function.update cells i c₁))
    (hp : Sound S C i c₁ p) : Sound S C i c p :=
  ⟨fun w cells hw => hp.cell w cells (h w cells hw), hp.keeps⟩

/-- What the rule carries along a run. -/
structure Held (S : System ω σ κ ι) (C : Contract ω σ κ ι) (w : World ω σ κ ι) : Prop where
  inv : C.Inv w.shared w.cells
  keeps : ∀ i, Keeps S C i (w.party i)

theorem cells_update (w : World ω σ κ ι) (s : σ) (i : ι) (p : Prog ω σ κ) :
    World.cells ⟨s, Function.update w.party i p⟩ = Function.update w.cells i p.cell := by
  funext j
  unfold World.cells
  dsimp only
  by_cases hj : j = i
  · subst hj
    rw [update_self, update_self]
  · rw [update_of_ne hj, update_of_ne hj]

theorem update_cells_self (w : World ω σ κ ι) {i : ι} {p : Prog ω σ κ} (h : w.party i = p) :
    Function.update w.cells i p.cell = w.cells := by
  rw [← h]
  exact update_eq_self i w.cells

theorem keeps_update {w : World ω σ κ ι} (hw : ∀ j, Keeps S C j (w.party j)) {i : ι}
    {p : Prog ω σ κ} (hp : Keeps S C i p) (j : ι) :
    Keeps S C j (Function.update w.party i p j) := by
  by_cases hj : j = i
  · subst hj
    rw [update_self]
    exact hp
  · rw [update_of_ne hj]
    exact hw j

theorem Held.rest {w : World ω σ κ ι} (hw : Held S C w) (hp : w.party i = .free c) : C.rest c := by
  have hi := hw.keeps i
  rw [hp] at hi
  exact hi

/-- A section that is about to run finds its requirement. -/
theorem Held.due {w : World ω σ κ ι} (hw : Held S C w) {o : ω} {next : σ → Prog ω σ κ}
    (hp : w.party i = .act c o next) : C.req i w.shared c o := by
  have hi := hw.keeps i
  rw [hp] at hi
  have hinv := hw.inv
  rw [← update_cells_self w hp] at hinv
  exact (hi _ _ hinv).1

theorem Step.held {w w' : World ω σ κ ι} (hstep : Step S w w') (hw : Held S C w)
    (henter : ∀ i c p, S.enter i c p → C.rest c → Sound S C i c p)
    (hswap : ∀ s s' cells, S.swap s s' → C.Inv s cells → C.Inv s' cells) : Held S C w' := by
  cases hstep with
  | tick i hp =>
    have hi := hw.keeps i
    rw [hp] at hi
    have hinv := hw.inv
    rw [← update_cells_self w hp] at hinv
    obtain ⟨-, hinv', hk⟩ := hi _ _ hinv
    exact ⟨by rw [cells_update]; exact hinv', keeps_update hw.keeps hk⟩
  | enter i hp he =>
    have hs := henter i _ _ he (hw.rest hp)
    have hinv := hw.inv
    rw [← update_cells_self w hp] at hinv
    exact ⟨by rw [cells_update]; exact hs.cell _ _ hinv, keeps_update hw.keeps hs.keeps⟩
  | swap _ hsw => exact ⟨hswap _ _ _ hsw hw.inv, hw.keeps⟩

/-- The invariant holds in every reachable world. -/
theorem Reachable.held {start w : World ω σ κ ι} (hr : Reachable S start w)
    (hstart : Held S C start)
    (henter : ∀ i c p, S.enter i c p → C.rest c → Sound S C i c p)
    (hswap : ∀ s s' cells, S.swap s s' → C.Inv s cells → C.Inv s' cells) : Held S C w := by
  induction hr with
  | refl => exact hstart
  | tail _ hstep ih => exact hstep.held ih henter hswap

end Invariant

/-! ## Undisturbed runs -/

section Solo

variable [DecidableEq ι] {S : System ω σ κ ι}

/-- A program that nobody interrupts runs to its end. -/
theorem Reachable.runs {start w : World ω σ κ ι} (hr : Reachable S start w) {i : ι}
    {p : Prog ω σ κ} (hp : w.party i = p) :
    Reachable S start ⟨(p.solo S.run w.shared).2,
      Function.update w.party i (.free (p.solo S.run w.shared).1)⟩ := by
  induction p generalizing w with
  | free c =>
    have hw : update w.party i (.free c) = w.party := by
      rw [← hp, update_eq_self]
    dsimp only [Prog.solo]
    rw [hw]
    exact hr
  | act c o next ih =>
    have h := ih w.shared (hr.tail (.tick i hp)) (update_self _ _ _)
    rwa [update_idem] at h

/-- A program that a party starts and nobody interrupts. -/
theorem Reachable.solo {start w : World ω σ κ ι} (hr : Reachable S start w) {i : ι} {c : κ}
    {p : Prog ω σ κ} (hc : w.party i = .free c) (hp : S.enter i c p) :
    Reachable S start ⟨(p.solo S.run w.shared).2,
      Function.update w.party i (.free (p.solo S.run w.shared).1)⟩ := by
  have hin : Reachable S start ⟨w.shared, update w.party i p⟩ := hr.tail (.enter i hc hp)
  have h := hin.runs (update_self i p w.party)
  rwa [update_idem] at h

end Solo

end Sync
