import Mathlib.Data.List.TakeWhile
import Mathlib.Tactic

/-!
# The running prefix digest

One slot of the `PrefixTable` of `crates/nzbkit-base/src/live/prefix.rs`. The
locked regions `arm`, `publish`, `void` and `take` are one action each. A
`step` of the table's single worker is three: the snapshot under the lock, the
reads with the lock down, and the put-back. So a list of actions is an
interleaving, and a read carries the bytes the file held when it was made.

MD5 is the parameter `Hasher`. Whether the table is switched on and has a
reader is input to `arm`. A file ends below 2^63, so no read goes past it.
-/

namespace NzbFast.Live.Prefix

open List Option UInt64 UInt64

/-- A running hash that only depends on the bytes it was fed. -/
structure Hasher (σ : Type) where
  init : σ
  update : σ → List UInt8 → σ
  update_nil : ∀ s, update s [] = s
  update_append : ∀ s a b, update (update s a) b = update s (a ++ b)

def CHUNK : Nat := 16 * 1024 * 1024

def FAIL_BUDGET : Nat := 64

def BUF : Nat := 1024 * 1024

/-- `i64::MAX`, the greatest offset of a file. -/
def FILE_MAX : Nat := UInt64.size / 2 - 1

structure PrefixSlot (σ : Type) where
  armed : Bool := false
  /-- Bytes vouched for, contiguous from 0. -/
  proven : Nat := 0
  /-- Bytes hashed into `state`. -/
  offset : Nat := 0
  state : σ
  /-- Bumped by every void. -/
  epoch : UInt64 := 0
  /-- Settled or abandoned. -/
  done : Bool := false
  /-- Consecutive failed reads. -/
  fails : Nat := 0
  deriving DecidableEq

/-- What a step took out of the lock, and how far it has read. -/
structure Flight (σ : Type) where
  start : Nat
  stop : Nat
  off : Nat
  state : σ
  epoch : UInt64
  deriving DecidableEq

variable {σ : Type}

namespace PrefixSlot

def arm (ready : Bool) (s : PrefixSlot σ) : PrefixSlot σ :=
  if !ready || s.armed || s.done then s else { s with armed := true }

def publish (proven : Nat) (s : PrefixSlot σ) : PrefixSlot σ :=
  if proven ≤ s.proven then s else { s with proven := proven }

def void (md5 : Hasher σ) (s : PrefixSlot σ) : PrefixSlot σ :=
  { s with offset := 0, proven := 0, state := md5.init, epoch := s.epoch + 1 }

def take (s : PrefixSlot σ) : PrefixSlot σ × Option (Nat × σ) :=
  ({ s with done := true }, if 0 < s.offset then some (s.offset, s.state) else none)

/-- The first locked region of `step`; `none` when there is nothing to hash. -/
def snapshot (s : PrefixSlot σ) : Option (Flight σ) :=
  if !s.armed || s.done || s.proven ≤ s.offset then none
  else
    some
      { start := s.offset
        stop := min s.proven ((s.offset + CHUNK) % UInt64.size)
        off := s.offset
        state := s.state
        epoch := s.epoch }

def fail (s : PrefixSlot σ) : PrefixSlot σ :=
  { s with fails := s.fails + 1, done := s.done || decide (FAIL_BUDGET ≤ s.fails + 1) }

/-- The last locked region of `step`. -/
def putBack (s : PrefixSlot σ) (f : Flight σ) : PrefixSlot σ :=
  if s.epoch = f.epoch ∧ s.offset = f.start then
    { s with offset := f.stop, state := f.state, fails := 0 }
  else s

end PrefixSlot

structure World (σ : Type) where
  slot : PrefixSlot σ
  flight : Option (Flight σ) := none
  deriving DecidableEq

inductive Action
  | arm (ready : Bool)
  | publish (proven : Nat)
  | void
  | take
  | snapshot
  | read (off : Nat) (bytes : List UInt8)
  | fail
  | putBack
  deriving DecidableEq

namespace Action

def isArm : Action → Bool
  | arm ready => ready
  | _ => false

def isVoid : Action → Bool
  | void => true
  | _ => false

def isSnapshot : Action → Bool
  | snapshot => true
  | _ => false

def bytesRead : Action → Option (Nat × List UInt8)
  | read off bytes => some (off, bytes)
  | _ => none

end Action

section Step

variable (md5 : Hasher σ)

/-- One action; `none` where the worker is not at that point of `step`. -/
def World.step (w : World σ) : Action → Option (World σ)
  | .arm ready => some { w with slot := w.slot.arm ready }
  | .publish proven => some { w with slot := w.slot.publish proven }
  | .void => some { w with slot := w.slot.void md5 }
  | .take => some { w with slot := w.slot.take.1 }
  | .snapshot => if w.flight.isSome then none else some { w with flight := w.slot.snapshot }
  | .read off bytes => w.flight.bind fun f =>
    if off = f.off ∧ f.off < f.stop ∧ bytes.length = min (f.stop - f.off) BUF ∧
        off + bytes.length ≤ FILE_MAX then
      some { w with flight := some { f with
        off := f.off + bytes.length
        state := md5.update f.state bytes } }
    else none
  | .fail => w.flight.bind fun f => if f.off < f.stop then some ⟨w.slot.fail, none⟩ else none
  | .putBack => w.flight.bind fun f =>
    if f.stop ≤ f.off then some ⟨w.slot.putBack f, none⟩ else none

/-- The slot as `new` leaves it. -/
def World.start : World σ := { slot := { state := md5.init } }

/-- The actions so far, oldest first, and the state they lead to. -/
inductive Run : List Action → World σ → Prop
  | start : Run [] (World.start md5)
  | snoc {as : List Action} {a : Action} {w w' : World σ} : Run as w → w.step md5 a = some w' →
      Run (as ++ [a]) w'

end Step

/-! ## What a run did -/

/-- The actions after the last one that is `p`. -/
def since (p : Action → Bool) (as : List Action) : List Action :=
  (as.reverse.takeWhile fun a => !p a).reverse

theorem since_snoc (p : Action → Bool) (as : List Action) (a : Action) :
    since p (as ++ [a]) = if p a then [] else since p as ++ [a] := by
  unfold since
  rw [reverse_append, reverse_singleton, singleton_append, takeWhile_cons]
  cases p a <;> simp

/-- The actions since the slot was first armed and last voided. -/
def currentEpoch (as : List Action) : List Action :=
  since Action.isVoid (as.dropWhile fun a => !a.isArm)

def readsOf (as : List Action) : List (Nat × List UInt8) := as.filterMap Action.bytesRead

/-- The reads follow each other without a gap, from `start` to `stop`. -/
def Tiles : Nat → List (Nat × List UInt8) → Nat → Prop
  | start, [], stop => start = stop
  | start, (off, bytes) :: reads, stop => off = start ∧ Tiles (start + bytes.length) reads stop

theorem Tiles.snoc {start stop : Nat} {reads : List (Nat × List UInt8)} (h : Tiles start reads stop)
    (bytes : List UInt8) : Tiles start (reads ++ [(stop, bytes)]) (stop + bytes.length) := by
  induction reads generalizing start with
  | nil =>
    obtain rfl : start = stop := h
    exact ⟨rfl, rfl⟩
  | cons r reads ih => exact ⟨h.1, ih h.2⟩

/-- `state` is the hash of the bytes of `[0, offset)`, all of them read during `as`. -/
def Hashed (md5 : Hasher σ) (as : List Action) (offset : Nat) (state : σ) : Prop :=
  ∃ reads, reads.Sublist (readsOf as) ∧ Tiles 0 reads offset ∧
    state = md5.update md5.init (reads.flatMap (·.2))

/-- How often the slot was voided since the last snapshot. -/
def voids (as : List Action) : Nat := (since Action.isSnapshot as).countP Action.isVoid

/-- Fewer than 2^64 voids land between a step's snapshot and its put-back. -/
def Timely (as : List Action) : Prop :=
  ∀ pre post, as = pre ++ .putBack :: post → voids pre < UInt64.size

theorem voids_snoc (as : List Action) (a : Action) : voids (as ++ [a]) =
    if a.isSnapshot then 0 else voids as + if a.isVoid then 1 else 0 := by
  unfold voids
  rw [since_snoc]
  split
  · rfl
  · rw [countP_append, countP_singleton]

theorem Timely.of_snoc {as : List Action} {a : Action} (h : Timely (as ++ [a])) : Timely as :=
  fun pre post heq => h pre (post ++ [a]) (by rw [heq]; simp)

theorem since_sublist (p : Action → Bool) (as : List Action) : (since p as).Sublist as := by
  have h := (takeWhile_sublist (fun a => !p a) (l := as.reverse)).reverse
  rwa [reverse_reverse] at h

theorem timely_of_countP {as : List Action} (h : as.countP Action.isVoid < size) :
    Timely as := by
  intro pre post heq
  have hpre : voids pre ≤ pre.countP Action.isVoid := (since_sublist _ pre).countP_le
  rw [heq, countP_append] at h
  omega

theorem afterArm_snoc (as : List Action) (a : Action) :
    (as ++ [a]).dropWhile (fun a => !a.isArm) =
      if (as.dropWhile fun a => !a.isArm).isEmpty then if a.isArm then [a] else []
      else (as.dropWhile fun a => !a.isArm) ++ [a] := by
  rw [dropWhile_append, dropWhile_cons, dropWhile_nil]
  cases a.isArm <;> rfl

/-- Once the slot was armed, anything but a void adds to the epoch. -/
theorem currentEpoch_armed {as : List Action} (harm : ∃ b ∈ as, b.isArm = true) {a : Action}
    (ha : a.isVoid = false) : currentEpoch (as ++ [a]) = currentEpoch as ++ [a] := by
  have hne : (as.dropWhile fun a => !a.isArm).isEmpty = false := by
    obtain ⟨b, hb, hbarm⟩ := harm
    rw [Bool.eq_false_iff, ne_eq, List.isEmpty_iff, dropWhile_eq_nil_iff]
    intro hall
    have := hall b hb
    rw [hbarm] at this
    cases this
  rw [currentEpoch, afterArm_snoc, hne, if_neg Bool.false_ne_true, since_snoc, ha,
    if_neg Bool.false_ne_true]
  rfl

theorem currentEpoch_sublist (as : List Action) {a : Action} (ha : a.isVoid = false) :
    (currentEpoch as).Sublist (currentEpoch (as ++ [a])) := by
  by_cases harm : ∃ b ∈ as, b.isArm = true
  · rw [currentEpoch_armed harm ha]
    exact sublist_append_left _ _
  · have hnil : (as.dropWhile fun a => !a.isArm) = [] := by
      rw [dropWhile_eq_nil_iff]
      intro b hb
      rw [Bool.not_eq_true', Bool.eq_false_iff]
      exact fun hbarm => harm ⟨b, hb, hbarm⟩
    rw [currentEpoch, hnil]
    exact nil_sublist _

/-! ## Hashed bytes -/

section Hashed

variable {md5 : Hasher σ} {as : List Action} {offset : Nat} {state : σ}

theorem hashed_nil (md5 : Hasher σ) (as : List Action) : Hashed md5 as 0 md5.init :=
  ⟨[], nil_sublist _, rfl, (md5.update_nil _).symm⟩

theorem Hashed.mono {bs : List Action} (h : Hashed md5 as offset state) (hsub : as.Sublist bs) :
    Hashed md5 bs offset state := by
  obtain ⟨reads, hreads, htiles, hstate⟩ := h
  exact ⟨reads, hreads.trans (hsub.filterMap _), htiles, hstate⟩

theorem Hashed.read (h : Hashed md5 as offset state) (bytes : List UInt8) :
    Hashed md5 (as ++ [.read offset bytes]) (offset + bytes.length) (md5.update state bytes) := by
  obtain ⟨reads, hreads, htiles, rfl⟩ := h
  refine ⟨reads ++ [(offset, bytes)], ?_, htiles.snoc bytes, ?_⟩
  · unfold readsOf
    rw [filterMap_append]
    exact hreads.append (List.Sublist.refl _)
  · rw [md5.update_append, flatMap_append]
    simp

end Hashed

/-! ## The invariant -/

/-- What a step in flight has, unless the slot was voided under it. -/
structure Flies (md5 : Hasher σ) (as : List Action) (s : PrefixSlot σ) (f : Flight σ) : Prop where
  hashed : Hashed md5 (currentEpoch as) f.off f.state
  stop_le : f.stop ≤ s.proven

structure Inv (md5 : Hasher σ) (as : List Action) (w : World σ) : Prop where
  armed : w.slot.armed = true → ∃ b ∈ as, b.isArm = true
  hashed : Hashed md5 (currentEpoch as) w.slot.offset w.slot.state
  offset_le : w.slot.offset ≤ w.slot.proven
  small : w.slot.offset ≤ FILE_MAX
  flight_armed : ∀ f, w.flight = some f → w.slot.armed = true
  off_le : ∀ f, w.flight = some f → f.off ≤ f.stop ∧ f.off ≤ FILE_MAX
  /-- The slot's epoch has moved once for every void since the snapshot. -/
  epoch : ∀ f, w.flight = some f →
    w.slot.epoch.toNat = (f.epoch.toNat + voids as) % UInt64.size
  flies : ∀ f, w.flight = some f → voids as = 0 → Flies md5 as w.slot f

section Invariant

variable {md5 : Hasher σ} {as : List Action} {w w' : World σ}

theorem inv_start (md5 : Hasher σ) : Inv md5 [] (World.start md5) where
  armed h := by cases h
  hashed := hashed_nil md5 _
  offset_le := le_refl _
  small := Nat.zero_le _
  flight_armed _ h := by cases h
  off_le _ h := by cases h
  epoch _ h := by cases h
  flies _ h := by cases h

theorem voids_frame (as : List Action) {a : Action} (hv : a.isVoid = false)
    (hs : a.isSnapshot = false) : voids (as ++ [a]) = voids as := by
  rw [voids_snoc, hs, hv]
  rfl

/-- An action that leaves the digest alone, and no step in flight that was not. -/
theorem Inv.frame (h : Inv md5 as w) {a : Action} (hv : a.isVoid = false)
    (hs : a.isSnapshot = false) (hflight : ∀ f, w'.flight = some f → w.flight = some f)
    (harm : w'.slot.armed = true → w.slot.armed = true ∨ a.isArm = true)
    (hkeep : w.slot.armed = true → w'.slot.armed = true) (hoff : w'.slot.offset = w.slot.offset)
    (hstate : w'.slot.state = w.slot.state) (hepoch : w'.slot.epoch = w.slot.epoch)
    (hproven : w.slot.proven ≤ w'.slot.proven) : Inv md5 (as ++ [a]) w' where
  armed hw := by
    rcases harm hw with hw | ha
    · obtain ⟨b, hb, hbarm⟩ := h.armed hw
      exact ⟨b, mem_append_left _ hb, hbarm⟩
    · exact ⟨a, mem_append_right _ mem_cons_self, ha⟩
  hashed := by
    rw [hoff, hstate]
    exact h.hashed.mono (currentEpoch_sublist as hv)
  offset_le := by
    rw [hoff]
    exact h.offset_le.trans hproven
  small := hoff ▸ h.small
  flight_armed f hf := hkeep (h.flight_armed f (hflight f hf))
  off_le f hf := h.off_le f (hflight f hf)
  epoch f hf := by
    rw [hepoch, voids_frame as hv hs]
    exact h.epoch f (hflight f hf)
  flies f hf hzero := by
    rw [voids_frame as hv hs] at hzero
    have hold := h.flies f (hflight f hf) hzero
    exact ⟨hold.hashed.mono (currentEpoch_sublist as hv), hold.stop_le.trans hproven⟩

theorem Inv.arm (h : Inv md5 as w) (ready : Bool) :
    Inv md5 (as ++ [.arm ready]) { w with slot := w.slot.arm ready } := by
  by_cases hskip : (!ready || w.slot.armed || w.slot.done) = true
  · have hsame : w.slot.arm ready = w.slot := if_pos hskip
    rw [hsame]
    exact h.frame rfl rfl (fun _ hf => hf) .inl id rfl rfl rfl (le_refl _)
  · have harm : w.slot.arm ready = { w.slot with armed := true } := if_neg hskip
    rw [harm]
    have hready : ready = true := by
      cases ready
      · exact absurd rfl hskip
      · rfl
    exact h.frame rfl rfl (fun _ hf => hf) (fun _ => .inr hready) (fun _ => rfl) rfl rfl rfl
      (le_refl _)

theorem Inv.publish (h : Inv md5 as w) (proven : Nat) :
    Inv md5 (as ++ [.publish proven]) { w with slot := w.slot.publish proven } := by
  by_cases hle : proven ≤ w.slot.proven
  · have hsame : w.slot.publish proven = w.slot := if_pos hle
    rw [hsame]
    exact h.frame rfl rfl (fun _ hf => hf) .inl id rfl rfl rfl (le_refl _)
  · have hnew : w.slot.publish proven = { w.slot with proven := proven } := if_neg hle
    rw [hnew]
    exact h.frame rfl rfl (fun _ hf => hf) .inl id rfl rfl rfl (Nat.le_of_not_le hle)

/-- A void starts over, and whatever is in flight is a void behind. -/
theorem Inv.void (h : Inv md5 as w) :
    Inv md5 (as ++ [.void]) { w with slot := w.slot.void md5 } where
  armed hw := by
    obtain ⟨b, hb, hbarm⟩ := h.armed hw
    exact ⟨b, mem_append_left _ hb, hbarm⟩
  hashed := hashed_nil md5 _
  offset_le := le_refl _
  small := Nat.zero_le _
  flight_armed := h.flight_armed
  off_le := h.off_le
  epoch f hf := by
    have hold := h.epoch f hf
    have hnew : voids (as ++ [.void]) = voids as + 1 := voids_snoc as .void
    show (w.slot.epoch + 1).toNat = _
    rw [hnew, UInt64.toNat_add, hold]
    show (_ % size + 1) % size = _
    rw [Nat.mod_add_mod, add_assoc]
  flies f _ hzero := by
    have hnew : voids (as ++ [.void]) = voids as + 1 := voids_snoc as .void
    omega

/-- A snapshot takes what the slot has, and there is room to read. -/
theorem Inv.snapshot (h : Inv md5 as w) :
    Inv md5 (as ++ [.snapshot]) { w with flight := w.slot.snapshot } := by
  have hvoids : voids (as ++ [.snapshot]) = 0 := voids_snoc as .snapshot
  have hhashed := h.hashed.mono (currentEpoch_sublist as (a := .snapshot) rfl)
  have hflight : ∀ f, w.slot.snapshot = some f → w.slot.armed = true ∧
      w.slot.offset < w.slot.proven ∧ f =
        { start := w.slot.offset
          stop := min w.slot.proven ((w.slot.offset + CHUNK) % size)
          off := w.slot.offset
          state := w.slot.state
          epoch := w.slot.epoch } := by
    intro f hf
    unfold PrefixSlot.snapshot at hf
    split at hf
    · cases hf
    case isFalse hcan =>
      simp only [Bool.or_eq_true, Bool.not_eq_true', decide_eq_true_eq, not_or, Bool.not_eq_false,
        not_le] at hcan
      exact ⟨hcan.1.1, hcan.2, (some.inj hf).symm⟩
  refine ⟨?_, hhashed, h.offset_le, h.small, fun f hf => (hflight f hf).1, ?_, ?_, ?_⟩
  · intro hw
    obtain ⟨b, hb, hbarm⟩ := h.armed hw
    exact ⟨b, mem_append_left _ hb, hbarm⟩
  · intro f hf
    obtain ⟨-, hlt, rfl⟩ := hflight f hf
    have hsmall := h.small
    have hroom : (w.slot.offset + CHUNK) % size = w.slot.offset + CHUNK := by
      have hmax : FILE_MAX + CHUNK < size := by decide
      exact Nat.mod_eq_of_lt (Nat.lt_of_le_of_lt (Nat.add_le_add_right hsmall _) hmax)
    refine ⟨?_, hsmall⟩
    rw [hroom]
    exact Nat.le_min.mpr ⟨Nat.le_of_lt hlt, Nat.le_add_right _ _⟩
  · intro f hf
    obtain ⟨-, -, rfl⟩ := hflight f hf
    rw [hvoids, add_zero]
    exact (Nat.mod_eq_of_lt w.slot.epoch.toNat_lt).symm
  · intro f hf _
    obtain ⟨-, -, rfl⟩ := hflight f hf
    exact ⟨hhashed, min_le_left _ _⟩

/-- A read carries the step's hash on. -/
theorem Inv.read (h : Inv md5 as w) {f : Flight σ} (hf : w.flight = some f) {bytes : List UInt8}
    (hlen : bytes.length ≤ f.stop - f.off) (hmax : f.off + bytes.length ≤ FILE_MAX) :
    Inv md5 (as ++ [.read f.off bytes]) { w with flight := some { f with
      off := f.off + bytes.length
      state := md5.update f.state bytes } } := by
  have hvoids := voids_frame as (a := .read f.off bytes) rfl rfl
  have hoff := h.off_le f hf
  refine ⟨?_, h.hashed.mono (currentEpoch_sublist as rfl), h.offset_le, h.small,
    fun _ _ => h.flight_armed f hf, ?_, ?_, ?_⟩
  · intro hw
    obtain ⟨b, hb, hbarm⟩ := h.armed hw
    exact ⟨b, mem_append_left _ hb, hbarm⟩
  · rintro g hg
    obtain rfl := some.inj hg
    refine ⟨?_, hmax⟩
    show f.off + bytes.length ≤ f.stop
    omega
  · rintro g hg
    obtain rfl := some.inj hg
    rw [hvoids]
    exact h.epoch f hf
  · rintro g hg hzero
    obtain rfl := some.inj hg
    rw [hvoids] at hzero
    have hold := h.flies f hf hzero
    refine ⟨?_, hold.stop_le⟩
    rw [currentEpoch_armed (h.armed (h.flight_armed f hf)) rfl]
    exact hold.hashed.read bytes

/-- A finished step installs what it hashed, unless the slot was voided under it. -/
theorem Inv.putBack (h : Inv md5 as w) {f : Flight σ} (hf : w.flight = some f)
    (hread : f.stop ≤ f.off) (hfew : voids as < size) :
    Inv md5 (as ++ [.putBack]) ⟨w.slot.putBack f, none⟩ := by
  by_cases hsame : w.slot.epoch = f.epoch ∧ w.slot.offset = f.start
  · have hput : w.slot.putBack f =
        { w.slot with offset := f.stop, state := f.state, fails := 0 } := if_pos hsame
    have hzero : voids as = 0 := by
      have hepoch := h.epoch f hf
      have hlt : f.epoch.toNat < size := f.epoch.toNat_lt
      rw [hsame.1] at hepoch
      rcases lt_or_ge (f.epoch.toNat + voids as) size with hno | hwrap
      · rw [Nat.mod_eq_of_lt hno] at hepoch
        omega
      · rw [Nat.mod_eq_sub_mod hwrap, Nat.mod_eq_of_lt (by omega)] at hepoch
        omega
    have hflies := h.flies f hf hzero
    have hoff := h.off_le f hf
    obtain heq : f.off = f.stop := by omega
    rw [hput]
    have hnone : ∀ g, (none : Option (Flight σ)) ≠ some g := fun g hg => by cases hg
    refine ⟨?_, ?_, hflies.stop_le, heq ▸ hoff.2, fun g hg => absurd hg (hnone g),
      fun g hg => absurd hg (hnone g), fun g hg => absurd hg (hnone g),
      fun g hg => absurd hg (hnone g)⟩
    · intro hw
      obtain ⟨b, hb, hbarm⟩ := h.armed hw
      exact ⟨b, mem_append_left _ hb, hbarm⟩
    · have hhashed := hflies.hashed.mono (currentEpoch_sublist as (a := .putBack) rfl)
      rw [heq] at hhashed
      exact hhashed
  · have hkept : w.slot.putBack f = w.slot := if_neg hsame
    rw [hkept]
    exact h.frame rfl rfl (fun _ hg => by cases hg) .inl id rfl rfl rfl (le_refl _)

theorem Inv.step (h : Inv md5 as w) {a : Action} (hstep : w.step md5 a = some w')
    (hfew : a = .putBack → voids as < size) : Inv md5 (as ++ [a]) w' := by
  cases a with
  | arm ready =>
    obtain rfl := some.inj hstep
    exact h.arm ready
  | publish proven =>
    obtain rfl := some.inj hstep
    exact h.publish proven
  | void =>
    obtain rfl := some.inj hstep
    exact h.void
  | take =>
    obtain rfl := some.inj hstep
    exact h.frame rfl rfl (fun _ hf => hf) .inl id rfl rfl rfl (le_refl _)
  | snapshot =>
    rw [World.step] at hstep
    split at hstep
    · cases hstep
    · obtain rfl := some.inj hstep
      exact h.snapshot
  | read off bytes =>
    obtain ⟨f, hf, hdone⟩ := bind_eq_some_iff.mp hstep
    split at hdone
    case isFalse => cases hdone
    case isTrue hcan =>
      obtain ⟨rfl, -, hlen, hmax⟩ := hcan
      obtain rfl := some.inj hdone
      exact h.read hf (hlen.trans_le (min_le_left _ _)) hmax
  | fail =>
    obtain ⟨f, hf, hdone⟩ := bind_eq_some_iff.mp hstep
    split at hdone
    case isFalse => cases hdone
    case isTrue =>
      obtain rfl := some.inj hdone
      exact h.frame rfl rfl (fun _ hg => by cases hg) .inl id rfl rfl rfl (le_refl _)
  | putBack =>
    obtain ⟨f, hf, hdone⟩ := bind_eq_some_iff.mp hstep
    split at hdone
    case isFalse => cases hdone
    case isTrue hread =>
      obtain rfl := some.inj hdone
      exact h.putBack hf hread (hfew rfl)

theorem Run.inv (h : Run md5 as w) (ht : Timely as) : Inv md5 as w := by
  induction h with
  | start => exact inv_start md5
  | @snoc as a w w' hrun hstep ih =>
    exact (ih ht.of_snoc).step hstep fun ha => ht as [] (by rw [ha])

/-- What `take` hands over is the hash of the bytes up to its offset, all read since the slot was
first armed and last voided, and no byte of it is unproven. -/
theorem take_exact (h : Run md5 as w) (ht : Timely as) {offset : Nat} {state : σ}
    (htake : w.slot.take.2 = some (offset, state)) :
    Hashed md5 (currentEpoch as) offset state ∧ offset ≤ w.slot.proven := by
  have hinv := h.inv ht
  unfold PrefixSlot.take at htake
  split at htake
  · cases htake
    exact ⟨hinv.hashed, hinv.offset_le⟩
  · cases htake

end Invariant

/-! ## Runs -/

section Runs

variable {md5 : Hasher σ} {as : List Action} {w : World σ}

theorem Run.append (h : Run md5 as w) {more : List Action} {w' : World σ}
    (hmore : more.foldlM (World.step md5) w = some w') : Run md5 (as ++ more) w' := by
  induction more generalizing as w with
  | nil =>
    obtain rfl := some.inj hmore
    rwa [append_nil]
  | cons a more ih =>
    obtain ⟨w1, hstep, hrest⟩ := bind_eq_some_iff.mp hmore
    have hrun := ih (h.snoc hstep) hrest
    rwa [append_assoc, singleton_append] at hrun

theorem iterate_void (md5 : Hasher σ) (s : PrefixSlot σ) (n : Nat) :
    (PrefixSlot.void md5)^[n + 1] s =
      { s with offset := 0, proven := 0, state := md5.init, epoch := s.epoch + .ofNat (n + 1) } := by
  induction n with
  | zero => rfl
  | succ n ih =>
    rw [Function.iterate_succ_apply', ih, PrefixSlot.void, ofNat_add (n + 1) 1,
      ← UInt64.add_assoc]
    rfl

theorem Run.voids (h : Run md5 as w) (n : Nat) : Run md5 (as ++ List.replicate n .void)
    { w with slot := (PrefixSlot.void md5)^[n] w.slot } := by
  induction n with
  | zero => rwa [replicate_zero, append_nil]
  | succ n ih =>
    rw [replicate_succ', ← append_assoc]
    refine ih.snoc (congrArg some ?_)
    rw [Function.iterate_succ_apply']

theorem not_hashed (hnone : readsOf as = []) (n : Nat) (state : σ) :
    ¬ Hashed md5 as (n + 1) state := by
  rintro ⟨reads, hreads, htiles, -⟩
  rw [hnone, sublist_nil] at hreads
  subst hreads
  cases htiles

end Runs

def byteHasher : Hasher (List UInt8) where
  init := []
  update s bytes := s ++ bytes
  update_nil := List.append_nil
  update_append := List.append_assoc

/-- One proven byte, read by a step that is still in flight. -/
def oneRead : List Action := [.arm true, .publish 1, .snapshot, .read 0 [7]]

/-- The step is over, and its byte is handed over. -/
theorem take_exact_oneRead : Hashed byteHasher (currentEpoch (oneRead ++ [.putBack])) 1 [7] := by
  have hrun : Run byteHasher ([] ++ (oneRead ++ [.putBack]))
      { slot := { armed := true, proven := 1, offset := 1, state := [7] } } := Run.start.append rfl
  exact (take_exact hrun (timely_of_countP (by decide)) rfl).1

def Action.isReset : Action → Bool
  | arm _ => true
  | void => true
  | _ => false

/-- Arming an armed slot does not start it over; and 2^64 voids under a step bring its epoch back. -/
theorem take_stale :
    (∃ w, Run byteHasher (oneRead ++ [.putBack, .arm true]) w ∧ w.slot.take.2 = some (1, [7]) ∧
      ¬ Hashed byteHasher (since Action.isReset (oneRead ++ [.putBack, .arm true])) 1 [7]) ∧
    ∃ w, Run byteHasher (oneRead ++ List.replicate UInt64.size .void ++ [.putBack]) w ∧
      w.slot.take.2 = some (1, [7]) ∧ ¬ 1 ≤ w.slot.proven ∧
      ¬ Hashed byteHasher
        (since Action.isReset (oneRead ++ List.replicate UInt64.size .void ++ [.putBack])) 1 [7] := by
  constructor
  · refine ⟨{ slot := { armed := true, proven := 1, offset := 1, state := [7] } }, ?_, rfl,
      not_hashed rfl 0 _⟩
    have hrun : Run byteHasher ([] ++ (oneRead ++ [.putBack, .arm true]))
        { slot := { armed := true, proven := 1, offset := 1, state := [7] } } := Run.start.append rfl
    exact hrun
  · obtain ⟨n, hn⟩ : ∃ n, UInt64.size = n + 1 := ⟨UInt64.size - 1, rfl⟩
    have hread : Run byteHasher ([] ++ oneRead)
        { slot := { armed := true, proven := 1, state := [] }
          flight := some ⟨0, 1, 1, [7], 0⟩ } := Run.start.append rfl
    have hvoid := hread.voids UInt64.size
    have hslot : (PrefixSlot.void byteHasher)^[UInt64.size]
        { armed := true, proven := 1, state := [] } = { armed := true, state := [] } := by
      rw [hn, iterate_void, ← hn]
      rfl
    rw [hslot] at hvoid
    refine ⟨{ slot := { armed := true, offset := 1, state := [7] } }, hvoid.snoc rfl, rfl, by decide,
      not_hashed ?_ 0 _⟩
    rw [since_snoc, hn, replicate_succ', ← append_assoc, since_snoc]
    rfl

end NzbFast.Live.Prefix
