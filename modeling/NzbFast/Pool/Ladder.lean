import Mathlib.Data.List.Perm.Subperm
import NzbFast.Pool.Queue

/-!
# The transport retry ladder

One life of an article: the connections that die with it in front, the servers that refuse it, the
workers that leave, and bodies that a decode verdict sends back. A budget is re-armed only the first
time a server spends it, and only where a live server is left to try, so the deaths end; but the
count of attempts is a `u8`, and the largest number of retries is never exceeded by it.
-/

namespace NzbFast.Pool.Shared

open List

/-- `restore_spent`. -/
def restoreSpent (sh : Shared) (id : Nat) (bits : Mask) : Shared :=
  { sh with spent := Function.update sh.spent id (sh.spent id ||| bits) }

structure Life where
  sh : Shared
  w : Work
  failed : Bool := false
  charges : Nat := 0
  /-- The servers whose exhaustion re-armed the budget. -/
  rearms : List Nat := []

inductive Event where
  /-- A connection of the server dies with the article in front, and is charged to it. -/
  | charge (si : Nat)
  | refuse (bits : Mask)
  | leave (si : Nat)
  /-- A body is handed on, and its verdict sends the article back. -/
  | handBack

namespace Life

def step (retries : Nat) (l : Life) : Event → Life
  | .charge si =>
    if l.failed || !decide (si < l.sh.servers) then l
    else match l.sh.charge retries (serverBit si) l.w with
      | (sh, some w) => { l with
        sh, w, charges := l.charges + 1
        rearms := if retries < (l.w.attempts + 1) % 256 then l.rearms ++ [si] else l.rearms }
      | (sh, none) => { l with sh, failed := true, charges := l.charges + 1 }
  | .refuse bits => { l with w := { l.w with tried430 := l.w.tried430 ||| bits } }
  | .leave si => { l with sh := { l.sh with alive := Function.update l.sh.alive si (l.sh.alive si - 1) } }
  | .handBack =>
    if l.failed then l else { l with sh := (l.sh.claimDone l.w).1.restoreSpent l.w.id (l.sh.spent l.w.id) }

def run (retries : Nat) (l : Life) (events : List Event) : Life := events.foldl (step retries) l

/-- A fresh article in a pool of so many servers. -/
def start (servers : Nat) (alive : Nat → Nat) (w : Work) : Life :=
  ⟨⟨[], 0, [], .empty, fun _ => false, fun _ => 0, servers, alive⟩, { w with attempts := 0 }, false, 0, []⟩

/-- The server is in the mask. -/
def has (m : Mask) (si : Nat) : Bool := m.getLsbD si

theorem and_serverBit (m : Mask) {si : Nat} (h : si < MAX_SERVERS) :
    m &&& serverBit si = 0 ↔ has m si = false := by
  rw [serverBit, if_pos h, ← BitVec.twoPow_eq, BitVec.and_twoPow, has]
  cases m.getLsbD si with
  | false => simp
  | true =>
    simp only [if_true, Bool.true_eq_false, iff_false]
    intro h0
    have := congrArg (BitVec.getLsbD · si) h0
    simp [show si < 32 from h] at this

theorem has_serverBit {si : Nat} (h : si < MAX_SERVERS) : has (serverBit si) si = true := by
  by_contra hno
  have h0 := (and_serverBit (serverBit si) h).mpr (by simpa using hno)
  rw [BitVec.and_self, serverBit, if_pos h, ← BitVec.twoPow_eq] at h0
  have := congrArg (BitVec.getLsbD · si) h0
  simp [show si < 32 from h] at this

/-- What a server has asked, failed or spent. -/
def touched (sh : Shared) (w : Work) (bit : Mask) : Mask :=
  w.tried430 ||| (w.triedFail ||| bit) ||| (sh.spent w.id ||| bit)

section Charge

variable {sh sh' : Shared} {w w' : Work} {retries : Nat} {bit : Mask}

/-- A charge that requeues: below the budget, or with the budget re-armed. -/
theorem charge_some (h : sh.charge retries bit w = (sh', some w')) :
    w'.id = w.id ∧ sh'.servers = sh.servers ∧
      (¬ retries < (w.attempts + 1) % 256 ∧ w'.attempts = (w.attempts + 1) % 256 ∧ sh'.spent = sh.spent ∨
        retries < (w.attempts + 1) % 256 ∧ w'.attempts = 0 ∧ sh.spent w.id &&& bit = 0 ∧
          sh'.spent = Function.update sh.spent w.id (sh.spent w.id ||| bit) ∧
          ∃ s < sh.servers, 0 < sh.alive s ∧ touched sh w bit &&& serverBit s = 0) := by
  unfold Shared.charge noteSpent at h
  dsimp only at h
  split at h
  · rename_i hex
    split at h
    · rename_i heq
      obtain ⟨rfl, hgrant⟩ := Prod.mk.inj heq
      obtain ⟨hfresh, hany⟩ := (Bool.and_eq_true ..).mp hgrant
      obtain ⟨s, hs, hlive⟩ := any_eq_true.mp hany
      cases h
      exact ⟨rfl, rfl, .inr ⟨hex, rfl, of_decide_eq_true hfresh, rfl, s, mem_range.mp hs,
        by simpa [touched] using hlive⟩⟩
    · cases h
  · rename_i hex
    cases h
    exact ⟨rfl, rfl, .inl ⟨hex, rfl, rfl⟩⟩

/-- A charge that ends the article. -/
theorem charge_none (h : sh.charge retries bit w = (sh', none)) :
    sh'.servers = sh.servers ∧ (sh.spent w.id &&& bit ≠ 0 ∨
      ∀ s < sh.servers, 0 < sh.alive s → touched sh w bit &&& serverBit s ≠ 0) := by
  unfold Shared.charge noteSpent at h
  dsimp only at h
  split at h
  · split at h
    · cases h
    · rename_i heq
      obtain ⟨rfl, hdeny⟩ := Prod.mk.inj heq
      obtain ⟨rfl, -⟩ := Prod.mk.inj h
      refine ⟨rfl, or_iff_not_imp_left.mpr fun hfresh s hs hlive h0 => ?_⟩
      refine Bool.false_ne_true (hdeny.symm.trans ?_)
      refine (Bool.and_eq_true ..).mpr ⟨decide_eq_true (not_not.mp hfresh), any_eq_true.mpr
        ⟨s, mem_range.mpr hs, by simpa [touched] using ⟨hlive, h0⟩⟩⟩
  · cases h

end Charge

/-- What the ladder has used up. -/
structure Used (retries : Nat) (l : Life) : Prop where
  bound : l.charges ≤ (retries + 1) * l.sh.servers
  nodup : l.rearms.Nodup
  spent : ∀ si ∈ l.rearms, si < l.sh.servers ∧ (l.failed = false → has (l.sh.spent l.w.id) si = true)
  room : l.rearms = [] ∨ ∃ si < l.sh.servers, si ∉ l.rearms
  charges : l.failed = false →
    l.w.attempts ≤ retries ∧ l.charges = (retries + 1) * l.rearms.length + l.w.attempts

theorem length_lt {n si : Nat} {rearms : List Nat} (hsi : si < n) (hnodup : rearms.Nodup)
    (hlt : ∀ s ∈ rearms, s < n) (hroom : rearms = [] ∨ ∃ s < n, s ∉ rearms) : rearms.length < n := by
  rcases hroom with rfl | ⟨s, hs, hnot⟩
  · exact Nat.lt_of_le_of_lt (Nat.zero_le _) hsi
  · have hsub : s :: rearms ⊆ range n := fun x hx => by
      rcases mem_cons.mp hx with rfl | hx
      · exact mem_range.mpr hs
      · exact mem_range.mpr (hlt x hx)
    have := ((nodup_cons.mpr ⟨hnot, hnodup⟩).subperm hsub).length_le
    rwa [length_cons, length_range] at this

theorem Used.step {retries : Nat} {l : Life} (hu : Used retries l) (hn : l.sh.servers ≤ MAX_SERVERS)
    (hr : retries < 255 ∨ l.sh.servers = 0) (e : Event) : Used retries (l.step retries e) := by
  cases e with
  | refuse bits => exact ⟨hu.bound, hu.nodup, hu.spent, hu.room, hu.charges⟩
  | leave si => exact ⟨hu.bound, hu.nodup, hu.spent, hu.room, hu.charges⟩
  | handBack =>
    simp only [Life.step]
    split
    · exact hu
    · refine ⟨hu.bound, hu.nodup, fun si hsi => ⟨(hu.spent si hsi).1, fun hf => ?_⟩, hu.room, hu.charges⟩
      simpa [restoreSpent, claimDone] using (hu.spent si hsi).2 hf
  | charge si =>
    simp only [Life.step]
    split
    · exact hu
    rename_i hgo
    simp only [Bool.or_eq_true, Bool.not_eq_true', decide_eq_false_iff_not, not_or, not_not,
      Bool.not_eq_true] at hgo
    obtain ⟨hf, hsi⟩ := hgo
    have h32 : si < MAX_SERVERS := lt_of_lt_of_le hsi hn
    obtain ⟨hatt, hch⟩ := hu.charges hf
    have hlen := length_lt hsi hu.nodup (fun s hs => (hu.spent s hs).1) hu.room
    have hmul := Nat.mul_le_mul_left (retries + 1) (Nat.succ_le_of_lt hlen)
    rw [Nat.mul_succ] at hmul
    have hmod : (l.w.attempts + 1) % 256 = l.w.attempts + 1 := Nat.mod_eq_of_lt (by omega)
    split
    · rename_i sh w heq
      obtain ⟨hid, hservers, ⟨hex, hw, hspent⟩ | ⟨hex, hw, hfresh, hspent, s, hs, -, hs0⟩⟩ := charge_some heq
      · rw [hmod] at hex hw
        refine ⟨?_, ?_, ?_, ?_, fun _ => ?_⟩ <;> simp only [hservers, hmod, if_neg hex]
        · omega
        · exact hu.nodup
        · exact fun s hs => ⟨(hu.spent s hs).1, fun hf => by rw [hspent, hid]; exact (hu.spent s hs).2 hf⟩
        · exact hu.room
        · omega
      · rw [hmod] at hex
        have hnew : si ∉ l.rearms := fun hmem => by
          have := (hu.spent si hmem).2 hf
          rw [(and_serverBit _ h32).mp hfresh] at this
          cases this
        have hs32 : s < MAX_SERVERS := lt_of_lt_of_le hs hn
        have huntouched := (and_serverBit _ hs32).mp hs0
        simp only [touched, has, BitVec.getLsbD_or, Bool.or_eq_false_iff] at huntouched
        refine ⟨?_, ?_, ?_, ?_, fun _ => ?_⟩ <;> simp only [hservers, hmod, if_pos hex]
        · omega
        · exact nodup_append.mpr ⟨hu.nodup, nodup_singleton si, fun a ha b hb => by
            cases mem_singleton.mp hb
            rintro rfl
            exact hnew ha⟩
        · intro s' hs'
          rw [hspent, hid, Function.update_self]
          simp only [has, BitVec.getLsbD_or, Bool.or_eq_true]
          rcases mem_append.mp hs' with h | h
          · exact ⟨(hu.spent s' h).1, fun _ => .inl ((hu.spent s' h).2 hf)⟩
          · cases mem_singleton.mp h
            exact ⟨hsi, fun _ => .inr (has_serverBit h32)⟩
        · refine .inr ⟨s, hs, fun hmem => ?_⟩
          rcases mem_append.mp hmem with h | h
          · have := (hu.spent s h).2 hf
            rw [has, huntouched.2.1] at this
            cases this
          · cases mem_singleton.mp h
            have := has_serverBit h32
            rw [has, huntouched.2.2] at this
            cases this
        · rw [length_append, length_singleton, Nat.mul_succ]
          omega
    · rename_i sh heq
      obtain ⟨hservers, -⟩ := charge_none heq
      refine ⟨?_, hu.nodup, fun s hs => ⟨?_, nofun⟩, ?_, nofun⟩ <;> simp only [hservers]
      · omega
      · exact (hu.spent s hs).1
      · exact hu.room

theorem servers_step (retries : Nat) (l : Life) (e : Event) :
    (l.step retries e).sh.servers = l.sh.servers := by
  cases e with
  | refuse bits => rfl
  | leave si => rfl
  | handBack => simp only [Life.step]; split <;> rfl
  | charge si =>
    simp only [Life.step]
    split
    · rfl
    split <;> rename_i heq
    · exact (charge_some heq).2.1
    · exact (charge_none heq).1

theorem servers_run (retries : Nat) (events : List Event) : ∀ l : Life,
    (l.run retries events).sh.servers = l.sh.servers := by
  induction events with
  | nil => exact fun _ => rfl
  | cons e events ih => exact fun l => (ih _).trans (servers_step retries l e)

theorem Used.run {retries : Nat} (events : List Event) : ∀ l : Life, Used retries l →
    l.sh.servers ≤ MAX_SERVERS → retries < 255 ∨ l.sh.servers = 0 → Used retries (l.run retries events) := by
  induction events with
  | nil => exact fun _ hu _ _ => hu
  | cons e events ih =>
    intro l hu hn hr
    refine ih _ (hu.step hn hr e) ?_ ?_ <;> rwa [servers_step]

/-- The ladder ends: a re-arm a server, so many charges in all, and no failure while a live server is
owed a go, unless the budget was spent by this one before. -/
structure Ends (retries : Nat) (l : Life) : Prop where
  rearms : l.rearms.Nodup
  charges : l.charges ≤ (retries + 1) * l.sh.servers
  failed : ∀ si, l.failed = false → (l.step retries (.charge si)).failed = true →
    l.sh.spent l.w.id &&& serverBit si ≠ 0 ∨ ∀ s < l.sh.servers, 0 < l.sh.alive s →
      touched l.sh l.w (serverBit si) &&& serverBit s ≠ 0

theorem failed_charge {retries si : Nat} {l : Life} (hf : l.failed = false)
    (h : (l.step retries (.charge si)).failed = true) : l.sh.spent l.w.id &&& serverBit si ≠ 0 ∨
      ∀ s < l.sh.servers, 0 < l.sh.alive s → touched l.sh l.w (serverBit si) &&& serverBit s ≠ 0 := by
  simp only [Life.step] at h
  split at h
  · exact absurd h (by simp [hf])
  split at h
  · exact absurd h (by simp [hf])
  · rename_i heq
    exact (charge_none heq).2

/-- With 255 retries the count wraps before it exceeds them. -/
theorem never_exceeds (n : Nat) {l : Life} (hs : 0 < l.sh.servers) (hf : l.failed = false) :
    (l.run 255 (List.replicate n (.charge 0))).charges = l.charges + n := by
  induction n generalizing l with
  | zero => rfl
  | succ n ih =>
    have hno : ¬ 255 < (l.w.attempts + 1) % 256 := by omega
    have hcharge : l.sh.charge 255 (serverBit 0) l.w = (l.sh, some { l.w with
        attempts := (l.w.attempts + 1) % 256, triedFail := l.w.triedFail ||| serverBit 0 }) := if_neg hno
    have hstep : l.step 255 (.charge 0) = { l with
        w := { l.w with attempts := (l.w.attempts + 1) % 256, triedFail := l.w.triedFail ||| serverBit 0 }
        charges := l.charges + 1 } := by
      simp [Life.step, hf, hs, hcharge, hno]
    change ((l.step 255 (.charge 0)).run 255 (replicate n (.charge 0))).charges = _
    rw [ih (by rw [hstep]; exact hs) (by rw [hstep]; exact hf), hstep, add_assoc, add_comm 1 n]

end Life

end NzbFast.Pool.Shared
