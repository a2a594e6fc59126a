import Mathlib.Data.List.Permutation
import NzbFast.Pool.Queue

/-!
# What a scan does with the queue

The log of a scan is what it pops, each with its verdict. The queue it leaves, its pick and its
report are read off the log (`scanLoop_log`), so nothing is lost and nothing comes twice.
-/

namespace NzbFast.Pool.Shared

open List

def told (v : Verdict) (log : List (Verdict × Work)) : List Work :=
  (log.filter fun x => decide (x.1 = v)).map (·.2)

@[simp] theorem told_nil (v : Verdict) : told v [] = [] := rfl

@[simp] theorem told_cons (v : Verdict) (x : Verdict × Work) (log : List (Verdict × Work)) :
    told v (x :: log) = if x.1 = v then x.2 :: told v log else told v log := by
  by_cases h : x.1 = v <;> simp [told, h]

theorem mem_told {v : Verdict} {log : List (Verdict × Work)} {w : Work} :
    w ∈ told v log ↔ (v, w) ∈ log := by
  simp [told]

/-- Every popped work has one verdict. -/
theorem told_perm (log : List (Verdict × Work)) : (told .leave log ++ (told .park log ++
    told .rotate log) ++ (told .pick log ++ told .unservable log)).Perm (log.map (·.2)) := by
  refine perm_iff_count.mpr fun w => ?_
  induction log with
  | nil => rfl
  | cons x log ih =>
    obtain ⟨v, w'⟩ := x
    cases v <;> simp only [count_append, told_cons, map_cons, count_cons, reduceCtorEq,
      if_true, if_false] at ih ⊢ <;> omega

/-- From `s`, with `rest` to pop, a scan reads as the log. -/
structure Logged (c : Scan) (spent : Nat → Mask) (rest rotated : List Work) (s r : Scanning)
    (seen tail : List Work) (log : List (Verdict × Work)) : Prop where
  split : rest = seen ++ tail
  works : log.map (·.2) = seen.map (expireHold · c.nowMs c.holdMs)
  verdicts : ∀ x ∈ log, ∃ k, c.verdict spent k x.2 = x.1
  queue : r.queue = tail ++ (rotated ++ told .rotate log)
  unservable : r.unservable = s.unservable ++ told .unservable log
  parkedKept : r.parkedKept = s.parkedKept ++ told .park log
  leftForFaster : r.leftForFaster = s.leftForFaster ++ told .leave log
  picked : r.picked.toList = told .pick log
  whole : r.picked = none → tail = []

/-- A popped work that is not the pick. -/
theorem Logged.cons {c : Scan} {spent : Nat → Mask} {rest rotated seen tail : List Work} {w : Work}
    {s s' r : Scanning} {log : List (Verdict × Work)} {k : Nat} {v : Verdict}
    (hv : c.verdict spent k (expireHold w c.nowMs c.holdMs) = v) (hpick : v ≠ .pick)
    (h : Logged c spent rest (rotated ++ told .rotate [(v, expireHold w c.nowMs c.holdMs)]) s' r
      seen tail log)
    (hu : s'.unservable = s.unservable ++ told .unservable [(v, expireHold w c.nowMs c.holdMs)])
    (hp : s'.parkedKept = s.parkedKept ++ told .park [(v, expireHold w c.nowMs c.holdMs)])
    (hl : s'.leftForFaster = s.leftForFaster ++ told .leave [(v, expireHold w c.nowMs c.holdMs)]) :
    Logged c spent (w :: rest) rotated s r (w :: seen) tail ((v, expireHold w c.nowMs c.holdMs) :: log) := by
  have happ : ∀ u, told u ((v, expireHold w c.nowMs c.holdMs) :: log) =
      told u [(v, expireHold w c.nowMs c.holdMs)] ++ told u log := fun u => by
    by_cases hu : v = u <;> simp [told, hu]
  refine ⟨by rw [h.split]; rfl, by rw [map_cons, h.works]; rfl, fun x hx => ?_, ?_, ?_, ?_, ?_, ?_,
    h.whole⟩
  · rcases mem_cons.mp hx with rfl | hx
    · exact ⟨k, hv⟩
    · exact h.verdicts x hx
  · rw [happ, h.queue, append_assoc]
  · rw [happ, h.unservable, hu, append_assoc]
  · rw [happ, h.parkedKept, hp, append_assoc]
  · rw [happ, h.leftForFaster, hl, append_assoc]
  · rw [happ, h.picked]
    simp [hpick]

theorem scanLoop_log (c : Scan) (spent : Nat → Mask) (rest : List Work) :
    ∀ (rotated : List Work) (s : Scanning), s.queue = rest ++ rotated → s.picked = none →
      ∃ seen tail log, Logged c spent rest rotated s (scanLoop c spent rest.length s) seen tail log := by
  induction rest with
  | nil =>
    intro rotated s hq hp
    exact ⟨[], [], [], rfl, rfl, nofun, by simp [scanLoop, hq], by simp [scanLoop], by simp [scanLoop],
      by simp [scanLoop], by simp [scanLoop, hp], fun _ => rfl⟩
  | cons w rest ih =>
    intro rotated s hq hp
    rw [length_cons, scanLoop]
    simp only [hq, cons_append]
    cases hv : c.verdict spent rest.length (expireHold w c.nowMs c.holdMs) with
    | pick =>
      exact ⟨[w], rest, [(.pick, expireHold w c.nowMs c.holdMs)], rfl, rfl, by simpa using ⟨_, hv⟩,
        by simp, by simp, by simp, by simp, by simp, nofun⟩
    | rotate =>
      obtain ⟨seen, tail, log, h⟩ := ih (rotated ++ [expireHold w c.nowMs c.holdMs])
        { s with queue := rest ++ rotated ++ [expireHold w c.nowMs c.holdMs] }
        (append_assoc ..) hp
      exact ⟨w :: seen, tail, _, .cons hv nofun (by simpa using h) (by simp) (by simp) (by simp)⟩
    | unservable =>
      obtain ⟨seen, tail, log, h⟩ := ih rotated { s with
        queue := rest ++ rotated, unservable := s.unservable ++ [expireHold w c.nowMs c.holdMs] } rfl hp
      exact ⟨w :: seen, tail, _, .cons hv nofun (by simpa using h) (by simp) (by simp) (by simp)⟩
    | park =>
      obtain ⟨seen, tail, log, h⟩ := ih rotated { s with
        queue := rest ++ rotated, parkedKept := s.parkedKept ++ [expireHold w c.nowMs c.holdMs] } rfl hp
      exact ⟨w :: seen, tail, _, .cons hv nofun (by simpa using h) (by simp) (by simp) (by simp)⟩
    | leave =>
      obtain ⟨seen, tail, log, h⟩ := ih rotated { s with
        queue := rest ++ rotated
        leftForFaster := s.leftForFaster ++ [expireHold w c.nowMs c.holdMs] } rfl hp
      exact ⟨w :: seen, tail, _, .cons hv nofun (by simpa using h) (by simp) (by simp) (by simp)⟩

/-- The adopted works are behind the promoted run, wherever that is. -/
theorem insert_perm (sh : Shared) (n : Nat) (w : Work) : (sh.insert n w).queue.Perm (w :: sh.queue) :=
  perm_insertIdx _ _ (min_le_right ..)

theorem adopt_perm (sh : Shared) : sh.adopt.queue.Perm (sh.queue ++ sh.steerInbox) := by
  have h : ∀ (l : List Work) (sh : Shared),
      (l.foldl (fun sh w => sh.insert (promotedRun sh.queue) w) sh).queue.Perm (sh.queue ++ l) := by
    intro l
    induction l with
    | nil => exact fun sh => .of_eq (append_nil _).symm
    | cons w l ih => exact fun sh => (ih _).trans (((insert_perm sh _ w).append_right l).trans
        (perm_middle.symm))
  exact h _ _

theorem verdict_unservable {c : Scan} {spent : Nat → Mask} {k : Nat} {w : Work} :
    c.verdict spent k w = .unservable ↔ w.tried430 &&& c.live = c.live := by
  unfold Scan.verdict
  by_cases h : w.tried430 &&& c.live = c.live
  · simp [h]
  · simp only [h, if_false, iff_false]
    split_ifs <;> nofun

/-- What the pick has passed. -/
theorem verdict_pick {c : Scan} {spent : Nat → Mask} {k : Nat} {w : Work}
    (h : c.verdict spent k w = .pick) : w.tried430 &&& c.bit = 0 ∧ c.gated spent w = false ∧
      (w.triedFail &&& c.bit = 0 ∨ c.otherCanTake k w = false) ∧ (c.endgame = false ∨ w.tried430 = 0) ∧
      c.defers k w = false ∧ (w.promoted = false ∨ w.tried430 ≠ 0 ∨ c.fasterCanTake k w = false) := by
  unfold Scan.verdict at h
  split_ifs at h with hlive hrotate hpark hleave
  simp only [Bool.or_eq_true, Bool.and_eq_true, decide_eq_true_eq, not_or, not_and] at hrotate hpark hleave
  obtain ⟨⟨⟨hbit, hgate⟩, hfail⟩, hend⟩ := hrotate
  refine ⟨not_not.mp hbit, by simpa using hgate, ?_, ?_, by simpa using hpark, ?_⟩
  · by_cases hb : w.triedFail &&& c.bit = 0
    · exact .inl hb
    · exact .inr (by simpa using hfail hb)
  · cases he : c.endgame with
    | false => exact .inl rfl
    | true => exact .inr (not_not.mp (hend he))
  · cases hp : w.promoted with
    | false => exact .inl rfl
    | true =>
      by_cases h0 : w.tried430 = 0
      · exact .inr (.inr (by simpa using hleave ⟨hp, h0⟩))
      · exact .inr (.inl h0)

theorem claims_keep (l : List Work) : ∀ sh : Shared,
    (l.foldl (fun sh w => (sh.claimDone w).1) sh).queue = sh.queue ∧
      (l.foldl (fun sh w => (sh.claimDone w).1) sh).promotedPending = sh.promotedPending := by
  induction l with
  | nil => exact fun _ => ⟨rfl, rfl⟩
  | cons w l ih => exact fun sh => ih (sh.claimDone w).1

/-- A scan of queue and inbox: `seen` is popped, an expired hold restored, and `tail` is behind the
pick. -/
structure Scanned (c : Scan) (sh : Shared) (seen tail : List Work) (log : List (Verdict × Work)) :
    Prop where
  all : (seen ++ tail).Perm (sh.queue ++ sh.steerInbox)
  works : log.map (·.2) = seen.map (expireHold · c.nowMs c.holdMs)
  kept : ((sh.nextWork c).1.queue ++ ((sh.nextWork c).2.1.toList ++ (sh.nextWork c).2.2)).Perm
    (log.map (·.2) ++ tail)
  whole : (sh.nextWork c).2.1 = none → tail = []
  unservable : ∀ w, w ∈ (sh.nextWork c).2.2 ↔ w ∈ log.map (·.2) ∧ w.tried430 &&& c.live = c.live
  picked : ∀ w, (sh.nextWork c).2.1 = some w → ∃ k, w.tried430 &&& c.bit = 0 ∧
    c.gated sh.adopt.spent w = false ∧ (w.triedFail &&& c.bit = 0 ∨ c.otherCanTake k w = false) ∧
    (c.endgame = false ∨ w.tried430 = 0) ∧ c.defers k w = false ∧
    (w.promoted = false ∨ w.tried430 ≠ 0 ∨ c.fasterCanTake k w = false)
  /-- Those left for a faster server are first, then those the park stepped past. -/
  order : ∃ behind, (sh.nextWork c).1.queue = told .leave log ++ (told .park log ++ behind)

def asked (id : Nat) (promoted : Bool) (tried430 : Mask) : Work :=
  ⟨id, id, 0, promoted, tried430, 0, false, 0, 0, 0⟩

end NzbFast.Pool.Shared
