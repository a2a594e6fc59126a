import NzbFast.Disk.Writer

/-!
# A post that contradicts itself is caught

The threads' hands and the window are the traffic in front of the file: every step of a
thread is a step of `Traffic`, or leaves it as it is. When all calls have returned and the
window is empty, the latch and the coverage tell the truth about the delivered articles.
-/

namespace NzbFast.Disk

open Wire FileWriter Function Thread World Multiset List
open WriteStage (runBytes stagedBytes)
open Traffic (Inv)

def Phase.mark : Phase → Mark
  | .ready => .ready
  | .written => .written
  | _ => .published

def Cont.pass : Cont → Pass
  | .gate => .outside
  | .read prior => .comparing prior
  | _ => .cleared

def Pc.pass : Pc → Pass
  | .start | .enter _ => .outside
  | .compare prior | .read prior => .comparing prior
  | .flush k | .lockAll k | .takeAll k | .lockRuns _ k | .flushing _ _ k => k.pass
  | _ => .cleared

def ready (l : List (Nat × UInt8)) : List Held := l.map fun p => ⟨p.1, p.2, .ready⟩

/-- The bytes of its own article that a call still carries. -/
def Cont.own (i o : Nat) (d : List UInt8) : Cont → List Held
  | .read _ => hold (.fresh i) o d
  | .complete held | .leave held => if held then [] else hold .ready o d
  | _ => []

def Pc.own (i o : Nat) (d : List UInt8) : Pc → List Held
  | .compare _ | .read _ => hold (.fresh i) o d
  | .offer => hold .ready o d
  | .flush k | .lockAll k | .takeAll k | .lockRuns _ k | .flushing _ _ k => k.own i o d
  | .complete held | .completeStaged held _ | .leave held => if held then [] else hold .ready o d
  | .direct phase => hold phase.mark o d
  | _ => []

def Pc.runs : Pc → List Held
  | .lockRuns runs _ => ready (stagedBytes runs)
  | .flushing (run :: runs) phase _ =>
    hold phase.mark run.start run.buf ++ ready (stagedBytes runs)
  | _ => []

def Thread.held (i : Nat) (t : Thread) : List Held := t.pc.own i t.offset t.data ++ t.pc.runs

def FileWriter.stageHeld (w : FileWriter) : List Held :=
  match w.stage with
  | none => []
  | some st => ready (runBytes st.runs)

/-- The bytes in the hands of the threads from index `n` on. -/
def handsHeld : Nat → List Thread → List Held
  | _, [] => []
  | n, t :: ts => t.held n ++ handsHeld (n + 1) ts

def traffic (w : FileWriter) (held : List Held) (arts : List (Nat × List UInt8)) (pass : Nat → Pass) :
    Traffic := ⟨w.disk, w.intervals, w.conflict.isSome, w.gate, held, arts, pass⟩

def World.arts (W : World) : List (Nat × List UInt8) := W.threads.map fun t => (t.offset, t.data)

def World.pass (W : World) (i : Nat) : Pass := (W.threads[i]?.map fun t => t.pc.pass).getD .outside

def World.traffic (W : World) : Traffic :=
  Disk.traffic W.w (W.w.stageHeld ++ handsHeld 0 W.threads) W.arts W.pass

/-! ## One thread among the others -/

theorem handsHeld_set : ∀ {threads : List Thread} {i : Nat} {t : Thread} (n : Nat),
    threads[i]? = some t → ∃ rest, (handsHeld n threads).Perm (t.held (n + i) ++ rest) ∧
      ∀ t' : Thread, (handsHeld n (threads.set i t')).Perm (t'.held (n + i) ++ rest)
  | [], _, _, _, h => by cases h
  | u :: threads, 0, t, n, h => by
    cases h
    exact ⟨handsHeld (n + 1) threads, .refl _, fun t' => .refl _⟩
  | u :: threads, i + 1, t, n, h => by
    obtain ⟨rest, hold, hnew⟩ := @handsHeld_set threads i t (n + 1) h
    have hidx : n + 1 + i = n + (i + 1) := by omega
    rw [hidx] at hold hnew
    have hswap : ∀ a b : List Held, (u.held n ++ (a ++ b)).Perm (a ++ (u.held n ++ b)) := by
      intro a b
      rw [← append_assoc, ← append_assoc]
      exact perm_append_comm.append_right b
    refine ⟨u.held n ++ rest, ?_, fun t' => ?_⟩
    · exact (hold.append_left _).trans (hswap _ _)
    · exact ((hnew t').append_left _).trans (hswap _ _)

variable {W : World} {i : Nat} {t : Thread}

theorem World.arts_set (h : W.threads[i]? = some t) (w : FileWriter) (pc : Pc) :
    (World.mk w (W.threads.set i { t with pc })).arts = W.arts := by
  apply ext_getElem?
  intro j
  simp only [arts, getElem?_map, getElem?_set]
  split
  · subst_vars
    split
    · rw [h]
      rfl
    · rw [h]
      have := (List.getElem?_eq_some_iff.mp h).1
      omega
  · rfl

theorem World.pass_set (h : W.threads[i]? = some t) (w : FileWriter) (pc : Pc) :
    (World.mk w (W.threads.set i { t with pc })).pass =
      Function.update W.pass i pc.pass := by
  funext j
  simp only [pass]
  rcases eq_or_ne j i with rfl | hj
  · rw [update_self, getElem?_set_self (List.getElem?_eq_some_iff.mp h).1]
    rfl
  · rw [update_of_ne hj, getElem?_set_ne hj.symm]
    rfl

theorem World.pass_of (h : W.threads[i]? = some t) : W.pass i = t.pc.pass := by
  rw [pass, h]
  rfl

/-! ## Steps -/

section

variable {w w' : FileWriter} {l l' : List Held} {arts : List (Nat × List UInt8)} {pass : Nat → Pass}

/-- A step that touches neither file, ledger, latch nor gate. -/
theorem inv_silent (h : Inv (traffic w l arts pass)) (hdisk : w'.disk = w.disk)
    (hivs : w'.intervals = w.intervals) (hconflict : w'.conflict = w.conflict)
    (hgate : w'.gate = w.gate) (hp : l'.Perm l) {i : Nat} {p : Pass} (hpass : pass i = p) :
    Inv (traffic w' l' arts (Function.update pass i p)) := by
  have hupdate : update pass i p = pass := by rw [← hpass, update_eq_self]
  have hperm := h.perm hp
  unfold traffic at hperm ⊢
  rw [hupdate, hdisk, hivs, hconflict, hgate]
  exact hperm

theorem perm_bring (a b c d x : List Held) :
    (a ++ ((b ++ (x ++ c)) ++ d)).Perm (x ++ (a ++ (b ++ c ++ d))) := by
  rw [← coe_eq_coe]
  simp only [← coe_add]
  abel

theorem ready_append (a b : List (Nat × UInt8)) : ready (a ++ b) = ready a ++ ready b :=
  map_append

theorem ready_spread (s : Nat) (v : List UInt8) : ready (spread s v) = hold .ready s v := rfl

variable {phase : Phase} {d : List UInt8}

/-- A call that carries a span through `write_at_raw`. -/
theorem inv_writeStep {s : Nat} {buf : List UInt8} {rest : List Held}
    (h : Inv (traffic w (hold phase.mark s buf ++ rest) arts pass)) :
    Inv (traffic (w.writeStep s buf phase).1
      (hold (w.writeStep s buf phase).2.mark s buf ++ rest) arts pass) := by
  cases phase with
  | ready => exact h.write rfl
  | written => exact h.publish rfl
  | published fresh => exact h
  | counted => exact h
  | landed => exact h

/-- A read-back differs exactly where some byte does. -/
theorem disagrees_eq_false {o : Nat} {d : List UInt8} {r : Nat × Nat}
    (hspan : ∀ x, r.1 ≤ x ∧ x < r.2 → ∃ b, byteAt o d x = some b) :
    w.disagrees o d r = false ↔ ∀ x b, r.1 ≤ x ∧ x < r.2 → byteAt o d x = some b → w.disk x = b := by
  have hval : ∀ k b, k < r.2 - r.1 → byteAt o d (r.1 + k) = some b →
      ((d.drop (r.1 - o)).take (r.2 - r.1))[k]? = some b := by
    intro k b hk hb
    have hr := byteAt_some_range hb
    have hstart := byteAt_some_range (hspan r.1 ⟨le_refl _, by omega⟩).choose_spec
    rw [byteAt, if_pos hr.1] at hb
    rw [getElem?_take_of_lt hk, getElem?_drop, show r.1 - o + k = r.1 + k - o by omega, hb]
  have hread : ∀ k, k < r.2 - r.1 → (pread w.disk r.1 (r.2 - r.1))[k]? = some (w.disk (r.1 + k)) := by
    intro k hk
    simp [pread, hk]
  unfold disagrees
  rw [decide_eq_false_iff_not, not_not]
  constructor
  · intro heq x b hx hb
    have hk : x - r.1 < r.2 - r.1 := by omega
    have hx' : r.1 + (x - r.1) = x := by omega
    have h₁ := hread (x - r.1) hk
    rw [heq, hval (x - r.1) b hk (hx'.symm ▸ hb), hx'] at h₁
    exact (Option.some.inj h₁).symm
  · intro hall
    apply ext_getElem?
    intro k
    by_cases hk : k < r.2 - r.1
    · obtain ⟨b, hb⟩ := hspan (r.1 + k) (by omega)
      rw [hread k hk, hval k b hk hb, hall (r.1 + k) b (by omega) hb]
    · rw [getElem?_eq_none (by simp [pread]; omega),
        getElem?_eq_none (by simp; omega)]

variable {env : Env} {i : Nat} {t : Thread} {pc : Pc} {rest : List Held}

theorem says_iff {tr : Traffic} (hart : tr.arts[i]? = some (t.offset, t.data)) {x : Nat} {b : UInt8} :
    tr.Says i x b ↔ byteAt t.offset t.data x = some b := by
  refine ⟨?_, fun hb => ⟨_, _, hart, hb⟩⟩
  rintro ⟨o, d, ha, hb⟩
  cases hart.symm.trans ha
  exact hb

theorem inv_read {r : Nat × Nat} {prior : List (Nat × Nat)}
    (h : Inv (traffic w l arts pass)) (hart : arts[i]? = some (t.offset, t.data))
    (hi : pass i = .comparing (r :: prior)) :
    Inv (traffic
      (if w.disagrees t.offset t.data r then
        { w with conflict := some (w.conflict.getD (r.1, r.2 - r.1)) } else w) l arts
      (update pass i (.comparing (if w.disagrees t.offset t.data r then [] else prior)))) := by
  have hword : ∀ {x b}, (traffic w l arts pass).Says i x b ↔ byteAt t.offset t.data x = some b :=
    says_iff hart
  have hspan : ∀ x, r.1 ≤ x ∧ x < r.2 → ∃ b, byteAt t.offset t.data x = some b := by
    intro x hx
    obtain ⟨-, b, hb⟩ := h.prior i _ hi x (covers_cons.mpr (.inl hx))
    exact ⟨b, hword.mp hb⟩
  cases hd : w.disagrees t.offset t.data r with
  | false =>
    refine h.compareOne hi fun x b hx hs => ?_
    exact (disagrees_eq_false hspan).mp hd x b hx (hword.mp hs)
  | true =>
    have hne : ¬ ∀ x b, r.1 ≤ x ∧ x < r.2 → byteAt t.offset t.data x = some b → w.disk x = b := by
      rw [← disagrees_eq_false hspan, hd]
      exact Bool.noConfusion
    push Not at hne
    obtain ⟨x, b, hx, hb, hne⟩ := hne
    exact h.latch hi (covers_cons.mpr (.inl hx)) (hword.mpr hb) hne

theorem inv_enter (h : Inv (traffic w l arts pass)) (hart : arts[i]? = some (t.offset, t.data))
    (hi : pass i = .outside) (hfree : ¬ w.gateBusy t.offset t.stop = true) :
    Inv (traffic { w with gate := w.gate ++ [(t.offset, t.stop)] } (hold (.fresh i) t.offset t.data ++ l)
      arts (update pass i
        (.comparing (coveredIntervals w.intervals t.offset t.data.length)))) := by
  refine h.enter hart hi fun e he hmeet => hfree ?_
  exact any_eq_true.mpr ⟨e, he, decide_eq_true hmeet⟩

/-- The bytes an article offered are in the window, in the runs to write, or still its own. -/
theorem offer_held (env : Env) (o : Nat) (hd : d ≠ []) (caps : Caps) {st : WriteStage}
    {expired : List StagedRun × WriteStage}
    (hexp : (stagedBytes expired.1 ++ runBytes expired.2.runs).Perm (runBytes st.runs)) :
    (ready (runBytes (expired.2.offer o d caps env).2.2.runs) ++
      ((if (expired.2.offer o d caps env).2.1 then [] else hold .ready o d) ++
        ready (stagedBytes (expired.1 ++ (expired.2.offer o d caps env).1)))).Perm
      (ready (runBytes st.runs) ++ hold .ready o d) := by
  have hoff := WriteStage.offer_bytes expired.2 o hd caps env
  have hall : (stagedBytes (expired.1 ++ (expired.2.offer o d caps env).1) ++
      runBytes (expired.2.offer o d caps env).2.2.runs).Perm
      (runBytes st.runs ++ if (expired.2.offer o d caps env).2.1 then spread o d else []) := by
    refine (WriteStage.take_trans (.refl _) hoff).trans ?_
    rw [← append_assoc]
    exact hexp.append_right _
  have hmap := hall.map fun p => (⟨p.1, p.2, .ready⟩ : Held)
  rw [map_append, map_append] at hmap
  rw [← coe_eq_coe] at hmap ⊢
  simp only [← coe_add] at hmap ⊢
  cases hh : (expired.2.offer o d caps env).2.1 with
  | true =>
    rw [hh, if_pos rfl] at hmap
    rw [if_pos rfl]
    refine Eq.trans ?_ hmap
    simp only [ready]
    rw [coe_nil, zero_add, add_comm]
  | false =>
    rw [hh, if_neg Bool.noConfusion, map_nil, coe_nil, add_zero] at hmap
    rw [if_neg Bool.noConfusion]
    have hr : (↑(ready (runBytes st.runs)) : Multiset Held) = _ := hmap.symm
    rw [hr]
    simp only [ready]
    abel

/-- Where a call without bytes can be when there is a window. -/
def Pc.Idle : Pc → Prop
  | .start | .done => True
  | .flush k | .lockAll k | .takeAll k | .lockRuns _ k | .flushing _ _ k => k = .done
  | _ => False

theorem Cont.own_pc (k : Cont) (o : Nat) (d : List UInt8) : k.pc.own i o d = k.own i o d := by
  cases k <;> rfl

theorem Cont.runs_pc (k : Cont) : k.pc.runs = [] := by cases k <;> rfl

theorem Cont.pass_pc (k : Cont) : k.pc.pass = k.pass := by cases k <;> rfl

/-- Strikes of entries inside a run leave every byte outside it under its entries. -/
theorem covers_strikeRange {gate : List (Nat × Nat)} {start stop x : Nat} (h : Covers gate x) :
    Covers (gate.filter fun e => !decide (start ≤ e.1 ∧ e.2 ≤ stop)) x ∨ (start ≤ x ∧ x < stop) := by
  obtain ⟨e, he, hx⟩ := h
  by_cases hin : start ≤ e.1 ∧ e.2 ≤ stop
  · exact .inr ⟨by omega, by omega⟩
  · refine .inl ⟨e, mem_filter.mpr ⟨he, ?_⟩, hx⟩
    rw [Bool.not_eq_true', decide_eq_false_iff_not]
    exact hin

theorem covers_strikeOne {gate : List (Nat × Nat)} {start stop x : Nat} (h : Covers gate x) :
    Covers (gate.erase (start, stop)) x ∨ (start ≤ x ∧ x < stop) := by
  obtain ⟨e, he, hx⟩ := h
  by_cases hin : e = (start, stop)
  · subst hin
    exact .inr hx
  · exact .inl ⟨e, (List.mem_erase_of_ne hin).mpr he, hx⟩

theorem stageHeld_landed (start stop : Nat) : (w.landed start stop).stageHeld = w.stageHeld := by
  unfold landed
  split
  · rfl
  · rename_i st hst
    simp only [stageHeld, hst]
    rfl

theorem runs_flushing (runs : List StagedRun) (k : Cont) :
    (Pc.flushing runs .ready k).runs = ready (stagedBytes runs) := by
  cases runs with
  | nil => rfl
  | cons run runs =>
    rw [WriteStage.stagedBytes_cons, ready_append, ready_spread]
    rfl

theorem inv_flushing {o : Nat} {runs : List StagedRun} {k : Cont}
    (h : Inv (traffic w (w.stageHeld ++ (Thread.held i ⟨o, d, .flushing runs phase k⟩ ++ rest)) arts pass))
    (hpass : pass i = k.pass) (hn : next env i w ⟨o, d, .flushing runs phase k⟩ = some (w', pc)) :
    Inv (traffic w' (w'.stageHeld ++ (Thread.held i ⟨o, d, pc⟩ ++ rest)) arts
      (Function.update pass i pc.pass)) := by
  cases runs with
  | nil =>
    cases hn
    refine inv_silent h rfl rfl rfl rfl ?_ (hpass.trans (Cont.pass_pc k).symm)
    rw [held, Cont.own_pc, Cont.runs_pc]
    exact .refl _
  | cons run runs =>
    -- The first run's bytes to the front, and back.
    have hbring : ∀ (m : Mark) (a : List Held),
        (a ++ ((k.own i o d ++ (hold m run.start run.buf ++ ready (stagedBytes runs))) ++ rest)).Perm
        (hold m run.start run.buf ++ (a ++ (k.own i o d ++ ready (stagedBytes runs) ++ rest))) :=
      fun m a => perm_bring _ _ _ _ _
    have hfront := h.perm (hbring phase.mark w.stageHeld).symm
    have hsame : update pass i k.pass = pass := by rw [← hpass, update_eq_self]
    cases phase with
    | counted =>
      cases hn
      refine inv_silent h ?_ ?_ ?_ ?_ ?_ hpass
      · unfold landed; cases w.stage <;> rfl
      · unfold landed; cases w.stage <;> rfl
      · unfold landed; cases w.stage <;> rfl
      · unfold landed; cases w.stage <;> rfl
      · rw [stageHeld_landed]
        exact .refl _
    | landed =>
      cases hn
      have hstruck := hfront.strike rfl fun x hx => covers_strikeRange hx
      rw [Pc.pass, hsame]
      refine hstruck.perm ?_
      rw [held, runs_flushing]
      exact .refl _
    | _ =>
      cases hn
      have hstep := inv_writeStep hfront
      rw [Pc.pass, hsame]
      exact hstep.perm (hbring _ _)

/-- The article's own write. -/
theorem inv_direct {o : Nat}
    (h : Inv (traffic w (w.stageHeld ++ (Thread.held i ⟨o, d, .direct phase⟩ ++ rest)) arts pass))
    (hpass : pass i = .cleared) (hn : next env i w ⟨o, d, .direct phase⟩ = some (w', pc)) :
    Inv (traffic w' (w'.stageHeld ++ (Thread.held i ⟨o, d, pc⟩ ++ rest)) arts
      (Function.update pass i pc.pass)) := by
  have hbring : ∀ (m : Mark) (a : List Held), (a ++ ((hold m o d ++ []) ++ rest)).Perm
      (hold m o d ++ (a ++ rest)) := by
    intro m a
    rw [append_nil, ← append_assoc, ← append_assoc]
    exact perm_append_comm.append_right rest
  have hfront := h.perm (hbring phase.mark w.stageHeld).symm
  have hsame : update pass i .cleared = pass := by rw [← hpass, update_eq_self]
  cases phase with
  | counted =>
    cases hn
    have hstruck := hfront.strike rfl fun x hx => covers_strikeOne hx
    have hpc : ∀ c : Bool, (if c then Pc.last else Pc.done).pass = .cleared ∧
        held i ⟨o, d, if c then Pc.last else Pc.done⟩ = [] := by
      intro c
      cases c <;> exact ⟨rfl, rfl⟩
    rw [(hpc _).1, hsame, (hpc _).2]
    exact hstruck
  | _ =>
    cases hn
    have hstep := inv_writeStep hfront
    show Inv (traffic _ _ arts (update pass i .cleared))
    rw [hsame]
    exact hstep.perm (hbring _ _)

/-- A thread's step is a step of the traffic. -/
theorem inv_next (hart : arts[i]? = some (t.offset, t.data)) (hpass : pass i = t.pc.pass)
    (hidle : w.stage.isSome → t.data = [] → t.pc.Idle)
    (h : Inv (traffic w (w.stageHeld ++ (t.held i ++ rest)) arts pass))
    (hn : next env i w t = some (w', pc)) :
    Inv (traffic w' (w'.stageHeld ++ (Thread.held i { t with pc } ++ rest)) arts
      (Function.update pass i pc.pass)) := by
  obtain ⟨o, d, tpc⟩ := t
  cases tpc with
  | start =>
    simp only [next] at hn
    split at hn
    · cases hn
      exact inv_silent h rfl rfl rfl rfl (.refl _) hpass
    · split at hn
      · rename_i hd
        cases hn
        subst hd
        exact h.skip hart hpass
      · cases hn
        exact inv_silent h rfl rfl rfl rfl (.refl _) hpass
  | enter mayFlush =>
    simp only [next] at hn
    split at hn
    · split at hn
      · cases hn
        exact inv_silent h rfl rfl rfl rfl (.refl _) hpass
      · cases hn
    · rename_i hfree
      cases hn
      refine (inv_enter h hart hpass hfree).perm ?_
      exact (perm_bring w.stageHeld [] [] rest _).trans (.refl _)
  | compare prior =>
    cases prior with
    | nil =>
      cases hn
      have hfront := h.perm (perm_bring w.stageHeld [] [] rest (hold (.fresh i) o d)).symm
      have hclear := hfront.clear hart hpass rfl
      cases hst : w.stage.isSome with
      | true => exact hclear.perm (perm_bring w.stageHeld [] [] rest (hold .ready o d))
      | false => exact hclear.perm (perm_bring w.stageHeld [] [] rest (hold .ready o d))
    | cons range prior =>
      simp only [next] at hn
      split at hn
      · cases hn
        exact inv_silent h rfl rfl rfl rfl (.refl _) hpass
      · cases hn
        exact inv_silent h rfl rfl rfl rfl (.refl _) hpass
  | read prior =>
    cases prior with
    | nil =>
      cases hn
      exact inv_silent h rfl rfl rfl rfl (.refl _) hpass
    | cons range prior =>
      have hread := inv_read h hart hpass
      simp only [next] at hn
      split at hn
      · rename_i hd
        cases hn
        rw [if_pos hd, if_pos hd] at hread
        exact hread
      · rename_i hd
        cases hn
        rw [if_neg hd, if_neg hd] at hread
        exact hread
  | offer =>
    simp only [next] at hn
    split at hn
    · cases hn
    · rename_i st hst
      have hd : d ≠ [] := fun hd => (hidle (by rw [hst]; rfl) hd).elim
      generalize hexp : (if w.caps.age = 0 then ([], st) else st.takeExpired env.expiry w.caps.age) =
        expired at hn
      have hbytes : (stagedBytes expired.1 ++ runBytes expired.2.runs).Perm (runBytes st.runs) := by
        rw [← hexp]
        split
        · exact .refl _
        · exact WriteStage.takeExpiredLoop_bytes _ _ _ st
      have hheld := offer_held env o hd w.caps hbytes
      have hsort := mergeSort_perm (expired.1 ++ (expired.2.offer o d w.caps env).1)
        fun a b => decide (a.start ≤ b.start)
      have hstage : w.stageHeld = ready (runBytes st.runs) := by rw [stageHeld, hst]
      have hlist : ∀ a b : List Held, (a ++ b).Perm (w.stageHeld ++ hold .ready o d) →
          (a ++ (b ++ rest)).Perm (w.stageHeld ++ (held i ⟨o, d, .offer⟩ ++ rest)) := by
        intro a b hab
        rw [← append_assoc, ← append_assoc]
        refine hab.append_right rest |>.trans ?_
        show ((w.stageHeld ++ hold .ready o d) ++ rest).Perm
          ((w.stageHeld ++ (hold .ready o d ++ [])) ++ rest)
        rw [append_nil]
      rw [← hstage] at hheld
      split at hn
      · rename_i hnil
        cases hn
        refine inv_silent h rfl rfl rfl rfl (hlist _ _ ?_) hpass
        refine List.Perm.trans ?_ hheld
        have hnil' := perm_nil.mp (hnil ▸ hsort.symm)
        rw [hnil']
        exact .refl _
      · cases hn
        refine inv_silent h rfl rfl rfl rfl (hlist _ _ ?_) hpass
        refine List.Perm.trans ?_ hheld
        refine List.Perm.append_left _ (List.Perm.append_left _ ?_)
        exact (WriteStage.stagedBytes_perm hsort).map _
  | flush k =>
    simp only [next] at hn
    split at hn
    · cases hn
      refine inv_silent h rfl rfl rfl rfl ?_ (hpass.trans (Cont.pass_pc k).symm)
      rw [held, Cont.own_pc, Cont.runs_pc]
      exact .refl _
    · cases hn
      exact inv_silent h rfl rfl rfl rfl (.refl _) hpass
  | lockAll k =>
    simp only [next] at hn
    split at hn
    · cases hn
    · cases hn
      exact inv_silent h rfl rfl rfl rfl (.refl _) hpass
  | takeAll k =>
    simp only [next] at hn
    split at hn
    · cases hn
    · rename_i st hst
      cases hn
      refine inv_silent h rfl rfl rfl rfl ?_ hpass
      have htake := (WriteStage.takeAll_bytes st).map fun p => (⟨p.1, p.2, .ready⟩ : Held)
      have hstage : w.stageHeld = ready (runBytes st.runs) := by rw [stageHeld, hst]
      rw [hstage, held, runs_flushing]
      show ([] ++ ((k.own i o d ++ ready (stagedBytes st.takeAll.1)) ++ rest)).Perm
        (ready (runBytes st.runs) ++ ((k.own i o d ++ []) ++ rest))
      rw [nil_append, append_nil, ← append_assoc]
      exact (perm_append_comm.trans (htake.append_right _)).append_right rest
  | lockRuns runs k =>
    simp only [next] at hn
    split at hn
    · cases hn
    · cases hn
      refine inv_silent h rfl rfl rfl rfl ?_ hpass
      rw [held, runs_flushing]
      exact .refl _
  | flushing runs phase k => exact inv_flushing h hpass hn
  | complete held =>
    cases hn
    exact inv_silent h rfl rfl rfl rfl (.refl _) hpass
  | completeStaged held covered =>
    simp only [next] at hn
    split at hn
    · cases hn
      exact inv_silent h rfl rfl rfl rfl (.refl _) hpass
    · cases hn
      exact inv_silent h rfl rfl rfl rfl (.refl _) hpass
  | leave held =>
    cases hn
    cases held with
    | true => exact inv_silent h rfl rfl rfl rfl (.refl _) hpass
    | false => exact inv_silent h rfl rfl rfl rfl (.refl _) hpass
  | direct phase => exact inv_direct h hpass hn
  | last =>
    simp only [next] at hn
    split at hn
    · cases hn
      exact inv_silent h rfl rfl rfl rfl (.refl _) hpass
    · cases hn
      exact inv_silent h rfl rfl rfl rfl (.refl _) hpass
  | done => cases hn

theorem stage_writeStep (o : Nat) (d : List UInt8) (phase : Phase) :
    (w.writeStep o d phase).1.stage = w.stage := by
  cases phase <;> rfl

theorem next_stage (hn : next env i w t = some (w', pc)) : w'.stage.isSome = w.stage.isSome := by
  unfold next at hn
  split at hn <;> grind [landed, stage_writeStep]

theorem Cont.idle_pc {k : Cont} (h : k = .done) : k.pc.Idle := by
  subst h
  exact trivial

theorem next_idle (hs : w.stage.isSome) (hd : t.data = []) (hidle : t.pc.Idle)
    (hn : next env i w t = some (w', pc)) : pc.Idle := by
  obtain ⟨o, d, tpc⟩ := t
  subst hd
  cases tpc with
  | start =>
    simp only [next] at hn
    split at hn
    · rename_i hst
      rw [hst] at hs
      cases hs
    · rw [if_pos trivial] at hn
      cases hn
      exact trivial
  | flush k =>
    simp only [next] at hn
    split at hn
    · cases hn
      exact Cont.idle_pc hidle
    · cases hn
      exact hidle
  | lockAll k =>
    simp only [next] at hn
    split at hn <;> cases hn
    exact hidle
  | takeAll k =>
    simp only [next] at hn
    split at hn <;> cases hn
    exact hidle
  | lockRuns runs k =>
    simp only [next] at hn
    split at hn <;> cases hn
    exact hidle
  | flushing runs phase k =>
    cases runs with
    | nil =>
      cases hn
      exact Cont.idle_pc hidle
    | cons run runs =>
      cases phase with
      | _ =>
        cases hn
        exact hidle
  | done => cases hn
  | _ => exact hidle.elim

end

/-! ## Runs -/

structure World.Inv (W : World) : Prop where
  traffic : Traffic.Inv W.traffic
  idle : W.w.stage.isSome → ∀ t ∈ W.threads, t.data = [] → t.pc.Idle

theorem inv_step (h : W.Inv) (s : Env × Nat) : (step W s).Inv := by
  unfold step
  split
  · exact h
  · rename_i t ht
    split
    · exact h
    · rename_i w pc hn
      obtain ⟨rest, hold, hnew⟩ := handsHeld_set 0 ht
      have hidx : 0 + s.2 = s.2 := zero_add _
      rw [hidx] at hold hnew
      have hmem : t ∈ W.threads := mem_of_getElem? ht
      constructor
      · have hart : W.arts[s.2]? = some (t.offset, t.data) := by
          rw [arts, getElem?_map, ht]
          rfl
        have hbefore := h.traffic.perm (hold.symm.append_left W.w.stageHeld)
        have hafter := inv_next hart (pass_of ht) (fun hs => h.idle hs t hmem) hbefore hn
        rw [World.traffic, World.arts_set ht, World.pass_set ht]
        exact hafter.perm ((hnew { t with pc }).append_left _)
      · intro hs u hu hd
        have hs' : W.w.stage.isSome := next_stage hn ▸ hs
        rcases mem_or_eq_of_mem_set hu with hu | rfl
        · exact h.idle hs' u hu hd
        · have hd : t.data = [] := hd
          exact next_idle hs' hd (h.idle hs' t hmem hd) hn

theorem arts_step (W : World) (s : Env × Nat) : (step W s).arts = W.arts := by
  unfold step
  split
  · rfl
  · rename_i t ht
    split
    · rfl
    · exact arts_set ht _ _

theorem inv_run (steps : List (Env × Nat)) : ∀ {W : World}, W.Inv →
    (run W steps).Inv ∧ (run W steps).arts = W.arts := by
  induction steps with
  | nil => exact fun h => ⟨h, rfl⟩
  | cons s steps ih =>
    intro W h
    obtain ⟨hinv, harts⟩ := ih (inv_step h s)
    exact ⟨hinv, harts.trans (arts_step W s)⟩

/-- A new writer, the calls that deliver the articles and the calls of `flush_staged`. -/
def World.new (size : Nat) (caps : Caps) (window : Bool) (articles : List (Nat × List UInt8))
    (flushes : Nat) : World :=
  ⟨.new size caps window,
    articles.map (fun a => .article a.1 a.2) ++ List.replicate flushes .flushStaged⟩

theorem handsHeld_eq_nil : ∀ (n : Nat) {threads : List Thread}, (∀ t ∈ threads, ∀ i, t.held i = []) →
    handsHeld n threads = []
  | _, [], _ => rfl
  | n, t :: threads, h => by
    rw [handsHeld, h t (.head _) n, nil_append]
    exact handsHeld_eq_nil (n + 1) fun u hu => h u (mem_cons_of_mem t hu)

theorem inv_new (size : Nat) (caps : Caps) (window : Bool) (articles : List (Nat × List UInt8))
    (flushes : Nat) : (World.new size caps window articles flushes).Inv := by
  have hmem : ∀ t ∈ (new size caps window articles flushes).threads,
      (t.pc = .start ∨ t = .flushStaged) := by
    intro t ht
    rcases mem_append.mp ht with ht | ht
    · obtain ⟨a, -, rfl⟩ := mem_map.mp ht
      exact .inl rfl
    · exact .inr (List.eq_of_mem_replicate ht)
  constructor
  · have hhands : handsHeld 0 (new size caps window articles flushes).threads = [] := by
      refine handsHeld_eq_nil 0 fun t ht i => ?_
      rcases hmem t ht with hpc | rfl
      · rw [held, hpc]
        rfl
      · rfl
    have hstage : (new size caps window articles flushes).w.stageHeld = [] := by
      cases window <;> rfl
    rw [World.traffic, hhands, hstage]
    refine Traffic.inv_start fun i => ?_
    rw [World.pass]
    cases ht : (new size caps window articles flushes).threads[i]? with
    | none => exact .inl rfl
    | some t =>
      rcases hmem t (mem_of_getElem? ht) with hpc | rfl
      · refine .inl ?_
        rw [Option.map_some, Option.getD_some, hpc]
        rfl
      · refine .inr ⟨rfl, fun o d ha => ?_⟩
        rw [arts, getElem?_map, ht] at ha
        cases ha
        rfl
  · intro _ t ht _
    rcases hmem t ht with hpc | rfl
    · rw [hpc]
      exact trivial
    · exact rfl

theorem says_new {size : Nat} {caps : Caps} {window : Bool} {articles : List (Nat × List UInt8)}
    {flushes : Nat} {tr : Traffic}
    (harts : tr.arts = (World.new size caps window articles flushes).arts) {x : Nat} {b : UInt8} :
    tr.Says i x b ↔
      ∃ a, articles[i]? = some a ∧ byteAt a.1 a.2 x = some b := by
  have hget : ∀ o d, tr.arts[i]? = some (o, d) → d ≠ [] → articles[i]? = some (o, d) := by
    intro o d ha hd
    rw [harts, World.arts, World.new, List.map_append, List.map_map, List.map_replicate,
      getElem?_append] at ha
    split at ha
    · simpa [article] using ha
    · have := List.eq_of_mem_replicate (List.mem_of_getElem? ha)
      cases this
      exact absurd rfl hd
  constructor
  · rintro ⟨o, d, ha, hb⟩
    refine ⟨(o, d), hget o d ha ?_, hb⟩
    rintro rfl
    rw [byteAt_nil] at hb
    cases hb
  · rintro ⟨a, ha, hb⟩
    refine ⟨a.1, a.2, ?_, hb⟩
    rw [harts, World.arts, World.new, map_append, getElem?_append_left]
    · simp [ha, article]
    · simpa using (List.getElem?_eq_some_iff.mp ha).1

/-- Once all calls have returned and the window is empty, the latch is up exactly when two of the
articles state different values for a byte both cover, every delivered byte is covered and on disk
with a value some article delivered for it, and nothing else is covered. -/
theorem conflict_caught (size : Nat) (caps : Caps) (window : Bool)
    (articles : List (Nat × List UInt8)) (flushes : Nat) (steps : List (Env × Nat)) (W : World)
    (hW : W = run (World.new size caps window articles flushes) steps)
    (hdone : ∀ t ∈ W.threads, t.pc = .done) (hflushed : ∀ st, W.w.stage = some st → st.runs = []) :
    (W.w.hadConflictingRewrite = true ↔ ∃ (i j : Nat) (a b : Nat × List UInt8) (x : Nat)
      (u v : UInt8), i ≠ j ∧ articles[i]? = some a ∧ articles[j]? = some b ∧
        byteAt a.1 a.2 x = some u ∧ byteAt b.1 b.2 x = some v ∧ u ≠ v) ∧
    (∀ a ∈ articles, ∀ x u, byteAt a.1 a.2 x = some u → covered W.w.intervals x 1 = true ∧
      ∃ b ∈ articles, byteAt b.1 b.2 x = some (W.w.disk x)) ∧
    ∀ x, covered W.w.intervals x 1 = true → ∃ a ∈ articles, ∃ u, byteAt a.1 a.2 x = some u := by
  obtain ⟨hinv, harts⟩ := inv_run steps (inv_new size caps window articles flushes)
  rw [← hW] at hinv harts
  have hheld : W.traffic.held = [] := by
    have hhands : handsHeld 0 W.threads = [] := by
      refine handsHeld_eq_nil 0 fun t ht i => ?_
      rw [held, hdone t ht]
      rfl
    show W.w.stageHeld ++ handsHeld 0 W.threads = []
    rw [hhands, append_nil, stageHeld]
    split
    · rfl
    · rename_i st hst
      rw [hflushed st hst]
      rfl
  have hpass : ∀ i < W.traffic.arts.length, W.traffic.pass i = .cleared := by
    intro i hi
    have hlt : i < W.threads.length := by
      have hlen : W.traffic.arts.length = W.threads.length := length_map _
      omega
    show W.pass i = .cleared
    rw [pass_of (getElem?_eq_getElem hlt), hdone _ (getElem_mem hlt)]
    rfl
  have hword : ∀ {i x b}, W.traffic.Says i x b ↔
      ∃ a, articles[i]? = some a ∧ byteAt a.1 a.2 x = some b := says_new harts
  obtain ⟨hlatch, hall, honly⟩ := hinv.traffic.settled hheld hpass
  refine ⟨hlatch.trans ?_, fun a ha x u hu => ?_, fun x hx => ?_⟩
  · constructor
    · rintro ⟨i, j, x, u, v, hij, hu, hv, hne⟩
      obtain ⟨a, ha, hu⟩ := hword.mp hu
      obtain ⟨b, hb, hv⟩ := hword.mp hv
      exact ⟨i, j, a, b, x, u, v, hij, ha, hb, hu, hv, hne⟩
    · rintro ⟨i, j, a, b, x, u, v, hij, ha, hb, hu, hv, hne⟩
      exact ⟨i, j, x, u, v, hij, hword.mpr ⟨a, ha, hu⟩, hword.mpr ⟨b, hb, hv⟩, hne⟩
  · obtain ⟨i, hi⟩ := mem_iff_getElem?.mp ha
    have hcov := hall i x u (hword.mpr ⟨a, hi, hu⟩)
    obtain ⟨j, hj⟩ := honly x hcov
    obtain ⟨b, hb, hv⟩ := hword.mp hj
    exact ⟨covered_one.mpr hcov, b, mem_of_getElem? hb, hv⟩
  · obtain ⟨j, hj⟩ := honly x (covered_one.mp hx)
    obtain ⟨b, hb, hv⟩ := hword.mp hj
    exact ⟨b, mem_of_getElem? hb, _, hv⟩

/-- A process with room, and a job that is still feeding the file. -/
def envSample : Env := ⟨0, 0, 0, 0, 64, true, true⟩

/-- The first call is about to write its own bytes and the third has its bytes in the window when
the second comes and overlaps both; it writes the window out and waits for the first. -/
def worldSample : World :=
  run (World.new 100 ⟨16, 3, 8, 0⟩ true [(0, [1, 2]), (1, [3, 4]), (2, [4, 5])] 1)
    ((List.replicate 8 0 ++ List.replicate 8 2 ++ List.replicate 30 1 ++ List.replicate 30 2 ++
      List.replicate 30 0 ++ List.replicate 30 1 ++ List.replicate 20 3).map fun i => (envSample, i))

theorem conflict_caught_sample : (∀ t ∈ worldSample.threads, t.pc = .done) ∧
    worldSample.w.hadConflictingRewrite = true ∧ covered worldSample.w.intervals 3 1 = true := by
  have hdone : ∀ t ∈ worldSample.threads, t.pc = .done := by decide +kernel
  have hruns : worldSample.w.stage.all (fun st => st.runs.isEmpty) = true := by decide +kernel
  have hflushed : ∀ st, worldSample.w.stage = some st → st.runs = [] := by
    intro st hst
    rw [hst] at hruns
    exact isEmpty_iff.mp hruns
  obtain ⟨hlatch, hall, -⟩ := conflict_caught 100 ⟨16, 3, 8, 0⟩ true
    [(0, [1, 2]), (1, [3, 4]), (2, [4, 5])] 1 _ worldSample rfl hdone hflushed
  refine ⟨hdone, hlatch.mpr ?_, (hall (2, [4, 5]) (by decide) 3 5 (by decide)).1⟩
  exact ⟨0, 1, (0, [1, 2]), (1, [3, 4]), 1, 2, 3, by decide, rfl, rfl, by decide, by decide, by decide⟩

end NzbFast.Disk
