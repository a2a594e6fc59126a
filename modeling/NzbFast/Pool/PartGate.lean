import NzbFast.Pool.Ladder

/-!
# The part gate

`PartLatch` and the gate in `QueueControl::note_decoded` (`crates/nzbkit/src/pool/queue.rs`). A body
of the wrong part is steered to another server, once; a second body of that part from a server of no
common group stands the gate down for its file, and the second such file for the run.
-/

namespace NzbFast.Pool

open List Shared.Life

/-- The servers of a run, each with its group. -/
structure Servers where
  groups : List (Option String)
  length_le : groups.length ≤ MAX_SERVERS

namespace Servers

abbrev Idx (v : Servers) := Fin v.groups.length

/-- `ctx_for`. -/
def groupBits (v : Servers) (si : v.Idx) : Mask :=
  match v.groups.get si with
  | none => serverBit si
  | some g => (v.groups.zipIdx.filter (·.1 = some g)).foldl (fun m p => m ||| serverBit p.2) (serverBit si)

/-- Neither the same server nor two of one group. -/
def Apart (v : Servers) (si sj : v.Idx) : Prop :=
  si ≠ sj ∧ (v.groups.get si = none ∨ v.groups.get si ≠ v.groups.get sj)

theorem has_foldl {sj : Nat} {l : List (Option String × Nat)} {m : Mask}
    (h : has m sj = true ∨ ∃ p ∈ l, has (serverBit p.2) sj = true) :
    has (l.foldl (fun m p => m ||| serverBit p.2) m) sj = true := by
  induction l generalizing m with
  | nil => exact h.resolve_right fun ⟨p, hp, _⟩ => nomatch hp
  | cons q l ih =>
    have hor : has (m ||| serverBit q.2) sj = (has m sj || has (serverBit q.2) sj) := BitVec.getLsbD_or
    refine ih ?_
    rcases h with hm | ⟨p, hp, hbit⟩
    · exact .inl (by rw [hor, hm, Bool.true_or])
    · rcases mem_cons.mp hp with rfl | hp
      · exact .inl (by rw [hor, hbit, Bool.or_true])
      · exact .inr ⟨p, hp, hbit⟩

variable {v : Servers} {si sj : v.Idx}

theorem has_own (si : v.Idx) : has (v.groupBits si) si = true := by
  have hown := has_serverBit (si.isLt.trans_le v.length_le)
  unfold groupBits
  split
  · exact hown
  · exact has_foldl (.inl hown)

theorem has_sibling {g : String} (hi : v.groups.get si = some g) (hj : v.groups.get sj = some g) :
    has (v.groupBits si) sj = true := by
  have hmem : (some g, sj.val) ∈ v.groups.zipIdx := by
    rw [← hj]
    exact mk_mem_zipIdx_iff_getElem?.mpr (getElem?_eq_getElem sj.isLt)
  unfold groupBits
  rw [hi]
  exact has_foldl (.inr ⟨_, mem_filter.mpr ⟨hmem, decide_eq_true rfl⟩,
    has_serverBit (sj.isLt.trans_le v.length_le)⟩)

theorem apart_of_disjoint (h : v.groupBits si &&& v.groupBits sj = 0) : v.Apart si sj := by
  have hno : ¬ has (v.groupBits si) sj = true := by
    intro hi
    have hboth : has (v.groupBits si &&& v.groupBits sj) sj = true := by
      rw [has, BitVec.getLsbD_and]
      exact Bool.and_eq_true_iff.mpr ⟨hi, has_own sj⟩
    rw [h] at hboth
    exact absurd hboth (by simp [has])
  constructor
  · rintro rfl
    exact hno (has_own si)
  · cases hi : v.groups.get si with
    | none => exact .inl rfl
    | some g => exact .inr fun hj => hno (has_sibling hi hj.symm)

end Servers

structure PartLatch where
  first : Nat → Option (Mask × UInt32) := fun _ => none
  off : List UInt32 := []
  runOff : Bool := false
  steers : Nat := 0

def RUN_WIDE_AFTER : Nat := 2

namespace PartLatch

def isScoped (file : UInt32) : Bool := file ≠ 0xFFFFFFFF

def isOff (l : PartLatch) (file : UInt32) : Bool := isScoped file && (l.runOff || l.off.contains file)

def standDown (l : PartLatch) (file : UInt32) : PartLatch × Bool × Nat :=
  let fresh := isScoped file && !l.off.contains file
  let off := if fresh then file :: l.off else l.off
  ({ l with off }, fresh, off.length)

/-- Two groups agree on an article of the file. -/
def agreed (l : PartLatch) (file : UInt32) : PartLatch :=
  let (l, fresh, files) := l.standDown file
  { l with runOff := l.runOff || fresh && RUN_WIDE_AFTER ≤ files }

/-- A steer keeps the first deliverer. -/
def record (l : PartLatch) (id : Nat) (deliverer : Mask × UInt32) : PartLatch :=
  { l with first := Function.update l.first id ((l.first id).getD deliverer), steers := l.steers + 1 }

end PartLatch

/-- A body that awaits its verdict. -/
structure Handed (v : Servers) where
  part : UInt32
  file : UInt32
  server : v.Idx
  dupCopy : Bool

inductive DecodeReport where
  | clean (part : Option UInt32)
  | bad

/-- What the rest of the pool answers while a verdict is settled. -/
structure Answers where
  runOver : Bool
  elsewhere : Bool
  takeReask : Bool

structure Gate (v : Servers) where
  latch : PartLatch := {}
  handed : Nat → Option (Handed v) := fun _ => none
  crcRetried : Nat → Bool := fun _ => false

namespace Gate

variable {v : Servers}

/-- A part that is not the article's goes on to a steer, unless another group said it too. -/
def judge (s : Gate v) (id : Nat) (h : Handed v) : DecodeReport → Gate v × Option (Option UInt32)
  | .bad => (s, some none)
  | .clean none => (s, none)
  | .clean (some got) =>
    if (h.part ≠ 0 ∧ got ≠ h.part) ∧ s.latch.isOff h.file = false then
      if (s.latch.first id).any fun x => x.2 = got ∧ x.1 &&& v.groupBits h.server = 0 then
        ({ s with latch := s.latch.agreed h.file }, none)
      else (s, some (some got))
    else (s, none)

/-- The steer itself. A fleet that dies during it changes nothing here. -/
def issue (s : Gate v) (id : Nat) (h : Handed v) : Option UInt32 → Gate v
  | none => s
  | some got => { s with latch := s.latch.record id (v.groupBits h.server, got) }

/-- What follows the gate. -/
def steer (s : Gate v) (id : Nat) (h : Handed v) (gotPart : Option UInt32) (a : Answers) : Gate v :=
  if a.runOver then s
  else if h.dupCopy then s.issue id h gotPart
  else if s.crcRetried id then s
  else
    let s := { s with crcRetried := Function.update s.crcRetried id true }
    if a.elsewhere || gotPart.isNone && a.takeReask then s.issue id h gotPart else s

def noteDecoded (s : Gate v) (id : Nat) (report : DecodeReport) (a : Answers) : Gate v :=
  match s.handed id with
  | none => s
  | some h =>
    let judged := judge { s with handed := Function.update s.handed id none } id h report
    match judged.2 with
    | none => judged.1
    | some gotPart => judged.1.steer id h gotPart a

inductive Event (v : Servers) where
  | stashHanded (id : Nat) (h : Handed v)
  | noteDecoded (id : Nat) (report : DecodeReport) (a : Answers)

/-- A body that decoded with a part that is not its article's. -/
structure Mismatch (v : Servers) where
  id : Nat
  file : UInt32
  server : v.Idx
  got : UInt32

def step (s : Gate v) : Event v → Gate v
  | .stashHanded id h => { s with handed := Function.update s.handed id (some h) }
  | .noteDecoded id report a => s.noteDecoded id report a

def reported (s : Gate v) : Event v → List (Mismatch v)
  | .noteDecoded id (.clean (some got)) _ =>
    match s.handed id with
    | none => []
    | some h => if h.part ≠ 0 ∧ got ≠ h.part then [⟨id, h.file, h.server, got⟩] else []
  | _ => []

/-- A run of a new pool, and the mismatches reported to it. -/
def run (es : List (Event v)) : Gate v × List (Mismatch v) :=
  es.foldl (fun x e => (x.1.step e, x.2 ++ x.1.reported e)) ({}, [])

/-- Two groups, one after the other, gave one article of the file the same part. -/
def Earned (log : List (Mismatch v)) (file : UInt32) : Prop :=
  ∃ a b, [a, b] <+ log ∧ a.id = b.id ∧ a.got = b.got ∧ b.file = file ∧ v.Apart a.server b.server

structure Inv (l : PartLatch) (log : List (Mismatch v)) : Prop where
  first : ∀ id x, l.first id = some x → ∃ r ∈ log, r.id = id ∧ x = (v.groupBits r.server, r.got)
  off : ∀ file ∈ l.off, PartLatch.isScoped file = true ∧ Earned log file
  nodup : l.off.Nodup
  wide : l.runOff = true → RUN_WIDE_AFTER ≤ l.off.length

variable {l : PartLatch} {log : List (Mismatch v)} {s : Gate v}

theorem Inv.append (h : Inv l log) (rs : List (Mismatch v)) : Inv l (log ++ rs) where
  first id x hx := (h.first id x hx).imp fun _ hr => ⟨mem_append_left rs hr.1, hr.2⟩
  off file hf := ⟨(h.off file hf).1, (h.off file hf).2.imp fun _ ⟨b, hsub, hb⟩ =>
    ⟨b, hsub.trans (sublist_append_left log rs), hb⟩⟩
  nodup := h.nodup
  wide := h.wide

theorem Inv.agreed (h : Inv l log) {file : UInt32} (he : Earned log file) : Inv (l.agreed file) log := by
  unfold PartLatch.agreed PartLatch.standDown
  cases hfresh : PartLatch.isScoped file && !l.off.contains file with
  | false => simpa using h
  | true =>
    obtain ⟨hscoped, hnew⟩ := Bool.and_eq_true_iff.mp hfresh
    refine ⟨h.first, fun f hf => ?_, nodup_cons.mpr ⟨by simpa using hnew, h.nodup⟩, fun hwide => ?_⟩
    · rcases mem_cons.mp hf with rfl | hf
      · exact ⟨hscoped, he⟩
      · exact h.off f hf
    · rcases Bool.or_eq_true_iff.mp hwide with hrun | hlen
      · exact (h.wide hrun).trans (Nat.le_succ _)
      · exact of_decide_eq_true hlen

theorem Inv.record (h : Inv l log) {r : Mismatch v} (hr : r ∈ log) :
    Inv (l.record r.id (v.groupBits r.server, r.got)) log := by
  refine ⟨fun id x hx => ?_, h.off, h.nodup, h.wide⟩
  simp only [PartLatch.record] at hx
  by_cases hid : id = r.id
  · subst hid
    rw [Function.update_self] at hx
    cases hfirst : l.first r.id with
    | none => exact ⟨r, hr, rfl, by rw [hfirst] at hx; exact (Option.some.inj hx).symm⟩
    | some y => exact h.first r.id x (by rw [hfirst] at hx ⊢; exact hx)
  · rw [Function.update_of_ne hid] at hx
    exact h.first id x hx

theorem steer_latch (s : Gate v) (id : Nat) (h : Handed v) (gotPart : Option UInt32) (a : Answers) :
    (s.steer id h gotPart a).latch = s.latch ∨ ∃ got, gotPart = some got ∧
      (s.steer id h gotPart a).latch = s.latch.record id (v.groupBits h.server, got) := by
  have hissue (s : Gate v) : (s.issue id h gotPart).latch = s.latch ∨ ∃ got, gotPart = some got ∧
      (s.issue id h gotPart).latch = s.latch.record id (v.groupBits h.server, got) := by
    cases gotPart with
    | none => exact .inl rfl
    | some got => exact .inr ⟨got, rfl, rfl⟩
  unfold steer
  split_ifs
  · exact .inl rfl
  · exact hissue s
  · exact .inl rfl
  · exact hissue { s with crcRetried := Function.update s.crcRetried id true }
  · exact .inl rfl

/-- All that a verdict does to the latch. -/
theorem noteDecoded_latch (s : Gate v) (id : Nat) (report : DecodeReport) (a : Answers) :
    (s.noteDecoded id report a).latch = s.latch ∨ ∃ h got, s.handed id = some h ∧
      report = .clean (some got) ∧ (h.part ≠ 0 ∧ got ≠ h.part) ∧
      ((∃ m, s.latch.first id = some (m, got) ∧ m &&& v.groupBits h.server = 0 ∧
          (s.noteDecoded id report a).latch = s.latch.agreed h.file) ∨
        (s.noteDecoded id report a).latch = s.latch.record id (v.groupBits h.server, got)) := by
  unfold noteDecoded
  cases hh : s.handed id with
  | none => exact .inl rfl
  | some h =>
    match report with
    | .bad => exact (steer_latch _ id h none a).imp_right fun ⟨_, hnone, _⟩ => nomatch hnone
    | .clean none => exact .inl rfl
    | .clean (some got) =>
      simp only [judge]
      split_ifs with hmis hagree
      · obtain ⟨⟨m, p⟩, hfirst, hp⟩ := (Option.any_eq_true _ _).mp hagree
        obtain ⟨rfl, hdisjoint⟩ := of_decide_eq_true hp
        exact .inr ⟨h, p, rfl, rfl, hmis.1, .inl ⟨m, hfirst, hdisjoint, rfl⟩⟩
      · rcases steer_latch _ id h (some got) a with hsame | ⟨got', hgot, hrec⟩
        · exact .inl hsame
        · cases hgot
          exact .inr ⟨h, got, rfl, rfl, hmis.1, .inr hrec⟩
      · exact .inl rfl

theorem Inv.step (h : Inv s.latch log) (e : Event v) : Inv (s.step e).latch (log ++ s.reported e) := by
  cases e with
  | stashHanded id handed => exact h.append _
  | noteDecoded id report a =>
    have hgrown := h.append (s.reported (.noteDecoded id report a))
    rcases noteDecoded_latch s id report a with hsame | ⟨hd, got, hh, rfl, hmis, hlatch⟩
    · exact hsame ▸ hgrown
    have hlog : s.reported (.noteDecoded id (.clean (some got)) a) = [⟨id, hd.file, hd.server, got⟩] := by
      simp only [reported, hh, if_pos hmis]
    rw [hlog] at hgrown ⊢
    rcases hlatch with ⟨m, hfirst, hdisjoint, heq⟩ | heq
    · obtain ⟨r, hr, hid, hx⟩ := h.first id _ hfirst
      obtain ⟨rfl, rfl⟩ := Prod.mk.inj hx
      refine heq ▸ hgrown.agreed ⟨r, _, (singleton_sublist.mpr hr).append (Sublist.refl _), hid, rfl, rfl, ?_⟩
      exact Servers.apart_of_disjoint hdisjoint
    · exact heq ▸ hgrown.record (r := ⟨id, hd.file, hd.server, got⟩) (mem_append_right _ (mem_singleton_self _))

theorem inv_run (es : List (Event v)) : Inv (run es).1.latch (run es).2 := by
  have hstart : Inv (v := v) {} [] := ⟨nofun, nofun, nodup_nil, nofun⟩
  exact es.foldlRecOn _ (motive := fun x : Gate v × List (Mismatch v) => Inv x.1.latch x.2) hstart
    fun _ h e _ => h.step e

/-- A stand-down is earned: for a file by two groups, for the run by two files, and never by or for
what is no file. -/
theorem stand_down_earned (v : Servers) (es : List (Event v)) :
    (∀ file ∈ (run es).1.latch.off, PartLatch.isScoped file = true ∧ Earned (run es).2 file) ∧
      ((run es).1.latch.runOff = true → 2 ≤ (run es).1.latch.off.length ∧ (run es).1.latch.off.Nodup) ∧
      (run es).1.latch.isOff 0xFFFFFFFF = false ∧
      ∀ id report a h, (run es).1.handed id = some h → h.file = 0xFFFFFFFF →
        ((run es).1.noteDecoded id report a).latch.off = (run es).1.latch.off ∧
          ((run es).1.noteDecoded id report a).latch.runOff = (run es).1.latch.runOff := by
  have hinv := inv_run es
  refine ⟨hinv.off, fun hwide => ⟨hinv.wide hwide, hinv.nodup⟩, rfl, fun id report a h hh hfile => ?_⟩
  rcases noteDecoded_latch (run es).1 id report a with heq | ⟨h', got, hh', -, -, hlatch⟩
  · rw [heq]
    exact ⟨rfl, rfl⟩
  obtain rfl := Option.some.inj (hh.symm.trans hh')
  rcases hlatch with ⟨m, -, -, heq⟩ | heq
  · rw [heq, hfile]
    exact ⟨rfl, Bool.or_false _⟩
  · rw [heq]
    exact ⟨rfl, rfl⟩

end Gate

end NzbFast.Pool
