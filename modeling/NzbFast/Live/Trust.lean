import NzbFast.Live.Claims

/-!
# No trust laundering

A block is set Ok in-stream on the full check of bytes that feeds delivered,
or on a CRC32 composed from fragments of spans that may claim CRC-only, against
the descriptor the slot is bound to now. The invariant `Inv C` carries the
provenance of everything a slot and the feeds in flight hold, `C` being the
jobs the run has claimed so far:

* `SlotOk`: the grid is the bound descriptor's, byte partials hold delivered
  bytes, CRC partials hold CRCs composed from trusted fragments;
* `JobOk`: a job of the current generation is about the bound descriptor, and
  its work stays inside that descriptor's grid.

`bindGen` is a natural number here: a job does not outlive 2^64 unbinds.
-/

namespace NzbFast.Live

open NzbFast.Par2 Fold World LiveVerifier
open List hiding le_refl

def Plan.desc : Plan → Option Nat → Option (Par2File × Nat)
  | .active a, file => file.bind (a.files[·]?)
  | _, _ => none

def LiveVerifier.bound (v : LiveVerifier) (slot : Nat) : Option (Par2File × Nat) :=
  v.plan.desc (v.slots slot).file

/-- May a span of this source claim CRC-only: fast is on, and the wire CRC passed or lean waives
it. -/
def Trusted (fast lean : Bool) (src : Src) : Prop :=
  fast = true ∧ (src = .fresh ∨ src = .rehash ∨ (src = .lean ∧ lean = true))

/-- A job of `C` on this slot and generation delivered byte `b` of the file at offset `k`. -/
def Delivered (C : Job → Prop) (slot gen k : Nat) (b : UInt8) : Prop :=
  ∃ j, C j ∧ j.slot = slot ∧ j.bindGen = gen ∧ j.span.At k b

/-- The settings and jobs a run's provenance is relative to. -/
structure Origin where
  d : Digests
  fast : Bool
  lean : Bool
  noReuse : Bool
  claimed : Job → Prop

namespace Origin

variable (O : Origin)

/-- A fragment of block `bi` inside the span of a trusted feed, with that feed's CRC for it. -/
def Fragment (bs slot gen bi : Nat) (f : Frag) : Prop :=
  ∃ j, O.claimed j ∧ j.slot = slot ∧ j.bindGen = gen ∧ Trusted O.fast O.lean j.src ∧
    j.span.start ≤ bi * bs + f.start ∧ bi * bs + f.stop ≤ j.span.stop ∧
    f.crc = j.fragCrc O.d O.noReuse bi (bi * bs + f.start) (bi * bs + f.stop)

/-- The full MD5+CRC check passed on the block's bytes, all of them delivered. -/
def FullChecked (file : Par2File) (bs slot gen bi : Nat) : Prop :=
  ∃ bytes, AssembledBy (Delivered O.claimed slot gen) file.length bs bi bytes ∧
    checkBlockVerdict O.d (file.blocks.getD bi UNPROVEN) bs bytes = .ok

/-- Trusted fragments tile the block, and their composed CRC, extended over the zero padding, is
the descriptor's. -/
def CrcClaimed (file : Par2File) (bs slot gen bi : Nat) : Prop :=
  ∃ frags crc padded,
    Composes O.d.combine frags 0 (blockLen file.length bs bi) crc ∧
    (∀ f ∈ frags, O.Fragment bs slot gen bi f) ∧
    (padded = O.d.zeros crc (bs - blockLen file.length bs bi) ∨
      (bs ≤ blockLen file.length bs bi ∧ padded = crc)) ∧
    crcMatches (file.blocks.getD bi UNPROVEN) padded = true

/-- What an in-stream Ok must rest on. -/
def Justified (file : Par2File) (bs slot gen bi : Nat) : Prop :=
  O.FullChecked file bs slot gen bi ∨ O.CrcClaimed file bs slot gen bi

/-- Everything a slot holds has its provenance. -/
structure SlotOk (plan : Plan) (slot : Nat) (s : SlotState) : Prop where
  grid : s.file ≠ none → ∃ f bs, plan.desc s.file = some (f, bs) ∧ s.blocks.length = f.blocks.length
  unbound : s.file = none → ∀ bi, s.partials.lookup bi = none
  partials : ∀ f bs, plan.desc s.file = some (f, bs) → ∀ bi p, s.partials.lookup bi = some p →
    PartialOk O.d.combine (Delivered O.claimed slot s.bindGen) (O.Fragment bs slot s.bindGen)
      f.length bs bi p

/-- A job's generation against the slot's, and what follows when they agree. -/
def GenOk (plan : Plan) (s : SlotState) (j : Job) : Prop :=
  j.bindGen ≤ s.bindGen ∧ (j.bindGen = s.bindGen → plan.desc s.file = some (j.file, j.bs))

/-- A job's work: in the grid, with the ranges the span covers. -/
structure WorkOk (j : Job) : Prop where
  claimed : O.claimed j
  trusted : j.crcClaims = true → Trusted O.fast O.lean j.src
  full : ∀ bi ∈ j.work.full, bi < j.file.blocks.length ∧ j.span.start ≤ bi * j.bs ∧
    bi * j.bs + j.blen bi ≤ j.span.stop
  ready : ∀ x ∈ j.work.ready, x.1 < j.file.blocks.length ∧
    AssembledBy (Delivered O.claimed j.slot j.bindGen) j.file.length j.bs x.1 x.2
  crcJobs : ∀ x ∈ j.work.crcJobs, x.1 < j.file.blocks.length ∧ j.crcClaims = true ∧
    x.2.1 = max j.span.start (x.1 * j.bs) ∧ x.2.2 = min j.span.stop (x.1 * j.bs + j.blen x.1)

structure Inv (w : World) : Prop where
  fast : w.v.fast = O.fast
  lean : w.v.lean = O.lean
  noReuse : w.v.noReuse = O.noReuse
  slots : ∀ slot, O.SlotOk w.v.plan slot (w.v.slots slot)
  gens : ∀ j ∈ w.jobs, GenOk w.v.plan (w.v.slots j.slot) j
  work : ∀ j ∈ w.jobs, O.WorkOk j

end Origin

/-! ## More jobs claimed -/

section Mono

variable {O : Origin} {C' : Job → Prop}

theorem Delivered.mono {C C' : Job → Prop} (h : ∀ j, C j → C' j) {slot gen k : Nat} {b : UInt8} :
    Delivered C slot gen k b → Delivered C' slot gen k b :=
  fun ⟨j, hj, hr⟩ => ⟨j, h j hj, hr⟩

/-- The same settings over more claimed jobs. -/
def Origin.grow (O : Origin) (C' : Job → Prop) : Origin := { O with claimed := C' }

variable (h : ∀ j, O.claimed j → C' j)
include h

theorem Origin.Fragment.mono {bs slot gen bi : Nat} {f : Frag} :
    O.Fragment bs slot gen bi f → (O.grow C').Fragment bs slot gen bi f :=
  fun ⟨j, hj, hr⟩ => ⟨j, h j hj, hr⟩

theorem Origin.SlotOk.mono {plan : Plan} {slot : Nat} {s : SlotState} (hs : O.SlotOk plan slot s) :
    (O.grow C').SlotOk plan slot s :=
  ⟨hs.grid, hs.unbound, fun f bs hd bi p hp =>
    (hs.partials f bs hd bi p hp).mono (fun _ _ => Delivered.mono h) fun _ _ => Origin.Fragment.mono h⟩

theorem Origin.WorkOk.mono {j : Job} (hj : O.WorkOk j) : (O.grow C').WorkOk j :=
  ⟨h j hj.claimed, hj.trusted, hj.full,
    fun x hx => ⟨(hj.ready x hx).1, (hj.ready x hx).2.mono fun _ _ => Delivered.mono h⟩, hj.crcJobs⟩

theorem Origin.Inv.mono {w : World} (hw : O.Inv w) : (O.grow C').Inv w :=
  ⟨hw.fast, hw.lean, hw.noReuse, fun slot => (hw.slots slot).mono h, hw.gens,
    fun j hj => (hw.work j hj).mono h⟩

end Mono

/-! ## Moves -/

/-- Every descriptor of `a` is one the plan knows. -/
def Agrees (a : Active) (plan : Plan) : Prop :=
  ∀ n f, a.files[n]? = some f → plan.desc (some n) = some f

theorem agrees_active (a : Active) : Agrees a (.active a) := fun _ _ h => h

theorem agrees_nil (plan : Plan) : Agrees ⟨[]⟩ plan := fun n f h => by simp [Active.files] at h

section Moves

variable {O : Origin} {a : Active} {plan : Plan} {slot : Nat} {s s' : SlotState}

theorem Move.slotOk (ha : Agrees a plan) (hm : Move a s s') (hs : O.SlotOk plan slot s) :
    O.SlotOk plan slot s' := by
  cases hm with
  | keep hf hg hl hp =>
    refine ⟨fun h => ?_, fun h bi => ?_, fun f bs hd bi p h => ?_⟩
    · rw [hf] at h ⊢
      rw [hl]
      exact hs.grid h
    · rw [hf] at h
      cases hb : s'.partials.lookup bi with
      | none => rfl
      | some p => exact absurd (hp bi p hb) (by rw [hs.unbound h bi]; simp)
    · rw [hf] at hd
      rw [hg]
      exact hs.partials f bs hd bi p (hp bi p h)
  | drop =>
    refine ⟨fun h => absurd rfl h, fun _ bi => Finmap.lookup_empty bi, fun f bs _ bi p h => ?_⟩
    exact absurd h (by rw [show s.unbind.partials = ∅ from rfl, Finmap.lookup_empty]; simp)
  | bind hf hn =>
    rename_i n f
    refine ⟨fun _ => ⟨f.1, f.2, ha _ _ hn, length_replicate⟩, (fun h => nomatch h),
      fun f' bs _ bi p h => ?_⟩
    exact absurd ((hs.unbound hf bi).symm.trans h) (by simp)

theorem Move.genOk {j : Job} (hm : Move a s s') (hj : Origin.GenOk plan s j) :
    Origin.GenOk plan s' j := by
  obtain ⟨hle, heq⟩ := hj
  cases hm with
  | keep hf hg _ _ => exact ⟨by omega, fun h => by rw [hf]; exact heq (by omega)⟩
  | drop =>
    have hg : s.unbind.bindGen = s.bindGen + 1 := rfl
    exact ⟨by omega, fun h => by omega⟩
  | bind hf _ =>
    refine ⟨hle, fun h => ?_⟩
    have hd := heq h
    rw [hf] at hd
    cases plan <;> cases hd

theorem Moves.slotOk (ha : Agrees a plan) (hm : Moves a s s') (hs : O.SlotOk plan slot s) :
    O.SlotOk plan slot s' := by
  induction hm with
  | refl => exact hs
  | tail _ h ih => exact h.slotOk ha ih

theorem Moves.genOk {j : Job} (hm : Moves a s s') (hj : Origin.GenOk plan s j) :
    Origin.GenOk plan s' j := by
  induction hm with
  | refl => exact hj
  | tail _ h ih => exact h.genOk ih

/-- What a framed chain of moves does to the invariant. -/
theorem Moved.inv {v v' : LiveVerifier} {jobs : List Job} (hm : Moved a slot v v')
    (ha : Agrees a v.plan) (hw : O.Inv ⟨v, jobs⟩) : O.Inv ⟨v', jobs⟩ := by
  refine ⟨hm.frame.fast.trans hw.fast, hm.frame.lean.trans hw.lean,
    hm.frame.noReuse.trans hw.noReuse, fun i => ?_, fun j hj => ?_, hw.work⟩
  · dsimp only
    rw [hm.frame.plan]
    by_cases hi : i = slot
    · subst hi; exact hm.moves.slotOk ha (hw.slots i)
    · rw [hm.frame.others i hi]; exact hw.slots i
  · dsimp only
    rw [hm.frame.plan]
    by_cases hi : j.slot = slot
    · have := hw.gens j hj
      rw [hi] at this ⊢
      exact hm.moves.genOk this
    · rw [hm.frame.others _ hi]; exact hw.gens j hj

theorem Origin.Inv.update {v v' : LiveVerifier} {jobs : List Job} (hw : O.Inv ⟨v, jobs⟩)
    (hfr : Frame slot v v') (hf : (v'.slots slot).file = (v.slots slot).file)
    (hg : (v'.slots slot).bindGen = (v.slots slot).bindGen)
    (hs : O.SlotOk v.plan slot (v'.slots slot)) : O.Inv ⟨v', jobs⟩ := by
  refine ⟨hfr.fast.trans hw.fast, hfr.lean.trans hw.lean, hfr.noReuse.trans hw.noReuse,
    fun i => ?_, fun j hj => ?_, hw.work⟩
  · dsimp only
    rw [hfr.plan]
    by_cases hi : i = slot
    · subst hi; exact hs
    · rw [hfr.others i hi]; exact hw.slots i
  · dsimp only
    rw [hfr.plan]
    by_cases hi : j.slot = slot
    · have := hw.gens j hj
      rw [hi] at this ⊢
      exact ⟨hg ▸ this.1, fun h => hf ▸ this.2 (h.trans hg)⟩
    · rw [hfr.others _ hi]; exact hw.gens j hj

end Moves

/-! ## The claim phase -/

section Claim

variable {O : Origin} {a : Active} {v : LiveVerifier} {slot : Nat} {f : Feed} {jobs : List Job}

theorem trusted_of_crcClaims {src : Src} (h : v.crcClaims src = true) :
    Trusted v.fast v.lean src := by
  simp only [crcClaims, Bool.and_eq_true, Bool.or_eq_true, beq_iff_eq] at h
  obtain ⟨hf, (h | h) | h⟩ := h
  · exact ⟨hf, .inl h⟩
  · exact ⟨hf, .inr (.inl h)⟩
  · exact ⟨hf, .inr (.inr h)⟩

/-- What the claim loop of a bound slot starts from and leaves. -/
structure ClaimedSpan (v : LiveVerifier) (slot : Nat) (a : Active) (f : Feed) (file : Par2File)
    (bs : Nat) (sp : Span) (c : Claiming) (j : Job) : Prop where
  desc : (v.slots slot).file.bind (a.files[·]?) = some (file, bs)
  blocks : file.blocks ≠ []
  size : bs ≠ 0
  data : sp.data ≠ []
  stop : sp.stop ≤ file.length
  loop : c = (touched file bs sp).foldl
    (Claiming.block v.partialsCap file bs sp (v.crcClaims f.src))
    { s := v.slots slot, used := v.partialsUsed }
  job : j = ⟨slot, f.src, sp, f.data.length, f.articleCrc, v.crcClaims f.src, c.s.bindGen, file, bs,
    c.work⟩

theorem claimSpan_cases (v : LiveVerifier) (slot : Nat) (a : Active) (f : Feed) :
    v.claimSpan slot a f = (v, none) ∨
    ∃ file bs sp c j, ClaimedSpan v slot a f file bs sp c j ∧
      v.claimSpan slot a f = ({ v.put slot c.s with partialsUsed := c.used }, some j) := by
  unfold claimSpan
  cases hd : (v.slots slot).file.bind (a.files[·]?) with
  | none => exact .inl rfl
  | some fb =>
    obtain ⟨file, bs⟩ := fb
    dsimp only
    split
    · exact .inl rfl
    case isFalse hne =>
      push Not at hne
      obtain ⟨hblocks, hbs, hlen⟩ := hne
      refine Or.inr ⟨file, bs, _, _, _, ⟨hd, hblocks, hbs, ?_, ?_, rfl, rfl⟩, rfl⟩
      · rw [← length_pos_iff, length_take]; omega
      · rw [Span.stop, length_take]; dsimp only; omega

section Loop

variable {file : Par2File} {bs : Nat} {sp : Span} {c : Claiming} {j : Job}

theorem ClaimedSpan.same (h : ClaimedSpan v slot a f file bs sp c j) :
    Claiming.Same (v.slots slot) c.s := by
  rw [h.loop]
  exact Claiming.same_foldl _ _ _ _ _ _ { s := v.slots slot, used := v.partialsUsed }

theorem ClaimedSpan.gen (h : ClaimedSpan v slot a f file bs sp c j) :
    c.s.bindGen = (v.slots slot).bindGen := h.same.bindGen

theorem ClaimedSpan.frame (h : ClaimedSpan v slot a f file bs sp c j) :
    Frame slot v { v.put slot c.s with partialsUsed := c.used } := by
  have hf := frame_put h.same.pre
  exact ⟨hf.plan, hf.fast, hf.lean, hf.noReuse, hf.others, hf.cells, hf.pre⟩

/-- The loop's invariant, with the job itself among the claimed ones. -/
theorem ClaimedSpan.claimOk (h : ClaimedSpan v slot a f file bs sp c j) (hp : v.plan = .active a)
    (hs : O.SlotOk v.plan slot (v.slots slot)) (hj : O.claimed j) :
    ClaimOk O.d.combine (Delivered O.claimed slot (v.slots slot).bindGen)
      (O.Fragment bs slot (v.slots slot).bindGen) file bs sp (v.crcClaims f.src) (v.slots slot) c := by
  have hown : ∀ k b, sp.At k b → Delivered O.claimed slot (v.slots slot).bindGen k b := by
    intro k b hk
    refine ⟨j, hj, ?_, ?_, ?_⟩
    all_goals rw [h.job]
    · exact h.gen
    · exact hk
  rw [h.loop]
  refine ClaimOk.loop hown _ (fun bi hbi => mem_touched h.size h.blocks h.data h.stop hbi) ?_
  exact ⟨rfl, hs.partials file bs (by rw [hp]; exact h.desc), by simp, by simp, by simp⟩

theorem ClaimedSpan.slotOk (h : ClaimedSpan v slot a f file bs sp c j) (hp : v.plan = .active a)
    (hs : O.SlotOk v.plan slot (v.slots slot)) (hj : O.claimed j) :
    O.SlotOk v.plan slot c.s := by
  have hloop := h.claimOk hp hs hj
  have hdesc : v.plan.desc (v.slots slot).file = some (file, bs) := by rw [hp]; exact h.desc
  refine ⟨fun hf => ?_, fun hf => ?_, fun f' bs' hd' bi p hlk => ?_⟩
  · rw [hloop.sameFile, h.same.blocks] at *
    exact hs.grid hf
  · rw [hloop.sameFile] at hf
    rw [hf, hp] at hdesc
    cases hdesc
  · rw [hloop.sameFile, hdesc] at hd'
    cases hd'
    rw [h.gen]
    exact hloop.partials bi p hlk

theorem ClaimedSpan.workOk (h : ClaimedSpan v slot a f file bs sp c j) (hp : v.plan = .active a)
    (hs : O.SlotOk v.plan slot (v.slots slot)) (hj : O.claimed j) (hfast : v.fast = O.fast)
    (hlean : v.lean = O.lean) : O.WorkOk j := by
  have hloop := h.claimOk hp hs hj
  have hgen := h.gen
  refine ⟨hj, ?_, ?_, ?_, ?_⟩
  all_goals rw [h.job]
  · intro hcc
    have ht := trusted_of_crcClaims hcc
    rwa [hfast, hlean] at ht
  · exact hloop.full
  · dsimp only
    rw [hgen]
    exact hloop.ready
  · exact hloop.crcJobs

end Loop

/-- The claim loop keeps the invariant, given that the job it leaves counts as claimed. -/
theorem Origin.Inv.claimSpan (hw : O.Inv ⟨v, jobs⟩) (hp : v.plan = .active a)
    (hC : ∀ j, (v.claimSpan slot a f).2 = some j → O.claimed j) :
    O.Inv ⟨(v.claimSpan slot a f).1, jobs ++ (v.claimSpan slot a f).2.toList⟩ := by
  rcases claimSpan_cases v slot a f with h | ⟨file, bs, sp, c, j, h, he⟩
  · rw [h, Option.toList_none, append_nil]
    exact hw
  rw [he] at hC ⊢
  have hj := hC j rfl
  have hs := hw.slots slot
  have hv : ({ v.put slot c.s with partialsUsed := c.used } : LiveVerifier).slots slot = c.s :=
    slots_put_self
  have hbase : O.Inv ⟨{ v.put slot c.s with partialsUsed := c.used }, jobs⟩ := by
    refine hw.update h.frame ?_ ?_ ?_
    all_goals rw [hv]
    · exact (h.claimOk hp hs hj).sameFile
    · exact h.gen
    · exact h.slotOk hp hs hj
  refine ⟨hbase.fast, hbase.lean, hbase.noReuse, hbase.slots, fun j' hj' => ?_, fun j' hj' => ?_⟩
  all_goals
    rcases mem_append.mp hj' with hj' | hj'
    · first | exact hbase.gens j' hj' | exact hbase.work j' hj'
  all_goals
    rw [Option.toList_some, mem_singleton] at hj'
    subst hj'
  · dsimp only
    rw [h.job, hv]
    refine ⟨le_refl _, fun _ => ?_⟩
    rw [(h.claimOk hp hs hj).sameFile]
    dsimp only [plan_put]
    rw [hp]
    exact h.desc
  · exact h.workOk hp hs hj hw.fast hw.lean

theorem Origin.Inv.onDataClaim {r : Option (Option Nomination)} {m : Option Nomination}
    (hw : O.Inv ⟨v, jobs⟩) (hC : ∀ j, (v.onDataClaim slot f r m).2 = some j → O.claimed j) :
    O.Inv ⟨(v.onDataClaim slot f r m).1, jobs ++ (v.onDataClaim slot f r m).2.toList⟩ := by
  unfold LiveVerifier.onDataClaim at hC ⊢
  cases hp : v.plan with
  | off =>
    rw [Option.toList_none, append_nil]
    exact hw
  | waiting =>
    rw [Option.toList_none, append_nil]
    exact moved_preSpan.inv (agrees_nil _) hw
  | active a =>
    rw [hp] at hC
    dsimp only at hC ⊢
    have hm : Moved a slot v (v.rejudgeBinding slot a r) := moved_rejudgeBinding
    have hw1 := hm.inv (by rw [hp]; exact agrees_active a) hw
    have hp1 := hm.frame.plan.trans hp
    generalize v.rejudgeBinding slot a r = v1 at hC hw1 hp1 ⊢
    split at hC
    case isTrue hf =>
      rw [if_pos hf]
      cases ht : v1.tryMatch slot a m with
      | none =>
        rw [Option.toList_none, append_nil]
        exact hw1
      | some v2 =>
        rw [ht] at hC
        have hm2 := (moved_tryMatch ht hf).trans moved_engageGate
        exact (hm2.inv (by rw [hp1]; exact agrees_active a) hw1).claimSpan
          (hm2.frame.plan.trans hp1) hC
    case isFalse hf =>
      rw [if_neg hf]
      exact hw1.claimSpan hp1 hC

end Claim

/-! ## The record phase -/

section Record

variable {O : Origin} {v v' : LiveVerifier} {j : Job}

/-- The slot is still bound as the job's claims assume. -/
structure Good (O : Origin) (j : Job) (v : LiveVerifier) : Prop where
  slotOk : O.SlotOk v.plan j.slot (v.slots j.slot)
  gen : j.bindGen = (v.slots j.slot).bindGen
  desc : v.bound j.slot = some (j.file, j.bs)

/-- What recording does: the binding stays, what the slot holds keeps its provenance, and a block
that turned Ok is justified. -/
structure Recorded (O : Origin) (j : Job) (v v' : LiveVerifier) : Prop where
  frame : Frame j.slot v v'
  file : (v'.slots j.slot).file = (v.slots j.slot).file
  gen : (v'.slots j.slot).bindGen = (v.slots j.slot).bindGen
  slotOk : O.SlotOk v.plan j.slot (v'.slots j.slot)
  oks : ∀ bi, (v'.slots j.slot).blocks[bi]? = some .ok →
    (v.slots j.slot).blocks[bi]? = some .ok ∨ O.Justified j.file j.bs j.slot j.bindGen bi

theorem Recorded.refl (hg : Good O j v) : Recorded O j v v :=
  ⟨.refl _ v, rfl, rfl, hg.slotOk, fun _ h => .inl h⟩

theorem Recorded.good (h : Recorded O j v v') (hg : Good O j v) : Good O j v' := by
  refine ⟨?_, hg.gen.trans h.gen.symm, ?_⟩
  · rw [h.frame.plan]; exact h.slotOk
  · rw [bound, h.frame.plan, h.file]; exact hg.desc

theorem Recorded.trans {v'' : LiveVerifier} (h : Recorded O j v v') (h' : Recorded O j v' v'') :
    Recorded O j v v'' := by
  refine ⟨h.frame.trans h'.frame, h'.file.trans h.file, h'.gen.trans h.gen, ?_, fun bi hb => ?_⟩
  · rw [← h.frame.plan]; exact h'.slotOk
  · rcases h'.oks bi hb with hb | hb
    · exact h.oks bi hb
    · exact .inr hb

theorem Recorded.foldl {α : Type} {step : LiveVerifier → α → LiveVerifier} (xs : List α)
    (hstep : ∀ v x, x ∈ xs → Good O j v → Recorded O j v (step v x)) (hg : Good O j v) :
    Recorded O j v (xs.foldl step v) := by
  induction xs generalizing v with
  | nil => exact .refl hg
  | cons x xs ih =>
    have h := hstep v x (by simp) hg
    exact h.trans (ih (fun v y hy => hstep v y (by simp [hy])) (h.good hg))

/-- An update that leaves the partials, and turns only justified blocks Ok. -/
theorem Recorded.of_keep (hg : Good O j v) (hfr : Frame j.slot v v')
    (hm : Move ⟨[]⟩ (v.slots j.slot) (v'.slots j.slot))
    (hf : (v'.slots j.slot).file = (v.slots j.slot).file)
    (hgen : (v'.slots j.slot).bindGen = (v.slots j.slot).bindGen)
    (hoks : ∀ bi, (v'.slots j.slot).blocks[bi]? = some .ok →
      (v.slots j.slot).blocks[bi]? = some .ok ∨ O.Justified j.file j.bs j.slot j.bindGen bi) :
    Recorded O j v v' :=
  ⟨hfr, hf, hgen, hm.slotOk (agrees_nil _) hg.slotOk, hoks⟩

theorem blocks_set_ok {blocks : List BlockState} {bi k : Nat} {st : BlockState}
    (h : (blocks.set bi st)[k]? = some .ok) : blocks[k]? = some .ok ∨ (k = bi ∧ st = .ok) := by
  rw [getElem?_set] at h
  split at h
  case isTrue hk =>
    split at h
    · exact .inr ⟨hk.symm, Option.some.inj h⟩
    · cases h
  case isFalse => exact .inl h

theorem recorded_record (hg : Good O j v) {bi : Nat} {ok : Bool}
    (h : ok = true → O.Justified j.file j.bs j.slot j.bindGen bi) :
    Recorded O j v (v.record j.slot bi ok) := by
  unfold record
  dsimp only
  split
  case isFalse => exact .refl hg
  split
  case isTrue hok =>
    refine .of_keep hg (.trans (frame_put ?_) frame_onVouch) ?_ ?_ ?_ ?_
    · exact .same rfl rfl
    all_goals rw [slots_onVouch, slots_put_self]
    · exact .keep rfl rfl length_set fun _ _ h => h
    · intro k hk
      rcases blocks_set_ok hk with hk | ⟨rfl, -⟩
      · exact .inl hk
      · exact .inr (h hok)
  case isFalse =>
    refine .of_keep hg (frame_put (.same rfl rfl)) ?_ ?_ ?_ ?_
    all_goals rw [slots_put_self]
    · exact .keep rfl rfl length_set fun _ _ h => h
    · intro k hk
      rcases blocks_set_ok hk with hk | ⟨-, hk⟩
      · exact .inl hk
      · cases hk

/-- An update of the slot that keeps its binding and grid and adds no partial. -/
theorem recorded_put (hg : Good O j v) {s : SlotState} (hf : s.file = (v.slots j.slot).file)
    (hgen : s.bindGen = (v.slots j.slot).bindGen) (hb : s.blocks = (v.slots j.slot).blocks)
    (hp : ∀ bi p, s.partials.lookup bi = some p → (v.slots j.slot).partials.lookup bi = some p)
    (hpre : PreLe (v.slots j.slot) s) : Recorded O j v (v.put j.slot s) := by
  refine .of_keep hg (frame_put hpre) ?_ ?_ ?_ ?_
  all_goals rw [slots_put_self]
  · exact .keep hf hgen (by rw [hb]) hp
  · exact hf
  · exact hgen
  · intro bi h
    rw [hb] at h
    exact .inl h

/-- Nothing but the budget and the gate's cells changed. -/
theorem Recorded.used {used : Nat} (h : Recorded O j v v') :
    Recorded O j v { v' with partialsUsed := used } :=
  ⟨⟨h.frame.plan, h.frame.fast, h.frame.lean, h.frame.noReuse, h.frame.others, h.frame.cells,
    h.frame.pre⟩, h.file, h.gen, h.slotOk, h.oks⟩

/-! ### Verdicts of whole blocks -/

theorem crcClaims_of_piece {d : Digests} {noReuse : Bool} {bi crc : Nat}
    (h : j.piece d noReuse bi = some crc) : j.crcClaims = true := by
  unfold Job.piece Job.reuse at h
  split at h
  case isTrue hc =>
    simp only [Bool.and_eq_true] at hc
    exact hc.1.2
  case isFalse => cases h

theorem length_fullBytes {bi : Nat} (h1 : j.span.start ≤ bi * j.bs)
    (h2 : bi * j.bs + j.blen bi ≤ j.span.stop) : (j.fullBytes bi).length = j.blen bi := by
  rw [Job.fullBytes, Span.length_bytes h1 h2]; omega

theorem Origin.WorkOk.wholeFragment (hw : O.WorkOk j) (hcc : j.crcClaims = true) {bi : Nat}
    (hbi : bi ∈ j.work.full) :
    O.Fragment j.bs j.slot j.bindGen bi
      ⟨0, j.blen bi, j.fragCrc O.d O.noReuse bi (bi * j.bs) (bi * j.bs + j.blen bi)⟩ := by
  obtain ⟨-, h1, h2⟩ := hw.full bi hbi
  exact ⟨j, hw.claimed, rfl, rfl, hw.trusted hcc, h1, h2, rfl⟩

theorem Origin.WorkOk.crcClaimed_whole (hw : O.WorkOk j) (hcc : j.crcClaims = true) {bi : Nat}
    (hbi : bi ∈ j.work.full)
    (h : crcMatches (j.check bi) (O.d.zeros (j.fragCrc O.d O.noReuse bi (bi * j.bs)
      (bi * j.bs + j.blen bi)) (j.bs - j.blen bi)) = true) :
    O.CrcClaimed j.file j.bs j.slot j.bindGen bi := by
  have hfrag := hw.wholeFragment hcc hbi
  refine ⟨[_], _, _, .one ⟨0, j.blen bi, _⟩, fun f hf => ?_, .inl rfl, h⟩
  rw [mem_singleton] at hf
  subst hf
  exact hfrag

theorem Origin.WorkOk.justified_full (hw : O.WorkOk j) {bi : Nat} (hbi : bi ∈ j.work.full)
    (h : j.fullVerdict O.d O.noReuse bi = .ok) : O.Justified j.file j.bs j.slot j.bindGen bi := by
  obtain ⟨hlt, h1, h2⟩ := hw.full bi hbi
  unfold Job.fullVerdict at h
  cases hp : j.piece O.d O.noReuse bi with
  | some crc =>
    rw [hp] at h
    dsimp only at h
    split at h
    case isTrue hm =>
      refine Or.inr (hw.crcClaimed_whole (crcClaims_of_piece hp) hbi ?_)
      rw [Job.fragCrc, hp]
      exact hm
    case isFalse => cases h
  | none =>
    rw [hp] at h
    dsimp only at h
    split at h
    case isTrue hcc =>
      refine Or.inr (hw.crcClaimed_whole hcc hbi ?_)
      unfold checkBlockCrcVerdict checkBlockCrc at h
      split at h
      case isTrue hm =>
        rw [length_fullBytes h1 h2] at hm
        rw [Job.fragCrc, hp]
        exact hm
      case isFalse => cases h
    case isFalse =>
      refine Or.inl ⟨j.fullBytes bi, ⟨length_fullBytes h1 h2, fun k b hk => ?_⟩, h⟩
      exact ⟨j, hw.claimed, rfl, rfl, Span.at_of_bytes h1 hk⟩

theorem Origin.WorkOk.justified_result (hw : O.WorkOk j) {x : Nat × BlockVerdict}
    (hx : x ∈ j.results O.d O.noReuse) (h : x.2 = .ok) :
    O.Justified j.file j.bs j.slot j.bindGen x.1 := by
  rcases mem_append.mp hx with hx | hx
  · obtain ⟨bi, hbi, rfl⟩ := mem_map.mp hx
    exact hw.justified_full hbi h
  · obtain ⟨y, hy, rfl⟩ := mem_map.mp hx
    exact .inl ⟨y.2, (hw.ready y hy).2, h⟩

theorem recorded_recordResult (hw : O.WorkOk j) (hg : Good O j v) {x : Nat × BlockVerdict}
    (hx : x ∈ j.results O.d O.noReuse) : Recorded O j v (LiveVerifier.recordResult j.slot v x) := by
  have h := recorded_put (s := { v.slots j.slot with
    ifscSelfContradicted := (v.slots j.slot).ifscSelfContradicted || x.2 == .contradicted })
    hg rfl rfl rfl (fun _ _ h => h) (.same rfl rfl)
  refine h.trans (recorded_record (h.good hg) fun hok => ?_)
  exact hw.justified_result hx (by simpa using hok)

/-! ### Fragments -/

theorem CrcParts.lt_of_insert {combine : Nat → Nat → Nat → Nat} {p p' : CrcParts} {s e crc : Nat}
    (h : p.insert combine s e crc = some p') : s < e := by
  unfold CrcParts.insert at h
  split at h
  · cases h
  · omega

/-- A fragment the job claimed, as the CRC parts record it. -/
theorem Origin.WorkOk.fragment (hw : O.WorkOk j) {bi os oe : Nat}
    (hx : (bi, os, oe) ∈ j.work.crcJobs) (hlt : os - bi * j.bs < oe - bi * j.bs) :
    O.Fragment j.bs j.slot j.bindGen bi
      ⟨os - bi * j.bs, oe - bi * j.bs, j.fragCrc O.d O.noReuse bi os oe⟩ := by
  obtain ⟨-, hcc, hos, hoe⟩ := hw.crcJobs _ hx
  dsimp only at hos hoe
  have h1 : bi * j.bs + (os - bi * j.bs) = os := by omega
  have h2 : bi * j.bs + (oe - bi * j.bs) = oe := by omega
  refine ⟨j, hw.claimed, rfl, rfl, hw.trusted hcc, ?_, ?_, ?_⟩
  · dsimp only; omega
  · dsimp only; omega
  · dsimp only; rw [h1, h2]

theorem recorded_joinFrag (hw : O.WorkOk j) (hg : Good O j v) {bi os oe : Nat} {parts : CrcParts}
    (hx : (bi, os, oe) ∈ j.work.crcJobs)
    (hp : (v.slots j.slot).partials.lookup bi = some (.crc parts)) :
    Recorded O j v (LiveVerifier.joinFrag O.d j v parts bi os oe
      (j.fragCrc O.d O.noReuse bi os oe)) := by
  have hpart : parts.Composed O.d.combine (O.Fragment j.bs j.slot j.bindGen bi) := by
    have h := hg.slotOk.partials j.file j.bs hg.desc bi _ hp
    rw [← hg.gen] at h
    exact h
  have herase := recorded_put (s := { v.slots j.slot with
    partials := (v.slots j.slot).partials.erase bi }) hg rfl rfl rfl
    (fun _ _ h => lookup_of_erase h) (.same rfl rfl)
  unfold joinFrag
  cases hi : parts.insert O.d.combine (os - bi * j.bs) (oe - bi * j.bs)
      (j.fragCrc O.d O.noReuse bi os oe) with
  | none => exact herase
  | some parts' =>
    have hcomp := CrcParts.insert_composed hpart (hw.fragment hx (CrcParts.lt_of_insert hi)) hi
    dsimp only
    cases hc : parts'.complete (j.blen bi) with
    | some crc =>
      refine herase.trans (recorded_record (herase.good hg) fun hm => ?_)
      obtain ⟨frags, hfr, hall⟩ := CrcParts.complete_composes hcomp hc
      refine Or.inr ⟨frags, crc, _, hfr, hall, ?_, hm⟩
      unfold finalCrc
      split
      · exact .inl rfl
      · exact .inr ⟨by rw [Job.blen] at *; omega, rfl⟩
    | none =>
      -- the merged parts stay held, composed from trusted fragments as before
      refine ⟨frame_put (.same rfl rfl), ?_, ?_, ?_, ?_⟩
      all_goals rw [slots_put_self]
      · refine ⟨hg.slotOk.grid, fun hf => ?_, fun f bs hd bi' p h => ?_⟩
        · exact absurd (hg.slotOk.unbound hf bi) (by rw [hp]; simp)
        · rcases lookup_insert_cases h with ⟨rfl, rfl⟩ | h
          · have he := hd.symm.trans hg.desc
            cases he
            rw [← hg.gen]
            exact hcomp
          · exact hg.slotOk.partials f bs hd bi' p h
      · exact fun _ h => .inl h

theorem recorded_recordFrag (hw : O.WorkOk j) (hg : Good O j v) {x : Nat × Nat × Nat × Nat}
    (hx : x ∈ j.crcFrags O.d O.noReuse) : Recorded O j v (LiveVerifier.recordFrag O.d j v x) := by
  obtain ⟨⟨bi, os, oe⟩, hmem, rfl⟩ := mem_map.mp hx
  unfold recordFrag
  dsimp only
  split
  · unfold dropPartial
    refine Recorded.used (recorded_put hg rfl rfl rfl ?_ (.same rfl rfl))
    exact fun _ _ h => lookup_of_erase h
  · split
    case _ parts hp => exact recorded_joinFrag hw hg hmem hp
    case _ => exact .refl hg

theorem recorded_gatePublish (hg : Good O j v) : Recorded O j v (v.gatePublish j.slot j.bs) := by
  obtain ⟨okPrefix, vouch, h⟩ := v.slots_gatePublish j.slot j.bs
  refine .of_keep hg frame_gatePublish ?_ ?_ ?_ ?_
  all_goals rw [h]
  · exact .keep rfl rfl rfl fun _ _ h => h
  · exact fun _ h => .inl h

/-- The record phase of a job of the slot's generation. -/
theorem recorded_onDataRecord (hw : O.WorkOk j) (hg : Good O j v) (hnr : v.noReuse = O.noReuse) :
    Recorded O j v (v.onDataRecord O.d j) := by
  unfold onDataRecord
  dsimp only
  rw [hnr]
  split
  · exact .refl hg
  split
  case isTrue h => exact absurd hg.gen.symm h
  case isFalse =>
    have h1 := Recorded.foldl (j.results O.d O.noReuse)
      (fun v x hx hg => recorded_recordResult hw hg hx) hg
    have h2 := Recorded.foldl (j.crcFrags O.d O.noReuse)
      (fun v x hx hg => recorded_recordFrag hw hg hx) (h1.good hg)
    have h12 := h1.trans h2
    exact h12.trans (recorded_gatePublish (h12.good hg))

/-- A job of another generation records nothing. -/
theorem onDataRecord_stale {d : Digests} (h : (v.slots j.slot).bindGen ≠ j.bindGen) :
    v.onDataRecord d j = v := by
  unfold onDataRecord
  dsimp only
  rw [if_pos h, ite_self]

end Record

/-! ## Steps -/

theorem Plan.desc_activate {v : LiveVerifier} {sets : List ParsedSet} {file : Option Nat}
    {x : Par2File × Nat} (h : v.plan.desc file = some x) :
    (v.activate sets).plan.desc file = some x := by
  have hext : ∀ (extra sets : List ParsedSet), ∃ more,
      extra.foldl (fun sets s => if sets.any (·.set.recoverySetId = s.set.recoverySetId) then sets
        else sets ++ [s]) sets = sets ++ more := by
    intro extra
    induction extra with
    | nil => exact fun sets => ⟨[], by simp⟩
    | cons s extra ih =>
      intro sets
      rw [foldl_cons]
      split
      · exact ih sets
      · obtain ⟨more, hm⟩ := ih (sets ++ [s])
        exact ⟨s :: more, by rw [hm]; simp⟩
  unfold activate
  cases hp : v.plan with
  | waiting => rw [hp] at h; cases h
  | off => rw [hp] at h; cases h
  | active a =>
    rw [hp] at h
    obtain ⟨n, rfl, hn⟩ := Option.bind_eq_some_iff.mp h
    obtain ⟨more, hm⟩ := hext sets a.sets
    have hlt : n < a.files.length := (List.getElem?_eq_some_iff.mp hn).1
    show (a.extended sets).files[n]? = some x
    rw [Active.extended, hm, Active.files, flatMap_append,
      getElem?_append_left (by exact hlt)]
    exact hn

section Step

variable {O : Origin} {w : World}

theorem World.step_record {d : Digests} {i : Nat} {j : Job} (h : w.jobs[i]? = some j) :
    w.step d (.record i) = ⟨w.v.onDataRecord d j, w.jobs.eraseIdx i⟩ := by
  simp only [step, h]

theorem World.step_record_none {d : Digests} {i : Nat} (h : w.jobs[i]? = none) :
    w.step d (.record i) = w := by
  simp only [step, h]

theorem Origin.Inv.activate (hw : O.Inv w) (sets : List ParsedSet) :
    O.Inv { w with v := w.v.activate sets } := by
  refine ⟨hw.fast, hw.lean, hw.noReuse, fun slot => ?_, fun j hj => ?_, hw.work⟩
  · obtain ⟨hg, hu, hp⟩ := hw.slots slot
    refine ⟨fun hf => ?_, hu, fun f bs hd bi p hlk => ?_⟩
    · obtain ⟨f, bs, hd, hl⟩ := hg hf
      exact ⟨f, bs, Plan.desc_activate hd, hl⟩
    · have hf : (w.v.slots slot).file ≠ none := by
        intro hf
        exact absurd (hu hf bi) (by rw [show (w.v.slots slot).partials.lookup bi = some p from hlk]; simp)
      obtain ⟨f', bs', hd', -⟩ := hg hf
      have he : some (f', bs') = some (f, bs) := (Plan.desc_activate hd').symm.trans hd
      cases he
      exact hp f bs hd' bi p hlk
  · obtain ⟨hle, heq⟩ := hw.gens j hj
    exact ⟨hle, fun h => Plan.desc_activate (heq h)⟩

theorem Origin.Inv.good (hw : O.Inv w) {j : Job} (hj : j ∈ w.jobs)
    (hgen : (w.v.slots j.slot).bindGen = j.bindGen) : Good O j w.v :=
  ⟨hw.slots j.slot, hgen.symm, (hw.gens j hj).2 hgen.symm⟩

/-- Recording, fresh or stale, keeps the binding of the slot and touches no other. -/
theorem Origin.Inv.record (hw : O.Inv w) {j : Job} (hj : j ∈ w.jobs) :
    O.Inv { w with v := w.v.onDataRecord O.d j } ∧ Frame j.slot w.v (w.v.onDataRecord O.d j) := by
  by_cases hgen : (w.v.slots j.slot).bindGen = j.bindGen
  · have hr := recorded_onDataRecord (hw.work j hj) (hw.good hj hgen) hw.noReuse
    have hw' := hw
    exact ⟨hw'.update hr.frame hr.file hr.gen hr.slotOk, hr.frame⟩
  · rw [onDataRecord_stale hgen]
    exact ⟨hw, .refl _ _⟩

theorem frame_onDataClaim {v : LiveVerifier} {slot : Nat} {f : Feed} {r : Option (Option Nomination)}
    {m : Option Nomination} : Frame slot v (v.onDataClaim slot f r m).1 := by
  have hspan : ∀ (v : LiveVerifier) (a : Active), Frame slot v (v.claimSpan slot a f).1 := by
    intro v a
    rcases claimSpan_cases v slot a f with h | ⟨_, _, _, _, _, h, he⟩
    · rw [h]; exact .refl slot v
    · rw [he]; exact h.frame
  unfold onDataClaim
  split
  · exact .refl slot v
  · exact (moved_preSpan (a := ⟨[]⟩)).frame
  · rename_i a _
    have hm : Moved a slot v (v.rejudgeBinding slot a r) := moved_rejudgeBinding
    have hm := hm.frame
    dsimp only
    split
    case isTrue hf =>
      split
      · exact hm
      · rename_i v2 ht
        have hm2 := (moved_tryMatch ht hf).trans moved_engageGate
        exact (hm.trans hm2.frame).trans (hspan _ a)
    case isFalse => exact hm.trans (hspan _ a)

/-- Every step keeps the invariant, given that a job it leaves counts as claimed, and takes back no
mark against a pre-activation span. -/
theorem Origin.Inv.step (hw : O.Inv w) (x : Step)
    (hC : ∀ slot f r m j, x = .claim slot f r m → (w.v.onDataClaim slot f r m).2 = some j →
      O.claimed j) :
    O.Inv (w.step O.d x) ∧ ∀ i, PreLe (w.v.slots i) ((w.step O.d x).v.slots i) := by
  have hw' := hw
  have hmoved : ∀ {slot : Nat} {v' : LiveVerifier}, (∀ a, w.v.plan = .active a → Moved a slot w.v v') →
      ((∀ a, w.v.plan ≠ .active a) → v' = w.v) →
      O.Inv { w with v := v' } ∧ ∀ i, PreLe (w.v.slots i) (v'.slots i) := by
    intro slot v' hact hno
    cases hp : w.v.plan with
    | active a =>
      have hm := hact a hp
      exact ⟨hm.inv (by rw [hp]; exact agrees_active a) hw', hm.frame.preLe⟩
    | waiting => rw [hno (fun a h => by rw [hp] at h; cases h)]; exact ⟨hw, fun i => .refl _⟩
    | off => rw [hno (fun a h => by rw [hp] at h; cases h)]; exact ⟨hw, fun i => .refl _⟩
  have hany : ∀ {slot : Nat} {v' : LiveVerifier}, Moved ⟨[]⟩ slot w.v v' →
      O.Inv { w with v := v' } ∧ ∀ i, PreLe (w.v.slots i) (v'.slots i) :=
    fun hm => ⟨hm.inv (agrees_nil _) hw', hm.frame.preLe⟩
  cases x with
  | claim slot f r m =>
    exact ⟨hw'.onDataClaim fun j hj => hC slot f r m j rfl hj,
      frame_onDataClaim.preLe⟩
  | record i =>
    cases hj : w.jobs[i]? with
    | none => rw [step_record_none hj]; exact ⟨hw, fun i => .refl _⟩
    | some j =>
      rw [step_record hj]
      obtain ⟨hr, hfr⟩ := hw.record (mem_of_getElem? hj)
      refine ⟨⟨hr.fast, hr.lean, hr.noReuse, hr.slots, fun j' hj' => ?_, fun j' hj' => ?_⟩, hfr.preLe⟩
      · exact hr.gens j' (mem_of_mem_eraseIdx hj')
      · exact hr.work j' (mem_of_mem_eraseIdx hj')
  | promote slot won =>
    exact hmoved (fun a hp => moved_promoteBinding hp) promoteBinding_idle
  | forceReadback slot => exact hany moved_forceReadback
  | seedPreSpans slot spans => exact hany moved_seedPreSpans
  | takePreSpans slot => exact hany moved_takePreSpans
  | activate sets => exact ⟨hw.activate sets, fun i => .refl _⟩
  | finish slot src l =>
    exact hmoved (fun a hp => moved_finishSlot hp) finishSlot_idle

end Step

/-! ## Nothing turns Ok outside the record phase -/

/-- No block of `s'` is Ok that was not Ok in `s`. -/
def NoNewOk (s s' : SlotState) : Prop :=
  ∀ bi : Nat, s'.blocks[bi]? = some .ok → s.blocks[bi]? = some .ok

section NoNewOk

variable {v v' : LiveVerifier} {slot : Nat} {a : Active}

theorem noNewOk_pending {s s' : SlotState} (h : ∀ st ∈ s'.blocks, st = .pending) : NoNewOk s s' := by
  intro bi hb
  have hp := h _ (mem_of_getElem? hb)
  cases hp

theorem noNewOk_bind (s s' : SlotState) (n : Nomination) (f : Par2File) : NoNewOk s (s'.bind n f) :=
  noNewOk_pending fun _ h => eq_of_mem_replicate h

theorem noNewOk_unbind (s s' : SlotState) : NoNewOk s s'.unbind := noNewOk_pending fun _ h => nomatch h

theorem noNewOk_rejudge (r : Option (Option Nomination)) :
    NoNewOk (v.slots slot) ((v.rejudgeBinding slot a r).slots slot) := by
  unfold rejudgeBinding
  dsimp only
  split
  · exact fun _ h => h
  · cases r with
    | none => exact fun _ h => h
    | some m =>
      dsimp only
      cases ht : (v.forgetBinding slot).tryMatch slot a m with
      | none =>
        rw [Option.getD_none, slots_forgetBinding]
        exact noNewOk_unbind _ _
      | some v' =>
        obtain ⟨n, f, -, -, rfl⟩ := tryMatch_eq ht
        rw [Option.getD_some, slots_put_self]
        exact noNewOk_bind _ _ _ _

theorem noNewOk_claimSpan (f : Feed) :
    NoNewOk (v.slots slot) ((v.claimSpan slot a f).1.slots slot) := by
  rcases claimSpan_cases v slot a f with h | ⟨_, _, _, c, _, h, he⟩
  · rw [h]; exact fun _ h => h
  · rw [he, show ({ v.put slot c.s with partialsUsed := c.used } : LiveVerifier).slots slot = c.s
      from slots_put_self]
    intro bi hb
    rwa [h.same.blocks] at hb

theorem noNewOk_onDataClaim (f : Feed) (r : Option (Option Nomination)) (m : Option Nomination) :
    NoNewOk (v.slots slot) ((v.onDataClaim slot f r m).1.slots slot) := by
  unfold onDataClaim
  split
  · exact fun _ h => h
  · rw [show ((v.preSpan slot f).slots slot) = _ from slots_put_self]
    exact fun _ h => h
  · rename_i a _
    have hr : NoNewOk (v.slots slot) ((v.rejudgeBinding slot a r).slots slot) := noNewOk_rejudge r
    dsimp only
    split
    · split
      · exact hr
      · rename_i v2 ht
        obtain ⟨n, f', -, -, rfl⟩ := tryMatch_eq ht
        intro bi hb
        have h2 := noNewOk_claimSpan f bi hb
        rw [engageGate, slots_put_self] at h2
        exact noNewOk_bind _ _ _ _ bi h2
    · exact fun bi hb => hr bi (noNewOk_claimSpan f bi hb)

theorem noNewOk_promote (won : Bool) :
    NoNewOk (v.slots slot) ((v.promoteBinding slot won).slots slot) := by
  unfold promoteBinding
  split
  · dsimp only
    split
    · exact fun _ h => h
    split
    · rw [slots_put_self]; exact fun _ h => h
    · rw [slots_forgetBinding]; exact noNewOk_unbind _ _
  · exact fun _ h => h

theorem noNewOk_forceReadback : NoNewOk (v.slots slot) ((v.forceReadback slot).slots slot) := by
  unfold forceReadback
  rw [slots_onVouch, slots_put_self]
  exact noNewOk_pending fun _ h => eq_of_mem_replicate h

end NoNewOk

/-- The steps of the stream: every one but a slot's settling at the end. -/
def Step.inStream : Step → Bool
  | .finish .. => false
  | _ => true

/-- In the stream only the record phase turns a block Ok. -/
theorem noNewOk_step {d : Digests} {w : World} {x : Step} (hin : x.inStream) (hrec : ∀ i, x ≠ .record i)
    (i : Nat) : NoNewOk (w.v.slots i) ((w.step d x).v.slots i) := by
  have hframe : ∀ {slot : Nat} {v' : LiveVerifier}, Frame slot w.v v' →
      NoNewOk (w.v.slots slot) (v'.slots slot) → NoNewOk (w.v.slots i) (v'.slots i) := by
    intro slot v' hfr hs
    by_cases hi : i = slot
    · subst hi; exact hs
    · rw [hfr.others i hi]; exact fun _ h => h
  cases x with
  | claim slot f r m => exact hframe frame_onDataClaim (noNewOk_onDataClaim f r m)
  | record i => exact absurd rfl (hrec i)
  | promote slot won => exact hframe frame_promoteBinding (noNewOk_promote won)
  | forceReadback slot =>
    exact hframe (moved_forceReadback (a := ⟨[]⟩)).frame noNewOk_forceReadback
  | seedPreSpans slot spans =>
    refine hframe (moved_seedPreSpans (a := ⟨[]⟩)).frame ?_
    show NoNewOk _ ((w.v.seedPreSpans slot spans).slots slot)
    rw [seedPreSpans, slots_put_self]
    exact fun _ h => h
  | takePreSpans slot =>
    refine hframe (moved_takePreSpans (a := ⟨[]⟩)).frame ?_
    show NoNewOk _ ((w.v.takePreSpans slot).2.slots slot)
    rw [takePreSpans, slots_put_self]
    exact fun _ h => h
  | activate sets => exact fun _ h => h
  | finish slot src l => cases hin

/-! ## Runs -/

def Claimed (d : Digests) (w₀ : World) (tr : List Step) (j : Job) : Prop :=
  ∃ before slot f r m, before ++ [Step.claim slot f r m] <+: tr ∧
    ((w₀.run d before).v.onDataClaim slot f r m).2 = some j

/-- A span of this source was remembered for the slot before a set went live. -/
def PreFed (d : Digests) (w₀ : World) (tr : List Step) (slot : Nat) (src : Src) : Prop :=
  ∃ before f r m, before ++ [Step.claim slot f r m] <+: tr ∧
    (w₀.run d before).v.plan = .waiting ∧ f.src = src

section Run

variable {d : Digests} {w₀ : World} {tr : List Step}

theorem World.run_snoc (x : Step) : w₀.run d (tr ++ [x]) = (w₀.run d tr).step d x := by
  simp [run]

theorem prefix_snoc {α : Type} {pre tr : List α} {x : α} (h : pre <+: tr ++ [x]) :
    pre <+: tr ∨ pre = tr ++ [x] := by
  rcases prefix_concat_iff.mp h with h | h
  · exact .inr (by simpa using h)
  · exact .inl h

end Run

section Start

variable (d : Digests) (fast lean noReuse gated : Bool) (cap : Nat)

def runOrigin (tr : List Step) : Origin :=
  ⟨d, fast, lean, noReuse, Claimed d (World.start fast lean noReuse gated cap) tr⟩

theorem claimed_snoc {tr : List Step} (x : Step) {w₀ : World} {j : Job} (h : Claimed d w₀ tr j) :
    Claimed d w₀ (tr ++ [x]) j := by
  obtain ⟨before, slot, f, r, m, hpre, hj⟩ := h
  exact ⟨before, slot, f, r, m, hpre.trans (prefix_append _ _), hj⟩

theorem inv_snoc {tr : List Step} (x : Step)
    (h : (runOrigin d fast lean noReuse gated cap tr).Inv
      ((World.start fast lean noReuse gated cap).run d tr)) :
    (runOrigin d fast lean noReuse gated cap (tr ++ [x])).Inv
      ((World.start fast lean noReuse gated cap).run d (tr ++ [x])) ∧
    ∀ i, PreLe (((World.start fast lean noReuse gated cap).run d tr).v.slots i)
      (((World.start fast lean noReuse gated cap).run d (tr ++ [x])).v.slots i) := by
  rw [run_snoc]
  refine (h.mono fun j hj => claimed_snoc d x hj).step x ?_
  rintro slot f r m j rfl hj
  exact ⟨tr, slot, f, r, m, prefix_refl _, hj⟩

/-- The invariant holds after every run, by induction on its last step. -/
theorem inv_run (tr : List Step) : (runOrigin d fast lean noReuse gated cap tr).Inv
    ((World.start fast lean noReuse gated cap).run d tr) := by
  induction tr using reverseRecOn with
  | nil =>
    refine ⟨rfl, rfl, rfl, fun slot => ⟨fun h => absurd rfl h, fun _ bi => Finmap.lookup_empty bi, ?_⟩,
      fun j hj => (nomatch hj), fun j hj => (nomatch hj)⟩
    intro f bs hd
    cases hd
  | append_singleton tr x ih => exact (inv_snoc d fast lean noReuse gated cap x ih).1

/-- A span remembered before activation leaves the mark of its source. -/
theorem marks_preSpan {w : World} {slot : Nat} {f : Feed} {r : Option (Option Nomination)}
    {m : Option Nomination} (hp : w.v.plan = .waiting) :
    (f.src = .lean → ((w.step d (.claim slot f r m)).v.slots slot).preUnvouched = true) ∧
    (f.src = .disk → ((w.step d (.claim slot f r m)).v.slots slot).resumeSeeded = true) := by
  have hs : (w.step d (.claim slot f r m)).v.slots slot = (w.v.preSpan slot f).slots slot := by
    simp only [step, onDataClaim, hp]
  rw [hs, preSpan, slots_put_self]
  refine ⟨fun h => ?_, fun h => ?_⟩
  · simp [h]
  · simp [h]

/-- A span without a wire CRC behind it, or from disk, leaves its mark for the rest of the run. -/
theorem pre_run (tr : List Step) (slot : Nat) :
    (PreFed d (World.start fast lean noReuse gated cap) tr slot .lean →
      (((World.start fast lean noReuse gated cap).run d tr).v.slots slot).preUnvouched = true) ∧
    ((PreFed d (World.start fast lean noReuse gated cap) tr slot .disk ∨
        ∃ spans, Step.seedPreSpans slot spans ∈ tr) →
      (((World.start fast lean noReuse gated cap).run d tr).v.slots slot).resumeSeeded = true) := by
  induction tr using reverseRecOn with
  | nil =>
    refine ⟨?_, ?_⟩
    · rintro ⟨before, f, r, m, h, -⟩
      simp at h
    · rintro (⟨before, f, r, m, h, -⟩ | ⟨spans, h⟩)
      · simp at h
      · cases h
  | append_singleton tr x ih =>
    obtain ⟨ihl, ihd⟩ := ih
    have hle := (inv_snoc d fast lean noReuse gated cap x
      (inv_run d fast lean noReuse gated cap tr)).2 slot
    refine ⟨?_, ?_⟩
    · rintro ⟨before, f, r, m, hpre, hplan, hsrc⟩
      rcases prefix_snoc hpre with hpre | heq
      · exact Bool.eq_true_of_true_le (by
          rw [← ihl ⟨before, f, r, m, hpre, hplan, hsrc⟩]; exact hle.unvouched)
      · obtain ⟨rfl, hx⟩ := append_inj' heq rfl
        cases hx
        rw [run_snoc]
        exact (marks_preSpan d hplan).1 hsrc
    · rintro (⟨before, f, r, m, hpre, hplan, hsrc⟩ | ⟨spans, hmem⟩)
      · rcases prefix_snoc hpre with hpre | heq
        · exact Bool.eq_true_of_true_le (by
            rw [← ihd (.inl ⟨before, f, r, m, hpre, hplan, hsrc⟩)]; exact hle.seeded)
        · obtain ⟨rfl, hx⟩ := append_inj' heq rfl
          cases hx
          rw [run_snoc]
          exact (marks_preSpan d hplan).2 hsrc
      · rcases mem_append.mp hmem with hmem | hmem
        · exact Bool.eq_true_of_true_le (by
            rw [← ihd (.inr ⟨spans, hmem⟩)]; exact hle.seeded)
        · rw [mem_singleton] at hmem
          subst hmem
          rw [run_snoc]
          simp only [step, seedPreSpans, slots_put_self]

variable {d fast lean noReuse gated cap}

/-- A block that turned Ok in the record phase of job `j`. -/
theorem Origin.Inv.newOk {O : Origin} {w : World} {j : Job} {slot bi : Nat} (hw : O.Inv w)
    (hj : j ∈ w.jobs) (hok : ((w.v.onDataRecord O.d j).slots slot).blocks[bi]? = some .ok)
    (hnot : (w.v.slots slot).blocks[bi]? ≠ some .ok) :
    j.slot = slot ∧ j.bindGen = (w.v.slots slot).bindGen ∧
    ((w.v.onDataRecord O.d j).slots slot).bindGen = (w.v.slots slot).bindGen ∧
    w.v.bound slot = some (j.file, j.bs) ∧
    (w.v.onDataRecord O.d j).bound slot = some (j.file, j.bs) ∧
    bi < j.file.blocks.length ∧ O.Justified j.file j.bs slot (w.v.slots slot).bindGen bi := by
  by_cases hgen : (w.v.slots j.slot).bindGen = j.bindGen
  · have hg := hw.good hj hgen
    have hr := recorded_onDataRecord (hw.work j hj) hg hw.noReuse
    have hslot : j.slot = slot := by
      by_contra hne
      rw [hr.frame.others slot fun h => hne h.symm] at hok
      exact hnot hok
    subst hslot
    have hbound := (hr.good hg).desc
    refine ⟨rfl, hgen.symm, hr.gen, hg.desc, hbound, ?_, ?_⟩
    · have hf : ((w.v.onDataRecord O.d j).slots j.slot).file ≠ none := by
        intro h
        rw [bound, h] at hbound
        cases hp : (w.v.onDataRecord O.d j).plan <;> rw [hp] at hbound <;> cases hbound
      obtain ⟨f, bs, hd, hl⟩ := (hr.good hg).slotOk.grid hf
      have he := hd.symm.trans hbound
      cases he
      rw [← hl]
      exact (List.getElem?_eq_some_iff.mp hok).1
    · rw [hgen]
      exact (hr.oks bi hok).resolve_left hnot
  · rw [onDataRecord_stale hgen] at hok
    exact absurd hok hnot

/-- The indices a job records at are blocks of its descriptor. -/
theorem Origin.WorkOk.index_lt {O : Origin} {j : Job} (hw : O.WorkOk j) {bi : Nat}
    (h : bi ∈ (j.results O.d O.noReuse).map (·.1) ++ (j.crcFrags O.d O.noReuse).map (·.1)) :
    bi < j.file.blocks.length := by
  simp only [Job.results, Job.crcFrags, map_append, map_map, mem_append, mem_map,
    Function.comp_apply] at h
  rcases h with (⟨x, hx, rfl⟩ | ⟨x, hx, rfl⟩) | ⟨x, hx, rfl⟩
  · exact (hw.full x hx).1
  · exact (hw.ready x hx).1
  · exact (hw.crcJobs x hx).1

theorem backfill_marks {v : LiveVerifier} {slot : Nat}
    (h : (v.takePreSpans slot).1.2 = .backfill) :
    (v.slots slot).resumeSeeded = false ∧ ((v.slots slot).preUnvouched = true → v.lean = true) := by
  simp only [takePreSpans, preSpanSrc] at h
  split at h
  · cases h
  · rename_i hc
    simp only [Bool.or_eq_true, Bool.and_eq_true, Bool.not_eq_true', not_or, not_and,
      Bool.not_eq_true, Bool.not_eq_false] at hc
    exact hc

variable (d fast lean noReuse gated cap)

/-- No trust laundering, after every run `tr` and for every further step `x` of the stream.

A block that turns Ok does so in the record phase of a job of the slot's own generation, at an
index of the bound descriptor's grid, on the full check of delivered bytes or on a CRC composed
from fragments of trusted spans. A job of another generation records nothing, and a job that
records addresses only blocks of the bound grid. Pre-activation spans are handed back for a
CRC-only re-feed only where each of them might have claimed CRC-only live. -/
theorem no_trust_laundering (tr : List Step) (x : Step) :
    let w := (start fast lean noReuse gated cap).run d tr
    let w' := w.step d x
    let O := runOrigin d fast lean noReuse gated cap tr
    (∀ slot bi, x.inStream → (w'.v.slots slot).blocks[bi]? = some .ok →
      (w.v.slots slot).blocks[bi]? ≠ some .ok →
      ∃ i j file bs, x = .record i ∧ w.jobs[i]? = some j ∧ j.slot = slot ∧
        j.bindGen = (w.v.slots slot).bindGen ∧
        (w'.v.slots slot).bindGen = (w.v.slots slot).bindGen ∧
        w.v.bound slot = some (file, bs) ∧ w'.v.bound slot = some (file, bs) ∧
        bi < file.blocks.length ∧ O.Justified file bs slot (w.v.slots slot).bindGen bi) ∧
    (∀ i j, x = .record i → w.jobs[i]? = some j →
      (j.bindGen ≠ (w.v.slots j.slot).bindGen → w'.v = w.v) ∧
      (j.bindGen = (w.v.slots j.slot).bindGen →
        w.v.bound j.slot = some (j.file, j.bs) ∧
        (w.v.slots j.slot).blocks.length = j.file.blocks.length ∧
        ∀ bi ∈ (j.results d noReuse).map (·.1) ++ (j.crcFrags d noReuse).map (·.1),
          bi < j.file.blocks.length)) ∧
    (∀ slot, (w.v.takePreSpans slot).1.2 = .backfill →
      (∀ spans, Step.seedPreSpans slot spans ∉ tr) ∧
      ∀ src, PreFed d (start fast lean noReuse gated cap) tr slot src →
        src = .fresh ∨ src = .rehash ∨ (src = .lean ∧ lean = true)) := by
  intro w w' O
  have hw : O.Inv w := inv_run d fast lean noReuse gated cap tr
  refine ⟨fun slot bi hin hok hnot => ?_, fun i j hx hj => ⟨fun hgen => ?_, fun hgen => ?_⟩,
    fun slot hback => ?_⟩
  · by_cases hrec : ∃ i, x = .record i
    · obtain ⟨i, rfl⟩ := hrec
      cases hj : w.jobs[i]? with
      | none =>
        rw [show w' = w from step_record_none hj] at hok
        exact absurd hok hnot
      | some j =>
        have hw' : w' = ⟨w.v.onDataRecord d j, w.jobs.eraseIdx i⟩ := step_record hj
        rw [hw'] at hok ⊢
        obtain ⟨h1, h2, h3, h4, h5, h6, h7⟩ := hw.newOk (mem_of_getElem? hj) hok hnot
        exact ⟨i, j, j.file, j.bs, rfl, hj, h1, h2, h3, h4, h5, h6, h7⟩
    · exact absurd (noNewOk_step hin (fun i h => hrec ⟨i, h⟩) slot bi hok) hnot
  · subst hx
    rw [show w' = ⟨w.v.onDataRecord d j, w.jobs.eraseIdx i⟩ from step_record hj]
    exact onDataRecord_stale fun h => hgen h.symm
  · have hmem := mem_of_getElem? hj
    have hg := hw.good hmem hgen.symm
    refine ⟨hg.desc, ?_, fun bi hbi => (hw.work j hmem).index_lt hbi⟩
    have hf : (w.v.slots j.slot).file ≠ none := by
      intro h
      have hd := hg.desc
      rw [bound, h] at hd
      cases hp : w.v.plan <;> rw [hp] at hd <;> cases hd
    obtain ⟨f, bs, hd, hl⟩ := hg.slotOk.grid hf
    have he := hd.symm.trans hg.desc
    cases he
    exact hl
  · obtain ⟨hseed, hlean⟩ := backfill_marks hback
    obtain ⟨hl, hd⟩ := pre_run d fast lean noReuse gated cap tr slot
    refine ⟨fun spans hmem => ?_, fun src hsrc => ?_⟩
    · exact absurd (hd (.inr ⟨spans, hmem⟩)) (by rw [show _ = false from hseed]; simp)
    · cases src with
      | fresh => exact .inl rfl
      | rehash => exact .inr (.inl rfl)
      | lean => exact .inr (.inr ⟨rfl, hw.lean.symm.trans (hlean (hl hsrc))⟩)
      | disk => exact absurd (hd (.inl hsrc)) (by rw [show _ = false from hseed]; simp)

end Start

end NzbFast.Live
