import NzbFast.Live.Trust

/-!
# The chase gate's watermark

`GateSound`: of an engaged slot with a binding, the finite watermark stays
within the Ok prefix of the grid the slot is bound to, and `vouched_end`
reports no byte of a block that is not Ok.

The cells of the gate outlive a binding: `unbind` and `force_readback` lower no
mark, `engage` keeps one, and the bitmap of a dropped binding stays in its cell
until the next publish arms a new one. So a run keeps the gate sound as long as
its steps are `Clean`: nothing is bound, and no grid reset, over a mark that is
already up. `GateOk` is the invariant of such runs.
-/

namespace NzbFast.Live

open NzbFast.Par2 Option
open List hiding le_refl not_le not_lt

/-! ## Soundness of a slot's cells -/

def okBytes (f : Par2File) (bs : Nat) (blocks : List BlockState) : Nat :=
  min ((blocks.takeWhile (· = .ok)).length * bs) f.length

def GateSound (v : LiveVerifier) (slot : Nat) : Prop :=
  ∀ g f bs m, v.gate = some g → v.bound slot = some (f, bs) → g.engagedMark slot = some m →
    (m ≠ U64_MAX → m ≤ okBytes f bs (v.slots slot).blocks) ∧
    ∀ offset p, offset ≤ p → p < g.vouchedEnd slot offset → p < f.length →
      p / bs < (v.slots slot).blocks.length → (v.slots slot).blocks[p / bs]? = some .ok

/-- A mark over a grid: every byte below it is in an Ok block, and a finite one stays in the grid. -/
def MarkOk (f : Par2File) (bs : Nat) (blocks : List BlockState) (m : Nat) : Prop :=
  (∀ p < m, p / bs < blocks.length → blocks[p / bs]? = some .ok) ∧
  (m = U64_MAX ∨ m ≤ if f.blocks = [] then 0 else f.length)

/-- The invariant of a slot and its cells. -/
structure GateOk (plan : Plan) (s : SlotState) (cell : Option (Option Nat × Option VouchBits)) :
    Prop where
  unbound : s.file = none → s.okPrefix = 0 ∧ s.vouch = false ∧ s.blocks = []
  desc : s.file ≠ none → ∃ f bs, plan.desc s.file = some (f, bs) ∧ s.blocks.length = f.blocks.length
  oks : ∀ i < s.okPrefix, s.blocks[i]? = some .ok
  mark : ∀ f bs m b, plan.desc s.file = some (f, bs) → cell = some (some m, b) →
    MarkOk f bs s.blocks m
  /-- A bitmap the slot does not hold has no bit set, -/
  idle : s.vouch = false → ∀ mark b, cell = some (mark, some b) → ∀ i, b.isOk i = false
  /-- and spans the file the slot is bound to. -/
  spans : s.vouch = false → ∀ f bs mark b, plan.desc s.file = some (f, bs) →
    cell = some (mark, some b) → f.blocks = [] ∨ f.length ≤ b.ok.length * b.blockSize
  /-- A bitmap the slot holds is of its grid, with bits for Ok blocks only. -/
  armed : s.vouch = true → ∀ f bs mark b, plan.desc s.file = some (f, bs) →
    cell = some (mark, some b) → b.blockSize = bs ∧ b.ok.length = s.blocks.length ∧
      ∀ i, b.isOk i = true → s.blocks[i]? = some .ok

abbrev GateAt (v : LiveVerifier) (slot : Nat) : Prop := GateOk v.plan (v.slots slot) (v.cell slot)

theorem Plan.desc_none (plan : Plan) : plan.desc none = none := by cases plan <;> rfl

variable {bs : Nat} {f : Par2File}

/-- The grids of a plan fit their files. -/
theorem Plan.desc_fits {plan : Plan} {file : Option Nat} (h : plan.desc file = some (f, bs)) :
    f.Fits bs := by
  cases plan with
  | waiting => cases h
  | off => cases h
  | active a =>
    obtain ⟨n, -, hn⟩ := bind_eq_some_iff.mp h
    have hmem := mem_of_getElem? hn
    obtain ⟨s, -, hs⟩ := mem_flatMap.mp hmem
    obtain ⟨f', hf', he⟩ := mem_map.mp hs
    cases he
    exact s.fits f hf'

/-- A block of a fitting grid starts inside the file. -/
theorem start_lt_of_fits {i : Nat} (h : f.Fits bs) (hi : i < f.blocks.length) :
    0 < bs ∧ i * bs < f.length := by
  rcases h with h | ⟨hbs, hn⟩
  · rw [h] at hi; cases hi
  · refine ⟨hbs, ?_⟩
    rw [hn] at hi
    have h1 : (i + 1) * bs ≤ f.length + bs - 1 := (Nat.le_div_iff_mul_le hbs).1 hi
    rw [add_mul, one_mul] at h1
    omega

theorem length_le_of_fits (h : f.Fits bs) (hne : f.blocks ≠ []) :
    f.length ≤ f.blocks.length * bs := by
  rcases h with h | ⟨hbs, hn⟩
  · exact absurd h hne
  · rw [hn]
    have h1 := Nat.div_add_mod (f.length + bs - 1) bs
    have h2 := Nat.mod_lt (f.length + bs - 1) hbs
    rw [mul_comm] at h1
    omega

theorem markOk_zero (f : Par2File) (bs : Nat) (blocks : List BlockState) : MarkOk f bs blocks 0 :=
  ⟨fun p hp => absurd hp (Nat.not_lt_zero p), Or.inr (Nat.zero_le _)⟩

theorem markOk_max {blocks : List BlockState} {m n : Nat} (hm : MarkOk f bs blocks m)
    (hn : MarkOk f bs blocks n) : MarkOk f bs blocks (max m n) := by
  rcases le_total m n with h | h
  · rw [max_eq_right h]; exact hn
  · rw [max_eq_left h]; exact hm

/-- A finite mark stays within the Ok prefix. -/
theorem MarkOk.le_okBytes {m : Nat} {blocks : List BlockState} (h : MarkOk f bs blocks m)
    (hfit : f.Fits bs) (hl : blocks.length = f.blocks.length) (hm : m ≠ U64_MAX) :
    m ≤ okBytes f bs blocks := by
  have hlen := h.2.resolve_left hm
  by_cases hne : f.blocks = []
  · rw [if_pos hne] at hlen; omega
  rw [if_neg hne] at hlen
  refine Nat.le_min.2 ⟨?_, hlen⟩
  by_contra hlt
  rw [not_le] at hlt
  -- the first block past the prefix would have to be Ok
  have hk : (blocks.takeWhile (· = .ok)).length < blocks.length := by
    by_contra hk
    have hall := length_le_of_fits hfit hne
    rw [← hl] at hall
    have := Nat.mul_le_mul_right bs (not_lt.mp hk)
    omega
  have hbs := (start_lt_of_fits hfit (hl ▸ hk)).1
  have hok := h.1 _ hlt (by rw [Nat.mul_div_cancel _ hbs]; exact hk)
  rw [Nat.mul_div_cancel _ hbs] at hok
  have hnot := head?_dropWhile_not (fun st : BlockState => decide (st = .ok)) blocks
  have hsplit := takeWhile_append_dropWhile (p := fun st : BlockState => decide (st = .ok))
    (l := blocks)
  rw [← hsplit, getElem?_append_right (by rw [hsplit]), hsplit, Nat.sub_self,
    ← head?_eq_getElem?] at hok
  rw [hok] at hnot
  simp at hnot

theorem GateOk.sound {v : LiveVerifier} {slot : Nat} (h : GateAt v slot) : GateSound v slot := by
  intro g f bs m hg hb hm
  have hcell : v.cell slot = some (some m, g.vouch slot) := by
    rw [LiveVerifier.cell, hg, map_some]
    exact congrArg (fun x => some (x, g.vouch slot)) hm
  have hfit := Plan.desc_fits hb
  have hmark := h.mark f bs m _ hb hcell
  have hfile : (v.slots slot).file ≠ none := by
    intro hn
    rw [LiveVerifier.bound, hn, Plan.desc_none] at hb
    cases hb
  have hlen : (v.slots slot).blocks.length = f.blocks.length := by
    obtain ⟨f', bs', hd, hl⟩ := h.desc hfile
    have he := hd.symm.trans hb
    cases he
    exact hl
  refine ⟨fun hne => hmark.le_okBytes hfit hlen hne, fun offset p hop hp hpl hpn => ?_⟩
  have hwm : g.watermark slot = m := by
    rw [VerifyGate.watermark, show g.marks slot = some m from hm, getD_some]
  have hne : f.blocks ≠ [] := by
    intro hn
    rw [hlen, hn] at hpn
    cases hpn
  unfold VerifyGate.vouchedEnd at hp
  dsimp only at hp
  rw [hwm] at hp
  split at hp
  · exact hmark.1 p hp hpn
  · cases hv : g.vouch slot with
    | none => rw [hv] at hp; dsimp only at hp; omega
    | some b =>
      rw [hv] at hp hcell
      cases hheld : (v.slots slot).vouch with
      | true =>
        obtain ⟨hbs, hn, hok⟩ := h.armed hheld f bs _ b hb hcell
        have hall := length_le_of_fits hfit hne
        have hlt : p < b.ok.length * b.blockSize := by
          rw [hbs, hn, hlen]; omega
        have := hok _ (VouchBits.ok_of_lt_vouchedEnd hop hp hlt)
        rwa [hbs] at this
      | false =>
        have hlt : p < b.ok.length * b.blockSize := by
          have := (h.spans hheld f bs _ b hb hcell).resolve_left hne
          omega
        have := VouchBits.ok_of_lt_vouchedEnd hop hp hlt
        rw [h.idle hheld _ b hcell] at this
        cases this

/-! ## Cells -/

namespace LiveVerifier

variable {v : LiveVerifier} {slot : Nat} {s : SlotState} {a : Active}

@[simp] theorem cell_put {i : Nat} : (v.put slot s).cell i = v.cell i := rfl

theorem cell_onVouch {f : VouchBits → VouchBits} : (v.onVouch slot f).cell slot =
    if (v.slots slot).vouch then (v.cell slot).map fun c => (c.1, c.2.map f) else v.cell slot := by
  unfold onVouch
  split
  · unfold cell
    cases v.gate with
    | none => rfl
    | some g => simp [VerifyGate.onBits]
  · rfl

theorem cell_engageGate : (v.engageGate slot).cell slot =
    (v.cell slot).map fun c => (some (c.1.getD 0), c.2) := by
  unfold engageGate cell
  cases v.gate with
  | none => rfl
  | some g => simp

theorem cell_advance {bytes : Nat} :
    ({ v with gate := v.gate.map (·.advance slot bytes) } : LiveVerifier).cell slot =
      (v.cell slot).map fun c => (some (max bytes (c.1.getD 0)), c.2) := by
  unfold cell
  cases v.gate with
  | none => rfl
  | some g => simp [VerifyGate.advance_marks_self]

end LiveVerifier

/-! ## Operations -/

section Ops

open LiveVerifier

variable {v : LiveVerifier} {slot : Nat} {a : Active}

variable {s : SlotState} {n : Nomination} {m : Option Nomination} {bs : Nat} {holds : Bool}

/-- The invariant looks at the binding, the grid, the prefix and the handle only. -/
theorem GateOk.congr {plan : Plan} {s' : SlotState} {cell : Option (Option Nat × Option VouchBits)}
    (h : GateOk plan s cell) (h1 : s'.file = s.file) (h2 : s'.blocks = s.blocks)
    (h3 : s'.okPrefix = s.okPrefix) (h4 : s'.vouch = s.vouch) : GateOk plan s' cell := by
  cases s
  cases s'
  subst h1 h2 h3 h4
  exact ⟨h.unbound, h.desc, h.oks, h.mark, h.idle, h.spans, h.armed⟩

theorem GateAt.put (h : GateAt v slot) (h1 : s.file = (v.slots slot).file)
    (h2 : s.blocks = (v.slots slot).blocks) (h3 : s.okPrefix = (v.slots slot).okPrefix)
    (h4 : s.vouch = (v.slots slot).vouch) : GateAt (v.put slot s) slot := by
  show GateOk v.plan ((v.put slot s).slots slot) (v.cell slot)
  rw [slots_put_self]
  exact h.congr h1 h2 h3 h4

/-- The bitmap goes with the binding: its bits are cleared, its handle dropped. -/
theorem GateAt.forgetBinding (h : GateAt v slot) : GateAt (v.forgetBinding slot) slot := by
  have hcell : (v.forgetBinding slot).cell slot = (v.onVouch slot .clear).cell slot := rfl
  have hdesc : ∀ f bs, (v.forgetBinding slot).plan.desc none ≠ some (f, bs) := by
    intro f bs hd
    rw [Plan.desc_none] at hd
    cases hd
  show GateOk _ ((v.forgetBinding slot).slots slot) _
  rw [slots_forgetBinding]
  refine ⟨fun _ => ⟨rfl, rfl, rfl⟩, fun hf => absurd rfl hf, fun i hi => absurd hi (Nat.not_lt_zero i),
    fun f bs m b hd => absurd hd (hdesc f bs), fun _ mark b hc i => ?_,
    fun _ f bs mark b hd => absurd hd (hdesc f bs), fun hv => (nomatch hv)⟩
  rw [hcell, cell_onVouch] at hc
  cases hv : (v.slots slot).vouch with
  | false =>
    rw [hv] at hc
    exact h.idle hv mark b hc i
  | true =>
    rw [hv, if_pos rfl] at hc
    obtain ⟨c, -, he⟩ := map_eq_some_iff.mp hc
    obtain ⟨b', -, hb⟩ := map_eq_some_iff.mp (Prod.ext_iff.mp he).2
    rw [← hb]
    exact VouchBits.isOk_clear b' i

/-- The gate holds nothing of an earlier binding that the nominated descriptor could be read
through: no mark is up, and a bitmap left behind spans the new file. -/
def Unraised (v : LiveVerifier) (slot : Nat) (n : Nomination) : Prop :=
  ∀ mark b, v.cell slot = some (mark, b) → mark.getD 0 = 0 ∧
    ∀ f bs b', v.plan.desc (some n.file) = some (f, bs) → b = some b' →
      f.blocks = [] ∨ f.length ≤ b'.ok.length * b'.blockSize

/-- Nothing in the check of `Unraised` moves when a binding is dropped. -/
theorem Unraised.forgetBinding (h : Unraised v slot n) :
    Unraised (v.forgetBinding slot) slot n := by
  have hcell : (v.forgetBinding slot).cell slot = (v.onVouch slot .clear).cell slot := rfl
  have hplan : (v.forgetBinding slot).plan = v.plan := plan_onVouch
  intro mark b hc
  rw [hplan]
  rw [hcell, cell_onVouch] at hc
  split at hc
  · obtain ⟨⟨cm, cb⟩, hc', he⟩ := map_eq_some_iff.mp hc
    cases he
    obtain ⟨h1, h2⟩ := h cm cb hc'
    refine ⟨h1, fun f bs b' hd hb => ?_⟩
    obtain ⟨b'', hb'', rfl⟩ := map_eq_some_iff.mp hb
    have := h2 f bs b'' hd hb''
    rwa [show b''.clear.ok.length = b''.ok.length by simp [VouchBits.clear]]
  · exact h mark b hc

theorem GateAt.bind {f : Par2File × Nat} (h : GateAt v slot) (hp : v.plan = .active a)
    (hf : (v.slots slot).file = none) (hn : a.files[n.file]? = some f) (hu : Unraised v slot n) :
    GateAt (v.put slot ((v.slots slot).bind n f.1)) slot := by
  obtain ⟨hpre, hvouch, -⟩ := h.unbound hf
  have hdesc : v.plan.desc (some n.file) = some f := by rw [hp]; exact hn
  show GateOk v.plan ((v.put slot ((v.slots slot).bind n f.1)).slots slot) (v.cell slot)
  rw [slots_put_self]
  refine ⟨fun hf => (nomatch hf), fun _ => ⟨f.1, f.2, hdesc, length_replicate⟩, fun i hi => ?_,
    fun f' bs m b _ hc => ?_, fun _ => h.idle hvouch, fun _ f' bs mark b hd hc => ?_, fun hv => ?_⟩
  · have : i < (v.slots slot).okPrefix := hi
    omega
  · have hm := (hu _ _ hc).1
    subst hm
    exact markOk_zero _ _ _
  · exact (hu _ _ hc).2 f' bs b hd rfl
  · have : (v.slots slot).vouch = true := hv
    rw [hvouch] at this
    cases this

theorem GateAt.tryMatch {v' : LiveVerifier} (h : GateAt v slot) (hp : v.plan = .active a)
    (hf : (v.slots slot).file = none) (hu : ∀ n, m = some n → Unraised v slot n)
    (ht : v.tryMatch slot a m = some v') : GateAt v' slot := by
  obtain ⟨n, f, rfl, hn, rfl⟩ := tryMatch_eq ht
  exact h.bind hp hf hn (hu n rfl)

theorem GateOk.markOk_getD {plan : Plan} {mark : Option Nat} {b : Option VouchBits}
    (h : GateOk plan s (some (mark, b))) {f : Par2File} (hd : plan.desc s.file = some (f, bs)) :
    MarkOk f bs s.blocks (mark.getD 0) := by
  cases mark with
  | none => exact markOk_zero _ _ _
  | some m => exact h.mark f bs m b hd rfl

/-- A mark raised to `max bytes`, where the grid bears `bytes`. -/
theorem GateAt.raise {v' : LiveVerifier} (h : GateAt v slot) (bytes : Nat)
    (hplan : v'.plan = v.plan) (hslot : v'.slots slot = v.slots slot)
    (hcell : v'.cell slot = (v.cell slot).map fun c => (some (max bytes (c.1.getD 0)), c.2))
    (hmark : ∀ f bs, v.plan.desc (v.slots slot).file = some (f, bs) →
      MarkOk f bs (v.slots slot).blocks bytes) :
    GateAt v' slot := by
  unfold GateAt at h ⊢
  rw [hplan, hslot, hcell]
  generalize v.cell slot = cell at h
  cases cell with
  | none =>
    exact ⟨h.unbound, h.desc, h.oks, fun _ _ _ _ _ hc => (nomatch hc), fun _ _ _ hc => (nomatch hc),
      fun _ _ _ _ _ _ hc => (nomatch hc), fun _ _ _ _ _ _ hc => (nomatch hc)⟩
  | some c =>
    obtain ⟨mark, bits⟩ := c
    refine ⟨h.unbound, h.desc, h.oks, fun f bs m b hd hc => ?_, fun hv _ b hc => ?_,
      fun hv f bs _ b hd hc => ?_, fun hv f bs _ b hd hc => ?_⟩
    · cases hc
      exact markOk_max (hmark f bs hd) (h.markOk_getD hd)
    · cases hc
      exact h.idle hv mark b rfl
    · cases hc
      exact h.spans hv f bs mark b hd rfl
    · cases hc
      exact h.armed hv f bs mark b hd rfl

theorem GateAt.engageGate (h : GateAt v slot) : GateAt (v.engageGate slot) slot := by
  refine GateAt.raise h 0 rfl rfl ?_ fun f bs _ => markOk_zero _ _ _
  rw [cell_engageGate]
  simp only [zero_max]

/-- `u64::MAX` over a grid that is all Ok, or empty. -/
theorem GateAt.advanceMax (h : GateAt v slot)
    (hall : ∀ f bs, v.plan.desc (v.slots slot).file = some (f, bs) →
      ∀ i < (v.slots slot).blocks.length, (v.slots slot).blocks[i]? = some .ok) :
    GateAt { v with gate := v.gate.map (·.advance slot U64_MAX) } slot :=
  GateAt.raise h U64_MAX rfl rfl cell_advance fun f bs hd =>
    ⟨fun _ _ hp => hall f bs hd _ hp, Or.inl rfl⟩

/-- Verdicts that take no Ok back, with the bits the slot's handle sets for them. -/
theorem GateAt.grid {v' : LiveVerifier} (h : GateAt v slot) (bits : VouchBits → VouchBits)
    (hplan : v'.plan = v.plan) (hfile : (v'.slots slot).file = (v.slots slot).file)
    (hpre : (v'.slots slot).okPrefix = (v.slots slot).okPrefix)
    (hvouch : (v'.slots slot).vouch = (v.slots slot).vouch)
    (hlen : (v'.slots slot).blocks.length = (v.slots slot).blocks.length)
    (hkeep : ∀ i : Nat, (v.slots slot).blocks[i]? = some BlockState.ok →
      (v'.slots slot).blocks[i]? = some BlockState.ok)
    (hcell : v'.cell slot = if (v.slots slot).vouch then
      (v.cell slot).map fun c => (c.1, c.2.map bits) else v.cell slot)
    (hbits : ∀ b, (bits b).blockSize = b.blockSize ∧ (bits b).ok.length = b.ok.length ∧
      ∀ i, (bits b).isOk i = true → b.ok.length = (v.slots slot).blocks.length →
        b.isOk i = true ∨ (v'.slots slot).blocks[i]? = some .ok) :
    GateAt v' slot := by
  unfold GateAt at h ⊢
  rw [hplan, hcell]
  have hmarkOk : ∀ f bs m, MarkOk f bs (v.slots slot).blocks m →
      MarkOk f bs (v'.slots slot).blocks m := by
    intro f bs m hm
    exact ⟨fun p hp hn => hkeep _ (hm.1 p hp (hlen ▸ hn)), hm.2⟩
  refine ⟨fun hf => ?_, fun hf => ?_, fun i hi => hkeep i (h.oks i (hpre ▸ hi)),
    fun f bs m b hd hc => ?_, fun hv mark b hc => ?_, fun hv f bs mark b hd hc => ?_,
    fun hv f bs mark b hd hc => ?_⟩
  · obtain ⟨h1, h2, h3⟩ := h.unbound (hfile ▸ hf)
    refine ⟨hpre.trans h1, hvouch.trans h2, ?_⟩
    rw [h3] at hlen
    exact length_eq_zero_iff.mp hlen
  · obtain ⟨f, bs, hd, hl⟩ := h.desc (hfile ▸ hf)
    exact ⟨f, bs, by rw [hfile]; exact hd, hlen.trans hl⟩
  · rw [hfile] at hd
    split at hc
    · obtain ⟨⟨cm, cb⟩, hc', he⟩ := map_eq_some_iff.mp hc
      cases he
      exact hmarkOk _ _ _ (h.mark f bs m cb hd hc')
    · exact hmarkOk _ _ _ (h.mark f bs m b hd hc)
  · rw [hvouch] at hv
    rw [hv, if_neg Bool.false_ne_true] at hc
    exact h.idle hv mark b hc
  · rw [hvouch] at hv
    rw [hfile] at hd
    rw [hv, if_neg Bool.false_ne_true] at hc
    exact h.spans hv f bs mark b hd hc
  · rw [hvouch] at hv
    rw [hfile] at hd
    rw [hv, if_pos rfl] at hc
    obtain ⟨⟨cm, cb⟩, hc', he⟩ := map_eq_some_iff.mp hc
    obtain ⟨b', rfl, rfl⟩ := map_eq_some_iff.mp (Prod.ext_iff.mp he).2
    obtain ⟨h1, h2, h3⟩ := h.armed hv f bs cm b' hd hc'
    obtain ⟨hb1, hb2, hb3⟩ := hbits b'
    refine ⟨hb1.trans h1, (hb2.trans h2).trans hlen.symm, fun i hi => ?_⟩
    rcases hb3 i hi h2 with hi | hi
    · exact hkeep i (h3 i hi)
    · exact hi

/-! ## A publish -/

theorem publishedPrefix_ok (h : ∀ i < s.okPrefix, s.blocks[i]? = some .ok) {i : Nat}
    (hi : i < LiveVerifier.publishedPrefix s) : s.blocks[i]? = some .ok := by
  by_cases hlt : i < s.okPrefix
  · exact h i hlt
  -- past the old prefix the walk stops at the first block that is not Ok
  have hk : i - s.okPrefix < ((s.blocks.drop s.okPrefix).takeWhile (· = .ok)).length := by
    unfold LiveVerifier.publishedPrefix at hi
    omega
  have hmem := getElem_mem hk
  have hok := all_eq_true.mp all_takeWhile _ hmem
  have hget := prefix_iff_getElem?.mp ( takeWhile_prefix _) _ hk
  rw [of_decide_eq_true hok, getElem?_drop] at hget
  rwa [show s.okPrefix + (i - s.okPrefix) = i by omega] at hget

theorem publishedPrefix_le (h : ∀ i < s.okPrefix, s.blocks[i]? = some .ok) :
    LiveVerifier.publishedPrefix s ≤ s.blocks.length := by
  by_contra hlt
  have := publishedPrefix_ok h (not_le.mp hlt)
  rw [getElem?_eq_none (le_refl _)] at this
  cases this

theorem markOk_published {f : Par2File} {k : Nat} {blocks : List BlockState} (hfit : f.Fits bs)
    (hl : blocks.length = f.blocks.length) (hk : k ≤ blocks.length)
    (hok : ∀ i < k, blocks[i]? = some .ok) :
    MarkOk f bs blocks (if k = blocks.length then U64_MAX else k * bs) := by
  split
  case isTrue h => exact ⟨fun p _ hp => hok _ (h ▸ hp), Or.inl rfl⟩
  case isFalse h =>
    obtain ⟨hbs, hlt⟩ := start_lt_of_fits hfit (i := k) (by omega)
    refine ⟨fun p hp _ => hok _ ((Nat.div_lt_iff_lt_mul hbs).2 hp), Or.inr ?_⟩
    rw [if_neg fun hn => by rw [hn] at hl; rw [length_nil] at hl; omega]
    exact hlt.le

theorem GateAt.gatePublish (h : GateAt v slot)
    (hbs : ∀ f bs', v.bound slot = some (f, bs') → bs' = bs) :
    GateAt (v.gatePublish slot bs) slot := by
  by_cases hf : (v.slots slot).file = none
  · rw [gatePublish_unbound hf]; exact h
  obtain ⟨f, bs', hd, hl⟩ := h.desc hf
  obtain rfl := hbs f bs' hd
  have hok : ∀ i < publishedPrefix (v.slots slot),
      (v.slots slot).blocks[i]? = some .ok := fun i hi => publishedPrefix_ok h.oks hi
  rw [gatePublish_eq hf]
  cases hg : v.gate with
  | none =>
    have hc : v.cell slot = none := by rw [cell, hg]; rfl
    show GateOk v.plan ((v.put slot _).slots slot) (v.cell slot)
    rw [slots_put_self, hc]
    refine ⟨fun hn => absurd hn hf, fun _ => ⟨f, bs', hd, hl⟩, hok, fun _ _ _ _ _ hc => ?_,
      fun _ _ _ hc => ?_, fun _ _ _ _ _ _ hc => ?_, fun _ _ _ _ _ _ hc => ?_⟩ <;> cases hc
  | some g =>
    have hc : v.cell slot = some (g.marks slot, g.vouch slot) := by rw [cell, hg]; rfl
    have hmark : MarkOk f bs' (v.slots slot).blocks ((g.marks slot).getD 0) := by
      have h' := h
      unfold GateAt at h'
      rw [hc] at h'
      exact h'.markOk_getD hd
    unfold GateAt
    simp only [cell, map_some, slots_put_self, plan_put, publishedGate,
      VerifyGate.advance_marks_self, VerifyGate.advance_vouch]
    refine ⟨fun hn => absurd hn hf, fun _ => ⟨f, bs', hd, hl⟩, hok, fun f' bs m b hd' hc' => ?_,
      fun hv => ?_, fun hv => ?_, fun _ f' bs mark b hd' hc' => ?_⟩
    case refine_2 => cases hv
    case refine_3 => cases hv
    · cases hd.symm.trans hd'
      cases hc'
      have hm : ∀ g' : VerifyGate, g'.marks = g.marks →
          MarkOk f bs' (v.slots slot).blocks (max _ ((g'.marks slot).getD 0)) := fun g' he =>
        markOk_max (markOk_published (Plan.desc_fits hd) hl (publishedPrefix_le h.oks) hok)
          (by rw [he]; exact hmark)
      exact hm _ (by split <;> rfl)
    · cases hd.symm.trans hd'
      have hb := (Prod.ext_iff.mp (some.inj hc')).2
      dsimp only at hb
      split at hb
      case isTrue hv => exact h.armed hv f bs' _ b hd (hc.trans (by rw [hb]))
      case isFalse =>
        simp only [VerifyGate.onBits, VerifyGate.armVouch, Function.update_self,
          map_some, some.injEq] at hb
        subst hb
        refine ⟨VouchBits.blockSize_seed _ _, ?_, fun i hi => ?_⟩
        · rw [VouchBits.length_seed]; simp [VouchBits.new]
        · rw [VouchBits.isOk_seed, VouchBits.isOk_new] at hi
          have := (hi.resolve_left Bool.false_ne_true).1
          exact of_decide_eq_true (mem_filter.mp this).2

/-! ## Verdicts -/

/-- A verdict put at `bi`, keeping every Ok. -/
theorem GateAt.setBlock (h : GateAt v slot) (bi : Nat) (st : BlockState)
    (hfile : s.file = (v.slots slot).file) (hpre : s.okPrefix = (v.slots slot).okPrefix)
    (hvouch : s.vouch = (v.slots slot).vouch) (hblocks : s.blocks = (v.slots slot).blocks.set bi st)
    (hkeep : (v.slots slot).blocks[bi]? = some .ok → st = .ok) :
    GateAt (v.put slot s) slot ∧
    (st = .ok → GateAt ((v.put slot s).onVouch slot (·.setOk bi)) slot) := by
  have hget : ∀ i : Nat, (v.slots slot).blocks[i]? = some BlockState.ok →
      s.blocks[i]? = some BlockState.ok := by
    intro i hi
    rw [hblocks, getElem?_set]
    split
    case isTrue he =>
      subst he
      rw [if_pos (List.getElem?_eq_some_iff.mp hi).1, hkeep hi]
    case isFalse => exact hi
  have hlen : s.blocks.length = (v.slots slot).blocks.length := by rw [hblocks, length_set]
  constructor
  · refine h.grid id rfl ?_ ?_ ?_ ?_ ?_ ?_ fun b => ⟨rfl, rfl, fun i hi _ => Or.inl hi⟩
    all_goals simp only [slots_put_self, cell_put]
    · exact hfile
    · exact hpre
    · exact hvouch
    · exact hlen
    · exact hget
    · simp
  · intro hst
    refine h.grid (·.setOk bi) plan_onVouch ?_ ?_ ?_ ?_ ?_ ?_
      fun b => ⟨rfl, b.length_setOk bi, fun i hi hn => ?_⟩
    all_goals simp only [slots_put_self, slots_onVouch,
      cell_onVouch, cell_put]
    · exact hfile
    · exact hpre
    · exact hvouch
    · exact hlen
    · exact hget
    · rw [hvouch]
    · rcases (b.isOk_setOk bi i).mp hi with hi | ⟨rfl, hlt⟩
      · exact Or.inl hi
      · rw [hblocks, hst, getElem?_set_self (hn ▸ hlt)]
        exact Or.inr rfl

theorem GateAt.record (h : GateAt v slot) (bi : Nat) (ok : Bool) :
    GateAt (v.record slot bi ok) slot := by
  unfold LiveVerifier.record
  dsimp only
  split
  case isTrue hp =>
    have hkeep : ∀ st, (v.slots slot).blocks[bi]? = some .ok → st = BlockState.ok := by
      intro st hok
      rw [hp] at hok
      cases hok
    cases ok with
    | true => refine (h.setBlock bi .ok ?_ ?_ ?_ ?_ (hkeep _)).2 rfl <;> rfl
    | false => refine (h.setBlock bi .bad ?_ ?_ ?_ ?_ (hkeep _)).1 <;> rfl
  case isFalse => exact h

theorem GateAt.recordResult (h : GateAt v slot) (x : Nat × BlockVerdict) :
    GateAt (LiveVerifier.recordResult slot v x) slot := by
  refine GateAt.record (h.put ?_ ?_ ?_ ?_) _ _ <;> rfl

theorem GateAt.used {used : Nat} (h : GateAt v slot) :
    GateAt { v with partialsUsed := used } slot := h

theorem GateAt.joinFrag {d : Digests} {j : Job} {parts : CrcParts} {bi os oe crc : Nat}
    (h : GateAt v j.slot) : GateAt (LiveVerifier.joinFrag d j v parts bi os oe crc) j.slot := by
  unfold LiveVerifier.joinFrag
  split
  · exact h.put rfl rfl rfl rfl
  · split
    · refine GateAt.record (h.put ?_ ?_ ?_ ?_) _ _ <;> rfl
    · exact h.put rfl rfl rfl rfl

theorem GateAt.recordFrag {d : Digests} {j : Job} (h : GateAt v j.slot)
    (x : Nat × Nat × Nat × Nat) : GateAt (LiveVerifier.recordFrag d j v x) j.slot := by
  unfold LiveVerifier.recordFrag
  dsimp only
  split
  · exact GateAt.used (h.put rfl rfl rfl rfl)
  · split
    · exact h.joinFrag
    · exact h

theorem GateAt.foldl {α : Type} {step : LiveVerifier → α → LiveVerifier}
    (hstep : ∀ v x, GateAt v slot → GateAt (step v x) slot) (xs : List α) (h : GateAt v slot) :
    GateAt (xs.foldl step v) slot := by
  induction xs generalizing v with
  | nil => exact h
  | cons x xs ih => exact ih (hstep v x h)

/-- The record phase of a job of the slot's generation. -/
theorem GateAt.onDataRecord {O : Origin} {j : Job} (hw : O.WorkOk j) (hg : Good O j v)
    (hnr : v.noReuse = O.noReuse) (h : GateAt v j.slot) :
    GateAt (v.onDataRecord O.d j) j.slot := by
  unfold LiveVerifier.onDataRecord
  dsimp only
  rw [hnr]
  split
  · exact h
  split
  · exact h
  · have h1 := Recorded.foldl (j.results O.d O.noReuse)
      (fun v x hx hg => recorded_recordResult hw hg hx) hg
    have h2 := Recorded.foldl (j.crcFrags O.d O.noReuse)
      (fun v x hx hg => recorded_recordFrag hw hg hx) (h1.good hg)
    have hdesc := ((h1.trans h2).good hg).desc
    refine GateAt.gatePublish ?_ fun f bs' hb => ?_
    · exact GateAt.foldl (fun _ x h => h.recordFrag x) _
        (GateAt.foldl (fun _ x h => h.recordResult x) _ h)
    · cases hdesc.symm.trans hb
      rfl

theorem GateAt.claimSpan {f : Feed} (h : GateAt v slot) : GateAt (v.claimSpan slot a f).1 slot := by
  rcases claimSpan_cases v slot a f with he | ⟨_, _, _, c, _, hc, he⟩
  · rw [he]; exact h
  · rw [he]
    exact GateAt.used (h.put hc.same.file hc.same.blocks hc.same.okPrefix hc.same.vouch)

/-! ## Read-back -/

section Readback

variable {d : Digests} {file : Par2File} {bs : Nat} {src : ReadAt}

theorem blocks_readbackBlock {bi : Nat} :
    ((LiveVerifier.readbackBlock d file bs src slot v bi).slots slot).blocks =
      (v.slots slot).blocks.set bi
        (if LiveVerifier.readVerdict d file bs src bi = .ok then .ok else .bad) := by
  unfold LiveVerifier.readbackBlock
  dsimp only
  split <;> simp

theorem bound_readbackBlock {bi : Nat} :
    (LiveVerifier.readbackBlock d file bs src slot v bi).bound slot = v.bound slot := by
  unfold LiveVerifier.bound LiveVerifier.readbackBlock
  dsimp only
  split <;> simp

/-- A block read back keeps the gate, unless it takes an Ok back. -/
theorem GateAt.readbackBlock {bi : Nat} (h : GateAt v slot)
    (hkeep : (v.slots slot).blocks[bi]? = some .ok →
      LiveVerifier.readVerdict d file bs src bi = .ok) :
    GateAt (LiveVerifier.readbackBlock d file bs src slot v bi) slot := by
  unfold LiveVerifier.readbackBlock
  dsimp only
  split
  case isTrue hok => refine (h.setBlock bi .ok ?_ ?_ ?_ ?_ fun _ => rfl).2 rfl <;> rfl
  case isFalse hok =>
    refine (h.setBlock bi .bad ?_ ?_ ?_ ?_ fun hb => absurd (hkeep hb) hok).1 <;> rfl

theorem GateAt.readbackBlocks {want : List Nat} (h : GateAt v slot)
    (hb : v.bound slot = some (file, bs))
    (hkeep : ∀ bi ∈ want, (v.slots slot).blocks[bi]? = some .ok →
      LiveVerifier.readVerdict d file bs src bi = .ok) :
    GateAt (v.readbackBlocks d slot file bs src want) slot := by
  -- over the fold: an Ok among the blocks still wanted reads back Ok
  have hfold : ∀ (todo : List Nat) (v : LiveVerifier), GateAt v slot →
      v.bound slot = some (file, bs) →
      (∀ bi ∈ todo, (v.slots slot).blocks[bi]? = some .ok →
        readVerdict d file bs src bi = .ok) →
      GateAt (todo.foldl (LiveVerifier.readbackBlock d file bs src slot) v) slot ∧
      (todo.foldl (LiveVerifier.readbackBlock d file bs src slot) v).bound slot =
        some (file, bs) := by
    intro todo
    induction todo with
    | nil => exact fun v h hb _ => ⟨h, hb⟩
    | cons bi todo ih =>
      intro v h hb hkeep
      refine ih _ (h.readbackBlock (hkeep bi (by simp))) (bound_readbackBlock.trans hb) ?_
      intro bi' hmem hok
      rw [blocks_readbackBlock, getElem?_set] at hok
      split at hok
      case isTrue he =>
        subst he
        by_contra hne
        split at hok <;> cases hok
      case isFalse => exact hkeep bi' (by simp [hmem]) hok
  unfold LiveVerifier.readbackBlocks
  split
  · exact h
  · obtain ⟨h1, h2⟩ := hfold want v h hb hkeep
    refine h1.gatePublish fun f bs' hb' => ?_
    cases h2.symm.trans hb'
    rfl

theorem GateAt.acceptWhole (h : GateAt v slot) (hb : v.bound slot = some (file, bs)) :
    GateAt (v.acceptWhole slot bs) slot := by
  have hbs : ∀ v' : LiveVerifier, v'.bound slot = v.bound slot →
      ∀ f bs', v'.bound slot = some (f, bs') → bs' = bs := by
    intro v' he f bs' hb'
    rw [he, hb] at hb'
    cases hb'
    rfl
  refine GateAt.gatePublish ?_ (hbs _ (by simp [bound]))
  refine h.grid (·.seed (range (v.slots slot).blocks.length)) plan_onVouch
    ?_ ?_ ?_ ?_ ?_ ?_ fun b => ⟨b.blockSize_seed _, b.length_seed _, fun i hi hn => ?_⟩
  all_goals simp only [slots_put_self, slots_onVouch,
    cell_onVouch, cell_put, length_replicate]
  · intro i hi
    rw [getElem?_replicate, if_pos (List.getElem?_eq_some_iff.mp hi).1]
  · rcases (b.isOk_seed _ i).mp hi with hi | ⟨-, hlt⟩
    · exact Or.inl hi
    · exact Or.inr (by rw [getElem?_replicate, if_pos (hn ▸ hlt)])

theorem bound_of_moved {v' : LiveVerifier} (hplan : v'.plan = v.plan)
    (hfile : (v'.slots slot).file = (v.slots slot).file) : v'.bound slot = v.bound slot := by
  rw [bound, bound, hplan, hfile]

theorem binding_readbackBlocks {want : List Nat} :
    ((v.readbackBlocks d slot file bs src want).slots slot).file = (v.slots slot).file ∧
    ((v.readbackBlocks d slot file bs src want).slots slot).confirmed =
      (v.slots slot).confirmed := by
  have hfold : ∀ (todo : List Nat) (v : LiveVerifier),
      ((todo.foldl (LiveVerifier.readbackBlock d file bs src slot) v).slots slot).file =
        (v.slots slot).file ∧
      ((todo.foldl (LiveVerifier.readbackBlock d file bs src slot) v).slots slot).confirmed =
        (v.slots slot).confirmed := by
    intro todo
    induction todo with
    | nil => exact fun v => ⟨rfl, rfl⟩
    | cons bi todo ih =>
      intro v
      have hstep : ((LiveVerifier.readbackBlock d file bs src slot v bi).slots slot).file =
            (v.slots slot).file ∧
          ((LiveVerifier.readbackBlock d file bs src slot v bi).slots slot).confirmed =
            (v.slots slot).confirmed := by
        unfold LiveVerifier.readbackBlock
        dsimp only
        split <;> simp
      exact ⟨(ih _).1.trans hstep.1, (ih _).2.trans hstep.2⟩
  unfold LiveVerifier.readbackBlocks
  split
  · exact ⟨rfl, rfl⟩
  · obtain ⟨okPrefix, vouch, h⟩ := slots_gatePublish
      (want.foldl (LiveVerifier.readbackBlock d file bs src slot) v) slot bs
    rw [h]
    exact hfold want v

theorem bound_readbackBlocks {want : List Nat} :
    (v.readbackBlocks d slot file bs src want).bound slot = v.bound slot :=
  bound_of_moved (moved_readbackBlocks (a := ⟨[]⟩)).frame.plan binding_readbackBlocks.1

theorem GateAt.settleBlocks (h : GateAt v slot) (hb : v.bound slot = some (file, bs)) :
    GateAt (v.settleBlocks d slot file bs src) slot := by
  have h1 : GateAt (v.readbackBlocks d slot file bs src (v.blocksIn slot .pending)) slot := by
    refine h.readbackBlocks hb fun bi hbi hok => ?_
    have := of_decide_eq_true (mem_filter.mp hbi).2
    rw [this] at hok
    cases hok
  unfold LiveVerifier.settleBlocks
  dsimp only
  split
  · exact h1.acceptWhole (bound_readbackBlocks.trans hb)
  · exact h1

/-- Releasing an unbound slot says nothing about a grid. -/
theorem GateAt.releaseUnbound (h : GateAt v slot) (hf : (v.slots slot).file = none) :
    GateAt (v.releaseUnbound slot) slot := by
  obtain ⟨h1, h2, h3⟩ := h.unbound hf
  have hdesc : ∀ f bs, v.plan.desc (v.slots slot).file ≠ some (f, bs) := by
    intro f bs hd
    rw [hf, Plan.desc_none] at hd
    cases hd
  refine ⟨fun _ => ⟨h1, h2, h3⟩, fun hn => absurd hf hn, h.oks,
    fun f bs m b hd => absurd hd (hdesc f bs), fun hv mark b hc => ?_,
    fun _ f bs mark b hd => absurd hd (hdesc f bs), fun _ f bs mark b hd => absurd hd (hdesc f bs)⟩
  unfold LiveVerifier.releaseUnbound LiveVerifier.cell at hc
  cases hg : v.gate with
  | none => rw [hg] at hc; cases hc
  | some g =>
    rw [hg] at hc
    refine h.idle hv (g.marks slot) b ?_
    have hb := (Prod.ext_iff.mp (some.inj hc)).2
    dsimp only at hb
    have hb' : g.vouch slot = some b := by
      split at hb
      · rwa [VerifyGate.advance_vouch] at hb
      · exact hb
    rw [cell, hg, map_some, hb']

theorem GateAt.finishBound (h : GateAt v slot) (hp : v.plan = .active a) :
    GateAt (v.finishBound d slot a src) slot := by
  have hdesc : v.bound slot = (v.slots slot).file.bind (a.files[·]?) := by
    rw [bound, hp]
    rfl
  unfold LiveVerifier.finishBound
  rw [← hdesc]
  cases hb : v.bound slot with
  | none =>
    refine h.releaseUnbound ?_
    by_contra hf
    obtain ⟨f, bs, hd, -⟩ := h.desc hf
    have := hd.symm.trans hb
    cases this
  | some x =>
    obtain ⟨file, bs⟩ := x
    have hdrop : GateAt (v.dropPartials slot) slot := GateAt.used (h.put rfl rfl rfl rfl)
    have hb' : (v.dropPartials slot).bound slot = some (file, bs) := by
      rw [← hb]
      exact bound_of_moved rfl (by simp [dropPartials])
    dsimp only
    split
    case isTrue hn =>
      refine hdrop.advanceMax fun f bs' hd i hi => ?_
      cases hb'.symm.trans hd
      obtain ⟨f', bs'', hd', hl⟩ := hdrop.desc (by
        intro hf
        rw [bound, hf, Plan.desc_none] at hb'
        cases hb')
      cases hb'.symm.trans hd'
      rw [hl, hn] at hi
      cases hi
    case isFalse => exact hdrop.settleBlocks hb'

theorem GateAt.forcedReadback (h : GateAt v slot) (hp : v.plan = .active a)
    (hkeep : (v.slots slot).confirmed = false → (v.slots slot).headNominated = true →
      ∀ f bs, v.bound slot = some (f, bs) → ∀ bi ∈ (v.slots slot).readbackForced,
        (v.slots slot).blocks[bi]? = some .ok → LiveVerifier.readVerdict d f bs src bi = .ok) :
    GateAt (v.forcedReadback d slot a src) slot := by
  have hput : GateAt (v.put slot { v.slots slot with readbackForced := [] }) slot :=
    h.put rfl rfl rfl rfl
  unfold LiveVerifier.forcedReadback
  dsimp only
  split
  case isTrue hc =>
    simp only [Bool.and_eq_true, Bool.not_eq_true'] at hc
    have hdesc : v.bound slot = (v.slots slot).file.bind (a.files[·]?) := by
      rw [bound, hp]
      rfl
    rw [← hdesc]
    cases hb : v.bound slot with
    | none => exact hput
    | some x =>
      obtain ⟨file, bs⟩ := x
      dsimp only
      split
      · have hb' : (v.put slot { v.slots slot with readbackForced := [] }).bound slot =
            some (file, bs) := by
          rw [← hb]
          exact bound_of_moved rfl (by simp)
        refine hput.readbackBlocks hb' fun bi hbi hok => ?_
        rw [slots_put_self] at hok
        exact hkeep hc.1.1 hc.1.2 file bs hb bi hbi hok
      · exact hput
  case isFalse => exact hput

theorem binding_forcedReadback (v : LiveVerifier) (slot : Nat) (a : Active) (d : Digests)
    (src : ReadAt) :
    ((v.forcedReadback d slot a src).slots slot).file = (v.slots slot).file ∧
    ((v.forcedReadback d slot a src).slots slot).confirmed = (v.slots slot).confirmed := by
  have hput : ((v.put slot { v.slots slot with readbackForced := [] }).slots slot).file =
        (v.slots slot).file ∧
      ((v.put slot { v.slots slot with readbackForced := [] }).slots slot).confirmed =
        (v.slots slot).confirmed := by simp
  unfold LiveVerifier.forcedReadback
  dsimp only
  split
  · split
    · split
      · exact ⟨binding_readbackBlocks.1.trans hput.1, binding_readbackBlocks.2.trans hput.2⟩
      · exact hput
    · exact hput
  · exact hput

end Readback

/-! ## Bindings made and dropped -/

theorem Unraised.congr {v' : LiveVerifier} (h : Unraised v slot n) (hplan : v'.plan = v.plan)
    (hcell : v'.cell slot = v.cell slot) : Unraised v' slot n := by
  unfold Unraised
  rw [hplan, hcell]
  exact h

theorem GateAt.settleBinding (h : GateAt v slot) : GateAt (v.settleBinding slot holds).1 slot := by
  unfold LiveVerifier.settleBinding
  dsimp only
  split
  · exact h
  split
  · exact h
  split
  · exact h.put rfl rfl rfl rfl
  · exact h

/-- What settling answers: nothing to settle, a binding kept, or one the evidence denies. -/
theorem settleBinding_cases (v : LiveVerifier) (slot : Nat) (holds : Bool) :
    ((v.slots slot).file = none ∧ v.settleBinding slot holds = (v, false)) ∨
    ((v.slots slot).file ≠ none ∧ ((v.settleBinding slot holds).1.slots slot).file ≠ none ∧
      (v.settleBinding slot holds).2 = true) ∨
    ((v.slots slot).file ≠ none ∧ (v.slots slot).confirmed = false ∧ holds = false ∧
      v.settleBinding slot holds = (v, false)) := by
  unfold LiveVerifier.settleBinding
  dsimp only
  split
  case isTrue hf => exact Or.inl ⟨hf, rfl⟩
  case isFalse hf =>
    split
    case isTrue => exact Or.inr (Or.inl ⟨hf, hf, rfl⟩)
    case isFalse hc =>
      split
      case isTrue => exact Or.inr (Or.inl ⟨hf, by simpa using hf, rfl⟩)
      case isFalse hh =>
        exact Or.inr (Or.inr ⟨hf, by simpa using hc, by simpa using hh, rfl⟩)

theorem cell_settleBinding : (v.settleBinding slot holds).1.cell slot = v.cell slot := by
  unfold LiveVerifier.settleBinding
  dsimp only
  split
  · rfl
  split
  · rfl
  split
  · rfl
  · rfl

/-- What a match over an unbound slot leaves: the invariant, and while it bound nothing, an unbound
slot over the same cells. -/
structure Matched (v : LiveVerifier) (slot : Nat) (x : LiveVerifier × Bool) : Prop where
  gate : GateAt x.1 slot
  plan : x.1.plan = v.plan
  file : x.2 = false → (x.1.slots slot).file = none
  unraised : x.2 = false → ∀ n, Unraised v slot n → Unraised x.1 slot n

theorem Matched.none (h : GateAt v slot) (hf : (v.slots slot).file = none) :
    Matched v slot (v, false) := ⟨h, rfl, fun _ => hf, fun _ _ hu => hu⟩

theorem Matched.trans {x : LiveVerifier × Bool} {y : LiveVerifier × Bool} (hx : Matched v slot x)
    (hb : x.2 = false) (hy : Matched x.1 slot y) : Matched v slot y :=
  ⟨hy.gate, hy.plan.trans hx.plan, hy.file, fun h n hu => hy.unraised h n (hx.unraised hb n hu)⟩

theorem matched_matchAtFinish (h : GateAt v slot) (hp : v.plan = .active a)
    (hf : (v.slots slot).file = none) (hu : ∀ n, m = some n → Unraised v slot n) :
    Matched v slot (v.matchAtFinish slot a m holds) := by
  unfold LiveVerifier.matchAtFinish
  cases ht : v.tryMatch slot a m with
  | none => exact .none h hf
  | some v' =>
    have h' := h.tryMatch hp hf hu ht
    have hm := moved_tryMatch ht hf
    have hcell : v'.cell slot = v.cell slot := by
      obtain ⟨n, f, -, -, rfl⟩ := tryMatch_eq ht
      rfl
    have hs : Moved a slot v (v'.settleBinding slot holds).1 :=
      hm.trans moved_settleBinding
    dsimp only
    split
    · split
      · exact ⟨h'.settleBinding, hs.frame.plan, fun h => (nomatch h), fun h => (nomatch h)⟩
      · -- a nomination dropped at once leaves the cells as they were
        refine ⟨h'.settleBinding.forgetBinding,
          (hs.trans moved_forgetBinding).frame.plan,
          fun _ => by rw [slots_forgetBinding]; rfl, fun _ n hn => ?_⟩
        exact (hn.congr hs.frame.plan (cell_settleBinding.trans hcell)).forgetBinding
    · exact ⟨h', hm.frame.plan, fun h => (nomatch h), fun h => (nomatch h)⟩

theorem matched_late (h : GateAt v slot) (hp : v.plan = .active a) (hf : (v.slots slot).file = none)
    (hu : ∀ n, m = some n → Unraised v slot n) :
    Matched v slot (match v.tryMatch slot a m with
      | some v => (v, true)
      | none => (v, false)) := by
  cases ht : v.tryMatch slot a m with
  | none => exact .none h hf
  | some v' =>
    exact ⟨h.tryMatch hp hf hu ht, (moved_tryMatch ht hf).frame.plan,
      fun h => (nomatch h), fun h => (nomatch h)⟩

theorem GateAt.lastChance {l : Ladder} {mayRematch : Bool} (h : GateAt v slot)
    (hp : v.plan = .active a) (hf : (v.slots slot).file = none)
    (hu : ∀ n, l.first = some n ∨ l.late = some n ∨ l.again = some n → Unraised v slot n) :
    GateAt (v.lastChance slot a l mayRematch) slot := by
  unfold LiveVerifier.lastChance
  have h1 : Matched v slot (if mayRematch then v.matchAtFinish slot a l.first l.firstHolds
      else (v, false)) := by
    split
    · exact matched_matchAtFinish h hp hf fun n hn => hu n (Or.inl hn)
    · exact .none h hf
  generalize (if mayRematch then v.matchAtFinish slot a l.first l.firstHolds else (v, false)) = x1
    at h1 ⊢
  obtain ⟨v1, bound1⟩ := x1
  dsimp only
  have h2 : Matched v slot (if bound1 then (v1, true)
      else match v1.tryMatch slot a l.late with
        | some v => (v, true)
        | none => (v1, false)) := by
    cases bound1 with
    | true => exact h1
    | false =>
      refine h1.trans rfl (matched_late h1.gate (h1.plan.trans hp) (h1.file rfl) fun n hn => ?_)
      exact h1.unraised rfl n (hu n (Or.inr (Or.inl hn)))
  generalize (if bound1 then (v1, true)
      else match v1.tryMatch slot a l.late with
        | some v => (v, true)
        | none => (v1, false)) = x2 at h2 ⊢
  obtain ⟨v2, bound2⟩ := x2
  have h3 : Matched v slot (if (!bound2 && mayRematch && l.shrank) = true
      then v2.matchAtFinish slot a l.again l.againHolds else (v2, bound2)) := by
    split
    case isTrue hc =>
      simp only [Bool.and_eq_true, Bool.not_eq_true'] at hc
      obtain ⟨⟨rfl, -⟩, -⟩ := hc
      refine h2.trans rfl (matched_matchAtFinish h2.gate (h2.plan.trans hp) (h2.file rfl)
        fun n hn => ?_)
      exact h2.unraised rfl n (hu n (Or.inr (Or.inr hn)))
    case isFalse => exact h2
  generalize (if (!bound2 && mayRematch && l.shrank) = true
      then v2.matchAtFinish slot a l.again l.againHolds else (v2, bound2)) = x3 at h3 ⊢
  split
  · exact h3.gate.engageGate
  · exact h3.gate

theorem GateAt.rejudgeBinding {r : Option (Option Nomination)} (h : GateAt v slot)
    (hp : v.plan = .active a)
    (hu : (v.slots slot).file ≠ none → (v.slots slot).confirmed = false →
      ∀ n, r = some (some n) → Unraised v slot n) :
    GateAt (v.rejudgeBinding slot a r) slot := by
  unfold LiveVerifier.rejudgeBinding
  dsimp only
  split
  case isTrue => exact h
  case isFalse hc =>
    rw [not_or, Bool.not_eq_true] at hc
    cases r with
    | none => exact h
    | some m =>
      have hforget := h.forgetBinding
      cases ht : (v.forgetBinding slot).tryMatch slot a m with
      | none => dsimp only; rw [ht]; exact hforget
      | some v' =>
        dsimp only
        rw [ht]
        refine hforget.tryMatch (plan_onVouch.trans hp)
          (by rw [slots_forgetBinding]; rfl) (fun n hn => ?_) ht
        exact (hu hc.1 hc.2 n (by rw [hn])).forgetBinding

theorem GateAt.promoteBinding {won : Bool} (h : GateAt v slot) :
    GateAt (v.promoteBinding slot won) slot := by
  unfold LiveVerifier.promoteBinding
  split
  · dsimp only
    split
    · exact h
    split
    · exact h.put rfl rfl rfl rfl
    · exact h.forgetBinding
  · exact h

/-- A reset grid bears no mark. -/
theorem GateAt.forceReadback (h : GateAt v slot)
    (hu : (v.slots slot).blocks = [] ∨ ∀ mark b, v.cell slot = some (mark, b) → mark.getD 0 = 0) :
    GateAt (v.forceReadback slot) slot := by
  have hslot : (v.forceReadback slot).slots slot = { v.slots slot with
      readbackForced := (range (v.slots slot).blocks.length).filter
        fun i => (v.slots slot).blocks[i]? ≠ some .pending
      blocks := replicate (v.slots slot).blocks.length .pending
      okPrefix := 0 } := by
    unfold LiveVerifier.forceReadback
    rw [slots_onVouch, slots_put_self]
  have hplan : (v.forceReadback slot).plan = v.plan := plan_onVouch
  have hcell : (v.forceReadback slot).cell slot = if (v.slots slot).vouch then
      (v.cell slot).map fun c => (c.1, c.2.map .clear) else v.cell slot := by
    unfold LiveVerifier.forceReadback
    rw [cell_onVouch, slots_put_self, cell_put]
  unfold GateAt
  rw [hslot, hplan, hcell]
  refine ⟨fun hf => ?_, fun hf => ?_, fun i hi => absurd hi (Nat.not_lt_zero i),
    fun f bs m b hd hc => ?_, fun hv => ?_, fun hv => ?_, fun hv f bs mark b hd hc => ?_⟩
  · obtain ⟨-, h2, h3⟩ := h.unbound hf
    exact ⟨rfl, h2, by dsimp only; rw [h3]; rfl⟩
  · obtain ⟨f, bs, hd, hl⟩ := h.desc hf
    exact ⟨f, bs, hd, length_replicate.trans hl⟩
  · have hc' : ∃ b', v.cell slot = some (some m, b') := by
      split at hc
      · obtain ⟨⟨cm, cb⟩, hc', he⟩ := map_eq_some_iff.mp hc
        cases he
        exact ⟨cb, hc'⟩
      · exact ⟨b, hc⟩
    obtain ⟨b', hc'⟩ := hc'
    rcases hu with hn | hz
    · refine ⟨fun p _ hp => ?_, (h.mark f bs m b' hd hc').2⟩
      rw [length_replicate, hn] at hp
      cases hp
    · have hm : m = 0 := hz _ _ hc'
      subst hm
      exact markOk_zero _ _ _
  · rw [show (v.slots slot).vouch = false from hv, if_neg Bool.false_ne_true]
    exact h.idle hv
  · rw [show (v.slots slot).vouch = false from hv, if_neg Bool.false_ne_true]
    exact h.spans hv
  · rw [show (v.slots slot).vouch = true from hv, if_pos rfl] at hc
    obtain ⟨⟨cm, cb⟩, hc', he⟩ := map_eq_some_iff.mp hc
    obtain ⟨b', rfl, rfl⟩ := map_eq_some_iff.mp (Prod.ext_iff.mp he).2
    obtain ⟨h1, h2, -⟩ := h.armed hv f bs cm b' hd hc'
    refine ⟨h1, ?_, fun i hi => ?_⟩
    · rw [length_replicate, ← h2]
      exact length_replicate
    · rw [VouchBits.isOk_clear] at hi
      cases hi

end Ops

end NzbFast.Live
