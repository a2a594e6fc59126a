import NzbFast.Live.NameTiers

/-!
# Descriptor claims are exclusive

`NamedSlot.Owns` says that a confirmed or head-nominated slot holds the claim on
its descriptor, `Adopted.OwnStep` that a section of one slot moves no other
slot's claim. Together they are the contract `claims` of the matcher: another
slot's section cannot take away what a slot owns (`Owns.other`), so each tier
only has to be safe for its own slot. Every tier is written in continuation
style, and so are their lemmas (`Safe`): a tier is safe when what follows it is.

`claims_exclusive` reads the result off every reachable world.
-/

namespace NzbFast.Live

open NzbFast.Rust NzbFast.Par2 Fold Sync NamedSlot Function

variable {h : Host}

/-! ## What a section may do to the table -/

/-- A section of slot `i`: a claim that changes was nobody's and is now `i`'s, or the other way. -/
structure Adopted.OwnStep (i : Nat) (a a' : Adopted h) : Prop where
  sets : a'.sets = a.sets
  holder : ∀ fi, a'.holder fi = a.holder fi ∨ (a.holder fi = none ∧ a'.holder fi = some i) ∨
    (a.holder fi = some i ∧ a'.holder fi = none)

namespace Adopted

theorem OwnStep.refl (i : Nat) (a : Adopted h) : OwnStep i a a := ⟨rfl, fun _ => .inl rfl⟩

variable {a : Adopted h} {fi : Nat}

theorem lt_of_holder {i : Nat} (hi : a.holder fi = some i) : fi < a.claimed.length := by
  by_contra hlt
  unfold holder at hi
  rw [List.getElem?_eq_none (by omega)] at hi
  cases hi

theorem OwnStep.take (i : Nat) (hf : a.free fi = true) : OwnStep i a (a.setClaim fi (some i)) := by
  obtain ⟨hlt, hnone⟩ := free_iff.mp hf
  refine ⟨rfl, fun gi => ?_⟩
  rw [a.holder_setClaim fi _ gi hlt]
  by_cases hg : gi = fi
  · subst hg
    rw [if_pos rfl]
    exact .inr (.inl ⟨hnone, rfl⟩)
  · rw [if_neg hg]
    exact .inl rfl

/-- A claim taken again by the slot that has it. -/
theorem OwnStep.keep {i : Nat} (hi : a.holder fi = some i) :
    OwnStep i a (a.setClaim fi (some i)) := by
  refine ⟨rfl, fun gi => .inl ?_⟩
  rw [a.holder_setClaim fi _ gi (lt_of_holder hi)]
  by_cases hg : gi = fi
  · subst hg
    rw [if_pos rfl, hi]
  · rw [if_neg hg]

theorem holder_take (i : Nat) (hf : a.free fi = true) :
    (a.setClaim fi (some i)).holder fi = some i := by
  rw [a.holder_setClaim fi _ fi (free_iff.mp hf).1, if_pos rfl]

/-- Only the slot's own claim is released. -/
theorem OwnStep.release (a : Adopted h) (i fi : Nat) : OwnStep i a (NamedSlot.release i fi a) := by
  unfold NamedSlot.release
  by_cases hi : a.holder fi = some i
  · rw [if_pos hi]
    refine ⟨rfl, fun gi => ?_⟩
    rw [a.holder_setClaim fi _ gi (lt_of_holder hi)]
    by_cases hg : gi = fi
    · subst hg
      rw [if_pos rfl]
      exact .inr (.inr ⟨hi, rfl⟩)
    · rw [if_neg hg]
      exact .inl rfl
  · rw [if_neg hi]
    exact .refl i a

theorem OwnStep.takeIfFree (a : Adopted h) (i fi : Nat) :
    OwnStep i a (NamedSlot.takeIfFree i fi a) := by
  unfold NamedSlot.takeIfFree
  by_cases hf : a.free fi = true
  · rw [if_pos hf]
    exact .take i hf
  · rw [if_neg hf]
    exact .refl i a

theorem holder_takeIfFree (i : Nat) (hf : a.free fi = true) :
    (NamedSlot.takeIfFree i fi a).holder fi = some i := by
  unfold takeIfFree
  rw [if_pos hf]
  exact holder_take i hf

end Adopted

/-! ## What a slot owns -/

namespace NamedSlot

def Owns (i : Nat) (a : Adopted h) (s : NamedSlot h) : Prop :=
  s.confirmed = true ∨ s.headNominated = true →
    ∃ fi, s.file = some fi ∧ a.holder fi = some i

/-- `Owns` under a plan: with no set active, nothing is confirmed or nominated. -/
def OwnsUnder (i : Nat) (s : NamedSlot h) : Standing h → Prop
  | .active a => s.Owns i a
  | _ => s.confirmed = false ∧ s.headNominated = false

/-- The fields a claim is about. -/
structure SameBinding (s t : NamedSlot h) : Prop where
  file : t.file = s.file
  confirmed : t.confirmed = s.confirmed
  headNominated : t.headNominated = s.headNominated

variable {i : Nat} {a a' : Adopted h} {s t : NamedSlot h}

theorem SameBinding.ite {p : Prop} [Decidable p] {u : NamedSlot h} (ht : SameBinding s t)
    (hu : SameBinding s u) : SameBinding s (if p then t else u) := by
  split
  · exact ht
  · exact hu

theorem Owns.congr (hs : SameBinding s t) (ho : s.Owns i a) : t.Owns i a := by
  intro hb
  rw [hs.confirmed, hs.headNominated] at hb
  rw [hs.file]
  exact ho hb

theorem OwnsUnder.congr (hs : SameBinding s t) {p : Standing h} (ho : s.OwnsUnder i p) :
    t.OwnsUnder i p := by
  cases p with
  | active a => exact Owns.congr hs ho
  | waiting => exact ⟨hs.confirmed.trans ho.1, hs.headNominated.trans ho.2⟩
  | off => exact ⟨hs.confirmed.trans ho.1, hs.headNominated.trans ho.2⟩

theorem owns_of_tentative (hc : s.confirmed = false) (hn : s.headNominated = false) : s.Owns i a := by
  intro hb
  rw [hc, hn] at hb
  simp at hb

theorem owns_unbind (s : NamedSlot h) : s.unbind.Owns i a := owns_of_tentative rfl rfl

theorem owns_of_holder {fi : Nat} (hf : s.file = some fi) (ha : a.holder fi = some i) :
    s.Owns i a := fun _ => ⟨fi, hf, ha⟩

/-- Another slot's section takes nothing away. -/
theorem Owns.other {j : Nat} (hij : i ≠ j) (hstep : Adopted.OwnStep j a a') (ho : s.Owns i a) :
    s.Owns i a' := by
  intro hb
  obtain ⟨fi, hf, hown⟩ := ho hb
  refine ⟨fi, hf, ?_⟩
  obtain hsame | ⟨hnone, -⟩ | ⟨hj, -⟩ := hstep.holder fi
  · exact hsame.trans hown
  · rw [hnone] at hown
    cases hown
  · rw [hj] at hown
    exact absurd (Option.some.inj hown).symm hij

/-- `extended` carries every claim across. -/
theorem Owns.extended (sets : List Par2Set) (ho : s.Owns i a) : s.Owns i (a.extended sets) := by
  intro hb
  obtain ⟨fi, hf, hown⟩ := ho hb
  exact ⟨fi, hf, (a.holder_extended sets fi).trans hown⟩

end NamedSlot

/-- Every slot owns what it must, and a section moves its own slot's claims only. -/
def claims (h : Host) :
    Contract (Adopted h → Adopted h) (Standing h) (NamedSlot h) Nat where
  Inv p cells := ∀ i, (cells i).OwnsUnder i p
  req i p _ o := ∀ a, p = .active a → Adopted.OwnStep i a (o a)
  rest _ := True

/-- A program slot `i` may go on with from `s`. -/
abbrev Safe (i : Nat) (s : NamedSlot h) (p : NamedSlot.Prog h) : Prop :=
  Sound (matcher h) (claims h) i s p

section Rules

variable {i : Nat} {s t : NamedSlot h}

variable {cells : Nat → NamedSlot h}

theorem inv_cell {p : Standing h} (hinv : (claims h).Inv p (Function.update cells i s)) :
    s.OwnsUnder i p := by
  have hi := hinv i
  rwa [update_self] at hi

theorem inv_update {p : Standing h} (hinv : (claims h).Inv p (Function.update cells i s))
    (ht : t.OwnsUnder i p) : (claims h).Inv p (Function.update cells i t) := by
  intro j
  have hj := hinv j
  by_cases hji : j = i
  · subst hji
    rwa [update_self]
  · rw [update_of_ne hji] at hj ⊢
    exact hj

/-- A section of slot `i` leaves the others what they own. -/
theorem inv_section {a a' : Adopted h}
    (hinv : (claims h).Inv (.active a) (Function.update cells i s)) (hstep : Adopted.OwnStep i a a')
    (ht : t.Owns i a') : (claims h).Inv (.active a') (Function.update cells i t) := by
  intro j
  have hj := hinv j
  by_cases hji : j = i
  · subst hji
    rw [update_self]
    exact ht
  · rw [update_of_ne hji] at hj ⊢
    exact NamedSlot.Owns.other hji hstep hj

theorem safe_free (s : NamedSlot h) : Safe i s (.free s) := Sound.free trivial

theorem Safe.rebind {p : NamedSlot.Prog h} (hs : NamedSlot.SameBinding s t) (hp : Safe i t p) :
    Safe i s p :=
  Sound.weaken (fun _ _ hinv => inv_update hinv ((inv_cell hinv).congr hs)) hp

/-- Local code that cannot own less: the binding it leaves is tentative. -/
theorem Safe.tentative {p : NamedSlot.Prog h} (hc : t.confirmed = false)
    (hn : t.headNominated = false) (hp : Safe i t p) : Safe i s p := by
  refine Sound.weaken (fun p _ hinv => inv_update hinv ?_) hp
  cases p with
  | active a => exact owns_of_tentative hc hn
  | waiting => exact ⟨hc, hn⟩
  | off => exact ⟨hc, hn⟩

theorem safe_read {next : Standing h → NamedSlot.Prog h} (hn : ∀ p, Safe i s (next p)) :
    Safe i s (.act s id next) := by
  refine Sound.act (fun _ _ hinv => hinv) fun p cells hinv => ⟨?_, s, ?_, hn p⟩
  · rintro a rfl
    exact .refl i a
  · cases p with
    | active a => exact hinv
    | waiting => exact hinv
    | off => exact hinv

theorem safe_onTable {o : Adopted h → Adopted h} {k : Adopted h → NamedSlot.Prog h}
    (hstep : ∀ a, s.Owns i a → Adopted.OwnStep i a (o a))
    (hk : ∀ a, s.Owns i a → ∃ t, t.Owns i (o a) ∧ Safe i t (k a)) : Safe i s (s.onTable o k) := by
  refine Sound.act (fun _ _ hinv => hinv) fun p cells hinv => ?_
  have hs := inv_cell hinv
  cases p with
  | active a =>
    obtain ⟨t, ht, hsafe⟩ := hk a hs
    refine ⟨?_, t, inv_section hinv (hstep a hs) ht, hsafe⟩
    intro b hb
    cases hb
    exact hstep a hs
  | waiting => exact ⟨nofun, s, hinv, safe_free s⟩
  | off => exact ⟨nofun, s, hinv, safe_free s⟩

theorem safe_look {k : Adopted h → NamedSlot.Prog h} (hk : ∀ a, Safe i s (k a)) :
    Safe i s (s.look k) :=
  safe_onTable (fun a _ => .refl i a) fun a hs => ⟨s, hs, hk a⟩

end Rules

/-! ## The drain takes only what is free -/

section Drain

variable (a : Adopted h)

variable {fi : Nat}

theorem free_of_mem_indexedShortlist {name : Text} {keys : Text × Text}
    (hf : fi ∈ (a.indexedShortlist name keys).cands) : a.free fi = true := by
  unfold Adopted.indexedShortlist at hf
  dsimp only at hf
  split at hf
  · have := (List.mem_filter.mp hf).2
    rw [Bool.and_eq_true] at this
    exact this.1
  · rw [a.soleFree_eq] at hf
    unfold Shortlist.sole at hf
    split at hf
    · have hmem := List.mem_of_mem_head? (Option.mem_toList.mp hf)
      exact (List.mem_filter.mp hmem).2
    · cases hf

/-- The counts name candidates of `l` only. -/
structure Arbitration.Among (l : List Nat) (t : Arbitration) : Prop where
  confirm : ∀ fi, t.confirm = some fi → fi ∈ l
  unknown : ∀ fi, t.unknown = some fi → fi ∈ l

theorem mem_of_getD {l : List Nat} {o : Option Nat} {gi : Nat} (ho : ∀ fi, o = some fi → fi ∈ l)
    (hfi : fi ∈ l) (hg : some (o.getD fi) = some gi) : gi ∈ l := by
  cases o with
  | none =>
    cases hg
    exact hfi
  | some x => exact ho gi hg

theorem Arbitration.Among.count {l : List Nat} {t : Arbitration} (ht : t.Among l) (hfi : fi ∈ l)
    (v : HeadSays) : (t.count fi v).Among l := by
  cases v with
  | confirm => exact ⟨fun _ hg => mem_of_getD ht.confirm hfi hg, ht.unknown⟩
  | unknown => exact ⟨ht.confirm, fun _ hg => mem_of_getD ht.unknown hfi hg⟩
  | deny => exact ht

theorem Arbitration.Among.foldl {l cands : List Nat} (hc : ∀ fi ∈ cands, fi ∈ l)
    {t : Arbitration} (ht : t.Among l) (want : Nat) (key : List UInt8) :
    (cands.foldl (fun t fi => (a.file fi).elim t fun f => t.count fi (headSays f want key))
      t).Among l := by
  induction cands generalizing t with
  | nil => exact ht
  | cons fi cands ih =>
    have hrest : ∀ gi ∈ cands, gi ∈ l := fun gi hg => hc gi (List.mem_cons_of_mem fi hg)
    rw [List.foldl_cons]
    refine ih hrest ?_
    cases a.file fi with
    | none => exact ht
    | some f => exact ht.count (hc fi (.head _)) _

theorem mem_of_arbitrateByHead {cands : List Nat} {want : Nat} {key : Option (List UInt8)}
    {x : Nat × Bool} (hx : arbitrateByHead a cands want key = some x) : x.1 ∈ cands := by
  cases key with
  | none => cases hx
  | some key =>
    have hself : ∀ fi ∈ cands, fi ∈ cands := fun _ hf => hf
    have hamong := Arbitration.Among.foldl a hself (t := {}) ⟨nofun, nofun⟩ want key
    unfold arbitrateByHead at hx
    rw [Option.bind_some] at hx
    dsimp only at hx
    split at hx
    · obtain ⟨fi, hfi, rfl⟩ := Option.map_eq_some_iff.mp hx
      exact hamong.confirm fi hfi
    · split at hx
      · obtain ⟨fi, hfi, hx⟩ := Option.bind_eq_some_iff.mp hx
        split at hx
        · cases hx
          exact hamong.unknown fi hfi
        · cases hx
      · cases hx

theorem free_of_headScan {want : Nat} {md5 : List UInt8} (l : List (Par2File × Nat)) {t : HeadTier}
    (ht : ∀ gi, t.hit = some gi → a.free gi = true) (hf : (a.headScan want md5 l t).hit = some fi) :
    a.free fi = true := by
  induction l generalizing t with
  | nil => exact ht fi hf
  | cons x l ih =>
    obtain ⟨f, gi⟩ := x
    unfold Adopted.headScan at hf
    by_cases hother : min f.length HEAD_LEN ≠ want ∨ f.md5_16k ≠ md5
    · rw [if_pos hother] at hf
      exact ih ht hf
    rw [if_neg hother] at hf
    by_cases hgi : a.free gi = true
    · rw [hgi, Bool.not_true, if_neg Bool.false_ne_true] at hf
      cases hh : t.hit with
      | none =>
        rw [hh] at hf
        refine ih (fun g hg => ?_) hf
        cases hg
        exact hgi
      | some g =>
        rw [hh] at hf
        dsimp only at hf
        split at hf
        · exact ih ht hf
        · cases hf
    · rw [Bool.not_eq_true] at hgi
      rw [hgi, Bool.not_false, if_pos rfl] at hf
      exact ih (t := { t with claimedRival := true }) ht hf

end Drain

/-! ## What a drain leaves -/

/-- A drain moves no claim but the slot's, and the slot owns what it is bound to. -/
structure Drained.Owned (i : Nat) (a : Adopted h) (s : NamedSlot h) (m : Drained h) : Prop where
  step : Adopted.OwnStep i a m.population
  owns : s.Owns i a → m.slot.Owns i m.population

variable {i : Nat} {s : NamedSlot h}

theorem Drained.Owned.congr {a : Adopted h} {t : NamedSlot h} {m : Drained h}
    (hs : NamedSlot.SameBinding s t) (hm : m.Owned i a t) : m.Owned i a s :=
  ⟨hm.step, fun ho => hm.owns (NamedSlot.Owns.congr hs ho)⟩

namespace NamedSlot

variable {i : Nat} {a : Adopted h} {s t : NamedSlot h}

theorem sameBinding_cacheHead (s : NamedSlot h) : SameBinding s s.cacheHead := ⟨rfl, rfl, rfl⟩

theorem sameBinding_cacheKeys (s : NamedSlot h) : SameBinding s s.cacheKeys := ⟨rfl, rfl, rfl⟩

theorem sameBinding_refuse (s : NamedSlot h) (a : Adopted h) : SameBinding s (s.refuse a) :=
  ⟨rfl, rfl, rfl⟩

/-- A claim on a free descriptor, and the binding to it. -/
theorem owned_take (s t : NamedSlot h) {fi : Nat} (hf : a.free fi = true) (c n : Bool) :
    Drained.Owned i a s ⟨true, a.setClaim fi (some i), t.bindTo a fi c n⟩ :=
  ⟨.take i hf, fun _ => owns_of_holder rfl (Adopted.holder_take i hf)⟩

/-- A tentative binding takes no claim. -/
theorem owned_nominate (s t : NamedSlot h) (fi : Nat) :
    Drained.Owned i a s ⟨true, a, t.bindTo a fi false false⟩ :=
  ⟨.refl i a, fun _ => owns_of_tentative rfl rfl⟩

theorem owned_bindNominee (s : NamedSlot h) (tentative : Bool) (nominee : Option Nat) :
    (s.bindNominee a tentative nominee).Owned i a s := by
  unfold bindNominee
  split
  · exact owned_nominate s s _
  · exact ⟨.refl i a, fun ho => ho⟩

theorem owned_matchHead (s : NamedSlot h) (tentative nameAmbiguous : Bool) (nominee : Option Nat) :
    (s.matchHead a i tentative nameAmbiguous nominee).Owned i a s := by
  unfold matchHead
  cases s.completeHead with
  | none => exact owned_bindNominee s tentative nominee
  | some head =>
    dsimp only
    split
    next fi hhit => exact owned_take s s (free_of_headScan a _ (t := {}) nofun hhit) _ _
    next =>
      split
      · exact (owned_bindNominee (s.refuse a) tentative nominee).congr (sameBinding_refuse s a)
      · exact owned_bindNominee s tentative nominee

/-- A drain over candidates that are free. -/
theorem owned_matchBy (s : NamedSlot h) (tentative : Bool) {shortlist : Text → Shortlist}
    (hfree : ∀ name, ∀ fi ∈ (shortlist name).cands, a.free fi = true) :
    (s.matchBy a i tentative shortlist).Owned i a s := by
  unfold matchBy
  dsimp only
  refine Drained.Owned.congr s.sameBinding_cacheHead ?_
  cases s.cacheHead.name with
  | none => exact owned_matchHead _ tentative false none
  | some name =>
    dsimp only
    split
    next fi sure harb =>
      cases sure with
      | true => exact owned_take _ _ (hfree name fi (mem_of_arbitrateByHead a harb)) true false
      | false => exact owned_nominate _ _ fi
    next =>
      split
      · exact owned_matchHead _ tentative _ none
      · exact owned_matchHead _ tentative true _

theorem owned_tryMatch (s : NamedSlot h) (a : Adopted h) (i : Nat) (tentative : Bool) :
    (s.tryMatch a i tentative).Owned i a s := by
  exact (owned_matchBy s.cacheKeys tentative fun _ _ hf => free_of_mem_indexedShortlist a hf).congr
    s.sameBinding_cacheKeys

end NamedSlot

/-! ## The tiers -/

namespace NamedSlot

variable {i : Nat} {s : NamedSlot h} {k : Bool → NamedSlot h → Prog h}

theorem safe_tryMatchIn {tentative : Bool} (hk : ∀ b t, Safe i t (k b t)) :
    Safe i s (s.tryMatchIn i tentative k) :=
  safe_onTable (fun a _ => (s.owned_tryMatch a i tentative).step) fun a ho =>
    ⟨_, (s.owned_tryMatch a i tentative).owns ho, hk _ _⟩

theorem safe_forgetBinding {k : NamedSlot h → Prog h} (hk : ∀ t, Safe i t (k t)) :
    Safe i s (s.forgetBinding i k) := by
  have hgone : Safe i s (k s.unbind) := Safe.tentative rfl rfl (hk _)
  unfold forgetBinding
  cases s.file with
  | none => exact hgone
  | some fi =>
    dsimp only
    split
    · exact hgone
    · exact safe_onTable (fun a _ => .release a i fi) fun a _ => ⟨s.unbind, s.owns_unbind, hk _⟩

variable {fi : Nat} {a : Adopted h}

/-- The re-check under the claim mutex: what was free is the slot's, and what was not is left alone. -/
theorem safe_takeIfFree {k : Adopted h → Prog h}
    (hyes : ∀ a, a.free fi = true → ∃ t : NamedSlot h, t.file = some fi ∧ Safe i t (k a))
    (hno : ∀ a, ¬a.free fi = true → Safe i s (k a)) : Safe i s (s.onTable (takeIfFree i fi) k) := by
  refine safe_onTable (fun a _ => .takeIfFree a i fi) fun a ho => ?_
  by_cases hf : a.free fi = true
  · obtain ⟨t, ht, hsafe⟩ := hyes a hf
    exact ⟨t, owns_of_holder ht (Adopted.holder_takeIfFree i hf), hsafe⟩
  · refine ⟨s, ?_, hno a hf⟩
    unfold takeIfFree
    rw [if_neg hf]
    exact ho

theorem safe_takeWhole {yes : NamedSlot h → Prog h} {no : Prog h} (hyes : ∀ t, Safe i t (yes t))
    (hno : Safe i s no) : Safe i s (s.takeWhole i fi yes no) := by
  refine safe_takeIfFree (fun a hf => ?_) fun a hf => ?_
  · rw [if_pos hf]
    exact ⟨s.bindTo a fi true s.headNominated, rfl, hyes _⟩
  · rw [if_neg hf]
    exact hno

/-! ### In the stream -/

theorem safe_rejudgeBinding {k : NamedSlot h → Prog h} (hk : ∀ t, Safe i t (k t)) :
    Safe i s (s.rejudgeBinding i k) := by
  unfold rejudgeBinding
  cases s.file with
  | none => exact hk s
  | some fi =>
    dsimp only
    split
    · exact hk s
    · cases s.headKey with
      | none => exact hk s
      | some key =>
        refine Safe.rebind s.sameBinding_cacheHead (safe_look fun a => ?_)
        split
        · exact hk _
        · split
          · exact safe_forgetBinding fun t => safe_tryMatchIn fun _ t => hk t
          · refine Safe.rebind ?_ (hk _)
            exact ⟨rfl, rfl, rfl⟩

theorem sameBinding_declare (s : NamedSlot h) (name : Text) (fileSize offset len : Nat) :
    SameBinding s (s.declare name fileSize offset len) := ⟨rfl, rfl, rfl⟩

theorem sameBinding_captureHead (s : NamedSlot h) (offset : Nat) (data : List UInt8) :
    SameBinding s (s.captureHead offset data) := by
  unfold captureHead
  by_cases hwant : s.headWant = 0 ∨ s.headWant ≤ offset
  · rw [if_pos hwant]
    exact ⟨rfl, rfl, rfl⟩
  rw [if_neg hwant]
  by_cases hmoved : (s.head.getD (Partial.new s.headWant)).buf.length ≠ s.headWant
  · simp only [if_pos hmoved]
    exact .ite ⟨rfl, rfl, rfl⟩ ⟨rfl, rfl, rfl⟩
  · simp only [if_neg hmoved]
    exact .ite ⟨rfl, rfl, rfl⟩ ⟨rfl, rfl, rfl⟩

theorem safe_onData (s : NamedSlot h) (name : Text) (fileSize offset : Nat) (data : List UInt8) :
    Safe i s (s.onData i name fileSize offset data) := by
  refine Safe.rebind (s.sameBinding_declare name fileSize offset data.length)
    (safe_read fun p => ?_)
  have hcapture := (s.declare name fileSize offset data.length).sameBinding_captureHead offset data
  cases p with
  | off => exact safe_free _
  | waiting => exact Safe.rebind hcapture (safe_free _)
  | active a =>
    have hrest : ∀ t : NamedSlot h, Safe i t (if (t.file.isNone && !t.refused a) = true then
        t.tryMatchIn i true fun _ t => .free t else .free t) := by
      intro t
      split
      · exact safe_tryMatchIn fun _ t => safe_free t
      · exact safe_free t
    refine Safe.rebind hcapture ?_
    dsimp only
    split
    · exact safe_rejudgeBinding hrest
    · exact hrest _

theorem safe_promoteBinding (s : NamedSlot h) : Safe i s (s.promoteBinding i) := by
  refine safe_look fun _ => ?_
  cases hfile : s.file with
  | none => exact safe_free s
  | some fi =>
    dsimp only
    split
    · exact safe_free s
    · refine safe_takeIfFree (fun a hf => ?_) fun a hf => ?_
      · rw [if_pos hf]
        refine ⟨_, ?_, safe_free _⟩
        rfl
      · rw [if_neg hf]
        exact safe_forgetBinding safe_free

/-! ### At finish -/

variable (ev : Evidence)

theorem safe_nameProved {f : Par2File} {k : Bool → Prog h} (hk : ∀ b, Safe i s (k b)) :
    Safe i s (s.nameProved ev fi f k) := by
  unfold nameProved
  dsimp only
  split
  · exact hk true
  · split
    · exact hk true
    · split
      · exact safe_look fun a => hk _
      · exact hk _

/-- A head nomination holds its claim already, so settling it moves none. -/
theorem safe_settleBinding (hk : ∀ b t, Safe i t (k b t)) :
    Safe i s (s.settleBinding ev i a k) := by
  unfold settleBinding
  cases hfile : s.file with
  | none => exact hk false s
  | some fi =>
    dsimp only
    by_cases hc : s.confirmed = true
    · rw [if_pos hc]
      exact hk true s
    rw [if_neg hc]
    cases a.file fi with
    | none => exact safe_free s
    | some f =>
      dsimp only
      by_cases hn : s.headNominated = true
      · rw [if_pos hn]
        split
        · have hours : ∀ a, s.Owns i a → a.holder fi = some i := by
            intro a ho
            obtain ⟨gi, hgi, hown⟩ := ho (.inr hn)
            rw [hfile] at hgi
            cases hgi
            exact hown
          have hrival : ∀ a, s.Owns i a → (a.holder fi).any (· ≠ i) = false := by
            intro a ho
            rw [hours a ho]
            simp
          refine safe_onTable (fun a ho => ?_) fun a ho => ?_
          · rw [hrival a ho, if_neg Bool.false_ne_true]
            exact .keep (hours a ho)
          · rw [hrival a ho, if_neg Bool.false_ne_true, if_neg Bool.false_ne_true]
            refine ⟨_, fun _ => ⟨fi, ?_, ?_⟩, hk true _⟩
            · rfl
            · rw [a.holder_setClaim fi _ fi (Adopted.lt_of_holder (hours a ho)), if_pos rfl]
        · exact hk false s
      · rw [if_neg hn]
        refine safe_nameProved ev fun proved => ?_
        split
        · refine safe_takeIfFree (fun a hf => ?_) fun a hf => ?_
          · rw [if_pos hf]
            refine ⟨_, ?_, hk true _⟩
            rfl
          · rw [if_neg hf]
            exact hk false s
        · exact hk false s

theorem safe_matchWholeAmong {k : NamedSlot h → Prog h} {no : Prog h} (hk : ∀ t, Safe i t (k t))
    (hno : Safe i s no) (cands : List Nat) : Safe i s (s.matchWholeAmong ev i a k no cands) := by
  induction cands with
  | nil => exact hno
  | cons fi cands ih =>
    unfold matchWholeAmong
    split
    · exact safe_takeWhole hk ih
    · exact ih

theorem safe_tryMatchWhole (hk : ∀ b t, Safe i t (k b t)) : Safe i s (s.tryMatchWhole ev i k) := by
  unfold tryMatchWhole
  cases s.completeHead with
  | none => exact hk false s
  | some head =>
    refine safe_look fun a => ?_
    dsimp only
    split
    · exact hk false s
    · refine safe_matchWholeAmong ev (hk true) ?_ _
      split
      · exact safe_takeWhole (hk true) (hk false s)
      · exact hk false s

theorem safe_takeFirst (hk : ∀ b t, Safe i t (k b t)) (cands : List Nat) :
    Safe i s (s.takeFirst i k cands) := by
  induction cands with
  | nil => exact hk false s
  | cons fi cands ih => exact safe_takeWhole (hk true) ih

theorem safe_tryMatchNamed (hk : ∀ b t, Safe i t (k b t)) : Safe i s (s.tryMatchNamed ev i k) := by
  unfold tryMatchNamed
  split
  · exact safe_look fun a => safe_takeFirst hk _
  · exact hk false s

theorem safe_matchAtFinish (hk : ∀ b t, Safe i t (k b t)) :
    Safe i s (s.matchAtFinish ev i a k) := by
  refine safe_tryMatchIn fun bound t => ?_
  split
  · refine safe_settleBinding ev fun kept t => ?_
    split
    · exact hk true t
    · exact safe_forgetBinding (hk false)
  · exact hk bound t

theorem safe_lateTiers (hk : ∀ b t, Safe i t (k b t)) (bound : Bool) :
    Safe i s (if bound then k true s
      else s.tryMatchWhole ev i fun bound s =>
        if bound then k true s else s.tryMatchNamed ev i k) := by
  split
  · exact hk true s
  · refine safe_tryMatchWhole ev fun bound t => ?_
    split
    · exact hk true t
    · exact safe_tryMatchNamed ev hk

theorem safe_lastChance (a : Adopted h) (mayRematch : Bool) :
    Safe i s (s.lastChance ev i a mayRematch) := by
  refine safe_look fun a₀ => Safe.rebind s.sameBinding_cacheHead ?_
  have hagain : ∀ (bound : Bool) (t : NamedSlot h),
      Safe i t (if (!bound && mayRematch) = true then
        t.look fun a₁ =>
          if t.unclaimedHeadCandidates a₁ < s.unclaimedHeadCandidates a₀ then
            t.cacheHead.matchAtFinish ev i a fun _ t => .free t
          else .free t.cacheHead
      else .free t) := by
    intro bound t
    split
    · refine safe_look fun a₁ => ?_
      split
      · exact Safe.rebind t.sameBinding_cacheHead (safe_matchAtFinish ev fun _ t => safe_free t)
      · exact Safe.rebind t.sameBinding_cacheHead (safe_free _)
    · exact safe_free t
  have hlate := fun bound (t : NamedSlot h) => safe_lateTiers (s := t) ev hagain bound
  split
  · exact safe_matchAtFinish ev hlate
  · exact hlate false _

theorem sameBinding_forcedReadback (s : NamedSlot h) (a : Adopted h) :
    SameBinding s (s.forcedReadback ev a) := by
  unfold forcedReadback
  dsimp only
  split
  · exact ⟨rfl, rfl, rfl⟩
  · exact ⟨rfl, rfl, rfl⟩

theorem safe_finishSlot (s : NamedSlot h) : Safe i s (s.finishSlot ev i) := by
  refine safe_read fun p => ?_
  cases p with
  | waiting => exact safe_free s
  | off => exact safe_free s
  | active a =>
    have hladder : ∀ (headBound dropped : Bool) (t : NamedSlot h),
        Safe i t (if (t.file.isNone && !t.refused a) = true then
          t.lastChance ev i a (!(dropped && headBound)) else .free t) := by
      intro headBound dropped t
      split
      · exact safe_lastChance ev a _
      · exact safe_free t
    refine Safe.rebind (s.sameBinding_forcedReadback ev a) ?_
    dsimp only
    split
    · refine safe_settleBinding ev fun kept t => ?_
      split
      · exact hladder _ false t
      · exact safe_forgetBinding (hladder _ true)
    · exact hladder _ false _

end NamedSlot

/-! ## Every interleaving -/

theorem safe_of_judges {p : NamedSlot.Prog h} (hp : Judges i s p) : Safe i s p := by
  cases hp with
  | onData name fileSize offset data => exact s.safe_onData name fileSize offset data
  | promote => exact s.safe_promoteBinding
  | finish ev => exact s.safe_finishSlot ev
  | nameHint name => exact Safe.rebind (s.sameBinding_declare name s.fileSize 0 0) (safe_free _)
  | verdicts =>
    refine Safe.rebind ?_ (safe_free _)
    exact ⟨rfl, rfl, rfl⟩

/-- A plan that changes takes no claim away. -/
theorem Standing.Changes.ownsUnder {p p' : Standing h} (hc : Changes p p') (ho : s.OwnsUnder i p) :
    s.OwnsUnder i p' := by
  cases hc with
  | first sets => exact owns_of_tentative ho.1 ho.2
  | afterOff sets => exact owns_of_tentative ho.1 ho.2
  | extend a sets => exact NamedSlot.Owns.extended sets ho
  | setOff => exact ho

abbrev Matching (h : Host) := Sync.World (Adopted h → Adopted h) (Standing h) (NamedSlot h) Nat

theorem held_of_matching {w : Matching h} (hr : Reachable (matcher h) (matcherStart h) w) :
    Held (matcher h) (claims h) w := by
  have hstart : Held (matcher h) (claims h) (matcherStart h) :=
    ⟨fun _ => ⟨rfl, rfl⟩, fun _ => trivial⟩
  exact hr.held hstart (fun _ _ _ hp _ => safe_of_judges hp)
    fun _ _ _ hc hinv i => hc.ownsUnder (hinv i)

theorem owner_of_matching {w : Matching h} (hr : Reachable (matcher h) (matcherStart h) w) (i : Nat)
    (hb : (w.cells i).confirmed = true ∨ (w.cells i).headNominated = true) :
    ∃ a fi, w.shared = .active a ∧ (w.cells i).file = some fi ∧ a.holder fi = some i := by
  have hi := (held_of_matching hr).inv i
  cases hs : w.shared with
  | active a =>
    rw [hs] at hi
    obtain ⟨fi, hf, hown⟩ := hi hb
    exact ⟨a, fi, rfl, hf, hown⟩
  | waiting =>
    rw [hs] at hi
    rw [hi.1, hi.2] at hb
    simp at hb
  | off =>
    rw [hs] at hi
    rw [hi.1, hi.2] at hb
    simp at hb

/-- In every reachable world: a confirmed or head-nominated slot holds the claim on its descriptor,
so two confirmed slots never share one; a section that is about to run takes only what is free and
releases only its own slot's claim; and another set activating keeps every flat index in use, its
descriptor and its claim. -/
theorem claims_exclusive (h : Host) (w : Matching h)
    (hr : Reachable (matcher h) (matcherStart h) w) :
    (∀ i, (w.cells i).confirmed = true ∨ (w.cells i).headNominated = true →
      ∃ a fi, w.shared = .active a ∧ (w.cells i).file = some fi ∧ a.holder fi = some i) ∧
    (∀ i j, (w.cells i).confirmed = true → (w.cells j).confirmed = true →
      (w.cells i).file = (w.cells j).file → i = j) ∧
    (∀ i s o next a, w.party i = .act s o next → w.shared = .active a → a.OwnStep i (o a)) ∧
    ∀ (a : Adopted h) sets flat, flat < a.files.length →
      (a.extended sets).index[flat]? = a.index[flat]? ∧
        (a.extended sets).file flat = a.file flat ∧
        (a.extended sets).holder flat = a.holder flat := by
  refine ⟨owner_of_matching hr, fun i j hi hj hfile => ?_, ?_, fun a sets flat hflat => ?_⟩
  · obtain ⟨a, fi, ha, hfi, hown⟩ := owner_of_matching hr i (.inl hi)
    obtain ⟨b, fj, hb, hfj, hown'⟩ := owner_of_matching hr j (.inl hj)
    rw [ha] at hb
    cases hb
    rw [hfi, hfj] at hfile
    cases hfile
    rw [hown] at hown'
    exact Option.some.inj hown'
  · intro i s o next a hp ha
    exact (held_of_matching hr).due hp a ha
  · have hindex : flat < a.index.length := by
      rw [a.index_eq, length_flatIndex, ← a.files_eq]
      exact hflat
    exact ⟨a.index_extended sets hindex, a.file_extended sets hflat, a.holder_extended sets flat⟩

def md5OfA : List UInt8 :=
  [0x0c, 0xc1, 0x75, 0xb9, 0xc0, 0xf1, 0xb6, 0xa8, 0x31, 0xc3, 0x99, 0xe2, 0x69, 0x77, 0x26, 0x61]

def hostOfA : Host where
  md5 _ := md5OfA
  sha256 _ := .replicate 32 0
  windows := false

def setOfA : Par2Set := ⟨[], 4, [⟨[], "a.txt", 1, md5OfA, md5OfA, [UNPROVEN]⟩], [], none, 0⟩

def byteOfA : Matching hostOfA :=
  let r := (NamedSlot.onData {} 3 [] 1 0 [97]).solo Standing.run (.active (.new hostOfA [setOfA]))
  ⟨r.2, Function.update (matcherStart hostOfA).party 3 (.free r.1)⟩

theorem reachable_byteOfA : Reachable (matcher hostOfA) (matcherStart hostOfA) byteOfA := by
  have hset : Reachable (matcher hostOfA) (matcherStart hostOfA)
      ⟨.active (.new hostOfA [setOfA]), (matcherStart hostOfA).party⟩ :=
    .single (.swap (fun _ => ⟨{}, rfl⟩) (.first [setOfA]))
  exact Reachable.solo (i := 3) hset rfl (.onData [] 1 0 [97] {})

theorem claims_exclusive_byteOfA :
    ∃ a fi, byteOfA.shared = .active a ∧ (byteOfA.cells 3).file = some fi ∧
      a.holder fi = some 3 :=
  (claims_exclusive hostOfA byteOfA reachable_byteOfA).1 3 (.inl (by decide))

end NzbFast.Live
