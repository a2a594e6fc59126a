import NzbFast.Journal.Replay
import Mathlib.Data.List.DropRight

/-!
# Torn tails

A journal cut anywhere is its whole lines and a torn text. Reopening ends the
torn text with a newline, so it is read as a line. `reopened_iff` says when that
line leaves what the whole lines say: `Replay.Spares` lists, for each kind of
line, what it must not find already recorded.
-/

namespace NzbFast.Journal

open NzbFast.Rust Fold Replay Records List Option

/-! ## Keeping what was said -/

def countOf (tally : List (Text × UInt32)) (name : Text) : Option UInt32 :=
  (tally.find? (·.1 = name)).map (·.2)

def votesFor (votes : Table UInt64 (List (Text × UInt32))) (slot : UInt64) (name : Text) :
    Option UInt32 :=
  (votes.lookup slot).bind (countOf · name)

/-- Everything the one resume state says, the other says too. -/
structure ResumeState.Keeps (base after : ResumeState) : Prop where
  completed : base.completed ⊆ after.completed
  articles : ∀ slot x, x ∈ articlesAt base.slots slot → x ∈ articlesAt after.slots slot
  slots : ∀ slot p, base.slots.lookup slot = some p →
    ∃ p', after.slots.lookup slot = some p' ∧ p'.name = p.name ∧ p'.size = p.size
  crypto : ∀ name m, base.cryptoFiles.lookup name = some m → after.cryptoFiles.lookup name = some m
  votes : ∀ slot name n, votesFor base.nameVotes slot name = some n →
    votesFor after.nameVotes slot name = some n

/-- The same of the records they come from: a placement counts once its slot has a name. -/
structure Records.Keeps (base after : Records) : Prop where
  completed : base.completed ⊆ after.completed
  placed : ∀ id p d, base.placed.lookup id = some p → base.slotMeta.lookup p.slot = some d →
    after.placed.lookup id = some p ∧ after.slotMeta.lookup p.slot = some d
  crypto : ∀ name m, base.cryptoFiles.lookup name = some m → after.cryptoFiles.lookup name = some m
  votes : ∀ slot name n, votesFor base.nameVotes slot name = some n →
    votesFor after.nameVotes slot name = some n

theorem foldl_group_slots {r : Records} (ids : List Text) {slots : Table UInt64 SlotPlacement}
    (h : ∀ slot p, slots.lookup slot = some p →
      r.slotMeta.lookup slot = some (p.name, p.size) ∧ p.articles ≠ []) :
    ∀ slot p, (ids.foldl r.group slots).lookup slot = some p →
      r.slotMeta.lookup slot = some (p.name, p.size) ∧ p.articles ≠ [] := by
  induction ids generalizing slots with
  | nil => exact h
  | cons id ids ih =>
    refine ih fun slot p hp => ?_
    unfold group at hp
    cases hq : r.placed.lookup id with
    | none =>
      rw [hq] at hp
      exact h slot p hp
    | some q =>
      rw [hq] at hp
      simp only at hp
      cases hd : r.slotMeta.lookup q.slot with
      | none =>
        rw [hd] at hp
        exact h slot p hp
      | some d =>
        rw [hd] at hp
        simp only [Table.lookup_step] at hp
        split at hp
        case isFalse => exact h slot p hp
        case isTrue hslot =>
          subst hslot
          rw [← some.inj hp]
          refine ⟨?_, by simp⟩
          cases hs : slots.lookup q.slot with
          | none => exact hd
          | some s => exact (h _ s hs).1

theorem placed_of_slot {o : HashOrder Text} {r : Records} {slot : UInt64} {p : SlotPlacement}
    (h : (r.resume o).slots.lookup slot = some p) :
    r.slotMeta.lookup slot = some (p.name, p.size) ∧ ∃ id q, r.placed.lookup id = some q ∧
      q.slot = slot := by
  obtain ⟨hmeta, hne⟩ := @foldl_group_slots r (o.order r.placed.keys) ∅ (fun _ _ h => (nomatch h))
    slot p h
  refine ⟨hmeta, ?_⟩
  obtain ⟨x, hx⟩ := exists_mem_of_ne_nil _ hne
  have hat : x ∈ articlesAt (r.resume o).slots slot := by
    rw [articlesAt, h]
    exact hx
  obtain ⟨q, hq, hx⟩ := bind_eq_some_iff.mp ((mem_articlesAt_resume o r slot x).mp hat)
  split at hx
  case isTrue hslot => exact ⟨_, q, hq, hslot.1⟩
  case isFalse => cases hx

theorem article_eq_some_iff {r : Records} {slot : UInt64} {id : Text} {x : Article} :
    r.article slot id = some x ↔ ∃ p d, r.placed.lookup id = some p ∧
      r.slotMeta.lookup p.slot = some d ∧ p.slot = slot ∧
      x = ⟨id, p.frags, p.cryptoFrag, p.crypto, p.crc⟩ := by
  rw [article, bind_eq_some_iff]
  constructor
  · rintro ⟨p, hp, hx⟩
    split at hx
    case isTrue hslot =>
      obtain ⟨rfl, hmeta⟩ := hslot
      obtain ⟨d, hd⟩ := isSome_iff_exists.mp hmeta
      exact ⟨p, d, hp, hd, rfl, (some.inj hx).symm⟩
    case isFalse => cases hx
  · rintro ⟨p, d, hp, hd, rfl, rfl⟩
    exact ⟨p, hp, if_pos ⟨rfl, by rw [hd]; rfl⟩⟩

theorem slot_of_placed (o : HashOrder Text) {r : Records} {id : Text} {q : Placed}
    {d : Text × UInt64} (hq : r.placed.lookup id = some q)
    (hd : r.slotMeta.lookup q.slot = some d) :
    ∃ p, (r.resume o).slots.lookup q.slot = some p ∧ (p.name, p.size) = d := by
  have hx : (⟨id, q.frags, q.cryptoFrag, q.crypto, q.crc⟩ : Article) ∈
      articlesAt (r.resume o).slots q.slot :=
    (mem_articlesAt_resume o r q.slot _).mpr (article_eq_some_iff.mpr ⟨q, d, hq, hd, rfl, rfl⟩)
  cases hp : (r.resume o).slots.lookup q.slot with
  | none =>
    rw [articlesAt, hp] at hx
    cases hx
  | some p =>
    refine ⟨p, rfl, ?_⟩
    rw [(placed_of_slot hp).1] at hd
    exact some.inj hd

theorem resume_keeps_iff (o : HashOrder Text) (base after : Records) :
    (base.resume o).Keeps (after.resume o) ↔ base.Keeps after := by
  constructor
  · intro h
    refine ⟨h.completed, fun id p d hp hd => ?_, h.crypto, h.votes⟩
    have hx := h.articles p.slot ⟨id, p.frags, p.cryptoFrag, p.crypto, p.crc⟩
    rw [mem_articlesAt_resume, mem_articlesAt_resume] at hx
    obtain ⟨q, e, hq, he, hslot, heq⟩ := article_eq_some_iff.mp
      (hx (article_eq_some_iff.mpr ⟨p, d, hp, hd, rfl, rfl⟩))
    have hqp : q = p := by
      cases q
      cases p
      simp_all
    subst hqp
    refine ⟨hq, ?_⟩
    obtain ⟨sp, hsp, hspd⟩ := slot_of_placed o hp hd
    obtain ⟨sp', hsp', hname, hsize⟩ := h.slots _ sp hsp
    rw [(placed_of_slot hsp').1, hname, hsize, hspd]
  · intro h
    refine ⟨h.completed, fun slot x hx => ?_, fun slot p hp => ?_, h.crypto, h.votes⟩
    · rw [mem_articlesAt_resume] at hx ⊢
      obtain ⟨p, d, hp, hd, hslot, hx⟩ := article_eq_some_iff.mp hx
      obtain ⟨hp', hd'⟩ := h.placed _ p d hp hd
      exact article_eq_some_iff.mpr ⟨p, d, hp', hd', hslot, hx⟩
    · obtain ⟨hmeta, id, q, hq, rfl⟩ := placed_of_slot hp
      obtain ⟨hq', hmeta'⟩ := h.placed id q _ hq hmeta
      obtain ⟨p', hp', hd⟩ := slot_of_placed o hq' hmeta'
      exact ⟨p', hp', congrArg Prod.fst hd, congrArg Prod.snd hd⟩

/-! ## Lines that spare the records before them -/

/-- A placement in its final place. -/
structure Placed.Settled (p : Placed) (name : Text) : Prop where
  frags : ∀ f ∈ p.frags, f.file = name ∧ f.fileOff = f.volOff
  cryptoFrag : ∀ c ∈ p.cryptoFrag, c = false
  crypto : p.crypto = false

/-- A line that restates nothing of a named slot, an output or a count with another content. -/
def Replay.Spares (r : Replay) : Line → Prop
  | .params name salt lg2 iv unp check => ∀ m, r.recs.cryptoFiles.lookup name = some m →
      m.salt = salt ∧ m.lg2 = lg2 ∧ m.iv = iv ∧ m.unp = unp ∧ m.check = check
  | .checkpoint name off block => ∀ m, r.recs.cryptoFiles.lookup name = some m →
      m.checkpoints.lookup off = some block
  | .tailPad name pad => ∀ m, r.recs.cryptoFiles.lookup name = some m → m.pad = some pad
  | .votes slot votes name => ∀ n, votesFor r.recs.nameVotes slot name = some n → n = votes
  | .slotName slot size name => ∀ id p d, r.recs.placed.lookup id = some p → p.slot = slot →
      r.recs.slotMeta.lookup slot = some d → d = (name, size)
  | .placed crypto slot frags id => ∀ fs p d, frags.mapM (Replay.resolve r.ftable) = some fs →
      r.recs.placed.lookup id = some p → r.recs.slotMeta.lookup p.slot = some d →
      p = ⟨slot, fs, frags.map (·.cryptoFrag), crypto, r.digests.lookup id⟩
  | .retired name => ∀ id p d, r.recs.placed.lookup id = some p →
      r.recs.slotMeta.lookup p.slot = some d → ∀ f ∈ p.frags, f.file ≠ name
  | .materialized slot => ∀ id p d, r.recs.placed.lookup id = some p → p.slot = slot →
      r.recs.slotMeta.lookup slot = some d → p.Settled d.1
  | .digest _ _ | .file _ _ | .article _ | .skip => True

theorem Records.Keeps.refl (r : Records) : r.Keeps r :=
  ⟨Finset.Subset.refl _, fun _ _ _ hp hd => ⟨hp, hd⟩, fun _ _ h => h, fun _ _ _ h => h⟩

theorem keeps_crypt_iff (r : Records) (name : Text) (f : CryptoFileMeta → CryptoFileMeta) :
    r.Keeps (r.crypt name f) ↔ ∀ m, r.cryptoFiles.lookup name = some m → f m = m := by
  constructor
  · intro h m hm
    have hm' := h.crypto name m hm
    simp only [crypt, Table.lookup_step, if_true, hm, getD_some] at hm'
    exact some.inj hm'
  · intro h
    refine ⟨Finset.Subset.refl _, fun _ _ _ hp hd => ⟨hp, hd⟩, fun n m hm => ?_, fun _ _ _ h => h⟩
    simp only [crypt, Table.lookup_step]
    split
    case isTrue hn =>
      subst hn
      rw [hm, getD_some, h m hm]
    case isFalse => exact hm

theorem countOf_cons (e : Text × UInt32) (l : List (Text × UInt32)) (n : Text) :
    countOf (e :: l) n = if e.1 = n then some e.2 else countOf l n := by
  unfold countOf
  by_cases h : e.1 = n <;> simp [h]

theorem countOf_tally (name : Text) (votes : UInt32) (l : List (Text × UInt32)) (n : Text) :
    countOf (Records.tally name votes l) n = if n = name then some votes else countOf l n := by
  induction l with
  | nil =>
    rw [tally, countOf_cons]
    simp only [eq_comm]
  | cons e l ih =>
    rw [tally]
    split
    case isTrue he =>
      subst he
      rw [countOf_cons, countOf_cons]
      by_cases hn : n = e.1
      · rw [if_pos hn.symm, if_pos hn]
      · have hne : ¬ e.1 = n := fun h => hn h.symm
        rw [if_neg hne, if_neg hn, if_neg hne]
    case isFalse he =>
      rw [countOf_cons, ih, countOf_cons]
      by_cases hn : n = name
      · subst hn
        rw [if_neg he, if_pos rfl, if_pos rfl]
      · rw [if_neg hn, if_neg hn]

theorem votesFor_vote (r : Records) (slot : UInt64) (name : Text) (votes : UInt32) (j : UInt64)
    (n : Text) : votesFor (r.vote slot name votes).nameVotes j n =
      if j = slot ∧ n = name then some votes else votesFor r.nameVotes j n := by
  simp only [votesFor, vote, Table.lookup_step]
  by_cases hj : j = slot
  · subst hj
    simp only [if_true, bind_some, countOf_tally, true_and]
    split
    · rfl
    · cases r.nameVotes.lookup j <;> rfl
  · rw [if_neg hj, if_neg fun h => hj h.1]

theorem map_eq_self_iff {α : Type} {f : α → α} {l : List α} : l.map f = l ↔ ∀ a ∈ l, f a = a := by
  conv_lhs => rhs; rw [← map_id l]
  exact map_inj_left

/-- A demotion rewrites nothing of a settled placement, and only of those. -/
theorem settled_iff {p : Placed} {name : Text} :
    { p with
      frags := p.frags.map fun f => { f with file := name, fileOff := f.volOff }
      cryptoFrag := p.cryptoFrag.map fun _ => false
      crypto := false } = p ↔ p.Settled name := by
  obtain ⟨slot, frags, cryptoFrag, crypto, crc⟩ := p
  simp only [Placed.mk.injEq, true_and, and_true, map_eq_self_iff]
  constructor
  · rintro ⟨hf, hc, hcrypto⟩
    refine ⟨fun f hmem => ?_, fun c hmem => (hc c hmem).symm, hcrypto.symm⟩
    have he := hf f hmem
    exact ⟨(congrArg Frag.file he).symm, (congrArg Frag.fileOff he).symm⟩
  · rintro ⟨hf, hc, hcrypto⟩
    refine ⟨fun f hmem => ?_, fun c hmem => (hc c hmem).symm, hcrypto.symm⟩
    obtain ⟨hfile, hoff⟩ := hf f hmem
    cases f
    simp_all

/-- A line keeps what was said exactly when it spares it. -/
theorem keeps_apply_iff (r : Replay) (line : Line) :
    r.recs.Keeps (r.apply line).recs ↔ r.Spares line := by
  cases line with
  | params name salt lg2 iv unp check =>
    rw [apply, keeps_crypt_iff, Replay.Spares]
    refine forall₂_congr fun m _ => ?_
    cases m
    simp only [CryptoFileMeta.mk.injEq, and_true]
    constructor
    · rintro ⟨rfl, rfl, rfl, rfl, rfl⟩
      exact ⟨rfl, rfl, rfl, rfl, rfl⟩
    · rintro ⟨rfl, rfl, rfl, rfl, rfl⟩
      exact ⟨rfl, rfl, rfl, rfl, rfl⟩
  | checkpoint name off block =>
    rw [apply, keeps_crypt_iff, Replay.Spares]
    refine forall₂_congr fun m _ => ?_
    cases m with
    | mk salt lg2 iv unp check pad checkpoints =>
      simp only [CryptoFileMeta.mk.injEq, true_and]
      constructor
      · intro h
        rw [← h, Finmap.lookup_insert]
      · intro h
        apply Finmap.ext_lookup
        intro j
        rw [Table.lookup_insert_eq_ite]
        split
        case isTrue hj => rw [hj, h]
        case isFalse => rfl
  | tailPad name pad =>
    rw [apply, keeps_crypt_iff, Replay.Spares]
    refine forall₂_congr fun m _ => ?_
    cases m
    simp only [CryptoFileMeta.mk.injEq, true_and, and_true]
    exact eq_comm
  | votes slot votes name =>
    constructor
    · intro h n hn
      have hv := h.votes slot name n hn
      rw [apply, votesFor_vote, if_pos ⟨rfl, rfl⟩] at hv
      exact (some.inj hv).symm
    · intro h
      refine ⟨Finset.Subset.refl _, fun _ _ _ hp hd => ⟨hp, hd⟩, fun _ _ h => h, fun j m n hn => ?_⟩
      rw [apply, votesFor_vote]
      split
      case isTrue he =>
        obtain ⟨rfl, rfl⟩ := he
        rw [h n hn]
      case isFalse => exact hn
  | slotName slot size name =>
    constructor
    · rintro h id p d hp rfl hd
      have hd' := (h.placed id p d hp hd).2
      rw [apply, Finmap.lookup_insert] at hd'
      exact (some.inj hd').symm
    · intro h
      refine ⟨Finset.Subset.refl _, fun id p d hp hd => ⟨hp, ?_⟩, fun _ _ h => h, fun _ _ _ h => h⟩
      simp only [apply, Table.lookup_insert_eq_ite]
      split
      case isTrue hslot => rw [h id p d hp hslot (hslot ▸ hd)]
      case isFalse => exact hd
  | placed crypto slot frags id =>
    rw [apply, Replay.Spares]
    cases hfs : frags.mapM (resolve r.ftable) with
    | none =>
      simp only [reduceCtorEq, false_implies, implies_true, iff_true]
      exact Records.Keeps.refl _
    | some fs =>
      constructor
      · rintro h fs' p d hfs' hp hd
        cases hfs'
        have hp' := (h.placed id p d hp hd).1
        rw [Finmap.lookup_insert] at hp'
        exact (some.inj hp').symm
      · intro h
        refine ⟨Finset.Subset.refl _, fun j p d hp hd => ⟨?_, hd⟩, fun _ _ h => h, fun _ _ _ h => h⟩
        simp only [Table.lookup_insert_eq_ite]
        split
        case isTrue hj => rw [h fs p d rfl (hj ▸ hp) hd]
        case isFalse => exact hp
  | retired name =>
    constructor
    · intro h id p d hp hd f hf hfile
      have hp' := (h.placed id p d hp hd).1
      rw [apply, Table.lookup_filterMap, hp, bind_some, if_pos] at hp'
      · cases hp'
      · exact any_eq_true.mpr ⟨f, hf, by simpa using hfile⟩
    · intro h
      refine ⟨Finset.Subset.refl _, fun id p d hp hd => ⟨?_, hd⟩, fun _ _ h => h, fun _ _ _ h => h⟩
      rw [apply, Table.lookup_filterMap, hp, bind_some, if_neg]
      intro hany
      obtain ⟨f, hf, hfile⟩ := any_eq_true.mp hany
      exact h id p d hp hd f hf (by simpa using hfile)
  | materialized slot =>
    rw [apply, Replay.Spares]
    cases hd : r.recs.slotMeta.lookup slot with
    | none =>
      simp only [reduceCtorEq, false_implies, implies_true, iff_true]
      exact Records.Keeps.refl _
    | some d =>
      constructor
      · rintro h id p e hp rfl he
        cases he
        have hp' := (h.placed id p d hp hd).1
        simp only [lookup_materialize, hp, map_some, if_true] at hp'
        exact settled_iff.mp (some.inj hp')
      · intro h
        refine ⟨Finset.Subset.refl _, fun id p e hp he => ⟨?_, he⟩, fun _ _ h => h,
          fun _ _ _ h => h⟩
        simp only [lookup_materialize, hp, map_some]
        split
        case isTrue hslot => rw [settled_iff.mpr (h id p d hp hslot rfl)]
        case isFalse => rfl
  | digest _ _ | file _ _ | skip => exact iff_of_true (Records.Keeps.refl _) trivial
  | article id =>
    refine iff_of_true ⟨Finset.subset_insert _ _, fun _ _ _ hp hd => ⟨hp, hd⟩, fun _ _ h => h,
      fun _ _ _ h => h⟩ trivial

/-! ## Cut files -/

/-- Everything up to the last newline. -/
def wholeLines (b : List UInt8) : List UInt8 := b.rdropWhile (· ≠ 0x0A)

def tornTail (b : List UInt8) : List UInt8 := b.rtakeWhile (· ≠ 0x0A)

theorem wholeLines_append_tornTail (b : List UInt8) : wholeLines b ++ tornTail b = b :=
  rdropWhile_append_rtakeWhile

theorem newline_not_mem_tornTail (b : List UInt8) : (0x0A : UInt8) ∉ tornTail b := by
  intro h
  simpa using mem_rtakeWhile_imp h

/-- Whole lines end with a newline, if there are any. -/
theorem wholeLines_cases (b : List UInt8) : wholeLines b = [] ∨ ∃ u, wholeLines b = u ++ [0x0A] := by
  by_cases h : wholeLines b = []
  · exact .inl h
  · refine Or.inr ⟨(wholeLines b).dropLast, ?_⟩
    have hlast : (wholeLines b).getLast h = 0x0A := by
      have := rdropWhile_last_not (fun c : UInt8 => decide (c ≠ 0x0A)) b h
      simpa [wholeLines] using this
    rw [← hlast, dropLast_append_getLast]

theorem readLines_ended (u cur rest : List UInt8) :
    readLines cur (u ++ [0x0A] ++ rest) = readLines cur (u ++ [0x0A]) ++ readLines [] rest := by
  induction u generalizing cur with
  | nil => simp [readLines]
  | cons b u ih =>
    simp only [cons_append, readLines]
    split
    · rw [ih, cons_append]
    · exact ih _

theorem utf8Lines_wholeLines (b rest : List UInt8) :
    utf8Lines (wholeLines b ++ rest) = utf8Lines (wholeLines b) ++ utf8Lines rest := by
  rcases wholeLines_cases b with h | ⟨u, h⟩
  · rw [h]
    rfl
  · rw [h, utf8Lines, readLines_ended, filterMap_append]
    rfl

def tornLines (b : List UInt8) : List Text :=
  if tornTail b = [] then [] else (decode (dropCr (tornTail b))).toList

variable {sha256 : List UInt8 → Bytes 32} {windows : Bool}

theorem utf8Lines_endLine (b : List UInt8) (g : Generation) :
    utf8Lines (endLine b ++ image [generationLine g]) =
      utf8Lines (wholeLines b) ++ tornLines b ++ [generationLine g] := by
  have hgen := utf8Lines_image fun l hl => mem_singleton.mp hl ▸ oneLine_generationLine g
  have hend : endLine b = wholeLines b ++ if tornTail b = [] then [] else tornTail b ++ [0x0A] := by
    have hb := wholeLines_append_tornTail b
    by_cases ht : tornTail b = []
    · rw [if_pos ht, append_nil, endLine, if_neg]
      · rw [ht, append_nil] at hb
        exact hb.symm
      · rintro ⟨hne, hlast⟩
        rw [ht, append_nil] at hb
        rcases wholeLines_cases b with h | ⟨u, h⟩
        · exact hne (hb.symm.trans h)
        · rw [← hb, h] at hlast
          simp at hlast
    · rw [if_neg ht, endLine, if_pos, ← append_assoc, hb]
      refine ⟨fun h => ht ?_, fun h => ?_⟩
      · rw [h]
        rfl
      · rw [← hb, getLast?_append] at h
        obtain ⟨x, hx⟩ := isSome_iff_exists.mp (getLast?_isSome.mpr ht)
        rw [hx, some_or] at h
        rw [some.inj h] at hx
        exact newline_not_mem_tornTail b (mem_of_getLast? hx)
  rw [hend, append_assoc, utf8Lines_wholeLines, append_assoc]
  congr 1
  unfold tornLines
  split
  · exact hgen
  · have htorn : utf8Lines (tornTail b ++ 0x0A :: image [generationLine g]) =
        (decode (dropCr (tornTail b))).toList ++ utf8Lines (image [generationLine g]) := by
      rw [utf8Lines, readLines_newline (newline_not_mem_tornTail b), nil_append, filterMap_cons]
      cases decode (dropCr (tornTail b)) <;> rfl
    rw [append_assoc, singleton_append, htorn, hgen]

/-! ## Reopening -/

section Reopen

variable (sha256 windows)

def TailSafe (o : HashOrder Text) (fp : Bytes 16) (g : Generation) (cut : List UInt8) : Prop :=
  ∀ base, openResume sha256 windows o fp (wholeLines cut) = some base →
    ∃ after, openResume sha256 windows o fp (openFile fp g cut) = some after ∧ base.Keeps after

/-- The torn text reads as a line that spares what the whole lines left in the reader's tables. -/
def SparedByTail (fp : Bytes 16) (cut : List UInt8) : Prop :=
  headed fp (wholeLines cut) → ∀ r x,
    Replay.reads sha256 windows {} (utf8Lines (wholeLines cut)).tail = some r →
    decode (dropCr (tornTail cut)) = some x →
    ∃ line, parseLine sha256 windows x = some line ∧ r.Spares line

end Reopen

theorem resume_empty (o : HashOrder Text) : ({} : Records).resume o = {} := by
  have hkeys : o.order ∅ = [] := eq_nil_iff_forall_not_mem.mpr fun k => by simp [o.mem]
  simp [resume, hkeys]

/-- A journal without records, or of another NZB, resumes nothing. -/
theorem openResume_blank (o : HashOrder Text) (fp : Bytes 16) {b : List UInt8}
    (h : ∀ l ∈ (utf8Lines b).tail, parseLine sha256 windows l = some .skip) :
    openResume sha256 windows o fp b = some {} := by
  unfold openResume
  split
  case isFalse => rfl
  case isTrue =>
    have hreads : ∀ ls : List Text, (∀ l ∈ ls, parseLine sha256 windows l = some .skip) →
        reads sha256 windows {} ls = some {} := by
      intro ls hls
      induction ls with
      | nil => rfl
      | cons l ls ih =>
        rw [reads_cons (hls l (by simp))]
        exact ih fun x hx => hls x (by simp [hx])
    rw [parseLines, show foldlM _ _ _ = _ from hreads _ h, map_some, resume_empty]

theorem Keeps.empty (after : ResumeState) : ({} : ResumeState).Keeps after := by
  refine ⟨Finset.empty_subset _, ?_, fun _ _ h => (nomatch h), fun _ _ h => (nomatch h),
    fun _ _ _ h => (nomatch h)⟩
  intro slot x hx
  cases hx

/-- A file whose whole lines are not headed says nothing when it is reopened. -/
theorem tail_of_unheaded {fp : Bytes 16} {g : Generation} {cut : List UInt8}
    (hw : ¬ headed fp (wholeLines cut) = true) :
    ∀ l ∈ (utf8Lines (openFile fp g cut)).tail, l = generationLine g := by
  unfold openFile
  by_cases hc : headed fp cut = true
  · -- the header is the torn text
    have hnil : utf8Lines (wholeLines cut) = [] := by
      by_contra hne
      obtain ⟨l, ls, hl⟩ := exists_cons_of_ne_nil hne
      have hcut := utf8Lines_wholeLines cut (tornTail cut)
      rw [wholeLines_append_tornTail, hl, cons_append] at hcut
      refine hw ?_
      rw [headed, hcut, head?_cons] at hc
      rw [headed, hl, head?_cons]
      exact hc
    rw [if_pos hc, utf8Lines_endLine, hnil, nil_append]
    unfold tornLines
    intro l hl
    split at hl
    · cases hl
    · cases hd : decode (dropCr (tornTail cut)) with
      | none =>
        rw [hd] at hl
        cases hl
      | some x =>
        rw [hd] at hl
        simpa using hl
  · have hlines : utf8Lines (endLine (image [header fp]) ++ image [generationLine g]) =
        [header fp, generationLine g] := by
      have hend : endLine (image [header fp]) = image [header fp] := by
        rw [endLine, if_neg]
        exact fun hne => hne.2 (getLast_image (by simp))
      rw [hend, ← image_append]
      refine utf8Lines_image fun l hl => ?_
      simp only [cons_append, nil_append, mem_cons, not_mem_nil, or_false] at hl
      rcases hl with rfl | rfl
      · exact oneLine_header fp
      · exact oneLine_generationLine g
    rw [if_neg hc, hlines]
    simp

theorem reads_torn {r : Replay} (g : Generation) (cut : List UInt8) :
    r.reads sha256 windows (tornLines cut ++ [generationLine g]) =
      match decode (dropCr (tornTail cut)) with
      | none => some r
      | some x => (parseLine sha256 windows x).map r.apply := by
  have hgen : ∀ r : Replay, r.reads sha256 windows [generationLine g] = some r := by
    intro r
    rfl
  unfold tornLines
  by_cases ht : tornTail cut = []
  · rw [if_pos ht, ht, nil_append, hgen]
    rfl
  · rw [if_neg ht]
    cases decode (dropCr (tornTail cut)) with
    | none => exact hgen r
    | some x =>
      simp only [toList_some, singleton_append]
      cases hx : parseLine sha256 windows x with
      | none =>
        rw [reads, foldlM_cons, step, hx]
        rfl
      | some line =>
        rw [reads_cons hx, hgen]
        rfl

/-- A reopened file is safe exactly when its torn text spares its whole lines. -/
theorem reopened_iff (o : HashOrder Text) (fp : Bytes 16) (g : Generation) (cut : List UInt8) :
    TailSafe sha256 windows o fp g cut ↔ SparedByTail sha256 windows fp cut := by
  by_cases hw : headed fp (wholeLines cut) = true
  case neg =>
    refine iff_of_true (fun base hbase => ?_) fun h => absurd h hw
    rw [openResume, if_neg hw] at hbase
    cases hbase
    refine ⟨{}, openResume_blank o fp fun l hl => ?_, Keeps.empty _⟩
    rw [tail_of_unheaded hw l hl]
    exact parseLine_generationLine g
  have hne : utf8Lines (wholeLines cut) ≠ [] := by
    intro h
    rw [headed, h] at hw
    simp at hw
  obtain ⟨l, ls, hl⟩ := exists_cons_of_ne_nil hne
  have hcut : headed fp cut = true := by
    have hlines := utf8Lines_wholeLines cut (tornTail cut)
    rw [wholeLines_append_tornTail, hl, cons_append] at hlines
    rw [headed, hl, head?_cons] at hw
    rw [headed, hlines, head?_cons]
    exact hw
  have hopen : openResume sha256 windows o fp (openFile fp g cut) =
      (reads sha256 windows {} (ls ++ (tornLines cut ++ [generationLine g]))).map fun r =>
        r.recs.resume o := by
    have hlines := utf8Lines_endLine cut g
    rw [hl, cons_append, cons_append, append_assoc] at hlines
    have hhead : headed fp (openFile fp g cut) = true := by
      rw [headed, hl, head?_cons] at hw
      rw [headed, openFile, if_pos hcut, hlines, head?_cons]
      exact hw
    rw [openResume, if_pos hhead, openFile, if_pos hcut, hlines, tail_cons]
    rfl
  have hbase : openResume sha256 windows o fp (wholeLines cut) =
      (reads sha256 windows {} ls).map fun r => r.recs.resume o := by
    rw [openResume, if_pos hw, hl, tail_cons]
    rfl
  unfold TailSafe SparedByTail
  rw [hopen, hbase, hl, tail_cons]
  cases hr : reads sha256 windows {} ls with
  | none =>
    refine iff_of_true (fun _ h => ?_) fun _ _ _ h => ?_
    · cases h
    · cases h
  | some r =>
    rw [reads_append hr, reads_torn]
    cases decode (dropCr (tornTail cut)) with
    | none =>
      refine iff_of_true (fun base hb => ⟨base, hb, ?_⟩) fun _ _ _ _ h => ?_
      · cases hb
        exact (resume_keeps_iff o _ _).mpr (Records.Keeps.refl _)
      · cases h
    | some x =>
      constructor
      · rintro h hw' r' x' ⟨⟩ ⟨⟩
        obtain ⟨after, hafter, hkeeps⟩ := h _ rfl
        obtain ⟨q, hq, rfl⟩ := map_eq_some_iff.mp hafter
        obtain ⟨line, hline, rfl⟩ := map_eq_some_iff.mp hq
        exact ⟨line, hline, (keeps_apply_iff r line).mp ((resume_keeps_iff o _ _).mp hkeeps)⟩
      · rintro h base ⟨⟩
        obtain ⟨line, hline, hspares⟩ := h hw r x rfl rfl
        refine ⟨(r.apply line).recs.resume o, by simp [hline], ?_⟩
        exact (resume_keeps_iff o _ _).mpr ((keeps_apply_iff r line).mpr hspares)

/-- A journal cut anywhere is reopened without losing what its whole lines say, exactly when the
torn text reads as a line that spares it. -/
theorem torn_tail_iff (o : HashOrder Text) (fp : Bytes 16) (runs : List Run) (n : Nat)
    (g : Generation) :
    TailSafe sha256 windows o fp g ((journal sha256 windows fp runs).take n) ↔
      SparedByTail sha256 windows fp ((journal sha256 windows fp runs).take n) :=
  reopened_iff o fp g _

/-! ## A count torn short -/

/-- A slot whose articles disagree: five call it `a.r1`, then seven `a.r10`. -/
def contested : Run :=
  ⟨⟨1, 2, 3⟩, [(.recordNameVotes 0 [("a.r1".toList, 5)], false),
    (.recordNameVotes 0 [("a.r10".toList, 7)], false)]⟩

theorem contested_ok : contested.Ok noHash false := by
  refine ⟨fun c hc => ?_, by decide⟩
  simp only [contested, mem_cons, not_mem_nil, or_false] at hc
  rcases hc with rfl | rfl <;> trivial

def contestedLines (fp : Bytes 16) : List Text :=
  [header fp, generationLine ⟨1, 2, 3⟩, voteLine 0 5 "a.r1".toList]

theorem journal_contested (fp : Bytes 16) : journal noHash false fp [contested] =
    image (contestedLines fp) ++ image [voteLine 0 7 "a.r10".toList] := by
  have hlines : ∀ run ∈ [contested], ∀ l ∈ run.lines noHash false, OneLine l := fun run hr =>
    oneLine_run (mem_singleton.mp hr ▸ contested_ok)
  have hrun : contested.lines noHash false = [generationLine ⟨1, 2, 3⟩,
      voteLine 0 5 "a.r1".toList, voteLine 0 7 "a.r10".toList] := by
    rfl
  rw [journal_image fp (by simp) hlines, flatMap_singleton, hrun, ← image_append]
  rfl

theorem cut_append {u t : List UInt8} (hu : u.getLast? = some 0x0A) (ht : (0x0A : UInt8) ∉ t) :
    wholeLines (u ++ t) = u ∧ tornTail (u ++ t) = t := by
  obtain ⟨v, rfl⟩ := getLast?_eq_some_iff.mp hu
  have hwhole : wholeLines (v ++ [0x0A] ++ t) = v ++ [0x0A] := by
    induction t using reverseRecOn with
    | nil =>
      rw [append_nil]
      exact rdropWhile_concat_neg _ _ _ (by simp)
    | append_singleton t c ih =>
      have hc : c ≠ 0x0A := fun h => ht (by simp [h])
      rw [← append_assoc]
      refine (rdropWhile_concat_pos _ _ _ (by simpa using hc)).trans (ih fun h => ht ?_)
      exact mem_append_left _ h
  refine ⟨hwhole, ?_⟩
  have hsplit := wholeLines_append_tornTail (v ++ [0x0A] ++ t)
  rw [hwhole] at hsplit
  exact append_cancel_left hsplit

/-- The cut takes the last digit off the second name, and the seven votes go to the first one. -/
theorem torn_count_misread : ¬ ∃ o fp g, TailSafe noHash false o fp g
    ((journal noHash false fp [contested]).take ((image (contestedLines fp)).length + 10)) := by
  rintro ⟨o, fp, g, h⟩
  have htake : (image [voteLine 0 7 "a.r10".toList]).take 10 = encode "V 0 7 a.r1".toList := by
    decide
  rw [journal_contested, take_length_add_append, htake] at h
  have hlast : (image (contestedLines fp)).getLast? = some 0x0A :=
    getLast_image (by simp [contestedLines])
  obtain ⟨hwhole, htorn⟩ := cut_append hlast
    (show (0x0A : UInt8) ∉ encode "V 0 7 a.r1".toList by decide)
  have hlines : utf8Lines (image (contestedLines fp)) = contestedLines fp := by
    refine utf8Lines_image fun l hl => ?_
    simp only [contestedLines, mem_cons, not_mem_nil, or_false] at hl
    rcases hl with rfl | rfl | rfl
    · exact oneLine_header fp
    · exact oneLine_generationLine _
    · exact oneLine_voteLine 0 (v := ("a.r1".toList, 5)) (by decide)
  have hspared := (reopened_iff o fp g _).mp h
  rw [SparedByTail, hwhole, htorn, hlines] at hspared
  have hname : "a.r1".toList ≠ [] := by decide
  have hreads : reads noHash false {} (contestedLines fp).tail =
      some (({} : Replay).apply (.votes 0 5 "a.r1".toList)) := by
    rfl
  obtain ⟨line, hline, hspares⟩ := hspared (by rw [headed, hlines]; simp [contestedLines]) _ _ hreads
    (by rw [dropCr_encode (by decide), decode_encode])
  have hparse : parseLine noHash false "V 0 7 a.r1".toList = some (.votes 0 7 "a.r1".toList) :=
    parseLine_voteLine 0 7 hname
  rw [hparse] at hline
  cases hline
  have hfive := hspares 5 (by rw [apply, votesFor_vote, if_pos ⟨rfl, rfl⟩])
  cases hfive

end NzbFast.Journal
