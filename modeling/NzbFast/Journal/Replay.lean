import NzbFast.Journal.Story

/-!
# Exact replay

`resume_journal_iff` says when the resume state of a journal is the one its
calls describe. What is heard differs from what is told for three reasons
only: an empty message-id is written to a line that reads as nothing, a
placement with an empty fragment is refused by the reader, and a re-record
without a checksum does not take back the checksum of the record before it.
-/

namespace NzbFast.Journal

open NzbFast.Rust Fold Finmap Records Finset Option

/-! ## Resume states -/

def Records.article (r : Records) (slot : UInt64) (id : Text) : Option Article :=
  (r.placed.lookup id).bind fun p =>
    if p.slot = slot ∧ (r.slotMeta.lookup slot).isSome then
      some ⟨id, p.frags, p.cryptoFrag, p.crypto, p.crc⟩
    else none

def articlesAt (slots : Table UInt64 SlotPlacement) (slot : UInt64) : List Article :=
  ((slots.lookup slot).map (·.articles)).getD []

theorem articlesAt_group (r : Records) (slots : Table UInt64 SlotPlacement) (id : Text)
    (slot : UInt64) : articlesAt (r.group slots id) slot =
      articlesAt slots slot ++ (r.article slot id).toList := by
  unfold group article
  cases hp : r.placed.lookup id with
  | none => simp
  | some p =>
    simp only [bind_some]
    by_cases hslot : p.slot = slot
    · subst hslot
      cases hm : r.slotMeta.lookup p.slot with
      | none => simp
      | some d =>
        simp only [articlesAt, Table.lookup_step, if_true, map_some, getD_some,
          isSome_some, and_self, toList_some]
        cases slots.lookup p.slot <;> rfl
    · rw [if_neg fun h => hslot h.1]
      cases hm : r.slotMeta.lookup p.slot with
      | none => simp
      | some d =>
        simp only [articlesAt, Table.lookup_step, if_neg fun h : slot = p.slot => hslot h.symm,
          toList_none, List.append_nil]

theorem articlesAt_foldl (r : Records) (ids : List Text) (slots : Table UInt64 SlotPlacement)
    (slot : UInt64) : articlesAt (ids.foldl r.group slots) slot =
      articlesAt slots slot ++ ids.filterMap (r.article slot) := by
  induction ids generalizing slots with
  | nil => simp
  | cons id ids ih =>
    rw [List.foldl_cons, ih, articlesAt_group, List.append_assoc, List.filterMap_cons]
    cases r.article slot id <;> rfl

variable {id : Text} {r : Records} {d : Option UInt32} {p q : Option Placed} {ps : List Placing}

theorem id_article {slot : UInt64} {x : Article} (h : r.article slot id = some x) : x.id = id := by
  obtain ⟨p, -, hx⟩ := bind_eq_some_iff.mp h
  split at hx
  · cases hx
    rfl
  · cases hx

theorem mem_articlesAt_resume (o : HashOrder Text) (r : Records) (slot : UInt64) (x : Article) :
    x ∈ articlesAt (r.resume o).slots slot ↔ r.article slot x.id = some x := by
  have hslots : articlesAt (r.resume o).slots slot =
      (o.order r.placed.keys).filterMap (r.article slot) := articlesAt_foldl r _ ∅ slot
  rw [hslots, List.mem_filterMap]
  constructor
  · rintro ⟨id, -, h⟩
    rw [id_article h, h]
  · intro h
    obtain ⟨p, hp, -⟩ := bind_eq_some_iff.mp h
    refine ⟨x.id, ?_, h⟩
    rw [o.mem, mem_keys]
    exact mem_of_lookup_eq_some hp

def Records.Named (r : Records) : Prop :=
  ∀ id p, r.placed.lookup id = some p → (r.slotMeta.lookup p.slot).isSome

theorem placed_of_resume {o : HashOrder Text} {s : Records} (hr : r.Named) (hs : s.Named)
    (h : (r.resume o).slots = (s.resume o).slots) : r.placed = s.placed := by
  have hsub : ∀ {r s : Records}, r.Named → (r.resume o).slots = (s.resume o).slots →
      ∀ id p, r.placed.lookup id = some p → s.placed.lookup id = some p := by
    intro r s hr h id p hp
    have hx : (⟨id, p.frags, p.cryptoFrag, p.crypto, p.crc⟩ : Article) ∈
        articlesAt (r.resume o).slots p.slot := by
      rw [mem_articlesAt_resume, article, hp, bind_some, if_pos ⟨rfl, hr id p hp⟩]
    rw [h, mem_articlesAt_resume] at hx
    obtain ⟨q, hq, hx⟩ := bind_eq_some_iff.mp hx
    split at hx
    case isTrue hslot =>
      rw [hq]
      exact congrArg some (by cases p; cases q; simp_all)
    case isFalse => cases hx
  apply ext_lookup
  intro id
  refine ext fun p => ⟨hsub hr h id p, hsub hs h.symm id p⟩

/-! ## Calls -/

def Call.placing : Call → Option Placing
  | .recordPlaced a => if a.frags = [] then none else some a
  | .recordPlacedCrypto a _ => if a.frags = [] then none else some a
  | _ => none

def placingsOf (cs : List Call) (id : Text) : List Placing :=
  (cs.filterMap Call.placing).filter (·.id = id)

def callsOf (runs : List Run) : List Call := runs.flatMap fun run => run.calls.map Prod.fst

theorem placingsOf_snoc (cs : List Call) (c : Call) (id : Text) : placingsOf (cs ++ [c]) id =
    placingsOf cs id ++ (c.placing.filter (·.id = id)).toList := by
  unfold placingsOf
  cases hc : c.placing with
  | none => simp [hc]
  | some a => by_cases ha : a.id = id <;> simp [hc, ha, Option.filter]

/-- One article, told and heard: `ps` its placement calls, `q` the placement told, `p` the one
heard, `d` the checksum standing for it. -/
structure Follows (id : Text) (ps : List Placing) (q p : Option Placed) (d : Option UInt32) :
    Prop where
  untold : ps = [] → q = none ∧ p = none
  told : ∀ a, ps.getLast? = some a → ∃ q', q = some q' ∧ q'.crc = a.crc ∧
    q'.frags.map (·.len) = a.frags.map (·.len)
  whole : ∀ p', p = some p' → id ≠ [] ∧ 0 ∉ p'.frags.map (·.len)
  digest : id ≠ [] → d = (ps.filterMap (·.crc)).getLast?
  kept : ∀ q', q = some q' → id ≠ [] → 0 ∉ q'.frags.map (·.len) → p = some { q' with crc := d }

theorem follows_nil (id : Text) : Follows id [] none none none :=
  ⟨fun _ => ⟨rfl, rfl⟩, fun _ h => (nomatch h), fun _ h => (nomatch h), fun _ => rfl,
    fun _ h => (nomatch h)⟩

/-- What was heard of an article is what was told, exactly when its last record was readable and
no record before it passed a checksum that it does not. -/
theorem Follows.agree_iff (h : Follows id ps q p d) : p = q ↔ ∀ a, ps.getLast? = some a →
      id ≠ [] ∧ 0 ∉ a.frags.map (·.len) ∧ (a.crc = none → ∀ b ∈ ps, b.crc = none) := by
  constructor
  · rintro rfl a ha
    obtain ⟨q, rfl, hcrc, hlen⟩ := h.told a ha
    obtain ⟨hid, hzero⟩ := h.whole q rfl
    have hkept := congrArg Placed.crc (some.inj (h.kept q rfl hid hzero))
    refine ⟨hid, hlen ▸ hzero, fun hnone b hb => ?_⟩
    rw [hcrc, hnone, h.digest hid, eq_comm, List.getLast?_eq_none_iff, List.filterMap_eq_nil_iff]
      at hkept
    exact hkept b hb
  · intro hlast
    rcases List.eq_nil_or_concat ps with rfl | ⟨init, a, rfl⟩
    · obtain ⟨rfl, rfl⟩ := h.untold rfl
      rfl
    obtain ⟨hid, hzero, hnone⟩ := hlast a (by simp)
    obtain ⟨q, rfl, hcrc, hlen⟩ := h.told a (by simp)
    rw [h.kept q rfl hid (hlen ▸ hzero)]
    have hd : d = q.crc := by
      rw [h.digest hid, hcrc]
      cases ha : a.crc with
      | some c => simp [ha]
      | none =>
        rw [List.getLast?_eq_none_iff, List.filterMap_eq_nil_iff]
        exact hnone ha
    rw [hd]

/-- A placement call follows: what it records, and what the reader makes of it. -/
theorem Follows.place (h : Follows id ps q p d) (a : Placing) (mask : Option (List Bool))
    {d' : Option UInt32} (hd' : id ≠ [] → d' = (a.crc <|> d)) :
    Follows id (ps ++ [a]) (some (a.placed mask a.crc))
      (if id = [] ∨ ∃ f ∈ a.frags, f.len = 0 then p else some (a.placed mask d')) d' := by
  have hbad : (∃ f ∈ a.frags, f.len = 0) ↔ 0 ∈ a.frags.map (·.len) := by simp
  refine ⟨fun hnil => ?_, fun b hb => ?_, fun p' hp => ?_, fun hid => ?_, fun q' hq hid hzero => ?_⟩
  · simp at hnil
  · rw [List.getLast?_append, List.getLast?_singleton, some_or] at hb
    cases hb
    exact ⟨_, rfl, rfl, rfl⟩
  · split at hp
    case isTrue => exact h.whole p' hp
    case isFalse hok =>
      cases hp
      rw [not_or, hbad] at hok
      exact hok
  · rw [hd' hid, h.digest hid, List.filterMap_append, List.getLast?_append]
    cases ha : a.crc <;> simp [ha]
  · cases hq
    rw [if_neg]
    · rfl
    · rw [not_or, hbad]
      exact ⟨hid, hzero⟩

/-- A rewrite that keeps lengths and checksums follows. -/
theorem Follows.map (h : Follows id ps q p d) {f : Placed → Placed}
    (hlen : ∀ x, (f x).frags.map (·.len) = x.frags.map (·.len)) (hcrc : ∀ x, (f x).crc = x.crc)
    (hset : ∀ x c, f { x with crc := c } = { f x with crc := c }) :
    Follows id ps (q.map f) (p.map f) d := by
  refine ⟨fun hnil => ?_, fun a ha => ?_, fun p' hp => ?_, h.digest, fun q' hq hid hzero => ?_⟩
  · obtain ⟨rfl, rfl⟩ := h.untold hnil
    exact ⟨rfl, rfl⟩
  · obtain ⟨q, rfl, hqcrc, hqlen⟩ := h.told a ha
    exact ⟨f q, rfl, (hcrc q).trans hqcrc, (hlen q).trans hqlen⟩
  · obtain ⟨p, rfl, rfl⟩ := map_eq_some_iff.mp hp
    rw [hlen]
    exact h.whole p rfl
  · obtain ⟨q, rfl, rfl⟩ := map_eq_some_iff.mp hq
    rw [hlen] at hzero
    rw [h.kept q rfl hid hzero, map_some, hset]

/-- When a journal is read back as it was written: no article is recorded under an empty id, and
an article's last placement has no empty fragment and passes a checksum unless no call for the
article ever did. -/
structure Replayable (runs : List Run) : Prop where
  articles : Call.record [] ∉ callsOf runs
  last : ∀ id a, (placingsOf (callsOf runs) id).getLast? = some a →
    id ≠ [] ∧ 0 ∉ a.frags.map (·.len) ∧
      (a.crc = none → ∀ b ∈ placingsOf (callsOf runs) id, b.crc = none)

/-! ## States -/

def Records.over (r : Records) (placed : Table Text Placed) (completed : Finset Text) : Records :=
  { r with placed := placed, completed := completed }

/-- What was heard of calls, beside what was told. -/
structure Tracks (cs : List Call) (t : Tables) (s : Records) (h : Heard) : Prop where
  frame : h.recs = s.over h.recs.placed h.recs.completed
  completed : h.recs.completed = s.completed.erase []
  blank : [] ∈ s.completed ↔ Call.record [] ∈ cs
  follows : ∀ id, Follows id (placingsOf cs id) (s.placed.lookup id) (h.recs.placed.lookup id)
    (h.digests.lookup id)
  told : s.Named
  heard : h.recs.Named
  emitted : ∀ slot ∈ t.slotsEmitted, (s.slotMeta.lookup slot).isSome

theorem Records.lookup_materialize (r : Records) (slot : UInt64) (name id : Text) :
    (r.materialize slot name).placed.lookup id = (r.placed.lookup id).map fun p =>
      if p.slot = slot then
        { p with
          frags := p.frags.map fun f => { f with file := name, fileOff := f.volOff }
          cryptoFrag := p.cryptoFrag.map fun _ => false
          crypto := false }
      else p := by
  rw [materialize, Table.lookup_filterMap]
  cases r.placed.lookup id <;> rfl

theorem Records.slot_materialize {slot : UInt64} {name : Text} {p : Placed}
    (h : (r.materialize slot name).placed.lookup id = some p) :
    ∃ p', r.placed.lookup id = some p' ∧ p'.slot = p.slot := by
  rw [lookup_materialize] at h
  obtain ⟨p', hp', rfl⟩ := map_eq_some_iff.mp h
  refine ⟨p', hp', ?_⟩
  split <;> rfl

theorem isSome_lookup_insert {K V : Type} [DecidableEq K] (t : Table K V) (k : K) (v : V) :
    ((t.insert k v).lookup k).isSome := by
  rw [lookup_insert]
  rfl

theorem isSome_nameSlot {j : UInt64} (h : (r.slotMeta.lookup j).isSome) (slot : UInt64)
    (dest : Option (Text × UInt64)) : ((r.nameSlot slot dest).slotMeta.lookup j).isSome := by
  cases dest with
  | none => exact h
  | some d =>
    show (lookup j (insert slot d r.slotMeta)).isSome
    rw [Table.lookup_insert_eq_ite]
    split
    · rfl
    · exact h

section Step

variable {sha256 : List UInt8 → Bytes 32} {windows : Bool}

/-- After a placement call its slot has a name. -/
theorem isSome_destination {t : Tables} {r : Records} {a : Placing}
    (h : ∀ slot ∈ t.slotsEmitted, (r.slotMeta.lookup slot).isSome) :
    ((r.nameSlot a.slot (destination sha256 windows t a)).slotMeta.lookup a.slot).isSome := by
  cases hd : destination sha256 windows t a with
  | some d => exact isSome_lookup_insert r.slotMeta a.slot d
  | none =>
    refine h _ ?_
    unfold destination at hd
    split at hd
    case isTrue hmem => exact hmem
    case isFalse => cases hd

theorem nameSlot_over (r : Records) (placed : Table Text Placed) (completed : Finset Text)
    (slot : UInt64) (dest : Option (Text × UInt64)) :
    (r.over placed completed).nameSlot slot dest = (r.nameSlot slot dest).over placed completed := by
  cases dest <;> rfl

theorem named_nameSlot {r : Records} (h : r.Named) (slot : UInt64)
    (dest : Option (Text × UInt64)) : (r.nameSlot slot dest).Named := by
  intro id p hp
  refine isSome_nameSlot (h id p ?_) slot dest
  cases dest <;> exact hp

theorem lookup_digestsOf_self (digests : Table Text UInt32) {a : Placing} (ha : a.id ≠ []) :
    (Heard.digestsOf digests a).lookup a.id = (a.crc <|> digests.lookup a.id) := by
  unfold Heard.digestsOf
  cases a.crc with
  | none => rfl
  | some crc =>
    simp only [if_neg ha, lookup_insert]
    rfl

theorem lookup_digestsOf_ne (digests : Table Text UInt32) {a : Placing} {id : Text}
    (h : id ≠ a.id) : (Heard.digestsOf digests a).lookup id = digests.lookup id := by
  unfold Heard.digestsOf
  cases a.crc with
  | none => rfl
  | some crc =>
    simp only
    split
    · rfl
    · exact lookup_insert_of_ne _ h

variable {c : Call} {cs : List Call} {h : Heard} {s : Records} {t : Tables}

/-- A call that places nothing and records no article leaves the history of every article. -/
theorem Tracks.quiet {t' : Tables} {s' : Records} {h' : Heard} (hs : Tracks cs t s h)
    (hc : c.placing = none) (hrec : c ≠ .record [])
    (frame : h'.recs = s'.over h'.recs.placed h'.recs.completed)
    (completed : h'.recs.completed = s'.completed.erase [])
    (blank : [] ∈ s'.completed ↔ [] ∈ s.completed)
    (follows : ∀ id, Follows id (placingsOf cs id) (s'.placed.lookup id) (h'.recs.placed.lookup id) (h'.digests.lookup id))
    (told : s'.Named) (heard : h'.recs.Named)
    (emitted : ∀ slot ∈ t'.slotsEmitted, (s'.slotMeta.lookup slot).isSome) :
    Tracks (cs ++ [c]) t' s' h' := by
  refine ⟨frame, completed, ?_, fun id => ?_, told, heard, emitted⟩
  · rw [blank, hs.blank, List.mem_append, List.mem_singleton]
    exact (or_iff_left fun he => hrec he.symm).symm
  · rw [placingsOf_snoc, hc]
    simpa using follows id

theorem emitted_named {t : Tables} {r : Records} (a : Placing)
    (h : ∀ slot ∈ t.slotsEmitted, (r.slotMeta.lookup slot).isSome) :
    ∀ slot ∈ (t.named a.slot (destination sha256 windows t a)).slotsEmitted,
      ((r.nameSlot a.slot (destination sha256 windows t a)).slotMeta.lookup slot).isSome := by
  intro slot hslot
  have hname := @isSome_destination sha256 windows t r a h
  cases hd : destination sha256 windows t a with
  | none =>
    rw [hd] at hslot
    exact h slot hslot
  | some d =>
    rw [hd] at hslot hname
    rcases mem_insert.mp hslot with rfl | hslot
    · exact hname
    · exact isSome_nameSlot (h slot hslot) _ _

theorem nameSlot_placed (r : Records) (slot : UInt64) (dest : Option (Text × UInt64)) :
    (r.nameSlot slot dest).placed = r.placed ∧ (r.nameSlot slot dest).completed = r.completed := by
  cases dest <;> exact ⟨rfl, rfl⟩

theorem named_insert {r : Records} (h : r.Named) (id : Text) {p : Placed}
    (hp : (r.slotMeta.lookup p.slot).isSome) :
    ({ r with placed := r.placed.insert id p } : Records).Named := by
  intro j q hq
  have hlook : (r.placed.insert id p).lookup j = some q := hq
  rw [Table.lookup_insert_eq_ite] at hlook
  split at hlook
  · cases hlook
    exact hp
  · exact h j q hlook

theorem Tracks.place (hs : Tracks cs t s h) (a : Placing) (mask : Option (List Bool))
    (hc : c.placing = if a.frags = [] then none else some a) (hrec : c ≠ .record []) :
    Tracks (cs ++ [c]) (recordLetter sha256 windows t a mask).2 (s.place sha256 windows t a mask)
      (h.place sha256 windows t a mask) := by
  unfold Records.place Heard.place recordLetter
  by_cases hnil : a.frags = []
  · simp only [if_pos hnil] at hc ⊢
    exact hs.quiet hc hrec hs.frame hs.completed Iff.rfl hs.follows hs.told hs.heard hs.emitted
  simp only [if_neg hnil] at hc ⊢
  have hemit := @emitted_named sha256 windows t s a hs.emitted
  have hslot := @isSome_destination sha256 windows t s a hs.emitted
  generalize destination sha256 windows t a = dest at hemit hslot ⊢
  obtain ⟨hplaced, hcompleted⟩ := nameSlot_placed s a.slot dest
  have hover : h.recs.nameSlot a.slot dest =
      (s.nameSlot a.slot dest).over h.recs.placed h.recs.completed := by
    rw [← nameSlot_over, ← hs.frame]
  have htold := named_nameSlot hs.told a.slot dest
  have hheard := named_nameSlot hs.heard a.slot dest
  rw [hover] at hheard ⊢
  have hfollows : ∀ id, Follows id (placingsOf (cs ++ [c]) id)
      ((s.placed.insert a.id (a.placed mask a.crc)).lookup id)
      ((if a.id = [] ∨ ∃ f ∈ a.frags, f.len = 0 then h.recs.placed else h.recs.placed.insert a.id
        (a.placed mask ((Heard.digestsOf h.digests a).lookup a.id))).lookup id)
      ((Heard.digestsOf h.digests a).lookup id) := by
    intro id
    rw [placingsOf_snoc, hc]
    by_cases hid : id = a.id
    · subst hid
      have hf := (hs.follows a.id).place a mask fun ha => lookup_digestsOf_self h.digests ha
      rw [lookup_insert, apply_ite (lookup a.id), lookup_insert]
      simpa [Option.filter] using hf
    · rw [lookup_insert_of_ne _ hid, apply_ite (lookup id),
        lookup_insert_of_ne _ hid, ite_self, lookup_digestsOf_ne _ hid]
      have hne : a.id ≠ id := fun h => hid h.symm
      simpa [Option.filter, hne] using hs.follows id
  have hblank : [] ∈ s.completed ↔ Call.record [] ∈ cs ++ [c] := by
    rw [hs.blank, List.mem_append, List.mem_singleton]
    exact (or_iff_left fun he => hrec he.symm).symm
  by_cases hbad : a.id = [] ∨ ∃ f ∈ a.frags, f.len = 0
  · simp only [if_pos hbad] at hfollows ⊢
    exact ⟨rfl, hcompleted ▸ hs.completed, hcompleted ▸ hblank, hplaced ▸ hfollows,
      named_insert htold a.id hslot, hheard, hemit⟩
  · simp only [if_neg hbad] at hfollows ⊢
    exact ⟨rfl, hcompleted ▸ hs.completed, hcompleted ▸ hblank, hplaced ▸ hfollows,
      named_insert htold a.id hslot, named_insert hheard a.id hslot, hemit⟩

/-- A demotion rewrites what was told and what was heard alike. -/
theorem Tracks.materialize {t' : Tables} (hs : Tracks cs t s h) (hc : c.placing = none)
    (hrec : c ≠ .record []) (slot : UInt64) (name : Text) (size : UInt64)
    (ht : t'.slotsEmitted ⊆ insert slot t.slotsEmitted) :
    Tracks (cs ++ [c]) t' ((s.nameSlot slot (some (name, size))).materialize slot name)
      { h with recs := (h.recs.nameSlot slot (some (name, size))).materialize slot name } := by
  have hnamed : ∀ {r : Records}, r.Named →
      ((r.nameSlot slot (some (name, size))).materialize slot name).Named := by
    intro r hr id p hp
    obtain ⟨p', hp', hslot⟩ := slot_materialize hp
    have := named_nameSlot hr slot (some (name, size)) id p' hp'
    rwa [hslot] at this
  refine hs.quiet hc hrec ?_ hs.completed Iff.rfl (fun id => ?_) (hnamed hs.told)
    (hnamed hs.heard) fun j hj => ?_
  · conv_lhs => rw [hs.frame]
    rfl
  · rw [lookup_materialize, lookup_materialize]
    refine (hs.follows id).map (fun x => ?_) (fun x => ?_) fun x crc => ?_
    · split
      · simp
      · rfl
    · split <;> rfl
    · simp only
      split <;> rfl
  · rcases mem_insert.mp (ht hj) with rfl | hj
    · exact isSome_lookup_insert s.slotMeta j (name, size)
    · exact isSome_nameSlot (hs.emitted j hj) slot (some (name, size))

/-- A step that reads and writes only counts or crypt facts runs under other placements. -/
theorem foldl_over {A : Type} {f : Records → A → Records}
    (hf : ∀ r a placed completed, f (r.over placed completed) a = (f r a).over placed completed)
    (l : List A) (r : Records) (placed : Table Text Placed) (completed : Finset Text) :
    l.foldl f (r.over placed completed) = (l.foldl f r).over placed completed := by
  induction l generalizing r with
  | nil => rfl
  | cons a l ih => rw [List.foldl_cons, List.foldl_cons, hf, ih]

theorem foldl_slotMeta {A : Type} {f : Records → A → Records}
    (hf : ∀ r a, (f r a).slotMeta = r.slotMeta) (l : List A) (r : Records) :
    (l.foldl f r).slotMeta = r.slotMeta := by
  induction l generalizing r with
  | nil => rfl
  | cons a l ih => rw [List.foldl_cons, ih, hf]

/-- Counts and crypt facts are heard as they are told. -/
theorem Tracks.foldl {A : Type} {f : Records → A → Records} {cs : List Call} {t : Tables}
    {s : Records} {h : Heard} {c : Call} (hs : Tracks cs t s h) (hc : c.placing = none)
    (hrec : c ≠ .record [])
    (hf : ∀ r a placed completed, f (r.over placed completed) a = (f r a).over placed completed)
    (hmeta : ∀ r a, (f r a).slotMeta = r.slotMeta) (l : List A) :
    Tracks (cs ++ [c]) t (l.foldl f s) { h with recs := l.foldl f h.recs } := by
  have hself : ∀ r, (l.foldl f r).placed = r.placed ∧ (l.foldl f r).completed = r.completed := by
    intro r
    have hr := foldl_over hf l r r.placed r.completed
    rw [show r.over r.placed r.completed = r from rfl] at hr
    rw [hr]
    exact ⟨rfl, rfl⟩
  have hnamed : ∀ {r : Records}, r.Named → (l.foldl f r).Named := by
    intro r hr id p hp
    rw [foldl_slotMeta hmeta]
    rw [(hself r).1] at hp
    exact hr id p hp
  refine hs.quiet hc hrec ?_ ?_ ?_ (fun id => ?_) (hnamed hs.told) (hnamed hs.heard) fun j hj => ?_
  · simp only [(hself h.recs).1, (hself h.recs).2]
    conv_lhs => rw [hs.frame]
    exact foldl_over hf l s _ _
  · rw [(hself h.recs).2, (hself s).2]
    exact hs.completed
  · rw [(hself s).2]
  · rw [(hself s).1, (hself h.recs).1]
    exact hs.follows id
  · rw [foldl_slotMeta hmeta]
    exact hs.emitted j hj

theorem erase_insert_blank (s : Finset Text) (id : Text) : (insert id s).erase [] =
    if id = [] then s.erase [] else insert id (s.erase []) := by
  split
  case isTrue h => rw [h, erase_insert_eq_erase]
  case isFalse h => rw [erase_insert_of_ne h]

/-- The step: a call is heard as it is told, up to what `Follows` says. -/
theorem Tracks.tell (hs : Tracks cs t s h) (c : Call) :
    Tracks (cs ++ [c]) (callLines sha256 windows t c).2 (s.tell sha256 windows t c)
      (h.tell sha256 windows t c) := by
  cases c with
  | record id =>
    have hfollows : ∀ j, Follows j (placingsOf (cs ++ [.record id]) j) (s.placed.lookup j)
        (h.recs.placed.lookup j) (h.digests.lookup j) := by
      intro j
      rw [placingsOf_snoc]
      simpa [Call.placing] using hs.follows j
    have hblank : [] ∈ insert id s.completed ↔ Call.record [] ∈ cs ++ [.record id] := by
      rw [Finset.mem_insert, hs.blank, List.mem_append, List.mem_singleton, Call.record.injEq,
        or_comm]
    have herase := erase_insert_blank s.completed id
    unfold Heard.tell
    simp only
    split
    case isTrue hid =>
      rw [if_pos hid] at herase
      exact ⟨hs.frame, hs.completed.trans herase.symm, hblank, hfollows, hs.told, hs.heard,
        hs.emitted⟩
    case isFalse hid =>
      rw [if_neg hid, ← hs.completed] at herase
      refine ⟨?_, herase.symm, hblank, hfollows, hs.told, hs.heard, hs.emitted⟩
      conv_lhs => rw [hs.frame]
      rfl
  | recordPlaced a => exact hs.place a none rfl (by simp)
  | recordPlacedCrypto a mask => exact hs.place a (some mask) rfl (by simp)
  | recordMaterialized slot name size =>
    refine hs.materialize rfl (by simp) slot name size ?_
    simp only [callLines, materializedLines]
    split
    · exact subset_insert _ _
    · exact Finset.Subset.refl _
  | recordNameVotes slot votes =>
    exact hs.foldl (f := fun r (v : Text × UInt32) => r.vote slot v.1 v.2) (c := .recordNameVotes slot votes) rfl
      (by simp) (fun _ _ _ _ => rfl) (fun _ _ => rfl) _
  | recordCryptoEvents events =>
    exact hs.foldl (c := .recordCryptoEvents events) rfl (by simp)
      (fun _ e _ _ => by cases e <;> rfl) (fun _ e => by cases e <;> rfl) _
  | flush =>
    exact hs.quiet rfl (by simp) hs.frame hs.completed Iff.rfl hs.follows hs.told hs.heard
      hs.emitted

theorem Tracks.tellAll {cs : List Call} {t : Tables} {s : Records} {h : Heard}
    (hs : Tracks cs t s h) (calls : List (Call × Bool)) :
    Tracks (cs ++ calls.map Prod.fst) (tablesAfter sha256 windows t calls)
      (s.tellAll sha256 windows t calls) (h.tellAll sha256 windows t calls) := by
  induction calls generalizing cs t s h with
  | nil =>
    rw [List.map_nil, List.append_nil]
    exact hs
  | cons c calls ih =>
    rw [List.map_cons, ← List.singleton_append, ← List.append_assoc]
    exact ih (hs.tell c.1)

theorem Tracks.newRun (hs : Tracks cs t s h) : Tracks cs {} s h :=
  { hs with emitted := fun _ hslot => absurd hslot (notMem_empty _) }

theorem tracks_nil : Tracks [] {} {} {} where
  frame := rfl
  completed := rfl
  blank := by simp
  follows id := follows_nil id
  told _ _ h := (nomatch h)
  heard _ _ h := (nomatch h)
  emitted _ h := absurd h (notMem_empty _)

theorem tracks_runs (runs : List Run) : ∃ t, Tracks (callsOf runs) t (story sha256 windows runs)
    (heard sha256 windows runs) := by
  have hgen : ∀ (runs : List Run) cs t s h, Tracks cs t s h → ∃ t, Tracks (cs ++ callsOf runs) t
      (runs.foldl (fun r run => r.tellAll sha256 windows {} run.calls) s)
      (runs.foldl (fun h run => h.tellAll sha256 windows {} run.calls) h) := by
    intro runs
    induction runs with
    | nil =>
      intro cs t s h hs
      exact ⟨t, by simpa [callsOf] using hs⟩
    | cons run runs ih =>
      intro cs t s h hs
      have hrun := ih _ _ _ _ (@Tracks.tellAll sha256 windows _ _ _ _ hs.newRun run.calls)
      rwa [List.append_assoc] at hrun
  exact hgen runs [] {} {} {} tracks_nil

theorem Tracks.resume_iff (hs : Tracks cs t s h) (o : HashOrder Text) :
    h.recs.resume o = s.resume o ↔ [] ∉ s.completed ∧
      ∀ id, h.recs.placed.lookup id = s.placed.lookup id := by
  constructor
  · intro he
    constructor
    · have hcompleted : h.recs.completed = s.completed := congrArg ResumeState.completed he
      rw [← hcompleted, hs.completed]
      exact notMem_erase _ _
    · intro id
      rw [placed_of_resume hs.heard hs.told (congrArg ResumeState.slots he)]
  · rintro ⟨hblank, hplaced⟩
    have hcompleted : h.recs.completed = s.completed := by
      rw [hs.completed, erase_eq_of_notMem hblank]
    have hrecs : h.recs = s := by
      rw [hs.frame, ext_lookup hplaced, hcompleted]
      rfl
    rw [hrecs]

/-- The next open reads what the calls of all runs told, exactly when the journal is replayable. -/
theorem resume_journal_iff (o : HashOrder Text) (fp : Bytes 16) (runs : List Run)
    (hruns : ∀ run ∈ runs, run.Ok sha256 windows) :
    openResume sha256 windows o fp (journal sha256 windows fp runs) =
      some ((story sha256 windows runs).resume o) ↔ Replayable runs := by
  obtain ⟨t, hs⟩ := @tracks_runs sha256 windows runs
  rw [openResume_journal o fp hruns, some.injEq, hs.resume_iff o, hs.blank]
  simp only [(hs.follows _).agree_iff]
  exact ⟨fun h => ⟨h.1, h.2⟩, fun h => ⟨h.articles, h.last⟩⟩

end Step

/-! ## A re-record -/

def noHash (_ : List UInt8) : Bytes 32 := List.Vector.replicate 32 0

/-- Ten bytes of a volume, recorded with and without a checksum. -/
def samplePlacing (crc : Option UInt32) : Placing where
  slot := 0
  id := "1@x".toList
  slotFile := some ("a.rar".toList, 10)
  name := "a.rar".toList
  size := 10
  frags := [⟨"a.rar".toList, 0, 0, 10⟩]
  crc := crc

def rerecorded (first again : Option UInt32) : List Run :=
  [⟨⟨1, 2, 3⟩, [(.recordPlaced (samplePlacing first), false)]⟩,
    ⟨⟨4, 5, 6⟩, [(.recordPlaced (samplePlacing again), false)]⟩]

theorem rerecorded_ok (first again : Option UInt32) :
    ∀ run ∈ rerecorded first again, run.Ok noHash false := by
  have hname : Clean noHash false "a.rar".toList := by decide
  have hid : OneLine "1@x".toList := ⟨by decide, by decide⟩
  have hrun : ∀ g crc, (⟨g, [(.recordPlaced (samplePlacing crc), false)]⟩ : Run).Ok noHash false := by
    intro g crc
    have hfiles : (tablesAfter noHash false {}
        [(.recordPlaced (samplePlacing crc), false)]).files.length = 1 := rfl
    refine ⟨fun c hc => ?_, by rw [hfiles]; decide⟩
    rw [List.mem_singleton.mp hc]
    refine ⟨hid, hname, fun f hf => ?_⟩
    rw [List.mem_singleton.mp hf]
    exact hname
  intro run hr
  simp only [rerecorded, List.mem_cons, List.not_mem_nil, or_false] at hr
  rcases hr with rfl | rfl <;> exact hrun _ _

theorem placingsOf_rerecorded (first again : Option UInt32) (id : Text) :
    placingsOf (callsOf (rerecorded first again)) id =
      if id = "1@x".toList then [samplePlacing first, samplePlacing again] else [] := by
  have hcalls : (callsOf (rerecorded first again)).filterMap Call.placing =
      [samplePlacing first, samplePlacing again] := rfl
  rw [placingsOf, hcalls]
  by_cases h : id = "1@x".toList
  · subst h
    rfl
  · rw [if_neg h, List.filter_eq_nil_iff]
    simp only [List.mem_cons, List.not_mem_nil, or_false]
    rintro a (rfl | rfl) he <;> exact h (of_decide_eq_true he).symm

theorem resume_journal_rerecorded : (∀ run ∈ rerecorded (some 7) (some 9), run.Ok noHash false) ∧
    ∀ o fp, openResume noHash false o fp (journal noHash false fp (rerecorded (some 7) (some 9))) =
      some ((story noHash false (rerecorded (some 7) (some 9))).resume o) := by
  refine ⟨rerecorded_ok _ _, fun o fp => (resume_journal_iff o fp _ (rerecorded_ok _ _)).mpr ?_⟩
  refine ⟨by simp [callsOf, rerecorded], fun id a ha => ?_⟩
  rw [placingsOf_rerecorded] at ha
  split at ha
  case isTrue hid =>
    cases ha
    exact ⟨by rw [hid]; decide, by decide, fun h => (nomatch h)⟩
  case isFalse => cases ha

/-- A re-record without a checksum is resumed under the checksum of the record before it. -/
theorem stale_checksum_resumed : (∀ run ∈ rerecorded (some 7) none, run.Ok noHash false) ∧
    ∀ o fp, openResume noHash false o fp (journal noHash false fp (rerecorded (some 7) none)) ≠
      some ((story noHash false (rerecorded (some 7) none)).resume o) := by
  refine ⟨rerecorded_ok _ _, fun o fp => ?_⟩
  obtain ⟨t, hs⟩ := @tracks_runs noHash false (rerecorded (some 7) none)
  rw [openResume_journal o fp (rerecorded_ok _ _), ne_eq, some.injEq, hs.resume_iff o]
  rintro ⟨-, hplaced⟩
  have hlast := (hs.follows "1@x".toList).agree_iff.mp (hplaced _) (samplePlacing none)
  rw [placingsOf_rerecorded, if_pos rfl] at hlast
  cases (hlast rfl).2.2 rfl (samplePlacing (some 7)) (by simp)

end NzbFast.Journal
