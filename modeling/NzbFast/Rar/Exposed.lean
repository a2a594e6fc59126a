import NzbFast.Rar.Recompute
import NzbFast.Rar.Rounds
import NzbFast.Rar.Placement

/-!
# Exposed bases

A base that `group.bases` has shown is one that bytes may have been written
through. It stays where the recompute changes neither what the piece is anchored
by nor what stands in front of it: `Kept`. Where links break, an index vanishes
or a first piece joins in front and disagrees, the base moves.
-/

namespace NzbFast.Rar

open NzbFast.Rust Fold Relation List Option

/-! ## Tables of lists -/

/-- A list that names every key with one value is read back entry by entry. -/
theorem lookup_tableOf {l : List (Key × UInt64)}
    (hfun : ∀ p ∈ l, ∀ q ∈ l, p.1 = q.1 → p.2 = q.2) (k : Key) (b : UInt64) :
    (tableOf l).lookup k = some b ↔ (k, b) ∈ l := by
  unfold tableOf
  induction l using reverseRecOn with
  | nil => simp
  | append_singleton l p ih =>
    have ih := ih fun x hx y hy => hfun x (mem_append_left _ hx) y (mem_append_left _ hy)
    rw [foldl_append, foldl_cons, foldl_nil, Table.lookup_insert_eq_ite]
    have hlast : p ∈ l ++ [p] := mem_append_right _ (mem_singleton_self p)
    split
    case isTrue hk =>
      rw [some.injEq, mem_append, mem_singleton, hk]
      constructor
      · rintro rfl
        exact Or.inr rfl
      · rintro (hmem | heq)
        · exact (hfun _ (mem_append_left _ hmem) p hlast rfl).symm
        · rw [← heq]
    case isFalse hk =>
      rw [mem_append, mem_singleton]
      constructor
      · exact fun h => Or.inl (ih.mp h)
      · rintro (hmem | rfl)
        · exact ih.mpr hmem
        · exact absurd rfl hk

/-! ## Slots and the volumes that have an index -/

/-- A mapper that has parsed on. -/
structure Mapped.Grows (m m' : Mapped) : Prop where
  entries : m.entries <+: m'.entries
  number : ∀ v, m.volumeNumber = some v → m'.volumeNumber = some v
  field : ∀ v, m.volumeNumberLen = some v → m'.volumeNumberLen = some v

def Grows (s s' : List Slot) : Prop :=
  ∀ x ∈ s, ∃ y ∈ s', y.id = x.id ∧ y.name = x.name ∧ x.mapper.Grows y.mapper

def Distinct (s : List Slot) : Prop := (s.map Slot.id).Nodup

theorem Mapped.Grows.refl (m : Mapped) : m.Grows m := ⟨prefix_rfl, fun _ h => h, fun _ h => h⟩

theorem Mapped.Grows.trans {m m' m'' : Mapped} (h : m.Grows m') (h' : m'.Grows m'') : m.Grows m'' :=
  ⟨h.entries.trans h'.entries, fun v hv => h'.number v (h.number v hv),
    fun v hv => h'.field v (h.field v hv)⟩

theorem Grows.refl (s : List Slot) : Grows s s := fun x hx => ⟨x, hx, rfl, rfl, .refl _⟩

variable {s : List Slot}

theorem Grows.trans {s' s'' : List Slot} (h : Grows s s') (h' : Grows s' s'') : Grows s s'' := by
  intro x hx
  obtain ⟨y, hy, hid, hname, hm⟩ := h x hx
  obtain ⟨z, hz, hid', hname', hm'⟩ := h' y hy
  exact ⟨z, hz, hid'.trans hid, hname'.trans hname, hm.trans hm'⟩

theorem Distinct.eq (h : Distinct s) {x y : Slot} (hx : x ∈ s) (hy : y ∈ s) (hid : x.id = y.id) :
    x = y := inj_on_of_nodup_map h hx hy hid

def HasEntry (s : List Slot) (k : Key) (e : FileEntry) : Prop :=
  ∃ x ∈ s, x.id = k.1 ∧ x.mapper.entries[k.2]? = some e

theorem HasEntry.unique (h : Distinct s) {k : Key} {e e' : FileEntry} (he : HasEntry s k e)
    (he' : HasEntry s k e') : e = e' := by
  obtain ⟨x, hx, hid, hx'⟩ := he
  obtain ⟨y, hy, hid', hy'⟩ := he'
  obtain rfl := h.eq hx hy (hid.trans hid'.symm)
  exact some.inj (hx'.symm.trans hy')

theorem HasEntry.grows {s' : List Slot} (h : Grows s s') {k : Key} {e : FileEntry}
    (he : HasEntry s k e) : HasEntry s' k e := by
  obtain ⟨x, hx, hid, he⟩ := he
  obtain ⟨y, hy, hid', -, hm⟩ := h x hx
  refine ⟨y, hy, hid'.trans hid, ?_⟩
  obtain ⟨rest, hrest⟩ := hm.entries
  rw [← hrest, getElem?_append_left (List.getElem?_eq_some_iff.mp he).1, he]

section View

variable {s : List Slot}

theorem mem_indexed {v : UInt64 × Slot} (h : v ∈ indexed s) :
    v.2 ∈ s ∧ indexOf (allNumbered s) v.2 = some v.1 := by
  obtain ⟨x, hx, hv⟩ := mem_filterMap.mp h
  obtain ⟨i, hi, rfl⟩ := map_eq_some_iff.mp hv
  exact ⟨(mem_insertionSort _).mp hx, hi⟩

theorem indexed_sorted (s : List Slot) : (indexed s).Pairwise fun v w => v.1 ≤ w.1 := by
  unfold indexed
  rw [pairwise_filterMap]
  have hsort := pairwise_insertionSort
    (fun x y : Slot => slotKey (allNumbered s) x ≤ slotKey (allNumbered s) y) s
  refine hsort.imp ?_
  rintro x y hle v hv w hw
  obtain ⟨i, hi, rfl⟩ := map_eq_some_iff.mp hv
  obtain ⟨j, hj, rfl⟩ := map_eq_some_iff.mp hw
  unfold slotKey at hle
  rw [hi, hj, Prod.Lex.toLex_le_toLex] at hle
  rw [UInt64.le_iff_toNat_le]
  simp only [map_some, getD_some] at hle
  dsimp only
  omega

theorem indexed_nodup (h : Distinct s) : ((indexed s).map fun v => v.2.id).Nodup := by
  unfold indexed
  have hperm : ((s.insertionSort fun x y => slotKey (allNumbered s) x ≤ slotKey (allNumbered s) y).map
      Slot.id).Nodup := ((perm_insertionSort _ s).map Slot.id).nodup_iff.mpr h
  rw [List.Nodup, pairwise_map] at hperm ⊢
  rw [pairwise_filterMap]
  refine hperm.imp ?_
  rintro x y hne v hv w hw
  obtain ⟨i, -, rfl⟩ := map_eq_some_iff.mp hv
  obtain ⟨j, -, rfl⟩ := map_eq_some_iff.mp hw
  exact hne

variable {k q : Key}

theorem toSlot_eq_some :
    toSlot s q = some k ↔ ∃ v, (indexed s)[q.1]? = some v ∧ (v.2.id, q.2) = k := by
  unfold toSlot
  rw [map_eq_some_iff]

theorem toSlot_inj (h : Distinct s) {q' : Key} (hq : toSlot s q = some k)
    (hq' : toSlot s q' = some k) : q = q' := by
  obtain ⟨v, hv, rfl⟩ := toSlot_eq_some.mp hq
  obtain ⟨w, hw, hwk⟩ := toSlot_eq_some.mp hq'
  obtain ⟨hid, hei⟩ := Prod.mk.inj hwk
  refine Prod.ext ?_ hei.symm
  have hnodup := indexed_nodup h
  obtain ⟨hi, rfl⟩ := List.getElem?_eq_some_iff.mp hv
  obtain ⟨hj, rfl⟩ := List.getElem?_eq_some_iff.mp hw
  have hlen : ((indexed s).map fun v => v.2.id).length = (indexed s).length := length_map _
  apply (@List.Nodup.getElem_inj_iff _ _ hnodup q.1 (hlen ▸ hi) q'.1 (hlen ▸ hj)).mp
  simpa using hid.symm

theorem entryAt_volsOf (q : Key) : entryAt (volsOf s) q =
    (indexed s)[q.1]?.bind fun v => v.2.mapper.entries[q.2]? := by
  unfold entryAt volsOf
  rw [getElem?_map, bind_map]
  rfl

theorem hasEntry_of_toSlot {e : FileEntry} (hq : toSlot s q = some k)
    (he : entryAt (volsOf s) q = some e) : HasEntry s k e := by
  obtain ⟨v, hv, rfl⟩ := toSlot_eq_some.mp hq
  rw [entryAt_volsOf, hv, bind_some] at he
  exact ⟨v.2, (mem_indexed (mem_of_getElem? hv)).1, rfl, he⟩

end View

/-! ## What the headers say of the slots -/

def SeedAt (s : List Slot) (k : Key) (b : UInt64) : Prop :=
  ∃ q e, toSlot s q = some k ∧ entryAt (volsOf s) q = some e ∧ seed e = some b

/-- A link leads from one piece to the other over `n` bytes. -/
def Joins (s : List Slot) (k k' : Key) (n : UInt64) : Prop :=
  ∃ l ∈ links (volsOf s), toSlot s l.a = some k ∧ toSlot s l.b = some k' ∧ l.len = n

/-- A seeded piece and the lengths behind it, up to the piece, make `v`. -/
def InFront (s : List Slot) (k : Key) (v : UInt64) : Prop :=
  ∃ q, toSlot s q = some k ∧ Fronted (volsOf s) q v

/-- A piece whose base in the table of positions is `b`. -/
def At (s : List Slot) (t : Table Key UInt64) (k : Key) (b : UInt64) : Prop :=
  ∃ q e, toSlot s q = some k ∧ entryAt (volsOf s) q = some e ∧ t.lookup q = some b

/-- Offsets that go with every seed and, backward, with every link. -/
structure Certain (s : List Slot) (c : Key → Option UInt64) : Prop where
  seed : ∀ k b, SeedAt s k b → c k = some b
  link : ∀ k k' n, Joins s k k' n → ∀ y, c k' = some y →
    ∃ x, c k = some x ∧ x.toNat + n.toNat = y.toNat

/-- Offsets that go with every seed and give both ends of every link. -/
structure Metric (s : List Slot) (c : Key → Option UInt64) : Prop where
  seed : ∀ k b, SeedAt s k b → c k = some b
  link : ∀ k k' n, Joins s k k' n → ∃ x y, c k = some x ∧ c k' = some y ∧
    x.toNat + n.toNat = y.toNat

theorem Metric.certain {c : Key → Option UInt64} (h : Metric s c) : Certain s c where
  seed := h.seed
  link k k' n hj y hy := by
    obtain ⟨x, y', hx, hy', hsum⟩ := h.link k k' n hj
    rw [hy, some.injEq] at hy'
    exact ⟨x, hx, hy' ▸ hsum⟩

def KeptLink (s s' : List Slot) (k k' : Key) : Prop := ∃ n, Joins s k k' n ∧ Joins s' k k' n

/-- What holds a piece at its base `b` when `s` becomes `s'`: links that stay lead
to it from a piece that seeds itself, or from it to one, and then nothing that
stands in front of it disagrees. -/
def Kept (s s' : List Slot) (k : Key) (b : UInt64) : Prop :=
  (∃ h x, SeedAt s h x ∧ SeedAt s' h x ∧ ReflTransGen (KeptLink s s') h k) ∨
    ∃ t x, SeedAt s t x ∧ SeedAt s' t x ∧ ReflTransGen (KeptLink s s') k t ∧
      ∀ v, InFront s' k v → v = b

section Carry

variable {s s' : List Slot} {c : Key → Option UInt64}

variable (hd : Distinct s') (hg : Grows s s') (hc : Certain s c)

include hd hg hc

variable {b x : UInt64} {k : Key}

/-- A seed that a piece has after a step is the offset it had before, where the
piece had an index. -/
theorem seed_before {q : Key} {e : FileEntry} (hq : toSlot s q = some k)
    (he : entryAt (volsOf s) q = some e) (h : SeedAt s' k b) : c k = some b := by
  obtain ⟨q', e', hq', he', hb⟩ := h
  have hsame := ((hasEntry_of_toSlot hq he).grows hg).unique hd (hasEntry_of_toSlot hq' he')
  exact hc.seed k b ⟨q, e, hq, he, hsame ▸ hb⟩

theorem seed_of_joins {k' : Key} {n : UInt64} (hj : Joins s k k' n) (h : SeedAt s' k' b) :
    c k' = some b := by
  obtain ⟨l, hl, -, hb, -⟩ := hj
  obtain ⟨ea, eb, hlink⟩ := linked_of_mem hl
  exact seed_before hd hg hc hb hlink.entry_b h

theorem swept_of_path {h : Key} (hs : SeedAt s h x) (hs' : SeedAt s' h x)
    (hpath : ReflTransGen (KeptLink s s') h k) :
    ∀ b, c k = some b → At s' (swept (volsOf s')).bases k b := by
  induction hpath with
  | refl =>
    intro b hb
    obtain ⟨q, e, hq, he, hx⟩ := hs'
    rw [hc.seed h x hs, some.injEq] at hb
    subst hb
    exact ⟨q, e, hq, he, swept_seed he hx⟩
  | @tail j k _ hstep ih =>
    intro b hb
    obtain ⟨n, hj, l, hl, hla, hlb, rfl⟩ := hstep
    obtain ⟨y, hy, hsum⟩ := hc.link j k l.len hj b hb
    obtain ⟨q, e, hq, he, hat⟩ := ih y hy
    obtain rfl := toSlot_inj hd hq hla
    obtain ⟨ea, eb, hlink⟩ := linked_of_mem hl
    refine ⟨l.b, eb, hlb, hlink.entry_b, swept_link hl hat hsum fun e' v he' hv => ?_⟩
    have := seed_of_joins hd hg hc hj ⟨l.b, e', hlb, he', hv⟩
    rw [hb, some.injEq] at this
    exact this.symm

omit hd hg in
/-- Backward over links that stay, every piece has an offset. -/
theorem offset_of_path {t : Key} (hs : SeedAt s t x) (hpath : ReflTransGen (KeptLink s s') k t) :
    ∃ w, c k = some w := by
  induction hpath using ReflTransGen.head_induction_on with
  | refl => exact ⟨x, hc.seed t x hs⟩
  | head hstep _ ih =>
    obtain ⟨n, hj, -⟩ := hstep
    obtain ⟨y, hy⟩ := ih
    obtain ⟨w, hw, -⟩ := hc.link _ _ n hj y hy
    exact ⟨w, hw⟩

/-- What stands in front of a piece and agrees with it agrees with the next one. -/
theorem inFront_next {j : Key} {n w y : UInt64} (hj : Joins s k j n) (hj' : Joins s' k j n)
    (hw : c k = some w) (hy : c j = some y) (hsum : w.toNat + n.toNat = y.toNat)
    (hfront : ∀ v, InFront s' k v → v = w) : ∀ v, InFront s' j v → v = y := by
  rintro v ⟨q, hq, hv⟩
  obtain ⟨l, hl, hla, hlb, rfl⟩ := hj'
  obtain rfl := toSlot_inj hd hlb hq
  rcases hv.inv with ⟨e, he, hb⟩ | ⟨l', hl', hb, x, hx, hz⟩
  · have := seed_of_joins hd hg hc hj ⟨_, _, hq, he, hb⟩
    rw [hy, some.injEq] at this
    exact this.symm
  · obtain rfl := link_in_unique hl' hl hb
    obtain rfl := hfront x ⟨_, hla, hx⟩
    rw [← UInt64.toNat_inj]
    omega

/-- Backward from a piece that seeds itself, over links that stay, where nothing in
front disagrees. -/
theorem firstRound_of_path {t : Key} (hs : SeedAt s t x) (hs' : SeedAt s' t x)
    (hpath : ReflTransGen (KeptLink s s') k t) : ∀ w, c k = some w →
    (∀ v, InFront s' k v → v = w) → At s' (firstRound (volsOf s')).bases k w := by
  induction hpath using ReflTransGen.head_induction_on with
  | refl =>
    intro w hw _
    obtain ⟨q, e, hq, he, hx⟩ := hs'
    rw [hc.seed t x hs, some.injEq] at hw
    subst hw
    exact ⟨q, e, hq, he, firstRound_of_swept (swept_seed he hx)⟩
  | @head k j hstep hrest ih =>
    intro w hw hfront
    obtain ⟨n, hj, hj'⟩ := hstep
    obtain ⟨y, hy⟩ := offset_of_path hc hs hrest
    obtain ⟨w', hw', hsum⟩ := hc.link k j n hj y hy
    rw [hw, some.injEq] at hw'
    subst hw'
    obtain ⟨q, e, hq, he, hat⟩ := ih y hy (inFront_next hd hg hc hj hj' hw hy hsum hfront)
    obtain ⟨l, hl, hla, hlb, rfl⟩ := hj'
    obtain rfl := toSlot_inj hd hq hlb
    obtain ⟨ea, eb, hlink⟩ := linked_of_mem hl
    exact ⟨l.a, ea, hla, hlink.entry_a,
      firstRound_link hl hat hsum fun v hv => hfront v ⟨l.a, hla, hv⟩⟩

theorem resolved_of_kept (hk : Kept s s' k b) (hb : c k = some b) :
    At s' (resolveIndexed (volsOf s')).bases k b := by
  rcases hk with ⟨h, x, hs, hs', hpath⟩ | ⟨t, x, hs, hs', hpath, hfront⟩
  · obtain ⟨q, e, hq, he, hat⟩ := swept_of_path hd hg hc hs hs' hpath b hb
    exact ⟨q, e, hq, he, resolved_of_firstRound (firstRound_of_swept hat)⟩
  · obtain ⟨q, e, hq, he, hat⟩ := firstRound_of_path hd hg hc hs hs' hpath b hb hfront
    exact ⟨q, e, hq, he, resolved_of_firstRound hat⟩

omit hd hg in
/-- So does a metric of the new headers. -/
theorem metric_of_kept {m : Key → Option UInt64} (hm : Metric s' m) (hk : Kept s s' k b)
    (hb : c k = some b) : m k = some b := by
  rcases hk with ⟨h, x, hs, hs', hpath⟩ | ⟨t, x, hs, hs', hpath, -⟩
  · induction hpath generalizing b with
    | refl =>
      rw [← hb, hc.seed h x hs]
      exact hm.seed h x hs'
    | @tail j k _ hstep ih =>
      obtain ⟨n, hj, hj'⟩ := hstep
      obtain ⟨y, hy, hsum⟩ := hc.link j k n hj b hb
      obtain ⟨y', z, hy', hz, hsum'⟩ := hm.link j k n hj'
      rw [ih hy, some.injEq] at hy'
      subst hy'
      rw [hz, some.injEq, ← UInt64.toNat_inj]
      omega
  · induction hpath using ReflTransGen.head_induction_on generalizing b with
    | refl =>
      rw [← hb, hc.seed t x hs]
      exact hm.seed t x hs'
    | @head k j hstep hrest ih =>
      obtain ⟨n, hj, hj'⟩ := hstep
      obtain ⟨y, hy⟩ := offset_of_path hc hs hrest
      obtain ⟨w, hw, hsum⟩ := hc.link k j n hj y hy
      obtain ⟨w', y', hw', hy', hsum'⟩ := hm.link k j n hj'
      rw [ih hy, some.injEq] at hy'
      subst hy'
      rw [hb, some.injEq] at hw
      rw [hw', some.injEq, ← UInt64.toNat_inj, hw]
      omega

end Carry

end NzbFast.Rar
