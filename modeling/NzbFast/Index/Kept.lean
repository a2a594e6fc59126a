import NzbFast.Index.Writes

/-!
# What a row holds it keeps

`Kept` relates an index to a later one: rows keep their keys, files their totals, and
every stored part its article, up to the spelling of the id. A write of a cluster keeps
everything and adds the cluster's parts; so does a pass, and a batch.
-/

namespace NzbFast.Index

open NzbFast.Rust NzbFast.Sql

variable {R : Readers} {fromJson : List UInt8 → Option (List Seg)}

variable (fromJson) in
/-- Nothing stored in `db` is replaced, dropped or moved in `db'`. -/
structure Kept (db db' : IndexDb) : Prop where
  row : ∀ r ∈ db.releases, ∃ r' ∈ db'.releases, r'.id = r.id ∧ r'.key = r.key
  file : ∀ k f, db.files.lookup k = some f → ∃ f', db'.files.lookup k = some f' ∧
    f'.totalParts = f.totalParts ∧ ∀ n id, f.Holds fromJson n id →
      ∃ id', f'.Holds fromJson n id' ∧ normMsgid id' = normMsgid id

theorem Kept.refl (db : IndexDb) : Kept fromJson db db :=
  ⟨fun r hr => ⟨r, hr, rfl, rfl⟩, fun _ f hf => ⟨f, hf, rfl, fun _ id h => ⟨id, h, rfl⟩⟩⟩

theorem Kept.trans {a b c : IndexDb} (h : Kept fromJson a b) (h' : Kept fromJson b c) :
    Kept fromJson a c := by
  constructor
  · intro r hr
    obtain ⟨r₁, hr₁, hid₁, hkey₁⟩ := h.row r hr
    obtain ⟨r₂, hr₂, hid₂, hkey₂⟩ := h'.row r₁ hr₁
    exact ⟨r₂, hr₂, hid₂.trans hid₁, hkey₂.trans hkey₁⟩
  · intro k f hf
    obtain ⟨f₁, hf₁, ht₁, hh₁⟩ := h.file k f hf
    obtain ⟨f₂, hf₂, ht₂, hh₂⟩ := h'.file k f₁ hf₁
    refine ⟨f₂, hf₂, ht₂.trans ht₁, fun n id hn => ?_⟩
    obtain ⟨id₁, hn₁, he₁⟩ := hh₁ n id hn
    obtain ⟨id₂, hn₂, he₂⟩ := hh₂ n id₁ hn₁
    exact ⟨id₂, hn₂, he₂.trans he₁⟩

theorem IndexDb.Sound.fresh : IndexDb.fresh.Sound := by
  constructor
  · intro k f h
    cases h
  · intro k f h
    cases h

theorem ClusterFile.total_ne_zero (f : ClusterFile) : f.total ≠ 0 := by
  intro h
  obtain ⟨x, hx⟩ := List.exists_mem_of_ne_nil _ f.nonempty
  have hw := f.within x hx
  have h0 : f.total.toNat = 0 := by rw [h]; rfl
  omega

theorem FileRow.Stores.total_ne_zero {f : FileRow} {parts : Parts} (h : f.Stores parts) :
    f.totalParts ≠ 0 := by
  intro he
  obtain ⟨x, hx⟩ := List.exists_mem_of_ne_nil _ h.nonempty
  have hw := h.within x hx
  have h0 : f.totalParts.toNat = 0 := by rw [he]; rfl
  omega

namespace Write

variable {grp : String} {db db' : IndexDb} {c : Cluster} {r : Release}
  {l : List ((_ : String) × ClusterFile)} {existing : ExistingFiles} {agg : RelAgg}

/-- A files row after the write: the merge of a file of the cluster, or the row from before. -/
theorem lookup_cases (h : Write fromJson grp db db' c r l existing agg) (k : FileKey) :
    (∃ x ∈ l, k = (r.id, x.1) ∧ db'.files.lookup k = some (rowOf existing x)) ∨
    (∀ x ∈ l, k ≠ (r.id, x.1)) ∧ db'.files.lookup k = db.files.lookup k := by
  rw [h.files]
  by_cases hk : ∃ x ∈ l, k = (r.id, x.1)
  · obtain ⟨x, hx, rfl⟩ := hk
    exact .inl ⟨x, hx, rfl, lookup_mergeFiles_of_mem h.nodupKeys hx _⟩
  · have hno : ∀ x ∈ l, k ≠ (r.id, x.1) := fun x hx e => hk ⟨x, hx, e⟩
    exact .inr ⟨hno, lookup_mergeFiles_of_not_mem hno _⟩

/-- What the row held of a file of the cluster, which nothing contradicts. -/
theorem held (h : Write fromJson grp db db' c r l existing agg) (hs : db.Sound)
    {x : (_ : String) × ClusterFile} (hx : x ∈ l) {f : FileRow}
    (hf : db.files.lookup (r.id, x.1) = some f) :
    ∃ parts, f.Stores parts ∧ heldParts (existing x.1) = parts ∧ f.totalParts = x.2.total ∧
      (f.read fromJson).contradicts x.2 = false := by
  obtain ⟨parts, hp⟩ := hs.stored _ f hf
  have hex : existing x.1 = some (f.read fromJson) := by rw [h.read x hx, hf]; rfl
  have hclear := h.clear x hx _ hex
  refine ⟨parts, hp, by rw [hex, hp.held], ?_, hclear⟩
  rcases total_eq_of_clear hclear with h0 | h0 | he
  · exact absurd h0 hp.total_ne_zero
  · exact absurd h0 x.2.total_ne_zero
  · exact he

theorem stores_rowOf (h : Write fromJson grp db db' c r l existing agg) (hs : db.Sound)
    {x : (_ : String) × ClusterFile} (hx : x ∈ l) :
    (rowOf existing x).Stores (mergedOf existing x) := by
  refine ⟨rfl, fun y hy => ?_, mergeParts_ne_nil x.2.nonempty, h.text x hx⟩
  rcases mem_mergeParts hy with ⟨v, hv⟩ | hheld
  · exact x.2.within (y.1, v) hv
  · cases hl : db.files.lookup (r.id, x.1) with
    | none =>
      rw [show existing x.1 = none by rw [h.read x hx, hl]; rfl] at hheld
      exact absurd hheld (BTreeMap.not_mem_empty y)
    | some f =>
      obtain ⟨parts, hp, heq, htotal, -⟩ := h.held hs hx hl
      have hy' := hp.within y (heq ▸ hheld)
      rw [htotal] at hy'
      exact hy'

theorem target_mem (h : Write fromJson grp db db' c r l existing agg) :
    { r with agg, complete := agg.complete } ∈ db'.releases := (h.releases _).mpr (.inl rfl)

/-- The row's id is the row's alone. -/
theorem eq_target (h : Write fromJson grp db db' c r l existing agg) {x : Release}
    (hx : x ∈ db.releases) (hid : x.id = r.id) : x = r := by
  rcases h.target with ht | ⟨hblank, -⟩
  · exact Table.eq_of_rowid hx ht hid
  · have hlt := Table.lt_nextId hx
    have hnext : r.id = db.releases.nextId := by rw [hblank]; rfl
    omega

theorem kept_row (h : Write fromJson grp db db' c r l existing agg) {x : Release}
    (hx : x ∈ db.releases) : ∃ x' ∈ db'.releases, x'.id = x.id ∧ x'.key = x.key := by
  by_cases hid : x.id = r.id
  · obtain rfl := h.eq_target hx hid
    exact ⟨_, h.target_mem, rfl, rfl⟩
  · exact ⟨x, (h.releases x).mpr (.inr ⟨hx, hid⟩), rfl, rfl⟩

theorem sound (h : Write fromJson grp db db' c r l existing agg) (hs : db.Sound) : db'.Sound := by
  constructor
  · intro k f hf
    rcases h.lookup_cases k with ⟨x, hx, rfl, he⟩ | ⟨-, he⟩
    · obtain rfl := Option.some.inj (hf.symm.trans he)
      exact ⟨_, h.stores_rowOf hs hx⟩
    · exact hs.stored k f (he ▸ hf)
  · intro k f hf
    rcases h.lookup_cases k with ⟨x, hx, rfl, he⟩ | ⟨-, he⟩
    · exact ⟨_, h.target_mem, rfl⟩
    · obtain ⟨y, hy, hid⟩ := hs.owned k f (he ▸ hf)
      obtain ⟨y', hy', hid', -⟩ := h.kept_row hy
      exact ⟨y', hy', hid'.trans hid⟩

theorem holds (h : Write fromJson grp db db' c r l existing agg) (hs : db.Sound)
    {x : (_ : String) × ClusterFile} (hx : x ∈ l) {n : UInt32} {v : String × UInt64}
    (hv : x.2.parts.get n.toNat = some v) : (rowOf existing x).Holds fromJson n v.1 := by
  rw [(h.stores_rowOf hs hx).holds_iff, mergedOf, get_mergeParts_of_mem (BTreeMap.get_eq_some.mp hv)]
  exact ⟨_, rfl⟩

theorem kept (h : Write fromJson grp db db' c r l existing agg) (hs : db.Sound) :
    Kept fromJson db db' := by
  refine ⟨fun x hx => h.kept_row hx, fun k f hf => ?_⟩
  rcases h.lookup_cases k with ⟨x, hx, rfl, he⟩ | ⟨-, he⟩
  · obtain ⟨parts, hp, heq, htotal, hclear⟩ := h.held hs hx hf
    refine ⟨_, he, htotal.symm, fun n id hn => ?_⟩
    obtain ⟨b, hb⟩ := (hp.holds_iff fromJson n id).mp hn
    cases hv : x.2.parts.get n.toNat with
    | some v =>
      -- Both hold part `n`, so the cluster's id is the row's.
      refine ⟨v.1, h.holds hs hx hv, ?_⟩
      rw [ExistingFile.contradicts, Bool.or_eq_false_iff, List.any_eq_false] at hclear
      obtain ⟨seg, hseg, hnum, hid⟩ := hn
      have hnot := hclear.2 seg hseg
      rw [hnum, hid, ClusterFile.taken, hv] at hnot
      simpa using hnot
    | none =>
      refine ⟨id, ?_, rfl⟩
      rw [(h.stores_rowOf hs hx).holds_iff, mergedOf, get_mergeParts_of_none hv, heq]
      exact ⟨b, hb⟩
  · exact ⟨f, he ▸ hf, rfl, fun n id hn => ⟨id, hn, rfl⟩⟩

end Write

/-! ## Passes and batches -/

variable {db db' : IndexDb} {b : Batch} {budget : Nat} {entries : List OverEntry}

theorem sound_writeCluster {grp : String} {s : Shuffle} {c : Cluster} {out : Outcome}
    (hs : db.Sound) (hclear : ¬ Collides R fromJson db c.stem c.poster grp c.files)
    (h : writeCluster R fromJson grp s.order db c = some (db', out)) :
    db'.Sound ∧ Kept fromJson db db' := by
  rcases writeCluster_some hs hclear h with ⟨rfl, -, -⟩ | ⟨r, existing, agg, minted, hw, -⟩
  · exact ⟨hs, .refl _⟩
  · exact ⟨hw.sound hs, hw.kept hs⟩

variable (R fromJson) in
def NoCollision (grp : String) (routed : List Routed) : Prop :=
  ∀ x ∈ routed, ¬ Collides R fromJson x.before x.cluster.stem x.cluster.poster grp x.cluster.files

theorem writeClusters_cons {c : Cluster} {cs : List Cluster} {routed : List Routed}
    (h : writeClusters R fromJson b db (c :: cs) = some (db', routed)) :
    ∃ db₁ out rest, writeCluster R fromJson b.grp b.shuffle.order db c = some (db₁, out) ∧
      writeClusters R fromJson b db₁ cs = some (db', rest) ∧ routed = ⟨db, c, out⟩ :: rest := by
  obtain ⟨⟨db₁, out⟩, h₁, h⟩ := Option.bind_eq_some_iff.mp h
  obtain ⟨⟨db₂, rest⟩, h₂, h⟩ := Option.bind_eq_some_iff.mp h
  cases h
  exact ⟨db₁, out, rest, h₁, h₂, rfl⟩

theorem sound_writeClusters {cs : List Cluster} {routed : List Routed} (hs : db.Sound)
    (h : writeClusters R fromJson b db cs = some (db', routed))
    (hclear : NoCollision R fromJson b.grp routed) : db'.Sound ∧ Kept fromJson db db' := by
  induction cs generalizing db routed with
  | nil =>
    cases h
    exact ⟨hs, .refl _⟩
  | cons c cs ih =>
    obtain ⟨db₁, out, rest, h₁, h₂, rfl⟩ := writeClusters_cons h
    obtain ⟨hs₁, hk₁⟩ := sound_writeCluster hs (hclear _ List.mem_cons_self) h₁
    obtain ⟨hs₂, hk₂⟩ := ih hs₁ h₂ fun x hx => hclear x (List.mem_cons_of_mem _ hx)
    exact ⟨hs₂, hk₁.trans hk₂⟩

theorem ingestPass_some {p : Passed} (h : ingestPass R fromJson b budget db entries = some p) :
    ∃ db₁, writeClusters R fromJson b db (admitted b (clusterBatch R entries budget)) =
      some (db₁, p.routed) ∧
      p.db = { db₁ with drops := recordDrops db₁.drops (clusterBatch R entries budget).dropped } ∧
      p.dropped = (clusterBatch R entries budget).dropped ∧
      p.deferred = (clusterBatch R entries budget).deferred := by
  obtain ⟨⟨db₁, routed⟩, h₁, h⟩ := Option.bind_eq_some_iff.mp h
  dsimp only at h
  by_cases hc : b.commits budget = true
  · rw [if_pos hc] at h
    cases h
    exact ⟨db₁, h₁, rfl, rfl, rfl⟩
  · rw [if_neg hc] at h
    cases h

theorem sound_ingestPass {p : Passed} (hs : db.Sound)
    (h : ingestPass R fromJson b budget db entries = some p)
    (hclear : NoCollision R fromJson b.grp p.routed) : p.db.Sound ∧ Kept fromJson db p.db := by
  obtain ⟨db₁, h₁, hdb, -, -⟩ := ingestPass_some h
  obtain ⟨hs₁, hk₁⟩ := sound_writeClusters hs h₁ hclear
  rw [hdb]
  exact ⟨⟨hs₁.stored, hs₁.owned⟩, ⟨hk₁.row, hk₁.file⟩⟩

/-- A batch fails at a pass, ends after one, or goes on with what was deferred. -/
theorem ingestPasses_rule {b : Batch} {P : Nat → IndexDb → List OverEntry → Ingested → Prop}
    (fails : ∀ budget db entries, P budget db entries ⟨db, [], [], false⟩)
    (ends : ∀ {budget db entries p}, ingestPass R fromJson b budget db entries = some p →
      p.deferred = [] ∨ budget = 0 → P budget db entries ⟨p.db, p.routed, p.dropped, true⟩)
    (more : ∀ {budget db entries p q}, ingestPass R fromJson b (budget + 1) db entries = some p →
      q = ingestPasses R fromJson b budget p.db p.deferred → P budget p.db p.deferred q →
      P (budget + 1) db entries ⟨q.db, p.routed ++ q.routed, p.dropped ++ q.dropped, q.ok⟩)
    (budget : Nat) (db : IndexDb) (entries : List OverEntry) :
    P budget db entries (ingestPasses R fromJson b budget db entries) := by
  induction budget generalizing db entries with
  | zero =>
    rw [ingestPasses]
    cases hp : ingestPass R fromJson b 0 db entries with
    | none => exact fails 0 db entries
    | some p => exact ends hp (.inr rfl)
  | succ n ih =>
    rw [ingestPasses]
    cases hp : ingestPass R fromJson b (n + 1) db entries with
    | none => exact fails (n + 1) db entries
    | some p =>
      have hnext := more hp rfl (ih p.db p.deferred)
      dsimp only
      cases hd : p.deferred with
      | nil => exact ends hp (.inl hd)
      | cons e es => rwa [hd] at hnext

theorem sound_ingestPasses (hs : db.Sound)
    (hclear : NoCollision R fromJson b.grp (ingestPasses R fromJson b budget db entries).routed) :
    (ingestPasses R fromJson b budget db entries).db.Sound ∧
      Kept fromJson db (ingestPasses R fromJson b budget db entries).db := by
  revert hs hclear
  refine ingestPasses_rule (P := fun _ db _ out => db.Sound → NoCollision R fromJson b.grp out.routed →
    out.db.Sound ∧ Kept fromJson db out.db) (fun _ _ _ hs _ => ⟨hs, .refl _⟩)
    (fun hp _ hs hclear => sound_ingestPass hs hp hclear) ?_ budget db entries
  intro budget db entries p q hp _ ih hs hclear
  obtain ⟨hs₁, hk₁⟩ := sound_ingestPass hs hp fun x hx => hclear x (List.mem_append_left _ hx)
  obtain ⟨hs₂, hk₂⟩ := ih hs₁ fun x hx => hclear x (List.mem_append_right _ hx)
  exact ⟨hs₂, hk₁.trans hk₂⟩

end NzbFast.Index
