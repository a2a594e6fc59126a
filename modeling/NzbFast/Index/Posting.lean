import NzbFast.Index.Kept

/-!
# One row, one posting

Over any sequence of batches from an empty index whose clusters do not collide, a row
keeps the article it stores for a part, and every header of a batch is stored in a row of
its stem and group, counted by a drop counter, refused by the gate, or in a cluster
refused at the cap. A collision overwrites: the cluster is minted under the key of a row
that it contradicts, and the upsert replaces that row's files.
-/

namespace NzbFast.Index

open NzbFast.Rust NzbFast.Sql Clustered
open List hiding drop

variable {R : Readers} {fromJson : List UInt8 → Option (List Seg)}

/-! ## Clustering -/

def Has (files : ClusterFiles) (r : Reading) (msgid : String) : Prop :=
  ∃ f, files.lookup r.fname = some f ∧ f.total = r.total ∧
    ∃ v, f.parts.get r.part.toNat = some v ∧ normMsgid v.1 = normMsgid msgid

theorem Clustered.files_put (c : Clustered) (k k' : ClusterKey) (fname : String) (f : ClusterFile) :
    (c.put k fname f).files k' = if k' = k then (c.files k).insert fname f else c.files k' := by
  rw [files, put]
  split
  · rename_i h
    rw [h, AList.lookup_insert, Option.getD_some]
  · rename_i h
    rw [AList.lookup_insert_ne h, files]

theorem Clustered.defer_cases (c : Clustered) (budget : Nat) (slot : Slot) (e : OverEntry) :
    (c.defer budget slot e).clusters = c.clusters ∧
    ((c.defer budget slot e).deferred = c.deferred ++ [e] ∧
      (c.defer budget slot e).dropped = c.dropped ∨
    (c.defer budget slot e).deferred = c.deferred ∧
      (c.defer budget slot e).dropped = c.dropped ++ [(.genDepth, e)]) := by
  unfold defer
  dsimp only
  split
  · exact ⟨rfl, .inl ⟨rfl, rfl⟩⟩
  · split
    · exact ⟨rfl, .inl ⟨rfl, rfl⟩⟩
    · exact ⟨rfl, .inr ⟨rfl, rfl⟩⟩

/-- What one article of the loop changes: a file of its cluster, the deferred or the dropped. -/
theorem Clustered.place_cases (budget : Nat) (c : Clustered) (r : Reading) (e : OverEntry) :
    (∃ f, c.place budget r e = c.put (e.from_, r.stem) r.fname f ∧ f.total = r.total ∧
      f.parts.get r.part.toNat = some (e.messageId, e.bytes) ∧
      ∀ f₀, (c.files (e.from_, r.stem)).lookup r.fname = some f₀ →
        f₀.total = r.total ∧ f₀.taken r.part e.messageId = false ∧
        ∀ n, n ≠ r.part.toNat → f.parts.get n = f₀.parts.get n) ∨
    ∃ slot, c.place budget r e = c.defer budget slot e := by
  unfold place
  dsimp only
  split
  · rename_i hnone
    refine .inl ⟨_, rfl, rfl, ?_, fun f₀ hf₀ => ?_⟩
    · exact (BTreeMap.get_insert _ _ _ _).trans (if_pos rfl)
    · rw [hnone] at hf₀
      cases hf₀
  · rename_i f hsome
    split
    · rename_i hfree
      refine .inl ⟨_, rfl, hfree.1, ?_, fun f₀ hf₀ => ?_⟩
      · exact (BTreeMap.get_insert _ _ _ _).trans (if_pos rfl)
      · rw [hsome] at hf₀
        cases hf₀
        refine ⟨hfree.1, hfree.2, fun n hn => ?_⟩
        exact (BTreeMap.get_insert _ _ _ _).trans (if_neg hn)
    · exact .inr ⟨_, rfl⟩

variable {budget : Nat} {c : Clustered} {r : Reading} {e : OverEntry} {db db' : IndexDb}
  {grp : String} {b : Batch} {entries : List OverEntry} {p : Passed}

/-- An article once clustered stays, under an id that normalizes alike. -/
theorem Has.place {k : ClusterKey} {msgid : String} (h : Has (c.files k) r msgid) (r' : Reading)
    (e : OverEntry) : Has ((c.place budget r' e).files k) r msgid := by
  obtain ⟨f₀, hf₀, ht₀, v, hv, hid⟩ := h
  rcases c.place_cases budget r' e with ⟨f, hput, htotal, hpart, hrest⟩ | ⟨slot, hdefer⟩
  · rw [hput, files_put]
    split
    · rename_i hk
      subst hk
      by_cases hname : r.fname = r'.fname
      · obtain ⟨htotal', hfree, hother⟩ := hrest f₀ (hname ▸ hf₀)
        refine ⟨f, by rw [hname, AList.lookup_insert], by rw [htotal, ← htotal', ht₀], ?_⟩
        by_cases hn : r.part.toNat = r'.part.toNat
        · refine ⟨_, hn ▸ hpart, ?_⟩
          rw [ClusterFile.taken, ← hn, hv] at hfree
          have hsame : normMsgid v.1 = normMsgid e.messageId := by simpa using hfree
          exact hsame.symm.trans hid
        · exact ⟨v, by rw [hother _ hn, hv], hid⟩
      · exact ⟨f₀, by rw [AList.lookup_insert_ne hname, hf₀], ht₀, v, hv, hid⟩
    · exact ⟨f₀, hf₀, ht₀, v, hv, hid⟩
  · rw [hdefer, files, (c.defer_cases budget slot e).1]
    exact ⟨f₀, hf₀, ht₀, v, hv, hid⟩

theorem mem_place_deferred (h : e ∈ c.deferred) (r' : Reading) (e' : OverEntry) :
    e ∈ (c.place budget r' e').deferred := by
  rcases c.place_cases budget r' e' with ⟨f, hput, -⟩ | ⟨slot, hdefer⟩
  · rw [hput]
    exact h
  · rw [hdefer]
    rcases (c.defer_cases budget slot e').2 with ⟨hd, -⟩ | ⟨hd, -⟩ <;> rw [hd]
    · exact mem_append_left _ h
    · exact h

theorem mem_place_dropped {x : DropReason × OverEntry} (h : x ∈ c.dropped) (r' : Reading)
    (e' : OverEntry) : x ∈ (c.place budget r' e').dropped := by
  rcases c.place_cases budget r' e' with ⟨f, hput, -⟩ | ⟨slot, hdefer⟩
  · rw [hput]
    exact h
  · rw [hdefer]
    rcases (c.defer_cases budget slot e').2 with ⟨-, hd⟩ | ⟨-, hd⟩ <;> rw [hd]
    · exact h
    · exact mem_append_left _ h

variable (R) in
def Clustered.Placed (entries : List OverEntry) (c : Clustered) (e : OverEntry) : Prop :=
  (∃ r, readEntry R entries e = .ok r ∧ Has (c.files (e.from_, r.stem)) r e.messageId) ∨
  e ∈ c.deferred ∨ ∃ reason, (reason, e) ∈ c.dropped

theorem Clustered.placed_self (entries : List OverEntry) (budget : Nat) (c : Clustered)
    (e : OverEntry) : (clusterOne R entries budget c e).Placed R entries e := by
  unfold clusterOne
  split
  · rename_i reason _
    exact .inr (.inr ⟨reason, mem_append_right _ (mem_singleton_self _)⟩)
  · rename_i r hr
    rcases c.place_cases budget r e with ⟨f, hput, htotal, hpart, -⟩ | ⟨slot, hdefer⟩
    · refine .inl ⟨r, hr, f, ?_, htotal, _, hpart, rfl⟩
      rw [hput, files_put, if_pos rfl, AList.lookup_insert]
    · rw [hdefer]
      rcases (c.defer_cases budget slot e).2 with ⟨hd, -⟩ | ⟨-, hd⟩
      · exact .inr (.inl (by rw [hd]; exact mem_append_right _ (mem_singleton_self _)))
      · refine .inr (.inr ⟨.genDepth, ?_⟩)
        rw [hd]
        exact mem_append_right _ (mem_singleton_self _)

theorem Clustered.Placed.step {entries : List OverEntry} {budget : Nat} {c : Clustered}
    {e : OverEntry} (h : c.Placed R entries e) (e' : OverEntry) :
    (clusterOne R entries budget c e').Placed R entries e := by
  unfold clusterOne
  split
  · rcases h with h | h | ⟨reason, h⟩
    · exact .inl h
    · exact .inr (.inl h)
    · exact .inr (.inr ⟨reason, mem_append_left _ h⟩)
  · rename_i r' _
    rcases h with ⟨r, hr, h⟩ | h | ⟨reason, h⟩
    · exact .inl ⟨r, hr, h.place r' e'⟩
    · exact .inr (.inl (mem_place_deferred h r' e'))
    · exact .inr (.inr ⟨reason, mem_place_dropped h r' e'⟩)

theorem clusterBatch_placed (entries : List OverEntry) (budget : Nat) {e : OverEntry}
    (he : e ∈ entries) : (clusterBatch R entries budget).Placed R entries e := by
  have hfold : ∀ (l : List OverEntry) (c : Clustered), (e ∈ l ∨ c.Placed R entries e) →
      (l.foldl (clusterOne R entries budget) c).Placed R entries e := by
    intro l
    induction l with
    | nil =>
      intro c h
      exact h.resolve_left not_mem_nil
    | cons e' l ih =>
      intro c h
      apply ih
      rcases h with h | h
      · rcases mem_cons.mp h with rfl | h
        · exact .inr (c.placed_self entries budget e)
        · exact .inl h
      · exact .inr (h.step e')
  exact hfold entries .empty (.inl he)

theorem deferred_zero (entries : List OverEntry) : (clusterBatch R entries 0).deferred = [] := by
  have hdefer : ∀ (c : Clustered) slot e, c.slotGen = ∅ ∧ c.deferred = [] →
      (c.defer 0 slot e).slotGen = ∅ ∧ (c.defer 0 slot e).deferred = [] := by
    rintro c slot e ⟨hslot, hd⟩
    simp [defer, hslot, hd, drop]
  have hfold : ∀ (l : List OverEntry) (c : Clustered), c.slotGen = ∅ ∧ c.deferred = [] →
      (l.foldl (clusterOne R entries 0) c).slotGen = ∅ ∧
        (l.foldl (clusterOne R entries 0) c).deferred = [] := by
    intro l
    induction l with
    | nil => exact fun c h => h
    | cons e l ih =>
      intro c h
      apply ih
      unfold clusterOne
      split
      · exact h
      · rename_i r _
        rcases c.place_cases 0 r e with ⟨f, hput, -⟩ | ⟨slot, hd⟩
        · rw [hput]
          exact h
        · rw [hd]
          exact hdefer c slot e h
  exact (hfold entries .empty ⟨rfl, rfl⟩).2

/-! ## Where a header ends up -/

variable (fromJson) in
/-- The header's article is stored for its part, in a row of its stem and group. -/
def StoredAs (grp : String) (db : IndexDb) (e : OverEntry) (r : Reading) : Prop :=
  ∃ rel ∈ db.releases, rel.Of r.stem e.from_ grp ∧
    ∃ f, db.files.lookup (rel.id, r.fname) = some f ∧ f.totalParts = r.total ∧
      ∃ id, f.Holds fromJson r.part id ∧ normMsgid id = normMsgid e.messageId

theorem StoredAs.mono (hk : Kept fromJson db db') (h : StoredAs fromJson grp db e r) :
    StoredAs fromJson grp db' e r := by
  obtain ⟨rel, hrel, hof, f, hf, ht, id, hn, hid⟩ := h
  obtain ⟨rel', hrel', hid', hkey⟩ := hk.row rel hrel
  obtain ⟨f', hf', ht', hh⟩ := hk.file _ f hf
  obtain ⟨id', hn', he⟩ := hh r.part id hn
  have hstem := congrArg (fun k => k.1) hkey
  have hposter : rel'.poster = rel.poster := congrArg (fun k => k.2.1) hkey
  have hgrp := congrArg (fun k => k.2.2) hkey
  refine ⟨rel', hrel', ⟨hstem.trans hof.stem, hgrp.trans hof.grp, hposter ▸ hof.poster⟩, f', ?_,
    ht'.trans ht, id', hn', he.trans hid⟩
  rw [hid']
  exact hf'

variable (R fromJson) in
/-- What became of a header of a batch. -/
inductive Settled (b : Batch) (out : Ingested) (e : OverEntry) : Prop where
  | stored (entries : List OverEntry) (r : Reading) (hr : readEntry R entries e = .ok r)
      (h : StoredAs fromJson b.grp out.db e r)
  | counted (reason : DropReason) (h : (reason, e) ∈ out.dropped)
  | gated (entries : List OverEntry) (r : Reading) (hr : readEntry R entries e = .ok r)
      (h : b.admits r.stem = false)
  | capped (entries : List OverEntry) (r : Reading) (hr : readEntry R entries e = .ok r) (x : Routed)
      (hx : x ∈ out.routed) (hkey : (x.cluster.poster, x.cluster.stem) = (e.from_, r.stem))
      (hin : Has x.cluster.files r e.messageId) (hout : x.outcome = .saturated)
      (hcap : MAX_GEN_SIBLINGS ≤ (markedRows x.before r.stem e.from_ b.grp).length)

/-- The cap is reached where a cluster is refused. -/
theorem cap_of_saturated {stem poster : String} {files : ClusterFiles}
    (h : pickReleaseRow R fromJson db stem poster grp files = .saturated) :
    MAX_GEN_SIBLINGS ≤ (markedRows db stem poster grp).length := by
  have hcount : MAX_GEN_SIBLINGS ≤
      ((genCandidates db stem poster grp).filter (·.2 ≠ poster)).length := by
    unfold pickReleaseRow at h
    dsimp only at h
    split at h
    · cases h
    · split at h
      · cases h
      · unfold pickElsewhere at h
        split at h
        · cases h
        · split at h
          · rename_i hcap
            exact hcap
          · cases h
  obtain ⟨l, hperm, hl⟩ := perm_genSiblings db stem poster grp
  have hplain : ((db.releases.lookup (stem, poster, grp)).toList.map
      fun r => (r.id, r.poster)).filter (fun c => decide (c.2 ≠ poster)) = [] := by
    refine filter_eq_nil_iff.mpr fun c hc => ?_
    obtain ⟨r, hr, rfl⟩ := mem_map.mp hc
    have hkey := (Table.lookup_eq_some.mp (Option.mem_toList.mp hr)).2
    have hp : r.poster = poster := congrArg (fun k => k.2.1) hkey
    simpa using hp
  rw [genCandidates, map_append, filter_append, hplain, nil_append] at hcount
  have hle := hcount.trans (length_filter_le _ _)
  rw [length_map, length_insertionSort, hl, length_take, hperm.length_eq] at hle
  omega

/-- A header in a cluster of a pass is stored when the pass ends, or its cluster was refused. -/
theorem stored_of_writeClusters {cs : List Cluster} {routed : List Routed} (hs : db.Sound)
    (h : writeClusters R fromJson b db cs = some (db', routed))
    (hclear : NoCollision R fromJson b.grp routed) {c : Cluster} (hc : c ∈ cs)
    (hkey : (c.poster, c.stem) = (e.from_, r.stem)) (hin : Has c.files r e.messageId) :
    StoredAs fromJson b.grp db' e r ∨
    ∃ x ∈ routed, x.cluster = c ∧ x.outcome = .saturated ∧
      MAX_GEN_SIBLINGS ≤ (markedRows x.before r.stem e.from_ b.grp).length := by
  induction cs generalizing db routed with
  | nil => cases hc
  | cons c₀ cs ih =>
    obtain ⟨db₁, out, rest, h₁, h₂, rfl⟩ := writeClusters_cons h
    have hhead := hclear _ (.head _)
    have hrest : NoCollision R fromJson b.grp rest := fun x hx => hclear x (.tail _ hx)
    obtain ⟨hs₁, -⟩ := sound_writeCluster hs hhead h₁
    rcases mem_cons.mp hc with rfl | hc
    · obtain ⟨hposter, hstem⟩ := Prod.mk.inj hkey
      rcases writeCluster_some hs hhead h₁ with ⟨-, hout, hpick⟩ | ⟨rel, existing, agg, minted, hw, -⟩
      · refine .inr ⟨_, .head _, rfl, hout, ?_⟩
        rw [← hposter, ← hstem]
        exact cap_of_saturated hpick
      · left
        apply StoredAs.mono (sound_writeClusters hs₁ h₂ hrest).2
        obtain ⟨f, hf, htotal, v, hv, hid⟩ := hin
        have hx := hw.perm.mem_iff.mpr (AList.mem_lookup_iff.mp hf)
        refine ⟨_, hw.target_mem, ?_, rowOf existing ⟨r.fname, f⟩, ?_, htotal, v.1,
          hw.holds hs hx hv, hid⟩
        · have hof := hw.of
          rw [hposter, hstem] at hof
          exact ⟨hof.stem, hof.grp, hof.poster⟩
        · rw [hw.files]
          exact lookup_mergeFiles_of_mem hw.nodupKeys hx _
    · rcases ih hs₁ h₂ hrest hc with hst | ⟨x, hx, hxc⟩
      · exact .inl hst
      · exact .inr ⟨x, .tail _ hx, hxc⟩

theorem settled_ingestPass (hs : db.Sound) (h : ingestPass R fromJson b budget db entries = some p)
    (hclear : NoCollision R fromJson b.grp p.routed) (he : e ∈ entries) :
    e ∈ p.deferred ∨ Settled R fromJson b ⟨p.db, p.routed, p.dropped, true⟩ e := by
  obtain ⟨db₁, h₁, hdb, hdropped, hdeferred⟩ := ingestPass_some h
  rw [hdeferred]
  rcases @clusterBatch_placed R entries budget e he with ⟨r, hr, hin⟩ | hd | ⟨reason, hd⟩
  · right
    have hin' := hin
    obtain ⟨f, hf, -⟩ := hin'
    -- The cluster is in the map, since it has a file.
    cases hl : (clusterBatch R entries budget).clusters.lookup (e.from_, r.stem) with
    | none =>
      rw [files, hl] at hf
      cases hf
    | some files =>
      have hfiles : (clusterBatch R entries budget).files (e.from_, r.stem) = files := by
        rw [Clustered.files, hl]
        rfl
      cases hadm : b.admits r.stem with
      | false => exact .gated entries r hr hadm
      | true =>
        have hc : (⟨e.from_, r.stem, files⟩ : Cluster) ∈
            admitted b (clusterBatch R entries budget) := by
          refine mem_map.mpr ⟨⟨(e.from_, r.stem), files⟩, mem_filter.mpr ⟨?_, hadm⟩, rfl⟩
          exact (b.shuffle.perm _).mem_iff.mpr (AList.mem_lookup_iff.mp hl)
        rcases stored_of_writeClusters hs h₁ hclear hc rfl (hfiles ▸ hin) with
          hst | ⟨x, hx, hxc, hout, hcap⟩
        · apply Settled.stored entries r hr
          rw [hdb]
          exact hst
        · apply Settled.capped entries r hr x hx _ _ hout hcap
          · rw [hxc]
          · rw [hxc]
            exact hfiles ▸ hin
  · exact .inl hd
  · exact .inr (.counted reason (hdropped ▸ hd))

theorem Settled.later {q : Ingested} (hk : Kept fromJson p.db q.db)
    (h : Settled R fromJson b ⟨p.db, p.routed, p.dropped, true⟩ e) :
    Settled R fromJson b ⟨q.db, p.routed ++ q.routed, p.dropped ++ q.dropped, q.ok⟩ e := by
  cases h with
  | stored entries r hr h => exact .stored entries r hr (h.mono hk)
  | counted reason h => exact .counted reason (mem_append_left _ h)
  | gated entries r hr h => exact .gated entries r hr h
  | capped entries r hr x hx hkey hin hout hcap =>
    exact .capped entries r hr x (mem_append_left _ hx) hkey hin hout hcap

theorem Settled.earlier {q : Ingested} (h : Settled R fromJson b q e) :
    Settled R fromJson b ⟨q.db, p.routed ++ q.routed, p.dropped ++ q.dropped, q.ok⟩ e := by
  cases h with
  | stored entries r hr h => exact .stored entries r hr h
  | counted reason h => exact .counted reason (mem_append_right _ h)
  | gated entries r hr h => exact .gated entries r hr h
  | capped entries r hr x hx hkey hin hout hcap =>
    exact .capped entries r hr x (mem_append_right _ hx) hkey hin hout hcap

theorem settled_ingestPasses (hs : db.Sound)
    (hclear : NoCollision R fromJson b.grp (ingestPasses R fromJson b budget db entries).routed)
    (hok : (ingestPasses R fromJson b budget db entries).ok = true) (he : e ∈ entries) :
    Settled R fromJson b (ingestPasses R fromJson b budget db entries) e := by
  revert hs hclear hok he
  refine ingestPasses_rule (P := fun _ db entries out => db.Sound →
    NoCollision R fromJson b.grp out.routed → out.ok = true → e ∈ entries → Settled R fromJson b out e)
    (fun _ _ _ _ _ hok => nomatch hok) ?_ ?_ budget db entries
  · intro budget db entries p hp hdone hs hclear _ he
    refine (settled_ingestPass hs hp hclear he).resolve_left fun hd => ?_
    rcases hdone with hnil | rfl
    · exact not_mem_nil (hnil ▸ hd)
    · obtain ⟨-, -, -, -, hdef⟩ := ingestPass_some hp
      rw [hdef, deferred_zero] at hd
      exact not_mem_nil hd
  · intro budget db entries p q hp hq ih hs hclear hok he
    have hclear₁ : NoCollision R fromJson b.grp p.routed := fun x hx => hclear x (mem_append_left _ hx)
    have hclear₂ : NoCollision R fromJson b.grp q.routed := fun x hx => hclear x (mem_append_right _ hx)
    have hs₁ := (sound_ingestPass hs hp hclear₁).1
    rcases settled_ingestPass hs hp hclear₁ he with hd | hset
    · exact (ih hs₁ hclear₂ hok hd).earlier
    · subst hq
      exact hset.later (sound_ingestPasses hs₁ hclear₂).2

/-! ## The drop counters -/

theorem drops_writeClusters {cs : List Cluster} {routed : List Routed} (hs : db.Sound)
    (h : writeClusters R fromJson b db cs = some (db', routed))
    (hclear : NoCollision R fromJson b.grp routed) : db'.drops = db.drops := by
  induction cs generalizing db routed with
  | nil =>
    cases h
    rfl
  | cons c cs ih =>
    obtain ⟨db₁, out, rest, h₁, h₂, rfl⟩ := writeClusters_cons h
    have hhead := hclear _ (.head _)
    have hdrops : db₁.drops = db.drops := by
      rcases writeCluster_some hs hhead h₁ with ⟨rfl, -⟩ | ⟨r, existing, agg, minted, hw, -⟩
      · rfl
      · exact hw.drops
    rw [ih (sound_writeCluster hs hhead h₁).1 h₂ fun x hx => hclear x (.tail _ hx),
      hdrops]

theorem recordDrops_append (drops : DropReason → Nat) (a b : List (DropReason × OverEntry)) :
    recordDrops (recordDrops drops a) b = recordDrops drops (a ++ b) := by
  funext r
  simp only [recordDrops, countP_append]
  omega

theorem drops_ingestPass (hs : db.Sound) (h : ingestPass R fromJson b budget db entries = some p)
    (hclear : NoCollision R fromJson b.grp p.routed) :
    p.db.drops = recordDrops db.drops p.dropped := by
  obtain ⟨db₁, h₁, hdb, hdropped, -⟩ := ingestPass_some h
  rw [hdb, hdropped]
  rw [drops_writeClusters hs h₁ hclear]

theorem drops_ingestPasses (hs : db.Sound)
    (hclear : NoCollision R fromJson b.grp (ingestPasses R fromJson b budget db entries).routed) :
    (ingestPasses R fromJson b budget db entries).db.drops =
      recordDrops db.drops (ingestPasses R fromJson b budget db entries).dropped := by
  revert hs hclear
  refine ingestPasses_rule (P := fun _ db _ out => db.Sound → NoCollision R fromJson b.grp out.routed →
    out.db.drops = recordDrops db.drops out.dropped) (fun _ _ _ _ _ => rfl)
    (fun hp _ hs hclear => drops_ingestPass hs hp hclear) ?_ budget db entries
  intro budget db entries p q hp _ ih hs hclear
  have hclear₁ : NoCollision R fromJson b.grp p.routed := fun x hx => hclear x (mem_append_left _ hx)
  rw [ih (sound_ingestPass hs hp hclear₁).1 fun x hx => hclear x (mem_append_right _ hx),
    drops_ingestPass hs hp hclear₁, recordDrops_append]

/-! ## Runs -/

variable (R fromJson)

def ingestAll (batches : List Batch) : IndexDb :=
  batches.foldl (fun db b => (ingest R fromJson db b).db) .fresh

def RunsClear (batches : List Batch) : Prop :=
  ∀ pre b post, batches = pre ++ b :: post →
    NoCollision R fromJson b.grp (ingest R fromJson (ingestAll R fromJson pre) b).routed

variable {R fromJson}

theorem ingestAll_concat (pre : List Batch) (b : Batch) :
    ingestAll R fromJson (pre ++ [b]) = (ingest R fromJson (ingestAll R fromJson pre) b).db := by
  rw [ingestAll, foldl_append]
  rfl

theorem RunsClear.left {pre post : List Batch} (h : RunsClear R fromJson (pre ++ post)) :
    RunsClear R fromJson pre := by
  rintro pre' b post' rfl
  exact h pre' b (post' ++ post) (by simp)

theorem sound_ingestAll {batches : List Batch} (h : RunsClear R fromJson batches) :
    (ingestAll R fromJson batches).Sound := by
  induction batches using reverseRecOn with
  | nil => exact .fresh
  | append_singleton pre b ih =>
    rw [ingestAll_concat]
    exact (sound_ingestPasses (ih h.left) (h pre b [] rfl)).1

theorem kept_ingestAll {pre post : List Batch} (h : RunsClear R fromJson (pre ++ post)) :
    Kept fromJson (ingestAll R fromJson pre) (ingestAll R fromJson (pre ++ post)) := by
  induction post using reverseRecOn with
  | nil =>
    rw [append_nil]
    exact .refl _
  | append_singleton post b ih =>
    rw [← append_assoc] at h ⊢
    rw [ingestAll_concat]
    exact (ih h.left).trans (sound_ingestPasses (sound_ingestAll h.left) (h _ b [] rfl)).2

/-- In a run that never collides, no ingest replaces the article a row stores for a part, drops
the part or changes the file's total; and a batch that reports success has stored every header in a
row of its stem and group, under its poster or a marked form of it, or counted it as dropped, or
refused it at the gate or at the cap. -/
theorem row_holds_one_posting (R : Readers) (fromJson : List UInt8 → Option (List Seg))
    (batches : List Batch) (hclear : RunsClear R fromJson batches) :
    (∀ pre post, batches = pre ++ post →
      Kept fromJson (ingestAll R fromJson pre) (ingestAll R fromJson batches)) ∧
    ∀ pre b post, batches = pre ++ b :: post →
      (ingest R fromJson (ingestAll R fromJson pre) b).ok = true →
        (∀ e ∈ b.entries,
          Settled R fromJson b (ingest R fromJson (ingestAll R fromJson pre) b) e) ∧
        (ingest R fromJson (ingestAll R fromJson pre) b).db.drops =
          recordDrops (ingestAll R fromJson pre).drops
            (ingest R fromJson (ingestAll R fromJson pre) b).dropped := by
  refine ⟨?_, ?_⟩
  · rintro pre post rfl
    exact kept_ingestAll hclear
  · rintro pre b post rfl hok
    have hs := sound_ingestAll hclear.left
    have hb := hclear pre b post rfl
    exact ⟨fun e he => settled_ingestPasses hs hb hok he, drops_ingestPasses hs hb⟩

/-! ## A collision -/

/-- A number for each text, and below a text for each list of texts. -/
def textCode : Text → Nat
  | [] => 0
  | c :: t => (c.toNat + 1) + 1114113 * textCode t

def textsKey (l : List Text) : Text := l.flatMap fun t => (t.flatMap fun c => ['0', c]) ++ ['1']

theorem char_toNat_lt (c : Char) : c.toNat < 1114112 := by
  have hvalid : c.toNat < 0xd800 ∨ (0xdfff < c.toNat ∧ c.toNat < 0x110000) := c.valid
  omega

theorem textCode_injective : Function.Injective textCode := by
  intro a
  induction a with
  | nil =>
    intro b h
    cases b with
    | nil => rfl
    | cons c t =>
      simp only [textCode] at h
      omega
  | cons c t ih =>
    intro b h
    cases b with
    | nil =>
      simp only [textCode] at h
      omega
    | cons d s =>
      simp only [textCode] at h
      have hc := char_toNat_lt c
      have hd := char_toNat_lt d
      have hcd : c = d := Char.toNat_inj.mp (by omega)
      rw [hcd, ih (show textCode t = textCode s by omega)]

theorem textsKey_cons_inj {s t : Text} {x y : Text}
    (h : (s.flatMap fun c => ['0', c]) ++ ['1'] ++ x = (t.flatMap fun c => ['0', c]) ++ ['1'] ++ y) :
    s = t ∧ x = y := by
  induction s generalizing t with
  | nil =>
    cases t with
    | nil => exact ⟨rfl, by simpa using h⟩
    | cons d t => simp at h
  | cons c s ih =>
    cases t with
    | nil => simp at h
    | cons d t =>
      simp only [flatMap_cons, cons_append, nil_append, cons.injEq, true_and] at h
      obtain ⟨hst, hxy⟩ := ih h.2
      exact ⟨by rw [h.1, hst], hxy⟩

theorem textsKey_injective : Function.Injective textsKey := by
  intro a
  induction a with
  | nil =>
    intro b h
    cases b with
    | nil => rfl
    | cons t l => simp [textsKey] at h
  | cons s a ih =>
    intro b h
    cases b with
    | nil => simp [textsKey] at h
    | cons t l =>
      obtain ⟨hst, hrest⟩ := textsKey_cons_inj h
      rw [hst, ih hrest]

/-- Readers that take the quoted name, the name up to its first dot, and injective digests. -/
def sampleReaders : Readers where
  quotedName t := some (String.ofList (((t.dropWhile (· ≠ '"')).drop 1).takeWhile (· ≠ '"')))
  releaseStem s := String.ofList (s.toList.takeWhile (· ≠ '.'))
  setKey l := String.ofList (textsKey l)
  hash t := textCode t

def sampleBatch (entries : List OverEntry) : Batch :=
  ⟨"alt.binaries.test", entries, none, fun _ => none, ⟨fun l => l, fun l => .refl l⟩, fun _ => true⟩

/-- A posting, a repost of it, and one header of the repost again with a garbled total. -/
def samplePosting : Batch := sampleBatch [⟨"\"x.rar\" yEnc (1/2)".toList, "p@x", "<a@n>", 700⟩]
def sampleRepost : Batch :=
  sampleBatch [⟨"\"x.rar\" yEnc (1/2)".toList, "p@x", "<b@n>", 700⟩,
    ⟨"\"x.rar\" yEnc (2/2)".toList, "p@x", "<c@n>", 700⟩]
def sampleGarbled : Batch := sampleBatch [⟨"\"x.rar\" yEnc (1/3)".toList, "p@x", "<b@n>", 700⟩]

/-- Without a row under its key a cluster does not collide. -/
theorem not_collides_of_no_key {stem poster : String} {files : ClusterFiles}
    (h : ∀ r ∈ db.releases.rows, r.key ≠ (stem, markedPoster R poster files, grp)) :
    ¬ Collides R fromJson db stem poster grp files := by
  rintro ⟨-, -, -, r, hr, hkey⟩
  exact h r hr hkey

/-- The garbled header is minted under the repost's key: the repost loses its second part. -/
theorem repost_overwritten :
    Function.Injective sampleReaders.setKey ∧ Function.Injective sampleReaders.hash ∧
    ¬ Kept (fun _ => none) (ingestAll sampleReaders (fun _ => none) [samplePosting, sampleRepost])
      (ingestAll sampleReaders (fun _ => none) [samplePosting, sampleRepost, sampleGarbled]) := by
  refine ⟨fun a b h => ?_, fun a b h => ?_, fun hk => ?_⟩
  · exact textsKey_injective (String.ofList_injective h)
  · exact textCode_injective (Int.ofNat_inj.mp h)
  · have hbefore : ((ingestAll sampleReaders (fun _ => none) [samplePosting, sampleRepost]).files.lookup
        (2, "x.rar")).map FileRow.totalParts = some 2 := by decide +kernel
    have hafter : ((ingestAll sampleReaders (fun _ => none)
        [samplePosting, sampleRepost, sampleGarbled]).files.lookup
        (2, "x.rar")).map FileRow.totalParts = some 3 := by decide +kernel
    obtain ⟨f, hf, htotal⟩ := Option.map_eq_some_iff.mp hbefore
    obtain ⟨f', hf', htotal', -⟩ := hk.file _ f hf
    rw [hf', Option.map_some, htotal', htotal] at hafter
    cases hafter

/-- A posting and its repost go to two rows. -/
theorem sample_runsClear :
    RunsClear sampleReaders (fun _ => none) [samplePosting, sampleRepost] := by
  intro pre b post h x hx
  apply not_collides_of_no_key
  have hposting : ∀ x ∈ (ingest sampleReaders (fun _ => none)
      (ingestAll sampleReaders (fun _ => none) []) samplePosting).routed,
      ∀ r ∈ x.before.releases.rows, r.key ≠ (x.cluster.stem,
        markedPoster sampleReaders x.cluster.poster x.cluster.files, samplePosting.grp) := by
    decide
  have hrepost : ∀ x ∈ (ingest sampleReaders (fun _ => none)
      (ingestAll sampleReaders (fun _ => none) [samplePosting]) sampleRepost).routed,
      ∀ r ∈ x.before.releases.rows, r.key ≠ (x.cluster.stem,
        markedPoster sampleReaders x.cluster.poster x.cluster.files, sampleRepost.grp) := by
    decide +kernel
  match pre, h with
  | [], h =>
    cases h
    exact hposting x hx
  | [_], h =>
    cases h
    exact hrepost x hx
  | _ :: _ :: pre, h => simp at h

theorem row_holds_one_posting_repost :
    Kept (fun _ => none) (ingestAll sampleReaders (fun _ => none) [samplePosting])
      (ingestAll sampleReaders (fun _ => none) [samplePosting, sampleRepost]) ∧
    Settled sampleReaders (fun _ => none) sampleRepost
      (ingest sampleReaders (fun _ => none)
        (ingestAll sampleReaders (fun _ => none) [samplePosting]) sampleRepost)
      ⟨"\"x.rar\" yEnc (2/2)".toList, "p@x", "<c@n>", 700⟩ := by
  obtain ⟨hkept, hsettled⟩ := row_holds_one_posting sampleReaders (fun _ => none) _ sample_runsClear
  refine ⟨hkept [samplePosting] [sampleRepost] rfl, ?_⟩
  apply (hsettled [samplePosting] sampleRepost [] rfl (by decide +kernel)).1
  exact .tail _ (mem_singleton_self _)

end NzbFast.Index
