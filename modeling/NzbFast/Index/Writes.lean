import NzbFast.Index.Candidates
import NzbFast.Index.Stored

/-!
# What a cluster's write does

A cluster that its row does not contradict is written into one row: the files of the
cluster are merged into the files of that row, every other files row stays, and the row's
aggregates are replaced. `Write` says so once; invariants are derived from it.
-/

namespace NzbFast.Index

open NzbFast.Rust NzbFast.Sql List

variable {R : Readers} {fromJson : List UInt8 → Option (List Seg)}

/-! ## The loop over files -/

def mergedOf (existing : ExistingFiles) (x : (_ : String) × ClusterFile) : Parts :=
  mergeParts (heldParts (existing x.1)) x.2.parts

def rowOf (existing : ExistingFiles) (x : (_ : String) × ClusterFile) : FileRow :=
  fileRow x.2.total (mergedOf existing x)

/-- The `files` table after the loop. -/
def mergeFiles (rid : Int) (existing : ExistingFiles) (files : AList fun _ : FileKey => FileRow)
    (l : List ((_ : String) × ClusterFile)) : AList fun _ : FileKey => FileRow :=
  l.foldl (fun m x => m.insert (rid, x.1) (rowOf existing x)) files

def applyRow (existing : ExistingFiles) (a : RelAgg) (x : (_ : String) × ClusterFile) : RelAgg :=
  a.applyFile x.1 ((existing x.1).map fun p => oldContrib p (heldParts (existing x.1)))
    (rowOf existing x).nsegs x.2.total (rowOf existing x).bytes

def Clear (existing : ExistingFiles) (l : List ((_ : String) × ClusterFile)) : Prop :=
  ∀ x ∈ l, ∀ prev, existing x.1 = some prev → prev.contradicts x.2 = false

theorem total_eq_of_clear {prev : ExistingFile} {f : ClusterFile} (h : prev.contradicts f = false) :
    prev.total = 0 ∨ f.total = 0 ∨ prev.total = f.total := by
  rw [ExistingFile.contradicts, Bool.or_eq_false_iff] at h
  have hne : ¬ prev.total = 0 → ¬ f.total = 0 → prev.total = f.total := by simpa using h.1
  tauto

variable {rid : Int} {l : List ((_ : String) × ClusterFile)} {existing : ExistingFiles}
  {db : IndexDb} {grp poster : String} {known : Option Int} {c : Cluster}

theorem writeFile_some {w w' : Writing} {x : (_ : String) × ClusterFile}
    (hclear : Clear w.existing [x]) (h : writeFile R rid w x.1 x.2 = some w') :
    textLen (segsOfParts (mergedOf w.existing x)) ≤ usizeMax ∧
    w'.db.releases = w.db.releases ∧ w'.db.drops = w.db.drops ∧
    w'.db.files = w.db.files.insert (rid, x.1) (rowOf w.existing x) ∧
    w'.agg = w.agg.map (applyRow w.existing · x) ∧
    w'.existing = Function.update w.existing x.1 none := by
  unfold writeFile at h
  dsimp only at h
  split at h
  · -- The trip-wire fires on nothing that the pick let through.
    rename_i htrip
    obtain ⟨prev, hprev, hbad⟩ := (Option.any_eq_true _ _).mp htrip
    have hc := total_eq_of_clear (hclear x (mem_singleton_self x) prev hprev)
    simp only [Bool.and_eq_true, decide_eq_true_eq] at hbad
    tauto
  · split at h
    · rename_i htext
      cases h
      exact ⟨htext, rfl, rfl, rfl, rfl, rfl⟩
    · cases h

theorem foldlM_writeFile_some (hnodup : l.NodupKeys) {w w' : Writing} (hclear : Clear w.existing l)
    (h : l.foldlM (fun w f => writeFile R rid w f.1 f.2) w = some w') :
    (∀ x ∈ l, textLen (segsOfParts (mergedOf w.existing x)) ≤ usizeMax) ∧
    w'.db.releases = w.db.releases ∧ w'.db.drops = w.db.drops ∧
    w'.db.files = mergeFiles rid w.existing w.db.files l ∧
    w'.agg = w.agg.map fun a => l.foldl (applyRow w.existing) a := by
  induction l generalizing w with
  | nil =>
    cases h
    exact ⟨fun x hx => absurd hx not_mem_nil, rfl, rfl, rfl, by simp⟩
  | cons x l ih =>
    obtain ⟨w₁, h₁, h₂⟩ := Option.bind_eq_some_iff.mp h
    obtain ⟨hx, hl⟩ := nodupKeys_cons.mp hnodup
    obtain ⟨ht₁, hr₁, hd₁, hf₁, ha₁, he₁⟩ := writeFile_some
      (fun y hy => hclear y (mem_singleton.mp hy ▸ mem_cons_self)) h₁
    -- The other files have other names, so what they find is still there.
    have hsame : ∀ y ∈ l, w₁.existing y.1 = w.existing y.1 := by
      intro y hy
      have hne : y.1 ≠ x.1 := fun e => hx (mem_keys.mpr ⟨y.2, e ▸ hy⟩)
      rw [he₁, Function.update_of_ne hne]
    obtain ⟨ht₂, hr₂, hd₂, hf₂, ha₂⟩ := ih hl
      (fun y hy prev hp => hclear y (mem_cons_of_mem _ hy) prev (hsame y hy ▸ hp)) h₂
    have hmerged : ∀ y ∈ l, mergedOf w₁.existing y = mergedOf w.existing y := fun y hy => by
      rw [mergedOf, hsame y hy, mergedOf]
    have hrow : ∀ y ∈ l, rowOf w₁.existing y = rowOf w.existing y := fun y hy => by
      rw [rowOf, hmerged y hy, rowOf]
    refine ⟨?_, hr₂.trans hr₁, hd₂.trans hd₁, ?_, ?_⟩
    · intro y hy
      rcases mem_cons.mp hy with rfl | hy
      · exact ht₁
      · rw [← hmerged y hy]
        exact ht₂ y hy
    · rw [hf₂, hf₁, mergeFiles, mergeFiles, foldl_cons]
      refine foldl_ext _ _ _ fun m y hy => ?_
      rw [hrow y hy]
    · rw [ha₂, ha₁, Option.map_map]
      congr 1
      funext a
      refine foldl_ext _ _ _ fun a y hy => ?_
      rw [applyRow, hrow y hy, hsame y hy, applyRow]

theorem lookup_mergeFiles_of_not_mem {k : FileKey} (h : ∀ x ∈ l, k ≠ (rid, x.1))
    (files : AList fun _ : FileKey => FileRow) :
    (mergeFiles rid existing files l).lookup k = files.lookup k := by
  induction l generalizing files with
  | nil => rfl
  | cons x l ih =>
    refine (ih (fun y hy => h y (mem_cons_of_mem _ hy)) _).trans ?_
    exact AList.lookup_insert_ne (h x mem_cons_self)

theorem lookup_mergeFiles_of_mem (hnodup : l.NodupKeys) {x : (_ : String) × ClusterFile}
    (hx : x ∈ l) (files : AList fun _ : FileKey => FileRow) :
    (mergeFiles rid existing files l).lookup (rid, x.1) = some (rowOf existing x) := by
  induction l generalizing files with
  | nil => cases hx
  | cons y l ih =>
    obtain ⟨hy, hl⟩ := nodupKeys_cons.mp hnodup
    rw [mergeFiles, foldl_cons]
    rcases mem_cons.mp hx with rfl | hx
    · refine (lookup_mergeFiles_of_not_mem ?_ _).trans (AList.lookup_insert _)
      intro z hz e
      have hname : x.1 = z.1 := congrArg Prod.snd e
      exact hy (mem_keys.mpr ⟨z.2, hname ▸ hz⟩)
    · exact ih hl hx _

/-! ## One cluster -/

/-- Every files row is a file of a release, spelled as ingest spells it. -/
structure IndexDb.Sound (db : IndexDb) : Prop where
  stored : ∀ k f, db.files.lookup k = some f → ∃ parts, f.Stores parts
  owned : ∀ k f, db.files.lookup k = some f → ∃ r ∈ db.releases, r.id = k.1

/-- The row an insert makes before its aggregates are written. -/
def blankRelease (db : IndexDb) (stem poster grp : String) : Release :=
  ⟨db.releases.nextId, stem, poster, grp, ⟨0, 0, -1, false, 0, 0, -1⟩, false⟩

variable (fromJson) in
/-- A cluster written into the row `r`. -/
structure Write (grp : String) (db db' : IndexDb) (c : Cluster) (r : Release)
    (l : List ((_ : String) × ClusterFile)) (existing : ExistingFiles) (agg : RelAgg) : Prop where
  /-- The row was there, or is made. -/
  target : r ∈ db.releases ∨
    r = blankRelease db c.stem r.poster grp ∧ ∀ x ∈ db.releases, x.key ≠ r.key
  of : r.Of c.stem c.poster grp
  perm : l.Perm c.files.entries
  /-- What the merge reads is what the row holds. -/
  read : ∀ x ∈ l, existing x.1 = (db.files.lookup (r.id, x.1)).map (FileRow.read fromJson)
  clear : Clear existing l
  text : ∀ x ∈ l, textLen (segsOfParts (mergedOf existing x)) ≤ usizeMax
  files : db'.files = mergeFiles r.id existing db.files l
  aggregates : some agg = (r.baseline.map fun a => l.foldl (applyRow existing) a).or
    (RelAgg.recompute db'.files r.id)
  releases : ∀ x, x ∈ db'.releases ↔ x = { r with agg, complete := agg.complete } ∨
    (x ∈ db.releases ∧ x.id ≠ r.id)
  drops : db'.drops = db.drops

namespace Write

variable {grp : String} {db db' : IndexDb} {c : Cluster} {r : Release}
  {l : List ((_ : String) × ClusterFile)} {existing : ExistingFiles} {agg : RelAgg}

theorem nodupKeys (h : Write fromJson grp db db' c r l existing agg) : l.NodupKeys :=
  (perm_nodupKeys h.perm).mpr c.files.nodupKeys

end Write

theorem openRow_some {stem : String} {db₁ : IndexDb} {r : Release}
    (h : openRow db grp stem known poster = some (db₁, r)) :
    db₁.files = db.files ∧ db₁.drops = db.drops ∧
    (match known with
      | some rid => r.id = rid ∧ db₁ = db ∧ r ∈ db.releases
      | none => (db₁ = db ∧ r ∈ db.releases ∧ r.key = (stem, poster, grp)) ∨
        (db₁.releases = db.releases.place r ∧ r = blankRelease db stem poster grp)) := by
  cases known with
  | some rid =>
    obtain ⟨x, hx, he⟩ := Option.map_eq_some_iff.mp h
    cases he
    obtain ⟨hmem, hid⟩ := Table.find_some hx
    exact ⟨rfl, rfl, hid, rfl, hmem⟩
  | none =>
    dsimp only [openRow] at h
    cases hl : db.releases.lookup (stem, poster, grp) with
    | some x =>
      rw [hl] at h
      cases h
      exact ⟨rfl, rfl, .inl ⟨rfl, Table.lookup_eq_some.mp hl⟩⟩
    | none =>
      rw [hl] at h
      cases h
      exact ⟨rfl, rfl, .inr ⟨rfl, rfl⟩⟩

/-- What the row is opened from, and with what the merge then starts. -/
structure Opens (fromJson : List UInt8 → Option (List Seg)) (grp : String) (db : IndexDb)
    (c : Cluster) (known : Option Int) (poster : String) (existing : ExistingFiles) : Prop where
  of : OfPoster c.poster poster
  adopts : ∀ rid, known = some rid → (∃ r ∈ db.releases, r.id = rid ∧ r.poster = poster ∧
    r.Of c.stem c.poster grp) ∧ existing = fetchExisting fromJson db rid c.files ∧
    Compatible fromJson db rid c.files
  free : known = none → (existing = fun _ => none) ∧
    ∀ r ∈ db.releases, r.key ≠ (c.stem, poster, grp)

theorem clear_of_compatible {files : ClusterFiles} (h : Compatible fromJson db rid files) :
    Clear (fetchExisting fromJson db rid files) files.entries := by
  intro x hx prev hprev
  rw [Compatible, contradicts, any_eq_false] at h
  have hx' := h x hx
  rw [hprev] at hx'
  simpa using hx'

theorem openRow_opens {db₁ : IndexDb} {r : Release} (hs : db.Sound)
    (ho : Opens fromJson grp db c known poster existing)
    (h : openRow db grp c.stem known poster = some (db₁, r)) :
    (r ∈ db.releases ∨ r = blankRelease db c.stem r.poster grp ∧ ∀ x ∈ db.releases, x.key ≠ r.key) ∧
    r.Of c.stem c.poster grp ∧
    (∀ x ∈ c.files.entries,
      existing x.1 = (db.files.lookup (r.id, x.1)).map (FileRow.read fromJson)) ∧
    Clear existing c.files.entries ∧
    (∀ x, x ∈ db₁.releases ↔ x = r ∨ x ∈ db.releases) := by
  obtain ⟨-, -, hcase⟩ := openRow_some h
  cases known with
  | some rid =>
    obtain ⟨hid, rfl, hmem⟩ := hcase
    obtain ⟨⟨r', hr', hid', hp, hof⟩, rfl, hcomp⟩ := ho.adopts rid rfl
    have heq : r = r' := Table.eq_of_rowid hmem hr' (hid.trans hid'.symm)
    refine ⟨.inl hmem, heq ▸ hof, fun x hx => ?_, clear_of_compatible hcomp, fun x => ?_⟩
    · have hname : x.1 ∈ c.files := AList.mem_keys.mp (mem_keys.mpr ⟨x.2, hx⟩)
      rw [fetchExisting, if_pos hname, hid]
    · exact ⟨.inr, fun hx => hx.elim (fun e => e ▸ hmem) id⟩
  | none =>
    obtain ⟨rfl, hfree⟩ := ho.free rfl
    rcases hcase with ⟨-, hmem, hkey⟩ | ⟨hplace, hblank⟩
    · exact absurd hkey (hfree r hmem)
    have hkeys : ∀ x ∈ db.releases, x.key ≠ r.key := fun x hx => by
      rw [hblank]
      exact hfree x hx
    have hids : ∀ x ∈ db.releases, x.id ≠ r.id := fun x hx => by
      rw [hblank]
      exact Int.ne_of_lt (Table.lt_nextId hx)
    refine ⟨.inr ⟨by rw [hblank]; rfl, hkeys⟩, ?_, fun x hx => ?_, fun x _ prev hp => (by cases hp),
      fun x => ?_⟩
    · rw [hblank]
      exact ⟨rfl, rfl, ho.of⟩
    · cases hl : db.files.lookup (r.id, x.1) with
      | none => rfl
      | some f =>
        obtain ⟨y, hy, hid⟩ := hs.owned _ f hl
        exact absurd hid (hids y hy)
    · rw [hplace]
      exact Table.mem_place_fresh hids hkeys

theorem writeInto_some {s : Shuffle} {db' : IndexDb} {minted : Bool} {out : Outcome} (hs : db.Sound)
    (ho : Opens fromJson grp db c known poster existing)
    (h : writeInto R grp s.order db c known poster existing minted = some (db', out)) :
    ∃ r agg, Write fromJson grp db db' c r (s.order c.files.entries) existing agg ∧
      out = .written r.id minted (agg.complete && !r.complete) := by
  obtain ⟨⟨db₁, r⟩, hopen, h⟩ := Option.bind_eq_some_iff.mp h
  obtain ⟨w, hfold, h⟩ := Option.bind_eq_some_iff.mp h
  obtain ⟨agg, hagg, h⟩ := Option.bind_eq_some_iff.mp h
  cases h
  obtain ⟨hfiles, hdrops, -⟩ := openRow_some hopen
  obtain ⟨htarget, hof, hread, hclear, hrel⟩ := openRow_opens hs ho hopen
  have hperm := s.perm c.files.entries
  have hnodup : (s.order c.files.entries).NodupKeys :=
    (perm_nodupKeys hperm).mpr c.files.nodupKeys
  have hclear' : Clear existing (s.order c.files.entries) := fun x hx => hclear x (hperm.mem_iff.mp hx)
  obtain ⟨ht, hr, hd, hf, ha⟩ := foldlM_writeFile_some hnodup hclear' hfold
  refine ⟨r, agg, ⟨htarget, hof, hperm, fun x hx => hread x (hperm.mem_iff.mp hx), hclear', ht, ?_,
    ?_, fun x => ?_, hd.trans hdrops⟩, rfl⟩
  · rw [hf, hfiles]
  · rw [← ha]
    exact hagg.symm
  · have hmem : r ∈ w.db.releases := by
      rw [hr]
      exact (hrel r).mpr (.inl rfl)
    have hover := @Table.mem_place_over _ _ _ _ _ w.db.releases r
      { r with agg, complete := agg.complete } x hmem rfl rfl
    rw [hover, hr, hrel]
    constructor
    · rintro (rfl | ⟨rfl | hx, hne⟩)
      · exact .inl rfl
      · exact absurd rfl hne
      · exact .inr ⟨hx, hne⟩
    · rintro (rfl | ⟨hx, hne⟩)
      · exact .inl rfl
      · exact .inr ⟨.inr hx, hne⟩

/-- A cluster that does not collide is refused at the cap or written. -/
theorem writeCluster_some {s : Shuffle} {db' : IndexDb} {out : Outcome} (hs : db.Sound)
    (hclear : ¬ Collides R fromJson db c.stem c.poster grp c.files)
    (h : writeCluster R fromJson grp s.order db c = some (db', out)) :
    (db' = db ∧ out = .saturated ∧
      pickReleaseRow R fromJson db c.stem c.poster grp c.files = .saturated) ∨
    ∃ r existing agg minted, Write fromJson grp db db' c r (s.order c.files.entries) existing agg ∧
      out = .written r.id minted (agg.complete && !r.complete) := by
  have hfits := pickReleaseRow_fits hclear
  unfold writeCluster at h
  split at h
  · rename_i hpick
    cases h
    exact .inl ⟨rfl, rfl, hpick⟩
  · rename_i known poster existing hpick
    rw [hpick] at hfits
    have ho : Opens fromJson grp db c known poster existing := by
      cases known with
      | some rid =>
        obtain ⟨⟨r, hr, hid, hp, hof⟩, hex, hcomp⟩ := hfits
        refine ⟨hp ▸ hof.poster, ?_, fun e => by cases e⟩
        rintro _ ⟨⟩
        exact ⟨⟨r, hr, hid, hp, hof⟩, hex, hcomp⟩
      | none =>
        obtain ⟨hp, hex, hfree⟩ := hfits
        exact ⟨.inl hp, (fun _ e => by cases e), fun _ => ⟨hex, hfree⟩⟩
    obtain ⟨r, agg, hw, hout⟩ := writeInto_some hs ho h
    exact .inr ⟨r, existing, agg, false, hw, hout⟩
  · rename_i poster hpick
    rw [hpick] at hfits
    obtain ⟨hmark, hfree⟩ := hfits
    have ho : Opens fromJson grp db c none poster (fun _ => none) :=
      ⟨.inr hmark, (fun _ e => by cases e), fun _ => ⟨rfl, hfree⟩⟩
    obtain ⟨r, agg, hw, hout⟩ := writeInto_some hs ho h
    exact .inr ⟨r, _, agg, true, hw, hout⟩

end NzbFast.Index
