import NzbFast.Index.Routing

/-!
# What the pick of a row promises

A cluster goes into a row of its stem and group, under its poster or a marked form of it,
and into an existing row only when it contradicts nothing the row holds. The exception is
a collision: every row of the triple contradicts the cluster, and one of them is stored
under the very key the cluster would be minted under.
-/

namespace NzbFast.Index

open NzbFast.Rust NzbFast.Sql
open List hiding not_lt

/-! ## Marked posters -/

def OfPoster (poster p : String) : Prop := p = poster ∨ ∃ k, p = genMark poster ++ k

theorem toList_append_prefix_iff (s p : String) : s.toList <+: p.toList ↔ ∃ k, p = s ++ k := by
  constructor
  · rintro ⟨t, ht⟩
    refine ⟨String.ofList t, String.toList_inj.mp ?_⟩
    rw [String.toList_append, String.toList_ofList, ht]
  · rintro ⟨k, rfl⟩
    rw [String.toList_append]
    exact prefix_append _ _

/-- The texts from `p ++ [c]` up to the next text of that length are those that start with it. -/
theorem range_iff_prefix {c d : Char} (hcd : ∀ e : Char, ¬ e < c ∧ e < d ↔ e = c) (p x : Text) :
    p ++ [c] ≤ x ∧ x < p ++ [d] ↔ (p ++ [c]) <+: x := by
  induction p generalizing x with
  | nil =>
    cases x with
    | nil => simp
    | cons e t =>
      have hcons : ([c] ≤ e :: t ∧ e :: t < [d]) ↔ ¬ e < c ∧ e < d := by
        rw [← not_lt, cons_lt_cons_iff, cons_lt_cons_iff]
        simp
      rw [nil_append, nil_append, hcons, hcd, cons_prefix_cons]
      exact ⟨fun h => ⟨h.symm, nil_prefix⟩, fun h => h.1.symm⟩
  | cons a p ih =>
    cases x with
    | nil => simp
    | cons e t =>
      rw [cons_append, cons_append, ← not_lt, cons_lt_cons_iff,
        cons_lt_cons_iff, cons_prefix_cons, ← ih t, ← not_lt]
      constructor
      · rintro ⟨hnot, hlt | ⟨rfl, hlt⟩⟩
        · exact absurd (.inl hlt) hnot
        · exact ⟨rfl, fun h => hnot (.inr ⟨rfl, h⟩), hlt⟩
      · rintro ⟨rfl, hnot, hlt⟩
        refine ⟨fun h => ?_, .inr ⟨rfl, hlt⟩⟩
        rcases h with h | ⟨-, h⟩
        · exact absurd h (Char.lt_irrefl a)
        · exact hnot h

theorem genMark_toList (poster : String) :
    (genMark poster).toList = (poster.toList ++ [' ', '#', 'g', 'e', 'n']) ++ [':'] := by
  rw [genMark, String.toList_append, append_assoc]
  rfl

theorem mem_genRange_iff (poster p : String) :
    ((genMark poster).toList ≤ p.toList ∧ p.toList < stepLast (genMark poster).toList) ↔
      ∃ k, p = genMark poster ++ k := by
  have hstep : stepLast (genMark poster).toList =
      (poster.toList ++ [' ', '#', 'g', 'e', 'n']) ++ [';'] := by
    rw [genMark_toList, stepLast, dropLast_concat, getLast?_concat]
    rfl
  rw [hstep, genMark_toList, range_iff_prefix, ← genMark_toList, toList_append_prefix_iff]
  intro e
  constructor
  · rintro ⟨h1, h2⟩
    rw [Char.lt_def] at h1 h2
    apply Char.ext
    apply UInt32.toNat_inj.mp
    rw [UInt32.lt_iff_toNat_lt] at h1 h2
    have hc : (':' : Char).val.toNat = 58 := rfl
    have hd : (';' : Char).val.toNat = 59 := rfl
    omega
  · rintro rfl
    decide

theorem ne_of_marked {poster p k : String} (h : p = genMark poster ++ k) : p ≠ poster := by
  rintro rfl
  have hlen := congrArg (fun s : String => s.toList.length) h
  simp only [String.toList_append, genMark_toList, length_append] at hlen
  simp only [length_cons, length_nil] at hlen
  omega

/-! ## Candidates -/

variable {db : IndexDb} {stem poster grp : String}

/-- A row a cluster of this triple could mean. -/
structure Release.Of (r : Release) (stem poster grp : String) : Prop where
  stem : r.stem = stem
  grp : r.grp = grp
  poster : OfPoster poster r.poster

def markedRows (db : IndexDb) (stem poster grp : String) : List Release :=
  db.releases.rows.filter fun r => decide (r.stem = stem) &&
    decide ((genMark poster).toList <+: r.poster.toList) && decide (r.grp = grp)

variable {r : Release} {c : Int × String} {existing : ExistingFiles} {key : String} {rid : Int}

theorem mem_markedRows : r ∈ markedRows db stem poster grp ↔
    r ∈ db.releases ∧ r.stem = stem ∧ (∃ k, r.poster = genMark poster ++ k) ∧ r.grp = grp := by
  rw [markedRows, mem_filter, ← toList_append_prefix_iff]
  simp only [Bool.and_eq_true, decide_eq_true_eq, and_assoc]
  rfl

/-- The window is the marked rows, cut at the cap. -/
theorem perm_genSiblings (db : IndexDb) (stem poster grp : String) :
    ∃ l : List Release, l.Perm (markedRows db stem poster grp) ∧
      genSiblings db stem poster grp = l.take MAX_GEN_SIBLINGS := by
  refine ⟨_, perm_insertionSort (fun a b : Release => a.poster.toList ≤ b.poster.toList) _, ?_⟩
  rw [genSiblings, markedRows]
  simp only [toList_append_prefix_iff, ← mem_genRange_iff, Bool.decide_and, Bool.and_assoc]

theorem mem_genSiblings (h : r ∈ genSiblings db stem poster grp) :
    r ∈ db.releases ∧ r.stem = stem ∧ (∃ k, r.poster = genMark poster ++ k) ∧ r.grp = grp := by
  obtain ⟨l, hperm, hl⟩ := perm_genSiblings db stem poster grp
  rw [hl] at h
  exact mem_markedRows.mp (hperm.mem_iff.mp (mem_of_mem_take h))

theorem mem_genCandidates : c ∈ genCandidates db stem poster grp ↔
    ∃ r, (r ∈ db.releases ∧ r.key = (stem, poster, grp) ∨ r ∈ genSiblings db stem poster grp) ∧
      c = (r.id, r.poster) := by
  rw [genCandidates, mem_map]
  constructor
  · rintro ⟨r, hr, rfl⟩
    rcases mem_append.mp hr with hr | hr
    · exact ⟨r, .inl (Table.lookup_eq_some.mp (Option.mem_toList.mp hr)), rfl⟩
    · exact ⟨r, .inr ((mem_insertionSort _).mp hr), rfl⟩
  · rintro ⟨r, hr, rfl⟩
    refine ⟨r, mem_append.mpr ?_, rfl⟩
    rcases hr with hr | hr
    · exact .inl (Option.mem_toList.mpr (Table.lookup_eq_some.mpr hr))
    · exact .inr ((mem_insertionSort _).mpr hr)

theorem Release.Of.of_key (h : r.key = (stem, poster, grp)) : r.Of stem poster grp := by
  cases h
  exact ⟨rfl, rfl, .inl rfl⟩

theorem of_mem_genCandidates (h : c ∈ genCandidates db stem poster grp) :
    ∃ r ∈ db.releases, c = (r.id, r.poster) ∧ r.Of stem poster grp := by
  obtain ⟨r, hr | hr, rfl⟩ := mem_genCandidates.mp h
  · exact ⟨r, hr.1, rfl, .of_key hr.2⟩
  · obtain ⟨hmem, hstem, hmark, hgrp⟩ := mem_genSiblings hr
    exact ⟨r, hmem, rfl, hstem, hgrp, .inr hmark⟩

theorem mem_genCandidates_of_few
    (hfew : ((genCandidates db stem poster grp).filter (·.2 ≠ poster)).length < MAX_GEN_SIBLINGS) :
    (markedRows db stem poster grp).length < MAX_GEN_SIBLINGS ∧
    ∀ r ∈ db.releases, r.Of stem poster grp → (r.id, r.poster) ∈ genCandidates db stem poster grp := by
  obtain ⟨l, hperm, hl⟩ := perm_genSiblings db stem poster grp
  have hsib : (genSiblings db stem poster grp).length ≤
      ((genCandidates db stem poster grp).filter (·.2 ≠ poster)).length := by
    rw [genCandidates, map_append, filter_append, length_append]
    have hkeep : (((genSiblings db stem poster grp).insertionSort fun a b => a.id ≤ b.id).map
        fun r => (r.id, r.poster)).filter (fun c => decide (c.2 ≠ poster)) =
        ((genSiblings db stem poster grp).insertionSort fun a b => a.id ≤ b.id).map
          fun r => (r.id, r.poster) := by
      refine filter_eq_self.mpr fun c hc => ?_
      obtain ⟨r, hr, rfl⟩ := mem_map.mp hc
      obtain ⟨-, -, ⟨k, hk⟩, -⟩ := mem_genSiblings ((mem_insertionSort _).mp hr)
      exact decide_eq_true (ne_of_marked hk)
    rw [hkeep, length_map, length_insertionSort]
    omega
  rw [hl, length_take] at hsib
  have hlen : l.length < MAX_GEN_SIBLINGS := by omega
  refine ⟨hperm.length_eq ▸ hlen, fun r hr hof => ?_⟩
  rcases hof.poster with hp | hk
  · refine mem_genCandidates.mpr ⟨r, .inl ⟨hr, ?_⟩, rfl⟩
    rw [Release.key, hof.stem, hof.grp, hp]
  · refine mem_genCandidates.mpr ⟨r, .inr ?_, rfl⟩
    rw [hl, take_of_length_le (le_of_lt hlen), hperm.mem_iff]
    exact mem_markedRows.mpr ⟨hr, hof.stem, hk, hof.grp⟩

/-! ## The pick -/

variable (R : Readers) (fromJson : List UInt8 → Option (List Seg)) {files : ClusterFiles}

/-- The row `r` holds no different article for a part of these files. -/
def Compatible (db : IndexDb) (rid : Int) (files : ClusterFiles) : Prop :=
  contradicts (fetchExisting fromJson db rid files) files = false

/-- Every row of the triple contradicts the cluster, the cap is not reached, and one row is stored
under the key of the cluster's own lowest ids. -/
structure Collides (db : IndexDb) (stem poster grp : String) (files : ClusterFiles) : Prop where
  plain : ∃ r ∈ db.releases, r.key = (stem, poster, grp)
  contradicted : ∀ r ∈ db.releases, r.Of stem poster grp → ¬ Compatible fromJson db r.id files
  few : (markedRows db stem poster grp).length < MAX_GEN_SIBLINGS
  keyed : ∃ r ∈ db.releases, r.key = (stem, markedPoster R poster files, grp)

def RowPick.Fits (db : IndexDb) (stem poster grp : String) (files : ClusterFiles) : RowPick → Prop
  | .adopt (some rid) key existing => (∃ r ∈ db.releases, r.id = rid ∧ r.poster = key ∧
      r.Of stem poster grp) ∧ existing = fetchExisting fromJson db rid files ∧
      Compatible fromJson db rid files
  | .adopt none key existing => key = poster ∧ (existing = fun _ => none) ∧
      ∀ r ∈ db.releases, r.key ≠ (stem, key, grp)
  | .mint key => (∃ k, key = genMark poster ++ k) ∧ ∀ r ∈ db.releases, r.key ≠ (stem, key, grp)
  | .saturated => True

variable {R fromJson}

theorem adoptable_some {candidates : List (Int × String)}
    (h : adoptable fromJson db candidates files = some (rid, key, existing)) :
    (rid, key) ∈ candidates ∧ existing = fetchExisting fromJson db rid files ∧
      Compatible fromJson db rid files := by
  obtain ⟨c, hc, hsome⟩ := exists_of_findSome?_eq_some h
  dsimp only at hsome
  split at hsome
  · cases hsome
  · rename_i hno
    cases hsome
    exact ⟨hc, rfl, by simpa [Compatible] using hno⟩

theorem adoptable_none {candidates : List (Int × String)}
    (h : adoptable fromJson db candidates files = none) (hc : c ∈ candidates) :
    ¬ Compatible fromJson db c.1 files := by
  have hnone := findSome?_eq_none_iff.mp h c hc
  intro hcomp
  rw [Compatible] at hcomp
  simp [hcomp] at hnone

theorem exactHome_some {key' : String}
    (h : exactHome fromJson db stem key grp files = some (rid, key', existing)) :
    (∃ r ∈ db.releases, r.id = rid ∧ r.key = (stem, key, grp)) ∧ key' = key ∧
      existing = fetchExisting fromJson db rid files ∧ Compatible fromJson db rid files := by
  obtain ⟨r, hr, hsome⟩ := Option.bind_eq_some_iff.mp h
  obtain ⟨hmem, hkey⟩ := Table.lookup_eq_some.mp hr
  dsimp only at hsome
  split at hsome
  · cases hsome
  · rename_i hno
    cases hsome
    exact ⟨⟨r, hmem, rfl, hkey⟩, rfl, rfl, by simpa [Compatible] using hno⟩

theorem hiddenHome_some {seen : List (Int × String)}
    (h : hiddenHome R fromJson db stem poster grp files seen = some (rid, key, existing)) :
    (∃ r ∈ db.releases, r.id = rid ∧ r.poster = key ∧ r.Of stem poster grp) ∧
      existing = fetchExisting fromJson db rid files ∧ Compatible fromJson db rid files := by
  obtain ⟨i, -, hat⟩ := exists_of_findSome?_eq_some h
  obtain ⟨r, hr, hsome⟩ := Option.bind_eq_some_iff.mp hat
  obtain ⟨hmem, hid⟩ := Table.find_some hr
  dsimp only at hsome
  split at hsome
  · rename_i hcond
    cases hsome
    obtain ⟨hstem, hgrp, hposter, hcomp⟩ := hcond
    refine ⟨⟨r, hmem, hid, rfl, hstem, hgrp, ?_⟩, rfl, hcomp⟩
    exact hposter.imp_right fun hpre => (toList_append_prefix_iff _ _).mp hpre
  · cases hsome

/-- A cluster that every candidate contradicts goes to a free row unless it collides. -/
theorem pickElsewhere_fits (hclear : ¬ Collides R fromJson db stem poster grp files)
    (hnone : adoptable fromJson db (genCandidates db stem poster grp) files = none) :
    (pickElsewhere R fromJson db stem poster grp files (genCandidates db stem poster grp)).Fits
      fromJson db stem poster grp files := by
  unfold pickElsewhere
  dsimp only
  split
  · rename_i hplain
    refine ⟨rfl, rfl, fun r hr hkey => ?_⟩
    have hmem := mem_genCandidates.mpr ⟨r, .inl ⟨hr, hkey⟩, rfl⟩
    have hp : r.poster = poster := congrArg (fun k => k.2.1) hkey
    simp only [Bool.not_eq_true', any_eq_false, decide_eq_true_eq] at hplain
    exact hplain _ hmem hp
  rename_i hplain
  split
  · -- At the cap: the row of the exact key, or a row that holds one of the articles.
    split
    · rename_i rid key existing hhome
      split at hhome
      · cases hhome
      · obtain ⟨⟨r, hr, hid, hkey⟩, rfl, hex, hcomp⟩ := exactHome_some hhome
        refine ⟨⟨r, hr, hid, congrArg (fun k => k.2.1) hkey, congrArg (fun k => k.1) hkey,
          congrArg (fun k => k.2.2) hkey, .inr ⟨_, congrArg (fun k => k.2.1) hkey⟩⟩, hex, hcomp⟩
    · split
      · rename_i rid key existing hhome
        exact hiddenHome_some hhome
      · trivial
  · rename_i hfew
    refine ⟨⟨_, rfl⟩, fun r hr hkey => hclear ?_⟩
    obtain ⟨hrows, hall⟩ := mem_genCandidates_of_few (not_le.mp hfew)
    refine ⟨?_, fun x hx hof => adoptable_none hnone (hall x hx hof), hrows, r, hr, hkey⟩
    simp only [Bool.not_eq_true', any_eq_false, decide_eq_true_eq, not_forall, not_not] at hplain
    obtain ⟨c, hc, hp⟩ := hplain
    obtain ⟨x, hx, rfl, hof⟩ := of_mem_genCandidates hc
    refine ⟨x, hx, ?_⟩
    rw [Release.key, hof.stem, hof.grp]
    exact congrArg (fun p => (stem, p, grp)) hp

theorem pickReleaseRow_fits (hclear : ¬ Collides R fromJson db stem poster grp files) :
    (pickReleaseRow R fromJson db stem poster grp files).Fits fromJson db stem poster grp files := by
  unfold pickReleaseRow
  dsimp only
  split
  · rename_i hempty
    refine ⟨rfl, rfl, fun r hr hkey => ?_⟩
    have hmem := mem_genCandidates.mpr ⟨r, .inl ⟨hr, hkey⟩, rfl⟩
    rw [hempty] at hmem
    exact not_mem_nil hmem
  · split
    · rename_i rid key existing hadopt
      obtain ⟨hmem, hex, hcomp⟩ := adoptable_some hadopt
      obtain ⟨r, hr, he, hof⟩ := of_mem_genCandidates hmem
      cases he
      exact ⟨⟨r, hr, rfl, rfl, hof⟩, hex, hcomp⟩
    · rename_i hnone
      exact pickElsewhere_fits hclear hnone

end NzbFast.Index
