import NzbFast.Index.Posting

/-!
# Incremental aggregates are a recount

`Counted` says that the aggregates of a row are those of a full scan of its files, the
byte sum up to the wrap of `i64`. Writing one file moves both alike, provided that the
previous contribution subtracted is the one stored; so does a cluster, which is where a
collision breaks it: it subtracts nothing for rows that it overwrites. A row whose
counters were reset is rescanned by the next write.

The names of a release's files are read twice, by Rust suffix tests and by SQL patterns.
The two differ on a name that ends in an extension before a NUL.
-/

namespace NzbFast.Index

open NzbFast.Rust NzbFast.Sql BTreeMap List

variable {R : Readers} {fromJson : List UInt8 → Option (List Seg)}

/-! ## Names -/

/-- Rust and SQL read the extension of this name alike. -/
def NameAgrees (name : String) : Prop :=
  isPar2File name = par2Sql name ∧ isExeFile name = exeFileSql name

theorem hasSuffix_eq_lowerLike {name : String} (h : '\x00' ∉ name.toList) {ext : Text}
    (hext : ext.map Char.toLower = ext) : hasSuffix name ext = lowerLike name ext := by
  rw [hasSuffix, lowerLike, hext, takeWhile_eq_self_iff.mpr]
  intro c hc
  obtain ⟨d, hd, rfl⟩ := mem_map.mp hc
  have hne : d ≠ '\x00' := fun e => h (e ▸ hd)
  refine decide_eq_true fun he => hne ?_
  unfold Char.toLower at he
  split at he
  · rename_i hup
    have hval := congrArg Char.val he
    have hnat := congrArg UInt32.toNat hval
    simp only [UInt32.le_iff_toNat_le] at hup
    have hZ : (('Z' : Char).val).toNat = 90 := rfl
    simp only [UInt32.toNat_add] at hnat
    have h32 : (('a' : Char).val - ('A' : Char).val).toNat = 32 := rfl
    have h0 : (('\x00' : Char).val).toNat = 0 := rfl
    omega
  · exact he

theorem nameAgrees_of_no_nul {name : String} (h : '\x00' ∉ name.toList) : NameAgrees name := by
  refine ⟨hasSuffix_eq_lowerLike h (by decide), ?_⟩
  rw [isExeFile, exeFileSql]
  have hlower : ∀ ext ∈ EXE_EXTS, ext.map Char.toLower = ext := by decide
  have hsame : ∀ ext ∈ EXE_EXTS, hasSuffix name ext = lowerLike name ext := fun ext hext =>
    hasSuffix_eq_lowerLike h (hlower ext hext)
  rw [Bool.eq_iff_iff, any_eq_true, any_eq_true]
  constructor
  · rintro ⟨ext, hext, hs⟩
    exact ⟨ext, hext, hsame ext hext ▸ hs⟩
  · rintro ⟨ext, hext, hs⟩
    exact ⟨ext, hext, (hsame ext hext).symm ▸ hs⟩

/-! ## Sums over the files of a release -/

namespace RelAgg

variable {files : AList fun _ : FileKey => FileRow} {rid : Int}

theorem rowsOf_insert_other {rid' : Int} (h : rid' ≠ rid) (fname : String) (row : FileRow) :
    rowsOf (files.insert (rid, fname) row) rid' = rowsOf files rid' := by
  rw [rowsOf, rowsOf, AList.entries_insert, filter_cons_of_neg (by simpa using Ne.symm h)]
  by_cases hk : (rid, fname) ∈ files.entries.keys
  · obtain ⟨old, l₁, l₂, -, hl, hker⟩ := exists_of_kerase hk
    rw [hker, hl, filter_append, filter_append,
      filter_cons_of_neg (by simpa using Ne.symm h)]
  · rw [kerase_of_notMem_keys hk]

theorem rowsOf_insert_self (fname : String) (row : FileRow) :
    rowsOf (files.insert (rid, fname) row) rid = (fname, row) :: rowsOf (files.erase (rid, fname)) rid := by
  rw [rowsOf, AList.entries_insert, filter_cons_of_pos (by simp)]
  rfl

theorem rowsOf_perm_of_lookup {fname : String} {old : FileRow}
    (h : files.lookup (rid, fname) = some old) :
    (rowsOf files rid).Perm ((fname, old) :: rowsOf (files.erase (rid, fname)) rid) := by
  have hmem := AList.mem_lookup_iff.mp h
  obtain ⟨b, l₁, l₂, hno, hl, hker⟩ := exists_of_kerase (mem_keys_of_mem hmem)
  have hb : b = old := by
    have hlook := AList.mem_lookup_iff.mpr (hl ▸ mem_append_right _ mem_cons_self)
    exact Option.some.inj (hlook.symm.trans h)
  subst hb
  have hperm : files.entries.Perm (⟨(rid, fname), b⟩ :: (files.erase (rid, fname)).entries) := by
    rw [show (files.erase (rid, fname)).entries = l₁ ++ l₂ from hker, hl]
    exact perm_middle
  have hfilter := (hperm.filter fun f => decide (f.1.1 = rid)).map fun f => (f.1.2, f.2)
  rw [filter_cons_of_pos (by simp)] at hfilter
  exact hfilter

theorem rowsOf_of_lookup_none {fname : String} (h : files.lookup (rid, fname) = none) :
    rowsOf (files.erase (rid, fname)) rid = rowsOf files rid := by
  have hno := AList.lookup_eq_none.mp h
  rw [rowsOf, rowsOf, show (files.erase (rid, fname)).entries = files.entries from
    kerase_of_notMem_keys hno]

/-- A sum after an upsert: what the key contributed goes, what is stored comes. -/
theorem sumOf_insert (fname : String) (row : FileRow) (g : String → FileRow → Int) :
    sumOf (rowsOf (files.insert (rid, fname) row) rid) g =
      sumOf (rowsOf files rid) g - ((files.lookup (rid, fname)).map (g fname)).getD 0 + g fname row := by
  rw [rowsOf_insert_self]
  cases h : files.lookup (rid, fname) with
  | none =>
    rw [rowsOf_of_lookup_none h]
    simp only [sumOf, map_cons, sum_cons, Option.map_none, Option.getD_none]
    omega
  | some old =>
    have hsum : sumOf (rowsOf files rid) g =
        g fname old + sumOf (rowsOf (files.erase (rid, fname)) rid) g := by
      rw [sumOf, ((rowsOf_perm_of_lookup h).map fun f => g f.1 f.2).sum_eq]
      rfl
    rw [hsum]
    simp only [sumOf, map_cons, sum_cons, Option.map_some, Option.getD_some]
    omega

theorem length_eq_sumOf (rows : List (String × FileRow)) :
    (rows.length : Int) = sumOf rows fun _ _ => 1 := by
  induction rows with
  | nil => rfl
  | cons f rows ih =>
    rw [length_cons, sumOf, map_cons, sum_cons]
    rw [sumOf] at ih
    omega

theorem sumOf_toInt_nonneg (rows : List (String × FileRow)) (p : String → FileRow → Bool) :
    0 ≤ sumOf rows fun name f => (p name f).toInt := by
  induction rows with
  | nil => exact Int.le_refl 0
  | cons f rows ih =>
    rw [sumOf, map_cons, sum_cons]
    rw [sumOf] at ih
    cases p f.1 f.2 <;> simp <;> omega

/-! ## One file -/

theorem wrapI64_add (a b : Int) : wrapI64 (wrapI64 a + b) = wrapI64 (a + b) := Int.bmod_add_bmod

theorem wrapI64_sub (a b : Int) : wrapI64 (wrapI64 a - b) = wrapI64 (a - b) := Int.bmod_sub_bmod

/-- The aggregates of a full scan, the byte sum wrapped. -/
def Counted (a : RelAgg) (rows : List (String × FileRow)) : Prop :=
  a = { scanned rows with tbytes := wrapI64 (scanned rows).tbytes }

def contribution (f : FileRow) : Int × UInt32 × Int := (f.effective, f.totalParts, f.bytes)

/-- The incremental update is the difference of two scans. -/
theorem Counted.applyFile {a : RelAgg} (h : Counted a (rowsOf files rid)) {fname : String}
    (hname : NameAgrees fname) {row : FileRow} (hrow : 0 < row.nsegs) :
    Counted (a.applyFile fname ((files.lookup (rid, fname)).map contribution) row.nsegs
      row.totalParts row.bytes) (rowsOf (files.insert (rid, fname) row) rid) := by
  have heff : row.effective = row.nsegs := if_pos hrow
  have hpos := sumOf_toInt_nonneg (rowsOf files rid) fun name _ => par2Sql name
  have hsum := fun g => @sumOf_insert files rid fname row g
  have hlen := length_eq_sumOf (rowsOf files rid)
  have hlen' := length_eq_sumOf (rowsOf (files.insert (rid, fname) row) rid)
  rw [hsum] at hlen'
  rw [Counted] at h ⊢
  subst h
  cases hl : files.lookup (rid, fname) with
  | none =>
    simp only [hl, Option.map_none, Option.getD_none, Int.sub_zero] at hsum hlen'
    simp only [RelAgg.applyFile, scanned, hsum, Option.map_none, FileRow.isComplete, heff, hname.1,
      hname.2, wrapI64_add, RelAgg.mk.injEq, true_and, and_true]
    cases par2Sql fname <;> simp <;> omega
  | some old =>
    simp only [hl, Option.map_some, Option.getD_some] at hsum hlen'
    simp only [RelAgg.applyFile, scanned, hsum, Option.map_some, contribution, FileRow.isComplete, heff,
      wrapI64_sub, wrapI64_add, RelAgg.mk.injEq, true_and, and_true]
    refine ⟨by omega, ?_, by omega⟩
    rw [Int.sub_add_cancel]

/-! ## A cluster -/

theorem oldContrib_read {f : FileRow} (h : 0 < f.nsegs) (held : Parts) :
    oldContrib (f.read fromJson) held = contribution f := by
  have hn : (f.read fromJson).nsegs = f.nsegs := rfl
  rw [oldContrib, contribution, FileRow.effective, hn, if_pos h, if_pos h]
  rfl

theorem rowOf_nsegs_pos (existing : ExistingFiles) (x : (_ : String) × ClusterFile) :
    0 < (rowOf existing x).nsegs := by
  have hlen := length_pos_iff.mpr
    (@mergeParts_ne_nil (heldParts (existing x.1)) x.2.parts x.2.nonempty)
  exact Int.natCast_pos.mpr hlen

theorem Counted.foldl {existing : ExistingFiles} {l : List ((_ : String) × ClusterFile)}
    (hnodup : l.NodupKeys)
    (hread : ∀ x ∈ l, existing x.1 = (files.lookup (rid, x.1)).map (FileRow.read fromJson))
    (hstamped : ∀ x ∈ l, ∀ f, files.lookup (rid, x.1) = some f → 0 < f.nsegs)
    (hnames : ∀ x ∈ l, NameAgrees x.1) {a : RelAgg} (h : Counted a (rowsOf files rid)) :
    Counted (l.foldl (applyRow existing) a) (rowsOf (mergeFiles rid existing files l) rid) := by
  induction l generalizing files a with
  | nil => exact h
  | cons x l ih =>
    obtain ⟨hx, hl⟩ := nodupKeys_cons.mp hnodup
    have hother : ∀ y ∈ l, (files.insert (rid, x.1) (rowOf existing x)).lookup (rid, y.1) =
        files.lookup (rid, y.1) := by
      intro y hy
      apply AList.lookup_insert_ne
      intro e
      have hname : y.1 = x.1 := congrArg Prod.snd e
      exact hx (mem_keys.mpr ⟨y.2, hname ▸ hy⟩)
    have hstep : Counted (applyRow existing a x)
        (rowsOf (files.insert (rid, x.1) (rowOf existing x)) rid) := by
      have hold : ((existing x.1).map fun p => oldContrib p (heldParts (existing x.1))) =
          (files.lookup (rid, x.1)).map contribution := by
        rw [hread x mem_cons_self, Option.map_map]
        cases hlook : files.lookup (rid, x.1) with
        | none => rfl
        | some f =>
          exact congrArg some (oldContrib_read (hstamped x mem_cons_self f hlook) _)
      rw [applyRow, hold]
      exact h.applyFile (hnames x mem_cons_self) (rowOf_nsegs_pos existing x)
    apply ih hl (fun y hy => ?_) (fun y hy f hf => ?_) (fun y hy => hnames y (mem_cons_of_mem _ hy))
      hstep
    · rw [hother y hy, hread y (mem_cons_of_mem _ hy)]
    · exact hstamped y (mem_cons_of_mem _ hy) f (hother y hy ▸ hf)

theorem wrapI64_of_range {n : Int} (hlo : -2 ^ 63 ≤ n) (hhi : n < 2 ^ 63) : wrapI64 n = n := by
  apply Int.bmod_eq_of_le <;> omega

theorem counted_of_recompute {a : RelAgg} (h : recompute files rid = some a) :
    a = scanned (rowsOf files rid) ∧ Counted a (rowsOf files rid) := by
  unfold recompute at h
  dsimp only at h
  split at h
  · rename_i hrange
    cases h
    refine ⟨rfl, ?_⟩
    rw [Counted, wrapI64_of_range hrange.1 hrange.2]
  · cases h

end RelAgg

open RelAgg

/-- The aggregates with the chosen counters set back to unknown. -/
def RelAgg.reset (a : RelAgg) (which : Bool × Bool) : RelAgg :=
  { a with
    ncomplete := if which.1 then -1 else a.ncomplete
    nexe := if which.2 then -1 else a.nexe }

theorem RelAgg.reset_reset (a : RelAgg) (u v : Bool × Bool) :
    (a.reset u).reset v = a.reset (u.1 || v.1, u.2 || v.2) := by
  obtain ⟨u₁, u₂⟩ := u
  obtain ⟨v₁, v₂⟩ := v
  cases u₁ <;> cases u₂ <;> cases v₁ <;> cases v₂ <;> rfl

/-- The row tells what a scan of its files would: all but the counters that were reset. -/
structure RowRight (reset : Bool × Bool) (r : Release) (rows : List (String × FileRow)) : Prop where
  agg : ∃ a, Counted a rows ∧ r.agg = a.reset reset
  complete : r.complete = (scanned rows).complete

theorem RowRight.baseline {reset : Bool × Bool} {r : Release} {rows : List (String × FileRow)}
    (h : RowRight reset r rows) {a : RelAgg} (ha : r.baseline = some a) : Counted a rows := by
  unfold Release.baseline at ha
  split at ha
  · rename_i hknown
    cases ha
    obtain ⟨a, ha, hreset⟩ := h.agg
    obtain ⟨h1, h2⟩ := reset
    rw [hreset] at hknown ⊢
    -- A counter that was reset is negative, and the row is not trusted.
    cases h1 <;> cases h2 <;> simp [RelAgg.reset] at hknown
    exact ha
  · cases ha

theorem complete_congr {a b : RelAgg} (hn : a.nfiles = b.nfiles) (hc : a.ncomplete = b.ncomplete) :
    a.complete = b.complete := by
  rw [RelAgg.complete, RelAgg.complete, hn, hc]

theorem RelAgg.Counted.rowRight {agg : RelAgg} {rows : List (String × FileRow)} (h : Counted agg rows)
    (r : Release) : RowRight (false, false) { r with agg, complete := agg.complete } rows := by
  refine ⟨⟨agg, h, rfl⟩, ?_⟩
  apply complete_congr <;> rw [h]

/-- Every row of the index is right, but for the counters reset since it was last written. -/
def AllRight (reset : Int → Bool × Bool) (db : IndexDb) : Prop :=
  ∀ r ∈ db.releases, RowRight (reset r.id) r (rowsOf db.files r.id)

theorem rowsOf_mergeFiles_other {rid rid' : Int} (h : rid' ≠ rid) (existing : ExistingFiles)
    (l : List ((_ : String) × ClusterFile)) (files : AList fun _ : FileKey => FileRow) :
    rowsOf (mergeFiles rid existing files l) rid' = rowsOf files rid' := by
  induction l generalizing files with
  | nil => rfl
  | cons x l ih =>
    exact (ih _).trans (rowsOf_insert_other h x.1 _)

def Cluster.NamesAgree (c : Cluster) : Prop := ∀ x ∈ c.files.entries, NameAgrees x.1

theorem Write.counted {grp : String} {db db' : IndexDb} {c : Cluster} {r : Release}
    {l : List ((_ : String) × ClusterFile)} {existing : ExistingFiles} {agg : RelAgg}
    {reset : Int → Bool × Bool} (h : Write fromJson grp db db' c r l existing agg) (hs : db.Sound)
    (hnames : c.NamesAgree) (hright : AllRight reset db) : Counted agg (rowsOf db'.files r.id) := by
  have hagg := h.aggregates
  cases hb : r.baseline with
  | none =>
    rw [hb] at hagg
    exact (counted_of_recompute hagg.symm).2
  | some a =>
    rw [hb, Option.map_some, Option.some_or] at hagg
    cases hagg
    -- A row that was just made has no counters, so this one was there.
    have hmem : r ∈ db.releases := by
      refine h.target.resolve_right fun hnew => ?_
      rw [hnew.1] at hb
      simp [Release.baseline, blankRelease] at hb
    rw [h.files]
    refine Counted.foldl h.nodupKeys h.read (fun x hx f hf => ?_)
      (fun x hx => hnames x (h.perm.mem_iff.mp hx)) ((hright r hmem).baseline hb)
    obtain ⟨parts, hp⟩ := hs.stored _ f hf
    exact hp.nsegs_pos

def Routed.wrote (x : Routed) (i : Int) : Bool :=
  match x.outcome with
  | .written rid _ _ => rid == i
  | .saturated => false

/-- The counters still reset after these writes. -/
def clearWritten (reset : Int → Bool × Bool) (routed : List Routed) : Int → Bool × Bool := fun i =>
  if routed.any (·.wrote i) then (false, false) else reset i

theorem allRight_write {grp : String} {db db' : IndexDb} {c : Cluster} {r : Release}
    {l : List ((_ : String) × ClusterFile)} {existing : ExistingFiles} {agg : RelAgg}
    {reset : Int → Bool × Bool} (h : Write fromJson grp db db' c r l existing agg) (hs : db.Sound)
    (hnames : c.NamesAgree) (hright : AllRight reset db) :
    AllRight (fun i => if i = r.id then (false, false) else reset i) db' := by
  intro x hx
  rcases (h.releases x).mp hx with rfl | ⟨hx, hid⟩
  · dsimp only
    rw [if_pos rfl]
    exact (h.counted hs hnames hright).rowRight r
  · dsimp only
    rw [if_neg hid, h.files, rowsOf_mergeFiles_other hid]
    exact hright x hx

theorem clearWritten_cons (reset : Int → Bool × Bool) (x : Routed) (rest : List Routed) :
    clearWritten reset (x :: rest) = clearWritten (clearWritten reset [x]) rest := by
  funext i
  simp only [clearWritten, any_cons, any_nil, Bool.or_false]
  by_cases hrest : (rest.any fun x => x.wrote i) = true
  · simp [hrest]
  · simp [hrest]

theorem clearWritten_append (reset : Int → Bool × Bool) (a b : List Routed) :
    clearWritten reset (a ++ b) = clearWritten (clearWritten reset a) b := by
  induction a generalizing reset with
  | nil => rfl
  | cons x a ih => rw [cons_append, clearWritten_cons, ih, ← clearWritten_cons]

/-! ## Passes and batches -/

variable (R fromJson) in
def RoutedRight (grp : String) (routed : List Routed) : Prop :=
  NoCollision R fromJson grp routed ∧ ∀ x ∈ routed, x.cluster.NamesAgree

theorem allRight_writeCluster {grp : String} {s : Shuffle} {db db' : IndexDb} {c : Cluster}
    {out : Outcome} {reset : Int → Bool × Bool} (hs : db.Sound)
    (hclear : RoutedRight R fromJson grp [⟨db, c, out⟩])
    (h : writeCluster R fromJson grp s.order db c = some (db', out)) (hright : AllRight reset db) :
    AllRight (clearWritten reset [⟨db, c, out⟩]) db' := by
  rcases writeCluster_some hs (hclear.1 _ mem_cons_self) h with
    ⟨rfl, rfl, -⟩ | ⟨r, existing, agg, minted, hw, rfl⟩
  · exact hright
  · have hstep := allRight_write hw hs (hclear.2 _ mem_cons_self) hright
    have heq : clearWritten reset [⟨db, c, .written r.id minted (agg.complete && !r.complete)⟩] =
        fun i => if i = r.id then (false, false) else reset i := by
      funext i
      simp only [clearWritten, any_cons, any_nil, Bool.or_false, Routed.wrote, beq_iff_eq,
        @eq_comm Int i]
    rw [heq]
    exact hstep

theorem allRight_writeClusters {b : Batch} {cs : List Cluster} {db db' : IndexDb}
    {routed : List Routed} {reset : Int → Bool × Bool} (hs : db.Sound)
    (h : writeClusters R fromJson b db cs = some (db', routed))
    (hclear : RoutedRight R fromJson b.grp routed) (hright : AllRight reset db) :
    AllRight (clearWritten reset routed) db' := by
  induction cs generalizing db routed reset with
  | nil =>
    cases h
    exact hright
  | cons c cs ih =>
    obtain ⟨db₁, out, rest, h₁, h₂, rfl⟩ := writeClusters_cons h
    have hhead : RoutedRight R fromJson b.grp [⟨db, c, out⟩] := by
      refine ⟨fun x hx => hclear.1 x ?_, fun x hx => hclear.2 x ?_⟩ <;>
        exact mem_singleton.mp hx ▸ mem_cons_self
    have htail : RoutedRight R fromJson b.grp rest :=
      ⟨fun x hx => hclear.1 x (mem_cons_of_mem _ hx),
        fun x hx => hclear.2 x (mem_cons_of_mem _ hx)⟩
    have hs₁ := (sound_writeCluster hs (hhead.1 _ mem_cons_self) h₁).1
    rw [clearWritten_cons]
    exact ih hs₁ h₂ htail (allRight_writeCluster hs hhead h₁ hright)

theorem allRight_ingestPass {b : Batch} {budget : Nat} {db : IndexDb} {entries : List OverEntry}
    {p : Passed} {reset : Int → Bool × Bool} (hs : db.Sound)
    (h : ingestPass R fromJson b budget db entries = some p)
    (hclear : RoutedRight R fromJson b.grp p.routed) (hright : AllRight reset db) :
    AllRight (clearWritten reset p.routed) p.db := by
  obtain ⟨db₁, h₁, hdb, -, -⟩ := ingestPass_some h
  have hpass := allRight_writeClusters hs h₁ hclear hright
  rw [hdb]
  exact hpass

theorem allRight_ingestPasses {b : Batch} {budget : Nat} {db : IndexDb} {entries : List OverEntry}
    {reset : Int → Bool × Bool} (hs : db.Sound)
    (hclear : RoutedRight R fromJson b.grp (ingestPasses R fromJson b budget db entries).routed)
    (hright : AllRight reset db) :
    AllRight (clearWritten reset (ingestPasses R fromJson b budget db entries).routed)
      (ingestPasses R fromJson b budget db entries).db := by
  revert reset hs hclear
  refine ingestPasses_rule (P := fun _ db _ out => ∀ {reset}, db.Sound →
    RoutedRight R fromJson b.grp out.routed → AllRight reset db →
    AllRight (clearWritten reset out.routed) out.db) (fun _ _ _ _ _ _ hright => hright)
    (fun hp _ _ hs hclear hright => allRight_ingestPass hs hp hclear hright) ?_ budget db entries
  intro budget db entries p q hp _ ih reset hs hclear hright
  have hfirst : RoutedRight R fromJson b.grp p.routed :=
    ⟨fun x hx => hclear.1 x (mem_append_left _ hx), fun x hx => hclear.2 x (mem_append_left _ hx)⟩
  have hlater : RoutedRight R fromJson b.grp q.routed :=
    ⟨fun x hx => hclear.1 x (mem_append_right _ hx), fun x hx => hclear.2 x (mem_append_right _ hx)⟩
  rw [clearWritten_append]
  exact ih (sound_ingestPass hs hp hfirst.1).1 hlater (allRight_ingestPass hs hp hfirst hright)

/-! ## Runs -/

def Release.reset (which : Int → Bool × Bool) (r : Release) : Release :=
  { r with agg := r.agg.reset (which r.id) }

/-- The counters of chosen rows set back to unknown. -/
def IndexDb.resetCounters (db : IndexDb) (which : Int → Bool × Bool) : IndexDb :=
  { db with releases := db.releases.modify (Release.reset which) (fun _ => rfl) fun _ => rfl }

inductive Event where
  | batch (b : Batch)
  | reset (which : Int → Bool × Bool)

/-- The index, and the counters reset since the row was last written. -/
structure RunState where
  db : IndexDb
  reset : Int → Bool × Bool

variable (R fromJson)

def RunState.step (s : RunState) : Event → RunState
  | .batch b =>
    let out := ingest R fromJson s.db b
    ⟨out.db, clearWritten s.reset out.routed⟩
  | .reset which =>
    ⟨s.db.resetCounters which, fun i => ((s.reset i).1 || (which i).1, (s.reset i).2 || (which i).2)⟩

def runEvents (events : List Event) : RunState :=
  events.foldl (RunState.step R fromJson) ⟨.fresh, fun _ => (false, false)⟩

/-- No batch of the run routes a cluster that collides or names a file the two readers disagree on. -/
def EventsClear (events : List Event) : Prop :=
  ∀ pre b post, events = pre ++ .batch b :: post →
    RoutedRight R fromJson b.grp (ingest R fromJson (runEvents R fromJson pre).db b).routed

variable {R fromJson}

theorem runEvents_concat (pre : List Event) (e : Event) :
    runEvents R fromJson (pre ++ [e]) = (runEvents R fromJson pre).step R fromJson e := by
  rw [runEvents, foldl_append]
  rfl

theorem EventsClear.left {pre post : List Event} (h : EventsClear R fromJson (pre ++ post)) :
    EventsClear R fromJson pre := by
  rintro pre' b post' rfl
  exact h pre' b (post' ++ post) (by simp)

theorem sound_resetCounters {db : IndexDb} (h : db.Sound) (which : Int → Bool × Bool) :
    (db.resetCounters which).Sound := by
  refine ⟨h.stored, fun k f hf => ?_⟩
  obtain ⟨r, hr, hid⟩ := h.owned k f hf
  exact ⟨r.reset which, mem_map_of_mem hr, hid⟩

theorem allRight_resetCounters {db : IndexDb} {reset : Int → Bool × Bool} (h : AllRight reset db)
    (which : Int → Bool × Bool) :
    AllRight (fun i => ((reset i).1 || (which i).1, (reset i).2 || (which i).2))
      (db.resetCounters which) := by
  intro x hx
  obtain ⟨r, hr, rfl⟩ := mem_map.mp hx
  have hright := h r hr
  obtain ⟨a, ha, hagg⟩ := hright.agg
  refine ⟨⟨a, ha, ?_⟩, hright.complete⟩
  show r.agg.reset (which r.id) = _
  rw [hagg, RelAgg.reset_reset]
  rfl

theorem run_right {events : List Event} (h : EventsClear R fromJson events) :
    (runEvents R fromJson events).db.Sound ∧
      AllRight (runEvents R fromJson events).reset (runEvents R fromJson events).db := by
  induction events using reverseRecOn with
  | nil => exact ⟨.fresh, fun r hr => absurd hr (Table.not_mem_empty r)⟩
  | append_singleton pre e ih =>
    obtain ⟨hs, hright⟩ := ih h.left
    rw [runEvents_concat]
    cases e with
    | batch b =>
      have hb := h pre b [] rfl
      exact ⟨(sound_ingestPasses hs hb.1).1, allRight_ingestPasses hs hb hright⟩
    | reset which => exact ⟨sound_resetCounters hs which, allRight_resetCounters hright which⟩

/-! ## Completeness -/

variable (fromJson) in
def FileRow.StoresAll (f : FileRow) : Prop :=
  ∀ n, 1 ≤ n → n ≤ f.totalParts.toNat →
    ((parseBytes fromJson f.segments).filter fun seg => seg.number.toNat = n).length = 1

theorem FileRow.Stores.filter_number {f : FileRow} {parts : Parts} (h : f.Stores parts) (n : Nat) :
    ((parseBytes fromJson f.segments).filter fun seg => seg.number.toNat = n).length =
      (parts.entries.filter fun x => x.1 = n).length := by
  rw [h.parse, segsOfParts, filter_map, length_map]
  congr 1
  refine filter_congr fun x hx => ?_
  rw [Function.comp_apply, UInt32.toNat_ofNat_of_lt' (h.lt_u32 hx)]

/-- A part number occurs once or not at all. -/
theorem length_filter_number (parts : Parts) (n : Nat) :
    (parts.entries.filter fun x => x.1 = n).length = if (parts.get n).isSome then 1 else 0 := by
  cases hg : parts.get n with
  | none =>
    rw [filter_eq_nil_iff.mpr fun x hx => by simpa using get_eq_none.mp hg x hx]
    rfl
  | some v =>
    have hmem : (n, v) ∈ parts.entries.filter fun x => x.1 = n :=
      mem_filter.mpr ⟨get_eq_some.mp hg, by simp⟩
    have hall : ∀ x ∈ parts.entries.filter fun x => x.1 = n, x = (n, v) := fun x hx =>
      mem_unique (mem_filter.mp hx).1 (get_eq_some.mp hg)
        (by simpa using (mem_filter.mp hx).2)
    have hnodup : (parts.entries.filter fun x => x.1 = n).Nodup :=
      (parts.sorted.imp fun hlt he => by rw [he] at hlt; exact lt_irrefl _ hlt).filter _
    have hone := nodup_iff_count_eq_one.mp hnodup _ hmem
    rw [count_eq_length.mpr fun x hx => (hall x hx).symm] at hone
    exact hone

theorem FileRow.Stores.complete_iff {f : FileRow} {parts : Parts} (h : f.Stores parts) :
    f.isComplete = true ↔ f.StoresAll fromJson := by
  rw [FileRow.isComplete, h.effective, decide_eq_true_eq, Int.ofNat_le]
  constructor
  · intro hle n h1 hn
    obtain ⟨v, hv⟩ := mem_of_total_le parts h.within hle h1 hn
    rw [h.filter_number, length_filter_number, get_eq_some.mpr hv]
    rfl
  · intro hall
    have hsub : (range f.totalParts.toNat).map (· + 1) ⊆ parts.entries.map (·.1) := by
      intro k hk
      obtain ⟨i, hi, rfl⟩ := mem_map.mp hk
      have hone := hall (i + 1) (by omega) (by have := mem_range.mp hi; omega)
      rw [h.filter_number, length_filter_number] at hone
      cases hg : parts.get (i + 1) with
      | none =>
        rw [hg] at hone
        cases hone
      | some v => exact mem_map.mpr ⟨_, get_eq_some.mp hg, rfl⟩
    have hnodup : ((range f.totalParts.toNat).map (· + 1)).Nodup :=
      (nodup_range).map fun a b hab => Nat.succ.inj hab
    simpa using (hnodup.subperm hsub).length_le

/-- Complete rows counted one by one reach the number of rows when all are complete. -/
theorem sumOf_eq_length_iff (rows : List (String × FileRow)) :
    sumOf rows (fun _ f => f.isComplete.toInt) = rows.length ↔ ∀ x ∈ rows, x.2.isComplete = true := by
  have hle : ∀ rows : List (String × FileRow),
      sumOf rows (fun _ f => f.isComplete.toInt) ≤ rows.length := by
    intro rows
    induction rows with
    | nil => exact Int.le_refl 0
    | cons x rows ih =>
      rw [sumOf, map_cons, sum_cons, length_cons]
      rw [sumOf] at ih
      cases x.2.isComplete <;> simp <;> omega
  induction rows with
  | nil => simp [sumOf]
  | cons x rows ih =>
    have hrows := hle rows
    have hsplit : sumOf (x :: rows) (fun _ f => f.isComplete.toInt) =
        x.2.isComplete.toInt + sumOf rows (fun _ f => f.isComplete.toInt) := by
      rw [sumOf, map_cons, sum_cons, sumOf]
    rw [forall_mem_cons, hsplit, length_cons]
    refine Iff.trans ?_ (and_congr_right fun _ => ih)
    cases x.2.isComplete <;> simp <;> omega

theorem mem_rowsOf {files : AList fun _ : FileKey => FileRow} {rid : Int} {x : String × FileRow} :
    x ∈ rowsOf files rid ↔ files.lookup (rid, x.1) = some x.2 := by
  rw [rowsOf, mem_map]
  constructor
  · rintro ⟨⟨⟨i, fname⟩, f⟩, hmem, rfl⟩
    obtain ⟨hin, hid⟩ := mem_filter.mp hmem
    obtain rfl : i = rid := by simpa using hid
    exact AList.mem_lookup_iff.mpr hin
  · intro h
    exact ⟨⟨(rid, x.1), x.2⟩, mem_filter.mpr ⟨AList.mem_lookup_iff.mp h, by simp⟩, rfl⟩

theorem scanned_complete_iff {db : IndexDb} (hs : db.Sound) (rid : Int) :
    (scanned (rowsOf db.files rid)).complete = true ↔
      (∃ fname f, db.files.lookup (rid, fname) = some f) ∧
      ∀ fname f, db.files.lookup (rid, fname) = some f → f.StoresAll fromJson := by
  have hsome : 1 ≤ (scanned (rowsOf db.files rid)).nfiles ↔
      ∃ fname f, db.files.lookup (rid, fname) = some f := by
    show (1 : Int) ≤ ((rowsOf db.files rid).length : Nat) ↔ _
    constructor
    · intro hlen
      obtain ⟨x, hx⟩ := exists_mem_of_length_pos (show 0 < (rowsOf db.files rid).length by omega)
      exact ⟨x.1, x.2, mem_rowsOf.mp hx⟩
    · rintro ⟨fname, f, hf⟩
      have hpos := length_pos_of_mem
        (mem_rowsOf.mpr (show db.files.lookup (rid, (fname, f).1) = some (fname, f).2 from hf))
      omega
  have hall : (scanned (rowsOf db.files rid)).ncomplete = (scanned (rowsOf db.files rid)).nfiles ↔
      ∀ fname f, db.files.lookup (rid, fname) = some f → f.StoresAll fromJson := by
    refine (sumOf_eq_length_iff _).trans ⟨fun h fname f hf => ?_, fun h x hx => ?_⟩
    · obtain ⟨parts, hp⟩ := hs.stored _ f hf
      exact hp.complete_iff.mp (h (fname, f) (mem_rowsOf.mpr hf))
    · obtain ⟨parts, hp⟩ := hs.stored _ x.2 (mem_rowsOf.mp hx)
      exact hp.complete_iff.mpr (h x.1 x.2 (mem_rowsOf.mp hx))
  rw [RelAgg.complete, Bool.and_eq_true, decide_eq_true_eq, beq_iff_eq, hsome, hall]

/-- In a run that never collides and names no file that Rust and SQL read differently, the
aggregates of every row are what a recount of its files answers, but for a counter that was reset
since the row was last written; and a release is complete when it has a file and every file of it
stores each of its parts once. -/
theorem aggregates_recounted (R : Readers) (fromJson : List UInt8 → Option (List Seg))
    (events : List Event) (hclear : EventsClear R fromJson events) (r : Release)
    (hr : r ∈ (runEvents R fromJson events).db.releases) :
    (∀ a, RelAgg.recompute (runEvents R fromJson events).db.files r.id = some a →
      r.agg = a.reset ((runEvents R fromJson events).reset r.id)) ∧
    (r.complete = true ↔
      (∃ fname f, (runEvents R fromJson events).db.files.lookup (r.id, fname) = some f) ∧
      ∀ fname f, (runEvents R fromJson events).db.files.lookup (r.id, fname) = some f →
        f.StoresAll fromJson) := by
  obtain ⟨hs, hright⟩ := run_right hclear
  have hrow := hright r hr
  refine ⟨fun a ha => ?_, ?_⟩
  · obtain ⟨b, hb, hagg⟩ := hrow.agg
    have hsame : b = a := hb.trans (counted_of_recompute ha).2.symm
    rw [hagg, hsame]
  · rw [hrow.complete]
    exact scanned_complete_iff hs r.id

/-! ## A collision -/

/-- The garbled header overwrites the one file of the repost and counts a second. -/
theorem aggregates_drift :
    ∃ r ∈ (runEvents sampleReaders (fun _ => none)
      [.batch samplePosting, .batch sampleRepost, .batch sampleGarbled]).db.releases,
    ∃ a, RelAgg.recompute (runEvents sampleReaders (fun _ => none)
      [.batch samplePosting, .batch sampleRepost, .batch sampleGarbled]).db.files r.id = some a ∧
      r.agg ≠ a := by
  have hrun : ((runEvents sampleReaders (fun _ => none)
      [.batch samplePosting, .batch sampleRepost, .batch sampleGarbled]).db.releases.find 2).any
      (fun r => (RelAgg.recompute (runEvents sampleReaders (fun _ => none)
        [.batch samplePosting, .batch sampleRepost, .batch sampleGarbled]).db.files r.id).any
        fun a => decide (r.agg ≠ a)) = true := by
    decide +kernel
  obtain ⟨r, hr, ha⟩ := (Option.any_eq_true _ _).mp hrun
  obtain ⟨a, ha, hne⟩ := (Option.any_eq_true _ _).mp ha
  exact ⟨r, (Table.find_some hr).1, a, ha, of_decide_eq_true hne⟩

def sampleEvents : List Event := [.batch samplePosting, .reset fun _ => (true, true), .batch sampleRepost]

theorem sample_eventsClear : EventsClear sampleReaders (fun _ => none) sampleEvents := by
  have hright : ∀ {pre : List Event} {b : Batch},
      (∀ x ∈ (ingest sampleReaders (fun _ => none)
        (runEvents sampleReaders (fun _ => none) pre).db b).routed,
        (∀ r ∈ x.before.releases.rows, r.key ≠ (x.cluster.stem,
          markedPoster sampleReaders x.cluster.poster x.cluster.files, b.grp)) ∧
        ∀ f ∈ x.cluster.files.entries, '\x00' ∉ f.1.toList) →
      RoutedRight sampleReaders (fun _ => none) b.grp (ingest sampleReaders (fun _ => none)
        (runEvents sampleReaders (fun _ => none) pre).db b).routed := by
    intro pre b h
    exact ⟨fun x hx => not_collides_of_no_key (h x hx).1,
      fun x hx f hf => nameAgrees_of_no_nul ((h x hx).2 f hf)⟩
  intro pre b post h
  match pre, h with
  | [], h =>
    cases h
    exact hright (by decide)
  | [_], h => cases h
  | [_, _], h =>
    cases h
    exact hright (by decide +kernel)
  | _ :: _ :: _ :: pre, h => simp [sampleEvents] at h

theorem aggregates_recounted_repost :
    ∃ r ∈ (runEvents sampleReaders (fun _ => none) sampleEvents).db.releases, r.id = 2 ∧
      ∃ a, RelAgg.recompute (runEvents sampleReaders (fun _ => none) sampleEvents).db.files r.id =
        some a ∧ r.agg = a := by
  have hrun : ((runEvents sampleReaders (fun _ => none) sampleEvents).db.releases.find 2).any
      (fun r => (RelAgg.recompute (runEvents sampleReaders (fun _ => none) sampleEvents).db.files
        r.id).isSome && decide ((runEvents sampleReaders (fun _ => none) sampleEvents).reset r.id =
          (false, false))) = true := by
    decide +kernel
  obtain ⟨r, hfind, hbool⟩ := (Option.any_eq_true _ _).mp hrun
  obtain ⟨hsome, hreset⟩ := (Bool.and_eq_true _ _).mp hbool
  obtain ⟨hr, hid⟩ := Table.find_some hfind
  obtain ⟨a, ha⟩ := Option.isSome_iff_exists.mp hsome
  have hagg := (aggregates_recounted sampleReaders (fun _ => none) sampleEvents sample_eventsClear r
    hr).1 a ha
  rw [of_decide_eq_true hreset] at hagg
  exact ⟨r, hr, hid, a, ha, hagg⟩

end NzbFast.Index
