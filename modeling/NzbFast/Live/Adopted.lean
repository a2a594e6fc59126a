import NzbFast.Fold.Positions
import NzbFast.Journal.Names
import NzbFast.Live.Verifier

/-!
# The adopted recovery sets

`Active` of `crates/nzbkit-base/src/live.rs` as the match tiers see it: the
flat index over every set's descriptors, the claim table, and the two name
maps. `Adopted` carries what `new` establishes, so a population whose maps do
not describe its descriptors cannot be built; `extended` goes through `new` and
copies the old claims in front.
-/

namespace NzbFast.Live

open NzbFast.Rust NzbFast.Par2 Fold List

/-- MD5, and what `disk::sanitize_out_name` depends on. -/
structure Host where
  md5 : List UInt8 → List UInt8
  sha256 : List UInt8 → List.Vector UInt8 32
  windows : Bool

/-- `disk::sanitize_out_name`. -/
def Host.sanitizeOutName (h : Host) (name : Text) : Text :=
  Journal.sanitizeOutName h.sha256 h.windows name

def toAsciiLowercase (t : Text) : Text := t.map Char.toLower

def eqIgnoreAsciiCase (s t : Text) : Bool :=
  s.length == t.length && (s.zip t).all fun x => x.1.toLower == x.2.toLower

theorem eqIgnoreAsciiCase_iff (s t : Text) :
    eqIgnoreAsciiCase s t = true ↔ toAsciiLowercase s = toAsciiLowercase t := by
  unfold eqIgnoreAsciiCase toAsciiLowercase
  induction s generalizing t with
  | nil => cases t <;> simp
  | cons c s ih =>
    cases t with
    | nil => simp
    | cons d t =>
      have := ih t
      simp only [Bool.and_eq_true, beq_iff_eq, length_cons, add_right_cancel_iff,
        zip_cons_cons, all_cons, map_cons, cons.injEq] at this ⊢
      tauto

/-! ## The flat index -/

/-- `(set, file within it)` of every descriptor: sets in order, files in order within each. -/
def flatIndex (sets : List Par2Set) : List (Nat × Nat) :=
  sets.zipIdx.flatMap fun x => (List.range x.1.files.length).map (x.2, ·)

def setFile (sets : List Par2Set) (p : Nat × Nat) : Option Par2File :=
  (sets[p.1]?).bind fun s => s.files[p.2]?

def descriptors (sets : List Par2Set) : List Par2File := sets.flatMap (·.files)

theorem flatIndex_concat (sets : List Par2Set) (s : Par2Set) :
    flatIndex (sets ++ [s]) = flatIndex sets ++ (List.range s.files.length).map (sets.length, ·) := by
  simp [flatIndex, zipIdx_append]

theorem lt_of_mem_flatIndex {sets : List Par2Set} {p : Nat × Nat} (h : p ∈ flatIndex sets) :
    p.1 < sets.length := by
  simp only [flatIndex, mem_flatMap, mem_map, Prod.exists, mem_zipIdx_iff_getElem?] at h
  obtain ⟨s, si, hs, fi, -, rfl⟩ := h
  exact (List.getElem?_eq_some_iff.mp hs).1

theorem setFile_append {sets more : List Par2Set} {p : Nat × Nat} (h : p.1 < sets.length) :
    setFile (sets ++ more) p = setFile sets p := by
  unfold setFile
  rw [getElem?_append_left h]

theorem map_setFile_flatIndex (sets : List Par2Set) :
    (flatIndex sets).map (setFile sets) = (descriptors sets).map some := by
  induction sets using reverseRecOn with
  | nil => rfl
  | append_singleton sets s ih =>
    have hold : (flatIndex sets).map (setFile (sets ++ [s])) = (descriptors sets).map some := by
      rw [← ih]
      exact map_congr_left fun p hp => setFile_append (lt_of_mem_flatIndex hp)
    have hnew : (range s.files.length).map (setFile (sets ++ [s]) ∘ (sets.length, ·)) =
        s.files.map some := by
      apply ext_getElem?
      intro i
      by_cases hi : i < s.files.length
      · simp [setFile, hi]
      · simp [hi]
    rw [flatIndex_concat, map_append, hold, map_map, hnew]
    simp [descriptors]

theorem length_flatIndex (sets : List Par2Set) :
    (flatIndex sets).length = (descriptors sets).length := by
  simpa using congrArg length (map_setFile_flatIndex sets)

/-! ## The population -/

structure Adopted (h : Host) where
  sets : List Par2Set
  index : List (Nat × Nat)
  /-- Flat file index to the slot that claimed it. -/
  claimed : List (Option Nat)
  byFold : Table Text (List Nat)
  bySanitized : Table Text (List Nat)
  /-- How many times the set list has grown. -/
  adoptedGen : Nat
  index_eq : index = flatIndex sets
  byFold_eq : byFold = indexBy (fun f => toAsciiLowercase f.name.toList) (descriptors sets)
  bySanitized_eq :
    bySanitized = indexBy (fun f => h.sanitizeOutName f.name.toList) (descriptors sets)
  length_claimed : claimed.length = (descriptors sets).length

/-- `extended`'s first loop: every set whose id is not live yet is appended. -/
def adopt (sets extra : List Par2Set) : List Par2Set :=
  extra.foldl (fun sets s =>
    if sets.any (·.recoverySetId = s.recoverySetId) then sets else sets ++ [s]) sets

theorem adopt_append (sets extra : List Par2Set) : ∃ more, adopt sets extra = sets ++ more := by
  induction extra generalizing sets with
  | nil => exact ⟨[], (append_nil _).symm⟩
  | cons s extra ih =>
    have hstep : adopt sets (s :: extra) =
        adopt (if sets.any (·.recoverySetId = s.recoverySetId) then sets else sets ++ [s]) extra :=
      rfl
    rw [hstep]
    split
    · exact ih sets
    · obtain ⟨more, hm⟩ := ih (sets ++ [s])
      exact ⟨s :: more, by rw [hm, append_assoc]; rfl⟩

theorem descriptors_append (sets more : List Par2Set) :
    descriptors (sets ++ more) = descriptors sets ++ descriptors more := flatMap_append

theorem length_descriptors_adopt (sets extra : List Par2Set) :
    (descriptors sets).length ≤ (descriptors (adopt sets extra)).length := by
  obtain ⟨more, hm⟩ := adopt_append sets extra
  rw [hm, descriptors_append, length_append]
  omega

namespace Adopted

variable {h : Host}

/-- `Active::new`. -/
def new (h : Host) (sets : List Par2Set) : Adopted h where
  sets := sets
  index := flatIndex sets
  claimed := List.replicate (flatIndex sets).length none
  byFold := indexBy (fun f => toAsciiLowercase f.name.toList) (descriptors sets)
  bySanitized := indexBy (fun f => h.sanitizeOutName f.name.toList) (descriptors sets)
  adoptedGen := 0
  index_eq := rfl
  byFold_eq := rfl
  bySanitized_eq := rfl
  length_claimed := by rw [List.length_replicate, length_flatIndex]

/-- `Active::extended`. -/
def extended (a : Adopted h) (extra : List Par2Set) : Adopted h :=
  let sets := adopt a.sets extra
  let out := new h sets
  { out with
    adoptedGen := if a.sets.length < sets.length then a.adoptedGen + 1 else a.adoptedGen
    claimed := a.claimed ++ out.claimed.drop a.claimed.length
    length_claimed := by
      have hout := out.length_claimed
      have hle := length_descriptors_adopt a.sets extra
      rw [← a.length_claimed] at hle
      rw [List.length_append, List.length_drop, hout]
      exact Nat.add_sub_cancel' hle }

def file (a : Adopted h) (flat : Nat) : Option Par2File := (a.index[flat]?).bind (setFile a.sets)

def blockSize (a : Adopted h) (flat : Nat) : Nat :=
  ((a.index[flat]?).bind fun p => a.sets[p.1]?).elim 0 (·.blockSize)

/-- Every descriptor in flat-index order. -/
def files (a : Adopted h) : List Par2File := a.index.filterMap (setFile a.sets)

theorem files_eq (a : Adopted h) : a.files = descriptors a.sets := by
  have hmap := map_setFile_flatIndex a.sets
  have h1 : a.files = ((flatIndex a.sets).map (setFile a.sets)).filterMap id := by
    rw [filterMap_map, ← a.index_eq]
    rfl
  have h2 : ((descriptors a.sets).map some).filterMap id = descriptors a.sets := by simp
  rw [h1, hmap, h2]

theorem file_eq (a : Adopted h) (flat : Nat) : a.file flat = a.files[flat]? := by
  have hmap := congrArg (·[flat]?) (map_setFile_flatIndex a.sets)
  simp only [getElem?_map] at hmap
  rw [files_eq]
  unfold file
  rw [a.index_eq]
  cases hi : (flatIndex a.sets)[flat]? with
  | none =>
    rw [hi] at hmap
    cases hd : (descriptors a.sets)[flat]? with
    | none => rfl
    | some f =>
      rw [hd] at hmap
      cases hmap
  | some p =>
    rw [hi] at hmap
    cases hd : (descriptors a.sets)[flat]? with
    | none =>
      rw [hd] at hmap
      cases hmap
    | some f =>
      rw [hd] at hmap
      exact Option.some.inj hmap

/-! ## Claims -/

def holder (a : Adopted h) (fi : Nat) : Option Nat := (a.claimed[fi]?).getD none

/-- `claimed[fi].is_none()`. -/
def free (a : Adopted h) (fi : Nat) : Bool := a.claimed[fi]? = some none

/-- `claimed[fi] = owner`. -/
def setClaim (a : Adopted h) (fi : Nat) (owner : Option Nat) : Adopted h :=
  { a with
    claimed := a.claimed.set fi owner
    length_claimed := by rw [List.length_set, a.length_claimed] }

theorem holder_setClaim (a : Adopted h) (fi : Nat) (owner : Option Nat) (gi : Nat)
    (hfi : fi < a.claimed.length) :
    (a.setClaim fi owner).holder gi = if gi = fi then owner else a.holder gi := by
  unfold holder setClaim
  by_cases hg : gi = fi
  · subst hg
    rw [if_pos rfl, getElem?_set_self hfi]
    rfl
  · rw [if_neg hg, getElem?_set_ne fun e => hg e.symm]

/-- A free descriptor is one of the population's and nobody's. -/
theorem free_iff {a : Adopted h} {fi : Nat} :
    a.free fi = true ↔ fi < a.claimed.length ∧ a.holder fi = none := by
  simp only [free, decide_eq_true_eq, holder]
  constructor
  · intro hf
    exact ⟨(List.getElem?_eq_some_iff.mp hf).1, by rw [hf]; rfl⟩
  · rintro ⟨hlt, hn⟩
    rw [getElem?_eq_getElem hlt] at hn ⊢
    exact congrArg some hn

/-! ## Another set activating -/

theorem extended_sets (a : Adopted h) (extra : List Par2Set) :
    (a.extended extra).sets = adopt a.sets extra := rfl

theorem file_extended (a : Adopted h) (extra : List Par2Set) {flat : Nat}
    (hf : flat < a.files.length) : (a.extended extra).file flat = a.file flat := by
  obtain ⟨more, hm⟩ := adopt_append a.sets extra
  rw [files_eq] at hf
  rw [file_eq, file_eq, files_eq, files_eq, extended_sets, hm, descriptors_append,
    getElem?_append_left hf]

theorem index_extended (a : Adopted h) (extra : List Par2Set) {flat : Nat}
    (hf : flat < a.index.length) : (a.extended extra).index[flat]? = a.index[flat]? := by
  obtain ⟨more, hm⟩ := adopt_append a.sets extra
  have hhead : ∀ more, ∃ rest, flatIndex (a.sets ++ more) = flatIndex a.sets ++ rest := by
    intro more
    induction more using reverseRecOn with
    | nil => exact ⟨[], by rw [append_nil, append_nil]⟩
    | append_singleton more s ih =>
      obtain ⟨rest, hr⟩ := ih
      refine ⟨rest ++ (range s.files.length).map ((a.sets ++ more).length, ·), ?_⟩
      rw [← append_assoc, flatIndex_concat, hr, append_assoc]
  obtain ⟨rest, hr⟩ := hhead more
  rw [(a.extended extra).index_eq, extended_sets, hm, hr, ← a.index_eq, getElem?_append_left hf]

/-- Every claim is carried across, and what is new is nobody's. -/
theorem holder_extended (a : Adopted h) (extra : List Par2Set) (fi : Nat) :
    (a.extended extra).holder fi = a.holder fi := by
  have hc : (a.extended extra).claimed = a.claimed ++
      (replicate (flatIndex (adopt a.sets extra)).length none).drop a.claimed.length := rfl
  unfold holder
  rw [hc]
  by_cases hfi : fi < a.claimed.length
  · rw [getElem?_append_left hfi]
  · rw [getElem?_append_right (by omega), getElem?_eq_none (l := a.claimed) (by omega),
      getElem?_drop, getElem?_replicate]
    split <;> rfl

end Adopted

end NzbFast.Live
