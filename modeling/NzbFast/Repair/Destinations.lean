import NzbFast.Journal.Contained
import NzbFast.Journal.Disambiguated
import NzbFast.Loop.Passes
import NzbFast.Rust.PathText

/-!
# Destinations of a repair

`disambiguate_colliding_targets` (`crates/nzbkit-base/src/par2repair/dupclaim.rs`): a target
whose name another set contests, or whose path an earlier target holds, moves to the first
tagged name no target holds yet. Paths are compared by their keys, which fold case where the
volume does. A tag is the tail of a name, which the cap on a component cuts off; the digest
it puts there instead is what tells two tries apart (`TagsApart`).
-/

namespace NzbFast.Repair

open NzbFast.Rust NzbFast.Journal
open List hiding intercalate_cons_cons intercalate_singleton not_le

/-! ## Keys -/

/-- The case maps of the standard library. -/
structure CaseMaps where
  toLowercase : Text → Text
  toUppercase : Text → Text
  charToUppercase : Char → Text

/-- Letters and digits at the end of a text, with the dashes between them, are mapped one by
one. -/
structure CaseMaps.Ascii (maps : CaseMaps) : Prop where
  lower : ∀ x u, Alnum u → ∃ y, maps.toLowercase (x ++ '-' :: u) = y ++ '-' :: u.map Char.toLower
  upper : ∀ x u, Alnum u → ∃ y, maps.toUppercase (x ++ '-' :: u) = y ++ '-' :: u.map Char.toUpper
  char : ∀ c, c.isAlphanum = true ∨ c = '-' → maps.charToUppercase c = [c.toUpper]

def caseFoldKey (maps : CaseMaps) (s : Text) : Text :=
  let lowered := maps.toLowercase s
  if '\u0130' ∉ lowered ∧ '\u0131' ∉ lowered then maps.toLowercase (maps.toUppercase lowered)
  else
    maps.toLowercase
      (lowered.flatMap fun c => if c = '\u0130' ∨ c = '\u0131' then [c] else maps.charToUppercase c)

section

variable (maps : CaseMaps) (sha256 : List UInt8 → List.Vector UInt8 32) (windows : Bool)

def pathIdentityKey (fold : Bool) (p : PathBuf) : PathBuf :=
  if fold then components windows (caseFoldKey maps (pathText windows p)) else p

def nameIdentityKey (fold : Bool) (name : Text) : Text :=
  let s := sanitizeOutName sha256 windows name
  if fold then caseFoldKey maps s else s

def outNameOf (root path : PathBuf) : Text :=
  let bare :=
    match path.getLast? with
    | some (.normal name) => name
    | _ => []
  if root <+: path then
    let parts := (path.drop root.length).filterMap fun c =>
      match c with
      | .normal name => some name
      | _ => none
    if parts = [] then bare else List.intercalate ['/'] parts
  else bare

/-! ## Targets -/

/-- What the pass reads and writes of a target. -/
structure Target where
  fileId : List UInt8
  name : Text
  path : PathBuf
  deriving DecidableEq

/-- What is reported of a target that moved: its name, where it landed, and the name that held
its path. -/
structure Moved where
  declared : Text
  landed : Text
  holder : Option Text
  deriving DecidableEq

structure Claims where
  claimed : List (PathBuf × Text) := []
  targets : List Target := []
  moved : List Moved := []

def dupTag (fileId : List UInt8) (suffix : Nat) : Text :=
  let fid := (fileId.take 6).flatMap (hexPadded 2 ·.toNat)
  if suffix = 0 then ".dup-".toList ++ fid else ".dup-".toList ++ fid ++ '-' :: decimal suffix

def altPath (dir : PathBuf) (base : Text) (fileId : List UInt8) (suffix : Nat) : PathBuf :=
  joinOutName windows dir (sanitizeOutName sha256 windows (base ++ dupTag fileId suffix))

/-- One try of a tagged name; the suffix is a `u32`. -/
def altPass (fold : Bool) (dir : PathBuf) (claimed : List (PathBuf × Text)) (base : Text)
    (fileId : List UInt8) (suffix : Nat) : Loop.Pass Nat PathBuf :=
  let alt := altPath sha256 windows dir base fileId suffix
  if pathIdentityKey maps windows fold alt ∈ claimed.map Prod.fst then
    .again ((suffix + 1) % 2 ^ 32)
  else .leave alt

def claimTarget (contested : List Text) (fold : Bool) (dir : PathBuf) (fuel : Nat) (st : Claims)
    (t : Target) : Option Claims :=
  let here := pathIdentityKey maps windows fold t.path
  let holder := (st.claimed.find? (·.1 = here)).map Prod.snd
  if nameIdentityKey maps sha256 windows fold t.name ∉ contested ∧ holder = none then
    some { st with claimed := st.claimed ++ [(here, t.name)], targets := st.targets ++ [t] }
  else
    let base := outNameOf dir t.path
    (Loop.run (altPass maps sha256 windows fold dir st.claimed base t.fileId) fuel 0).map fun alt =>
      { claimed := st.claimed ++ [(pathIdentityKey maps windows fold alt, t.name)]
        targets := st.targets ++ [{ t with path := alt }]
        moved := st.moved ++ [⟨t.name, outNameOf dir alt, holder⟩] }

/-- `disambiguate_colliding_targets`; nothing where a search for a name is still running. -/
def disambiguateCollidingTargets (contested : List Text) (fold : Bool) (dir : PathBuf) (fuel : Nat)
    (targets : List Target) : Option Claims :=
  targets.foldlM (claimTarget maps sha256 windows contested fold dir fuel) {}

end

/-! ## What a try ends in -/

variable {maps : CaseMaps} {sha256 : List UInt8 → List.Vector UInt8 32} {windows fold : Bool}

section Ends

variable {u t : Text}

theorem sanitizeChar_alnum {c : Char} (h : c.isAlphanum = true) : sanitizeChar windows c = c := by
  rw [sanitizeChar, (alnum_char windows h).2.1]
  rfl

theorem sanitizeFilenameFor_endsIn (h : EndsIn u t) (hu : Alnum u) (hne : u ≠ []) :
    EndsIn u (sanitizeFilenameFor windows t) := by
  have hclean : EndsIn u ((t.map (sanitizeChar windows)).dropWhile isWhitespace) :=
    (h.map (by cases windows <;> decide) fun c hc => sanitizeChar_alnum (hu c hc)).dropWhile
      (by decide)
  have htrim : trimEnd isDotOrSpace ((t.map (sanitizeChar windows)).dropWhile isWhitespace) =
      (t.map (sanitizeChar windows)).dropWhile isWhitespace := by
    refine trimEnd_eq_self fun c hc => ?_
    rw [hclean.getLast? hne] at hc
    exact (alnum_char windows (hu c (mem_of_getLast? hc))).2.2.1
  unfold sanitizeFilenameFor
  dsimp only
  rw [htrim]
  generalize (t.map (sanitizeChar windows)).dropWhile isWhitespace = s at hclean
  rw [if_neg]
  · have hdrop : s.drop (s.takeWhile (· == '.')).length = s.dropWhile (· == '.') := by
      have hsplit : s.takeWhile (· == '.') ++ s.dropWhile (· == '.') = s :=
        takeWhile_append_dropWhile
      exact (congrArg (drop _) hsplit.symm).trans drop_left
    have hdots : EndsIn u (replicate (s.takeWhile (· == '.')).length '_' ++
        s.drop (s.takeWhile (· == '.')).length) := by
      rw [hdrop]
      exact (hclean.dropWhile (by decide)).append _
    split
    · exact hdots.append ['_']
    · exact hdots
  · obtain ⟨z, rfl⟩ := hclean
    simp

theorem extension_endsIn (h : EndsIn u t) (hu : Alnum u) : extension t = [] := by
  refine if_neg fun hext => ?_
  obtain ⟨z, rfl⟩ := h
  have hpos : ∀ c ∈ u.reverse ++ ['-'], (c != '.') = true := by
    intro c hc
    rw [bne_iff_ne]
    rintro rfl
    rcases mem_append.mp hc with hc | hc
    · exact hu.not_mem (by decide) (mem_reverse.mp hc)
    · exact absurd (mem_singleton.mp hc) (by decide)
  have hall := hext.2.2.2.2
  rw [all_reverse, show (z ++ '-' :: u).reverse = (u.reverse ++ ['-']) ++ z.reverse by simp,
    takeWhile_append_of_pos hpos] at hall
  have hdash := all_eq_true.mp hall '-' (by simp)
  exact absurd hdash (by decide)

/-- A component ends as its name does, or in the digest of it where it is cut. -/
theorem component_endsIn (sha256 : List UInt8 → List.Vector UInt8 32) (windows : Bool)
    (h : EndsIn u t) (hu : Alnum u) (hne : u ≠ []) :
    EndsIn u (component sha256 windows t) ∨
    MAX_COMPONENT < utf8Len (sanitizeFilenameFor windows t) ∧
      EndsIn (capTag sha256 (sanitizeFilenameFor windows t)) (component sha256 windows t) := by
  have hends : EndsIn u (sanitizeFilenameFor windows t) := sanitizeFilenameFor_endsIn h hu hne
  unfold component capComponent
  split
  · exact .inl hends
  · rename_i hover
    refine .inr ⟨not_le.mp hover, ?_⟩
    rw [extension_endsIn hends hu, append_nil]
    exact ⟨_, rfl⟩

def lastPiece (name : Text) : Text :=
  ((split '/' (name.map fun c => if c = '\\' then '/' else c)).getLast?).getD []

theorem getLast?_intercalate {cs : List Text} {c : Text} (h : cs.getLast? = some c) :
    ∃ front, List.intercalate ['/'] cs = front ++ c := by
  induction cs with
  | nil => cases h
  | cons d cs ih =>
    cases cs with
    | nil =>
      obtain rfl : d = c := Option.some.inj h
      exact ⟨[], intercalate_singleton ..⟩
    | cons e cs =>
      obtain ⟨front, hfront⟩ := ih h
      exact ⟨d ++ '/' :: front, by rw [intercalate_cons_cons, hfront]; simp⟩

/-- An output name ends as the name does, or in the digest of the component that is cut. -/
theorem sanitizeOutName_endsIn (sha256 : List UInt8 → List.Vector UInt8 32) (windows : Bool)
    (h : EndsIn u t) (hu : Alnum u) (hne : u ≠ []) :
    EndsIn u (sanitizeOutName sha256 windows t) ∨
    ∃ part, (part = t ∨ part = lastPiece t) ∧
      MAX_COMPONENT < utf8Len (sanitizeFilenameFor windows part) ∧
      EndsIn (capTag sha256 (sanitizeFilenameFor windows part))
        (sanitizeOutName sha256 windows t) := by
  unfold sanitizeOutName
  cases hrel : sanitizeRelpathFor sha256 windows t with
  | none =>
    exact (component_endsIn sha256 windows h hu hne).imp_right fun hcut => ⟨t, .inl rfl, hcut⟩
  | some joined =>
    obtain ⟨comps, -, -, rfl, rfl, -⟩ := sanitizeRelpathFor_eq hrel
    have hnorm : EndsIn u (t.map fun c => if c = '\\' then '/' else c) :=
      h.map (by decide) fun c hc => if_neg fun hback => hu.not_mem (by decide) (hback ▸ hc)
    obtain ⟨p, hp, hends⟩ :=
      hnorm.split (show '/' ≠ '-' by decide) (hu.not_mem (by decide))
    have hlast : lastPiece t = p := by rw [lastPiece, hp, Option.getD_some]
    obtain ⟨front, hfront⟩ := getLast?_intercalate
      ((getLast?_map (f := component sha256 windows)).trans (congrArg (Option.map _) hp))
    rw [Option.getD_some, hfront]
    rcases component_endsIn sha256 windows hends hu hne with hc | ⟨hover, hc⟩
    · exact .inl (hc.append _)
    · exact .inr ⟨p, .inr hlast.symm, hover, hc.append _⟩

end Ends

/-! ## What a key ends in -/

/-- Letters and digits that folding case leaves as they are. -/
def Folded (u : Text) : Prop :=
  ∀ c ∈ u, c.isAlphanum = true ∧ c.toLower = c ∧ c.toUpper.toLower = c ∧
    c.toUpper.isAlphanum = true

theorem Folded.alnum {u : Text} (h : Folded u) : Alnum u := fun c hc => (h c hc).1

theorem folded_digit {n : Nat} (h : n < 16) : Folded [n.digitChar] := by
  intro c hc
  rw [mem_singleton.mp hc]
  interval_cases n <;> decide

theorem folded_toDigits {radix : Nat} (h1 : 1 < radix) (h16 : radix ≤ 16) (n : Nat) :
    Folded (Nat.toDigits radix n) :=
  forall_mem_toDigits h1 (fun _ hd => folded_digit (hd.trans_le h16) _ mem_cons_self) n

theorem folded_decimal (n : Nat) : Folded (decimal n) := folded_toDigits (by decide) (by decide) n

theorem folded_capTag (s : Text) : Folded (capTag sha256 s) := by
  intro c hc
  obtain ⟨b, -, hb⟩ := mem_flatMap.mp hc
  rcases mem_append.mp hb with hb | hb
  · rw [(mem_replicate.mp hb).2]
    decide
  · exact folded_toDigits (by decide) (by decide) _ c hb

theorem caseFoldKey_endsIn (hmaps : maps.Ascii) {u t : Text} (h : EndsIn u t) (hu : Folded u) :
    EndsIn u (caseFoldKey maps t) := by
  obtain ⟨z, rfl⟩ := h
  have hlower : u.map Char.toLower = u := by
    rw [map_congr_left fun c hc => (hu c hc).2.1, map_id']
  have hback : (u.map Char.toUpper).map Char.toLower = u := by
    rw [map_map]
    exact (map_congr_left fun c hc => (hu c hc).2.2.1).trans (map_id' u)
  have hupper : Alnum (u.map Char.toUpper) := by
    intro c hc
    obtain ⟨d, hd, rfl⟩ := mem_map.mp hc
    exact (hu d hd).2.2.2
  obtain ⟨y, hy⟩ := hmaps.lower z u hu.alnum
  rw [hlower] at hy
  unfold caseFoldKey
  dsimp only
  rw [hy]
  split
  · obtain ⟨y', hy'⟩ := hmaps.upper y u hu.alnum
    obtain ⟨y'', hy''⟩ := hmaps.lower y' _ hupper
    exact ⟨y'', by rw [hy', hy'', hback]⟩
  · have htail : ('-' :: u).flatMap (fun c =>
        if c = '\u0130' ∨ c = '\u0131' then [c] else maps.charToUppercase c) =
        '-' :: u.map Char.toUpper := by
      have hone : ∀ c, c.isAlphanum = true ∨ c = '-' →
          (if c = '\u0130' ∨ c = '\u0131' then [c] else maps.charToUppercase c) = [c.toUpper] := by
        intro c hc
        rw [if_neg, hmaps.char c hc]
        rintro (rfl | rfl) <;> exact absurd hc (by decide)
      rw [flatMap_cons, hone '-' (.inr rfl)]
      refine congrArg ('-' :: ·) ?_
      exact (flatMap_congr fun c hc => hone c (.inl (hu.alnum c hc))).trans
        map_eq_flatMap.symm
    obtain ⟨y'', hy''⟩ := hmaps.lower (y.flatMap fun c =>
      if c = '\u0130' ∨ c = '\u0131' then [c] else maps.charToUppercase c) _ hupper
    exact ⟨y'', by rw [flatMap_append, htail, hy'', hback]⟩

theorem lastText_names (root : PathBuf) {names : List Text} {name : Text}
    (h : names.getLast? = some name) : lastText (root ++ names.map .normal) = name := by
  obtain ⟨init, rfl⟩ := getLast?_eq_some_iff.mp h
  unfold lastText
  simp

/-- The key of a path below a directory ends as the name it was joined from. -/
theorem pathIdentityKey_endsIn (hmaps : maps.Ascii) (dir : PathBuf) {name u : Text}
    (h : EndsIn u (sanitizeOutName sha256 windows name)) (hu : Folded u) (hne : u ≠ []) :
    EndsIn u (lastText (pathIdentityKey maps windows fold
      (joinOutName windows dir (sanitizeOutName sha256 windows name)))) := by
  have hsafe := (sanitizeOutName_contained sha256 windows name).2.1
  have hjoin : joinOutName windows dir (sanitizeOutName sha256 windows name) =
      dir ++ (split '/' (sanitizeOutName sha256 windows name)).map .normal :=
    foldl_push_plain (fun c hc => (hsafe c hc).plain) dir
  obtain ⟨p, hp, hends⟩ :=
    h.split (show '/' ≠ '-' by decide) (hu.alnum.not_mem (by decide))
  rw [hjoin]
  unfold pathIdentityKey
  split
  · obtain ⟨init, hinit⟩ := getLast?_eq_some_iff.mp hp
    obtain ⟨front, hfront⟩ := pathText_snoc windows (dir ++ init.map .normal) p
    have htext : pathText windows (dir ++ (init ++ [p]).map .normal) = front ++ p := by
      rw [← hfront]
      simp
    rw [hinit, htext]
    exact components_endsIn windows (caseFoldKey_endsIn hmaps (hends.append front) hu) hu.alnum hne
  · rwa [lastText_names dir hp]

/-! ## Tries are told apart -/

def cutFrom (windows : Bool) (base : Text) (fileId : List UInt8) (suffix : Nat) : List Text :=
  [base ++ dupTag fileId suffix, lastPiece (base ++ dupTag fileId suffix)].map
    (sanitizeFilenameFor windows)

/-- The digest tells the tries of one target apart where they are cut. -/
def TagsApart (sha256 : List UInt8 → List.Vector UInt8 32) (windows : Bool) (base : Text)
    (fileId : List UInt8) (n : Nat) : Prop :=
  ∀ i j, 0 < i → i < j → j ≤ n → ∀ x ∈ cutFrom windows base fileId i,
    ∀ y ∈ cutFrom windows base fileId j, MAX_COMPONENT < utf8Len x → MAX_COMPONENT < utf8Len y →
      capTag sha256 x ≠ capTag sha256 y

section Search

variable {dir : PathBuf} {base : Text} {fileId : List UInt8}

theorem dupTag_endsIn (base : Text) (fileId : List UInt8) {suffix : Nat} (h : 0 < suffix) :
    EndsIn (decimal suffix) (base ++ dupTag fileId suffix) := by
  unfold dupTag
  rw [if_neg (by omega)]
  exact EndsIn.append ⟨_, rfl⟩ _

/-- The key of a try ends in its suffix or in a digest. -/
theorem altPath_endsIn (sha256 : List UInt8 → List.Vector UInt8 32) (windows fold : Bool)
    (dir : PathBuf) (base : Text) (fileId : List UInt8) (hmaps : maps.Ascii) {suffix : Nat}
    (h : 0 < suffix) :
    ∃ u, EndsIn u (lastText (pathIdentityKey maps windows fold
        (altPath sha256 windows dir base fileId suffix))) ∧ '-' ∉ u ∧
      (u = decimal suffix ∨ ∃ x ∈ cutFrom windows base fileId suffix,
        MAX_COMPONENT < utf8Len x ∧ u = capTag sha256 x) := by
  have hdash {u : Text} (hu : Folded u) : '-' ∉ u := hu.alnum.not_mem (by decide)
  rcases sanitizeOutName_endsIn sha256 windows (dupTag_endsIn base fileId h)
      (folded_decimal suffix).alnum (decimal_ne_nil suffix) with hends | ⟨part, hpart, hover, hends⟩
  · exact ⟨_, pathIdentityKey_endsIn hmaps dir hends (folded_decimal suffix)
      (decimal_ne_nil suffix), hdash (folded_decimal suffix), .inl rfl⟩
  · refine ⟨_, pathIdentityKey_endsIn hmaps dir hends (folded_capTag _) ?_, hdash (folded_capTag _),
      .inr ⟨_, ?_, hover, rfl⟩⟩
    · refine ne_nil_of_length_pos ?_
      rw [(capTag_spec sha256 _).2]
      decide
    · rcases hpart with rfl | rfl <;> simp [cutFrom]

/-- Two tries have two keys. -/
theorem altPath_key_ne (hmaps : maps.Ascii) {n : Nat}
    (htags : TagsApart sha256 windows base fileId n)
    (hn : n < 2 ^ 32) {i j : Nat} (hi : 0 < i) (hij : i < j) (hj : j ≤ n) :
    pathIdentityKey maps windows fold (altPath sha256 windows dir base fileId i) ≠
      pathIdentityKey maps windows fold (altPath sha256 windows dir base fileId j) := by
  intro heq
  obtain ⟨u, hu, hudash, hucase⟩ :=
    altPath_endsIn sha256 windows fold dir base fileId hmaps hi
  obtain ⟨v, hv, hvdash, hvcase⟩ :=
    altPath_endsIn sha256 windows fold dir base fileId hmaps (hi.trans hij)
  rw [← heq] at hv
  have huv := EndsIn.unique hudash hvdash hu hv
  have hshort : ∀ k, k ≤ n → (decimal k).length < 12 := fun k hk =>
    lt_of_le_of_lt ((Nat.length_toDigits_le_iff (by decide) (by decide)).2
      (show k < 10 ^ 10 by omega)) (by decide)
  rcases hucase with rfl | ⟨x, hx, hxover, rfl⟩ <;> rcases hvcase with rfl | ⟨y, hy, hyover, rfl⟩
  · exact absurd (decimal_inj huv) (by omega)
  · have := hshort i (by omega)
    rw [huv, (capTag_spec sha256 y).2] at this
    omega
  · have := hshort j hj
    rw [← huv, (capTag_spec sha256 x).2] at this
    omega
  · exact htags i j hi hij hj x hx y hy hxover hyover huv

end Search

section Search

variable {dir : PathBuf} {base : Text} {fileId : List UInt8} {claimed : List (PathBuf × Text)}
  {n fuel : Nat}

theorem exists_alt (hmaps : maps.Ascii) (htags : TagsApart sha256 windows base fileId n)
    (hn : n < 2 ^ 32) (hclaimed : claimed.length < n) (hfuel : n < fuel) :
    ∃ alt, Loop.run (altPass maps sha256 windows fold dir claimed base fileId) fuel 0 = some alt ∧
      pathIdentityKey maps windows fold alt ∉ claimed.map Prod.fst ∧
      ∃ suffix, alt = altPath sha256 windows dir base fileId suffix := by
  have hinj : Set.InjOn (fun k => pathIdentityKey maps windows fold
      (altPath sha256 windows dir base fileId k)) (Finset.Icc 1 n) := by
    intro i hi j hj heq
    obtain ⟨hi1, hin⟩ := Finset.mem_Icc.mp hi
    obtain ⟨hj1, hjn⟩ := Finset.mem_Icc.mp hj
    rcases lt_trichotomy i j with hlt | rfl | hlt
    · exact absurd heq (altPath_key_ne hmaps htags hn hi1 hlt hjn)
    · rfl
    · exact absurd heq.symm (altPath_key_ne hmaps htags hn hj1 hlt hin)
  obtain ⟨S, -, hSn, hfree⟩ := exists_unused hinj (claimed.map Prod.fst) (by simpa using hclaimed)
  -- the suffix counts up to the first free name, which is no later than `S`
  refine Loop.run_total (I := (· ≤ S)) (μ := (S - ·)) ?_ ?_ (Nat.zero_le S) (by omega)
  · intro s s' hs hpass
    unfold altPass at hpass
    dsimp only at hpass
    split at hpass
    · rename_i htaken
      cases hpass
      have hne : s ≠ S := by
        rintro rfl
        exact hfree htaken
      omega
    · cases hpass
  · intro s alt hs hpass
    unfold altPass at hpass
    dsimp only at hpass
    split at hpass
    · cases hpass
    · cases hpass
      exact ⟨‹_›, s, rfl⟩

end Search

/-! ## The pass -/

def Under (windows : Bool) (dir p : PathBuf) : Prop :=
  ∃ names : List Text, names ≠ [] ∧ (∀ c ∈ names, SafeComponent windows c) ∧
    p = dir ++ names.map .normal

theorem under_altPath (windows : Bool) (dir : PathBuf) (base : Text) (fileId : List UInt8)
    (suffix : Nat) : Under windows dir (altPath sha256 windows dir base fileId suffix) :=
  (sanitizeOutName_contained sha256 windows _).2.2.2 dir

/-- What a target lands as: itself, or itself at a path below the directory. -/
structure Landed (windows : Bool) (dir : PathBuf) (t t' : Target) : Prop where
  fileId : t'.fileId = t.fileId
  name : t'.name = t.name
  path : t'.path = t.path ∨ Under windows dir t'.path

section Run

variable (maps sha256 windows fold) (contested : List Text) (dir : PathBuf)

def keys (targets : List Target) : List PathBuf :=
  targets.map fun t => pathIdentityKey maps windows fold t.path

def Contested (t : Target) : Prop := nameIdentityKey maps sha256 windows fold t.name ∈ contested

/-- What holds once the targets of `done` are placed. -/
structure Placed (done : List Target) (st : Claims) : Prop where
  claimed : st.claimed.map Prod.fst = keys maps windows fold st.targets
  apart : (keys maps windows fold st.targets).Nodup
  landed : List.Forall₂ (Landed windows dir) done st.targets
  stays : ∀ (i : Nat) (t : Target), done[i]? = some t →
    ¬ Contested maps sha256 windows fold contested t →
    pathIdentityKey maps windows fold t.path ∉ keys maps windows fold (st.targets.take i) →
    st.targets[i]? = some t

variable {maps sha256 windows fold contested dir} {n fuel : Nat} {st : Claims} {t : Target}

/-- A target lands at a path no earlier one holds, its own where that is free and the name is not
contested. -/
theorem claimTarget_spec (contested : List Text) (hmaps : maps.Ascii)
    (htags : TagsApart sha256 windows (outNameOf dir t.path) t.fileId n) (hn : n < 2 ^ 32)
    (hclaimed : st.claimed.length < n) (hfuel : n < fuel) :
    ∃ t' moved, claimTarget maps sha256 windows contested fold dir fuel st t = some
        ⟨st.claimed ++ [(pathIdentityKey maps windows fold t'.path, t.name)], st.targets ++ [t'],
          moved⟩ ∧
      pathIdentityKey maps windows fold t'.path ∉ st.claimed.map Prod.fst ∧
      Landed windows dir t t' ∧
      (¬ Contested maps sha256 windows fold contested t →
        pathIdentityKey maps windows fold t.path ∉ st.claimed.map Prod.fst → t' = t) := by
  have hfree : (st.claimed.find? (·.1 = pathIdentityKey maps windows fold t.path)).map Prod.snd =
      none ↔ pathIdentityKey maps windows fold t.path ∉ st.claimed.map Prod.fst := by
    simp only [Option.map_eq_none_iff, find?_eq_none, mem_map, not_exists, not_and,
      decide_eq_true_eq]
  unfold claimTarget
  dsimp only
  split
  · rename_i hkeep
    exact ⟨t, st.moved, rfl, hfree.mp hkeep.2, ⟨rfl, rfl, .inl rfl⟩, fun _ _ => rfl⟩
  · rename_i hmove
    obtain ⟨alt, hrun, halt, suffix, rfl⟩ := exists_alt hmaps htags hn hclaimed hfuel
    refine ⟨{ t with path := altPath sha256 windows dir (outNameOf dir t.path) t.fileId suffix }, _,
      by rw [hrun, Option.map_some], halt,
      ⟨rfl, rfl, .inr (under_altPath windows dir _ _ suffix)⟩, fun hc hkey => ?_⟩
    exact absurd ⟨hc, hfree.mpr hkey⟩ hmove

theorem Placed.length_claimed {done : List Target}
    (h : Placed maps sha256 windows fold contested dir done st) :
    st.claimed.length = done.length := by
  rw [h.landed.length_eq, ← length_map (f := Prod.fst), h.claimed, keys, length_map]

theorem placed_step (hmaps : maps.Ascii) {done : List Target}
    (hst : Placed maps sha256 windows fold contested dir done st)
    (htags : TagsApart sha256 windows (outNameOf dir t.path) t.fileId n) (hn : n < 2 ^ 32)
    (hdone : done.length < n) (hfuel : n < fuel) :
    ∃ st', claimTarget maps sha256 windows contested fold dir fuel st t = some st' ∧
      Placed maps sha256 windows fold contested dir (done ++ [t]) st' := by
  obtain ⟨t', moved, hclaim, hfree, hland, hkeep⟩ :=
    claimTarget_spec contested hmaps htags hn (hst.length_claimed ▸ hdone) hfuel
  refine ⟨_, hclaim, ?_, ?_, ?_, ?_⟩
  · rw [map_append, hst.claimed]
    simp [keys]
  · rw [hst.claimed] at hfree
    simp only [keys, map_append, map_cons, map_nil]
    refine nodup_append.mpr ⟨hst.apart, nodup_singleton _, ?_⟩
    rintro k hk k' hk' rfl
    rw [mem_singleton.mp hk'] at hk
    exact hfree hk
  · exact rel_append hst.landed (.cons hland .nil)
  · intro i s hi hs hkey
    rcases lt_trichotomy i done.length with hlt | rfl | hlt
    · have hlt' := hst.landed.length_eq ▸ hlt
      rw [getElem?_append_left hlt] at hi
      rw [take_append_of_le_length hlt'.le] at hkey
      rw [getElem?_append_left hlt']
      exact hst.stays i s hi hs hkey
    · rw [getElem?_concat_length] at hi
      obtain rfl := Option.some.inj hi
      rw [hst.landed.length_eq] at hkey ⊢
      rw [take_left] at hkey
      rw [getElem?_concat_length, hkeep hs (hst.claimed ▸ hkey)]
    · rw [getElem?_eq_none (by simp; omega)] at hi
      cases hi

theorem placed_run (hmaps : maps.Ascii) (hn : n < 2 ^ 32) (hfuel : n < fuel) :
    ∀ (rest done : List Target) (st : Claims), (done ++ rest).length ≤ n →
      (∀ t ∈ rest, TagsApart sha256 windows (outNameOf dir t.path) t.fileId n) →
      Placed maps sha256 windows fold contested dir done st →
      ∃ st', rest.foldlM (claimTarget maps sha256 windows contested fold dir fuel) st = some st' ∧
        Placed maps sha256 windows fold contested dir (done ++ rest) st' := by
  intro rest
  induction rest with
  | nil => exact fun done st _ _ hst => ⟨st, rfl, by rwa [append_nil]⟩
  | cons t rest ih =>
    intro done st hlen htags hst
    have hdone : done.length < n := by
      rw [length_append, length_cons] at hlen
      omega
    obtain ⟨st', hclaim, hst'⟩ :=
      placed_step hmaps hst (htags t (.head _)) hn hdone hfuel
    obtain ⟨st'', hrun, hst''⟩ := ih (done ++ [t]) st' (by simpa using hlen)
      (fun s hs => htags s (.tail _ hs)) hst'
    exact ⟨st'', by rw [foldlM_cons, hclaim]; exact hrun, by simpa using hst''⟩

/-- The pass ends, no two targets share a key, and a target whose name is not contested stays at
its path unless an earlier one landed there. -/
theorem targets_never_share (hmaps : maps.Ascii) {targets : List Target}
    (hcount : targets.length < 2 ^ 32)
    (htags : ∀ t ∈ targets, TagsApart sha256 windows (outNameOf dir t.path) t.fileId targets.length)
    (hfuel : targets.length < fuel) :
    ∃ st, disambiguateCollidingTargets maps sha256 windows contested fold dir fuel targets =
        some st ∧
      (keys maps windows fold st.targets).Nodup ∧
      List.Forall₂ (Landed windows dir) targets st.targets ∧
      ∀ (i : Nat) (t : Target), targets[i]? = some t →
        ¬ Contested maps sha256 windows fold contested t →
        pathIdentityKey maps windows fold t.path ∉ keys maps windows fold (st.targets.take i) →
        st.targets[i]? = some t := by
  obtain ⟨st, hrun, hst⟩ := placed_run hmaps hcount hfuel targets [] {} le_rfl htags
    ⟨rfl, nodup_nil, .nil, by simp⟩
  exact ⟨st, hrun, hst.apart, hst.landed, hst.stays⟩

end Run

/-! ## Runs -/

def asciiMaps : CaseMaps where
  toLowercase t := t.map Char.toLower
  toUppercase t := t.map Char.toUpper
  charToUppercase c := [c.toUpper]

theorem asciiMaps_ascii : asciiMaps.Ascii where
  lower x u _ := ⟨x.map Char.toLower, by simp [asciiMaps]⟩
  upper x u _ := ⟨x.map Char.toUpper, by simp [asciiMaps]⟩
  char _ _ := rfl

def cappedName : Text := List.replicate 255 'y'

/-- SHA-256 of the tries at `cappedName` for the id `twinId`. -/
def twinDigest (b : List UInt8) : List.Vector UInt8 32 :=
  if b = encode (cappedName ++ ".dup-aaaaaaaaaaaa".toList) then
    ⟨[0xe2, 0x69, 0x26, 0x9b, 0x5c, 0xac, 0xea, 0x9e, 0xc4, 0x37, 0x50, 0x84, 0xa7, 0x52, 0x81,
      0xba, 0x72, 0xe8, 0x6d, 0x45, 0x58, 0x7d, 0xcf, 0x3a, 0xf9, 0x30, 0xf5, 0x62, 0x20, 0xf2,
      0x03, 0xa4], rfl⟩
  else if b = encode (cappedName ++ ".dup-aaaaaaaaaaaa-1".toList) then
    ⟨[0xa6, 0x59, 0xc0, 0xf5, 0x53, 0x5c, 0x1a, 0xe4, 0xb0, 0x85, 0x76, 0x27, 0x9b, 0x10, 0xfc,
      0x0c, 0x4c, 0xcd, 0x88, 0xf7, 0xe6, 0x22, 0x8e, 0x4a, 0x06, 0xe9, 0xf4, 0xfc, 0x60, 0x44,
      0x11, 0x05], rfl⟩
  else
    ⟨[0x30, 0xe3, 0x69, 0x3a, 0xd2, 0xfe, 0x6b, 0x99, 0x52, 0x6d, 0x08, 0xa1, 0x15, 0xd1, 0xad,
      0xbf, 0xf1, 0x1e, 0xd7, 0x4e, 0x88, 0xb5, 0x2a, 0x79, 0x99, 0x6e, 0xbc, 0xcf, 0x0c, 0x1f,
      0x10, 0x12], rfl⟩

def twinId : List UInt8 := List.replicate 16 0xaa

/-- Two files declared under one name at the cap. -/
def twins : List Target :=
  [⟨twinId, cappedName, [.rootDir, .normal cappedName]⟩,
    ⟨twinId.set 15 0xbb, cappedName, [.rootDir, .normal cappedName]⟩]

set_option maxRecDepth 20000 in
theorem tagsApart_twins : ∀ t ∈ twins,
    TagsApart twinDigest false (outNameOf [.rootDir] t.path) t.fileId twins.length := by
  have hbase : ∀ t ∈ twins, cutFrom false (outNameOf [.rootDir] t.path) t.fileId 1 =
        replicate 2 (cappedName ++ ".dup-aaaaaaaaaaaa-1".toList) ∧
      cutFrom false (outNameOf [.rootDir] t.path) t.fileId 2 =
        replicate 2 (cappedName ++ ".dup-aaaaaaaaaaaa-2".toList) := by decide
  intro t ht i j hi hij hj x hx y hy _ _
  have hlen : twins.length = 2 := rfl
  obtain rfl : i = 1 := by omega
  obtain rfl : j = 2 := by omega
  rw [(hbase t ht).1] at hx
  rw [(hbase t ht).2] at hy
  rw [eq_of_mem_replicate hx, eq_of_mem_replicate hy]
  decide

theorem twins_never_share : ∃ st,
    disambiguateCollidingTargets asciiMaps twinDigest false [] true [.rootDir] 3 twins = some st ∧
      (keys asciiMaps false true st.targets).Nodup := by
  obtain ⟨st, hrun, hapart, -⟩ := @targets_never_share asciiMaps twinDigest false true []
    [.rootDir] 3 asciiMaps_ascii twins (by decide) tagsApart_twins (by decide)
  exact ⟨st, hrun, hapart⟩

/-- The second file moves to the name the third is declared under. -/
def displaced : List Target :=
  [⟨List.replicate 16 1, ['x'], [.rootDir, .normal ['x']]⟩,
    ⟨List.replicate 16 2, ['x'], [.rootDir, .normal ['x']]⟩,
    ⟨List.replicate 16 3, "x.dup-020202020202".toList,
      [.rootDir, .normal "x.dup-020202020202".toList]⟩]

set_option maxRecDepth 20000 in
/-- A target whose name is not contested, and whose path no earlier target declares, moves. -/
theorem first_claimant_moves :
    ¬ ∀ st, disambiguateCollidingTargets asciiMaps twinDigest false [] false [.rootDir] 4
        displaced = some st →
      ∀ (i : Nat) (t : Target), displaced[i]? = some t →
        ¬ Contested asciiMaps twinDigest false false [] t →
        pathIdentityKey asciiMaps false false t.path ∉
          keys asciiMaps false false (displaced.take i) →
        st.targets[i]? = some t := by
  intro hstay
  have hmoved : (disambiguateCollidingTargets asciiMaps twinDigest false [] false [.rootDir] 4
      displaced).bind (·.targets[2]?) =
      some ⟨replicate 16 3, "x.dup-020202020202".toList,
        [.rootDir, .normal "x.dup-020202020202.dup-030303030303".toList]⟩ := by decide
  obtain ⟨st, hrun, hthird⟩ := Option.bind_eq_some_iff.mp hmoved
  have hthere := hstay st hrun 2 _ rfl not_mem_nil (by decide)
  rw [hthird] at hthere
  exact absurd hthere (by decide)

end NzbFast.Repair
