import NzbFast.Journal.Names

/-!
# Disambiguated names

`disambiguated_out_name` puts `{slot:03}-`, or `{slot:03}-{retry}-`, in front of a
name and sanitizes the whole. What stands in front survives every shortening, so
two slots, or two retries of one slot, never spell one name. The first try has no
retry number: a name that itself begins with a number and a dash can shorten to
the front it has under that retry, and then only the tag of `cap_component` tells
the two apart. `TagsTell` is what the digest must do there.
-/

namespace NzbFast.Journal

open NzbFast.Rust UInt64
open List hiding intercalate_cons_cons lt_trans not_le

/-! ## What stands in front -/

def slotTag (slot : Nat) : Text := (decimal slot).leftpad 3 '0' ++ ['-']

def retryTag (retry : Nat) : Text := if retry = 0 then [] else decimal retry ++ ['-']

/-- The `composed` name. -/
def composed (name : Text) (slot retry : Nat) : Text := slotTag slot ++ retryTag retry ++ name

theorem decimal_inj {m n : Nat} (h : decimal m = decimal n) : m = n := by
  have hm := @fromStrRadix_decimal (max m n + 1) m (by omega)
  have hn := @fromStrRadix_decimal (max m n + 1) n (by omega)
  rw [h, hn] at hm
  exact (Option.some.inj hm).symm

theorem leftpad_decimal_inj {m n : Nat}
    (h : (decimal m).leftpad 3 '0' = (decimal n).leftpad 3 '0') : m = n := by
  have hval : ∀ n, digitsVal 10 0 ((decimal n).leftpad 3 '0') = some n := by
    intro n
    rw [leftpad, digitsVal_zeros 10 _ (by decide)]
    exact digitsVal_toDigits (by decide) (fun _ h => digitVal_digitChar_ten h) n
  have hm := hval m
  rw [h, hval n] at hm
  exact (Option.some.inj hm).symm

theorem alnum_leftpad (n : Nat) : Alnum ((decimal n).leftpad 3 '0') := by
  intro c hc
  rcases mem_append.mp hc with hc | hc
  · rw [(mem_replicate.mp hc).2]
    decide
  · exact alnum_decimal n c hc

/-- Two composed names with different tags part in the tags, but for a first try. -/
theorem tag_cases {s s' r r' : Nat} {a b : Text}
    (h : slotTag s ++ retryTag r ++ a = slotTag s' ++ retryTag r' ++ b) :
    s = s' ∧ (r = r' ∨ r = 0 ∨ r' = 0) := by
  have hdash : ∀ {t : Text}, Alnum t → '-' ∉ t := fun h => h.not_mem (by decide)
  have hsplit := congrArg (splitOnce '-') h
  simp only [slotTag, append_assoc, cons_append, nil_append] at hsplit
  rw [splitOnce_append (hdash (alnum_leftpad s)), splitOnce_append (hdash (alnum_leftpad s')),
    Option.some_inj, Prod.mk.injEq] at hsplit
  refine ⟨leftpad_decimal_inj hsplit.1, ?_⟩
  by_cases hr : r = 0
  · exact .inr (.inl hr)
  by_cases hr' : r' = 0
  · exact .inr (.inr hr')
  have hretry := congrArg (splitOnce '-') hsplit.2
  simp only [retryTag, if_neg hr, if_neg hr', append_assoc, cons_append, nil_append] at hretry
  rw [splitOnce_append (hdash (alnum_decimal r)), splitOnce_append (hdash (alnum_decimal r')),
    Option.some_inj, Prod.mk.injEq] at hretry
  exact .inl (decimal_inj hretry.1)

/-- A front that no pass of the sanitizer changes. -/
structure Front (windows : Bool) (P : Text) : Prop where
  one : ∀ c ∈ P, c.utf8Size = 1
  fit : ∀ c ∈ P, unfitChar windows c = false
  head : ∃ d t, P = d :: t ∧ isDotOrSpace d = false
  last : P.getLast? = some '-'
  dot : '.' ∉ P
  short : P.length ≤ 42

theorem length_decimal_le {n : Nat} (h : n < 2 ^ 64) : (decimal n).length ≤ 20 :=
  (Nat.length_toDigits_le_iff (by decide) (by decide)).2 (lt_trans h (by norm_num))

theorem front_composed (windows : Bool) {slot retry : Nat} (hs : slot < 2 ^ 64)
    (hr : retry < 2 ^ 64) : Front windows (slotTag slot ++ retryTag retry) := by
  have hmem : ∀ c ∈ slotTag slot ++ retryTag retry, c.isAlphanum = true ∨ c = '-' := by
    intro c hc
    rcases mem_append.mp hc with hc | hc
    · rcases mem_append.mp hc with hc | hc
      · exact .inl (alnum_leftpad slot c hc)
      · exact .inr (mem_singleton.mp hc)
    · unfold retryTag at hc
      split at hc
      · cases hc
      · rcases mem_append.mp hc with hc | hc
        · exact .inl (alnum_decimal retry c hc)
        · exact .inr (mem_singleton.mp hc)
  have hone : ∀ c ∈ slotTag slot ++ retryTag retry, c.utf8Size = 1 := by
    intro c hc
    rcases hmem c hc with h | rfl
    · exact (alnum_char windows h).1
    · decide
  refine ⟨hone, fun c hc => ?_, ?_, ?_, fun hc => ?_, ?_⟩
  · rcases hmem c hc with h | rfl
    · exact (alnum_char windows h).2.1
    · cases windows <;> decide
  · cases hp : (decimal slot).leftpad 3 '0' with
    | nil => simp [leftpad, decimal_ne_nil] at hp
    | cons d t =>
      have hd := alnum_leftpad slot d (by rw [hp]; simp)
      refine ⟨d, t ++ ['-'] ++ retryTag retry, ?_, (alnum_char windows hd).2.2.1⟩
      rw [slotTag, hp, cons_append, cons_append]
  · unfold retryTag
    split
    · simp [slotTag]
    · rw [← append_assoc, getLast?_concat]
  · rcases hmem _ hc with h | h
    · exact absurd h (by decide)
    · exact absurd h (by decide)
  · have h1 := length_decimal_le hs
    have h2 := length_decimal_le hr
    have h3 : (retryTag retry).length ≤ (decimal retry).length + 1 := by
      unfold retryTag
      split
      · exact Nat.zero_le _
      · simp
    simp only [slotTag, leftpad, length_append, length_replicate, length_singleton]
    omega

/-! ## The front through the sanitizer -/

section Front

variable {sha256 : List UInt8 → List.Vector UInt8 32} {windows : Bool} {P : Text}

theorem trimEnd_front {p : Char → Bool} {P t : Text} (h : ∀ c, P.getLast? = some c → p c = false) :
    trimEnd p (P ++ t) = P ++ trimEnd p t := by
  unfold trimEnd
  rw [reverse_append, dropWhile_append]
  split
  case isTrue hnil =>
    rw [List.isEmpty_iff.mp hnil, reverse_nil, append_nil]
    exact trimEnd_eq_self h
  case isFalse => rw [reverse_append, reverse_reverse]

theorem sanitizeFilenameFor_front (hP : Front windows P) (t : Text) :
    sanitizeFilenameFor windows (P ++ t) =
      P ++ trimEnd isDotOrSpace (t.map (sanitizeChar windows)) := by
  have hclean : (P ++ t).map (sanitizeChar windows) = P ++ t.map (sanitizeChar windows) := by
    rw [map_append]
    congr 1
    refine (map_congr_left fun c hc => ?_).trans (map_id P)
    rw [sanitizeChar, hP.fit c hc]
    rfl
  have hlast : ∀ c, P.getLast? = some c → isDotOrSpace c = false := by
    intro c hc
    rw [hP.last] at hc
    cases hc
    decide
  obtain ⟨d, r, rfl, hd⟩ := hP.head
  have hds := isWhitespace_of_isDotOrSpace hd
  have hstart : ((d :: r) ++ t.map (sanitizeChar windows)).dropWhile isWhitespace =
      (d :: r) ++ t.map (sanitizeChar windows) := by
    rw [cons_append, dropWhile_cons, hds.1]
    rfl
  unfold sanitizeFilenameFor
  dsimp only
  rw [hclean, hstart, trimEnd_front hlast]
  generalize trimEnd isDotOrSpace (t.map (sanitizeChar windows)) = e
  have hne : (d == '.') = false := by simpa using hds.2
  have hdots : ((d :: r) ++ e).takeWhile (· == '.') = [] := by simp [hne]
  rw [if_neg (by simp [hne]), hdots, if_neg]
  · rfl
  -- the dash is in front of any dot, and no device name has one
  have hreserved : isReserved (deviceStem ((d :: r) ++ e)) = false := by
    have hdash : '-' ∈ d :: r := mem_of_getLast? hP.last
    refine not_reserved_of_mem (mem_map.mpr ⟨'-', ?_, by decide⟩) (c := '-') (by decide)
    refine mem_trimEnd (mem_trim ?_ (by decide)) (by decide)
    rw [takeWhile_append_of_pos]
    · exact mem_append_left _ hdash
    · intro c hc
      rw [bne_iff_ne]
      rintro rfl
      exact hP.dot hc
  simpa using hreserved

theorem takeBytes_front {n : Nat} (hone : ∀ c ∈ P, c.utf8Size = 1) (hn : P.length ≤ n) (t : Text) :
    takeBytes n (P ++ t) = P ++ takeBytes (n - P.length) t := by
  induction P generalizing n with
  | nil => rfl
  | cons c P ih =>
    have hc := hone c (by simp)
    rw [length_cons] at hn
    rw [cons_append, takeBytes, hc, if_pos (by omega),
      ih (fun x hx => hone x (by simp [hx])) (by omega), length_cons, Nat.sub_sub,
      add_comm 1, cons_append]

theorem budget_le (s : Text) :
    225 ≤ MAX_COMPONENT - (utf8Len (capTag sha256 s) + 1 + utf8Len (extension s)) := by
  obtain ⟨htag, hlen⟩ := capTag_spec sha256 s
  have htl := utf8Len_alnum htag
  have hext : utf8Len (extension s) ≤ MAX_EXT := by
    rcases extension_spec s with he | ⟨tail, he, -, -, hl⟩
    · rw [he]
      exact Nat.zero_le _
    · rw [he]
      exact hl
  simp only [MAX_COMPONENT, MAX_EXT] at *
  omega

theorem capComponent_front (hP : Front windows P) (e : Text) :
    ∃ u, capComponent sha256 (P ++ e) = P ++ u := by
  unfold capComponent
  split
  · exact ⟨e, rfl⟩
  · have hbudget := @budget_le sha256 (P ++ e)
    have hshort := hP.short
    dsimp only
    rw [takeBytes_front hP.one (by omega), append_assoc, append_assoc]
    exact ⟨_, rfl⟩

theorem split_front {sep : Char} {P : Text} (hP : sep ∉ P) (t : Text) :
    split sep (P ++ t) = (P ++ (split sep t).headD []) :: (split sep t).tail := by
  induction P with
  | nil =>
    obtain ⟨p, ps, hp⟩ := exists_cons_of_ne_nil (split_ne_nil sep t)
    rw [nil_append, hp]
    rfl
  | cons c P ih =>
    obtain ⟨hc, hP⟩ := ne_and_not_mem_of_not_mem_cons hP
    rw [cons_append, split, if_neg fun he => hc he.symm, ih hP]
    rfl

theorem Front.no_separator (hP : Front windows P) : '/' ∉ P ∧ '\\' ∉ P := by
  constructor
  all_goals
    intro hm
    have := hP.fit _ hm
    cases windows <;> exact absurd this (by decide)

theorem firstComponent_front (hP : Front windows P) (name : Text) :
    split '/' ((P ++ name).map fun c => if c = '\\' then '/' else c) =
      (P ++ firstComponent name) ::
        (split '/' (name.map fun c => if c = '\\' then '/' else c)).tail := by
  have hnorm : P.map (fun c => if c = '\\' then '/' else c) = P := by
    refine (map_congr_left fun c hc => if_neg ?_).trans (map_id P)
    rintro rfl
    exact hP.no_separator.2 hc
  rw [map_append, hnorm, split_front hP.no_separator.1]
  rfl

/-- With a front a name is one component, or a tree whose first component has the front. -/
theorem sanitizeOutName_front (hP : Front windows P) (name : Text) :
    sanitizeOutName sha256 windows (P ++ name) = component sha256 windows (P ++ name) ∨
      ∃ cs, cs ≠ [] ∧ (∀ c ∈ cs, Settled windows c) ∧
        sanitizeOutName sha256 windows (P ++ name) =
          List.intercalate ['/'] (component sha256 windows (P ++ firstComponent name) :: cs) := by
  unfold sanitizeOutName
  cases h : sanitizeRelpathFor sha256 windows (P ++ name) with
  | none => exact .inl rfl
  | some joined =>
    obtain ⟨comps, h2, -, hcomps, hj, -⟩ := sanitizeRelpathFor_eq h
    rw [firstComponent_front hP] at hcomps
    rw [hcomps, map_cons] at hj
    refine .inr ⟨_, ?_, fun c hc => ?_, hj⟩
    · rw [hcomps, length_cons] at h2
      intro hnil
      rw [map_eq_nil_iff.mp hnil] at h2
      exact absurd h2 (by decide)
    · obtain ⟨c', -, rfl⟩ := mem_map.mp hc
      exact settled_component c'

theorem component_front (hP : Front windows P) (t : Text) :
    component sha256 windows (P ++ t) =
      capComponent sha256 (P ++ trimEnd isDotOrSpace (t.map (sanitizeChar windows))) := by
  rw [component, sanitizeFilenameFor_front hP]

theorem exists_sanitizeOutName_front (hP : Front windows P) (name : Text) :
    ∃ u, sanitizeOutName sha256 windows (P ++ name) = P ++ u := by
  rcases @sanitizeOutName_front sha256 windows _ hP name with h | ⟨cs, hcs, -, h⟩
  · rw [h, component_front hP]
    exact capComponent_front hP _
  · obtain ⟨u, hu⟩ := @capComponent_front sha256 windows P hP
      (trimEnd isDotOrSpace ((firstComponent name).map (sanitizeChar windows)))
    obtain ⟨c, cs, rfl⟩ := exists_cons_of_ne_nil hcs
    rw [h, component_front hP, hu, intercalate_cons_cons, append_assoc]
    exact ⟨_, rfl⟩

end Front

/-! ## Caps -/

section Caps

variable (sha256 : List UInt8 → List.Vector UInt8 32) (windows : Bool) (name : Text)

theorem sanitizeOutName_capped : utf8Len (sanitizeOutName sha256 windows name) ≤ MAX_TOTAL ∧
    ∀ c ∈ split '/' (sanitizeOutName sha256 windows name), utf8Len c ≤ MAX_COMPONENT := by
  have hcap : ∀ c, utf8Len (component sha256 windows c) ≤ MAX_COMPONENT :=
    fun c => utf8Len_capComponent sha256 _
  have hslash : ∀ c, '/' ∉ component sha256 windows c :=
    fun c => (settled_component c).no_separator.1
  unfold sanitizeOutName
  cases h : sanitizeRelpathFor sha256 windows name with
  | none =>
    rw [Option.getD_none, split_of_not_mem (hslash name)]
    refine ⟨(hcap name).trans (by decide), fun c hc => ?_⟩
    rw [mem_singleton.mp hc]
    exact hcap name
  | some joined =>
    obtain ⟨comps, h2, -, -, hj, htotal⟩ := sanitizeRelpathFor_eq h
    rw [Option.getD_some]
    refine ⟨htotal, fun c hc => ?_⟩
    rw [hj, split_intercalate] at hc
    · obtain ⟨c', -, rfl⟩ := mem_map.mp hc
      exact hcap c'
    · intro hnil
      rw [map_eq_nil_iff.mp hnil] at h2
      exact absurd h2 (by decide)
    · intro t ht
      obtain ⟨c', -, rfl⟩ := mem_map.mp ht
      exact hslash c'

end Caps

/-! ## Distinct names -/

/-- The extension of a name is that of what follows a front without dots. -/
theorem extension_front {p q : Text} (hp : p ≠ []) (hpdot : '.' ∉ p) (hq : q ≠ [])
    (hqdot : '.' ∉ q) (e : Text) : extension (p ++ e) = extension (q ++ e) := by
  have hmem : ∀ {p : Text}, '.' ∉ p → ('.' ∈ p ++ e ↔ '.' ∈ e) := by
    intro p h
    rw [mem_append, or_iff_right h]
  have hhead : ∀ {p t : Text}, p ≠ [] → '.' ∉ p → '.' :: t ≠ p ++ e := by
    intro p t hne hdot he
    obtain ⟨c, p, rfl⟩ := exists_cons_of_ne_nil hne
    rw [cons_append, cons.injEq] at he
    exact hdot (he.1 ▸ (.head _))
  by_cases he : '.' ∈ e
  · have htail : ∀ p : Text, ((p ++ e).reverse.takeWhile (· != '.')).reverse =
        (e.reverse.takeWhile (· != '.')).reverse := by
      intro p
      obtain ⟨u, v, huv, hu⟩ := eq_append_cons_of_mem (mem_reverse.mpr he)
      have hall : ∀ c ∈ u, (c != '.') = true := by
        intro c hc
        rw [bne_iff_ne]
        rintro rfl
        exact hu hc
      rw [reverse_append, huv, append_assoc, cons_append,
        takeWhile_append_of_pos hall, takeWhile_append_of_pos hall,
        takeWhile_cons_of_neg (by decide), takeWhile_cons_of_neg (by decide)]
    unfold extension
    rw [htail p, htail q]
    simp only [hmem hpdot, hmem hqdot, he, hhead hp hpdot, hhead hq hqdot, ne_eq, not_false_eq_true,
      true_and]
  · have hnone : ∀ {p : Text}, '.' ∉ p → extension (p ++ e) = [] :=
      fun h => if_neg fun hc => he ((hmem h).mp hc.1)
    rw [hnone hpdot, hnone hqdot]

/-- The digest tells two components apart that a cap may cut to one front: two tags differ, and
a component that needs none does not hold the other's. -/
structure TagsTell (sha256 : List UInt8 → List.Vector UInt8 32) (x y : Text) : Prop where
  tags : MAX_COMPONENT < utf8Len x → MAX_COMPONENT < utf8Len y → capTag sha256 x ≠ capTag sha256 y
  absent : utf8Len x ≤ MAX_COMPONENT → MAX_COMPONENT < utf8Len y →
    ¬ '-' :: capTag sha256 y <:+: x

/-- More tries than names in use give one that is not. -/
theorem exists_unused {α : Type} [DecidableEq α] {f : Nat → α} {n : Nat}
    (hinj : Set.InjOn f (Finset.Icc 1 n)) (used : List α) (h : used.length < n) :
    ∃ k, 1 ≤ k ∧ k ≤ n ∧ f k ∉ used := by
  have hcard : used.toFinset.card < ((Finset.Icc 1 n).image f).card := by
    rw [Finset.card_image_of_injOn hinj, Nat.card_Icc]
    exact lt_of_le_of_lt (toFinset_card_le used) (by omega)
  obtain ⟨t, ht, hfree⟩ := Finset.exists_mem_notMem_of_card_lt_card hcard
  obtain ⟨k, hk, rfl⟩ := Finset.mem_image.mp ht
  obtain ⟨h1, hn⟩ := Finset.mem_Icc.mp hk
  exact ⟨k, h1, hn, fun hmem => hfree (mem_toFinset.mpr hmem)⟩

section Distinct

variable {sha256 : List UInt8 → List.Vector UInt8 32} {windows : Bool}

theorem capComponent_fronts {P Q e : Text} (hP : Front windows P) (hQ : Front windows Q)
    (hlen : P.length < Q.length) (htell : TagsTell sha256 (P ++ e) (Q ++ e)) :
    capComponent sha256 (P ++ e) ≠ capComponent sha256 (Q ++ e) := by
  have hbytes : ∀ {P : Text}, (∀ c ∈ P, c.utf8Size = 1) → utf8Len P = P.length := by
    intro P h
    induction P with
    | nil => rfl
    | cons c P ih =>
      have hc := h c (by simp)
      have ht := ih fun x hx => h x (by simp [hx])
      simp only [utf8Len, map_cons, sum_cons, length_cons] at ht ⊢
      omega
  have hlong : utf8Len (P ++ e) < utf8Len (Q ++ e) := by
    rw [utf8Len_append, utf8Len_append, hbytes hP.one, hbytes hQ.one]
    omega
  have hne : ∀ {P : Text}, Front windows P → P ≠ [] := by
    rintro P h rfl
    cases h.last
  have hext := extension_front (hne hP) hP.dot (hne hQ) hQ.dot e
  intro heq
  unfold capComponent at heq
  split_ifs at heq with hx hy hy
  · rw [heq] at hlong
    omega
  · refine htell.absent hx (not_le.mp hy) ?_
    rw [heq, append_assoc]
    exact ⟨_, _, by rw [append_assoc]⟩
  · omega
  · dsimp only at heq
    rw [hext, append_cancel_right_eq] at heq
    have hdash := append_inj' heq (by
      rw [length_cons, length_cons, (capTag_spec sha256 _).2, (capTag_spec sha256 _).2])
    exact htell.tags (not_le.mp hx) (not_le.mp hy) (cons.inj hdash.2).2

variable (sha256 windows)

theorem disambiguatedOutName_eq (name : Text) (slot retry : Nat) :
    disambiguatedOutName sha256 windows name slot retry =
      sanitizeOutName sha256 windows (slotTag slot ++ retryTag retry ++ name) := by
  unfold disambiguatedOutName slotTag retryTag
  rw [append_assoc _ ['-'], singleton_append]

variable {sha256 windows}

/-- The names of two tries are the same only for one slot, and for retries of which one is the
first try. -/
theorem disambiguated_cases {name : Text} {slot retry slot' retry' : UInt64}
    (h : disambiguatedOutName sha256 windows name slot.toNat retry.toNat =
      disambiguatedOutName sha256 windows name slot'.toNat retry'.toNat) :
    slot = slot' ∧ (retry = retry' ∨ retry = 0 ∨ retry' = 0) := by
  rw [disambiguatedOutName_eq, disambiguatedOutName_eq] at h
  obtain ⟨u, hu⟩ := @exists_sanitizeOutName_front sha256 windows _
    (front_composed windows slot.toNat_lt retry.toNat_lt) name
  obtain ⟨v, hv⟩ := @exists_sanitizeOutName_front sha256 windows _
    (front_composed windows slot'.toNat_lt retry'.toNat_lt) name
  rw [hu, hv] at h
  obtain ⟨hslot, hretry⟩ := tag_cases h
  refine ⟨UInt64.toNat_inj.mp hslot, ?_⟩
  rcases hretry with hretry | hretry | hretry
  · exact .inl (UInt64.toNat_inj.mp hretry)
  · exact .inr (.inl (UInt64.toNat_inj.mp hretry))
  · exact .inr (.inr (UInt64.toNat_inj.mp hretry))

theorem first_try_ne {name : Text} {slot retry : Nat} (hs : slot < 2 ^ 64) (hr : retry < 2 ^ 64)
    (hpos : 0 < retry)
    (htell : ∀ part, part = name ∨ part = firstComponent name →
      TagsTell sha256 (sanitizeFilenameFor windows (composed part slot 0))
        (sanitizeFilenameFor windows (composed part slot retry))) :
    disambiguatedOutName sha256 windows name slot 0 ≠
      disambiguatedOutName sha256 windows name slot retry := by
  have hP := front_composed windows hs (Nat.zero_lt_of_lt hr)
  have hQ := front_composed windows hs hr
  have hlen : (slotTag slot ++ retryTag 0).length < (slotTag slot ++ retryTag retry).length := by
    rw [length_append, length_append, retryTag, retryTag, if_pos rfl,
      if_neg (pos_iff_ne_zero.mp hpos), length_append]
    exact Nat.add_lt_add_left (Nat.succ_pos _) _
  have hcomp : ∀ part, part = name ∨ part = firstComponent name →
      component sha256 windows (slotTag slot ++ retryTag 0 ++ part) ≠
        component sha256 windows (slotTag slot ++ retryTag retry ++ part) := by
    intro part hpart
    have hpair := htell part hpart
    rw [composed, composed, sanitizeFilenameFor_front hP, sanitizeFilenameFor_front hQ] at hpair
    rw [component_front hP, component_front hQ]
    exact capComponent_fronts hP hQ hlen hpair
  have hslash : ∀ t, '/' ∉ component sha256 windows t :=
    fun t => (settled_component t).no_separator.1
  have htree : ∀ (c : Text) {cs : List Text}, cs ≠ [] → '/' ∈ intercalate ['/'] (c :: cs) := by
    intro c cs hcs
    obtain ⟨d, ds, rfl⟩ := exists_cons_of_ne_nil hcs
    simp
  intro heq
  rw [disambiguatedOutName_eq, disambiguatedOutName_eq] at heq
  rcases @sanitizeOutName_front sha256 windows _ hP name with h | ⟨cs, hcs, hset, h⟩
  · rcases @sanitizeOutName_front sha256 windows _ hQ name with h' | ⟨cs', hcs', -, h'⟩
    · rw [h, h'] at heq
      exact hcomp name (.inl rfl) heq
    · rw [h, h'] at heq
      exact hslash _ (heq ▸ htree _ hcs')
  · rcases @sanitizeOutName_front sha256 windows _ hQ name with h' | ⟨cs', hcs', hset', h'⟩
    · rw [h, h'] at heq
      exact hslash _ (heq ▸ htree _ hcs)
    · rw [h, h'] at heq
      have hsplit := congrArg (split '/') heq
      have hpieces : ∀ (t : Text) {cs : List Text}, (∀ c ∈ cs, Settled windows c) →
          ∀ c ∈ component sha256 windows t :: cs, '/' ∉ c := by
        intro t cs hcs c hc
        rcases mem_cons.mp hc with rfl | hc
        · exact hslash t
        · exact (hcs c hc).no_separator.1
      rw [split_intercalate (cons_ne_nil _ _) (hpieces _ hset),
        split_intercalate (cons_ne_nil _ _) (hpieces _ hset')] at hsplit
      exact hcomp _ (.inr rfl) (cons.inj hsplit).1

/-- A disambiguated name is within the caps and stays as it is; two tries at one name differ,
where the digest tells the first try of a slot from a retry; and among enough tries of a slot
one is unused, whatever the digest. -/
theorem disambiguated_names (name : Text) (slot retry slot' retry' : UInt64)
    (hsha : slot = slot' → retry ≠ retry' → min retry.toNat retry'.toNat = 0 →
      ∀ part, part = name ∨ part = firstComponent name →
        TagsTell sha256 (sanitizeFilenameFor windows (composed part slot.toNat 0))
          (sanitizeFilenameFor windows
            (composed part slot.toNat (max retry.toNat retry'.toNat)))) :
    let out := fun slot retry : UInt64 =>
      disambiguatedOutName sha256 windows name slot.toNat retry.toNat
    (utf8Len (out slot retry) ≤ MAX_TOTAL ∧
        ∀ c ∈ split '/' (out slot retry), utf8Len c ≤ MAX_COMPONENT) ∧
      sanitizeOutName sha256 windows (out slot retry) = out slot retry ∧
      ((slot, retry) ≠ (slot', retry') → out slot retry ≠ out slot' retry') ∧
      ∀ used : List Text, used.length + 1 < 2 ^ 64 →
        ∃ r : UInt64, r.toNat ≤ used.length + 1 ∧ out slot r ∉ used := by
  refine ⟨sanitizeOutName_capped sha256 windows _, sanitizeOutName_disambiguated name _ _,
    fun hne heq => ?_, fun used hused => ?_⟩
  · obtain ⟨rfl, hretry⟩ := disambiguated_cases heq
    have hne' : retry ≠ retry' := fun h => hne (by rw [h])
    rcases hretry with h | rfl | rfl
    · exact hne' h
    · have hpos : 0 < retry'.toNat :=
        pos_of_ne_zero fun h => hne' (UInt64.toNat_inj.mp h.symm)
      have htell := hsha rfl hne' (zero_min _)
      exact first_try_ne slot.toNat_lt retry'.toNat_lt hpos htell heq
    · have hpos : 0 < retry.toNat := pos_of_ne_zero fun h => hne' (UInt64.toNat_inj.mp h)
      have htell := hsha rfl hne' (min_zero _)
      rw [UInt64.toNat_zero, max_zero] at htell
      exact first_try_ne slot.toNat_lt retry.toNat_lt hpos htell heq.symm
  -- one retry more than there are names in use, the first try left out
  · have hbound : ∀ {k : Nat}, k ∈ Finset.Icc 1 (used.length + 1) →
        (UInt64.ofNat k).toNat = k := by
      intro k hk
      exact toNat_ofNat_of_lt' (lt_of_le_of_lt (Finset.mem_Icc.mp hk).2 hused)
    have hinj : Set.InjOn (fun k => disambiguatedOutName sha256 windows name slot.toNat
        (UInt64.ofNat k).toNat) (Finset.Icc 1 (used.length + 1)) := by
      intro j hj k hk hjk
      have hzero : ∀ {k : Nat}, k ∈ Finset.Icc 1 (used.length + 1) → UInt64.ofNat k ≠ 0 := by
        intro k hk h
        have hk0 := hbound hk
        rw [h, UInt64.toNat_zero] at hk0
        have := (Finset.mem_Icc.mp hk).1
        omega
      rcases (disambiguated_cases hjk).2 with h | h | h
      · have := congrArg toNat h
        rwa [hbound hj, hbound hk] at this
      · exact absurd h (hzero hj)
      · exact absurd h (hzero hk)
    obtain ⟨k, h1, hk, hfree⟩ := exists_unused hinj used (by omega)
    refine ⟨UInt64.ofNat k, ?_, hfree⟩
    rw [hbound (Finset.mem_Icc.mpr ⟨h1, hk⟩)]
    exact hk

end Distinct

def longName : Text := List.replicate 260 'y'

/-- SHA-256 of the first try at `longName` for slot 7, and of the retry after it. -/
def longNameDigest (b : List UInt8) : List.Vector UInt8 32 :=
  if b = encode (composed longName 7 0) then
    ⟨[0x24, 0xff, 0xd6, 0x4c, 0x1b, 0x2d, 0xdb, 0xed, 0x92, 0xb1, 0xfe, 0x76, 0x8a, 0x23, 0x9b,
      0xf1, 0x58, 0xcd, 0x96, 0x87, 0xe6, 0x49, 0x43, 0x2a, 0xa2, 0xb4, 0x58, 0xb8, 0x64, 0xeb,
      0xef, 0x5e], rfl⟩
  else
    ⟨[0xb0, 0xcf, 0x7d, 0x70, 0x7e, 0x18, 0x5a, 0xf8, 0x41, 0x38, 0x8b, 0x79, 0x4b, 0x5f, 0xd1,
      0x23, 0x79, 0xa8, 0x4f, 0x5b, 0xe4, 0x8b, 0x17, 0x5a, 0xd9, 0x40, 0x68, 0xb4, 0xda, 0x9e,
      0xda, 0xdc], rfl⟩

set_option maxRecDepth 10000 in
theorem tagsTell_longName :
    TagsTell longNameDigest (sanitizeFilenameFor false (composed longName 7 0))
      (sanitizeFilenameFor false (composed longName 7 1)) where
  tags _ _ := by decide
  absent h _ := absurd h (by decide)

set_option maxRecDepth 10000 in
theorem disambiguated_longName : disambiguatedOutName longNameDigest false longName 7 0 ≠
    disambiguatedOutName longNameDigest false longName 7 1 := by
  have hfirst : firstComponent longName = longName := by decide
  refine (@disambiguated_names longNameDigest false longName 7 0 7 1 fun _ _ _ part hpart => ?_).2.2.1
    (by decide)
  rw [hfirst, or_self_iff] at hpart
  rw [hpart]
  exact tagsTell_longName

end NzbFast.Journal
