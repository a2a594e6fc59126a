import NzbFast.Journal.Writer

/-!
# Lines read back

Each line a writer composes is one line of text, and `parseLine` reads it as
the record it was composed from. Names come through the sanitizer once more on
the way back, so the names written are its fixed points (`Clean`).
-/

namespace NzbFast.Journal

open NzbFast.Rust Option
open List hiding intercalate_cons_cons intercalate_singleton

/-! ## Hex fields -/

theorem alnum_toHex (b : List UInt8) : Alnum (toHex b) := by
  intro c hc
  obtain ⟨x, -, hx⟩ := mem_flatMap.mp hc
  exact alnum_hexPadded 2 _ c hx

theorem toHex_cons (x : UInt8) (b : List UInt8) : toHex (x :: b) = hexPadded 2 x.toNat ++ toHex b :=
  flatMap_cons

theorem hexPadded_two_eq (x : UInt8) : ∃ c c', hexPadded 2 x.toNat = [c, c'] ∧
    c.utf8Size = 1 ∧ c'.utf8Size = 1 := by
  obtain ⟨c, c', h⟩ := length_eq_two.mp (hexPadded_two x)
  have halnum := alnum_hexPadded 2 x.toNat
  rw [h] at halnum
  exact ⟨c, c', h, (alnum_char false (halnum c (by simp))).1,
    (alnum_char false (halnum c' (by simp))).1⟩

theorem hexPairs_toHex (b : List UInt8) : hexPairs (toHex b) = some (some b) := by
  induction b with
  | nil => rfl
  | cons x b ih =>
    obtain ⟨c, c', h, hc, hc'⟩ := hexPadded_two_eq x
    have hx : fromStrRadix 16 256 [c, c'] = some x.toNat := h ▸ fromStrRadix_hexPadded 2 x.toNat_lt
    rw [toHex_cons, h, cons_append, cons_append, nil_append, hexPairs,
      if_neg (by omega), if_neg (by omega), hx, ih]
    simp

theorem length_toHex (b : List UInt8) : (toHex b).length = 2 * b.length := by
  induction b with
  | nil => rfl
  | cons x b ih =>
    rw [toHex_cons, length_append, hexPadded_two, ih, length_cons]
    omega

@[simp] theorem fromHex_toHex (b : List UInt8) : fromHex (toHex b) = some (some b) := by
  rw [fromHex, utf8Len_alnum (alnum_toHex b), length_toHex, if_pos (by omega), hexPairs_toHex]

@[simp] theorem fromHexN_toHex {n : Nat} (b : Bytes n) :
    fromHexN n (toHex b.toList) = some (some b) := by
  rw [fromHexN, fromHex_toHex, map_some, bind_some, dif_pos (List.Vector.toList_length b)]
  rfl

theorem toHex_ne_dash (b : List UInt8) : toHex b ≠ ['-'] := by
  intro h
  have := alnum_toHex b '-' (by rw [h]; simp)
  cases this

/-! ## One line -/

theorem oneLine_of_alnum {t : Text} (h : Alnum t) : OneLine t :=
  ⟨h.not_mem (by decide), fun hl => h.not_mem (by decide) (mem_of_getLast? hl)⟩

/-- A line is one line when its fields hold no newline and the last field ends well. -/
theorem oneLine_lineOf {letter : Char} (hletter : letter ≠ '\n') (fields : List Text)
    (h : ∀ t ∈ fields, '\n' ∉ t) {last : Text} (hlast : OneLine last) :
    OneLine (lineOf letter (fields ++ [last])) := by
  have hmem : '\n' ∉ intercalate [' '] (fields ++ [last]) := by
    intro hm
    rcases mem_intercalate hm with hm | ⟨t, ht, hm⟩
    · cases hm
    · rcases mem_append.mp ht with ht | ht
      · exact h t ht hm
      · exact hlast.newline (mem_singleton.mp ht ▸ hm)
  constructor
  · simp only [lineOf, mem_cons, not_or]
    exact ⟨fun he => hletter he.symm, by decide, hmem⟩
  · -- the line ends as its last field does, or with a space
    have hend : ∀ fields : List Text,
        (' ' :: intercalate [' '] (fields ++ [last])).getLast? ≠ some '\r' := by
      intro fields
      induction fields with
      | nil =>
        rw [nil_append, intercalate_singleton]
        cases last with
        | nil => decide
        | cons c t => exact hlast.cr
      | cons t fields ih =>
        obtain ⟨u, us, hu⟩ := exists_cons_of_ne_nil (concat_ne_nil last fields)
        rw [hu] at ih
        rw [cons_append, hu, intercalate_cons_cons, ← cons_append, getLast?_append]
        intro hl
        rw [getLast?_cons, some_or] at hl
        exact ih (by rw [getLast?_cons, hl])
    exact hend fields

/-- Fields of letters and digits are free of spaces and newlines. -/
theorem fields_alnum {fields : List Text} (h : ∀ t ∈ fields, Alnum t) :
    (∀ t ∈ fields, ' ' ∉ t) ∧ ∀ t ∈ fields, '\n' ∉ t :=
  ⟨fun t ht => (h t ht).not_mem (by decide), fun t ht => (h t ht).not_mem (by decide)⟩

/-! ## Names -/

section Lines

variable (sha256 : List UInt8 → Bytes 32) (windows : Bool)

/-- A name the reader spells as the writer did. -/
def Clean (name : Text) : Prop := sanitizeOutName sha256 windows name = name

instance (name : Text) : Decidable (Clean sha256 windows name) :=
  inferInstanceAs (Decidable (_ = _))

variable {sha256 windows}

theorem Clean.ne_nil {name : Text} (h : Clean sha256 windows name) : name ≠ [] := by
  have := @sanitizeOutName_ne_nil sha256 windows name
  rwa [h] at this

theorem Clean.oneLine {name : Text} (h : Clean sha256 windows name) : OneLine name := by
  have := @oneLine_sanitizeOutName sha256 windows name
  rwa [h] at this

theorem clean_destination {t : Tables} {a : Placing} {dest : Text} {size : UInt64}
    (ha : Clean sha256 windows (a.slotFile.elim a.name (·.1)))
    (h : destination sha256 windows t a = some (dest, size)) : Clean sha256 windows dest := by
  unfold destination at h
  split at h
  · cases h
  cases hf : a.slotFile with
  | some f =>
    rw [hf] at h ha
    rw [show f = (dest, size) from some.inj h] at ha
    exact ha
  | none =>
    rw [hf] at h ha
    have hd := congrArg Prod.fst (some.inj h)
    simp only [getD_none, show sanitizeOutName sha256 windows a.name = a.name from ha] at hd
    rw [← hd]
    split
    · exact sanitizeOutName_disambiguated _ _ _
    · exact ha

/-! ## Slots, files, digests -/

theorem parseLine_slotLine (slot size : UInt64) {dest : Text} (h : Clean sha256 windows dest) :
    parseLine sha256 windows (slotLine slot size dest) = some (.slotName slot size dest) := by
  have hs : ∀ t ∈ [decimal slot.toNat, decimal size.toNat], Alnum t := by
    simp [alnum_decimal]
  have hf := splitn_intercalate (fields_alnum hs).1 dest
  simp only [length_cons, length_nil, cons_append, nil_append] at hf
  simp only [slotLine, lineOf, parseLine, parseSlotName, hf, parseU64_decimal, if_neg h.ne_nil,
    show sanitizeOutName sha256 windows dest = dest from h]

theorem parseLine_fileLine {idx : Nat} (hidx : idx < 2 ^ 64) {name : Text}
    (h : Clean sha256 windows name) :
    parseLine sha256 windows (fileLine idx name) = some (.file (UInt64.ofNat idx) name) := by
  have hs : splitOnce ' ' (intercalate [' '] [decimal idx, name]) = some (decimal idx, name) := by
    rw [intercalate_cons_cons, intercalate_singleton]
    exact splitOnce_append ((alnum_decimal idx).not_mem (by decide)) name
  have hp : parseU64 (decimal idx) = some (UInt64.ofNat idx) := by
    rw [parseU64, fromStrRadix_decimal hidx, map_some]
  simp only [fileLine, lineOf, parseLine, parseFile, hs, hp, if_neg h.ne_nil,
    show sanitizeOutName sha256 windows name = name from h]

theorem parseLine_digestLine (crc : UInt32) (id : Text) :
    parseLine sha256 windows (digestLine crc id) =
      some (if id = [] then .skip else .digest id crc) := by
  have hs : splitOnce ' ' (intercalate [' '] [hexPadded 8 crc.toNat, id]) =
      some (hexPadded 8 crc.toNat, id) := by
    rw [intercalate_cons_cons, intercalate_singleton]
    exact splitOnce_append ((alnum_hexPadded 8 _).not_mem (by decide)) id
  simp only [digestLine, lineOf, parseLine, parseDigest, hs, fromStrRadix_hexPadded 8 crc.toNat_lt,
    UInt32.ofNat_toNat]

theorem trim_alnum {t : Text} (h : Alnum t) : trim t = t := by
  have hc : ∀ c ∈ t, isWhitespace c = false := fun c hc =>
    (isWhitespace_of_isDotOrSpace (alnum_char false (h c hc)).2.2.1).1
  rw [trim, dropWhile_eq_self fun c hh => hc c (mem_of_head? hh),
    trimEnd_eq_self fun c hl => hc c (mem_of_getLast? hl)]

theorem parseLine_materializedLine (slot : UInt64) :
    parseLine sha256 windows (materializedLine slot) = some (.materialized slot) := by
  simp only [materializedLine, lineOf, intercalate_singleton, parseLine, parseMaterialized,
    trim_alnum (alnum_decimal _), parseU64_decimal]

theorem parseLine_voteLine (slot : UInt64) (votes : UInt32) {name : Text} (h : name ≠ []) :
    parseLine sha256 windows (voteLine slot votes name) = some (.votes slot votes name) := by
  have hs : ∀ t ∈ [decimal slot.toNat, decimal votes.toNat], Alnum t := by
    simp [alnum_decimal]
  have hf := splitn_intercalate (fields_alnum hs).1 name
  simp only [length_cons, length_nil, cons_append, nil_append] at hf
  simp only [voteLine, lineOf, parseLine, parseVotes, hf, parseU64_decimal, parseU32_decimal,
    if_neg h]

/-! ## Crypto events -/

def CryptoEvent.name : CryptoEvent → Text
  | .params name _ _ _ _ _ => name
  | .checkpoint name _ _ => name
  | .tailPad name _ => name

def CryptoEvent.line : CryptoEvent → Line
  | .params name salt lg2 iv unp check => .params name salt lg2 iv unp check
  | .checkpoint name off block => .checkpoint name off block
  | .tailPad name pad => .tailPad name pad

theorem parseLine_eventLine {e : CryptoEvent} (h : Clean sha256 windows e.name) :
    parseLine sha256 windows (eventLine e) = some e.line := by
  cases e with
  | params name salt lg2 iv unp check =>
    have hname : sanitizeOutName sha256 windows name = name := h
    have hs : ∀ t ∈ [toHex salt.toList, decimal lg2.toNat, toHex iv.toList, decimal unp.toNat,
        (check.map fun c => toHex c.toList).getD ['-']], ' ' ∉ t := by
      simp only [mem_cons, not_mem_nil, or_false]
      rintro t (rfl | rfl | rfl | rfl | rfl)
      · exact (alnum_toHex _).not_mem (by decide)
      · exact (alnum_decimal _).not_mem (by decide)
      · exact (alnum_toHex _).not_mem (by decide)
      · exact (alnum_decimal _).not_mem (by decide)
      · cases check with
        | none => decide
        | some c => exact (alnum_toHex _).not_mem (by decide)
    have hf := splitn_intercalate hs name
    simp only [length_cons, length_nil, cons_append, nil_append] at hf
    simp only [eventLine, lineOf, parseLine, parseParams, hf, fromHexN_toHex, bind_some,
      parseU8_decimal, parseU64_decimal, if_neg (show name ≠ [] from h.ne_nil), hname]
    cases check with
    | none => rfl
    | some c =>
      simp only [map_some, getD_some, if_neg (toHex_ne_dash c.toList), fromHexN_toHex]
      rfl
  | checkpoint name off block =>
    have hname : sanitizeOutName sha256 windows name = name := h
    have hs : ∀ t ∈ [decimal off.toNat, toHex block.toList], Alnum t := by
      simp [alnum_decimal, alnum_toHex]
    have hf := splitn_intercalate (fields_alnum hs).1 name
    simp only [length_cons, length_nil, cons_append, nil_append] at hf
    simp only [eventLine, lineOf, parseLine, parseCheckpoint, hf, fromHexN_toHex, map_some,
      parseU64_decimal, if_neg (show name ≠ [] from h.ne_nil), hname]
    rfl
  | tailPad name pad =>
    have hname : sanitizeOutName sha256 windows name = name := h
    have hs : ∀ t ∈ [if pad = [] then ['-'] else toHex pad], ' ' ∉ t := by
      simp only [mem_singleton]
      rintro t rfl
      split
      · decide
      · exact (alnum_toHex _).not_mem (by decide)
    have hf := splitn_intercalate hs name
    simp only [length_cons, length_nil, cons_append, nil_append] at hf
    simp only [eventLine, lineOf, parseLine, parseTailPad, hf,
      if_neg (show name ≠ [] from h.ne_nil), hname]
    by_cases hpad : pad = []
    · subst hpad
      rfl
    · simp only [if_neg hpad, if_neg (toHex_ne_dash pad), fromHex_toHex]
      rfl

/-! ## Placements -/

def rawFrag (fidx : Nat) (f : Frag) (mark : Option Bool) : RawFrag :=
  ⟨UInt64.ofNat fidx, f.fileOff, f.volOff, f.len, mark.getD false⟩

theorem parsePart_partText {fidx : Nat} (hfidx : fidx < 2 ^ 64) (f : Frag) (mark : Option Bool) :
    parsePart mark.isSome (partText fidx f mark) =
      if f.len = 0 then none else some (rawFrag fidx f mark) := by
  have hs : ∀ t ∈ [decimal fidx, decimal f.fileOff.toNat, decimal f.volOff.toNat,
      decimal f.len.toNat] ++ (mark.map fun m => if m then ['1'] else ['0']).toList, ':' ∉ t := by
    intro t ht
    rcases mem_append.mp ht with ht | ht
    · refine Alnum.not_mem ?_ (by decide)
      simp only [mem_cons, not_mem_nil, or_false] at ht
      rcases ht with rfl | rfl | rfl | rfl <;> exact alnum_decimal _
    · cases mark with
      | none => cases ht
      | some m =>
        cases m <;> rw [show t = _ from mem_singleton.mp ht] <;> decide
  have hf := split_intercalate (by simp) hs
  have hp : parseU64 (decimal fidx) = some (UInt64.ofNat fidx) := by
    rw [parseU64, fromStrRadix_decimal hfidx, map_some]
  cases mark with
  | none =>
    simp only [map_none, toList_none, append_nil] at hf
    simp only [parsePart, partText, map_none, toList_none, append_nil, hf, hp,
      parseU64_decimal, parseMark, isSome_none, rawFrag]
    simp
  | some m =>
    simp only [map_some, toList_some, cons_append, nil_append] at hf
    simp only [parsePart, partText, map_some, toList_some, cons_append,
      nil_append, hf, hp, parseU64_decimal, parseMark, isSome_some, rawFrag]
    cases m <;> simp

/-- A list is read part by part; one bad part spoils it. -/
theorem mapM_eq_ite {α β : Type} {p : α → Option β} {bad : α → Prop} [DecidablePred bad] {g : α → β}
    {l : List α} (h : ∀ x ∈ l, p x = if bad x then none else some (g x)) :
    l.mapM p = if ∃ x ∈ l, bad x then none else some (l.map g) := by
  induction l with
  | nil => simp
  | cons x l ih =>
    rw [mapM_cons, h x (by simp), ih fun y hy => h y (by simp [hy])]
    by_cases hx : bad x
    · simp [hx]
    by_cases hl : ∃ y ∈ l, bad y <;> simp [hx, hl]

theorem not_mem_partText {fidx : Nat} {f : Frag} {mark : Option Bool} {c : Char}
    (hc : c.isAlphanum = false) (hsep : c ≠ ':') : c ∉ partText fidx f mark := by
  intro hm
  rcases mem_intercalate hm with hm | ⟨t, ht, hm⟩
  · exact hsep hm
  refine Alnum.not_mem ?_ hc hm
  rcases mem_append.mp ht with ht | ht
  · simp only [mem_cons, not_mem_nil, or_false] at ht
    rcases ht with rfl | rfl | rfl | rfl <;> exact alnum_decimal _
  · cases mark with
    | none => cases ht
    | some m =>
      rw [show t = _ from mem_singleton.mp ht]
      intro c hc
      cases m <;> rw [show c = _ from mem_singleton.mp hc] <;> decide

/-- The fragments of a placement line as they are read back. -/
def rawFrags (fidxs : List Nat) (frags : List Frag) (mask : Option (List Bool)) : List RawFrag :=
  (fidxs.zip frags).zipIdx.map fun x => rawFrag x.1.1 x.1.2 (mask.map (markOf · x.2))

def partTexts (fidxs : List Nat) (frags : List Frag) (mask : Option (List Bool)) : List Text :=
  (fidxs.zip frags).zipIdx.map fun x => partText x.1.1 x.1.2 (mask.map (markOf · x.2))

theorem not_mem_partTexts {fidxs : List Nat} {frags : List Frag} {mask : Option (List Bool)}
    {t : Text} (ht : t ∈ partTexts fidxs frags mask) {c : Char} (hc : c.isAlphanum = false)
    (hsep : c ≠ ':') : c ∉ t := by
  obtain ⟨x, -, rfl⟩ := mem_map.mp ht
  exact not_mem_partText hc hsep

theorem not_mem_list {fidxs : List Nat} {frags : List Frag} {mask : Option (List Bool)} {c : Char}
    (hc : c.isAlphanum = false) (hcolon : c ≠ ':') (hcomma : c ≠ ',') :
    c ∉ List.intercalate [','] (partTexts fidxs frags mask) := by
  intro hm
  rcases mem_intercalate hm with hm | ⟨t, ht, hm⟩
  · exact hcomma hm
  · exact not_mem_partTexts ht hc hcolon hm

theorem parseList {fidxs : List Nat} {frags : List Frag} (hlen : fidxs.length = frags.length)
    (hne : frags ≠ []) (hf : ∀ i ∈ fidxs, i < 2 ^ 64) (mask : Option (List Bool)) :
    (split ',' (List.intercalate [','] (partTexts fidxs frags mask))).mapM (parsePart mask.isSome) =
      if ∃ f ∈ frags, f.len = 0 then none else some (rawFrags fidxs frags mask) := by
  have hzip : fidxs.zip frags ≠ [] := by
    rw [← length_pos_iff, length_zip, hlen, min_self]
    exact length_pos_iff.mpr hne
  have hparts : partTexts fidxs frags mask ≠ [] := by
    simp [partTexts, hzip]
  rw [split_intercalate hparts fun t ht => not_mem_partTexts ht (by decide) (by decide), partTexts,
    mapM_map]
  have hpart : ∀ x ∈ (fidxs.zip frags).zipIdx, (parsePart mask.isSome ∘ fun x =>
      partText x.1.1 x.1.2 (mask.map (markOf · x.2))) x =
      if x.1.2.len = 0 then none
      else some (rawFrag x.1.1 x.1.2 (mask.map (markOf · x.2))) := by
    intro x hx
    have hfidx : x.1.1 ∈ fidxs := by
      have hmem : x.1 ∈ fidxs.zip frags := by
        obtain ⟨-, -, hget⟩ := mem_zipIdx hx
        rw [hget]
        exact getElem_mem _
      exact (of_mem_zip hmem).1
    have hp := parsePart_partText (hf _ hfidx) x.1.2 (mask.map (markOf · x.2))
    rwa [isSome_map] at hp
  rw [mapM_eq_ite hpart]
  have hbad : (∃ x ∈ (fidxs.zip frags).zipIdx, x.1.2.len = 0) ↔ ∃ f ∈ frags, f.len = 0 := by
    have hfrags : ((fidxs.zip frags).zipIdx.map Prod.fst).map Prod.snd = frags := by
      rw [zipIdx_map_fst, map_snd_zip (by omega)]
    constructor
    · rintro ⟨x, hx, hl⟩
      refine ⟨x.1.2, ?_, hl⟩
      rw [← hfrags]
      exact mem_map_of_mem (mem_map_of_mem hx)
    · rintro ⟨f, hf, hl⟩
      rw [← hfrags] at hf
      obtain ⟨y, hy, rfl⟩ := mem_map.mp hf
      obtain ⟨x, hx, rfl⟩ := mem_map.mp hy
      exact ⟨x, hx, hl⟩
  simp only [hbad]
  rfl

theorem parseLine_placedLine {fidxs : List Nat} {frags : List Frag}
    (hlen : fidxs.length = frags.length) (hne : frags ≠ []) (hf : ∀ i ∈ fidxs, i < 2 ^ 64)
    (slot : UInt64) (id : Text) (mask : Option (List Bool)) :
    parseLine sha256 windows (placedLine slot id fidxs frags mask) =
      some (if id = [] ∨ ∃ f ∈ frags, f.len = 0 then .skip
        else .placed mask.isSome slot (rawFrags fidxs frags mask) id) := by
  have hs : ∀ t ∈ [decimal slot.toNat, intercalate [','] (partTexts fidxs frags mask)],
      ' ' ∉ t := by
    simp only [mem_cons, not_mem_nil, or_false]
    rintro t (rfl | rfl)
    · exact (alnum_decimal _).not_mem (by decide)
    · exact not_mem_list (by decide) (by decide) (by decide)
  have hsplit := splitn_intercalate hs id
  simp only [length_cons, length_nil, cons_append, nil_append] at hsplit
  have hplaced : parseLine sha256 windows (placedLine slot id fidxs frags mask) =
      some (parsePlaced mask.isSome (intercalate [' '] [decimal slot.toNat,
        intercalate [','] (partTexts fidxs frags mask), id])) := by
    cases mask <;> rfl
  rw [hplaced, parsePlaced, hsplit]
  simp only [parseU64_decimal, parseList hlen hne hf]
  by_cases hid : id = []
  · split <;> simp_all
  by_cases hz : ∃ f ∈ frags, f.len = 0 <;> simp [hid, hz]

/-! ## Articles and generations -/

def recordLetters : List Char := ['E', 'K', 'T', 'V', 'H', 'F', 'S', 'R', 'D', 'X', 'G', 'M']

/-- A message-id that reads as no other record. -/
structure IdOk (id : Text) : Prop where
  oneLine : OneLine id
  bare : ∀ c rest, id = c :: ' ' :: rest → c ∉ recordLetters

theorem parseLine_article {id : Text} (h : IdOk id) : parseLine sha256 windows id =
    some (if id = [] then .skip else .article id) := by
  unfold parseLine
  split
  all_goals first
    | rfl
    | exact absurd (by simp [recordLetters]) (h.bare _ _ rfl)
    | skip
  case _ hne _ _ _ _ _ _ _ _ _ _ _ _ => rw [if_neg hne]

theorem parseLine_generationLine (g : Generation) :
    parseLine sha256 windows (generationLine g) = some .skip := rfl

end Lines

/-! ## Every line is one line -/

theorem oneLine_slotLine (slot size : UInt64) {dest : Text} (h : OneLine dest) :
    OneLine (slotLine slot size dest) :=
  oneLine_lineOf (by decide) [decimal slot.toNat, decimal size.toNat]
    (fields_alnum (by simp [alnum_decimal])).2 h

theorem oneLine_fileLine (idx : Nat) {name : Text} (h : OneLine name) :
    OneLine (fileLine idx name) :=
  oneLine_lineOf (by decide) [decimal idx] (fields_alnum (by simp [alnum_decimal])).2 h

theorem oneLine_digestLine (crc : UInt32) {id : Text} (h : OneLine id) :
    OneLine (digestLine crc id) :=
  oneLine_lineOf (by decide) [hexPadded 8 crc.toNat] (fields_alnum (by simp [alnum_hexPadded])).2 h

theorem oneLine_materializedLine (slot : UInt64) : OneLine (materializedLine slot) :=
  oneLine_lineOf (by decide) [] (by simp) (oneLine_of_alnum (alnum_decimal _))

theorem oneLine_voteLine (slot : UInt64) {v : Text × UInt32} (h : writableVote v = true) :
    OneLine (voteLine slot v.2 v.1) := by
  obtain ⟨-, hn, hr⟩ := of_decide_eq_true h
  exact oneLine_lineOf (by decide) [decimal slot.toNat, decimal v.2.toNat]
    (fields_alnum (by simp [alnum_decimal])).2 ⟨hn, fun hl => hr (mem_of_getLast? hl)⟩

theorem oneLine_placedLine (slot : UInt64) {id : Text} (h : OneLine id) (fidxs : List Nat)
    (frags : List Frag) (mask : Option (List Bool)) :
    OneLine (placedLine slot id fidxs frags mask) := by
  have hletter : (if mask.isSome then 'D' else 'R') ≠ '\n' := by split <;> decide
  refine oneLine_lineOf hletter
    [decimal slot.toNat, intercalate [','] (partTexts fidxs frags mask)] ?_ h
  simp only [mem_cons, not_mem_nil, or_false]
  rintro t (rfl | rfl)
  · exact (alnum_decimal _).not_mem (by decide)
  · exact not_mem_list (by decide) (by decide) (by decide)

theorem oneLine_eventLine {e : CryptoEvent} (h : OneLine e.name) : OneLine (eventLine e) := by
  cases e with
  | params name salt lg2 iv unp check =>
    have hname : OneLine name := h
    have hfields : ∀ t ∈ [toHex salt.toList, decimal lg2.toNat, toHex iv.toList, decimal unp.toNat,
        (check.map fun c => toHex c.toList).getD ['-']], '\n' ∉ t := by
      simp only [mem_cons, not_mem_nil, or_false]
      rintro t (rfl | rfl | rfl | rfl | rfl)
      · exact (alnum_toHex _).not_mem (by decide)
      · exact (alnum_decimal _).not_mem (by decide)
      · exact (alnum_toHex _).not_mem (by decide)
      · exact (alnum_decimal _).not_mem (by decide)
      · cases check with
        | none => decide
        | some c => exact (alnum_toHex _).not_mem (by decide)
    have hline := oneLine_lineOf (by decide : 'E' ≠ '\n') _ hfields hname
    simpa only [eventLine, cons_append, nil_append] using hline
  | checkpoint name off block =>
    exact oneLine_lineOf (by decide) [decimal off.toNat, toHex block.toList]
      (fields_alnum (by simp [alnum_decimal, alnum_toHex])).2 h
  | tailPad name pad =>
    refine oneLine_lineOf (by decide : 'T' ≠ '\n') [if pad = [] then ['-'] else toHex pad] ?_ h
    simp only [mem_singleton]
    rintro t rfl
    split
    · decide
    · exact (alnum_toHex _).not_mem (by decide)

theorem oneLine_generationLine (g : Generation) : OneLine (generationLine g) := by
  refine oneLine_lineOf (by decide : 'G' ≠ '\n') [] (by simp) ?_
  have hmem : ∀ c : Char, c.isAlphanum = false → c ≠ '-' →
      c ∉ intercalate ['-'] [hexPadded 0 g.pid, hexPadded 0 g.clock, hexPadded 0 g.seq] := by
    intro c hc hdash hm
    rcases mem_intercalate hm with hm | ⟨t, ht, hm⟩
    · exact hdash hm
    · refine Alnum.not_mem ?_ hc hm
      simp only [mem_cons, not_mem_nil, or_false] at ht
      rcases ht with rfl | rfl | rfl <;> exact alnum_hexPadded _ _
  exact ⟨hmem _ (by decide) (by decide), fun hl =>
    hmem _ (by decide) (by decide) (mem_of_getLast? hl)⟩

theorem oneLine_header (fp : Bytes 16) : OneLine (header fp) := by
  have hmagic : '\n' ∉ "nzbfast-journal v1 ".toList ∧ '\r' ∉ "nzbfast-journal v1 ".toList := by
    decide
  constructor
  · intro hm
    rcases mem_append.mp hm with hm | hm
    · exact hmagic.1 hm
    · exact (alnum_toHex _).not_mem (by decide) hm
  · intro hl
    rcases mem_append.mp (mem_of_getLast? hl) with hm | hm
    · exact hmagic.2 hm
    · exact (alnum_toHex _).not_mem (by decide) hm

end NzbFast.Journal
