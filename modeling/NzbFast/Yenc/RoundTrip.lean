import NzbFast.Yenc.Encode
import Mathlib.Data.List.TakeWhile

/-!
# The round trip

What `encode` writes, `decode` reads back: the header fields are parsed to the
values that were formatted, the payload lines decode to the data, and the length,
the range and the CRC of the trailer all agree with it.
-/

namespace NzbFast.Yenc

open NzbFast.Rust Scan Option
open List hiding lt_trans

/-! ## Fields -/

/-- A key or a value as the encoder writes it. -/
def Token (t : Text) : Prop := ' ' ∉ t ∧ '=' ∉ t

variable {k name t v : Text} {part : Option (Nat × Nat)} {c : Char}

theorem token_of_alnum (h : Alnum t) : Token t :=
  ⟨h.not_mem (by decide), h.not_mem (by decide)⟩

theorem takeWhile_token (hk : ' ' ∉ k) : (k.reverse.takeWhile (· ≠ ' ')).reverse = k := by
  rw [takeWhile_eq_self_iff.mpr, reverse_reverse]
  intro c hc
  rw [decide_eq_true_eq]
  rintro rfl
  exact hk (mem_reverse.mp hc)

theorem fieldsFrom_field (hk : Token k) (hname : k ≠ "name".toList) (hv : ' ' ∉ v) (fuel : Nat)
    {rest : Text} (hrest : rest.head? ≠ some ' ') :
    fieldsFrom (fuel + 1) (k ++ '=' :: (v ++ ' ' :: rest)) = (k, v) :: fieldsFrom fuel rest := by
  have hdrop : rest.dropWhile (· = ' ') = rest := by
    cases rest with
    | nil => rfl
    | cons c rest => rw [dropWhile_cons, if_neg (by simpa using hrest)]
  rw [fieldsFrom, splitOnce_append hk.2]
  dsimp only
  rw [takeWhile_token hk.1, if_neg hname, splitOnce_append hv]
  dsimp only
  rw [hdrop]

theorem splitOnce_eq_none {sep : Char} (h : sep ∉ t) : splitOnce sep t = none := by
  induction t with
  | nil => rfl
  | cons c t ih =>
    obtain ⟨hc, ht⟩ := ne_and_not_mem_of_not_mem_cons h
    rw [splitOnce, if_neg fun he => hc he.symm, ih ht]
    rfl

theorem fieldsFrom_last (hk : Token k) (hname : k ≠ "name".toList) (hv : ' ' ∉ v) (fuel : Nat) :
    fieldsFrom (fuel + 1) (k ++ '=' :: v) = [(k, v)] := by
  have hnil : ∀ n, fieldsFrom n [] = [] := by
    intro n
    cases n <;> rfl
  rw [fieldsFrom, splitOnce_append hk.2]
  dsimp only
  rw [takeWhile_token hk.1, if_neg hname, splitOnce_eq_none hv]
  rw [hnil]

/-- A name the header can carry: on one line, trimmed, and without a ` key=` token. -/
structure HeaderName (name : Text) : Prop where
  cr : '\r' ∉ name
  lf : '\n' ∉ name
  tab : '\t' ∉ name
  head : ∀ c, name.head? = some c → isAsciiWhitespace c = false
  last : ∀ c, name.getLast? = some c → isAsciiWhitespace c = false
  keys : ∀ k ∈ HEADER_KEYS, ¬ (' ' :: k.toList ++ ['=']) <:+: name

theorem nameCut_eq_self {keys : List Text} (h : ∀ k ∈ keys, ¬ (' ' :: k ++ ['=']) <:+: t) :
    nameCut ' ' '=' keys t = t := by
  induction t with
  | nil => rfl
  | cons c t ih =>
    rw [nameCut, if_neg, ih]
    · exact fun k hk hin => h k hk (hin.trans (suffix_cons c t).isInfix)
    · rintro ⟨rfl, hany⟩
      obtain ⟨k, hk, hpre⟩ := any_eq_true.mp hany
      refine h k hk (List.IsPrefix.isInfix ?_)
      rw [cons_append, cons_prefix_cons]
      exact ⟨rfl, List.isPrefixOf_iff_prefix.mp hpre⟩

theorem trimMatches_eq_self {α : Type} {p : α → Bool} {l : List α}
    (hh : ∀ c, l.head? = some c → p c = false) (hl : ∀ c, l.getLast? = some c → p c = false) :
    trimMatches p l = l := by
  have hdrop : ∀ l : List α, (∀ c, l.head? = some c → p c = false) → l.dropWhile p = l := by
    intro l h
    cases l with
    | nil => rfl
    | cons c l => rw [dropWhile_cons, h c rfl]; rfl
  unfold trimMatches
  rw [hdrop l hh, hdrop l.reverse (by simpa using hl), reverse_reverse]

theorem fieldsFrom_name (h : HeaderName name) (fuel : Nat) :
    fieldsFrom (fuel + 1) ("name=".toList ++ name) = [("name".toList, name)] := by
  have hsplit : "name=".toList ++ name = "name".toList ++ '=' :: name := rfl
  rw [fieldsFrom, hsplit, splitOnce_append (by decide)]
  dsimp only
  rw [takeWhile_token (by decide), if_pos rfl, nameCut_eq_self, trimMatches_eq_self h.head h.last]
  intro k hk
  obtain ⟨s, hs, rfl⟩ := mem_map.mp hk
  exact h.keys s hs

theorem lossy_encode (t : Text) : (fromUtf8Lossy (Rust.encode t)).toList = t := by
  rw [encode_eq_asBytes, fromUtf8Lossy_asBytes, String.toList_ofList]

theorem parseHeader_encode (hh : t.head? ≠ some ' ') (hl : t.getLast? ≠ some ' ') :
    parseHeader (Rust.encode t) = fieldsFrom t.length t := by
  unfold parseHeader
  rw [lossy_encode, trimMatches_eq_self]
  · intro c hc
    rw [decide_eq_false_iff_not]
    rintro rfl
    exact hh hc
  · intro c hc
    rw [decide_eq_false_iff_not]
    rintro rfl
    exact hl hc

def fieldTexts (kvs : List (Text × Text)) : Text :=
  kvs.flatMap fun kv => kv.1 ++ '=' :: (kv.2 ++ [' '])

/-- A field that is not the name: its key and its value have no separator in them. -/
def PlainField (kv : Text × Text) : Prop := Token kv.1 ∧ kv.1 ≠ "name".toList ∧ ' ' ∉ kv.2

theorem plainField {k v : Text} (hk : ' ' ∉ k ∧ '=' ∉ k ∧ k ≠ "name".toList) (hv : Alnum v) :
    PlainField (k, v) := ⟨⟨hk.1, hk.2.1⟩, hk.2.2, (token_of_alnum hv).1⟩

theorem fieldsFrom_texts {kvs out : List (Text × Text)} (hkvs : ∀ kv ∈ kvs, PlainField kv)
    (ht : t ≠ []) (hhead : t.head? ≠ some ' ') (hout : ∀ fuel, fieldsFrom (fuel + 1) t = out)
    {fuel : Nat} (hfuel : (fieldTexts kvs ++ t).length ≤ fuel) :
    fieldsFrom fuel (fieldTexts kvs ++ t) = kvs ++ out := by
  induction kvs generalizing fuel with
  | nil =>
    have hpos : 0 < t.length := length_pos_of_ne_nil ht
    obtain ⟨n, rfl⟩ : ∃ n, fuel = n + 1 := ⟨fuel - 1, by simp [fieldTexts] at hfuel; omega⟩
    exact hout n
  | cons kv kvs ih =>
    obtain ⟨k, v⟩ := kv
    obtain ⟨hk, hname, hv⟩ := hkvs (k, v) (by simp)
    have htext : fieldTexts ((k, v) :: kvs) ++ t =
        k ++ '=' :: (v ++ ' ' :: (fieldTexts kvs ++ t)) := by
      simp [fieldTexts]
    have hrest : (fieldTexts kvs ++ t).head? ≠ some ' ' := by
      cases kvs with
      | nil => exact hhead
      | cons kv kvs =>
        have hkv := (hkvs kv (by simp)).1.1
        rw [fieldTexts, flatMap_cons, append_assoc]
        cases hkv1 : kv.1 with
        | nil => simp
        | cons c k' =>
          rw [hkv1] at hkv
          rintro hc
          exact hkv (by simpa using Or.inl (some.inj hc).symm)
    rw [htext] at hfuel ⊢
    obtain ⟨n, rfl⟩ : ∃ n, fuel = n + 1 :=
      ⟨fuel - 1, by simp only [length_append, length_cons] at hfuel; omega⟩
    rw [fieldsFrom_field hk hname hv n hrest,
      ih (fun kv hkv => hkvs kv (by simp [hkv])) (by
        simp only [length_append, length_cons] at hfuel ⊢
        omega)]
    rfl

/-- A header of plain fields, up to the text of the last. -/
theorem parseHeader_texts {kvs out : List (Text × Text)} {t : Text}
    (hkvs : ∀ kv ∈ kvs, PlainField kv) (ht : t ≠ []) (hhead : t.head? ≠ some ' ')
    (hlast : t.getLast? ≠ some ' ') (hfirst : (fieldTexts kvs ++ t).head? ≠ some ' ')
    (hout : ∀ fuel, fieldsFrom (fuel + 1) t = out) :
    parseHeader (Rust.encode (fieldTexts kvs ++ t)) = kvs ++ out := by
  rw [parseHeader_encode hfirst (by rwa [getLast?_append_of_ne_nil _ ht])]
  exact fieldsFrom_texts hkvs ht hhead hout le_rfl

/-! ## The lines of the encoder -/

theorem parseHeader_begin (h : HeaderName name) (fileSize : Nat) (part : Option (Nat × Nat)) :
    parseHeader (Rust.encode (beginFields name fileSize part)) =
      ((match part with
        | some (p, total) => [("part".toList, decimal p), ("total".toList, decimal total)]
        | none => []) ++
      [("line".toList, decimal LINE_LEN), ("size".toList, decimal fileSize)]) ++
      [("name".toList, name)] := by
  have hlast : ("name=".toList ++ name).getLast? ≠ some ' ' := by
    rw [getLast?_append]
    intro hl
    cases hn : name.getLast? with
    | none =>
      rw [hn, none_or] at hl
      exact absurd hl (by decide)
    | some c =>
      rw [hn, some_or] at hl
      have := h.last c hn
      rw [some.inj hl] at this
      exact absurd this (by decide)
  have hl : PlainField ("line".toList, decimal LINE_LEN) := plainField (by decide) (alnum_decimal _)
  have hs : PlainField ("size".toList, decimal fileSize) := plainField (by decide) (alnum_decimal _)
  cases part with
  | none =>
    have htext : beginFields name fileSize none = fieldTexts [("line".toList, decimal LINE_LEN),
        ("size".toList, decimal fileSize)] ++ ("name=".toList ++ name) := by
      unfold beginFields fieldTexts
      simp
    rw [htext]
    exact parseHeader_texts (forall_mem_cons.mpr ⟨hl, forall_mem_singleton.mpr hs⟩)
      (by simp) (by simp) hlast (by simp [fieldTexts]) (fieldsFrom_name h)
  | some pt =>
    obtain ⟨p, total⟩ := pt
    have hp : PlainField ("part".toList, decimal p) := plainField (by decide) (alnum_decimal _)
    have ht : PlainField ("total".toList, decimal total) := plainField (by decide) (alnum_decimal _)
    have htext : beginFields name fileSize (some (p, total)) = fieldTexts
        [("part".toList, decimal p), ("total".toList, decimal total),
          ("line".toList, decimal LINE_LEN), ("size".toList, decimal fileSize)] ++
        ("name=".toList ++ name) := by
      unfold beginFields fieldTexts
      simp
    rw [htext]
    exact parseHeader_texts (forall_mem_cons.mpr ⟨hp, forall_mem_cons.mpr ⟨ht,
      forall_mem_cons.mpr ⟨hl, forall_mem_singleton.mpr hs⟩⟩⟩)
      (by simp) (by simp) hlast (by simp [fieldTexts]) (fieldsFrom_name h)

theorem parseHeader_plain {kvs : List (Text × Text)} (hkvs : ∀ kv ∈ kvs, PlainField kv)
    (hk : k ≠ []) (hkv : PlainField (k, v))
    (hfirst : (fieldTexts kvs ++ (k ++ '=' :: v)).head? ≠ some ' ') :
    parseHeader (Rust.encode (fieldTexts kvs ++ (k ++ '=' :: v))) = kvs ++ [(k, v)] := by
  refine parseHeader_texts hkvs (by simp) ?_ ?_ hfirst
    (fieldsFrom_last hkv.1 hkv.2.1 hkv.2.2)
  · intro hc
    obtain ⟨c, k, rfl⟩ := exists_cons_of_ne_nil hk
    exact hkv.1.1 (by simpa using Or.inl (some.inj hc).symm)
  · intro hl
    have hmem := mem_of_getLast? hl
    rcases mem_append.mp hmem with hm | hm
    · exact hkv.1.1 hm
    · rcases mem_cons.mp hm with hm | hm
      · exact absurd hm (by decide)
      · exact hkv.2.2 hm

theorem parseHeader_part (beginAt endAt : Nat) :
    parseHeader (Rust.encode (partFields beginAt endAt)) =
      [("begin".toList, decimal beginAt), ("end".toList, decimal endAt)] := by
  have hb := @plainField "begin".toList _ (by decide) (alnum_decimal beginAt)
  have he := @plainField "end".toList _ (by decide) (alnum_decimal endAt)
  have htext : partFields beginAt endAt = fieldTexts [("begin".toList, decimal beginAt)] ++
      ("end".toList ++ '=' :: decimal endAt) := by
    unfold partFields fieldTexts
    simp
  rw [htext, parseHeader_plain (forall_mem_singleton.mpr hb) (by decide) he (by simp [fieldTexts])]
  rfl

theorem parseHeader_end (len : Nat) (part : Option (Nat × Nat)) (crc : Nat) :
    parseHeader (Rust.encode (endFields len part crc)) = ("size".toList, decimal len) ::
      match part with
      | some (p, _) => [("part".toList, decimal p), ("pcrc32".toList, hexPadded 8 crc)]
      | none => [("crc32".toList, hexPadded 8 crc)] := by
  have hs := @plainField "size".toList _ (by decide) (alnum_decimal len)
  cases part with
  | none =>
    have hc := @plainField "crc32".toList _ (by decide) (alnum_hexPadded 8 crc)
    have htext : endFields len none crc = fieldTexts [("size".toList, decimal len)] ++
        ("crc32".toList ++ '=' :: hexPadded 8 crc) := by
      unfold endFields fieldTexts
      simp
    rw [htext, parseHeader_plain (forall_mem_singleton.mpr hs) (by decide) hc (by simp [fieldTexts])]
    rfl
  | some pt =>
    obtain ⟨p, total⟩ := pt
    have hp := @plainField "part".toList _ (by decide) (alnum_decimal p)
    have hc := @plainField "pcrc32".toList _ (by decide) (alnum_hexPadded 8 crc)
    have htext : endFields len (some (p, total)) crc =
        fieldTexts [("size".toList, decimal len), ("part".toList, decimal p)] ++
          ("pcrc32".toList ++ '=' :: hexPadded 8 crc) := by
      unfold endFields fieldTexts
      simp
    rw [htext, parseHeader_plain (forall_mem_cons.mpr ⟨hs, forall_mem_singleton.mpr hp⟩) (by decide) hc (by simp [fieldTexts])]
    rfl

/-! ## What the fields say -/

theorem num_begin (h : HeaderName name) {fileSize : Nat} (hsize : fileSize < 2 ^ 64)
    (hpart : ∀ p total, part = some (p, total) → p < 2 ^ 32) :
    let fields := Rust.encode (beginFields name fileSize part)
    scalarReader.num fields "size" = some fileSize ∧
      scalarReader.num fields "part" = part.map (·.1) ∧ scalarReader.name fields = some name := by
  have hnum : fromStrRadix 10 (2 ^ 64) (decimal fileSize) = some fileSize :=
    fromStrRadix_decimal hsize
  simp only [scalarReader, num, parseHeader_begin h]
  cases part with
  | none => exact ⟨hnum, rfl, rfl⟩
  | some pt =>
    obtain ⟨p, total⟩ := pt
    have hp := hpart p total rfl
    exact ⟨hnum, fromStrRadix_decimal (lt_trans hp (by decide)), rfl⟩

theorem num_part {beginAt endAt : Nat} (hb : beginAt < 2 ^ 64) (he : endAt < 2 ^ 64) :
    let fields := Rust.encode (partFields beginAt endAt)
    scalarReader.num fields "begin" = some beginAt ∧
      scalarReader.num fields "end" = some endAt := by
  simp only [scalarReader, num, parseHeader_part]
  exact ⟨fromStrRadix_decimal hb, fromStrRadix_decimal he⟩

theorem num_end {len crc : Nat} (hlen : len < 2 ^ 64) (hcrc : crc < 2 ^ 32)
    (hpart : ∀ p total, part = some (p, total) → p < 2 ^ 32) :
    let fields := Rust.encode (endFields len part crc)
    scalarReader.num fields "size" = some len ∧
      scalarReader.num fields "part" = part.map (·.1) ∧
      scalarReader.hex fields "pcrc32" = (if part.isSome then some crc else none) ∧
      scalarReader.hex fields "crc32" = (if part.isSome then none else some crc) := by
  have hnum : fromStrRadix 10 (2 ^ 64) (decimal len) = some len := fromStrRadix_decimal hlen
  have hhex : fromStrRadix 16 (2 ^ 32) (hexPadded 8 crc) = some crc :=
    fromStrRadix_hexPadded 8 hcrc
  simp only [scalarReader, num, hex, parseHeader_end]
  cases part with
  | none => exact ⟨hnum, rfl, rfl, hhex⟩
  | some pt =>
    obtain ⟨p, total⟩ := pt
    have hp := hpart p total rfl
    exact ⟨hnum, fromStrRadix_decimal (lt_trans hp (by decide)), hhex, rfl⟩

/-! ## Scanning the lines -/

theorem headerFields_lit (t kw : List UInt8) (bareOk : Bool) :
    headerFields (lit "=y" ++ t) kw bareOk = (kw.isPrefixOf? t).bind fun t => headerTail t bareOk := by
  rfl

theorem tab_not_mem_encode (h : '\t' ∉ t) : TAB ∉ Rust.encode t := by
  intro hm
  obtain ⟨c, hc, hn⟩ := char_of_mem_encode hm (by decide)
  rw [show c = '\t' from Char.toNat_inj.mp hn] at hc
  exact h hc

theorem headerTail_encode (h : '\t' ∉ t) (bareOk : Bool) :
    headerTail (SP :: Rust.encode t) bareOk = some (Rust.encode t) := by
  refine congrArg some ((map_congr_left fun c hc => ?_).trans (map_id _))
  rw [if_neg]
  · rfl
  · rintro rfl
    exact tab_not_mem_encode h hc

theorem content_headerLine (kw : String) (fields : Text) :
    content (headerLine kw fields ++ [CR]) = headerLine kw fields := by
  rw [content, dropCr_cr]
  rfl

theorem headerFields_self {kw : String} {fields : Text} (h : '\t' ∉ fields) (bareOk : Bool) :
    headerFields (headerLine kw fields) (lit kw) bareOk = some (Rust.encode fields) := by
  rw [headerLine, append_assoc, headerFields_lit,
    isPrefixOf?_eq_some_iff_append_eq.mpr rfl, bind_some, headerTail_encode h]

theorem headerLine_ne_nil (kw : String) (fields : Text) : headerLine kw fields ≠ [] :=
  cons_ne_nil _ _

section Scan

variable {encOk : Bool} {s : Scan} {fields : Text}

theorem scanLine_begin (h : '\t' ∉ fields) :
    scanLine encOk scalarReader (headerLine "begin" fields ++ [CR]) s =
      (s.ybegin scalarReader (Rust.encode fields)).map (·, false) := by
  unfold scanLine
  rw [content_headerLine, if_neg (headerLine_ne_nil _ _), headerFields_self h]

theorem scanLine_part (h : '\t' ∉ fields) :
    scanLine encOk scalarReader (headerLine "part" fields ++ [CR]) s =
      .ok (s.ypart scalarReader (Rust.encode fields), false) := by
  have hbegin : headerFields (headerLine "part" fields) (lit "begin") false = none := rfl
  unfold scanLine
  rw [content_headerLine, if_neg (headerLine_ne_nil _ _), hbegin, headerFields_self h]

theorem scanLine_end (h : '\t' ∉ fields) :
    scanLine encOk scalarReader (headerLine "end" fields ++ [CR]) s =
      .ok (s.yend scalarReader (Rust.encode fields), true) := by
  have hbegin : headerFields (headerLine "end" fields) (lit "begin") false = none := rfl
  have hpart : headerFields (headerLine "end" fields) (lit "part") false = none := rfl
  unfold scanLine
  rw [content_headerLine, if_neg (headerLine_ne_nil _ _), hbegin, hpart, headerFields_self h]

theorem headerFields_payload {l : List UInt8} (h : ¬ lit "=y" <+: l) (kw : List UInt8)
    (bareOk : Bool) : headerFields l kw bareOk = none := by
  unfold headerFields
  cases hp : (lit "=y").isPrefixOf? l with
  | none => rfl
  | some t => exact absurd ⟨t, isPrefixOf?_eq_some_iff_append_eq.mp hp⟩ h

theorem scanLine_payload (hs : s.seenBegin = true) {l : List UInt8} (h : PayloadLine l) :
    scanLine encOk scalarReader (l ++ [CR]) s =
      .ok ({ s with data := s.data ++ decodeLine l }, false) := by
  have hcontent : content (l ++ [CR]) = l := by
    rw [content, dropCr_cr]
    cases l with
    | nil => rfl
    | cons b l => rw [unstuff, if_neg (by simpa using h.dot)]
  have hcontrol : (lit "=y").isPrefixOf l = false := by
    rw [Bool.eq_false_iff]
    exact fun hp => h.control (List.isPrefixOf_iff_prefix.mp hp)
  unfold scanLine
  rw [hcontent]
  by_cases hl : l = []
  · subst hl
    simp [decodeLine]
  · simp only [hl, if_false, headerFields_payload h.control, ite_self, hs, if_true, hcontrol,
      Bool.and_false, Bool.or_false]

theorem scanLines_payload (hs : s.seenBegin = true) {lines : List (List UInt8)}
    (h : ∀ l ∈ lines, PayloadLine l) (rest : List (List UInt8)) :
    scanLines encOk scalarReader (lines.map (· ++ [CR]) ++ rest) s =
      scanLines encOk scalarReader rest { s with data := s.data ++ lines.flatMap decodeLine } := by
  induction lines generalizing s with
  | nil => simp
  | cons l lines ih =>
    have hnext : ({ s with data := s.data ++ decodeLine l } : Scan).seenBegin = true := hs
    rw [map_cons, cons_append, scanLines, scanLine_payload hs (h l (by simp))]
    dsimp only
    rw [ih hnext fun l hl => h l (by simp [hl])]
    simp

end Scan

theorem splitLines_flatMap {lines : List (List UInt8)} (h : ∀ l ∈ lines, PayloadLine l)
    (rest : List UInt8) : splitLines (lines.flatMap (· ++ [CR, LF]) ++ rest) =
      lines.map (· ++ [CR]) ++ splitLines rest := by
  induction lines with
  | nil => rfl
  | cons l lines ih =>
    have hl : LF ∉ l ++ [CR] := by
      have := (h l (by simp)).lf
      simp [this]
      decide
    have htext : (l :: lines).flatMap (· ++ [CR, LF]) ++ rest =
        (l ++ [CR]) ++ LF :: (lines.flatMap (· ++ [CR, LF]) ++ rest) := by
      simp
    rw [htext, splitLines_append hl, ih fun l hl => h l (by simp [hl])]
    rfl

/-! ## The round trip -/

theorem lf_not_mem_headerLine {kw : String} {fields : Text} (hkw : LF ∉ lit kw)
    (h : '\n' ∉ fields) : LF ∉ headerLine kw fields ++ [CR] := by
  have hfields := newline_not_mem_encode h
  intro hm
  simp only [headerLine, mem_append, mem_cons, not_mem_nil, or_false] at hm
  rcases hm with (( hm | hm) | hm | hm) | hm
  · exact absurd hm (by decide)
  · exact hkw hm
  · exact absurd hm (by decide)
  · exact hfields hm
  · exact absurd hm (by decide)

/-- What the fields of a header cannot hold, the name apart. -/
theorem beginFields_not_mem (hname : c ∉ name) (fileSize : Nat) (part : Option (Nat × Nat))
    (hc : c = '\n' ∨ c = '\t') : c ∉ beginFields name fileSize part := by
  have hdec : ∀ n, c ∉ decimal n := fun n =>
    (alnum_decimal n).not_mem (by rcases hc with rfl | rfl <;> rfl)
  unfold beginFields
  rcases hc with rfl | rfl <;> cases part <;> simp [hdec, hname]

theorem partFields_not_mem (beginAt endAt : Nat) (hc : c = '\n' ∨ c = '\t') :
    c ∉ partFields beginAt endAt := by
  have hdec : ∀ n, c ∉ decimal n := fun n =>
    (alnum_decimal n).not_mem (by rcases hc with rfl | rfl <;> rfl)
  unfold partFields
  rcases hc with rfl | rfl <;> simp [hdec]

theorem endFields_not_mem (len : Nat) (part : Option (Nat × Nat)) (crc : Nat)
    (hc : c = '\n' ∨ c = '\t') : c ∉ endFields len part crc := by
  have hdec : ∀ n, c ∉ decimal n := fun n =>
    (alnum_decimal n).not_mem (by rcases hc with rfl | rfl <;> rfl)
  have hhex : ∀ n, c ∉ hexPadded 8 n := fun n =>
    (alnum_hexPadded 8 n).not_mem (by rcases hc with rfl | rfl <;> rfl)
  unfold endFields
  rcases hc with rfl | rfl <;> cases part <;> simp [hdec, hhex]

theorem scanLines_encode {encOk : Bool} (h : HeaderName name) (fileSize : Nat)
    (part : Option (Nat × Nat)) (beginAt : Nat) (data : List UInt8) {s : Scan}
    (hs : Scan.ybegin scalarReader (Rust.encode (beginFields name fileSize part)) {} = .ok s)
    (hseen : s.seenBegin = true) :
    scanLines encOk scalarReader (splitLines (encode name fileSize part beginAt data)) {} =
      let endAt := (beginAt + data.length + (2 ^ 64 - 1)) % 2 ^ 64
      let s := if part.isSome then s.ypart scalarReader (Rust.encode (partFields beginAt endAt))
        else s
      .ok (({ s with data := s.data ++ data } : Scan).yend scalarReader
        (Rust.encode (endFields data.length part (Wire.crc32 data)))) := by
  obtain ⟨lines, hlines, hgood, hdata⟩ := encodePayload_lines data [] 0 (by simp) written_nil
  rw [nil_append] at hlines
  have hend : splitLines (headerLine "end" (endFields data.length part (Wire.crc32 data)) ++
      [CR, LF]) = [headerLine "end" (endFields data.length part (Wire.crc32 data)) ++ [CR], []] := by
    have hsplit := splitLines_append (lf_not_mem_headerLine (show LF ∉ lit "end" by decide)
      (endFields_not_mem data.length part (Wire.crc32 data) (.inl rfl))) []
    rwa [append_assoc] at hsplit
  have hpayload : ∀ {s : Scan}, s.seenBegin = true →
      scanLines encOk scalarReader (splitLines (encodePayload 0 data ++
        headerLine "end" (endFields data.length part (Wire.crc32 data)) ++ [CR, LF])) s =
      .ok (({ s with data := s.data ++ data } : Scan).yend scalarReader
        (Rust.encode (endFields data.length part (Wire.crc32 data)))) := by
    intro s hseen
    rw [append_assoc, hlines, splitLines_flatMap hgood, scanLines_payload hseen hgood, hdata, hend, scanLines,
      scanLine_end (endFields_not_mem _ _ _ (.inr rfl))]
    rfl
  have hfirst : ∀ rest, splitLines (headerLine "begin" (beginFields name fileSize part) ++
      CR :: LF :: rest) = (headerLine "begin" (beginFields name fileSize part) ++ [CR]) ::
        splitLines rest := by
    intro rest
    have hsplit := splitLines_append (lf_not_mem_headerLine (show LF ∉ lit "begin" by decide)
      (beginFields_not_mem h.lf fileSize part (.inl rfl))) rest
    rwa [append_assoc] at hsplit
  unfold encode
  rw [hfirst, scanLines, scanLine_begin (beginFields_not_mem h.tab fileSize part (.inr rfl)), hs]
  dsimp only [Except.map]
  cases part with
  | none =>
    exact hpayload hseen
  | some pt =>
    generalize hendAt : (beginAt + data.length + (2 ^ 64 - 1)) % 2 ^ 64 = endAt
    have hpart : ∀ rest, splitLines (headerLine "part" (partFields beginAt endAt) ++ [CR, LF] ++
        rest) = (headerLine "part" (partFields beginAt endAt) ++ [CR]) :: splitLines rest := by
      intro rest
      have hsplit := splitLines_append (lf_not_mem_headerLine (show LF ∉ lit "part" by decide)
        (partFields_not_mem beginAt endAt (.inl rfl))) rest
      rwa [append_assoc] at hsplit ⊢
    have hnext : (s.ypart scalarReader (Rust.encode (partFields beginAt endAt))).seenBegin = true := by
      rw [seenBegin_ypart, hseen]
    rw [append_assoc _ (encodePayload 0 data), append_assoc _ _ [CR, LF], hpart,
      scanLines, scanLine_part (partFields_not_mem beginAt endAt (.inr rfl))]
    exact hpayload hnext

theorem trailerGates_size {t : Trailer} {d : Declared} (h : t.size = some d.len) :
    (trailerGates t d).len = some d.len ∧ (trailerGates t d).lenWaived = false := by
  simp [trailerGates, h]

def Scan.decodedAt (s : Scan) (beginAt endAt : Nat) : Decoded :=
  { name := s.name, fileSize := s.fileSize, part := declaredPart s.part, beginAt := beginAt,
    endAt := endAt, data := s.data, encryption := s.encryption }

/-- A trailer that says what the article holds. -/
theorem finish_ok {s : Scan} {b e : Nat} (hbegin : s.seenBegin = true) (hend : s.seenYend = true)
    (hpart : s.trailer.part = s.part) (hsize : s.trailer.size = some s.data.length)
    (hcrc : (trailerGates s.trailer s.declared).crc = some (Wire.crc32 s.data))
    (hplace : placePart s.declared false = .ok ⟨b, e, true⟩) :
    finish s = .ok (s.decodedAt b e, true) := by
  have hlen : s.trailer.size = some s.declared.len := hsize
  obtain ⟨hlen, hwaived⟩ := trailerGates_size hlen
  have hgates : finish.finishGates s s.declared = .ok (s.decodedAt b e, true) := by
    unfold finish.finishGates
    dsimp only
    rw [hlen, hwaived, hplace, hcrc]
    simp [declared, decodedAt]
  unfold finish
  rw [hbegin, hend, hpart]
  cases s.part with
  | none => exact hgates
  | some p => simpa using hgates

theorem decodeFramed_encode (h : HeaderName name) {fileSize : Nat} (hsize : fileSize < 2 ^ 64)
    {beginAt : Nat} {data : List UInt8} (hdata : data ≠ []) (hlen : data.length < 2 ^ 64)
    (hpart : ∀ p total, part = some (p, total) → (1 ≤ p ∧ p < 2 ^ 32) ∧ 1 ≤ beginAt ∧ beginAt + data.length - 1 < 2 ^ 64)
    (encOk : Bool) :
    decodeFramed (encode name fileSize part beginAt data) encOk =
      .ok ({ name := name, fileSize := fileSize, part := part.map (·.1),
             beginAt := if part.isSome then beginAt else 1,
             endAt := if part.isSome then beginAt + data.length - 1 else fileSize,
             data := data, encryption := none }, true) := by
  have hpos : 0 < data.length := length_pos_of_ne_nil hdata
  have hp32 : ∀ p total, part = some (p, total) → p < 2 ^ 32 := fun p t hp => (hpart p t hp).1.2
  obtain ⟨hfs, hfp, hfn⟩ := num_begin h hsize hp32
  obtain ⟨hes, hep, hex, hec⟩ := num_end hlen (Wire.crc32_lt data) hp32
  have hu32 : u32Part (part.map (·.1)) = part.map (·.1) := by
    cases part with
    | none => rfl
    | some pt =>
      have := hp32 pt.1 pt.2 rfl
      simp [u32Part]
      omega
  have hbegin : ybegin scalarReader (Rust.encode (beginFields name fileSize part)) {} =
      .ok { name := name, fileSize := fileSize, part := part.map (·.1), endAt := fileSize,
            seenBegin := true } := by
    simp only [ybegin, hfs, hfp, hfn, hu32]
    rfl
  unfold decodeFramed
  rw [scanLines_encode h fileSize part beginAt data hbegin rfl]
  dsimp only [Except.bind]
  cases part with
  | none =>
    rw [@finish_ok _ 1 fileSize rfl rfl]
    · rfl
    · simp only [yend, hep, hu32]
      rfl
    · simp only [yend, hes]
      rfl
    · simp [trailerGates, yend, declared, hex, hec, declaredPart]
    · simp [placePart, yend, declared, pastFirst, declaredPart]
  | some pt =>
    obtain ⟨p, total⟩ := pt
    obtain ⟨⟨hp1, -⟩, hb1, he⟩ := hpart p total rfl
    have hendAt : (beginAt + data.length + (2 ^ 64 - 1)) % 2 ^ 64 = beginAt + data.length - 1 := by
      omega
    rw [hendAt]
    obtain ⟨hpb, hpe⟩ := @num_part beginAt (beginAt + data.length - 1) (by omega) he
    have hypart : ∀ s : Scan, s.seenYpart = false →
        s.ypart scalarReader (Rust.encode (partFields beginAt (beginAt + data.length - 1))) =
        { s with
          data := if s.seenBegin && !s.prePartControl then [] else s.data
          seenYpart := true
          beginDecl := some beginAt
          endDecl := some (beginAt + data.length - 1)
          beginAt := beginAt
          endAt := beginAt + data.length - 1 } := by
      intro s hs
      have he1 : 1 ≤ beginAt + data.length - 1 := by omega
      have hfilter : ∀ n : Nat, 1 ≤ n → (some n).filter (1 ≤ ·) = some n := fun n hn => by simp [hn]
      simp only [ypart, hpb, hpe, hs, hfilter _ hb1, hfilter _ he1, getD_some,
        Bool.not_false, Bool.and_true]
    simp only [isSome_some, if_true]
    rw [hypart _ rfl, @finish_ok _ beginAt (beginAt + data.length - 1) rfl rfl]
    · have hp0 : p ≠ 0 := by omega
      simp [decodedAt, yend, declaredPart, hp0]
    · simp only [yend, hep, hu32]
    · simp only [yend, hes]
      rfl
    · simp [trailerGates, yend, hex, hec]
    · have hle : beginAt ≤ beginAt + data.length - 1 := by omega
      have hcount : beginAt + data.length - 1 - beginAt + 1 = data.length := by omega
      simp [placePart, yend, declared, hle, hcount, hdata]

theorem decodeChecked_framed {body : List UInt8} {encOk : Bool} {r : Decoded × Bool}
    (hbom : stripBom body = body) (h : decodeFramed body encOk = .ok r) :
    decodeChecked body encOk = .ok r := by
  unfold decodeChecked
  dsimp only
  rw [hbom, h]

/-- What was encoded is decoded, whole and vouched for. A single-part post has no range of its
own: it spans the declared file. -/
theorem yenc_round_trip {name : Text} (h : HeaderName name) (fileSize : UInt64)
    (part : Option (UInt32 × UInt32)) (beginAt : UInt64) {data : List UInt8} (hdata : data ≠ [])
    (hlen : data.length < 2 ^ 64)
    (hpart : ∀ p ∈ part, 1 ≤ p.1.toNat ∧ 1 ≤ beginAt.toNat ∧
      beginAt.toNat + data.length - 1 < 2 ^ 64) (encOk : Bool) :
    let body := encode name fileSize.toNat (part.map fun p => (p.1.toNat, p.2.toNat)) beginAt.toNat
      data
    let decoded : Decoded :=
      { name := name, fileSize := fileSize.toNat, part := part.map (·.1.toNat),
        beginAt := if part.isSome then beginAt.toNat else 1,
        endAt := if part.isSome then beginAt.toNat + data.length - 1 else fileSize.toNat,
        data := data, encryption := none }
    decodeChecked body encOk = .ok (decoded, true) ∧ decode body encOk = .ok decoded := by
  have hparts : ∀ p total, (part.map fun p => (p.1.toNat, p.2.toNat)) = some (p, total) →
      (1 ≤ p ∧ p < 2 ^ 32) ∧ 1 ≤ beginAt.toNat ∧ beginAt.toNat + data.length - 1 < 2 ^ 64 := by
    intro p total hp
    obtain ⟨q, hq, heq⟩ := map_eq_some_iff.mp hp
    cases heq
    obtain ⟨h1, hrange⟩ := hpart q hq
    exact ⟨⟨h1, q.1.toNat_lt⟩, hrange⟩
  have hframed := decodeFramed_encode h fileSize.toNat_lt hdata hlen hparts encOk
  rw [Option.map_map, Option.isSome_map] at hframed
  have hchecked := decodeChecked_framed rfl hframed
  exact ⟨hchecked, congrArg (Except.map (Prod.fst : Decoded × Bool → Decoded)) hchecked⟩

theorem headerName_sample : HeaderName "demo, disc 2.bin".toList where
  cr := by decide
  lf := by decide
  tab := by decide
  head := by
    intro c hc
    cases hc
    decide
  last := by
    intro c hc
    cases hc
    decide
  keys := by decide

theorem yenc_round_trip_sample :
    decode (encode "demo, disc 2.bin".toList 3000 (some (2, 3)) 1001 [4, 227, 214, 19, 224, 0])
      false = .ok
      { name := "demo, disc 2.bin".toList, fileSize := 3000, part := some 2, beginAt := 1001,
        endAt := 1006, data := [4, 227, 214, 19, 224, 0], encryption := none } :=
  (yenc_round_trip headerName_sample 3000 (some (2, 3)) 1001 (by decide) (by decide)
    (fun p hp => by cases hp; decide) false).2

end NzbFast.Yenc
