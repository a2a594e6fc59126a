import NzbFast.Rust.Lossy
import NzbFast.Yenc.Header

/-!
# The two readers agree

A header line is a sequence of words. Both readers look for the first word that
begins with the key and an equals sign, before the word the name begins with; the
map of the scalar decoder reads them in the text, the scans in the bytes.
-/

namespace NzbFast.Yenc

open NzbFast.Rust Function List

/-! ## Words -/

variable {P : List UInt8 → Prop} {key : String} {a b k rest v w : List UInt8} {t : Text} {x : UInt8}
  {bound radix : Nat}

theorem words_induction (last : ∀ w, SP ∉ w → P w) (more : ∀ w r, SP ∉ w → P r → P (w ++ SP :: r))
    (b : List UInt8) : P b := by
  have hw : ∀ (b w : List UInt8), SP ∉ w → P (w ++ b) ∧ P b := by
    intro b
    induction b with
    | nil =>
      intro w hw
      rw [append_nil]
      exact ⟨last w hw, last [] not_mem_nil⟩
    | cons x b ih =>
      intro w hw
      have hb := (ih [] not_mem_nil).2
      by_cases hx : x = SP
      · rw [hx]
        exact ⟨more w b hw hb, more [] b not_mem_nil hb⟩
      · have hx' : SP ≠ x := fun h => hx h.symm
        have hwx : SP ∉ w ++ [x] := by simp [hw, hx']
        have h1 := (ih (w ++ [x]) hwx).1
        have h2 := (ih [x] (by simp [hx'])).1
        exact ⟨by simpa using h1, h2⟩
  exact (hw b [] not_mem_nil).2

/-- A key of a header line, in bytes and as text. -/
structure Key (key : String) : Prop where
  low : ∀ y ∈ lit key, y < 128
  text : key.toList = (lit key).map ascii
  space : SP ∉ lit key
  eq : EQ ∉ lit key

theorem key_of_mem (h : key ∈ "name" :: HEADER_KEYS) : Key key := by
  have hall : ∀ key ∈ "name" :: HEADER_KEYS,
      (lit key).all (· < 128) = true ∧ key.toList = (lit key).map ascii ∧ SP ∉ lit key ∧
        EQ ∉ lit key := by decide
  obtain ⟨ha, ht, hs, he⟩ := hall key h
  exact ⟨fun y hy => of_decide_eq_true (all_eq_true.mp ha y hy), ht, hs, he⟩

/-! ## The scan of the bytes -/

theorem isPrefixOf?_eq_some : k.isPrefixOf? b = some a ↔ b = k ++ a := by
  induction k generalizing b with
  | nil => simp [isPrefixOf?, eq_comm]
  | cons x k ih =>
    cases b with
    | nil => simp [isPrefixOf?]
    | cons y b =>
      rw [isPrefixOf?]
      split
      case isTrue h => rw [ih, beq_iff_eq.mp h]; simp
      case isFalse h =>
        have hne : ¬ y = x := fun he => h (by simp [he])
        simp [hne]

theorem isPrefixOf?_eq_none : k.isPrefixOf? b = none ↔ ¬ k <+: b := by
  rw [Option.eq_none_iff_forall_ne_some]
  constructor
  · rintro h ⟨a, ha⟩
    exact h a (isPrefixOf?_eq_some.mpr ha.symm)
  · intro h a ha
    exact h ⟨a, (isPrefixOf?_eq_some.mp ha).symm⟩

theorem findKey_token {key : List UInt8} : findKey key true (key ++ EQ :: v) = some ([], v) := by
  have hpre : (key ++ [EQ]).isPrefixOf? (key ++ EQ :: v) = some v :=
    isPrefixOf?_eq_some.mpr (by simp)
  cases hc : key ++ EQ :: v with
  | nil => simp at hc
  | cons x b =>
    rw [hc] at hpre
    rw [findKey, if_pos rfl, hpre]

/-- Inside a word nothing is found. -/
theorem findKey_skip {key : List UInt8} (hw : SP ∉ w) (r : List UInt8) :
    findKey key false w = none ∧ findKey key false (w ++ SP :: r) =
      (findKey key true r).map fun x => (w ++ SP :: x.1, x.2) := by
  induction w with
  | nil => simp [findKey]
  | cons x w ih =>
    obtain ⟨hx, hw⟩ := ne_and_not_mem_of_not_mem_cons hw
    obtain ⟨h1, h2⟩ := ih hw
    have hfresh : decide (x = SP) = false := decide_eq_false fun h => hx h.symm
    constructor
    · rw [findKey, if_neg (by decide), hfresh, h1]
      rfl
    · rw [cons_append, findKey, if_neg (by decide), hfresh, h2]
      simp [comp_def]

theorem findKey_other {key : List UInt8} (hw : SP ∉ w) (hkey : SP ∉ key)
    (hno : ¬ (key ++ [EQ]) <+: w) (r : List UInt8) :
    findKey key true w = none ∧ findKey key true (w ++ SP :: r) =
      (findKey key true r).map fun x => (w ++ SP :: x.1, x.2) := by
  have hlong : ¬ (key ++ [EQ]) <+: w ++ SP :: r := by
    intro h
    rcases prefix_or_prefix_of_prefix h (prefix_append w (SP :: r)) with hp | ⟨s, hs⟩
    · exact hno hp
    · rw [← hs, prefix_append_right_inj] at h
      cases s with
      | nil => exact hno (by rw [← hs, append_nil])
      | cons y s =>
        obtain ⟨rfl, -⟩ := cons_prefix_cons.mp h
        have hmem : SP ∈ key ++ [EQ] := by rw [← hs]; simp
        simp only [mem_append, mem_singleton, hkey, false_or] at hmem
        cases hmem
  cases w with
  | nil =>
    rw [nil_append] at hlong ⊢
    rw [findKey, findKey, if_pos rfl, isPrefixOf?_eq_none.mpr hlong]
    simp
  | cons x w =>
    obtain ⟨hx, hw⟩ := ne_and_not_mem_of_not_mem_cons hw
    obtain ⟨h1, h2⟩ := findKey_skip  hw r
    have hfresh : decide (x = SP) = false := decide_eq_false fun h => hx h.symm
    rw [cons_append] at hlong ⊢
    constructor
    · rw [findKey, if_pos rfl, isPrefixOf?_eq_none.mpr hno, hfresh, h1]
      rfl
    · rw [findKey, if_pos rfl, isPrefixOf?_eq_none.mpr hlong, hfresh, h2]
      simp [comp_def]

def beforeName (rest : List UInt8) : List UInt8 :=
  match findKey (lit "name") true rest with
  | some (before, _) => before
  | none => rest

theorem fieldValue_eq {key : List UInt8} (hkey : key ≠ lit "name") (rest : List UInt8) :
    fieldValue rest key =
      (findKey key true (beforeName rest)).map fun x => x.2.takeWhile (· ≠ SP) := by
  have hrest : (if key = lit "name" then rest else beforeName rest) = beforeName rest :=
    if_neg hkey
  exact congrArg (fun r => (findKey key true r).map fun x => x.2.takeWhile (· ≠ SP)) hrest

theorem keyName : Key "name" := key_of_mem (by decide)

theorem beforeName_name (v : List UInt8) : beforeName (lit "name" ++ EQ :: v) = [] := by
  unfold beforeName
  rw [findKey_token]

theorem beforeName_other (hw : SP ∉ w) (hno : ¬ (lit "name" ++ [EQ]) <+: w) (r : List UInt8) :
    beforeName w = w ∧ beforeName (w ++ SP :: r) = w ++ SP :: beforeName r := by
  obtain ⟨h1, h2⟩ := findKey_other hw keyName.space hno r
  unfold beforeName
  rw [h1, h2]
  cases findKey (lit "name") true r <;> simp

/-- The first word, when it is a token of the key. -/
theorem value_token {key : List UInt8} (hv : SP ∉ v) (r : List UInt8) :
    ((findKey key true (key ++ EQ :: v)).map fun x => x.2.takeWhile (· ≠ SP)) = some v ∧
    ((findKey key true (key ++ EQ :: v ++ SP :: r)).map fun x => x.2.takeWhile (· ≠ SP)) =
      some v := by
  have hall : ∀ y ∈ v, decide (y ≠ SP) = true := by
    intro y hy
    rw [decide_eq_true_eq]
    rintro rfl
    exact hv hy
  rw [append_assoc, cons_append, findKey_token, findKey_token, Option.map_some, Option.map_some]
  constructor
  · rw [takeWhile_eq_self_iff.mpr hall]
  · rw [takeWhile_append_of_pos hall, takeWhile_cons_of_neg (by decide), append_nil]

/-! ## The map of the text -/

theorem fieldsFrom_of_not_mem (h : '=' ∉ t) (n : Nat) : fieldsFrom n t = [] := by
  cases n with
  | zero => rfl
  | succ n =>
    have hnone : splitOnce '=' t = none := by
      induction t with
      | nil => rfl
      | cons c t ih =>
        obtain ⟨hc, ht⟩ := ne_and_not_mem_of_not_mem_cons h
        rw [splitOnce, if_neg fun he => hc he.symm, ih ht]
        rfl
    rw [fieldsFrom, hnone]

theorem lastWord_append (w a : Text) :
    ((w ++ ' ' :: a).reverse.takeWhile (· ≠ ' ')).reverse =
      (a.reverse.takeWhile (· ≠ ' ')).reverse := by
  have htake : ∀ l m : Text, (l ++ ' ' :: m).takeWhile (· ≠ ' ') = l.takeWhile (· ≠ ' ') := by
    intro l m
    induction l with
    | nil => rw [nil_append, takeWhile_cons_of_neg (by decide), takeWhile_nil]
    | cons c l ih => rw [cons_append, takeWhile_cons, takeWhile_cons, ih]
  rw [reverse_append, reverse_cons, append_assoc, singleton_append, htake]

/-- A word without an equals sign is passed by. -/
theorem fieldsFrom_word {w : Text} (heq : '=' ∉ w) (n : Nat) (t : Text) :
    fieldsFrom n (w ++ ' ' :: t) = fieldsFrom n t := by
  cases n with
  | zero => rfl
  | succ n =>
    by_cases ht : '=' ∈ t
    · obtain ⟨a, b, rfl, ha⟩ := eq_append_cons_of_mem ht
      have hwa : '=' ∉ w ++ ' ' :: a := by simp [heq, ha]
      have happ : w ++ ' ' :: (a ++ '=' :: b) = (w ++ ' ' :: a) ++ '=' :: b := by simp
      rw [happ, fieldsFrom, fieldsFrom, splitOnce_append hwa, splitOnce_append ha]
      dsimp only
      rw [lastWord_append]
    · have : '=' ∉ w ++ ' ' :: t := by simp [heq, ht]
      rw [fieldsFrom_of_not_mem this, fieldsFrom_of_not_mem ht]

theorem fieldsFrom_dropSpaces (n : Nat) (t : Text) :
    fieldsFrom n (t.dropWhile (· = ' ')) = fieldsFrom n t := by
  induction t with
  | nil => rfl
  | cons c t ih =>
    rw [dropWhile_cons]
    split
    case isTrue h =>
      rw [ih, of_decide_eq_true h]
      exact (fieldsFrom_word not_mem_nil n t).symm
    case isFalse => rfl

theorem fieldsFrom_nameToken (n : Nat) (v : Text) :
    fieldsFrom (n + 1) ("name".toList ++ '=' :: v) = [("name".toList,
      trimMatches isAsciiWhitespace (nameCut ' ' '=' (HEADER_KEYS.map String.toList) v))] := by
  rfl

/-- Any other field ends with its word. -/
theorem fieldsFrom_token {k v : Text} (hk : ' ' ∉ k ∧ '=' ∉ k) (hv : ' ' ∉ v)
    (hname : k ≠ "name".toList) (n : Nat) (t : Text) :
    fieldsFrom (n + 1) (k ++ '=' :: v) = [(k, v)] ∧
    fieldsFrom (n + 1) (k ++ '=' :: v ++ ' ' :: t) = (k, v) :: fieldsFrom n t := by
  have hword : (k.reverse.takeWhile (· ≠ ' ')).reverse = k := by
    rw [takeWhile_eq_self_iff.mpr, reverse_reverse]
    intro c hc
    rw [decide_eq_true_eq]
    rintro rfl
    exact hk.1 (mem_reverse.mp hc)
  have hvnone : splitOnce ' ' v = none := by
    induction v with
    | nil => rfl
    | cons c v ih =>
      obtain ⟨hc, hv⟩ := ne_and_not_mem_of_not_mem_cons hv
      rw [splitOnce, if_neg fun he => hc he.symm, ih hv]
      rfl
  constructor
  · rw [fieldsFrom, splitOnce_append hk.2]
    dsimp only
    rw [hword, if_neg hname, hvnone]
    rw [fieldsFrom_of_not_mem not_mem_nil]
  · rw [append_assoc, cons_append, fieldsFrom, splitOnce_append hk.2]
    dsimp only
    rw [hword, if_neg hname, splitOnce_append hv]
    rw [fieldsFrom_dropSpaces]

/-! ## Words of the text -/

theorem space_eq : ascii SP = ' ' := by decide

theorem equals_eq : ascii EQ = '=' := by decide

theorem space_mem (b : List UInt8) : ' ' ∈ lossy b ↔ SP ∈ b := by
  rw [← space_eq]
  exact ascii_mem_lossy (by decide) b

theorem equals_mem (b : List UInt8) : '=' ∈ lossy b ↔ EQ ∈ b := by
  rw [← equals_eq]
  exact ascii_mem_lossy (by decide) b

theorem lossy_space (w r : List UInt8) : lossy (w ++ SP :: r) = lossy w ++ ' ' :: lossy r :=
  lossy_append (by decide) w r

theorem lossy_equals (k v : List UInt8) : lossy (k ++ EQ :: v) = lossy k ++ '=' :: lossy v :=
  lossy_append (by decide) k v

theorem Key.lossy_eq (h : Key key) (k : List UInt8) : lossy k = key.toList ↔ k = lit key := by
  rw [h.text]
  exact lossy_eq_map_ascii h.low k

theorem takeWhile_ne_append (ha : x ∉ a) (b : List UInt8) :
    (a ++ x :: b).takeWhile (· ≠ x) = a := by
  rw [takeWhile_append_of_pos, takeWhile_cons_of_neg (by simp), append_nil]
  intro y hy
  rw [decide_eq_true_eq]
  rintro rfl
  exact ha hy

theorem lit_inj {key' : String} : lit key = lit key' ↔ key = key' := by
  refine ⟨fun h => ?_, fun h => congrArg lit h⟩
  have hdec := congrArg decode h
  rw [decode_encode, decode_encode, Option.some_inj] at hdec
  exact String.toList_inj.mp hdec

/-- Lines whose words are `key` in the text exactly when they are in the bytes. -/
structure Legible (key : String) (P : List UInt8 → Prop) : Prop where
  front : ∀ b, P (SP :: b) = P b
  back : ∀ b, P (b ++ [SP]) = P b
  word : ∀ {w r}, SP ∉ w → P (w ++ SP :: r) → P w ∧ P r
  lossy_eq : ∀ {k v}, EQ ∉ k → P (k ++ EQ :: v) → (lossy k = key.toList ↔ k = lit key)

/-- A key without replacement characters is legible in every line. -/
theorem legible_of_text (h : '\uFFFD' ∉ key.toList) :
    Legible key fun _ => True where
  front _ := rfl
  back _ := rfl
  word _ _ := ⟨trivial, trivial⟩
  lossy_eq {k v} _ _ := by
    constructor
    · intro hk
      cases hdec : decode k with
      | none => exact absurd (hk ▸ replacement_of_decode hdec) h
      | some t =>
        rw [lossy_of_decode hdec] at hk
        rw [← encode_of_decode hdec, hk]
    · rintro rfl
      exact lossy_of_decode (decode_encode _)

/-- The text of the bytes is all of them: they are UTF-8. -/
def Utf8 (b : List UInt8) : Prop := encode (lossy b) = b

theorem utf8_of_decode (h : decode b = some t) : Utf8 b := by
  rw [Utf8, lossy_of_decode h]
  exact encode_of_decode h

/-- UTF-8 is UTF-8 on both sides of an ASCII byte. -/
theorem utf8_split (hx : x < 128) (ha : x ∉ a) (h : Utf8 (a ++ x :: b)) : Utf8 a ∧ Utf8 b := by
  have hcat : encode (lossy a) ++ x :: encode (lossy b) = a ++ x :: b := by
    have h' := h
    rw [Utf8, lossy_append hx, encode_append] at h'
    have hcons : encode (ascii x :: lossy b) = String.utf8EncodeChar (ascii x) ++ encode (lossy b) :=
      rfl
    rwa [hcons, encodeChar_ascii hx] at h'
  have hx' : x ∉ encode (lossy a) := by
    intro hmem
    have hxn : x.toNat < 128 := UInt8.lt_iff_toNat_lt.mp hx
    obtain ⟨c, hc, hn⟩ := char_of_mem_encode hmem hxn
    rw [← ascii_toNat hx, Char.toNat_inj] at hn
    exact ha ((ascii_mem_lossy hx a).mp (hn ▸ hc))
  have hfront : encode (lossy a) = a := by
    rw [← takeWhile_ne_append hx' (encode (lossy b)), hcat, takeWhile_ne_append ha]
  rw [hfront, append_cancel_left_eq, cons.injEq] at hcat
  exact ⟨hfront, hcat.2⟩

/-- In a line that is UTF-8 every key is legible. -/
theorem legible_utf8 (key : String) : Legible key Utf8 where
  front b := by
    have hcons : encode (lossy (SP :: b)) = SP :: encode (lossy b) := by
      rw [lossy_cons (by decide)]
      rfl
    rw [Utf8, Utf8, hcons, cons.injEq]
    exact propext (and_iff_right rfl)
  back b := by
    have hcat : encode (lossy (b ++ [SP])) = encode (lossy b) ++ [SP] := by
      rw [lossy_append (by decide), encode_append, lossy_nil]
      rfl
    rw [Utf8, Utf8, hcat, append_cancel_right_eq]
  word hw h := utf8_split (by decide) hw h
  lossy_eq {k v} hk h := by
    have hback := (utf8_split (by decide) hk h).1
    constructor
    · intro hkey
      rw [← hback, hkey]
    · rintro rfl
      exact lossy_of_decode (decode_encode _)

/-- A word is a token of some key, or it has no equals sign. -/
theorem word_cases {w : List UInt8} (hw : SP ∉ w) :
    ('=' ∉ lossy w ∧ ∀ key : List UInt8, ¬ (key ++ [EQ]) <+: w) ∨
      ∃ k v, w = k ++ EQ :: v ∧ EQ ∉ k ∧ SP ∉ k ∧ SP ∉ v := by
  by_cases h : EQ ∈ w
  · obtain ⟨k, v, rfl, hk⟩ := eq_append_cons_of_mem h
    exact .inr ⟨k, v, rfl, hk, fun h => hw (by simp [h]), fun h => hw (by simp [h])⟩
  · exact .inl ⟨by rwa [equals_mem], fun key hkey => h (hkey.subset (by simp))⟩

/-- The key of a token is what precedes its first equals sign. -/
theorem token_iff {key : List UInt8} (hkey : EQ ∉ key) (hk : EQ ∉ k) :
    key ++ [EQ] <+: k ++ EQ :: v ↔ key = k := by
  constructor
  · rintro ⟨r, hr⟩
    rw [append_assoc, singleton_append] at hr
    rw [← takeWhile_ne_append hkey r, hr, takeWhile_ne_append hk]
  · rintro rfl
    exact ⟨v, by simp⟩

/-- A token of a key that is not the name's. -/
theorem other_token (hk : EQ ∉ k) (hksp : SP ∉ k) (hv : SP ∉ v) (hkn : k ≠ lit "name") :
    (¬ (lit "name" ++ [EQ]) <+: k ++ EQ :: v) ∧ lossy k ≠ "name".toList ∧ ∀ m t,
      fieldsFrom (m + 1) (lossy k ++ '=' :: lossy v) = [(lossy k, lossy v)] ∧
      fieldsFrom (m + 1) (lossy k ++ '=' :: lossy v ++ ' ' :: t) = (lossy k, lossy v) :: fieldsFrom m t := by
  have hkn' : lossy k ≠ "name".toList := fun h => hkn ((keyName.lossy_eq k).mp h)
  exact ⟨fun h => hkn ((token_iff keyName.eq hk).mp h).symm, hkn',
    fieldsFrom_token (by rw [space_mem, equals_mem]; exact ⟨hksp, hk⟩) (by rwa [space_mem]) hkn'⟩

theorem lookup_cons_self (k : Text) (v : Text) (kvs : List (Text × Text)) :
    ((k, v) :: kvs).lookup k = some v := by
  rw [lookup_cons, beq_self_eq_true]

theorem lookup_cons_ne {k k' : Text} (h : k' ≠ k) (v : Text) (kvs : List (Text × Text)) :
    ((k, v) :: kvs).lookup k' = kvs.lookup k' := by
  have hbeq : (k' == k) = false := beq_false_of_ne h
  rw [lookup_cons, hbeq]

/-- The map of the text has the value the scan of the bytes finds, by induction on the words. -/
theorem lookup_fieldsFrom (hspace : SP ∉ lit key) (hequals : EQ ∉ lit key) (hkey : Legible key P)
    (hname : key ≠ "name") (b : List UInt8) : P b → ∀ n, (lossy b).length ≤ n →
      (fieldsFrom n (lossy b)).lookup key.toList = (fieldValue b (lit key)).map lossy := by
  have hne : lit key ≠ lit "name" := fun h => hname (lit_inj.mp h)
  have hnameText : key.toList ≠ "name".toList := fun h => hname (String.toList_inj.mp h)
  rw [fieldValue_eq hne]
  induction b using words_induction with
  | last w hw =>
    intro hP n hn
    rcases word_cases hw with ⟨heq, hno⟩ | ⟨k, v, rfl, hk, hksp, hv⟩
    · rw [fieldsFrom_of_not_mem heq, (beforeName_other hw (hno _) []).1,
        (findKey_other hw hspace (hno _) []).1]
      rfl
    obtain ⟨m, rfl⟩ : ∃ m, n = m + 1 := ⟨n - 1, by simp [lossy_equals] at hn; omega⟩
    rw [lossy_equals]
    by_cases hkn : k = lit "name"
    · rw [(keyName.lossy_eq k).mpr hkn, fieldsFrom_nameToken, lookup_cons_ne hnameText, hkn,
        beforeName_name]
      rfl
    obtain ⟨hother, hkn', hfields⟩ := other_token hk hksp hv hkn
    rw [(hfields m []).1, (beforeName_other hw hother []).1]
    by_cases hkk : k = lit key
    · rw [(hkey.lossy_eq hk hP).mpr hkk, lookup_cons_self, hkk, (value_token hv []).1]
      rfl
    · have hno : ¬ (lit key ++ [EQ]) <+: k ++ EQ :: v :=
        fun h => hkk ((token_iff hequals hk).mp h).symm
      rw [lookup_cons_ne fun h => hkk ((hkey.lossy_eq hk hP).mp h.symm),
        (findKey_other hw hspace hno []).1]
      rfl
  | more w r hw ih =>
    intro hP n hn
    obtain ⟨hPw, hPr⟩ := hkey.word hw hP
    rw [lossy_space] at hn ⊢
    have hlen : (lossy r).length < n := by
      rw [length_append, length_cons] at hn
      omega
    rcases word_cases hw with ⟨heq, hno⟩ | ⟨k, v, rfl, hk, hksp, hv⟩
    · rw [fieldsFrom_word heq, (beforeName_other hw (hno _) r).2,
        (findKey_other hw hspace (hno _) _).2, ih hPr n (by omega)]
      simp only [Option.map_map, comp_def]
    obtain ⟨m, rfl⟩ : ∃ m, n = m + 1 := ⟨n - 1, by omega⟩
    rw [lossy_equals]
    by_cases hkn : k = lit "name"
    · rw [(keyName.lossy_eq k).mpr hkn, append_assoc, cons_append, append_assoc,
        cons_append, fieldsFrom_nameToken, lookup_cons_ne hnameText, hkn, beforeName_name]
      rfl
    obtain ⟨hother, hkn', hfields⟩ := other_token hk hksp hv hkn
    rw [(hfields m (lossy r)).2, (beforeName_other hw hother r).2]
    by_cases hkk : k = lit key
    · rw [(hkey.lossy_eq hk hPw).mpr hkk, lookup_cons_self, hkk, (value_token hv _).2]
      rfl
    · have hno : ¬ (lit key ++ [EQ]) <+: k ++ EQ :: v :=
        fun h => hkk ((token_iff hequals hk).mp h).symm
      rw [lookup_cons_ne fun h => hkk ((hkey.lossy_eq hk hPw).mp h.symm),
        (findKey_other hw hspace hno _).2, ih hPr m (by omega)]
      simp only [Option.map_map, comp_def]

/-! ## The name -/

theorem nameCut_word {α : Type} [DecidableEq α] {sp eq : α} {keys : List (List α)} {w : List α}
    (hw : sp ∉ w) (r : List α) : nameCut sp eq keys w = w ∧
      nameCut sp eq keys (w ++ sp :: r) = w ++ nameCut sp eq keys (sp :: r) := by
  induction w with
  | nil => exact ⟨rfl, rfl⟩
  | cons c w ih =>
    obtain ⟨hc, hw⟩ := ne_and_not_mem_of_not_mem_cons hw
    have hno : ∀ l, ¬ (c = sp ∧ keys.any (fun k => (k ++ [eq]).isPrefixOf l) = true) :=
      fun _ h => hc h.1.symm
    constructor
    · rw [nameCut, if_neg (hno w), (ih hw).1]
    · rw [cons_append, nameCut, if_neg (hno _), (ih hw).2, cons_append]

theorem any_key_lossy (r : List UInt8) :
    (HEADER_KEYS.map String.toList).any (fun k => (k ++ ['=']).isPrefixOf (lossy r)) =
      (HEADER_KEYS.map lit).any fun k => (k ++ [EQ]).isPrefixOf r := by
  rw [any_map, any_map]
  have hkeys : ∀ key ∈ HEADER_KEYS, (key.toList ++ ['=']).isPrefixOf (lossy r) =
      (lit key ++ [EQ]).isPrefixOf r := by
    intro key hmem
    have hkey := key_of_mem (mem_cons_of_mem "name" hmem)
    have htext : key.toList ++ ['='] = (lit key ++ [EQ]).map ascii := by
      rw [map_append, ← hkey.text]
      rfl
    have hlow : ∀ y ∈ lit key ++ [EQ], y < 128 := by
      intro y hy
      rcases mem_append.mp hy with hy | hy
      · exact hkey.low y hy
      · rw [mem_singleton.mp hy]
        decide
    rw [Bool.eq_iff_iff, isPrefixOf_iff_prefix, isPrefixOf_iff_prefix, htext, prefix_lossy hlow]
  rw [Bool.eq_iff_iff, any_eq_true, any_eq_true]
  constructor
  · rintro ⟨key, hmem, h⟩
    exact ⟨key, hmem, by rw [comp_apply, ← hkeys key hmem]; exact h⟩
  · rintro ⟨key, hmem, h⟩
    exact ⟨key, hmem, by rw [comp_apply, hkeys key hmem]; exact h⟩

/-- The cut of the text is the text of the cut, by induction on the words. -/
theorem nameCut_lossy (b : List UInt8) : nameCut ' ' '=' (HEADER_KEYS.map String.toList) (lossy b) =
    lossy (nameCut SP EQ (HEADER_KEYS.map lit) b) := by
  induction b using words_induction with
  | last w hw =>
    rw [(nameCut_word hw []).1, (nameCut_word (by rwa [space_mem]) []).1]
  | more w r hw ih =>
    rw [lossy_space, (nameCut_word hw r).2, (nameCut_word (by rwa [space_mem]) _).2, nameCut,
      nameCut, any_key_lossy]
    split
    · rw [if_pos ⟨rfl, (by assumption : _ ∧ _).2⟩, append_nil, append_nil]
    case isFalse h =>
      rw [if_neg fun h' => h ⟨rfl, h'.2⟩, lossy_space, ih]

theorem asciiTest_whitespace : AsciiTest isAsciiWhitespaceByte isAsciiWhitespace where
  ascii y hy := by
    have h : ∀ n : Fin 128, isAsciiWhitespace (ascii (UInt8.ofNat n)) =
        isAsciiWhitespaceByte (UInt8.ofNat n) := by decide
    have := h ⟨y.toNat, UInt8.lt_iff_toNat_lt.mp hy⟩
    rwa [UInt8.ofNat_toNat] at this
  byte y hy := by
    rw [Bool.eq_false_iff]
    intro h
    have hmem := contains_iff_mem.mp h
    simp only [mem_cons, not_mem_nil, or_false] at hmem
    rcases hmem with rfl | rfl | rfl | rfl | rfl <;> exact absurd hy (by decide)
  wide c hc := by
    rw [Bool.eq_false_iff]
    intro h
    have hmem := contains_iff_mem.mp h
    simp only [mem_cons, not_mem_nil, or_false] at hmem
    rcases hmem with rfl | rfl | rfl | rfl | rfl <;> exact absurd hc (by unfold Wide; decide)

theorem asciiTest_space : AsciiTest (· = SP) (· = ' ') where
  ascii y hy := by
    rw [← space_eq, decide_eq_decide]
    exact ascii_inj hy (by decide)
  byte y hy := by
    rw [decide_eq_false_iff_not]
    rintro rfl
    exact absurd hy (by decide)
  wide c hc := by
    rw [decide_eq_false_iff_not, ← space_eq]
    exact hc.ne_ascii (by decide)

theorem trimMatches_lossy {p : UInt8 → Bool} {q : Char → Bool} (h : AsciiTest p q)
    (b : List UInt8) : trimMatches q (lossy b) = lossy (trimMatches p b) := by
  unfold trimMatches
  rw [dropWhile_lossy h]
  exact rdropWhile_lossy h _

theorem lookup_name (b : List UInt8) : ∀ n, (lossy b).length ≤ n →
    (fieldsFrom n (lossy b)).lookup "name".toList = (fieldName b).map lossy := by
  unfold fieldName
  induction b using words_induction with
  | last w hw =>
    intro n hn
    rcases word_cases hw with ⟨heq, hno⟩ | ⟨k, v, rfl, hk, hksp, hv⟩
    · rw [fieldsFrom_of_not_mem heq, (findKey_other hw keyName.space (hno _) []).1]
      rfl
    obtain ⟨m, rfl⟩ : ∃ m, n = m + 1 := ⟨n - 1, by simp [lossy_equals] at hn; omega⟩
    rw [lossy_equals]
    by_cases hkn : k = lit "name"
    · rw [(keyName.lossy_eq k).mpr hkn, fieldsFrom_nameToken, lookup_cons_self, hkn, findKey_token,
        nameCut_lossy, trimMatches_lossy asciiTest_whitespace]
      rfl
    obtain ⟨hno, hkn', hfields⟩ := other_token hk hksp hv hkn
    rw [(hfields m []).1, lookup_cons_ne fun h => hkn' h.symm, (findKey_other hw keyName.space hno []).1]
    rfl
  | more w r hw ih =>
    intro n hn
    rw [lossy_space] at hn ⊢
    have hlen : (lossy r).length < n := by
      rw [length_append, length_cons] at hn
      omega
    rcases word_cases hw with ⟨heq, hno⟩ | ⟨k, v, rfl, hk, hksp, hv⟩
    · rw [fieldsFrom_word heq, (findKey_other hw keyName.space (hno _) _).2,
        ih n (by omega)]
      simp only [Option.map_map, comp_def]
    obtain ⟨m, rfl⟩ : ∃ m, n = m + 1 := ⟨n - 1, by omega⟩
    rw [lossy_equals]
    by_cases hkn : k = lit "name"
    · have happ : lossy k ++ '=' :: lossy v ++ ' ' :: lossy r =
          lossy k ++ '=' :: lossy (v ++ SP :: r) := by
        rw [lossy_space]
        simp
      rw [happ, (keyName.lossy_eq k).mpr hkn, fieldsFrom_nameToken, lookup_cons_self, hkn,
        append_assoc, cons_append, findKey_token, nameCut_lossy,
        trimMatches_lossy asciiTest_whitespace]
      rfl
    obtain ⟨hno, hkn', hfields⟩ := other_token hk hksp hv hkn
    rw [(hfields m (lossy r)).2, lookup_cons_ne fun h => hkn' h.symm,
      (findKey_other hw keyName.space hno _).2, ih m (by omega)]
    simp only [Option.map_map, comp_def]

/-! ## Spaces around the fields -/

theorem trim_invariant {β : Type} {f : List UInt8 → β} (hl : ∀ b, f (SP :: b) = f b)
    (hr : ∀ b, f (b ++ [SP]) = f b) (b : List UInt8) : f (trimMatches (· = SP) b) = f b := by
  have hdrop : ∀ b : List UInt8, f (b.dropWhile (· = SP)) = f b := by
    intro b
    induction b with
    | nil => rfl
    | cons x b ih =>
      rw [dropWhile_cons]
      split
      case isTrue h => rw [ih, of_decide_eq_true h, hl]
      case isFalse => rfl
  have hrdrop : ∀ b : List UInt8, f (b.rdropWhile (· = SP)) = f b := by
    intro b
    induction b using reverseRecOn with
    | nil => rfl
    | append_singleton b x ih =>
      by_cases hx : x = SP
      · rw [rdropWhile_concat_pos _ _ _ (by simpa using hx), ih, hx, hr]
      · rw [rdropWhile_concat_neg _ _ _ (by simpa using hx)]
  exact (hrdrop _).trans (hdrop b)

theorem findKey_space {key : List UInt8} (hkey : SP ∉ key) (b : List UInt8) :
    findKey key true (SP :: b) = (findKey key true b).map fun x => (SP :: x.1, x.2) :=
  (findKey_other not_mem_nil hkey (by simp) b).2

theorem token_prefix_concat {key : List UInt8} (b : List UInt8) :
    key ++ [EQ] <+: b ++ [SP] ↔ key ++ [EQ] <+: b := by
  rw [prefix_concat_iff]
  constructor
  · rintro (h | h)
    · cases (append_inj' h rfl).2
    · exact h
  · exact Or.inr

theorem findKey_concat (key b : List UInt8) (fresh : Bool) : findKey key fresh (b ++ [SP]) =
    (findKey key fresh b).map fun x => (x.1, x.2 ++ [SP]) := by
  induction b generalizing fresh with
  | nil =>
    have hno : (key ++ [EQ]).isPrefixOf? [SP] = none := by
      rw [isPrefixOf?_eq_none, ← nil_append [SP], token_prefix_concat]
      simp
    cases fresh <;> simp [findKey, hno]
  | cons x b ih =>
    have hstep : (key ++ [EQ]).isPrefixOf? (x :: (b ++ [SP])) =
        ((key ++ [EQ]).isPrefixOf? (x :: b)).map (· ++ [SP]) := by
      cases h : (key ++ [EQ]).isPrefixOf? (x :: b) with
      | some a =>
        rw [isPrefixOf?_eq_some] at h
        rw [Option.map_some, isPrefixOf?_eq_some, ← cons_append, h, append_assoc]
      | none =>
        rw [isPrefixOf?_eq_none] at h
        rw [Option.map_none, isPrefixOf?_eq_none, ← cons_append, token_prefix_concat]
        exact h
    rw [cons_append, findKey, findKey, hstep, ih]
    cases fresh with
    | false => simp [comp_def]
    | true => cases (key ++ [EQ]).isPrefixOf? (x :: b) <;> simp [comp_def]

theorem fieldValue_trim (hspace : SP ∉ lit key) (hne : lit key ≠ lit "name") (b : List UInt8) :
    fieldValue (trimMatches (· = SP) b) (lit key) = fieldValue b (lit key) := by
  refine trim_invariant (f := fun b => fieldValue b (lit key)) (fun b => ?_) (fun b => ?_) b
  · have hbefore : beforeName (SP :: b) = SP :: beforeName b :=
      (beforeName_other not_mem_nil (by simp) b).2
    rw [fieldValue_eq hne, fieldValue_eq hne, hbefore, findKey_space hspace]
    simp only [Option.map_map, comp_def]
  · have htake : ∀ l : List UInt8, (l ++ [SP]).takeWhile (· ≠ SP) = l.takeWhile (· ≠ SP) := by
      intro l
      induction l with
      | nil => rfl
      | cons c l ih => rw [cons_append, takeWhile_cons, takeWhile_cons, ih]
    have hbefore : beforeName (b ++ [SP]) = beforeName b ∨
        beforeName (b ++ [SP]) = beforeName b ++ [SP] := by
      unfold beforeName
      rw [findKey_concat]
      cases findKey (lit "name") true b with
      | none => exact .inr rfl
      | some x => exact .inl rfl
    rw [fieldValue_eq hne, fieldValue_eq hne]
    rcases hbefore with h | h
    · rw [h]
    · rw [h, findKey_concat]
      simp only [Option.map_map, comp_def, htake]

theorem nameCut_concat (a : List UInt8) :
    nameCut SP EQ (HEADER_KEYS.map lit) (a ++ [SP]) = nameCut SP EQ (HEADER_KEYS.map lit) a ∨
    nameCut SP EQ (HEADER_KEYS.map lit) (a ++ [SP]) =
      nameCut SP EQ (HEADER_KEYS.map lit) a ++ [SP] := by
  have hany : ∀ a : List UInt8, (HEADER_KEYS.map lit).any
      (fun k => (k ++ [EQ]).isPrefixOf (a ++ [SP])) =
      (HEADER_KEYS.map lit).any fun k => (k ++ [EQ]).isPrefixOf a := by
    intro a
    congr 1
    funext k
    rw [Bool.eq_iff_iff, isPrefixOf_iff_prefix, isPrefixOf_iff_prefix, token_prefix_concat]
  induction a with
  | nil => exact .inr (by decide)
  | cons c a ih =>
    rw [cons_append, nameCut, nameCut, hany]
    split
    · exact .inl rfl
    · rcases ih with h | h
      · exact .inl (by rw [h])
      · exact .inr (by rw [h, cons_append])

theorem trimMatches_concat {p : UInt8 → Bool} (hx : p x = true) (l : List UInt8) :
    trimMatches p (l ++ [x]) = trimMatches p l := by
  have htrim : ∀ l, trimMatches p l = (l.dropWhile p).rdropWhile p := fun _ => rfl
  rw [htrim, htrim, dropWhile_append]
  split
  case isTrue h =>
    rw [isEmpty_iff.mp h, dropWhile_cons_of_pos hx]
    rfl
  case isFalse => rw [rdropWhile_concat_pos _ _ _ hx]

theorem fieldName_trim (b : List UInt8) : fieldName (trimMatches (· = SP) b) = fieldName b := by
  refine trim_invariant (f := fieldName) (fun b => ?_) (fun b => ?_) b
  · unfold fieldName
    rw [findKey_space keyName.space]
    simp only [Option.map_map, comp_def]
  · unfold fieldName
    rw [findKey_concat]
    simp only [Option.map_map, comp_def]
    congr 1
    funext x
    rcases nameCut_concat x.2 with h | h
    · rw [h]
    · rw [h, trimMatches_concat (by decide)]

/-! ## Agreement -/

theorem fromStrRadix_of_replacement (hradix : digitVal radix '\uFFFD' = none) (h : '\uFFFD' ∈ t) :
    fromStrRadix radix bound t = none := by
  have hdigits : ∀ (t : Text) (acc : Nat), '\uFFFD' ∈ t → digitsVal radix acc t = none := by
    intro t
    induction t with
    | nil => intro _ h; cases h
    | cons c t ih =>
      intro acc h
      rw [digitsVal]
      rcases mem_cons.mp h with rfl | h
      · rw [hradix, Option.bind_none]
      · cases digitVal radix c with
        | none => rfl
        | some v => exact ih _ h
  have hplus : '\uFFFD' ∈ dropPlus t := by
    unfold dropPlus
    split
    · rcases mem_cons.mp h with h | h
      · cases h
      · exact h
    · exact h
  rw [fromStrRadix, hdigits _ _ hplus]
  simp

theorem parse_lossy (hradix : digitVal radix '\uFFFD' = none) (v : List UInt8) :
    (decode v).bind (fromStrRadix radix bound) = fromStrRadix radix bound (lossy v) := by
  cases h : decode v with
  | some t => rw [lossy_of_decode h, Option.bind_some]
  | none =>
    rw [fromStrRadix_of_replacement hradix (replacement_of_decode h), Option.bind_none]

theorem parseHeader_eq (rest : List UInt8) : parseHeader rest =
    fieldsFrom (lossy (trimMatches (· = SP) rest)).length (lossy (trimMatches (· = SP) rest)) := by
  unfold parseHeader
  rw [trimMatches_lossy asciiTest_space]

/-- The map of a line that shows the key holds the value the scan of its bytes finds. -/
theorem lookup_of_legible (hspace : SP ∉ lit key) (hequals : EQ ∉ lit key) (hkey : Legible key P)
    (hname : key ≠ "name") (hrest : P rest) :
    (parseHeader rest).lookup key.toList = (fieldValue rest (lit key)).map lossy := by
  have hne : lit key ≠ lit "name" := fun h => hname (lit_inj.mp h)
  have htrim : P (trimMatches (· = SP) rest) := by
    rwa [trim_invariant hkey.front hkey.back]
  rw [parseHeader_eq, lookup_fieldsFrom hspace hequals hkey hname _ htrim _ le_rfl,
    fieldValue_trim hspace hne]

theorem lookup_parseHeader (h : key ∈ HEADER_KEYS) (rest : List UInt8) :
    (parseHeader rest).lookup key.toList = (fieldValue rest (lit key)).map lossy := by
  have hkey := key_of_mem (mem_cons_of_mem "name" h)
  have hall : ∀ key ∈ HEADER_KEYS, key ≠ "name" ∧ '\uFFFD' ∉ key.toList := by decide
  obtain ⟨hname, htext⟩ := hall key h
  exact lookup_of_legible hkey.space hkey.eq (legible_of_text htext) hname trivial

/-- Two readers that read every header line alike. -/
structure FieldReader.Agree (x y : FieldReader) : Prop where
  num : ∀ rest, ∀ key ∈ HEADER_KEYS, x.num rest key = y.num rest key
  hex : ∀ rest, ∀ key ∈ HEADER_KEYS, x.hex rest key = y.hex rest key
  name : ∀ rest, x.name rest = y.name rest

theorem bind_lookup
    (h : (parseHeader rest).lookup key.toList = (fieldValue rest (lit key)).map lossy)
    (hradix : digitVal radix '\uFFFD' = none) :
    ((fieldValue rest (lit key)).bind fun v => (decode v).bind (fromStrRadix radix bound)) =
      ((parseHeader rest).lookup key.toList).bind (fromStrRadix radix bound) := by
  rw [h, Option.bind_map]
  congr 1
  funext v
  exact parse_lossy hradix v

theorem simdReader_num (rest : List UInt8) (key : String) : simdReader.num rest key =
    (fieldValue rest (lit key)).bind fun v => (decode v).bind (fromStrRadix 10 (2 ^ 64)) := by
  unfold simdReader
  unfold fieldU64
  with_reducible rfl

theorem scalarReader_num (rest : List UInt8) (key : String) : scalarReader.num rest key =
    ((parseHeader rest).lookup key.toList).bind (fromStrRadix 10 (2 ^ 64)) := by
  unfold scalarReader
  unfold Yenc.num
  with_reducible rfl

theorem simdReader_hex (rest : List UInt8) (key : String) : simdReader.hex rest key =
    (fieldValue rest (lit key)).bind fun v => (decode v).bind (fromStrRadix 16 (2 ^ 32)) := by
  unfold simdReader
  unfold fieldHex
  with_reducible rfl

theorem scalarReader_hex (rest : List UInt8) (key : String) : scalarReader.hex rest key =
    ((parseHeader rest).lookup key.toList).bind (fromStrRadix 16 (2 ^ 32)) := by
  unfold scalarReader
  unfold Yenc.hex
  with_reducible rfl

theorem readers_agree : simdReader.Agree scalarReader where
  num rest key h := by
    rw [simdReader_num, scalarReader_num, bind_lookup (lookup_parseHeader h rest) (by decide)]
  hex rest key h := by
    rw [simdReader_hex, scalarReader_hex, bind_lookup (lookup_parseHeader h rest) (by decide)]
  name rest := by
    have hmap : (fieldName rest).map lossy = (parseHeader rest).lookup "name".toList := by
      rw [parseHeader_eq, lookup_name _ _ le_rfl, fieldName_trim]
    exact hmap

/-! ## Keys that are no header key -/

/-- For any one word but the name's, the scans read what the map holds. A replacement character in
the key needs a line that is UTF-8: it stands for every broken byte of another. -/
theorem field_readers_agree (rest : List UInt8) {key : String} (hname : key ≠ "name")
    (hspace : SP ∉ lit key) (hequals : EQ ∉ lit key)
    (hshown : '\uFFFD' ∈ key.toList → (decode rest).isSome = true) :
    fieldU64 rest key = num (parseHeader rest) key ∧
      fieldHex rest key = hex (parseHeader rest) key ∧
      (fieldName rest).map (fun v => (fromUtf8Lossy v).toList) =
        (parseHeader rest).lookup "name".toList := by
  have hlookup : (parseHeader rest).lookup key.toList = (fieldValue rest (lit key)).map lossy := by
    by_cases h : '\uFFFD' ∈ key.toList
    · obtain ⟨t, ht⟩ := Option.isSome_iff_exists.mp (hshown h)
      exact lookup_of_legible hspace hequals (legible_utf8 key) hname (utf8_of_decode ht)
    · exact lookup_of_legible hspace hequals (legible_of_text h) hname trivial
  exact ⟨bind_lookup hlookup (by decide), bind_lookup hlookup (by decide), readers_agree.name rest⟩

theorem parseHeader_of_lossy (h : lossy rest = t) :
    parseHeader rest = fieldsFrom (trimMatches (· = ' ') t).length (trimMatches (· = ' ') t) := by
  have ht : (fromUtf8Lossy rest).toList = t := h
  unfold parseHeader
  rw [ht]

theorem lossy_encoded (t : Text) : lossy (encode t) = t := lossy_of_decode (decode_encode t)

theorem fieldU64_of_value {v : Text} (h : fieldValue rest (lit key) = some (encode v)) :
    fieldU64 rest key = fromStrRadix 10 (2 ^ 64) v := by
  unfold fieldU64
  rw [h, Option.bind_some, decode_encode, Option.bind_some]

/-- A line with every kind of field reads alike. -/
theorem field_readers_agree_size :
    fieldU64 (lit "size=7 name=a b") "size" = num (parseHeader (lit "size=7 name=a b")) "size" :=
  (field_readers_agree (lit "size=7 name=a b") (by decide) (by decide) (by decide)
    fun h => absurd h (by decide)).1

/-- The name's own key, a key with a space or an equals sign, and a broken byte read as the key:
each has a line of which one reader takes a number and the other takes none. -/
theorem field_readers_differ :
    fieldU64 (lit "name=5 x") "name" ≠ num (parseHeader (lit "name=5 x")) "name" ∧
      fieldU64 (lit "a b=5") "a b" ≠ num (parseHeader (lit "a b=5")) "a b" ∧
      fieldU64 (lit "a==5") "a=" ≠ num (parseHeader (lit "a==5")) "a=" ∧
      fieldU64 (0xFF :: lit "=5") "\uFFFD" ≠ num (parseHeader (0xFF :: lit "=5")) "\uFFFD" := by
  have hbroken : lossy (0xFF :: lit "=5") = ['\uFFFD', '=', '5'] := by
    have hff : lossy [0xFF] = ['\uFFFD'] := by
      decide
    have hfive : lossy (lit "5") = ['5'] := lossy_encoded _
    have hsplit := lossy_equals [0xFF] (lit "5")
    rwa [hff, hfive] at hsplit
  refine ⟨?_, ?_, ?_, ?_⟩
  · rw [fieldU64_of_value (v := ['5']) (by decide), parseHeader_of_lossy (lossy_encoded _)]
    decide
  · rw [fieldU64_of_value (v := ['5']) (by decide), parseHeader_of_lossy (lossy_encoded _)]
    decide
  · rw [fieldU64_of_value (v := ['5']) (by decide), parseHeader_of_lossy (lossy_encoded _)]
    decide
  · rw [parseHeader_of_lossy hbroken]
    decide

end NzbFast.Yenc
