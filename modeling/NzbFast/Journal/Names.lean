import NzbFast.Rust.Text
import Mathlib.Data.List.TakeWhile

/-!
# Output names

`sanitize_filename_for` (`crates/nzbkit-base/src/disk/sanitize.rs`) makes one
path component safe; `sanitize_out_name` (`disk/relpath.rs`) keeps a provably
safe tree and flattens the rest; `disambiguated_out_name`
(`disk/relpath/disambiguate.rs`) tags a name another slot holds. `windows` is
the platform parameter of the source, `sha256` the digest behind the tag of a
shortened component.

A journal line is read back through the sanitizer, so what matters here is its
fixed points: one is a single line of text, and a disambiguated name is one.
-/

namespace NzbFast.Journal

open NzbFast.Rust
open List hiding intercalate_cons_cons intercalate_singleton lt_of_le_of_lt not_lt

/-! ## Characters -/

/-- `char::is_control`: general category Cc. -/
def isControl (c : Char) : Bool := c.toNat < 0x20 || (0x7F ≤ c.toNat && c.toNat ≤ 0x9F)

/-- `char::is_whitespace`: the White_Space property. -/
def isWhitespace (c : Char) : Bool :=
  let n := c.toNat
  (0x09 ≤ n && n ≤ 0x0D) || n == 0x20 || n == 0x85 || n == 0xA0 || n == 0x1680 ||
    (0x2000 ≤ n && n ≤ 0x200A) || n == 0x2028 || n == 0x2029 || n == 0x202F || n == 0x205F ||
    n == 0x3000

/-- General category Cf. -/
def isFormatChar (c : Char) : Bool :=
  [(0x00AD, 0x00AD), (0x0600, 0x0605), (0x061C, 0x061C), (0x06DD, 0x06DD), (0x070F, 0x070F),
    (0x0890, 0x0891), (0x08E2, 0x08E2), (0x180E, 0x180E), (0x200B, 0x200F), (0x202A, 0x202E),
    (0x2060, 0x2064), (0x2066, 0x206F), (0xFEFF, 0xFEFF), (0xFFF9, 0xFFFB), (0x110BD, 0x110BD),
    (0x110CD, 0x110CD), (0x13430, 0x1343F), (0x1BCA0, 0x1BCA3), (0x1D173, 0x1D17A),
    (0xE0001, 0xE0001), (0xE0020, 0xE007F)].any fun r => r.1 ≤ c.toNat && c.toNat ≤ r.2

def unfitChar (windows : Bool) (c : Char) : Bool :=
  c == '/' || c == '\\' || c == '\x00' || (c == ':' && windows) ||
    (windows && ['<', '>', '"', '|', '?', '*'].contains c) ||
    isControl c || isFormatChar c || c.toNat == 0x2028 || c.toNat == 0x2029

def sanitizeChar (windows : Bool) (c : Char) : Char := if unfitChar windows c then '_' else c

/-- `trim_end_matches`. -/
def trimEnd (p : Char → Bool) (t : Text) : Text := (t.reverse.dropWhile p).reverse

/-- `str::trim`. -/
def trim (t : Text) : Text := trimEnd isWhitespace (t.dropWhile isWhitespace)

def isDotOrSpace (c : Char) : Bool := c == '.' || isWhitespace c

/-! ## One component -/

/-- Superscript digits and lower case fold in a device name. -/
def stemChar (c : Char) : Char :=
  if c.toNat = 0xB9 then '1' else if c.toNat = 0xB2 then '2' else if c.toNat = 0xB3 then '3'
  else c.toUpper

/-- The stem before the first dot, as Windows matches device names. -/
def deviceStem (t : Text) : Text :=
  (trimEnd (· == '$') (trim (t.takeWhile (· != '.')))).map stemChar

/-- The reserved DOS device names. -/
def isReserved (stem : Text) : Bool :=
  ["CON", "PRN", "AUX", "NUL", "CLOCK", "CONIN", "CONOUT"].any (·.toList == stem) ||
    match stem with
    | [a, b, c, d] => ([a, b, c] == "COM".toList || [a, b, c] == "LPT".toList) &&
        ('1' ≤ d && d ≤ '9')
    | _ => false

def sanitizeFilenameFor (windows : Bool) (name : Text) : Text :=
  let cleaned := name.map (sanitizeChar windows)
  let trimmed := trimEnd isDotOrSpace (cleaned.dropWhile isWhitespace)
  if trimmed = [] ∨ trimmed.all (· == '.') then "unnamed".toList
  else
    let dots := (trimmed.takeWhile (· == '.')).length
    let trimmed := List.replicate dots '_' ++ trimmed.drop dots
    if isReserved (deviceStem trimmed) then '_' :: trimmed else trimmed

/-! ## Caps -/

/-- `str::len`. -/
def utf8Len (t : Text) : Nat := (t.map Char.utf8Size).sum

def MAX_DEPTH : Nat := 16

def MAX_COMPONENT : Nat := 255

def MAX_TOTAL : Nat := 511

def MAX_EXT : Nat := 17

/-- The longest prefix of at most `n` bytes. -/
def takeBytes : Nat → Text → Text
  | _, [] => []
  | n, c :: t => if c.utf8Size ≤ n then c :: takeBytes (n - c.utf8Size) t else []

/-- The trailing `.ext` a shortened name keeps, if it has one. -/
def extension (s : Text) : Text :=
  let tail := (s.reverse.takeWhile (· != '.')).reverse
  if '.' ∈ s ∧ '.' :: tail ≠ s ∧ utf8Len ('.' :: tail) ≤ MAX_EXT ∧ tail ≠ [] ∧
      tail.all (·.isAlphanum) then
    '.' :: tail
  else []

section Names

variable (sha256 : List UInt8 → List.Vector UInt8 32) (windows : Bool)

/-- The first six bytes of the digest, in hex. -/
def capTag (s : Text) : Text := ((sha256 (encode s)).toList.take 6).flatMap (hexPadded 2 ·.toNat)

def capComponent (s : Text) : Text :=
  if utf8Len s ≤ MAX_COMPONENT then s
  else
    let tag := capTag sha256 s
    let ext := extension s
    takeBytes (MAX_COMPONENT - (utf8Len tag + 1 + utf8Len ext)) s ++ '-' :: tag ++ ext

def component (c : Text) : Text := capComponent sha256 (sanitizeFilenameFor windows c)

def hasDrive : Text → Bool
  | a :: ':' :: _ => a.isAlpha
  | _ => false

/-- One component of a tree; `none` sends the whole name to the flat form. -/
def treeComponent (c : Text) : Option Text :=
  if trim c = [] ∨ (trim c).all (· == '.') then none
  else
    let s := sanitizeFilenameFor windows c
    if s = [] ∨ s = ['.'] ∨ s = ['.', '.'] then none else some (capComponent sha256 s)

def sanitizeRelpathFor (name : Text) : Option Text :=
  if '/' ∉ name ∧ '\\' ∉ name then none
  else
    let norm := name.map fun c => if c = '\\' then '/' else c
    if norm.head? = some '/' then none
    else
      let comps := split '/' norm
      if MAX_DEPTH < comps.length then none
      else if hasDrive (comps.headD []) then none
      else
        (comps.mapM (treeComponent sha256 windows)).bind fun out =>
          let joined := List.intercalate ['/'] out
          if MAX_TOTAL < utf8Len joined then none else some joined

def sanitizeOutName (name : Text) : Text :=
  (sanitizeRelpathFor sha256 windows name).getD (component sha256 windows name)

def disambiguatedOutName (name : Text) (slot retry : Nat) : Text :=
  let tag := (decimal slot).leftpad 3 '0' ++ '-' :: (if retry = 0 then [] else decimal retry ++ ['-'])
  sanitizeOutName sha256 windows (tag ++ name)

end Names

/-! ## Trimming -/

variable {p : Char → Bool} {t : Text} {c : Char}

theorem dropWhile_eq_self (h : ∀ c, t.head? = some c → p c = false) : t.dropWhile p = t := by
  cases t with
  | nil => rfl
  | cons c t => rw [dropWhile_cons, h c rfl]; rfl

theorem trimEnd_eq_self (h : ∀ c, t.getLast? = some c → p c = false) : trimEnd p t = t := by
  unfold trimEnd
  rw [dropWhile_eq_self fun c hc => h c (by rwa [head?_reverse] at hc), reverse_reverse]

theorem getLast_trimEnd (h : (trimEnd p t).getLast? = some c) : p c = false := by
  unfold trimEnd at h
  rw [getLast?_reverse] at h
  have := head?_dropWhile_not p t.reverse
  rw [h] at this
  simpa using this

theorem head_dropWhile (h : (t.dropWhile p).head? = some c) : p c = false := by
  have := head?_dropWhile_not p t
  rw [h] at this
  simpa using this

theorem trimEnd_append (t : Text) : ∃ rest, t = trimEnd p t ++ rest := by
  refine ⟨(t.reverse.takeWhile p).reverse, ?_⟩
  unfold trimEnd
  rw [← reverse_append, takeWhile_append_dropWhile, reverse_reverse]

/-- A character that the trim does not take, and everything before it, stays. -/
theorem mem_trimEnd (h : c ∈ t) (hc : p c = false) : c ∈ trimEnd p t := by
  unfold trimEnd
  rw [mem_reverse]
  have hmem : c ∈ t.reverse := mem_reverse.mpr h
  rw [← takeWhile_append_dropWhile (p := p) (l := t.reverse), mem_append] at hmem
  rcases hmem with hmem | hmem
  · have := all_eq_true.mp all_takeWhile _ hmem
    rw [hc] at this
    cases this
  · exact hmem

/-- A first character that the trim does not take stays first. -/
theorem trimEnd_cons (hc : p c = false) (t : Text) : ∃ r, trimEnd p (c :: t) = c :: r := by
  obtain ⟨rest, hrest⟩ := trimEnd_append (p := p) (c :: t)
  have hmem : c ∈ trimEnd p (c :: t) := mem_trimEnd (by simp) hc
  cases htr : trimEnd p (c :: t) with
  | nil => rw [htr] at hmem; cases hmem
  | cons c' r =>
    rw [htr, cons_append, cons.injEq] at hrest
    exact ⟨r, by rw [hrest.1]⟩

theorem mem_dropWhile (h : c ∈ t) (hc : p c = false) : c ∈ t.dropWhile p := by
  rw [← takeWhile_append_dropWhile (p := p) (l := t), mem_append] at h
  rcases h with h | h
  · have := all_eq_true.mp all_takeWhile _ h
    rw [hc] at this
    cases this
  · exact h

theorem mem_trim (h : c ∈ t) (hc : isWhitespace c = false) : c ∈ trim t :=
  mem_trimEnd (mem_dropWhile h hc) hc

theorem mem_of_mem_trimEnd (h : c ∈ trimEnd p t) : c ∈ t := by
  obtain ⟨rest, hr⟩ := trimEnd_append (p := p) t
  rw [hr]
  exact mem_append_left _ h

/-! ## Settled components -/

/-- A component the sanitizer leaves alone. -/
structure Settled (windows : Bool) (t : Text) : Prop where
  ne : t ≠ []
  fit : ∀ c ∈ t, unfitChar windows c = false
  head : ∀ c, t.head? = some c → isDotOrSpace c = false
  last : ∀ c, t.getLast? = some c → isDotOrSpace c = false
  device : isReserved (deviceStem t) = false

section Component

variable {sha256 : List UInt8 → List.Vector UInt8 32} {windows : Bool}

theorem unfitChar_underscore : unfitChar windows '_' = false := by cases windows <;> decide

theorem unfitChar_sanitizeChar (c : Char) : unfitChar windows (sanitizeChar windows c) = false := by
  unfold sanitizeChar
  split
  · exact unfitChar_underscore
  case isFalse h => simpa using h

/-- A device name is letters and digits. -/
theorem isReserved_alphanum {stem : Text} (h : isReserved stem = true) :
    stem.all Char.isAlphanum = true := by
  unfold isReserved at h
  rw [Bool.or_eq_true] at h
  rcases h with h | h
  · simp only [any_cons, any_nil, Bool.or_false, Bool.or_eq_true, beq_iff_eq] at h
    rcases h with h | h | h | h | h | h | h <;> subst h <;> decide
  · split at h
    · rename_i a b c d
      simp only [Bool.and_eq_true, Bool.or_eq_true, beq_iff_eq, decide_eq_true_eq] at h
      obtain ⟨habc, hd1, hd2⟩ := h
      have hd : d.isAlphanum = true := by
        have hdigit : d.isDigit = true := by
          rw [Char.isDigit, Bool.and_eq_true, decide_eq_true_eq, decide_eq_true_eq]
          exact ⟨Nat.le_trans (by decide) hd1, hd2⟩
        rw [Char.isAlphanum, hdigit, Bool.or_true]
      have hletters : [a, b, c].all Char.isAlphanum = true := by
        rcases habc with habc | habc <;> rw [habc] <;> decide
      rw [show [a, b, c, d] = [a, b, c] ++ [d] from rfl, all_append, hletters, all_cons, hd]
      rfl
    · cases h

variable {c d : Char} {name t : Text}

/-- No character but a letter or a digit is in a device name. -/
theorem not_reserved_of_mem {stem : Text} (hc : c ∈ stem) (hno : c.isAlphanum = false) :
    isReserved stem = false := by
  by_contra h
  have hall := all_eq_true.mp (isReserved_alphanum (by simpa using h)) c hc
  rw [hno] at hall
  cases hall

theorem isWhitespace_of_isDotOrSpace (h : isDotOrSpace c = false) :
    isWhitespace c = false ∧ c ≠ '.' := by
  simp only [isDotOrSpace, Bool.or_eq_false_iff, beq_eq_false_iff_ne] at h
  exact ⟨h.2, h.1⟩

theorem Settled.not_dots (h : Settled windows t) : t.all (· == '.') = false := by
  rcases eq_nil_or_concat t with rfl | ⟨s, c, rfl⟩
  · exact absurd rfl h.ne
  · have hc := (isWhitespace_of_isDotOrSpace (h.last c (by simp))).2
    simp [hc]

theorem sanitizeFilenameFor_settled (h : Settled windows t) :
    sanitizeFilenameFor windows t = t := by
  have hclean : t.map (sanitizeChar windows) = t := by
    refine (map_congr_left fun c hc => ?_).trans (map_id t)
    rw [sanitizeChar, h.fit c hc]
    rfl
  have hstart := dropWhile_eq_self fun c hc => (isWhitespace_of_isDotOrSpace (h.head c hc)).1
  have hend := trimEnd_eq_self h.last
  have hdots : t.takeWhile (· == '.') = [] := by
    obtain ⟨c, s, rfl⟩ := exists_cons_of_ne_nil h.ne
    have hc := (isWhitespace_of_isDotOrSpace (h.head c rfl)).2
    simp [hc]
  unfold sanitizeFilenameFor
  dsimp only
  rw [hclean, hstart, hend, h.not_dots, if_neg (by simp [h.ne]), hdots]
  simp [h.device]

theorem isReserved_underscore (t : Text) : isReserved (deviceStem ('_' :: t)) = false := by
  obtain ⟨r1, h1⟩ := trimEnd_cons (p := isWhitespace) (c := '_') (by decide) (t.takeWhile (· != '.'))
  obtain ⟨r2, h2⟩ := trimEnd_cons (p := (· == '$')) (c := '_') (by decide) r1
  have hstem : deviceStem ('_' :: t) = '_' :: r2.map stemChar := by
    unfold deviceStem trim
    rw [show takeWhile (· != '.') ('_' :: t) = '_' :: t.takeWhile (· != '.') from rfl,
      show dropWhile isWhitespace ('_' :: t.takeWhile (· != '.')) =
        '_' :: t.takeWhile (· != '.') from rfl, h1, h2, map_cons]
    rfl
  rw [hstem]
  exact not_reserved_of_mem (.head _) (by decide)

theorem settled_unnamed : Settled windows "unnamed".toList := by
  have hfit : "unnamed".toList.all (fun c => !unfitChar windows c) = true := by
    cases windows <;> decide
  refine ⟨by decide, fun c hc => ?_, ?_, ?_, by decide⟩
  · simpa using all_eq_true.mp hfit c hc
  · rintro c ⟨⟩
    decide
  · rintro c ⟨⟩
    decide

/-- Whatever the sanitizer returns, it leaves alone the next time. -/
theorem settled_sanitizeFilenameFor (name : Text) :
    Settled windows (sanitizeFilenameFor windows name) := by
  unfold sanitizeFilenameFor
  dsimp only
  generalize htr : trimEnd isDotOrSpace ((name.map (sanitizeChar windows)).dropWhile isWhitespace) = t
  split
  · exact settled_unnamed
  case isFalse hne =>
    rw [not_or] at hne
    have hfit : ∀ c ∈ t, unfitChar windows c = false := by
      intro c hc
      rw [← htr] at hc
      have hc := (dropWhile_sublist _).subset (mem_of_mem_trimEnd hc)
      obtain ⟨c', -, rfl⟩ := mem_map.mp hc
      exact unfitChar_sanitizeChar c'
    have hlast : ∀ c, t.getLast? = some c → isDotOrSpace c = false := by
      intro c hc
      rw [← htr] at hc
      exact getLast_trimEnd hc
    have hstart : ∀ c, t.head? = some c → isWhitespace c = false := by
      intro c hc
      obtain ⟨rest, hrest⟩ := trimEnd_append (p := isDotOrSpace)
        ((name.map (sanitizeChar windows)).dropWhile isWhitespace)
      refine head_dropWhile (p := isWhitespace) (t := name.map (sanitizeChar windows)) ?_
      rw [hrest, htr, head?_append, hc]
      rfl
    have hdrop : t.drop (t.takeWhile (· == '.')).length = t.dropWhile (· == '.') := by
      have hsplit := takeWhile_append_dropWhile (p := (· == '.')) (l := t)
      exact (congrArg _ hsplit.symm).trans drop_left
    have hd : t.dropWhile (· == '.') ≠ [] := by
      intro hnil
      apply hne.2
      rw [all_eq_true]
      exact dropWhile_eq_nil_iff.mp hnil
    have hsettled : isReserved (deviceStem (replicate (t.takeWhile (· == '.')).length '_' ++
          t.dropWhile (· == '.'))) = false →
        Settled windows (replicate (t.takeWhile (· == '.')).length '_' ++
          t.dropWhile (· == '.')) := by
      refine fun hdev => ⟨by simp [hd], fun c hc => ?_, fun c hc => ?_, fun c hc => ?_, hdev⟩
      · rcases mem_append.mp hc with hc | hc
        · rw [(mem_replicate.mp hc).2]; exact unfitChar_underscore
        · exact hfit c ((dropWhile_sublist _).subset hc)
      · cases htw : t.takeWhile (· == '.') with
        | nil =>
          rw [htw, length_nil, replicate_zero, nil_append] at hc
          have hdot := head_dropWhile hc
          rw [← takeWhile_append_dropWhile (p := (· == '.')) (l := t), htw, nil_append]
            at hstart
          simp [isDotOrSpace, hdot, hstart c hc]
        | cons x xs =>
          rw [htw] at hc
          obtain rfl : '_' = c := by simpa [replicate_succ] using hc
          decide
      · refine hlast c ?_
        rw [getLast?_append_of_ne_nil _ hd] at hc
        rw [← takeWhile_append_dropWhile (p := (· == '.')) (l := t),
          getLast?_append_of_ne_nil _ hd]
        exact hc
    rw [hdrop]
    split
    case isTrue =>
      refine ⟨by simp, fun c hc => ?_, fun c hc => ?_, fun c hc => ?_, isReserved_underscore _⟩
      · rcases mem_cons.mp hc with rfl | hc
        · exact unfitChar_underscore
        rcases mem_append.mp hc with hc | hc
        · rw [(mem_replicate.mp hc).2]; exact unfitChar_underscore
        · exact hfit c ((dropWhile_sublist _).subset hc)
      · obtain rfl : '_' = c := by simpa using hc
        decide
      · refine hlast c ?_
        rw [← cons_append, getLast?_append_of_ne_nil _ hd] at hc
        rw [← takeWhile_append_dropWhile (p := (· == '.')) (l := t),
          getLast?_append_of_ne_nil _ hd]
        exact hc
    case isFalse hdev => exact hsettled (by simpa using hdev)

/-! ## Capped components -/

theorem forall_ascii {P : Char → Prop} (h : ∀ n : Fin 128, P (Char.ofNat n)) (hc : c.toNat < 128) :
    P c := by
  have := h ⟨c.toNat, hc⟩
  rwa [Char.ofNat_toNat] at this

theorem alnum_lt (h : c.isAlphanum = true) : c.toNat < 128 := by
  replace h : (decide (c.val ≥ 'A'.val ∧ c.val ≤ 'Z'.val) ||
      (decide (c.val ≥ 'a'.val) && decide (c.val ≤ 'z'.val)) ||
      (decide (c.val ≥ '0'.val) && decide (c.val ≤ '9'.val))) = true := h
  simp only [Bool.or_eq_true, Bool.and_eq_true, decide_eq_true_eq] at h
  rcases h with (⟨_, h⟩ | ⟨_, h⟩) | ⟨_, h⟩
  all_goals exact lt_of_le_of_lt h (by decide)

theorem digit_not_alpha (h : d.isDigit = true) : d.isAlpha = false := by
  have hlt : d.toNat < 128 := alnum_lt (by simp [Char.isAlphanum, h])
  revert h
  exact forall_ascii (P := fun d => d.isDigit = true → d.isAlpha = false) (by decide) hlt

/-- A letter or digit is one byte, fits a name, and stops a trim. -/
theorem alnum_char (windows : Bool) (h : c.isAlphanum = true) :
    c.utf8Size = 1 ∧ unfitChar windows c = false ∧ isDotOrSpace c = false ∧ c ≠ '$' := by
  have hlt := alnum_lt h
  revert h
  cases windows
  · exact forall_ascii (P := fun c => c.isAlphanum = true → c.utf8Size = 1 ∧
      unfitChar false c = false ∧ isDotOrSpace c = false ∧ c ≠ '$') (by decide) hlt
  · exact forall_ascii (P := fun c => c.isAlphanum = true → c.utf8Size = 1 ∧
      unfitChar true c = false ∧ isDotOrSpace c = false ∧ c ≠ '$') (by decide) hlt

theorem utf8Len_append (s t : Text) : utf8Len (s ++ t) = utf8Len s + utf8Len t := by
  simp [utf8Len]

theorem utf8Len_alnum (h : Alnum t) : utf8Len t = t.length := by
  induction t with
  | nil => rfl
  | cons c t ih =>
    have hc := (alnum_char false (h c (by simp))).1
    have ht := ih fun x hx => h x (by simp [hx])
    simp only [utf8Len, map_cons, sum_cons, length_cons] at ht ⊢
    omega

theorem takeBytes_append (n : Nat) (s : Text) : ∃ rest, s = takeBytes n s ++ rest := by
  induction s generalizing n with
  | nil => exact ⟨[], rfl⟩
  | cons c s ih =>
    unfold takeBytes
    split
    · obtain ⟨rest, h⟩ := ih (n - c.utf8Size)
      exact ⟨rest, by rw [cons_append, ← h]⟩
    · exact ⟨c :: s, rfl⟩

theorem utf8Len_takeBytes (n : Nat) (s : Text) : utf8Len (takeBytes n s) ≤ n := by
  induction s generalizing n with
  | nil => exact Nat.zero_le n
  | cons c s ih =>
    unfold takeBytes
    split
    · have := ih (n - c.utf8Size)
      simp only [utf8Len, map_cons, sum_cons] at this ⊢
      omega
    · exact Nat.zero_le n

/-- Room for one character keeps the first one. -/
theorem head_takeBytes {n : Nat} (h : 4 ≤ n) (s : Text) : (takeBytes n s).head? = s.head? := by
  cases s with
  | nil => rfl
  | cons c s =>
    unfold takeBytes
    rw [if_pos (c.utf8Size_le_four.trans h)]
    rfl

theorem hexPadded_two (b : UInt8) : (hexPadded 2 b.toNat).length = 2 := by
  have hlen : (Nat.toDigits 16 b.toNat).length ≤ 2 :=
    (Nat.length_toDigits_le_iff (by decide) (by decide)).2 b.toNat_lt
  simp only [hexPadded, leftpad, length_append, length_replicate]
  omega

theorem capTag_spec (sha256 : List UInt8 → List.Vector UInt8 32) (s : Text) : Alnum (capTag sha256 s) ∧ (capTag sha256 s).length = 12 := by
  constructor
  · intro c hc
    obtain ⟨b, -, hb⟩ := mem_flatMap.mp hc
    exact alnum_hexPadded 2 _ c hb
  · unfold capTag
    rw [length_flatMap, map_congr_left (g := fun _ => 2) fun b _ => hexPadded_two b]
    simp

/-- An extension is a dot and letters and digits, of at most 17 bytes. -/
theorem extension_spec (s : Text) : extension s = [] ∨
    ∃ tail, extension s = '.' :: tail ∧ tail ≠ [] ∧ Alnum tail ∧ utf8Len ('.' :: tail) ≤ MAX_EXT := by
  unfold extension
  dsimp only
  split
  case isTrue h => exact .inr ⟨_, rfl, h.2.2.2.1, all_eq_true.mp h.2.2.2.2, h.2.2.1⟩
  case isFalse => exact .inl rfl

/-- What is cut off still leaves room for two characters. -/
theorem eight_le_budget (sha256 : List UInt8 → List.Vector UInt8 32) (s : Text) :
    8 ≤ MAX_COMPONENT - (utf8Len (capTag sha256 s) + 1 + utf8Len (extension s)) := by
  obtain ⟨htag, hlen⟩ := capTag_spec sha256 s
  have htl := utf8Len_alnum htag
  have hext : utf8Len (extension s) ≤ MAX_EXT := by
    rcases extension_spec s with he | ⟨tail, he, -, -, hl⟩
    · rw [he]; exact Nat.zero_le _
    · rw [he]; exact hl
  simp only [MAX_COMPONENT, MAX_EXT] at *
  omega

/-- What capping composes: a nonempty head of the name, a dash, a tag, an extension. -/
theorem capComponent_cases (sha256 : List UInt8 → List.Vector UInt8 32) (s : Text) : (utf8Len s ≤ MAX_COMPONENT ∧ capComponent sha256 s = s) ∨
    ∃ stem rest tag ext, capComponent sha256 s = stem ++ '-' :: tag ++ ext ∧ s = stem ++ rest ∧
      stem.head? = s.head? ∧ Alnum tag ∧ tag ≠ [] ∧
      (ext = [] ∨ ∃ tail, ext = '.' :: tail ∧ tail ≠ [] ∧ Alnum tail) ∧
      utf8Len (capComponent sha256 s) ≤ MAX_COMPONENT := by
  unfold capComponent
  split
  case isTrue h => exact .inl ⟨h, rfl⟩
  case isFalse h =>
    obtain ⟨htag, hlen⟩ := capTag_spec sha256 s
    have hbudget := eight_le_budget sha256 s
    have hex : extension s = [] ∨ ∃ tail, extension s = '.' :: tail ∧ tail ≠ [] ∧ Alnum tail := by
      rcases extension_spec s with he | ⟨tail, he, hne, ha, -⟩
      · exact .inl he
      · exact .inr ⟨tail, he, hne, ha⟩
    generalize capTag sha256 s = tag at *
    generalize extension s = ext at *
    obtain ⟨rest, hrest⟩ := takeBytes_append (MAX_COMPONENT - (utf8Len tag + 1 + utf8Len ext)) s
    refine Or.inr ⟨_, rest, tag, ext, rfl, hrest, head_takeBytes (by omega) s, htag, ?_,
      hex, ?_⟩
    · intro hnil
      rw [hnil] at hlen
      cases hlen
    · have := utf8Len_takeBytes (MAX_COMPONENT - (utf8Len tag + 1 + utf8Len ext)) s
      rw [utf8Len_append, utf8Len_append]
      have hdash : utf8Len ('-' :: tag) = 1 + utf8Len tag := by
        rfl
      omega

theorem utf8Len_capComponent (sha256 : List UInt8 → List.Vector UInt8 32) (s : Text) : utf8Len (capComponent sha256 s) ≤ MAX_COMPONENT := by
  rcases capComponent_cases sha256 s with ⟨h, he⟩ | ⟨_, _, _, _, _, _, _, _, _, _, h⟩
  · rw [he]; exact h
  · exact h

theorem head_capComponent (sha256 : List UInt8 → List.Vector UInt8 32) (s : Text) : s ≠ [] → (capComponent sha256 s).head? = s.head? := by
  intro hne
  rcases capComponent_cases sha256 s with ⟨-, he⟩ | ⟨stem, _, tag, ext, he, hs, hh, _⟩
  · rw [he]
  · rw [he, append_assoc, head?_append, hh]
    obtain ⟨c, t, rfl⟩ := exists_cons_of_ne_nil hne
    rfl

theorem settled_capComponent {s : Text} (h : Settled windows s) :
    Settled windows (capComponent sha256 s) := by
  have hhead := head_capComponent sha256 s h.ne
  rcases capComponent_cases sha256 s with
    ⟨-, he⟩ | ⟨stem, rest, tag, ext, he, hs, hh, htag, hne, hext, -⟩
  · rw [he]; exact h
  have hstem : stem ≠ [] := by
    rintro rfl
    obtain ⟨c, t, rfl⟩ := exists_cons_of_ne_nil h.ne
    cases hh
  rw [he] at hhead ⊢
  have hlast : ∀ c, (stem ++ '-' :: tag ++ ext).getLast? = some c → c.isAlphanum = true := by
    intro c hc
    have hl : ∀ x : Text, x ≠ [] → Alnum x → x.getLast? = some c → c.isAlphanum = true :=
      fun x _ hx hxc => hx c (mem_of_getLast? hxc)
    rcases hext with rfl | ⟨tail, rfl, htne, htail⟩
    · rw [append_nil, ← singleton_append, ← append_assoc, getLast?_append_of_ne_nil _ hne] at hc
      exact hl tag hne htag hc
    · rw [← singleton_append (x := '.'), ← append_assoc,
        getLast?_append_of_ne_nil _ htne] at hc
      exact hl tail htne htail hc
  refine ⟨by simp [hstem], fun c hc => ?_, fun c hc => h.head c (hhead ▸ hc),
    fun c hc => (alnum_char windows (hlast c hc)).2.2.1, ?_⟩
  · simp only [mem_append, mem_cons] at hc
    rcases hc with (hc | rfl | hc) | hc
    · exact h.fit c (by rw [hs]; exact mem_append_left _ hc)
    · cases windows <;> decide
    · exact (alnum_char windows (htag c hc)).2.1
    · rcases hext with rfl | ⟨tail, rfl, -, htail⟩
      · cases hc
      · rcases mem_cons.mp hc with rfl | hc
        · cases windows <;> decide
        · exact (alnum_char windows (htail c hc)).2.1
  · by_cases hdot : '.' ∈ stem
    · -- the first dot survives the cut, and the stem before it with it
      have hwhile : ∀ x : Text, takeWhile (· != '.') (stem ++ x) =
          takeWhile (· != '.') stem := by
        intro x
        rw [takeWhile_append, if_neg]
        intro hlen
        have hall := all_eq_true.mp (all_takeWhile (l := stem) (p := (· != '.')))
        rw [List.Sublist.eq_of_length ( takeWhile_prefix _).sublist hlen] at hall
        simpa using hall '.' hdot
      have hdev := h.device
      unfold deviceStem at hdev ⊢
      rw [hs, hwhile] at hdev
      rwa [append_assoc, hwhile]
    · have hpos : ∀ c ∈ stem ++ '-' :: tag, (c != '.') = true := by
        intro c hc
        rw [bne_iff_ne]
        rintro rfl
        rcases mem_append.mp hc with hc | hc
        · exact hdot hc
        · rcases mem_cons.mp hc with hc | hc
          · exact absurd hc (by decide)
          · exact absurd (htag _ hc) (by decide)
      refine not_reserved_of_mem (mem_map.mpr ⟨'-', ?_, by decide⟩) (c := '-') (by decide)
      refine mem_trimEnd (mem_trim ?_ (by decide)) (by decide)
      rw [takeWhile_append_of_pos hpos]
      simp

theorem settled_component (c : Text) : Settled windows (component sha256 windows c) :=
  settled_capComponent (settled_sanitizeFilenameFor c)

theorem component_component (c : Text) :
    component sha256 windows (component sha256 windows c) = component sha256 windows c := by
  have hlen : utf8Len (component sha256 windows c) ≤ MAX_COMPONENT := utf8Len_capComponent sha256 _
  rw [component, sanitizeFilenameFor_settled (settled_component c), capComponent, if_pos hlen]

theorem treeComponent_eq {c o : Text} (h : treeComponent sha256 windows c = some o) :
    o = component sha256 windows c := by
  unfold treeComponent at h
  split at h
  · cases h
  dsimp only at h
  split at h
  · cases h
  · exact (Option.some.inj h).symm

theorem treeComponent_component (c : Text) :
    treeComponent sha256 windows (component sha256 windows c) =
      some (component sha256 windows c) := by
  have hs : Settled windows (component sha256 windows c) := settled_component c
  have hc : component sha256 windows (component sha256 windows c) = component sha256 windows c :=
    component_component c
  rw [component, sanitizeFilenameFor_settled hs] at hc
  generalize component sha256 windows c = o at hs hc
  rcases eq_nil_or_concat o with rfl | ⟨s, l, rfl⟩
  · exact absurd rfl hs.ne
  rw [concat_eq_append] at *
  have hl := isWhitespace_of_isDotOrSpace (hs.last l (by simp))
  have hmem : l ∈ trim (s ++ [l]) := mem_trim (by simp) hl.1
  unfold treeComponent
  dsimp only
  rw [if_neg, sanitizeFilenameFor_settled hs, hc, if_neg]
  · rintro (h | h | h)
    · simp at h
    all_goals
      have := congrArg getLast? h
      rw [getLast?_concat] at this
      exact hl.2 (Option.some.inj this)
  · rintro (h | h)
    · rw [h] at hmem; cases hmem
    · exact hl.2 (by simpa using all_eq_true.mp h l hmem)

theorem Settled.no_separator (h : Settled windows t) : '/' ∉ t ∧ '\\' ∉ t := by
  constructor
  all_goals
    intro hm
    have := h.fit _ hm
    cases windows <;> exact absurd this (by decide)

theorem sanitizeRelpathFor_eq {joined : Text}
    (h : sanitizeRelpathFor sha256 windows name = some joined) :
    ∃ comps, 2 ≤ comps.length ∧ comps.length ≤ MAX_DEPTH ∧
      comps = split '/' (name.map fun c => if c = '\\' then '/' else c) ∧
      joined = intercalate ['/'] (comps.map (component sha256 windows)) ∧
      utf8Len joined ≤ MAX_TOTAL := by
  unfold sanitizeRelpathFor at h
  split at h
  · cases h
  case isFalse hsep =>
    dsimp only at h
    split at h
    · cases h
    split at h
    · cases h
    case isFalse hdepth =>
      split at h
      · cases h
      obtain ⟨out, hout, h⟩ := Option.bind_eq_some_iff.mp h
      split at h
      · cases h
      case isFalse htotal =>
        have hmap : out = (split '/' (name.map fun c => if c = '\\' then '/' else c)).map
            (component sha256 windows) := by
          generalize split '/' (name.map fun c => if c = '\\' then '/' else c) = comps at hout
          clear hdepth htotal h
          induction comps generalizing out with
          | nil => cases hout; rfl
          | cons c comps ih =>
            rw [mapM_cons] at hout
            obtain ⟨o, ho, hout⟩ := Option.bind_eq_some_iff.mp hout
            obtain ⟨os, hos, hout⟩ := Option.bind_eq_some_iff.mp hout
            cases hout
            rw [map_cons, ih os hos, treeComponent_eq ho]
        cases h
        refine ⟨_, two_le_length_split ?_, not_lt.mp hdepth, rfl, by rw [hmap], not_lt.mp htotal⟩
        rw [not_and_or, not_not, not_not] at hsep
        rcases hsep with hsep | hsep
        · exact mem_map.mpr ⟨'/', hsep, by decide⟩
        · exact mem_map.mpr ⟨'\\', hsep, by decide⟩

/-- An output name is a component, or components joined by slashes. -/
theorem sanitizeOutName_shape (sha256 : List UInt8 → List.Vector UInt8 32) (windows : Bool)
    (name : Text) : ∃ cs : List Text, cs ≠ [] ∧
    (∀ c ∈ cs, Settled windows c) ∧
    sanitizeOutName sha256 windows name = intercalate ['/'] cs := by
  unfold sanitizeOutName
  cases h : sanitizeRelpathFor sha256 windows name with
  | none =>
    refine ⟨[component sha256 windows name], by simp, fun c hc => ?_,
      (intercalate_singleton '/' _).symm⟩
    rw [mem_singleton.mp hc]
    exact settled_component name
  | some joined =>
    obtain ⟨comps, h2, -, -, hj, -⟩ := sanitizeRelpathFor_eq h
    refine ⟨comps.map (component sha256 windows), ?_, fun c hc => ?_, hj⟩
    · intro hnil
      rw [map_eq_nil_iff.mp hnil] at h2
      cases h2
    · obtain ⟨c', -, rfl⟩ := mem_map.mp hc
      exact settled_component c'

theorem sanitizeOutName_ne_nil (name : Text) : sanitizeOutName sha256 windows name ≠ [] := by
  obtain ⟨cs, hne, hcs, h⟩ := sanitizeOutName_shape sha256 windows name
  obtain ⟨c, cs, rfl⟩ := exists_cons_of_ne_nil hne
  rw [h]
  have hc := (hcs c (by simp)).ne
  cases cs with
  | nil => rwa [intercalate_singleton]
  | cons u us => rw [intercalate_cons_cons]; simp

theorem isControl_sanitizeOutName (h : c ∈ sanitizeOutName sha256 windows name) :
    isControl c = false := by
  obtain ⟨cs, -, hcs, he⟩ := sanitizeOutName_shape sha256 windows name
  rw [he] at h
  rcases mem_intercalate h with rfl | ⟨t, ht, hc⟩
  · decide
  · have := (hcs t ht).fit c hc
    simp only [unfitChar, Bool.or_eq_false_iff] at this
    exact this.1.1.1.2

theorem oneLine_sanitizeOutName (name : Text) : OneLine (sanitizeOutName sha256 windows name) := by
  constructor
  · intro h
    exact absurd (isControl_sanitizeOutName h) (by decide)
  · intro h
    exact absurd (isControl_sanitizeOutName (mem_of_getLast? h)) (by decide)

theorem head_component (sha256 : List UInt8 → List.Vector UInt8 32) (windows : Bool)
    (hd : d.isDigit = true) (t : Text) :
    (component sha256 windows (d :: t)).head? = some d ∨
    (component sha256 windows (d :: t)).head? = some '_' := by
  have ha : d.isAlphanum = true := by simp [Char.isAlphanum, hd]
  obtain ⟨-, hfit, hdot, -⟩ := alnum_char windows ha
  have hds := isWhitespace_of_isDotOrSpace hdot
  rw [component, head_capComponent sha256 _ (settled_sanitizeFilenameFor _).ne]
  unfold sanitizeFilenameFor
  have hclean : (d :: t).map (sanitizeChar windows) = d :: t.map (sanitizeChar windows) := by
    rw [map_cons, sanitizeChar, hfit]
    rfl
  have hstart : (d :: t.map (sanitizeChar windows)).dropWhile isWhitespace =
      d :: t.map (sanitizeChar windows) := by
    rw [dropWhile_cons, hds.1]
    rfl
  dsimp only
  rw [hclean, hstart]
  obtain ⟨r, hr⟩ := trimEnd_cons hdot (t.map (sanitizeChar windows))
  rw [hr]
  have hne : (d == '.') = false := by simpa using hds.2
  rw [if_neg (by simp [hne])]
  have hdots : (d :: r).takeWhile (· == '.') = [] := by simp [hne]
  rw [hdots]
  split
  · exact .inr rfl
  · exact .inl rfl

theorem sanitizeRelpathFor_flat (h : Settled windows name) :
    sanitizeRelpathFor sha256 windows name = none := by
  unfold sanitizeRelpathFor
  rw [if_pos h.no_separator]

theorem head_intercalate {p : Text} {ps : List Text} (hp : p ≠ []) :
    (intercalate ['/'] (p :: ps)).head? = p.head? := by
  cases ps with
  | nil => rw [intercalate_singleton]
  | cons u us => rw [intercalate_cons_cons, head?_append_of_ne_nil _ hp]

theorem norm_joined {cs : List Text} (hset : ∀ c ∈ cs, Settled windows c) :
    (intercalate ['/'] cs).map (fun c => if c = '\\' then '/' else c) =
      intercalate ['/'] cs := by
  refine (map_congr_left fun c hc => ?_).trans (map_id _)
  rcases mem_intercalate hc with rfl | ⟨o, ho, hc⟩
  · rfl
  · rw [if_neg]
    · rfl
    · rintro rfl
      exact (hset o ho).no_separator.2 hc

theorem sanitizeRelpathFor_intercalate {p : Text} {ps : List Text} (hps : ps ≠ [])
    (hdepth : (p :: ps).length ≤ MAX_DEPTH) (hset : ∀ c ∈ p :: ps, Settled windows c)
    (htree : ∀ c ∈ p :: ps, treeComponent sha256 windows c = some c) (hdrive : hasDrive p = false)
    (htotal : utf8Len (intercalate ['/'] (p :: ps)) ≤ MAX_TOTAL) :
    sanitizeRelpathFor sha256 windows (intercalate ['/'] (p :: ps)) =
      some (intercalate ['/'] (p :: ps)) := by
  have hsplit := split_intercalate (by simp) fun o ho => (hset o ho).no_separator.1
  have hmapM : (p :: ps).mapM (treeComponent sha256 windows) = some (p :: ps) := by
    generalize p :: ps = cs at htree
    induction cs with
    | nil => rfl
    | cons c cs ih =>
      rw [mapM_cons, htree c (by simp), ih fun x hx => htree x (by simp [hx])]
      rfl
  have hnorm := norm_joined hset
  have hslash : '/' ∈ intercalate ['/'] (p :: ps) := by
    by_contra hno
    rw [split_of_not_mem hno] at hsplit
    exact hps (cons.inj hsplit).2.symm
  unfold sanitizeRelpathFor
  rw [if_neg fun hno => hno.1 hslash, hnorm, if_neg, hsplit, if_neg (not_lt.mpr hdepth), if_neg,
    hmapM, Option.bind_some, if_neg (not_lt.mpr htotal)]
  · rw [headD_cons, hdrive]
    decide
  · have hp := hset p (by simp)
    rw [head_intercalate hp.ne]
    intro hh
    exact hp.no_separator.1 (mem_of_head? hh)

/-- `comps[0]` of the name. -/
def firstComponent (name : Text) : Text :=
  (split '/' (name.map fun c => if c = '\\' then '/' else c)).headD []

/-- A name settles in one pass, unless it is kept as a tree that starts with a drive. -/
theorem sanitizeOutName_settles
    (hdrive : (sanitizeRelpathFor sha256 windows name).isSome → hasDrive (component sha256 windows (firstComponent name)) = false) :
    sanitizeOutName sha256 windows (sanitizeOutName sha256 windows name) =
      sanitizeOutName sha256 windows name := by
  cases h : sanitizeRelpathFor sha256 windows name with
  | none =>
    have he : sanitizeOutName sha256 windows name = component sha256 windows name := by
      rw [sanitizeOutName, h, Option.getD_none]
    rw [he, sanitizeOutName, sanitizeRelpathFor_flat (settled_component _), Option.getD_none,
      component_component]
  | some joined =>
    have he : sanitizeOutName sha256 windows name = joined := by
      rw [sanitizeOutName, h, Option.getD_some]
    obtain ⟨comps, h2, hdepth, hcomps, hj, htotal⟩ := sanitizeRelpathFor_eq h
    suffices hre : sanitizeRelpathFor sha256 windows joined = some joined by
      rw [he, sanitizeOutName, hre, Option.getD_some]
    have hfirst := hdrive (by rw [h]; rfl)
    rw [firstComponent, ← hcomps] at hfirst
    cases comps with
    | nil => cases h2
    | cons p ps =>
      rw [hj] at htotal ⊢
      refine sanitizeRelpathFor_intercalate ?_ ?_ ?_ ?_ hfirst htotal
      · intro hnil
        rw [map_eq_nil_iff.mp hnil] at h2
        exact absurd h2 (by simp)
      · rw [length_cons, length_map]
        exact hdepth
      · rw [← map_cons]
        intro c hc
        obtain ⟨c', -, rfl⟩ := mem_map.mp hc
        exact settled_component c'
      · rw [← map_cons]
        intro c hc
        obtain ⟨c', -, rfl⟩ := mem_map.mp hc
        exact treeComponent_component c'

theorem sanitizeOutName_idem (hd : d.isDigit = true) (t : Text) :
    sanitizeOutName sha256 windows (sanitizeOutName sha256 windows (d :: t)) =
      sanitizeOutName sha256 windows (d :: t) := by
  refine sanitizeOutName_settles fun _ => ?_
  have hd' : d ≠ '/' ∧ d ≠ '\\' := by
    constructor <;> rintro rfl <;> exact absurd hd (by decide)
  obtain ⟨p, ps, hp⟩ := split_cons hd'.1 (t.map fun c => if c = '\\' then '/' else c)
  rw [firstComponent, map_cons, if_neg hd'.2, hp, headD_cons]
  -- the first component starts with the digit or an underscore
  have hna : ∀ c, (component sha256 windows (d :: p)).head? = some c → c.isAlpha = false := by
    intro c hc
    rcases head_component sha256 windows hd p with hh | hh
    · rw [hh] at hc
      cases hc
      exact digit_not_alpha hd
    · rw [hh] at hc
      cases hc
      decide
  unfold hasDrive
  split
  · rename_i a _ he
    exact hna a (by rw [he]; rfl)
  · rfl

theorem sanitizeOutName_disambiguated (name : Text) (slot retry : Nat) :
    sanitizeOutName sha256 windows (disambiguatedOutName sha256 windows name slot retry) =
      disambiguatedOutName sha256 windows name slot retry := by
  unfold disambiguatedOutName
  have hdigit : ∃ d t, d.isDigit = true ∧ (decimal slot).leftpad 3 '0' = d :: t := by
    cases h : (decimal slot).leftpad 3 '0' with
    | nil => simp [leftpad, decimal_ne_nil] at h
    | cons d t =>
      refine ⟨d, t, ?_, rfl⟩
      have hmem : d ∈ (decimal slot).leftpad 3 '0' := by rw [h]; simp
      rcases mem_append.mp hmem with hmem | hmem
      · rw [(mem_replicate.mp hmem).2]; decide
      · exact Nat.isDigit_of_mem_toDigits (by decide) (by decide) hmem
  obtain ⟨d, t, hd, he⟩ := hdigit
  rw [he]
  exact sanitizeOutName_idem hd _

end Component

end NzbFast.Journal
