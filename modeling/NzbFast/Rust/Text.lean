import NzbFast.Rust.Utf8
import Mathlib.Tactic

/-!
# Text

A `str` as its list of characters, with the operations a line format is written
and read with: UTF-8 bytes, lines, splitting at a separator, numbers in a radix.
Each writer has its reader beside it and the lemma that the one undoes the
other.
-/

namespace NzbFast.Rust

open List hiding not_lt
open Option

abbrev Text := List Char

instance : LawfulBEq Text := inferInstance

/-! ## Bytes -/

/-- `str::as_bytes`. -/
def encode (t : Text) : List UInt8 := t.flatMap String.utf8EncodeChar

/-- `str::from_utf8`. -/
def decode (b : List UInt8) : Option Text := (fromUtf8 b).map String.toList

theorem encode_append (s t : Text) : encode (s ++ t) = encode s ++ encode t := flatMap_append

theorem encode_eq_asBytes (t : Text) : encode t = asBytes (String.ofList t) := by
  unfold encode asBytes
  rw [String.toByteArray_ofList, utf8Encode]
  simp

theorem decode_encode (t : Text) : decode (encode t) = some t := by
  rw [decode, encode_eq_asBytes, fromUtf8_asBytes, map_some, String.toList_ofList]

variable {c sep : Char} {a t : Text} {n radix : Nat}

theorem toNat_of_mem_utf8EncodeChar {b : UInt8} (h : b ∈ String.utf8EncodeChar c)
    (hb : b.toNat < 128) : c.toNat = b.toNat := by
  unfold String.utf8EncodeChar at h
  dsimp only at h
  have hc : c.val.toNat = c.toNat := rfl
  split at h
  · rw [mem_singleton] at h
    rw [h, UInt8.toNat_ofNat']
    omega
  -- every byte of a longer encoding has its top bit set
  split at h
  · simp only [mem_cons, not_mem_nil, or_false] at h
    rcases h with rfl | rfl <;> rw [UInt8.toNat_ofNat'] at hb <;> omega
  split at h
  · simp only [mem_cons, not_mem_nil, or_false] at h
    rcases h with rfl | rfl | rfl <;> rw [UInt8.toNat_ofNat'] at hb <;> omega
  · simp only [mem_cons, not_mem_nil, or_false] at h
    rcases h with rfl | rfl | rfl | rfl <;> rw [UInt8.toNat_ofNat'] at hb <;> omega

theorem char_of_mem_encode {b : UInt8} (h : b ∈ encode t) (hb : b.toNat < 128) :
    ∃ c ∈ t, c.toNat = b.toNat := by
  obtain ⟨c, hc, hbc⟩ := mem_flatMap.mp h
  exact ⟨c, hc, toNat_of_mem_utf8EncodeChar hbc hb⟩

theorem newline_not_mem_encode (h : '\n' ∉ t) : (0x0A : UInt8) ∉ encode t := by
  intro hm
  obtain ⟨c, hc, hn⟩ := char_of_mem_encode hm (by decide)
  rw [show c = '\n' from Char.toNat_inj.mp hn] at hc
  exact h hc

/-! ## Lines -/

/-- A carriage return before the newline goes with it. -/
def dropCr (l : List UInt8) : List UInt8 := if l.getLast? = some 0x0D then l.dropLast else l

/-- `read_until(b'\n')` to the end of the input, with `cur` read already. The last line may lack
its newline, and then keeps a carriage return. -/
def readLines (cur : List UInt8) : List UInt8 → List (List UInt8)
  | [] => if cur = [] then [] else [cur]
  | b :: bs => if b = 0x0A then dropCr cur :: readLines [] bs else readLines (cur ++ [b]) bs

def utf8Lines (b : List UInt8) : List Text := (readLines [] b).filterMap decode

theorem readLines_newline {l : List UInt8} (h : (0x0A : UInt8) ∉ l) (cur rest : List UInt8) :
    readLines cur (l ++ 0x0A :: rest) = dropCr (cur ++ l) :: readLines [] rest := by
  induction l generalizing cur with
  | nil => simp [readLines]
  | cons b l ih =>
    obtain ⟨hb, hl⟩ := ne_and_not_mem_of_not_mem_cons h
    rw [cons_append, readLines, if_neg fun he => hb he.symm, ih hl]
    simp

/-- A text that a line can hold: no newline in it, no carriage return at its end. -/
structure OneLine (t : Text) : Prop where
  newline : '\n' ∉ t
  cr : t.getLast? ≠ some '\r'

theorem dropCr_encode (h : t.getLast? ≠ some '\r') : dropCr (encode t) = encode t := by
  unfold dropCr
  rw [if_neg]
  intro hl
  rcases eq_nil_or_concat t with rfl | ⟨s, c, rfl⟩
  · cases hl
  rw [concat_eq_append, encode_append, getLast?_append] at hl
  have hne : (encode [c]) ≠ [] := by simp [encode, String.utf8EncodeChar_ne_nil]
  rw [getLast?_eq_some_getLast hne, some_or] at hl
  have hmem : (0x0D : UInt8) ∈ encode [c] := by
    rw [← some.inj hl]
    exact getLast_mem hne
  obtain ⟨c', hc', hn⟩ := char_of_mem_encode hmem (by decide)
  rw [mem_singleton.mp hc'] at hn
  rw [show c = '\r' from Char.toNat_inj.mp hn] at h
  simp at h

theorem utf8Lines_line (h : OneLine t) (rest : List UInt8) :
    utf8Lines (encode t ++ 0x0A :: rest) = t :: utf8Lines rest := by
  unfold utf8Lines
  rw [readLines_newline (newline_not_mem_encode h.newline), nil_append, dropCr_encode h.cr,
    filterMap_cons_some (decode_encode t)]

/-! ## Splitting -/

/-- `str::split_once`. -/
def splitOnce (sep : Char) : Text → Option (Text × Text)
  | [] => none
  | c :: t => if c = sep then some ([], t) else (splitOnce sep t).map fun x => (c :: x.1, x.2)

/-- `str::splitn`: at most `n` pieces, the last one whole. -/
def splitn : Nat → Char → Text → List Text
  | 0, _, _ => []
  | 1, _, t => [t]
  | n + 1, sep, t =>
    match splitOnce sep t with
    | none => [t]
    | some (a, b) => a :: splitn n sep b

/-- `str::split`. -/
def split (sep : Char) : Text → List Text
  | [] => [[]]
  | c :: t =>
    if c = sep then [] :: split sep t
    else
      match split sep t with
      | [] => [[c]]
      | p :: ps => (c :: p) :: ps

theorem splitOnce_append (h : sep ∉ a) (b : Text) :
    splitOnce sep (a ++ sep :: b) = some (a, b) := by
  induction a with
  | nil => simp [splitOnce]
  | cons c a ih =>
    obtain ⟨hc, ha⟩ := ne_and_not_mem_of_not_mem_cons h
    rw [cons_append, splitOnce, if_neg fun he => hc he.symm, ih ha, map_some]

theorem splitn_append (h : sep ∉ a) (n : Nat) (b : Text) :
    splitn (n + 2) sep (a ++ sep :: b) = a :: splitn (n + 1) sep b := by
  rw [splitn, splitOnce_append h]
  intro hn
  omega

theorem split_ne_nil (sep : Char) (t : Text) : split sep t ≠ [] := by
  cases t with
  | nil => simp [split]
  | cons c t =>
    rw [split]
    split
    · simp
    · split <;> simp

theorem split_of_not_mem (h : sep ∉ a) : split sep a = [a] := by
  induction a with
  | nil => rfl
  | cons c a ih =>
    obtain ⟨hc, ha⟩ := ne_and_not_mem_of_not_mem_cons h
    rw [split, if_neg fun he => hc he.symm, ih ha]

theorem split_append (h : sep ∉ a) (b : Text) : split sep (a ++ sep :: b) = a :: split sep b := by
  induction a with
  | nil => simp [split]
  | cons c a ih =>
    obtain ⟨hc, ha⟩ := ne_and_not_mem_of_not_mem_cons h
    rw [cons_append, split, if_neg fun he => hc he.symm, ih ha]

theorem split_cons (h : c ≠ sep) (t : Text) : ∃ p ps, split sep (c :: t) = (c :: p) :: ps := by
  rw [split, if_neg h]
  split
  · exact ⟨[], [], rfl⟩
  · exact ⟨_, _, rfl⟩

theorem two_le_length_split (h : sep ∈ t) : 2 ≤ (split sep t).length := by
  induction t with
  | nil => cases h
  | cons c t ih =>
    rw [split]
    split
    · have := length_pos_iff.mpr (split_ne_nil sep t)
      rw [length_cons]
      omega
    case isFalse hc =>
      have := ih ((mem_cons.mp h).resolve_left fun he => hc he.symm)
      split
      case _ he => rw [he] at this; cases this
      case _ he => rwa [he] at this

theorem intercalate_cons_cons (sep : Char) (s t : Text) (ts : List Text) :
    intercalate [sep] (s :: t :: ts) = s ++ sep :: intercalate [sep] (t :: ts) := by
  simp [intercalate, intersperse]

theorem intercalate_singleton (sep : Char) (t : Text) : intercalate [sep] [t] = t := by
  simp [intercalate]

theorem mem_intercalate {ts : List Text} (h : c ∈ intercalate [sep] ts) :
    c = sep ∨ ∃ t ∈ ts, c ∈ t := by
  induction ts with
  | nil => simp [intercalate] at h
  | cons t ts ih =>
    cases ts with
    | nil =>
      rw [intercalate_singleton] at h
      exact Or.inr ⟨t, by simp, h⟩
    | cons u us =>
      rcases mem_append.mp h with h | h
      · exact Or.inr ⟨t, by simp, h⟩
      rcases mem_cons.mp h with h | h
      · exact Or.inl h
      rcases ih h with h | ⟨x, hx, hc⟩
      · exact Or.inl h
      · exact Or.inr ⟨x, by simp [hx], hc⟩

/-- The fields of a joined line; only the last one may hold the separator. -/
theorem splitn_intercalate {fields : List Text} (h : ∀ t ∈ fields, sep ∉ t) (last : Text) :
    splitn (fields.length + 1) sep (intercalate [sep] (fields ++ [last])) =
      fields ++ [last] := by
  induction fields with
  | nil => rw [nil_append, intercalate_singleton]; rfl
  | cons t fields ih =>
    have hrest := ih fun x hx => h x (by simp [hx])
    obtain ⟨u, us, hu⟩ := exists_cons_of_ne_nil (concat_ne_nil last fields)
    rw [cons_append, length_cons, hu, intercalate_cons_cons, splitn_append (h t (by simp)),
      ← hu, hrest]

theorem split_intercalate {ts : List Text} (hne : ts ≠ []) (h : ∀ t ∈ ts, sep ∉ t) :
    split sep (intercalate [sep] ts) = ts := by
  induction ts with
  | nil => exact absurd rfl hne
  | cons t ts ih =>
    cases ts with
    | nil => rw [intercalate_singleton]; exact split_of_not_mem (h t (by simp))
    | cons u us =>
      have ht := h t (by simp)
      have hrest := ih (by simp) fun x hx => h x (by simp [hx])
      rw [intercalate_cons_cons, split_append ht, hrest]

/-! ## Numbers -/

/-- `char::to_digit`. -/
def digitVal (radix : Nat) (c : Char) : Option Nat :=
  let v := if '0' ≤ c ∧ c ≤ '9' then c.toNat - 48
    else if 'a' ≤ c ∧ c ≤ 'z' then c.toNat - 87
    else if 'A' ≤ c ∧ c ≤ 'Z' then c.toNat - 55
    else radix
  if v < radix then some v else none

/-- The value of a digit string read on from `acc`. -/
def digitsVal (radix : Nat) : Nat → Text → Option Nat
  | acc, [] => some acc
  | acc, c :: t => (digitVal radix c).bind fun v => digitsVal radix (acc * radix + v) t

def dropPlus : Text → Text
  | '+' :: t => t
  | t => t

/-- `from_str_radix` of an unsigned integer below `bound`: a plus sign may lead. -/
def fromStrRadix (radix bound : Nat) (t : Text) : Option Nat :=
  if dropPlus t = [] then none else (digitsVal radix 0 (dropPlus t)).filter (· < bound)

/-- `str::parse::<usize>` and `parse::<u64>`. -/
def parseU64 (t : Text) : Option UInt64 := (fromStrRadix 10 (2 ^ 64) t).map UInt64.ofNat

def parseU32 (t : Text) : Option UInt32 := (fromStrRadix 10 (2 ^ 32) t).map UInt32.ofNat

def parseU8 (t : Text) : Option UInt8 := (fromStrRadix 10 (2 ^ 8) t).map UInt8.ofNat

/-- `{n}`. -/
def decimal (n : Nat) : Text := Nat.toDigits 10 n

/-- `str::parse::<i64>`: a sign may lead. -/
def parseI64 : Text → Option Int
  | '-' :: t => if t = [] then none else
    ((digitsVal 10 0 t).filter (· ≤ 2 ^ 63)).map fun n => -(n : Int)
  | t => (fromStrRadix 10 (2 ^ 63) t).map Int.ofNat

/-- `i64::to_string`. -/
def decimalI64 (n : Int) : Text := if n < 0 then '-' :: decimal n.natAbs else decimal n.natAbs

/-- `{n:x}` at least `width` digits wide, zeros in front. -/
def hexPadded (width n : Nat) : Text := (Nat.toDigits 16 n).leftpad width '0'

theorem digitVal_digitChar (h : n < 16) : digitVal 16 n.digitChar = some n := by
  interval_cases n <;> decide

theorem digitVal_digitChar_ten (h : n < 10) : digitVal 10 n.digitChar = some n := by
  interval_cases n <;> decide

theorem digitsVal_append (radix acc : Nat) (s t : Text) : digitsVal radix acc (s ++ t) =
    (digitsVal radix acc s).bind fun v => digitsVal radix v t := by
  induction s generalizing acc with
  | nil => rfl
  | cons c s ih =>
    rw [cons_append, digitsVal, digitsVal]
    cases digitVal radix c with
    | none => rfl
    | some v => exact ih _

/-- Written digits are read back, by induction on the number of digits. -/
theorem digitsVal_toDigits (hr : 1 < radix) (hd : ∀ n < radix, digitVal radix n.digitChar = some n)
    (n : Nat) : digitsVal radix 0 (Nat.toDigits radix n) = some n := by
  induction n using Nat.strongRecOn with
  | ind n ih =>
    by_cases h : n < radix
    · rw [Nat.toDigits_of_lt_base h, digitsVal, hd n h]
      simp [digitsVal]
    · have hle : radix ≤ n := not_lt.mp h
      rw [Nat.toDigits_of_base_le hr hle, digitsVal_append, ih _ (Nat.div_lt_self (by omega) hr),
        bind_some, digitsVal, hd _ (Nat.mod_lt _ (by omega)), bind_some, digitsVal,
        mul_comm, Nat.div_add_mod]

theorem digitsVal_zeros (radix k : Nat) (hr : digitVal radix '0' = some 0) (t : Text) :
    digitsVal radix 0 (replicate k '0' ++ t) = digitsVal radix 0 t := by
  induction k with
  | zero => rfl
  | succ k ih =>
    rw [replicate_succ, cons_append, digitsVal, hr, bind_some, Nat.zero_mul, add_zero, ih]

def Alnum (t : Text) : Prop := ∀ c ∈ t, c.isAlphanum = true

theorem Alnum.not_mem (h : Alnum t) (hc : c.isAlphanum = false) : c ∉ t := by
  intro hm
  rw [h c hm] at hc
  cases hc

theorem Alnum.append {s : Text} (hs : Alnum s) (ht : Alnum t) : Alnum (s ++ t) := by
  intro c hc
  rcases mem_append.mp hc with hc | hc
  · exact hs c hc
  · exact ht c hc

theorem alnum_digitChar (h : n < 16) : n.digitChar.isAlphanum = true := by
  interval_cases n <;> decide

theorem forall_mem_toDigits {P : Char → Prop} (h1 : 1 < radix) (hP : ∀ d < radix, P d.digitChar)
    (n : Nat) : ∀ c ∈ Nat.toDigits radix n, P c := by
  induction n using Nat.strongRecOn with
  | ind n ih =>
    by_cases h : n < radix
    · rw [Nat.toDigits_of_lt_base h]
      exact forall_mem_singleton.mpr (hP n h)
    · rw [Nat.toDigits_of_base_le h1 (by omega)]
      exact forall_mem_append.mpr ⟨ih _ (Nat.div_lt_self (by omega) h1),
        forall_mem_singleton.mpr (hP _ (Nat.mod_lt _ (by omega)))⟩

theorem alnum_toDigits (h1 : 1 < radix) (h2 : radix ≤ 16) (n : Nat) : Alnum (Nat.toDigits radix n) :=
  forall_mem_toDigits h1 (fun _ hd => alnum_digitChar (hd.trans_le h2)) n

theorem alnum_decimal (n : Nat) : Alnum (decimal n) := alnum_toDigits (by decide) (by decide) n

theorem alnum_hexPadded (width n : Nat) : Alnum (hexPadded width n) := by
  refine Alnum.append (fun c hc => ?_) (alnum_toDigits (by decide) (by decide) n)
  rw [(mem_replicate.mp hc).2]
  decide

theorem decimal_ne_nil (n : Nat) : decimal n ≠ [] := Nat.toDigits_ne_nil

theorem fromStrRadix_of_digits {bound : Nat} (ht : Alnum t) (hne : t ≠ [])
    (hv : digitsVal radix 0 t = some n) (hn : n < bound) : fromStrRadix radix bound t = some n := by
  have hplus : dropPlus t = t := by
    unfold dropPlus
    split
    · have := ht '+' (by simp)
      cases this
    · rfl
  rw [fromStrRadix, hplus, if_neg hne, hv]
  simp [hn]

theorem fromStrRadix_decimal {bound n : Nat} (hn : n < bound) :
    fromStrRadix 10 bound (decimal n) = some n :=
  fromStrRadix_of_digits (alnum_decimal n) (decimal_ne_nil n)
    (digitsVal_toDigits (by decide) (fun _ h => digitVal_digitChar_ten h) n) hn

theorem fromStrRadix_hexPadded {bound : Nat} (width : Nat) (hn : n < bound) :
    fromStrRadix 16 bound (hexPadded width n) = some n := by
  refine fromStrRadix_of_digits (alnum_hexPadded width n) ?_ ?_ hn
  · simp [hexPadded, leftpad]
  · rw [hexPadded, leftpad, digitsVal_zeros 16 _ (by decide)]
    exact digitsVal_toDigits (by decide) (fun _ h => digitVal_digitChar h) n

@[simp] theorem parseU64_decimal (n : UInt64) : parseU64 (decimal n.toNat) = some n := by
  rw [parseU64, fromStrRadix_decimal n.toNat_lt, map_some, UInt64.ofNat_toNat]

@[simp] theorem parseU32_decimal (n : UInt32) : parseU32 (decimal n.toNat) = some n := by
  rw [parseU32, fromStrRadix_decimal n.toNat_lt, map_some, UInt32.ofNat_toNat]

@[simp] theorem parseU8_decimal (n : UInt8) : parseU8 (decimal n.toNat) = some n := by
  rw [parseU8, fromStrRadix_decimal n.toNat_lt, map_some, UInt8.ofNat_toNat]

theorem parseI64_decimalI64 {n : Int} (h0 : 0 ≤ n) (hn : n < 2 ^ 63) :
    parseI64 (decimalI64 n) = some n := by
  have hval : (fromStrRadix 10 (2 ^ 63) (decimal n.natAbs)).map Int.ofNat = some n := by
    rw [fromStrRadix_decimal (by omega), map_some, Int.ofNat_eq_natCast,
      Int.natAbs_of_nonneg h0]
  rw [decimalI64, if_neg (by omega)]
  unfold parseI64
  split
  · rename_i t ht
    have := alnum_decimal n.natAbs '-' (ht ▸ mem_cons_self)
    cases this
  · exact hval

end NzbFast.Rust
