import NzbFast.Rust.Text
import Mathlib.Data.List.DropRight

/-!
# Lossy text

`String::from_utf8_lossy` seen from its ASCII bytes. An ASCII byte is never part
of a longer character, nor of an ill-formed subpart, so the text splits at it
exactly where the bytes do; the bytes between two of them become characters that
are not ASCII. A reader that looks for ASCII separators therefore finds the same
pieces in the bytes and in the text.
-/

namespace NzbFast.Rust

open UInt8

open List hiding not_le

/-- `String::from_utf8_lossy`, as text. -/
abbrev lossy (b : List UInt8) : Text := (fromUtf8Lossy b).toList

abbrev ascii (x : UInt8) : Char := Char.ofNat x.toNat

/-! ## One character -/

theorem toByteArray_append (l r : List UInt8) :
    l.toByteArray ++ (⟨r.toArray⟩ : ByteArray) = ⟨(l ++ r).toArray⟩ := by
  apply ByteArray.ext
  simp

variable {b bs k : List UInt8} {c : Char} {x : UInt8}

theorem headChar_eq_some :
    ByteArray.utf8DecodeChar? ⟨b.toArray⟩ 0 = some c ↔ String.utf8EncodeChar c <+: b := by
  constructor
  · intro h
    obtain ⟨l, hl⟩ := ByteArray.exists_of_utf8DecodeChar?_eq_some h
    refine ⟨l.data.toList, ?_⟩
    have := congrArg (fun x : ByteArray => x.data.toList) hl
    simpa using this.symm
  · rintro ⟨l, rfl⟩
    rw [← toByteArray_append]
    exact ByteArray.utf8DecodeChar?_utf8EncodeChar_append

theorem ascii_toNat (hx : x < 128) : (ascii x).toNat = x.toNat := by
  have hlt : x.toNat < 128 := lt_iff_toNat_lt.mp hx
  have hvalid : x.toNat.isValidChar := .inl (by omega)
  unfold ascii Char.ofNat
  rw [dif_pos hvalid]
  rfl

theorem ascii_inj {y : UInt8} (hx : x < 128) (hy : y < 128) : ascii x = ascii y ↔ x = y := by
  rw [← Char.toNat_inj, ascii_toNat hx, ascii_toNat hy, UInt8.toNat_inj]

def Wide (c : Char) : Prop := 128 ≤ c.toNat

theorem Wide.ne_ascii (h : Wide c) (hx : x < 128) : c ≠ ascii x := by
  rintro rfl
  unfold Wide at h
  rw [ascii_toNat hx] at h
  have hlt : x.toNat < 128 := lt_iff_toNat_lt.mp hx
  omega

theorem encodeChar_ascii (hx : x < 128) : String.utf8EncodeChar (ascii x) = [x] := by
  have hlt : x.toNat < 128 := lt_iff_toNat_lt.mp hx
  have hc : (ascii x).val.toNat = x.toNat := ascii_toNat hx
  unfold String.utf8EncodeChar
  rw [hc, if_pos (by omega), UInt8.ofNat_toNat]

/-- Every byte of a character that is not ASCII has its top bit set. -/
theorem Wide.bytes (h : Wide c) : ∀ y ∈ String.utf8EncodeChar c, 128 ≤ y := by
  intro y hy
  by_contra hlt
  have hlt : y.toNat < 128 := by
    rw [le_iff_toNat_le] at hlt
    exact not_le.mp hlt
  have := toNat_of_mem_utf8EncodeChar hy hlt
  unfold Wide at h
  omega

/-- A character at the head of the bytes is the head byte itself, or it is not ASCII. -/
theorem headChar_cases {b : UInt8} (h : String.utf8EncodeChar c <+: b :: bs) :
    (b < 128 ∧ c = ascii b) ∨ (128 ≤ b ∧ Wide c) := by
  have hmem : b ∈ String.utf8EncodeChar c := by
    obtain ⟨l, hl⟩ := h
    obtain ⟨y, ys, hy⟩ := exists_cons_of_ne_nil (String.utf8EncodeChar_ne_nil (c := c))
    rw [hy] at hl ⊢
    rw [cons_append, cons.injEq] at hl
    rw [hl.1]
    exact .head _
  by_cases hb : b < 128
  · refine Or.inl ⟨hb, Char.toNat_inj.mp ?_⟩
    rw [ascii_toNat hb, toNat_of_mem_utf8EncodeChar hmem (lt_iff_toNat_lt.mp hb)]
  · refine Or.inr ⟨UInt8.not_lt.mp hb, ?_⟩
    by_contra hw
    unfold Wide at hw
    have hc : ascii (UInt8.ofNat c.toNat) = c := by
      apply Char.toNat_inj.mp
      rw [ascii_toNat]
      · rw [toNat_ofNat']; omega
      · rw [lt_iff_toNat_lt, toNat_ofNat']
        have : (128 : UInt8).toNat = 128 := rfl
        omega
    rw [← hc, encodeChar_ascii] at hmem
    · rw [mem_singleton.mp hmem, lt_iff_toNat_lt, toNat_ofNat'] at hb
      have : (128 : UInt8).toNat = 128 := rfl
      omega
    · rw [lt_iff_toNat_lt, toNat_ofNat']
      have : (128 : UInt8).toNat = 128 := rfl
      omega

/-! ## The loop -/

theorem maximalSubpart_pos (b : UInt8) (bs : List UInt8) : 0 < maximalSubpart (b :: bs) := by
  simp only [maximalSubpart]
  split_ifs <;> decide

@[simp] theorem lossyChars_nil (n : Nat) : lossyChars n [] = [] := by
  cases n <;> rfl

theorem lossyChars_some {b : UInt8} (h : String.utf8EncodeChar c <+: b :: bs) (n : Nat) :
    lossyChars (n + 1) (b :: bs) = c :: lossyChars n ((b :: bs).drop c.utf8Size) := by
  rw [lossyChars, headChar_eq_some.mpr h]

theorem lossyChars_none {b : UInt8} (h : ∀ c, ¬ String.utf8EncodeChar c <+: b :: bs) (n : Nat) :
    lossyChars (n + 1) (b :: bs) =
      '\uFFFD' :: lossyChars n ((b :: bs).drop (maximalSubpart (b :: bs))) := by
  have hnone : ByteArray.utf8DecodeChar? ⟨(b :: bs).toArray⟩ 0 = none := by
    rw [Option.eq_none_iff_forall_ne_some]
    exact fun c hc => h c (headChar_eq_some.mp hc)
  rw [lossyChars, hnone]

/-- One step of the loop: at least one byte goes, and one character comes. -/
theorem lossyChars_cons (b : UInt8) (bs : List UInt8) : ∃ c k, 0 < k ∧ ∀ n,
    lossyChars (n + 1) (b :: bs) = c :: lossyChars n ((b :: bs).drop k) := by
  by_cases h : ∃ c, String.utf8EncodeChar c <+: b :: bs
  · obtain ⟨c, hc⟩ := h
    exact ⟨c, c.utf8Size, c.utf8Size_pos, lossyChars_some hc⟩
  · rw [not_exists] at h
    exact ⟨_, _, maximalSubpart_pos b bs, lossyChars_none h⟩

/-- More fuel than bytes changes nothing. -/
theorem lossyChars_fuel {n : Nat} (h : b.length ≤ n) : lossyChars n b = lossyChars b.length b := by
  induction n using Nat.strongRecOn generalizing b with
  | ind n ih =>
    cases b with
    | nil => simp
    | cons x bs =>
      obtain ⟨c, k, hk, hstep⟩ := lossyChars_cons x bs
      obtain ⟨m, rfl⟩ : ∃ m, n = m + 1 := ⟨n - 1, by simp at h; omega⟩
      rw [length_cons] at h
      have hlen : ((x :: bs).drop k).length ≤ bs.length := by simp; omega
      rw [length_cons, hstep, hstep, ih m (by omega) (by omega)]
      rcases lt_or_ge bs.length (m + 1) with hlt | hge
      · rw [← ih bs.length hlt hlen]
      · omega

theorem lossyChars_encode (t : Text) : lossyChars (encode t).length (encode t) = t := by
  induction t with
  | nil => rfl
  | cons c t ih =>
    have happ : encode (c :: t) = String.utf8EncodeChar c ++ encode t := rfl
    obtain ⟨y, ys, hy⟩ := exists_cons_of_ne_nil (String.utf8EncodeChar_ne_nil (c := c))
    have hcons : encode (c :: t) = y :: (ys ++ encode t) := by rw [happ, hy, cons_append]
    have hpre : String.utf8EncodeChar c <+: y :: (ys ++ encode t) := ⟨encode t, by rw [hy]; rfl⟩
    have hdrop : (y :: (ys ++ encode t)).drop c.utf8Size = encode t := by
      rw [← hcons, happ, ← String.length_utf8EncodeChar, drop_left]
    rw [hcons, length_cons, lossyChars_some hpre, hdrop, lossyChars_fuel (by simp), ih]

theorem encode_of_decode {t : Text} (h : decode b = some t) : encode t = b := by
  obtain ⟨s, hs, rfl⟩ := Option.map_eq_some_iff.mp h
  unfold fromUtf8 String.fromUTF8? at hs
  split at hs
  case isFalse => cases hs
  cases hs
  rw [encode_eq_asBytes, String.ofList_toList]
  rfl

theorem lossy_of_decode {t : Text} (h : decode b = some t) : lossy b = t := by
  obtain ⟨s, hs, rfl⟩ := Option.map_eq_some_iff.mp h
  unfold lossy fromUtf8Lossy
  rw [hs]

theorem lossy_eq (b : List UInt8) : lossy b = lossyChars b.length b := by
  cases h : decode b with
  | some t =>
    rw [lossy_of_decode h, ← encode_of_decode h, lossyChars_encode]
  | none =>
    have hs : fromUtf8 b = none := Option.map_eq_none_iff.mp h
    unfold lossy fromUtf8Lossy
    rw [hs]
    exact String.toList_ofList

/-- What is not UTF-8 shows as a replacement character. -/
theorem replacement_of_decode (h : decode b = none) : '\uFFFD' ∈ lossy b := by
  by_contra hno
  have hback : ∀ (n : Nat) (b : List UInt8), b.length ≤ n → '\uFFFD' ∉ lossyChars n b →
      encode (lossyChars n b) = b := by
    intro n
    induction n with
    | zero =>
      intro b hb _
      rw [length_eq_zero_iff.mp (by omega : b.length = 0)]
      rfl
    | succ n ih =>
      intro b hb hno
      cases b with
      | nil => rfl
      | cons x bs =>
        by_cases hc : ∃ c, String.utf8EncodeChar c <+: x :: bs
        · obtain ⟨c, hc⟩ := hc
          rw [lossyChars_some hc] at hno ⊢
          obtain ⟨-, hrest⟩ := ne_and_not_mem_of_not_mem_cons hno
          have hpos := c.utf8Size_pos
          have hlen : ((x :: bs).drop c.utf8Size).length ≤ n := by
            rw [length_drop]
            omega
          have happ : encode (c :: lossyChars n ((x :: bs).drop c.utf8Size)) =
              String.utf8EncodeChar c ++ encode (lossyChars n ((x :: bs).drop c.utf8Size)) := rfl
          rw [happ, ih _ hlen hrest]
          nth_rewrite 1 [prefix_iff_eq_take.mp hc]
          rw [String.length_utf8EncodeChar, take_append_drop]
        · rw [not_exists] at hc
          rw [lossyChars_none hc] at hno
          exact absurd (.head _) hno
  rw [lossy_eq] at hno
  have := decode_encode (lossyChars b.length b)
  rw [hback b.length b le_rfl hno, h] at this
  cases this

/-! ## Splitting at an ASCII byte -/

theorem not_isContinuation_ascii (hx : x < 128) : isContinuation (some x) = false := by
  have : ∀ n : Fin 128, isContinuation (some (UInt8.ofNat n)) = false := by decide
  have := this ⟨x.toNat, lt_iff_toNat_lt.mp hx⟩
  rwa [UInt8.ofNat_toNat] at this

theorem not_secondInRange_ascii (lead : UInt8) (hx : x < 128) :
    secondInRange lead (some x) = false := by
  have hlo : ∀ y : UInt8, 128 ≤ y → decide (y ≤ x) = false := by
    intro y hy
    rw [decide_eq_false_iff_not, UInt8.not_le]
    exact UInt8.lt_of_lt_of_le hx hy
  unfold secondInRange
  simp only [hlo 0xA0 (by decide), hlo 0x80 (by decide), hlo 0x90 (by decide), Bool.false_and]
  split_ifs <;> rfl

theorem maximalSubpart_append (a : List UInt8) (y : UInt8) (hx : x < 128) (b : List UInt8) :
    maximalSubpart (y :: a ++ x :: b) = maximalSubpart (y :: a) := by
  have hsec := not_secondInRange_ascii y hx
  have hcont := not_isContinuation_ascii hx
  have hsecNone : secondInRange y none = false := rfl
  have hcontNone : isContinuation none = false := rfl
  cases a with
  | nil => simp [maximalSubpart, hsec, hsecNone]
  | cons z a =>
    cases a with
    | nil => simp [maximalSubpart, hcont, hcontNone]
    | cons w a => simp [maximalSubpart]

theorem maximalSubpart_le (y : UInt8) (a : List UInt8) :
    maximalSubpart (y :: a) ≤ (y :: a).length := by
  have hnone : ∀ lead, secondInRange lead none = false := fun _ => rfl
  have hcont : isContinuation none = false := rfl
  cases a with
  | nil => simp [maximalSubpart, hnone]
  | cons z a =>
    cases a with
    | nil =>
      simp only [maximalSubpart, getElem?_cons_zero, getElem?_cons_succ,
        getElem?_nil, hcont, length_cons, length_nil]
      split_ifs <;> simp_all
    | cons w a =>
      simp only [maximalSubpart, length_cons]
      split_ifs <;> omega

/-- A character that fits before an ASCII byte fits without it. -/
theorem prefix_of_prefix_append {a : List UInt8} {y : UInt8} (hx : x < 128)
    (h : String.utf8EncodeChar c <+: y :: a ++ x :: b) : String.utf8EncodeChar c <+: y :: a := by
  rcases headChar_cases h with ⟨hy, rfl⟩ | ⟨-, hw⟩
  · rw [encodeChar_ascii hy]
    exact ⟨a, rfl⟩
  · rcases prefix_or_prefix_of_prefix h (prefix_append (y :: a) (x :: b)) with hp | hp
    · exact hp
    · obtain ⟨r, hr⟩ := hp
      rw [← hr, prefix_append_right_inj] at h
      cases r with
      | nil => rw [← hr, append_nil]
      | cons z r =>
        obtain ⟨rfl, -⟩ := cons_prefix_cons.mp h
        have hmem : z ∈ String.utf8EncodeChar c := by rw [← hr]; simp
        exact absurd hx (UInt8.not_lt.mpr (hw.bytes z hmem))

theorem lossyChars_append (hx : x < 128) (b : List UInt8) (n : Nat) :
    ∀ a : List UInt8, a.length ≤ n →
      lossyChars (a.length + b.length + 1) (a ++ x :: b) =
        lossyChars a.length a ++ ascii x :: lossyChars b.length b := by
  induction n using Nat.strongRecOn with
  | ind n ih =>
    intro a ha
    cases a with
    | nil =>
      have hpre : String.utf8EncodeChar (ascii x) <+: x :: b := by
        rw [encodeChar_ascii hx]
        exact ⟨b, rfl⟩
      have hsize : (ascii x).utf8Size = 1 := by
        rw [← String.length_utf8EncodeChar, encodeChar_ascii hx]
        rfl
      rw [nil_append, lossyChars_some hpre, hsize, drop_one, tail_cons,
        lossyChars_fuel (by simp)]
      rfl
    | cons y a =>
      -- the step takes the same bytes with and without what follows `x`
      have hstep : ∃ c k, 0 < k ∧ k ≤ (y :: a).length ∧
          (∀ m, lossyChars (m + 1) (y :: a) = c :: lossyChars m ((y :: a).drop k)) ∧
          ∀ m, lossyChars (m + 1) (y :: a ++ x :: b) =
            c :: lossyChars m ((y :: a).drop k ++ x :: b) := by
        by_cases hc : ∃ c, String.utf8EncodeChar c <+: y :: a
        · obtain ⟨c, hc⟩ := hc
          have hle : c.utf8Size ≤ (y :: a).length := by
            rw [← String.length_utf8EncodeChar]
            exact hc.length_le
          refine ⟨c, c.utf8Size, c.utf8Size_pos, hle, lossyChars_some hc, fun m => ?_⟩
          rw [← drop_append_of_le_length hle]
          exact lossyChars_some (hc.trans (prefix_append (y :: a) (x :: b))) m
        · rw [not_exists] at hc
          have hle := maximalSubpart_le y a
          refine ⟨_, _, maximalSubpart_pos y a, hle, lossyChars_none hc, fun m => ?_⟩
          rw [← drop_append_of_le_length hle, ← maximalSubpart_append a y hx b]
          exact lossyChars_none (fun c h => hc c (prefix_of_prefix_append hx h)) m
      obtain ⟨c, k, hk, hle, hshort, hlong⟩ := hstep
      have hlen : ((y :: a).drop k).length ≤ a.length := by
        rw [length_drop, length_cons]
        omega
      rw [length_cons] at ha
      rw [length_cons, hshort, lossyChars_fuel hlen,
        show a.length + 1 + b.length + 1 = (a.length + b.length + 1) + 1 by omega, hlong,
        cons_append, ← ih a.length (by omega) _ hlen]
      have hmore : ((y :: a).drop k ++ x :: b).length =
          ((y :: a).drop k).length + b.length + 1 := by
        rw [length_append, length_cons, add_assoc]
      rw [← hmore, lossyChars_fuel (by omega)]

/-- The text splits at an ASCII byte as the bytes do. -/
theorem lossy_append (hx : x < 128) (a b : List UInt8) :
    lossy (a ++ x :: b) = lossy a ++ ascii x :: lossy b := by
  rw [lossy_eq, lossy_eq, lossy_eq, ← lossyChars_append hx b a.length a le_rfl]
  simp [add_assoc]

@[simp] theorem lossy_nil : lossy [] = [] := by
  rw [lossy_eq]
  rfl

theorem lossy_cons (hx : x < 128) (b : List UInt8) : lossy (x :: b) = ascii x :: lossy b := by
  have := lossy_append hx [] b
  rwa [lossy_nil] at this

theorem wide_of_mem_lossy (h : ∀ y ∈ b, 128 ≤ y) : ∀ c ∈ lossy b, Wide c := by
  have hchars : ∀ (n : Nat) (b : List UInt8), (∀ y ∈ b, 128 ≤ y) → ∀ c ∈ lossyChars n b,
      Wide c := by
    intro n
    induction n with
    | zero => intro b _ c hc; cases hc
    | succ n ih =>
      intro b h c hc
      cases b with
      | nil => rw [lossyChars_nil] at hc; cases hc
      | cons x bs =>
        have hdrop : ∀ k, ∀ y ∈ (x :: bs).drop k, 128 ≤ y :=
          fun k y hy => h y (mem_of_mem_drop hy)
        by_cases hd : ∃ d, String.utf8EncodeChar d <+: x :: bs
        · obtain ⟨d, hd⟩ := hd
          rw [lossyChars_some hd, mem_cons] at hc
          rcases hc with rfl | hc
          · rcases headChar_cases hd with ⟨hx, -⟩ | ⟨-, hw⟩
            · exact absurd hx (UInt8.not_lt.mpr (h x (.head _)))
            · exact hw
          · exact ih _ (hdrop _) c hc
        · rw [not_exists] at hd
          rw [lossyChars_none hd, mem_cons] at hc
          rcases hc with rfl | hc
          · unfold Wide
            decide
          · exact ih _ (hdrop _) c hc
  rw [lossy_eq]
  exact hchars b.length b h

theorem lossy_ne_nil (h : b ≠ []) : lossy b ≠ [] := by
  obtain ⟨x, bs, rfl⟩ := exists_cons_of_ne_nil h
  obtain ⟨c, k, -, hstep⟩ := lossyChars_cons x bs
  rw [lossy_eq, length_cons, hstep]
  exact cons_ne_nil _ _

/-- Bytes are a run that is not ASCII, or such a run and an ASCII byte after it. -/
theorem wide_run (b : List UInt8) : (∀ y ∈ b, 128 ≤ y) ∨
    ∃ run x rest, b = run ++ x :: rest ∧ x < 128 ∧ ∀ y ∈ run, 128 ≤ y := by
  induction b with
  | nil => exact .inl fun y hy => by cases hy
  | cons z b ih =>
    by_cases hz : z < 128
    · exact .inr ⟨[], z, b, rfl, hz, fun y hy => by cases hy⟩
    rcases ih with h | ⟨run, x, rest, rfl, hx, hrun⟩
    · refine Or.inl fun y hy => ?_
      rcases mem_cons.mp hy with rfl | hy
      · exact UInt8.not_lt.mp hz
      · exact h y hy
    · refine Or.inr ⟨z :: run, x, rest, rfl, hx, fun y hy => ?_⟩
      rcases mem_cons.mp hy with rfl | hy
      · exact UInt8.not_lt.mp hz
      · exact hrun y hy

/-- An ASCII character is in the text where its byte is. -/
theorem ascii_mem_lossy (hx : x < 128) (b : List UInt8) : ascii x ∈ lossy b ↔ x ∈ b := by
  induction hn : b.length using Nat.strongRecOn generalizing b with
  | ind n ih =>
    rcases wide_run b with h | ⟨run, y, rest, rfl, hy, hrun⟩
    · constructor
      · intro hm
        exact absurd rfl ((wide_of_mem_lossy h _ hm).ne_ascii hx)
      · intro hm
        exact absurd hx (UInt8.not_lt.mpr (h x hm))
    · have hrest := ih rest.length (by simp at hn; omega) rest rfl
      have hno : ascii x ∉ lossy run :=
        fun hm => (wide_of_mem_lossy hrun _ hm).ne_ascii hx rfl
      have hno' : x ∉ run := fun hm => absurd hx (UInt8.not_lt.mpr (hrun x hm))
      rw [lossy_append hy, mem_append, mem_cons, mem_append, mem_cons, hrest, ascii_inj hx hy]
      simp [hno, hno']

/-! ## Searching and trimming -/

/-- The first character is the first byte, or neither is ASCII. -/
theorem head_lossy (x : UInt8) (b : List UInt8) : ∃ c t, lossy (x :: b) = c :: t ∧
    ((x < 128 ∧ c = ascii x ∧ t = lossy b) ∨ (128 ≤ x ∧ Wide c)) := by
  by_cases hx : x < 128
  · exact ⟨_, _, lossy_cons hx b, .inl ⟨hx, rfl, rfl⟩⟩
  have hx := UInt8.not_lt.mp hx
  have hwide : ∀ {run : List UInt8}, run ≠ [] → (∀ y ∈ run, 128 ≤ y) → ∀ t : Text,
      ∃ c s, lossy run ++ t = c :: s ∧ Wide c := by
    intro run hne hrun t
    obtain ⟨c, s, hcs⟩ := exists_cons_of_ne_nil (lossy_ne_nil hne)
    refine ⟨c, s ++ t, by rw [hcs, cons_append], wide_of_mem_lossy hrun c ?_⟩
    rw [hcs]
    exact .head _
  rcases wide_run (x :: b) with h | ⟨run, y, rest, hb, hy, hrun⟩
  · obtain ⟨c, s, hcs, hc⟩ := hwide (cons_ne_nil x b) h []
    exact ⟨c, s, by rw [← hcs, append_nil], .inr ⟨hx, hc⟩⟩
  · have hne : run ≠ [] := by
      rintro rfl
      rw [nil_append, cons.injEq] at hb
      exact absurd hy (UInt8.not_lt.mpr (hb.1 ▸ hx))
    obtain ⟨c, s, hcs, hc⟩ := hwide hne hrun (ascii y :: lossy rest)
    exact ⟨c, s, by rw [hb, lossy_append hy, hcs], .inr ⟨hx, hc⟩⟩

theorem last_lossy (b : List UInt8) (hx : 128 ≤ x) :
    ∃ t c, lossy (b ++ [x]) = t ++ [c] ∧ Wide c := by
  induction hn : b.length using Nat.strongRecOn generalizing b with
  | ind n ih =>
    rcases wide_run (b ++ [x]) with h | ⟨run, y, rest, hb, hy, hrun⟩
    · rcases eq_nil_or_concat (lossy (b ++ [x])) with hnil | ⟨t, c, htc⟩
      · exact absurd hnil (lossy_ne_nil (by simp))
      · rw [concat_eq_append] at htc
        refine ⟨t, c, htc, wide_of_mem_lossy h c ?_⟩
        rw [htc]
        exact mem_append_right t (.head _)
    · rcases eq_nil_or_concat rest with rfl | ⟨rest', z, rfl⟩
      · have hlast := congrArg getLast? hb
        rw [getLast?_concat, getLast?_concat] at hlast
        exact absurd hy (UInt8.not_lt.mpr (Option.some.inj hlast ▸ hx))
      · rw [concat_eq_append, ← cons_append, ← append_assoc] at hb
        obtain ⟨hbr, hz⟩ := append_inj' hb rfl
        have hlen := congrArg length hbr
        simp only [length_append, length_cons] at hlen
        obtain ⟨t, c, htc, hc⟩ := ih rest'.length (by omega) rest' rfl
        refine ⟨lossy run ++ ascii y :: t, c, ?_, hc⟩
        rw [hbr, append_assoc, cons_append, lossy_append hy, htc]
        simp

/-- An ASCII literal leads the text where it leads the bytes. -/
theorem prefix_lossy (hk : ∀ y ∈ k, y < 128) (b : List UInt8) :
    k.map ascii <+: lossy b ↔ k <+: b := by
  induction k generalizing b with
  | nil => simp
  | cons y k ih =>
    have hy := hk y (.head _)
    cases b with
    | nil => simp
    | cons x b =>
      obtain ⟨c, t, hct, ⟨hx, rfl, rfl⟩ | ⟨hx, hc⟩⟩ := head_lossy x b
      · rw [map_cons, hct, cons_prefix_cons, cons_prefix_cons,
          ih (fun z hz => hk z (mem_cons_of_mem y hz)), ascii_inj hy hx]
      · rw [map_cons, hct, cons_prefix_cons, cons_prefix_cons]
        have hne : ¬ ascii y = c := fun he => hc.ne_ascii hy he.symm
        have hne' : ¬ y = x := by
          rintro rfl
          exact absurd hy (UInt8.not_lt.mpr hx)
        simp [hne, hne']

theorem lossy_map_ascii (hk : ∀ y ∈ k, y < 128) (b : List UInt8) :
    lossy (k ++ b) = k.map ascii ++ lossy b := by
  induction k with
  | nil => rfl
  | cons y k ih =>
    rw [cons_append, lossy_cons (hk y (.head _)),
      ih fun z hz => hk z (mem_cons_of_mem y hz)]
    rfl

theorem lossy_eq_map_ascii (hk : ∀ y ∈ k, y < 128) (b : List UInt8) :
    lossy b = k.map ascii ↔ b = k := by
  constructor
  · intro h
    obtain ⟨r, rfl⟩ := (prefix_lossy hk b).mp (by rw [h])
    rw [lossy_map_ascii hk, append_right_eq_self] at h
    have hr : r = [] := by
      by_contra hr
      exact lossy_ne_nil hr h
    rw [hr, append_nil]
  · rintro rfl
    have := lossy_map_ascii hk []
    rwa [append_nil, lossy_nil, append_nil] at this

/-- A test of ASCII bytes as a test of characters. -/
structure AsciiTest (p : UInt8 → Bool) (q : Char → Bool) : Prop where
  ascii : ∀ y, y < 128 → q (ascii y) = p y
  byte : ∀ y, 128 ≤ y → p y = false
  wide : ∀ c, Wide c → q c = false

theorem dropWhile_lossy {p : UInt8 → Bool} {q : Char → Bool} (h : AsciiTest p q)
    (b : List UInt8) : (lossy b).dropWhile q = lossy (b.dropWhile p) := by
  induction b with
  | nil => simp
  | cons x b ih =>
    obtain ⟨c, t, hct, ⟨hx, rfl, rfl⟩ | ⟨hx, hc⟩⟩ := head_lossy x b
    · rw [hct, dropWhile_cons, dropWhile_cons, h.ascii x hx]
      split
      · exact ih
      · exact hct.symm
    · rw [hct, dropWhile_cons, dropWhile_cons, h.wide c hc, h.byte x hx]
      exact hct.symm

theorem rdropWhile_lossy {p : UInt8 → Bool} {q : Char → Bool} (h : AsciiTest p q)
    (b : List UInt8) : (lossy b).rdropWhile q = lossy (b.rdropWhile p) := by
  induction b using reverseRecOn with
  | nil => simp
  | append_singleton b x ih =>
    by_cases hx : x < 128
    · have happ := lossy_append hx b []
      rw [lossy_nil] at happ
      by_cases hp : p x = true
      · rw [happ, rdropWhile_concat_pos _ _ _ (by rw [h.ascii x hx, hp]),
          rdropWhile_concat_pos _ _ _ hp, ih]
      · rw [happ, rdropWhile_concat_neg _ _ _ (by rw [h.ascii x hx]; exact hp),
          rdropWhile_concat_neg _ _ _ hp, happ]
    · have hx := UInt8.not_lt.mp hx
      obtain ⟨t, c, htc, hc⟩ := last_lossy b hx
      rw [htc, rdropWhile_concat_neg _ _ _ (by simp [h.wide c hc]),
        rdropWhile_concat_neg _ _ _ (by simp [h.byte x hx]), htc]

end NzbFast.Rust
