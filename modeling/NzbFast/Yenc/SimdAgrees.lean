import NzbFast.Yenc.Simd

/-!
# The decoders agree

The SIMD decoder against the scalar one, line by line. In line mode both take the
same arm. A pass of the vendored decoder appends what the scalar decoder appends
for the payload lines it covers, and leaves the loop inside the control line that
stopped it, where the arms are the same again.
-/

namespace NzbFast.Yenc

open NzbFast.Rust SimdDecoded List Option

/-! ## The arms -/

section Readers

variable {x y : FieldReader} (h : x.Agree y) (fields : List UInt8) (s : Scan)
include h

theorem ybegin_congr : s.ybegin x fields = s.ybegin y fields := by
  unfold Scan.ybegin
  rw [h.num fields "size" (by decide), h.num fields "part" (by decide), h.name fields]

theorem ypart_congr : s.ypart x fields = s.ypart y fields := by
  unfold Scan.ypart
  rw [h.num fields "begin" (by decide), h.num fields "end" (by decide)]

theorem yend_congr : s.yend x fields = s.yend y fields := by
  unfold Scan.yend
  rw [h.num fields "size" (by decide), h.num fields "part" (by decide),
    h.hex fields "pcrc32" (by decide), h.hex fields "crc32" (by decide)]

end Readers

/-- What a line is to a decoder. -/
inductive LineKind where
  | blank
  | ybegin (fields : List UInt8)
  | ypart (fields : List UInt8)
  | yend (fields : List UInt8)
  | yencryption (fields : List UInt8)
  | other

def lineKind (encOk : Bool) (line : List UInt8) : LineKind :=
  if line = [] then .blank
  else match headerFields line (lit "begin") false with
  | some fields => .ybegin fields
  | none =>
  match headerFields line (lit "part") false with
  | some fields => .ypart fields
  | none =>
  match headerFields line (lit "end") true with
  | some fields => .yend fields
  | none =>
  match if encOk then headerFields line (lit "encryption") false else none with
  | some fields => .yencryption fields
  | none => .other

theorem lit_control : lit "=y" = CONTROL := by decide

theorem scanLine_kind (encOk : Bool) (x : FieldReader) (rawLine : List UInt8) (s : Scan) :
    scanLine encOk x rawLine s =
      match lineKind encOk (content rawLine) with
      | .blank => .ok (s, false)
      | .ybegin fields => (s.ybegin x fields).map (·, false)
      | .ypart fields => .ok (s.ypart x fields, false)
      | .yend fields => .ok (s.yend x fields, true)
      | .yencryption fields => (Scan.yencryption fields s).map (·, false)
      | .other =>
        if s.seenBegin then
          .ok ({ s with
            prePartControl := s.prePartControl ||
              (!s.seenYpart && CONTROL.isPrefixOf (content rawLine))
            data := s.data ++ decodeLine (content rawLine) }, false)
        else .ok (s, false) := by
  unfold scanLine lineKind
  by_cases hblank : content rawLine = []
  · rw [if_pos hblank, if_pos hblank]
  rw [if_neg hblank, if_neg hblank]
  cases headerFields (content rawLine) (lit "begin") false with
  | some fields => rfl
  | none =>
  cases headerFields (content rawLine) (lit "part") false with
  | some fields => rfl
  | none =>
  cases headerFields (content rawLine) (lit "end") true with
  | some fields => rfl
  | none =>
  cases (if encOk then headerFields (content rawLine) (lit "encryption") false else none) with
  | some fields => rfl
  | none => rfl

theorem simdLoop_line (lib : RapidYenc) (encOk : Bool) (fuel : Nat) {rest : List UInt8}
    (hrest : rest ≠ []) (s : Scan) : simdLoop lib encOk (fuel + 1) false rest s =
      match lineKind encOk (unstuff (lineAt rest)) with
      | .blank => simdLoop lib encOk fuel false (afterLine rest) s
      | .ybegin fields =>
        match s.ybegin simdReader fields with
        | .error e => .error e
        | .ok s => simdLoop lib encOk fuel false (afterLine rest) s
      | .ypart fields => simdLoop lib encOk fuel false (afterLine rest) (s.ypart simdReader fields)
      | .yend fields => .done (s.yend simdReader fields)
      | .yencryption fields =>
        match Scan.yencryption fields s with
        | .error e => .error e
        | .ok s => simdLoop lib encOk fuel false (afterLine rest) s
      | .other =>
        if s.seenBegin then
          simdLoop lib encOk fuel true rest
            { s with
              prePartControl := s.prePartControl ||
                (!s.seenYpart && CONTROL.isPrefixOf (unstuff (lineAt rest))) }
        else simdLoop lib encOk fuel false (afterLine rest) s := by
  obtain ⟨b, bs, rfl⟩ := exists_cons_of_ne_nil hrest
  rw [simdLoop]
  unfold lineKind
  by_cases hblank : unstuff (lineAt (b :: bs)) = []
  · rw [if_pos hblank, if_pos hblank]
  rw [if_neg hblank, if_neg hblank]
  cases headerFields (unstuff (lineAt (b :: bs))) (lit "begin") false with
  | some fields => rfl
  | none =>
  cases headerFields (unstuff (lineAt (b :: bs))) (lit "part") false with
  | some fields => rfl
  | none =>
  cases headerFields (unstuff (lineAt (b :: bs))) (lit "end") true with
  | some fields => rfl
  | none =>
  cases (if encOk then headerFields (unstuff (lineAt (b :: bs))) (lit "encryption") false
    else none) with
  | some fields => rfl
  | none => rfl

variable {encOk : Bool} {line t : List UInt8} {s : Scan} {lines : List (List UInt8)}
  {lib : RapidYenc}

theorem lineKind_payload (h : CONTROL.isPrefixOf line = false) :
    (line = [] ∧ lineKind encOk line = .blank) ∨
      lineKind encOk line = .other := by
  have hnone : ∀ kw bareOk, headerFields line kw bareOk = none := by
    intro kw bareOk
    have hpre : (lit "=y").isPrefixOf? line = none := by
      rw [isPrefixOf?_eq_none, lit_control, ← isPrefixOf_iff_prefix, h]
      decide
    unfold headerFields
    rw [hpre, bind_none]
  unfold lineKind
  rw [hnone, hnone, hnone, hnone]
  by_cases hblank : line = []
  · rw [if_pos hblank]
    exact .inl ⟨hblank, rfl⟩
  · rw [if_neg hblank, ite_self]
    exact .inr rfl

/-- Two keywords, neither a prefix of the other, do not both lead a line. -/
theorem keyword_exclusive {k k' a : List UInt8} (hk : k.isPrefixOf? t = some a) (h : ¬ k <+: k')
    (h' : ¬ k' <+: k) : k'.isPrefixOf? t = none := by
  rw [isPrefixOf?_eq_none]
  intro hpre
  rcases prefix_or_prefix_of_prefix hpre ⟨a, (isPrefixOf?_eq_some.mp hk).symm⟩ with hp | hp
  · exact h' hp
  · exact h hp

theorem headerFields_control (t kw : List UInt8) (bareOk : Bool) :
    headerFields (CONTROL ++ t) kw bareOk =
      (kw.isPrefixOf? t).bind fun t => headerTail t bareOk := by
  have hpre : (lit "=y").isPrefixOf? (CONTROL ++ t) = some t := by
    rw [isPrefixOf?_eq_some, lit_control]
  unfold headerFields
  rw [hpre, bind_some]

/-- The arms of block mode are those of the scan, in another order. -/
theorem scanLine_control {rawLine : List UInt8} (hline : content rawLine = CONTROL ++ t)
    (hbegin : s.seenBegin = true) :
    scanLine encOk scalarReader rawLine s = controlLine encOk t s := by
  have hne : content rawLine ≠ [] := by rw [hline]; exact cons_ne_nil _ _
  rw [scanLine_kind]
  unfold lineKind controlLine
  rw [if_neg hne, hline]
  simp only [headerFields_control, ybegin_congr readers_agree, ypart_congr readers_agree,
    yend_congr readers_agree]
  -- the keyword that leads the line, if one does, decides both
  cases hend : (lit "end").isPrefixOf? t with
  | some a =>
    have hb : (lit "begin").isPrefixOf? t = none := keyword_exclusive hend (by decide) (by decide)
    have hp : (lit "part").isPrefixOf? t = none := keyword_exclusive hend (by decide) (by decide)
    have he : (lit "encryption").isPrefixOf? t = none :=
      keyword_exclusive hend (by decide) (by decide)
    rw [hb, hp, he]
    simp only [bind_some, bind_none, ite_self]
    cases headerTail a true <;> simp [hbegin]
  | none =>
    cases hb : (lit "begin").isPrefixOf? t with
    | some a =>
      have hp : (lit "part").isPrefixOf? t = none := keyword_exclusive hb (by decide) (by decide)
      have he : (lit "encryption").isPrefixOf? t = none :=
        keyword_exclusive hb (by decide) (by decide)
      rw [hp, he]
      simp only [bind_some, bind_none, ite_self]
      cases headerTail a false <;> simp [hbegin]
    | none =>
      cases hp : (lit "part").isPrefixOf? t with
      | some a =>
        have he : (lit "encryption").isPrefixOf? t = none :=
          keyword_exclusive hp (by decide) (by decide)
        rw [he]
        simp only [bind_some, bind_none, ite_self]
        cases headerTail a false <;> simp [hbegin]
      | none =>
        cases he : (lit "encryption").isPrefixOf? t with
        | some a =>
          simp only [bind_some, bind_none]
          cases headerTail a false <;> cases encOk <;> simp [hbegin]
        | none => cases encOk <;> simp [hbegin]

/-! ## Lines and bytes -/

def joinLines : List (List UInt8) → List UInt8
  | [] => []
  | [line] => line
  | line :: next :: lines => line ++ LF :: joinLines (next :: lines)

theorem splitLines_ne_nil (b : List UInt8) : splitLines b ≠ [] := by
  cases b with
  | nil => simp [splitLines]
  | cons x b =>
    rw [splitLines]
    split
    · simp
    · split <;> simp

theorem lf_not_mem_splitLines (b : List UInt8) : ∀ l ∈ splitLines b, LF ∉ l := by
  induction b with
  | nil => simp [splitLines]
  | cons x b ih =>
    intro l hl
    rw [splitLines] at hl
    split at hl
    · rcases mem_cons.mp hl with rfl | hl
      · exact not_mem_nil
      · exact ih l hl
    case isFalse hx =>
      split at hl
      case _ line lines heq =>
        rw [heq] at ih
        rcases mem_cons.mp hl with rfl | hl
        · rw [mem_cons, not_or]
          exact ⟨fun h => hx h.symm, ih line (.head _)⟩
        · exact ih l (mem_cons_of_mem line hl)
      · rw [mem_singleton.mp hl, mem_singleton]
        exact fun h => hx h.symm

theorem joinLines_cons (h : lines ≠ []) (line : List UInt8) :
    joinLines (line :: lines) = line ++ LF :: joinLines lines := by
  obtain ⟨next, lines, rfl⟩ := exists_cons_of_ne_nil h
  rfl

theorem joinLines_splitLines (b : List UInt8) : joinLines (splitLines b) = b := by
  induction b with
  | nil => rfl
  | cons x b ih =>
    rw [splitLines]
    split
    case isTrue hx => rw [joinLines_cons (splitLines_ne_nil b), ih, hx]; rfl
    case isFalse hx =>
      split
      case _ line lines heq =>
        rw [heq] at ih
        cases lines with
        | nil => rw [← ih]; rfl
        | cons next lines => rw [← ih]; rfl
      case _ heq => exact absurd heq (splitLines_ne_nil b)

theorem splitLines_joinLines (hne : lines ≠ []) (h : ∀ l ∈ lines, LF ∉ l) :
    splitLines (joinLines lines) = lines := by
  induction lines with
  | nil => exact absurd rfl hne
  | cons line lines ih =>
    have hline := h line (.head _)
    cases lines with
    | nil => exact splitLines_last hline
    | cons next lines =>
      rw [joinLines, splitLines_append hline,
        ih (by simp) fun l hl => h l (mem_cons_of_mem line hl)]

theorem lineAt_joinLines (h : LF ∉ line) (lines : List (List UInt8)) :
    lineAt (joinLines (line :: lines)) = dropCr line ∧
      afterLine (joinLines (line :: lines)) = joinLines lines := by
  have hall : ∀ y ∈ line, decide (y ≠ LF) = true := by
    intro y hy
    rw [decide_eq_true_eq]
    rintro rfl
    exact h hy
  unfold lineAt afterLine
  cases lines with
  | nil =>
    have hone : joinLines [line] = line := rfl
    rw [hone, takeWhile_eq_self_iff.mpr hall, dropWhile_eq_nil_iff.mpr hall]
    exact ⟨rfl, rfl⟩
  | cons next lines =>
    rw [joinLines, takeWhile_append_of_pos hall, takeWhile_cons_of_neg (by decide),
      append_nil, dropWhile_append_of_pos hall, dropWhile_cons_of_neg (by decide)]
    exact ⟨rfl, rfl⟩

/-- Every line but the last ends in a carriage return. -/
def FramedLines : List (List UInt8) → Prop
  | [] => True
  | [_] => True
  | line :: next :: lines => line.getLast? = some CR ∧ FramedLines (next :: lines)

theorem CrlfFramed.cons {line rest : List UInt8} (h : CrlfFramed (line ++ LF :: rest)) :
    line.getLast? = some CR ∧ CrlfFramed rest := by
  refine ⟨h line rest rfl, fun before after hrest => ?_⟩
  have hlast := h (line ++ LF :: before) after (by rw [hrest]; simp)
  rcases eq_nil_or_concat before with rfl | ⟨before, x, rfl⟩
  · rw [getLast?_concat] at hlast
    cases hlast
  · rw [concat_eq_append, ← cons_append, ← append_assoc, getLast?_concat] at hlast
    rw [concat_eq_append, getLast?_concat]
    exact hlast

theorem framedLines_of_crlfFramed (h : CrlfFramed (joinLines lines)) : FramedLines lines := by
  induction lines with
  | nil => trivial
  | cons line lines ih =>
    cases lines with
    | nil => trivial
    | cons next lines => exact ⟨h.cons.1, ih h.cons.2⟩

theorem crlfFramed_of_framedLines (hlf : ∀ l ∈ lines, LF ∉ l) (h : FramedLines lines) :
    CrlfFramed (joinLines lines) := by
  induction lines with
  | nil => intro before after h; simp [joinLines] at h
  | cons line lines ih =>
    have hline := hlf line (.head _)
    cases lines with
    | nil =>
      intro before after h
      rw [joinLines] at h
      rw [h] at hline
      exact absurd (by simp) hline
    | cons next lines =>
      intro before after heq
      have ih := ih (fun l hl => hlf l (mem_cons_of_mem line hl)) h.2
      rw [joinLines, append_eq_append_iff] at heq
      rcases heq with ⟨a, rfl, ha⟩ | ⟨a, rfl, ha⟩
      · cases a with
        | nil => rw [append_nil]; exact h.1
        | cons x a =>
          rw [cons_append, cons.injEq] at ha
          have := ih a after ha.2
          rcases eq_nil_or_concat a with rfl | ⟨a, z, rfl⟩
          · cases this
          · rw [concat_eq_append, getLast?_concat] at this
            rw [concat_eq_append, ← cons_append, ← append_assoc, getLast?_concat, this]
      · cases a with
        | nil => rw [append_nil] at h; exact h.1
        | cons x a =>
          rw [cons_append, cons.injEq] at ha
          exact absurd (by rw [← ha.1]; simp) hline

/-! ## One pass -/

theorem length_decodeLine (l : List UInt8) : (decodeLine l).length ≤ l.length := by
  induction hn : l.length using Nat.strongRecOn generalizing l with
  | ind n ih =>
    cases l with
    | nil => simp [decodeLine]
    | cons b rest =>
      rw [length_cons] at hn
      by_cases heq : b = EQ
      · cases rest with
        | nil => rw [heq]; simp [decodeLine]
        | cons c rest =>
          rw [length_cons] at hn
          have := ih rest.length (by omega) rest rfl
          rw [heq, decodeLine_escape, length_cons]
          omega
      have := ih rest.length (by omega) rest rfl
      by_cases hbreak : b = CR ∨ b = LF
      · rw [decodeLine_break hbreak]
        omega
      · rw [not_or] at hbreak
        rw [decodeLine_plain heq hbreak.1 hbreak.2, length_cons]
        omega

theorem length_content (line : List UInt8) : (content line).length ≤ line.length := by
  have hun : ∀ l : List UInt8, (unstuff l).length ≤ l.length := by
    intro l
    cases l with
    | nil => simp [unstuff]
    | cons b l =>
      rw [unstuff]
      split <;> simp
  have hcr : (dropCr line).length ≤ line.length := by
    unfold dropCr
    split <;> simp
  exact (hun _).trans hcr

theorem length_joinLines_lt (h : joinLines (line :: lines) ≠ []) :
    (joinLines lines).length < (joinLines (line :: lines)).length := by
  cases lines with
  | nil => exact length_pos_of_ne_nil h
  | cons next lines =>
    rw [joinLines_cons (cons_ne_nil next lines), length_append, length_cons]
    omega

theorem length_written (lines : List (List UInt8)) :
    (linePass lines).written.length ≤ (joinLines lines).length := by
  induction lines with
  | nil => simp [linePass]
  | cons line lines ih =>
    rw [linePass]
    split
    · simp
    · have hdec := (length_decodeLine (content line)).trans (length_content line)
      rw [length_append]
      cases lines with
      | nil =>
        have hnil : (linePass []).written.length = 0 := rfl
        have hone : joinLines [line] = line := rfl
        rw [hnil, hone]
        omega
      | cons next lines =>
        rw [joinLines_cons (by simp), length_append, length_cons]
        omega

theorem dropCr_cons {a : UInt8} (ha : a ≠ CR) (l : List UInt8) :
    dropCr (a :: l) = a :: dropCr l := by
  cases l with
  | nil =>
    unfold dropCr
    rw [if_neg (by simpa using ha), if_neg (by simp)]
  | cons b l =>
    unfold dropCr
    rw [getLast?_cons_cons, dropLast_cons_cons]
    split <;> rfl

theorem dropCr_eq_cons {l : List UInt8} {a : UInt8} (ha : a ≠ CR) (h : dropCr l = a :: t) :
    ∃ l', l = a :: l' ∧ dropCr l' = t := by
  cases l with
  | nil => cases h
  | cons b l =>
    by_cases hb : b = CR
    · exfalso
      unfold dropCr at h
      split at h
      · cases l with
        | nil => cases h
        | cons c l =>
          rw [dropLast_cons_cons, cons.injEq] at h
          exact ha (h.1 ▸ hb)
      · rw [cons.injEq] at h
        exact ha (h.1 ▸ hb)
    · rw [dropCr_cons hb, cons.injEq] at h
      exact ⟨l, by rw [h.1], h.2⟩

/-- Past the `y` of a control line stands the rest of what the scan sees of it. -/
theorem control_tail (h : CONTROL.isPrefixOf (content line) = true) :
    ∃ tail, content line = CONTROL ++ dropCr tail ∧
      line.drop ((if line.head? = some DOT then 1 else 0) + 2) = tail ∧
      (if line.head? = some DOT then 1 else 0) + 2 ≤ line.length := by
  obtain ⟨t, ht⟩ := isPrefixOf_iff_prefix.mp h
  have hcases : dropCr line = DOT :: EQ :: 0x79 :: t ∨ dropCr line = EQ :: 0x79 :: t := by
    unfold content at ht
    cases hline : dropCr line with
    | nil => rw [hline] at ht; cases ht
    | cons b l =>
      rw [hline, unstuff] at ht
      split at ht
      case isTrue hb => exact .inl (by rw [hb, ← ht]; rfl)
      case isFalse => exact .inr ht.symm
  rcases hcases with hline | hline
  · obtain ⟨l1, rfl, h1⟩ := dropCr_eq_cons (by decide) hline
    obtain ⟨l2, rfl, h2⟩ := dropCr_eq_cons (by decide) h1
    obtain ⟨l3, rfl, h3⟩ := dropCr_eq_cons (by decide) h2
    exact ⟨l3, by rw [← ht, h3], rfl, by simp⟩
  · obtain ⟨l1, rfl, h1⟩ := dropCr_eq_cons (by decide) hline
    obtain ⟨l2, rfl, h2⟩ := dropCr_eq_cons (by decide) h1
    have hhead : ¬ some EQ = some DOT := by decide
    exact ⟨l2, by rw [← ht, h2], by rw [head?_cons, if_neg hhead]; rfl,
      by rw [head?_cons, if_neg hhead]; simp⟩

/-- A pass that a control line stopped: the lines before it are decoded, and the pass points into
that line. -/
theorem linePass_control (h : (linePass lines).endSeq = .control) :
    ∃ before line tail after, lines = before ++ line :: after ∧
      (∀ l ∈ before, CONTROL.isPrefixOf (content l) = false) ∧
      content line = CONTROL ++ dropCr tail ∧
      (∃ k, line.drop k = tail) ∧
      (linePass lines).written = before.flatMap (fun l => decodeLine (content l)) ∧
      (linePass lines).consumed ≤ (joinLines lines).length ∧
      (joinLines lines).drop (linePass lines).consumed = joinLines (tail :: after) := by
  induction lines with
  | nil => cases h
  | cons line lines ih =>
    by_cases hc : CONTROL.isPrefixOf (content line) = true
    · obtain ⟨tail, hcontent, htail, hle⟩ := control_tail hc
      refine ⟨[], line, tail, lines, rfl, by simp, hcontent, ⟨_, htail⟩, ?_⟩
      rw [linePass, if_pos hc]
      refine ⟨rfl, ?_, ?_⟩
      · cases lines with
        | nil => exact hle
        | cons next lines =>
          rw [joinLines_cons (by simp), length_append]
          exact hle.trans (Nat.le_add_right _ _)
      · dsimp only
        cases lines with
        | nil => exact htail
        | cons next lines =>
          rw [joinLines_cons (cons_ne_nil next lines),
            joinLines_cons (cons_ne_nil next lines), drop_append_of_le_length hle, htail]
    · have hpass : linePass (line :: lines) =
          ⟨decodeLine (content line) ++ (linePass lines).written,
            line.length + (if lines = [] then 0 else 1) + (linePass lines).consumed,
            (linePass lines).endSeq⟩ := by
        rw [linePass, if_neg hc]
      rw [hpass] at h ⊢
      obtain ⟨before, stop, tail, after, rfl, hbefore, hcontent, hdrop, hwritten, hle, hrest⟩ :=
        ih h
      have hne : before ++ stop :: after ≠ [] := by simp
      refine ⟨line :: before, stop, tail, after, rfl, ?_, hcontent, hdrop, ?_, ?_, ?_⟩
      · intro l hl
        rcases mem_cons.mp hl with rfl | hl
        · exact Bool.not_eq_true _ ▸ hc
        · exact hbefore l hl
      · rw [flatMap_cons, hwritten]
      · rw [joinLines_cons hne, length_append, length_cons, if_neg hne]
        dsimp only
        omega
      · rw [joinLines_cons hne, if_neg hne]
        dsimp only
        rw [← hrest, add_assoc, drop_append, drop_eq_nil_of_le (by omega),
          nil_append, Nat.add_sub_cancel_left, Nat.add_comm 1, drop_succ_cons]

theorem linePass_ne_article (lines : List (List UInt8)) : (linePass lines).endSeq ≠ .article := by
  induction lines with
  | nil => intro h; cases h
  | cons line lines ih =>
    rw [linePass]
    split
    · intro h; cases h
    · exact ih

/-! ## The domain -/

/-- No line the scan takes for payload ends in an `=` that escapes nothing. `seenBegin` says that a
header has been read. -/
def pairedPayload (encOk : Bool) : Bool → List (List UInt8) → Bool
  | _, [] => true
  | seenBegin, line :: lines =>
    match lineKind encOk (content line) with
    | .blank => pairedPayload encOk seenBegin lines
    -- a second header ends the article, and so does a trailer
    | .ybegin _ => seenBegin || pairedPayload encOk true lines
    | .yend _ => true
    | .ypart _ => pairedPayload encOk seenBegin lines
    | .yencryption fields =>
      (EncHeader.parseFields fields).isNone || pairedPayload encOk seenBegin lines
    | .other =>
      (!seenBegin || !loneEquals (content line)) && pairedPayload encOk seenBegin lines

/-- An article body the two decoders are to agree on. -/
structure Regular (encOk : Bool) (body : List UInt8) : Prop where
  framed : CrlfFramed body
  no_lone_dot : ∀ line ∈ splitLines body, dropCr line ≠ [DOT]
  paired : pairedPayload encOk false (splitLines body) = true

/-- What the loop needs of the lines that are left. -/
structure RegularLines (encOk seenBegin : Bool) (lines : List (List UInt8)) : Prop where
  lf : ∀ l ∈ lines, LF ∉ l
  framed : FramedLines lines
  no_lone_dot : ∀ l ∈ lines, dropCr l ≠ [DOT]
  paired : pairedPayload encOk seenBegin lines = true

theorem FramedLines.tail {line : List UInt8} {lines : List (List UInt8)}
    (h : FramedLines (line :: lines)) : FramedLines lines := by
  cases lines with
  | nil => trivial
  | cons next lines => exact h.2

theorem RegularLines.scanLine {s' : Scan} (h : RegularLines encOk s.seenBegin (line :: lines))
    (hscan : scanLine encOk scalarReader line s = .ok (s', false)) :
    RegularLines encOk s'.seenBegin lines := by
  refine ⟨fun l hl => h.lf l (mem_cons_of_mem line hl), h.framed.tail,
    fun l hl => h.no_lone_dot l (mem_cons_of_mem line hl), ?_⟩
  have hp := h.paired
  rw [pairedPayload] at hp
  rw [scanLine_kind] at hscan
  cases hkind : lineKind encOk (content line) with
  | blank =>
    rw [hkind] at hscan hp
    cases hscan
    exact hp
  | ybegin fields =>
    rw [hkind] at hscan hp
    dsimp only at hscan hp
    unfold Scan.ybegin at hscan
    split at hscan
    · cases hscan
    case isFalse hbegin =>
      cases hscan
      exact (Bool.or_eq_true_iff.mp hp).resolve_left hbegin
  | ypart fields =>
    rw [hkind] at hscan hp
    cases hscan
    exact hp
  | yend fields =>
    rw [hkind] at hscan
    cases hscan
  | yencryption fields =>
    rw [hkind] at hscan hp
    dsimp only at hscan hp
    unfold Scan.yencryption at hscan
    cases hf : EncHeader.parseFields fields with
    | none => rw [hf] at hscan; cases hscan
    | some e =>
      rw [hf] at hscan hp
      cases hscan
      exact hp
  | other =>
    rw [hkind] at hscan hp
    dsimp only at hscan hp
    split at hscan <;> (cases hscan; exact (Bool.and_eq_true_iff.mp hp).2)

/-- Regular lines past the header are what the vendored decoder is specified on. -/
theorem RegularLines.decodable (h : RegularLines encOk true lines) : Decodable lines := by
  induction lines with
  | nil => trivial
  | cons line lines ih =>
    by_cases hc : CONTROL.isPrefixOf (content line) = true
    · exact .inl hc
    have hp := h.paired
    rw [pairedPayload] at hp
    have hrest : pairedPayload encOk true lines = true → Decodable lines := fun hpaired =>
      ih ⟨fun l hl => h.lf l (mem_cons_of_mem line hl), h.framed.tail,
        fun l hl => h.no_lone_dot l (mem_cons_of_mem line hl), hpaired⟩
    refine Or.inr ⟨h.no_lone_dot line (.head _), ?_⟩
    rcases lineKind_payload (Bool.not_eq_true _ ▸ hc) with ⟨hblank, hkind⟩ | hkind
    · rw [hkind] at hp
      exact ⟨by rw [hblank]; rfl, hrest hp⟩
    · rw [hkind] at hp
      obtain ⟨heq, hp⟩ := Bool.and_eq_true_iff.mp hp
      exact ⟨by simpa using heq, hrest hp⟩

/-! ## The simulation -/

/-- How the loop leaves when the scan of the lines ends in `r`. -/
def Agrees : Left → Except YencError Scan → Prop
  | .done s, r => r = .ok s
  | .error e, r => r = .error e
  | .fallback, _ => True
  | .panic, _ => False

theorem scanLines_cons (encOk : Bool) (x : FieldReader) (line : List UInt8)
    (lines : List (List UInt8)) (s : Scan) : scanLines encOk x (line :: lines) s =
      match scanLine encOk x line s with
      | .error e => .error e
      | .ok (s, true) => .ok s
      | .ok (s, false) => scanLines encOk x lines s := rfl

/-- Payload lines only add to the data. -/
theorem scanLine_before {encOk : Bool} {x : FieldReader} {line : List UInt8} {s : Scan}
    (h : CONTROL.isPrefixOf (content line) = false) (hbegin : s.seenBegin = true) :
    scanLine encOk x line s = .ok ({ s with data := s.data ++ decodeLine (content line) }, false) := by
  rw [scanLine_kind]
  rcases lineKind_payload h with ⟨hblank, hkind⟩ | hkind
  · rw [hkind, hblank, decodeLine, append_nil]
  · rw [hkind]
    rw [if_pos hbegin, h, Bool.and_false, Bool.or_false]

theorem scanLines_before {x : FieldReader} {before : List (List UInt8)}
    (h : ∀ l ∈ before, CONTROL.isPrefixOf (content l) = false) (lines : List (List UInt8))
    (hbegin : s.seenBegin = true) :
    scanLines encOk x (before ++ lines) s =
      scanLines encOk x lines
        { s with data := s.data ++ before.flatMap fun l => decodeLine (content l) } := by
  induction before generalizing s with
  | nil => rw [nil_append, flatMap_nil, append_nil]
  | cons l before ih =>
    rw [cons_append, scanLines_cons, scanLine_before (h l (.head _)) hbegin]
    refine Eq.trans (ih (fun l' hl => h l' (mem_cons_of_mem l hl)) (by exact hbegin)) ?_
    rw [flatMap_cons, ← append_assoc]

theorem simdLoop_nil (lib : RapidYenc) (encOk : Bool) (fuel : Nat) (inBody : Bool) (s : Scan) :
    simdLoop lib encOk fuel inBody [] s = .done s := by
  cases fuel <;> rfl

/-- Lines without a byte change nothing. -/
theorem scanLines_empty (h : joinLines lines = []) (encOk : Bool) (x : FieldReader) (s : Scan) :
    scanLines encOk x lines s = .ok s := by
  cases lines with
  | nil => rfl
  | cons line lines =>
    cases lines with
    | nil =>
      have hline : line = [] := h
      rw [hline, scanLines_cons, scanLine_kind]
      rfl
    | cons next lines => simp [joinLines] at h

theorem RegularLines.payload {before : List (List UInt8)}
    (h : RegularLines encOk s.seenBegin (before ++ lines)) (hbegin : s.seenBegin = true)
    (hbefore : ∀ l ∈ before, CONTROL.isPrefixOf (content l) = false) :
    RegularLines encOk s.seenBegin lines := by
  induction before with
  | nil => exact h
  | cons l before ih =>
    have hl : Yenc.scanLine encOk scalarReader l s = _ :=
      scanLine_before (hbefore l (.head _)) hbegin
    have hrest := h.scanLine hl
    exact ih hrest fun l' hl' => hbefore l' (mem_cons_of_mem l hl')

theorem length_joinLines_append (before lines : List (List UInt8)) :
    (joinLines lines).length ≤ (joinLines (before ++ lines)).length := by
  induction before with
  | nil => exact le_refl _
  | cons l before ih =>
    rw [cons_append]
    by_cases h : joinLines (l :: (before ++ lines)) = []
    · cases hrest : before ++ lines with
      | nil =>
        rw [(append_eq_nil_iff.mp hrest).2]
        exact Nat.zero_le _
      | cons next rest => rw [hrest] at h; simp [joinLines] at h
    · have := length_joinLines_lt h
      omega

section Simulation

variable {lib : RapidYenc} {encOk : Bool}

/-- Block mode from a line start, the loop after the control line being right already. -/
theorem simdLoop_block (hlib : lib.Published) {fuel : Nat} {lines : List (List UInt8)} {s : Scan}
    (hbytes : joinLines lines ≠ []) (hreg : RegularLines encOk s.seenBegin lines)
    (hbegin : s.seenBegin = true)
    (hloop : ∀ (after : List (List UInt8)) (s' : Scan),
      RegularLines encOk s'.seenBegin after →
      (joinLines after).length < (joinLines lines).length →
      Agrees (simdLoop lib encOk fuel false (joinLines after) s')
        (scanLines encOk scalarReader after s')) :
    Agrees (simdLoop lib encOk (fuel + 1) true (joinLines lines) s)
      (scanLines encOk scalarReader lines s) := by
  have hne : lines ≠ [] := by
    rintro rfl
    exact hbytes rfl
  have hpass : lib.decodeIncremental (joinLines lines) = linePass lines := by
    rw [hbegin] at hreg
    have hsplit := splitLines_joinLines hne hreg.lf
    have := hlib.decode (joinLines lines) (crlfFramed_of_framedLines hreg.lf hreg.framed)
      (by rw [hsplit]; exact hreg.decodable)
    rwa [hsplit] at this
  obtain ⟨b, bs, hchunk⟩ := exists_cons_of_ne_nil hbytes
  rw [hchunk, simdLoop, ← hchunk]
  dsimp only
  rw [hpass, if_neg (not_lt.mpr (length_written lines))]
  cases hend : (linePass lines).endSeq with
  | none => trivial
  | article => exact absurd hend (linePass_ne_article lines)
  | control =>
    obtain ⟨before, line, tail, after, rfl, hbefore, hcontent, ⟨k, hk⟩, hwritten, hle, hrest⟩ :=
      linePass_control hend
    have htail : LF ∉ tail := by
      rw [← hk]
      exact fun h => hreg.lf line (by simp) (mem_of_mem_drop h)
    rw [if_neg (not_lt.mpr hle), hrest, (lineAt_joinLines htail after).1,
      (lineAt_joinLines htail after).2, hwritten, scanLines_before hbefore _ hbegin, scanLines_cons]
    have hregLine := hreg.payload hbegin hbefore
    have hlong : (joinLines after).length < (joinLines (before ++ line :: after)).length := by
      have hline : joinLines (line :: after) ≠ [] := by
        intro hnil
        have hlen := length_content line
        rw [hcontent] at hlen
        cases after with
        | nil => rw [show line = [] from hnil] at hlen; simp at hlen
        | cons next after => simp [joinLines] at hnil
      exact lt_of_lt_of_le (length_joinLines_lt hline) (length_joinLines_append before _)
    generalize hs : ({ s with
      data := s.data ++ before.flatMap fun l => decodeLine (content l) } : Scan) = s1
    have hseen : s1.seenBegin = s.seenBegin := by rw [← hs]
    rw [← hseen] at hregLine hbegin
    rw [scanLine_control hcontent hbegin]
    cases hscan : controlLine encOk (dropCr tail) s1 with
    | error e => rfl
    | ok r =>
      obtain ⟨s', stop⟩ := r
      cases stop with
      | true => rfl
      | false =>
        exact hloop after s'
          (hregLine.scanLine ((scanLine_control hcontent hbegin).trans hscan)) hlong

/-- The loop from a line start does what the scan does, by induction on the fuel. -/
theorem simdLoop_agrees (hlib : lib.Published) (fuel : Nat) :
    ∀ (lines : List (List UInt8)) (s : Scan), RegularLines encOk s.seenBegin lines →
      2 * (joinLines lines).length ≤ fuel →
      Agrees (simdLoop lib encOk fuel false (joinLines lines) s)
        (scanLines encOk scalarReader lines s) := by
  induction fuel using Nat.strongRecOn with
  | ind fuel ih =>
    intro lines s hreg hfuel
    by_cases hbytes : joinLines lines = []
    · rw [hbytes, simdLoop_nil, scanLines_empty hbytes]
      rfl
    have hpos := length_pos_of_ne_nil hbytes
    obtain ⟨m, rfl⟩ : ∃ m, fuel = m + 1 + 1 := ⟨fuel - 2, by omega⟩
    cases lines with
    | nil => exact absurd rfl hbytes
    | cons line lines =>
      have hline := lineAt_joinLines (hreg.lf line (.head _)) lines
      have hlt := length_joinLines_lt hbytes
      -- the loop after this line, whatever the line did to the state
      have hnext : ∀ s', scanLine encOk scalarReader line s = .ok (s', false) →
          Agrees (simdLoop lib encOk (m + 1) false (joinLines lines) s')
            (scanLines encOk scalarReader lines s') :=
        fun s' hscan => ih (m + 1) (by omega) lines s' (hreg.scanLine hscan) (by omega)
      have hcontent : unstuff (dropCr line) = content line := rfl
      rw [simdLoop_line lib encOk (m + 1) hbytes, hline.1, hline.2, hcontent, scanLines_cons]
      rw [scanLine_kind] at hnext ⊢
      cases hkind : lineKind encOk (content line) with
      | blank =>
        rw [hkind] at hnext
        exact hnext s rfl
      | ybegin fields =>
        rw [hkind] at hnext
        dsimp only at hnext ⊢
        rw [ybegin_congr readers_agree]
        cases hs : s.ybegin scalarReader fields with
        | error e => rfl
        | ok s' => exact hnext s' (by rw [hs]; rfl)
      | ypart fields =>
        rw [hkind] at hnext
        dsimp only at hnext ⊢
        rw [ypart_congr readers_agree]
        exact hnext _ rfl
      | yend fields =>
        dsimp only
        rw [yend_congr readers_agree]
        rfl
      | yencryption fields =>
        rw [hkind] at hnext
        dsimp only at hnext ⊢
        cases hs : Scan.yencryption fields s with
        | error e => rfl
        | ok s' => exact hnext s' (by rw [hs]; rfl)
      | other =>
        rw [hkind] at hnext
        by_cases hbegin : s.seenBegin = true
        · rw [if_pos hbegin, if_pos hbegin]
          -- the switch to block mode sets the flag this line would set again
          have hblock := simdLoop_block hlib hbytes
            (s := { s with
              prePartControl := s.prePartControl ||
                (!s.seenYpart && CONTROL.isPrefixOf (content line)) })
            hreg hbegin (fun after s' hafter hlen => ih m (by omega) after s' hafter (by omega))
          rw [scanLines_cons, scanLine_kind, hkind] at hblock
          rw [if_pos hbegin, Bool.or_assoc, Bool.or_self] at hblock
          exact hblock
        · rw [if_neg hbegin] at hnext
          rw [if_neg hbegin, if_neg hbegin]
          exact hnext s rfl

end Simulation

/-! ## The verdict -/

theorem gated_agrees (hlib : lib.Published) (s : Scan) (declared : Declared) :
    (simdFinish.gated lib true false s declared).map SimdDecoded.toScalar =
      finish.finishGates s declared := by
  unfold simdFinish.gated finish.finishGates
  by_cases hlen : (trailerGates s.trailer declared).len.any (· ≠ s.data.length) = true
  · rw [if_pos hlen, if_pos hlen]
    rfl
  rw [if_neg hlen, if_neg hlen]
  cases placePart declared (trailerGates s.trailer declared).lenWaived with
  | error e => rfl
  | ok placed =>
    cases (trailerGates s.trailer declared).crc with
    | some header =>
      dsimp only
      rw [hlib.crc, if_pos (by rfl)]
      by_cases hcrc : Wire.crc32 s.data ≠ header
      · rw [if_pos hcrc, if_pos hcrc]
        rfl
      · rw [if_neg hcrc, if_neg hcrc]
        simp [Except.map, toScalar]
    | none =>
      cases (trailerGates s.trailer declared).crcAdvisory with
      | some advisory =>
        rw [hlib.crc]
        by_cases hcrc : Wire.crc32 s.data = advisory
        · simp [Except.map, toScalar, hcrc]
        · have hcrc' : ¬ advisory = Wire.crc32 s.data := fun h => hcrc h.symm
          simp [Except.map, toScalar, hcrc, hcrc']
      | none => simp [Except.map, toScalar]

theorem simdFinish_agrees (hlib : lib.Published) (s : Scan) :
    (simdFinish lib true false s).map SimdDecoded.toScalar = finish s := by
  have hgated := gated_agrees hlib s
  unfold simdFinish finish
  dsimp only
  split
  · rfl
  split
  · rfl
  cases s.part with
  | none => exact hgated _
  | some b =>
    cases s.trailer.part with
    | none => exact hgated _
    | some e =>
      dsimp only
      split
      · rfl
      · exact hgated _

/-- The CRC value a result carries is the one of its bytes, and vouches for them. -/
def SimdDecoded.CrcOfData (d : SimdDecoded) : Prop :=
  d.info.len = d.out.length ∧ ∀ c, d.integrity.verifiedArticleCrc = some c →
    c = Wire.crc32 d.out ∧ d.integrity.crcChecked = true

theorem gated_crc (hlib : lib.Published) {declared : Declared} {d : SimdDecoded}
    (h : simdFinish.gated lib true false s declared = .ok d) : d.CrcOfData := by
  unfold simdFinish.gated at h
  dsimp only at h
  rw [hlib.crc] at h
  split at h
  · cases h
  split at h
  · cases h
  case _ placed _ =>
    split at h
    case _ header _ =>
      rw [if_pos (by rfl)] at h
      split at h
      · cases h
      · cases h
        refine ⟨rfl, fun c hc => ?_⟩
        dsimp only at hc ⊢
        obtain ⟨hc, hv⟩ := filter_eq_some_iff.mp hc
        cases hc
        exact ⟨rfl, by rw [hv]; rfl⟩
    · split at h
      · split at h
        · cases h
          refine ⟨rfl, fun c hc => ?_⟩
          dsimp only at hc ⊢
          obtain ⟨hc, hv⟩ := filter_eq_some_iff.mp hc
          cases hc
          exact ⟨rfl, by rw [hv]; rfl⟩
        · cases h
          exact ⟨rfl, fun c hc => by cases hc⟩
      · cases h
        exact ⟨rfl, fun c hc => by cases hc⟩

theorem simdFinish_crc (hlib : lib.Published) {d : SimdDecoded}
    (h : simdFinish lib true false s = .ok d) : d.CrcOfData := by
  unfold simdFinish at h
  dsimp only at h
  split at h
  · cases h
  split at h
  · cases h
  split at h
  · split at h
    · cases h
    · exact gated_crc hlib h
  · exact gated_crc hlib h

/-- The SIMD decoder returns what the scalar one returns, on every regular body, when it verifies
CRCs: it never panics, the result or the error is the same, and so is the flag that says whether a
CRC vouches for it. -/
theorem decodeFramedSimd_eq {lib : RapidYenc} (hlib : lib.Published) {body : List UInt8}
    {encOk : Bool} (hbody : Regular encOk body) :
    ∃ r, decodeFramedSimd lib body true encOk false = some r ∧
      r.map SimdDecoded.toScalar = decodeFramed body encOk ∧
      ∀ d, r = .ok d → d.CrcOfData := by
  have hjoin := joinLines_splitLines body
  have hreg : RegularLines encOk ({} : Scan).seenBegin (splitLines body) :=
    { lf := lf_not_mem_splitLines body
      framed := framedLines_of_crlfFramed (by rw [hjoin]; exact hbody.framed)
      no_lone_dot := hbody.no_lone_dot
      paired := hbody.paired }
  have hagrees := simdLoop_agrees hlib (2 * body.length) (splitLines body) {} hreg
    (by rw [hjoin])
  rw [hjoin] at hagrees
  unfold decodeFramedSimd decodeFramed
  cases hleft : simdLoop lib encOk (2 * body.length) false body {} with
  | panic =>
    rw [hleft] at hagrees
    exact hagrees.elim
  | error e =>
    rw [hleft] at hagrees
    refine ⟨_, rfl, ?_, fun d hd => by cases hd⟩
    rw [show scanLines encOk scalarReader (splitLines body) {} = .error e from hagrees]
    rfl
  | done s =>
    rw [hleft] at hagrees
    refine ⟨_, rfl, ?_, fun d hd => simdFinish_crc hlib hd⟩
    rw [show scanLines encOk scalarReader (splitLines body) {} = .ok s from hagrees]
    exact simdFinish_agrees hlib s
  | fallback =>
    refine ⟨_, rfl, ?_, fun d hd => ?_⟩
    · cases (scanLines encOk scalarReader (splitLines body) {}).bind finish with
      | error e => rfl
      | ok r => simp [Except.map, toScalar]
    · cases hr : (scanLines encOk scalarReader (splitLines body) {}).bind finish with
      | error e => rw [hr] at hd; cases hd
      | ok r =>
        rw [hr] at hd
        cases hd
        exact ⟨rfl, fun c hc => by cases hc⟩

def lineDecoder : RapidYenc where
  decodeIncremental chunk := linePass (splitLines chunk)
  crc := Wire.crc32

theorem published_lineDecoder : lineDecoder.Published where
  decode _ _ _ := rfl
  crc _ := rfl

/-- An article with a dot-stuffed payload line, one that begins with `=y`, and a blank one. -/
def sampleArticle : List (List UInt8) :=
  [lit "=ybegin line=128 size=6 name=a\r", lit "..ab\r", lit "=y~\r", lit "\r", lit "c\r",
    lit "=yend size=6\r", []]

theorem decodeFramedSimd_eq_sample :
    ∃ r, decodeFramedSimd lineDecoder (joinLines sampleArticle) true false false = some r ∧
      r.map SimdDecoded.toScalar = decodeFramed (joinLines sampleArticle) false ∧
      ∀ d, r = .ok d → d.CrcOfData := by
  have hlf : ∀ l ∈ sampleArticle, LF ∉ l := by decide
  have hsplit : splitLines (joinLines sampleArticle) = sampleArticle :=
    splitLines_joinLines (cons_ne_nil _ _) hlf
  refine decodeFramedSimd_eq published_lineDecoder
    { framed := crlfFramed_of_framedLines hlf ?_, no_lone_dot := ?_, paired := ?_ }
  · simp only [sampleArticle, FramedLines]
    decide
  · rw [hsplit]
    decide
  · rw [hsplit]
    decide

end NzbFast.Yenc
