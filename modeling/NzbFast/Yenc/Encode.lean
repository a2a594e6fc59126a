import NzbFast.Yenc.Scalar

/-!
# The encoder

`encode` of `crates/nzbkit-base/src/yenc.rs`, and the lines it writes: no payload
line is empty, begins with a dot or with `=y`, or holds a raw line break, and the
payload of the lines is the data again.
-/

namespace NzbFast.Yenc

open NzbFast.Rust List

def LINE_LEN : Nat := 128

def encodePayload : Nat → List UInt8 → List UInt8
  | col, [] => if 0 < col then [CR, LF] else []
  | col, b :: data =>
    let enc := b + 42
    let critical := enc = 0x00 ∨ enc = LF ∨ enc = CR ∨ enc = EQ ∨ (col = 0 ∧ enc = DOT)
    let out := if critical then [EQ, enc + 64] else [enc]
    let col := if critical then col + 2 else col + 1
    if LINE_LEN ≤ col then out ++ CR :: LF :: encodePayload 0 data
    else out ++ encodePayload col data

/-- The `=ybegin` line, past the keyword. -/
def beginFields (name : Text) (fileSize : Nat) (part : Option (Nat × Nat)) : Text :=
  (match part with
    | some (p, total) => "part=".toList ++ decimal p ++ " total=".toList ++ decimal total ++ [' ']
    | none => []) ++
  "line=".toList ++ decimal LINE_LEN ++ " size=".toList ++ decimal fileSize ++ " name=".toList ++
    name

def partFields (beginAt endAt : Nat) : Text :=
  "begin=".toList ++ decimal beginAt ++ " end=".toList ++ decimal endAt

def endFields (len : Nat) (part : Option (Nat × Nat)) (crc : Nat) : Text :=
  "size=".toList ++ decimal len ++
  match part with
  | some (p, _) => " part=".toList ++ decimal p ++ " pcrc32=".toList ++ hexPadded 8 crc
  | none => " crc32=".toList ++ hexPadded 8 crc

def headerLine (kw : String) (fields : Text) : List UInt8 :=
  lit "=y" ++ lit kw ++ SP :: Rust.encode fields

/-- `encode`. The last byte of the range is computed in `u64` as a release build does. -/
def encode (name : Text) (fileSize : Nat) (part : Option (Nat × Nat)) (beginAt : Nat)
    (data : List UInt8) : List UInt8 :=
  headerLine "begin" (beginFields name fileSize part) ++ CR :: LF ::
  ((match part with
    | some _ =>
      let endAt := (beginAt + data.length + (2 ^ 64 - 1)) % 2 ^ 64
      headerLine "part" (partFields beginAt endAt) ++ [CR, LF]
    | none => []) ++
  encodePayload 0 data ++
  headerLine "end" (endFields data.length part (Wire.crc32 data)) ++ [CR, LF])

/-! ## Payload lines -/

/-- A line that carries payload and nothing else, on the wire and for the decoder. -/
structure PayloadLine (l : List UInt8) : Prop where
  lf : LF ∉ l
  cr : CR ∉ l
  dot : l.head? ≠ some DOT
  control : ¬ lit "=y" <+: l

/-- A partial line the encoder may have written: what it decodes to stands, whatever follows. -/
structure Written (l : List UInt8) : Prop extends PayloadLine l where
  decode_append : ∀ t, decodeLine (l ++ t) = decodeLine l ++ decodeLine t

theorem written_nil : Written [] where
  lf := by simp
  cr := by simp
  dot := by simp
  control h := by cases eq_nil_of_prefix_nil h
  decode_append t := rfl

theorem add_sub_escape (b : UInt8) : b + 42 + 64 - 64 - 42 = b := by
  rw [UInt8.add_sub_cancel, UInt8.add_sub_cancel]

/-- What one byte is written as, after a partial line `l`. -/
structure Escaped (l : List UInt8) (b : UInt8) (out : List UInt8) : Prop where
  lf : LF ∉ out
  cr : CR ∉ out
  dot : l = [] → out.head? ≠ some DOT
  control : l = [] → ¬ lit "=y" <+: out
  ne : out ≠ []
  decode : ∀ t, decodeLine (out ++ t) = b :: decodeLine t

theorem escaped (l : List UInt8) (b : UInt8) {col : Nat} (hcol : col = 0 ↔ l = []) :
    Escaped l b (if b + 42 = 0x00 ∨ b + 42 = LF ∨ b + 42 = CR ∨ b + 42 = EQ ∨
      (col = 0 ∧ b + 42 = DOT) then [EQ, b + 42 + 64] else [b + 42]) := by
  split
  case isTrue h =>
    have hne : ∀ c : UInt8, c ∈ [LF, CR, 0x79] → b + 42 + 64 ≠ c := by
      intro c hc he
      have hb : b + 42 = c - 64 := by rw [← he, UInt8.add_sub_cancel]
      rw [hb] at h
      simp only [mem_cons, not_mem_nil, or_false] at hc
      rcases hc with rfl | rfl | rfl <;> rcases h with h | h | h | h | ⟨-, h⟩ <;>
        exact absurd h (by decide)
    refine ⟨fun hm => ?_, fun hm => ?_, fun _ => by simp; decide, fun _ => ?_, by simp,
      fun t => ?_⟩
    · rcases mem_cons.mp hm with hm | hm
      · exact absurd hm (by decide)
      · exact hne LF (by simp) (mem_singleton.mp hm).symm
    · rcases mem_cons.mp hm with hm | hm
      · exact absurd hm (by decide)
      · exact hne CR (by simp) (mem_singleton.mp hm).symm
    · rw [show lit "=y" = [EQ, 0x79] from rfl, cons_prefix_cons, cons_prefix_cons]
      exact fun hp => hne 0x79 (by simp) hp.2.1.symm
    · rw [cons_append, cons_append, nil_append, decodeLine_escape, add_sub_escape]
  case isFalse h =>
    simp only [not_or, not_and] at h
    obtain ⟨-, hlf, hcr, heq, hdot⟩ := h
    refine ⟨fun hm => hlf (mem_singleton.mp hm).symm, fun hm => hcr (mem_singleton.mp hm).symm,
      fun hl => ?_, fun _ hp => ?_, by simp, fun t => ?_⟩
    · simpa using hdot (hcol.mpr hl)
    · exact absurd (show 2 ≤ 1 from hp.length_le) (by decide)
    · rw [singleton_append, decodeLine_plain heq hcr hlf, UInt8.add_sub_cancel]

theorem Written.append {l out : List UInt8} {b : UInt8} (h : Written l) (ho : Escaped l b out) :
    Written (l ++ out) ∧ decodeLine (l ++ out) = decodeLine l ++ [b] := by
  have hdec : decodeLine out = [b] := by simpa [decodeLine] using ho.decode []
  refine ⟨⟨⟨?_, ?_, ?_, ?_⟩, fun t => ?_⟩, by rw [h.decode_append, hdec]⟩
  · simp [h.lf, ho.lf]
  · simp [h.cr, ho.cr]
  · cases l with
    | nil => exact ho.dot rfl
    | cons x l => exact h.dot
  · intro hp
    rcases l with _ | ⟨x, _ | ⟨y, l⟩⟩
    · exact ho.control rfl hp
    · -- a lone escape is not a written line
      have hx : x = EQ := (cons_prefix_cons.mp hp).1.symm
      subst hx
      have := h.decode_append [0x41]
      exact absurd this (by decide)
    · refine h.control ?_
      rw [show lit "=y" = [EQ, 0x79] from rfl, cons_append, cons_append,
        cons_prefix_cons, cons_prefix_cons] at hp
      rw [show lit "=y" = [EQ, 0x79] from rfl, cons_prefix_cons, cons_prefix_cons]
      exact ⟨hp.1, hp.2.1, nil_prefix⟩
  · rw [append_assoc, h.decode_append, ho.decode, h.decode_append, hdec]
    simp

theorem encodePayload_lines (data l : List UInt8) (col : Nat) (hcol : col = 0 ↔ l = [])
    (hl : Written l) : ∃ lines : List (List UInt8),
      l ++ encodePayload col data = lines.flatMap (· ++ [CR, LF]) ∧
      (∀ line ∈ lines, PayloadLine line) ∧
      lines.flatMap decodeLine = decodeLine l ++ data := by
  induction data generalizing l col with
  | nil =>
    unfold encodePayload
    by_cases hc : col = 0
    · refine ⟨[], ?_, by simp, ?_⟩
      · rw [hcol.mp hc, if_neg (by omega)]
        rfl
      · rw [hcol.mp hc]
        rfl
    · exact ⟨[l], by rw [if_pos (by omega)]; simp, by simpa using hl.toPayloadLine, by simp⟩
  | cons b data ih =>
    have hesc := escaped l b hcol
    obtain ⟨hw, hdec⟩ := hl.append hesc
    unfold encodePayload
    dsimp only
    generalize (if b + 42 = 0x00 ∨ b + 42 = LF ∨ b + 42 = CR ∨ b + 42 = EQ ∨
      (col = 0 ∧ b + 42 = DOT) then [EQ, b + 42 + 64] else [b + 42]) = out at hesc hw hdec ⊢
    have hpos : ∀ c : Prop, [Decidable c] → (if c then col + 2 else col + 1) ≠ 0 := by
      intro c _
      split <;> omega
    generalize hnext : (if b + 42 = 0x00 ∨ b + 42 = LF ∨ b + 42 = CR ∨ b + 42 = EQ ∨
      (col = 0 ∧ b + 42 = DOT) then col + 2 else col + 1) = next
    have hne : l ++ out ≠ [] := by simp [hesc.ne]
    split
    case isTrue =>
      obtain ⟨lines, hlines, hgood, hdata⟩ := ih [] 0 (by simp) written_nil
      refine ⟨(l ++ out) :: lines, ?_, ?_, ?_⟩
      · rw [flatMap_cons, ← hlines]
        simp
      · intro line hline
        rcases mem_cons.mp hline with rfl | hline
        · exact hw.toPayloadLine
        · exact hgood line hline
      · rw [flatMap_cons, hdata, hdec]
        simp [decodeLine]
    case isFalse =>
      obtain ⟨lines, hlines, hgood, hdata⟩ := ih (l ++ out) next
        (iff_of_false (hnext ▸ hpos _) hne) hw
      refine ⟨lines, by rw [← hlines, append_assoc], hgood, ?_⟩
      rw [hdata, hdec]
      simp

end NzbFast.Yenc
