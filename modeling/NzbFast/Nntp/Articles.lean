import NzbFast.Nntp.Pipelined
import NzbFast.Yenc.RoundTrip

/-!
# Articles over the wire

No line the encoder writes is taken for the end of a response, so articles that are sent one after
the other are read and decoded to what was posted, however the socket cuts them.
-/

namespace NzbFast.Nntp

open List NzbFast.Rust

theorem unterminated_lines {lines : List (List UInt8)} (h : ∀ l ∈ lines, LF ∉ l ∧ l.head? ≠ some DOT) :
    Unterminated (lines.flatMap (· ++ [CR, LF])) := by
  induction lines with
  | nil => exact unterminated_nil
  | cons l lines ih =>
    obtain ⟨hlf, hdot⟩ := h l mem_cons_self
    rintro d k ⟨hstart, hd, hend⟩
    rw [flatMap_cons] at hstart hd hend
    have hlen : (l ++ [CR, LF]).length = l.length + 2 := length_append
    have hrest (i : Nat) : (l ++ [CR, LF] ++ lines.flatMap (· ++ [CR, LF]))[l.length + 2 + i]? =
        (lines.flatMap (· ++ [CR, LF]))[i]? := by
      rw [getElem?_append_right (by omega), hlen, Nat.add_sub_cancel_left]
    rcases Nat.lt_or_ge d (l.length + 2) with hlt | hge
    · rcases hstart with rfl | ⟨n, rfl, hn⟩
      · cases l with
        | nil => cases hd
        | cons b l => exact hdot hd
      · -- the line feed before the dot would be in the line, or the CR after it
        rw [append_assoc, getElem?_append] at hn
        split at hn
        · exact hlf (mem_of_getElem? hn)
        · rw [show n - l.length = 0 by omega] at hn
          cases hn
    · obtain ⟨e, rfl⟩ := Nat.exists_eq_add_of_le hge
      rw [hrest] at hd
      rw [add_assoc _ e, hrest, add_assoc _ e, hrest] at hend
      refine ih (fun l hl => h l (mem_cons_of_mem _ hl)) e k ⟨?_, hd, hend⟩
      refine (Nat.eq_zero_or_pos e).imp_right fun hpos => ⟨e - 1, by omega, ?_⟩
      obtain ⟨n, hn, hlf⟩ := hstart.resolve_left (by omega)
      rwa [← hrest, show l.length + 2 + (e - 1) = n by omega]

/-- An article as it is posted, and how a server frames it. -/
structure Posted where
  name : Text
  fileSize : Nat
  part : Option (Nat × Nat)
  beginAt : Nat
  data : List UInt8
  status : List UInt8
  lineEnd : List UInt8
  header : Yenc.HeaderName name
  size_lt : fileSize < 2 ^ 64
  data_ne : data ≠ []
  data_lt : data.length < 2 ^ 64
  part_ok : ∀ p total, part = some (p, total) →
    (1 ≤ p ∧ p < 2 ^ 32) ∧ 1 ≤ beginAt ∧ beginAt + data.length - 1 < 2 ^ 64
  status_lf : LF ∉ status
  status_len : status.length < MAX_STATUS_BYTES
  lineEnd_eq : lineEnd = [CR, LF] ∨ lineEnd = [LF]

namespace Posted

def body (a : Posted) : List UInt8 := Yenc.encode a.name a.fileSize a.part a.beginAt a.data

def decoded (a : Posted) : Yenc.Decoded :=
  { name := a.name, fileSize := a.fileSize, part := a.part.map (·.1)
    beginAt := if a.part.isSome then a.beginAt else 1
    endAt := if a.part.isSome then a.beginAt + a.data.length - 1 else a.fileSize
    data := a.data, encryption := none }

theorem body_lines (a : Posted) : ∃ lines : List (List UInt8), lines ≠ [] ∧
    a.body = lines.flatMap (· ++ [CR, LF]) ∧ ∀ l ∈ lines, LF ∉ l ∧ l.head? ≠ some DOT := by
  have hline {kw : String} {fields : Text} (hkw : LF ∉ Yenc.lit kw) (hf : '\n' ∉ fields) :
      LF ∉ Yenc.headerLine kw fields ∧ (Yenc.headerLine kw fields).head? ≠ some DOT :=
    ⟨fun h => Yenc.lf_not_mem_headerLine hkw hf (mem_append_left _ h), fun h => by cases h⟩
  have hbegin := hline (show LF ∉ Yenc.lit "begin" by decide)
    (Yenc.beginFields_not_mem a.header.lf a.fileSize a.part (.inl rfl))
  have hend := hline (show LF ∉ Yenc.lit "end" by decide)
    (Yenc.endFields_not_mem a.data.length a.part (Wire.crc32 a.data) (.inl rfl))
  obtain ⟨lines, hlines, hgood, -⟩ :=
    Yenc.encodePayload_lines a.data [] 0 (iff_of_true rfl rfl) Yenc.written_nil
  rw [nil_append] at hlines
  have hpayload : ∀ l ∈ lines, LF ∉ l ∧ l.head? ≠ some DOT := fun l hl =>
    ⟨(hgood l hl).lf, (hgood l hl).dot⟩
  unfold body Yenc.encode
  rw [hlines]
  cases hpart : a.part with
  | none =>
    refine ⟨_ :: (lines ++ [_]), cons_ne_nil _ _, ?_, forall_mem_cons.mpr ⟨hbegin, forall_mem_append.mpr
      ⟨hpayload, forall_mem_singleton.mpr hend⟩⟩⟩
    rw [hpart]
    simp
  | some pt =>
    have hpt := hline (show LF ∉ Yenc.lit "part" by decide) (Yenc.partFields_not_mem a.beginAt
      ((a.beginAt + a.data.length + (2 ^ 64 - 1)) % 2 ^ 64) (.inl rfl))
    refine ⟨_ :: _ :: (lines ++ [_]), cons_ne_nil _ _, ?_, forall_mem_cons.mpr ⟨hbegin,
      forall_mem_cons.mpr ⟨hpt, forall_mem_append.mpr ⟨hpayload, forall_mem_singleton.mpr hend⟩⟩⟩⟩
    rw [hpart]
    simp

def response (a : Posted) : Response where
  status := a.status
  payload := a.body
  lineEnd := a.lineEnd
  status_lf := a.status_lf
  status_len := a.status_len
  whole := by
    obtain ⟨lines, hne, hbody, -⟩ := a.body_lines
    right
    rw [hbody, ← dropLast_append_getLast hne, flatMap_append, flatMap_singleton, ← append_assoc]
    simp
  stuffed := by
    obtain ⟨lines, -, hbody, hlines⟩ := a.body_lines
    rw [hbody]
    exact unterminated_lines hlines
  lineEnd_eq := a.lineEnd_eq

theorem decode_body (a : Posted) (encOk : Bool) : Yenc.decode a.body encOk = .ok a.decoded :=
  congrArg (Except.map (Prod.fst : Yenc.Decoded × Bool → Yenc.Decoded)) (Yenc.decodeChecked_framed rfl
    (Yenc.decodeFramed_encode a.header a.size_lt a.data_ne a.data_lt a.part_ok encOk))

end Posted

/-- Posted articles arrive: what is read of them, one after the other, decodes to what was posted. -/
theorem articles_arrive (as : List Posted) {max : Nat} (hmax : ∀ a ∈ as, a.body.length ≤ max)
    {src : Source} {rest : List UInt8}
    (hpending : src.pending = as.flatMap (·.response.wire) ++ rest) (encOk : Bool) :
    ∃ got src', readResponses max as.length src = some (got, src') ∧ src'.pending = rest ∧
      got.map (fun r => Yenc.decode r.2 encOk) = as.map fun a => .ok a.decoded := by
  obtain ⟨src', hread, hrest⟩ := @readResponses_wire max (as.map Posted.response)
    (forall_mem_map.mpr hmax) src rest (by rwa [flatMap_map])
  rw [length_map] at hread
  refine ⟨_, src', hread, hrest, ?_⟩
  rw [map_map, map_map]
  exact map_congr_left fun a _ => a.decode_body encOk

def demo : Posted where
  name := "demo, disc 2.bin".toList
  fileSize := 3000
  part := some (2, 3)
  beginAt := 1001
  data := [4, 227, 214, 19, 224, 0]
  status := "222 body".toList.map fun c => UInt8.ofNat c.toNat
  lineEnd := [CR, LF]
  header := Yenc.headerName_sample
  size_lt := by decide
  data_ne := by decide
  data_lt := by decide
  part_ok _ _ h := by cases h; decide
  status_lf := by decide
  status_len := by decide
  lineEnd_eq := .inl rfl

theorem articles_arrive_demo : ∃ got src', readResponses demo.body.length 1
      ⟨demo.response.wire, 8, 8, [], by decide, le_rfl⟩ = some (got, src') ∧ src'.pending = [] ∧
      got.map (fun r => Yenc.decode r.2 false) = [.ok demo.decoded] :=
  articles_arrive [demo] (forall_mem_singleton.mpr le_rfl) (by simp [Source.pending, streamOf]) false

end NzbFast.Nntp
