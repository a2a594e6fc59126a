import NzbFast.Nntp.Multiline

/-!
# Pipelined responses

With pipelining the answers to a batch of commands follow one another on the
stream: a status line, read by `read_status` (`crates/nzbkit-base/src/nntp.rs`),
and the block after it. A read that took one byte more or less than its response
would hand every later command another one's answer.
-/

namespace NzbFast.Nntp

open List hiding le_refl le_total

def MAX_STATUS_BYTES : Nat := 64 * 1024

/-- `take(limit).read_until(b'\n')`. -/
def readUntil : Nat → Nat → Source → List UInt8 → Source × List UInt8
  | 0, _, src, line => (src, line)
  | fuel + 1, limit, src, line =>
    if limit = 0 then (src, line)
    else
      let src := src.fillBuf
      let available := src.buf.take limit
      match available.findIdx? (· == LF) with
      | some i => (src.consume (i + 1), line ++ available.take (i + 1))
      | none =>
        if available = [] then (src, line)
        else
          readUntil fuel (limit - available.length) (src.consume available.length)
            (line ++ available)

/-- `read_status`, up to the parse of the line. -/
def readStatus (src : Source) : Source × Except ReadEnd (List UInt8) :=
  let (src, line) := readUntil (src.pending.length + 1) MAX_STATUS_BYTES src []
  if line.length = 0 then (src, .error .closed)
  else if MAX_STATUS_BYTES ≤ line.length ∧ line.getLast? ≠ some LF then
    (src, .error (.tooLarge MAX_STATUS_BYTES))
  else (src, .ok line)

/-- `count` responses, one after the other. -/
def readResponses (max : Nat) : Nat → Source → Option (List (List UInt8 × List UInt8) × Source)
  | 0, src => some ([], src)
  | count + 1, src =>
    match readStatus src with
    | (src, .ok line) =>
      match readMultiline max src {} with
      | (r, some .ok) =>
        (readResponses max count r.src).map fun (rest, src) => ((line, r.out.bytes) :: rest, src)
      | _ => none
    | _ => none

/-- A response as a server sends it: a status line, dot-stuffed lines, and the lone dot. -/
structure Response where
  status : List UInt8
  payload : List UInt8
  lineEnd : List UInt8
  status_lf : LF ∉ status
  status_len : status.length < MAX_STATUS_BYTES
  whole : payload = [] ∨ payload.getLast? = some LF
  stuffed : Unterminated payload
  lineEnd_eq : lineEnd = [CR, LF] ∨ lineEnd = [LF]

namespace Response

def block (r : Response) : List UInt8 := r.payload ++ DOT :: r.lineEnd

def wire (r : Response) : List UInt8 := r.status ++ LF :: r.block

theorem firstTerminator (r : Response) (rest : List UInt8) :
    FirstTerminator (r.block ++ rest) r.payload.length r.lineEnd.length := by
  have hlast : ∀ n, r.payload.length = n + 1 → r.payload[n]? = some LF := by
    intro n hn
    rcases r.whole with hnil | hlf
    · rw [hnil] at hn
      cases hn
    · rwa [getLast?_eq_getElem?, hn] at hlf
  refine FirstTerminator.append ⟨⟨?_, ?_, ?_⟩, fun d k h => ?_⟩ rest
  · cases hn : r.payload.length with
    | zero => exact Or.inl rfl
    | succ n => exact Or.inr ⟨n, rfl, by rw [block, getElem?_append_left (by omega), hlast n hn]⟩
  · rw [block, getElem?_append_right (le_refl _), Nat.sub_self]
    rfl
  · have hat : ∀ i, r.block[r.payload.length + 1 + i]? = r.lineEnd[i]? := by
      intro i
      rw [block, getElem?_append_right (by omega),
        show r.payload.length + 1 + i - r.payload.length = i + 1 by omega, getElem?_cons_succ]
    have h0 := hat 0
    have h1 := hat 1
    rcases r.lineEnd_eq with he | he
    · rw [he] at h0 h1 ⊢
      exact Or.inl ⟨rfl, h0, h1⟩
    · rw [he] at h0 ⊢
      exact Or.inr ⟨rfl, h0⟩
  · -- an earlier dot would have its line end within the payload, whose last byte is one
    by_contra hlt
    refine r.stuffed d k (h.of_append ?_)
    obtain ⟨n, hn⟩ : ∃ n, r.payload.length = n + 1 := ⟨r.payload.length - 1, by omega⟩
    have hget : ∀ {i : Nat} {b : UInt8}, r.block[i]? = some b → i < r.payload.length →
        r.payload[i]? = some b := by
      intro i b hi hlen
      rwa [block, getElem?_append_left hlen] at hi
    have hne : ∀ i b, r.block[i]? = some b → b ≠ LF → i ≠ n := by
      rintro i b hi hb rfl
      have := hget hi (by omega)
      rw [hlast i hn] at this
      exact hb (Option.some.inj this).symm
    obtain ⟨-, hdot, ⟨rfl, hcr, -⟩ | ⟨rfl, -⟩⟩ := h
    · have h1 := hne d DOT hdot (by decide)
      have h2 := hne (d + 1) CR hcr (by decide)
      omega
    · have h1 := hne d DOT hdot (by decide)
      omega

end Response

/-! ## The status line -/

theorem findIdx?_lf {l : List UInt8} (h : LF ∉ l) (rest : List UInt8) :
    (l ++ LF :: rest).findIdx? (· == LF) = some l.length := by
  have hnone : l.findIdx? (· == LF) = none := by
    rw [findIdx?_eq_none_iff]
    intro x hx
    rw [beq_eq_false_iff_ne]
    rintro rfl
    exact h hx
  rw [findIdx?_append, hnone, findIdx?_cons]
  simp

theorem readUntil_line {fuel limit : Nat} {src : Source} {line l rest : List UInt8}
    (hpending : src.pending = l ++ LF :: rest) (hl : LF ∉ l) (hlimit : l.length < limit)
    (hfuel : src.pending.length < fuel) :
    (readUntil fuel limit src line).2 = line ++ l ++ [LF] ∧
      (readUntil fuel limit src line).1.pending = rest := by
  induction fuel generalizing limit src line l with
  | zero => omega
  | succ fuel ih =>
    unfold readUntil
    rw [if_neg (by omega)]
    dsimp only
    have hfill : src.fillBuf.pending = l ++ LF :: rest := by rw [Source.pending_fillBuf, hpending]
    have hne : src.fillBuf.buf ≠ [] := by
      intro hnil
      have hend := Source.fillBuf_eq_nil hnil
      rw [hpending] at hend
      simp at hend
    have hfuel : src.fillBuf.pending.length < fuel + 1 := by rwa [Source.pending_fillBuf]
    generalize src.fillBuf = filled at hfill hne hfuel ⊢
    have hlen : (filled.buf.take limit).length ≤ filled.buf.length := length_take_le' _ _
    have hsplit : filled.buf.take limit ++ filled.pending.drop (filled.buf.take limit).length =
        l ++ LF :: rest := by
      rw [← hfill]
      rw [Source.pending, drop_append_of_le_length hlen, ← append_assoc, length_take]
      rcases le_total limit filled.buf.length with hle | hle
      · rw [min_eq_left hle, take_append_drop]
      · rw [min_eq_right hle, take_of_length_le hle, drop_length, append_nil]
    have havail : filled.buf.take limit ≠ [] := by
      rw [Ne, take_eq_nil_iff]
      exact fun h => h.elim (by omega) hne
    generalize filled.buf.take limit = available at hlen hsplit havail ⊢
    have hcases : (∃ a, l = available ++ a ∧
          filled.pending.drop available.length = a ++ LF :: rest) ∨
        ∃ c, available = l ++ LF :: c ∧ rest = c ++ filled.pending.drop available.length := by
      rcases append_eq_append_iff.mp hsplit with h | ⟨c, hav, htail⟩
      · exact Or.inl h
      · cases c with
        | nil => exact Or.inl ⟨[], by simpa using hav.symm, by simpa using htail.symm⟩
        | cons b c =>
          obtain ⟨rfl, hrest⟩ := cons.inj htail
          exact Or.inr ⟨c, hav, hrest⟩
    rcases hcases with ⟨a, hla, htail⟩ | ⟨c, hav, hrest⟩
    · -- the chunk ends before the line does
      have hmiss : available.findIdx? (· == LF) = none := by
        rw [findIdx?_eq_none_iff]
        intro x hx
        rw [beq_eq_false_iff_ne]
        rintro rfl
        exact hl (hla ▸ mem_append_left _ hx)
      rw [hmiss]
      rw [if_neg havail]
      have hpos := length_pos_of_ne_nil havail
      have hconsumed := Source.pending_consume hlen
      have hll : l.length = available.length + a.length := by rw [hla, length_append]
      have hpl : filled.pending.length = l.length + (rest.length + 1) := by
        rw [hfill, length_append, length_cons]
      have hnext : (filled.consume available.length).pending = a ++ LF :: rest := by
        rw [hconsumed, htail]
      have hstep := @ih (limit - available.length) (filled.consume available.length)
        (line ++ available) a hnext (fun h => hl (hla ▸ mem_append_right _ h)) (by omega)
        (by rw [hconsumed, length_drop]; omega)
      rwa [append_assoc line, ← hla] at hstep
    · have htake : available.take (l.length + 1) = l ++ [LF] := by
        rw [hav, take_length_add_append]
        rfl
      have hll : l.length + 1 ≤ available.length := by
        rw [hav, length_append, length_cons]
        omega
      rw [hav, findIdx?_lf hl, ← hav]
      dsimp only
      rw [htake, Source.pending_consume (by omega), hfill, append_assoc line,
        show l ++ LF :: rest = (l ++ [LF]) ++ rest by simp,
        show l.length + 1 = (l ++ [LF]).length by simp, drop_left]
      exact ⟨rfl, rfl⟩

theorem readStatus_line (r : Response) {src : Source} {rest : List UInt8}
    (hpending : src.pending = r.status ++ LF :: rest) :
    (readStatus src).2 = .ok (r.status ++ [LF]) ∧ (readStatus src).1.pending = rest := by
  obtain ⟨hline, hrest⟩ := @readUntil_line _ _ _ [] _ _ hpending r.status_lf r.status_len
    (Nat.lt_succ_self src.pending.length)
  unfold readStatus
  dsimp only
  rw [hline, nil_append, if_neg (by simp), if_neg (by simp)]
  exact ⟨rfl, hrest⟩

/-! ## A batch -/

theorem readMultiline_block {max : Nat} (r : Response) (hmax : r.payload.length ≤ max)
    {src : Source} {rest : List UInt8} (hpending : src.pending = r.block ++ rest) :
    (readMultiline max src {}).2 = some .ok ∧
      (readMultiline max src {}).1.out.bytes = r.payload ∧
      (readMultiline max src {}).1.src.pending = rest := by
  have hreads := readMultiline_reads max src {}
  rw [hpending] at hreads
  obtain ⟨hok, hout, hrest, -⟩ := hreads.ok _ _ (r.firstTerminator rest) hmax
  refine ⟨hok, ?_, ?_⟩
  · rw [hout, Response.block, append_assoc, take_left]
    rfl
  · have hlen : r.payload.length + 1 + r.lineEnd.length = r.block.length := by
      rw [Response.block, length_append, length_cons]
      omega
    rw [hrest, hlen, drop_left]

/-- Responses sent one after the other are read back one after the other, however the socket
delivers them. -/
theorem readResponses_wire {max : Nat} {rs : List Response}
    (hmax : ∀ r ∈ rs, r.payload.length ≤ max) {src : Source} {rest : List UInt8}
    (hpending : src.pending = rs.flatMap Response.wire ++ rest) :
    ∃ src', readResponses max rs.length src =
      some (rs.map fun r => (r.status ++ [LF], r.payload), src') ∧ src'.pending = rest := by
  induction rs generalizing src with
  | nil => exact ⟨src, rfl, hpending⟩
  | cons r rs ih =>
    rw [flatMap_cons, Response.wire, append_assoc, append_assoc, cons_append]
      at hpending
    obtain ⟨hstatus, hblock⟩ := readStatus_line r hpending
    obtain ⟨hok, hout, hrest⟩ := readMultiline_block r (hmax r (by simp)) hblock
    obtain ⟨src', hread, hend⟩ := ih (fun r hr => hmax r (by simp [hr])) hrest
    refine ⟨src', ?_, hend⟩
    rw [length_cons, readResponses, show readStatus src =
      ((readStatus src).1, (readStatus src).2) from rfl, hstatus]
    dsimp only
    rw [show readMultiline max (readStatus src).1 {} = ((readMultiline max (readStatus src).1 {}).1,
      (readMultiline max (readStatus src).1 {}).2) from rfl, hok]
    dsimp only
    rw [hread, hout]
    rfl

theorem firstTerminator_or_unterminated (s : List UInt8) :
    (∃ d k, FirstTerminator s d k) ∨ Unterminated s := by
  cases h : findTerminator [] s with
  | some hit => exact Or.inl ⟨hit.1, hit.2, findTerminator_eq_some unterminated_nil h⟩
  | none => exact Or.inr (findTerminator_eq_none unterminated_nil h)

/-- A read is a function of the stream: it ends at the first lone dot, unless the payload before
it is too large, and what comes after the dot's line is untouched. So a batch of responses is
read back as it was sent. -/
theorem readMultiline_chunking (max : Nat) (src : Source) (out : Vec) :
    let res := readMultiline max src out
    (∀ d k, FirstTerminator src.pending d k →
      (res.2 = some .ok ↔ d ≤ max) ∧ (res.2 = some (.tooLarge max) ↔ max < d) ∧
        (d ≤ max → res.1.out.bytes = out.bytes ++ src.pending.take d ∧
          res.1.src.pending = src.pending.drop (d + 1 + k))) ∧
      (Unterminated src.pending → res.2 ≠ some .ok) ∧
      (∀ src' : Source, src'.pending = src.pending →
        (readMultiline max src' out).2 = res.2 ∧
          (res.2 = some .ok → (readMultiline max src' out).1.out.bytes = res.1.out.bytes ∧
            (readMultiline max src' out).1.src.pending = res.1.src.pending)) ∧
      ∀ (rs : List Response) (rest : List UInt8), (∀ r ∈ rs, r.payload.length ≤ max) →
        src.pending = rs.flatMap Response.wire ++ rest →
        ∃ src', readResponses max rs.length src =
          some (rs.map fun r => (r.status ++ [LF], r.payload), src') ∧ src'.pending = rest := by
  have hreads := readMultiline_reads max src out
  refine ⟨fun d k hf => ?_, fun hun => ?_, fun src' hsrc => ?_,
    fun rs rest hmax hpending => readResponses_wire hmax hpending⟩
  · rcases le_or_gt d max with hle | hlt
    · obtain ⟨hok, hout, hrest, -⟩ := hreads.ok d k hf hle
      simp [hok, hout, hrest, hle]
    · have hlong := hreads.tooLarge d k hf hlt
      simp [hlong, hlt, not_le.mpr hlt]
  · rw [hreads.unended hun]
    split <;> simp
  · have hreads' := readMultiline_reads max src' out
    rw [hsrc] at hreads'
    rcases firstTerminator_or_unterminated src.pending with ⟨d, k, hf⟩ | hun
    · rcases le_or_gt d max with hle | hlt
      · obtain ⟨hok, hout, hrest, -⟩ := hreads.ok d k hf hle
        obtain ⟨hok', hout', hrest', -⟩ := hreads'.ok d k hf hle
        exact ⟨hok'.trans hok.symm, fun _ => ⟨hout'.trans hout.symm, hrest'.trans hrest.symm⟩⟩
      · rw [hreads.tooLarge d k hf hlt, hreads'.tooLarge d k hf hlt]
        exact ⟨rfl, fun h => by cases h⟩
    · rw [hreads.unended hun, hreads'.unended hun]
      exact ⟨rfl, fun h => by split at h <;> cases h⟩

end NzbFast.Nntp
