import NzbFast.Index.SegDelimited

/-!
# The readers behind the SQL functions

`seg_count` reads a compact row's header, `seg_first` its first segment and
`parse_bytes` all of it. They agree where the row decodes. A row that does not
still has a header: where that declares segments, `count_bytes` answers with
the declared count.
-/

namespace NzbFast.Index

open Wire NzbFast.Rust

/-- A stored value in the compact form: a slice that starts with `MAGIC`, of at most `isize::MAX`
bytes. -/
structure CompactRow where
  rest : List UInt8
  length_lt : rest.length + 1 < 2 ^ 63

namespace CompactRow

def raw (r : CompactRow) : List UInt8 := MAGIC :: r.rest

/-- The count a row declares; `none` where the row ends inside it. -/
def declared (r : CompactRow) : Option UInt64 := (varint.run r.rest).map Prod.fst

theorem isEncoded_raw (r : CompactRow) : isEncoded r.raw = true := rfl

end CompactRow

/-! ## Segment runs -/

section Segs

variable {σ : Type} {textLimit : Nat} {strictUtf8 : Bool} {keepGoing : σ → Bool × σ}
  {pre suf : List UInt8}

variable {buf rest : List UInt8}

theorem length_le_of_local {α : Type} {p : Reader α} (hp : Local p) {x : α}
    (h : p.run buf = some (x, rest)) : rest.length ≤ buf.length := by
  obtain ⟨w, rfl, -⟩ := hp buf x rest h
  rw [List.length_append]
  exact Nat.le_add_left _ _

/-- Every segment takes its flag byte. -/
theorem length_lt_of_decodeSeg {index : Nat} {st : DecodeState} {s : σ} {x : Seg × DecodeState × σ}
    (h : (decodeSeg textLimit strictUtf8 keepGoing pre suf index st s).run buf = some (x, rest)) :
    rest.length < buf.length := by
  obtain ⟨s, buf', hs, h⟩ := run_bind_eq_some h
  have hbuf := length_le_of_local (Local.lift _) hs
  obtain ⟨flags, buf'', hflags, h⟩ := run_bind_eq_some h
  have hflag : buf''.length + 1 = buf'.length := by
    cases buf' with
    | nil => cases hflags
    | cons b l =>
      cases hflags
      rfl
  refine lt_of_le_of_lt (length_le_of_local ?_ h) (by omega)
  refine (local_readNumber flags st.prevNum).bind fun num => ?_
  refine (local_readCount flags st.prevBytes).bind fun bytes => local_varint.bind fun mlen => ?_
  refine (Local.lift _).bind fun idLen => (Local.lift _).bind fun idLen => ?_
  refine (Local.lift _).bind fun text => .ite (fun _ => .failure) fun _ => ?_
  refine (local_getMiddleLoop keepGoing _ _ _ s).bind fun mid => ?_
  exact (Local.lift _).bind fun num32 => (Local.lift _).bind fun id => .pure _

theorem length_of_decodeSegs {want : Nat} : ∀ {index : Nat} {st : DecodeState} {s t : σ}
    {buf rest : List UInt8} {out : List Seg},
    (decodeSegs textLimit strictUtf8 keepGoing pre suf want index st s).run buf =
        some ((out, t), rest) →
      out.length = want ∧ out.length + rest.length ≤ buf.length := by
  induction want with
  | zero =>
    intro index st s t buf rest out h
    cases h
    exact ⟨rfl, by rw [List.length_nil, zero_add]⟩
  | succ want ih =>
    intro index st s t buf rest out h
    obtain ⟨⟨seg, st', s'⟩, mid, hseg, h⟩ := run_bind_eq_some h
    obtain ⟨⟨segs, s''⟩, _, hsegs, h⟩ := run_bind_eq_some h
    cases h
    obtain ⟨hlen, hle⟩ := ih hsegs
    have hlt := length_lt_of_decodeSeg hseg
    rw [List.length_cons]
    omega

theorem decodeSegs_one {want index : Nat} {st : DecodeState} {s t : σ} {out : List Seg}
    (h : (decodeSegs textLimit strictUtf8 keepGoing pre suf (want + 1) index st s).run buf = some ((out, t), rest)) :
    ∃ first t' rest', out.head? = some first ∧ (want = 0 → rest' = rest) ∧
      (decodeSegs textLimit strictUtf8 keepGoing pre suf 1 index st s).run buf =
        some (([first], t'), rest') := by
  obtain ⟨⟨seg, st', s'⟩, mid, hseg, h⟩ := run_bind_eq_some h
  obtain ⟨⟨segs, s''⟩, _, hsegs, h⟩ := run_bind_eq_some h
  cases h
  refine ⟨seg, s', mid, rfl, fun hw => ?_, ?_⟩
  · subst hw
    cases hsegs
    rfl
  · unfold decodeSegs
    rw [StateT.run_bind, hseg]
    rfl

end Segs

/-! ## The header -/

/-- What stands in front of the segments: the declared count, the prefix and the suffix. -/
def readHeader : Reader (UInt64 × List UInt8 × List UInt8) := do
  let n ← varint
  let plen ← varint
  let pre ← readBytes plen.toNat
  let slen ← varint
  let suf ← readBytes slen.toNat
  pure (n, pre, suf)

theorem decodeBody_eq {σ : Type} (textLimit : Nat) (strictUtf8 : Bool) (keepGoing : σ → Bool × σ)
    (limit : Nat) (s : σ) : decodeBody textLimit strictUtf8 keepGoing limit s =
      u8 >>= fun magic => if magic ≠ MAGIC then failure else
        readHeader >>= fun h => decodeSegs textLimit strictUtf8 keepGoing h.2.1 h.2.2
          (min h.1.toNat limit) 0 ⟨0, 0, 0⟩ s >>= fun x => pure (h.1.toNat, x) := by
  unfold decodeBody readHeader
  simp only [bind_assoc, pure_bind]

variable {h : UInt64 × List UInt8 × List UInt8}

theorem declared_of_readHeader {r : CompactRow} {body : List UInt8}
    (hh : readHeader.run r.rest = some (h, body)) : r.declared = some h.1 := by
  obtain ⟨n, mid, hn, hh⟩ := run_bind_eq_some hh
  obtain ⟨_, _, -, hh⟩ := run_bind_eq_some hh
  obtain ⟨_, _, -, hh⟩ := run_bind_eq_some hh
  obtain ⟨_, _, -, hh⟩ := run_bind_eq_some hh
  obtain ⟨_, _, -, hh⟩ := run_bind_eq_some hh
  cases hh
  rw [CompactRow.declared, hn]
  rfl

/-- The segments behind a header, of which at most `limit` are read. -/
def readSegs (limit : Nat) (h : UInt64 × List UInt8 × List UInt8) (body : List UInt8) :
    Option (List Seg) :=
  match (decodeSegs usizeMax false (fun s : Unit => (true, s)) h.2.1 h.2.2
    (min h.1.toNat limit) 0 ⟨0, 0, 0⟩ ()).run body with
  | some ((out, _), rest) => if min h.1.toNat limit = h.1.toNat ∧ rest ≠ [] then none else some out
  | none => none

theorem decodePrefix_raw (r : CompactRow) (limit : Nat) :
    decodePrefix r.raw limit = (readHeader.run r.rest).bind fun x => readSegs limit x.1 x.2 := by
  have hbody : (decodeBody usizeMax false (fun s : Unit => (true, s)) limit ()).run r.raw =
      (readHeader >>= fun h => decodeSegs usizeMax false (fun s : Unit => (true, s)) h.2.1 h.2.2
        (min h.1.toNat limit) 0 ⟨0, 0, 0⟩ () >>= fun x => pure (h.1.toNat, x)).run r.rest := by
    rw [decodeBody_eq]
    rfl
  unfold decodePrefix decodePrefixImpl decodePrefixImplGuarded
  rw [hbody, StateT.run_bind]
  cases readHeader.run r.rest with
  | none => rfl
  | some x =>
    obtain ⟨h, body⟩ := x
    simp only [Option.bind_eq_bind, Option.bind_some, StateT.run_bind, readSegs]
    cases (decodeSegs usizeMax false (fun s : Unit => (true, s)) h.2.1 h.2.2
        (min h.1.toNat limit) 0 ⟨0, 0, 0⟩ ()).run body with
    | none => rfl
    | some y =>
      simp only [Option.bind_some, StateT.run_pure, Option.pure_def]
      split_ifs
      · rfl
      · rfl

/-- `first_msgid_bytes` reads one segment less deep than `parse_bytes` does, with the same answer
where there is one. -/
theorem readSegs_one {body : List UInt8} {segs : List Seg}
    (hsegs : readSegs usizeMax h body = some segs) :
    segs.length = h.1.toNat ∧ segs.length ≤ body.length ∧
      ∃ first, readSegs 1 h body = some first ∧ first.head? = segs.head? := by
  have hmin : min h.1.toNat usizeMax = h.1.toNat := by
    have := h.1.toNat_lt
    unfold usizeMax
    omega
  unfold readSegs at hsegs
  rw [hmin] at hsegs
  split at hsegs
  case h_2 => cases hsegs
  case h_1 out t rest hrun =>
    split at hsegs
    case isTrue => cases hsegs
    case isFalse hdone =>
      cases hsegs
      have hrest : rest = [] := by
        by_contra hne
        exact hdone ⟨rfl, hne⟩
      subst hrest
      obtain ⟨hlen, hle⟩ := length_of_decodeSegs hrun
      refine ⟨hlen, by omega, ?_⟩
      unfold readSegs
      cases hn : h.1.toNat with
      | zero =>
        rw [hn] at hrun
        rw [zero_min, hrun]
        exact ⟨segs, rfl, rfl⟩
      | succ n =>
        rw [hn] at hrun
        obtain ⟨first, t', rest', hfirst, hzero, hone⟩ := decodeSegs_one hrun
        rw [Nat.min_eq_right (Nat.succ_le_succ (Nat.zero_le n)), hone]
        refine ⟨[first], if_neg fun hpast => hpast.2 (hzero (by omega)), hfirst.symm⟩

theorem readSegs_zero (h0 : h.1 = 0) (body : List UInt8) (limit : Nat) :
    readSegs limit h body = readSegs usizeMax h body := by
  unfold readSegs
  rw [h0]
  simp

/-! ## The agreement -/

theorem asI64_eq {n : UInt64} (h : n.toNat < 2 ^ 63) : asI64 n = n.toNat := by
  unfold asI64
  rw [BitVec.toInt_eq_toNat_of_lt]
  · rfl
  · show 2 * n.toNat < 2 ^ 64
    omega

theorem asI64_eq_zero {n : UInt64} : asI64 n = 0 ↔ n = 0 := by
  rw [← UInt64.toBitVec_inj, ← BitVec.toInt_inj]
  rfl

theorem countBytes_raw (r : CompactRow) : countBytes r.raw = (r.declared.map asI64).getD 0 := by
  unfold countBytes CompactRow.declared
  have hrest : r.raw.drop 1 = r.rest := rfl
  rw [hrest]
  cases varint.run r.rest with
  | none => rfl
  | some x => rfl

variable (fromJson : List UInt8 → Option (List Seg))

theorem firstMsgidBytes_raw (r : CompactRow) :
    firstMsgidBytes fromJson r.raw = (decodePrefix r.raw 1).bind fun segs => segs.head?.map Seg.id := by
  rfl

theorem parseBytes_raw (r : CompactRow) : parseBytes fromJson r.raw = (decode r.raw).getD [] := by
  unfold parseBytes
  rw [if_pos r.isEncoded_raw]

/-- The readers agree exactly on the rows that decode and on those that declare no segments, or
end before they declare any. -/
theorem readers_agree_iff (r : CompactRow) :
    (countBytes r.raw = (parseBytes fromJson r.raw).length ∧
      firstMsgidBytes fromJson r.raw = (parseBytes fromJson r.raw).head?.map Seg.id) ↔
      (decode r.raw).isSome = true ∨ ∀ n, r.declared = some n → n = 0 := by
  rw [countBytes_raw, firstMsgidBytes_raw, parseBytes_raw]
  cases hdec : decode r.raw with
  | some segs =>
    refine iff_of_true ?_ (.inl rfl)
    rw [decode, decodePrefix_raw] at hdec
    obtain ⟨⟨h, body⟩, hheader, hsegs⟩ := Option.bind_eq_some_iff.mp hdec
    obtain ⟨hlen, hle, first, hfirst, hhead⟩ := readSegs_one hsegs
    have hbody : body.length ≤ r.rest.length := by
      refine length_le_of_local ?_ hheader
      refine local_varint.bind fun n => local_varint.bind fun plen => ?_
      refine (local_readBytes _).bind fun pre => local_varint.bind fun slen => ?_
      exact (local_readBytes _).bind fun suf => .pure _
    have hlt := r.length_lt
    dsimp only at hlen hle
    rw [declared_of_readHeader hheader, decodePrefix_raw, hheader, Option.bind_some, hfirst,
      Option.bind_some, hhead]
    exact ⟨by rw [Option.map_some, Option.getD_some, asI64_eq (by omega), ← hlen]; rfl, rfl⟩
  | none =>
    have hone (h0 : ∀ n, r.declared = some n → n = 0) : decodePrefix r.raw 1 = none := by
      rw [decode, decodePrefix_raw] at hdec
      rw [decodePrefix_raw]
      cases hheader : readHeader.run r.rest with
      | none => rfl
      | some x =>
        rw [hheader] at hdec
        have hzero := h0 _ (declared_of_readHeader hheader)
        rw [Option.bind_some, readSegs_zero hzero]
        exact hdec
    constructor
    · rintro ⟨hcount, -⟩
      refine .inr fun n hn => ?_
      rw [hn, Option.map_some, Option.getD_some] at hcount
      exact asI64_eq_zero.mp hcount
    · rintro (h | h0)
      · cases h
      · rw [hone h0]
        refine ⟨?_, rfl⟩
        cases hn : r.declared with
        | none => rfl
        | some n =>
          rw [h0 n hn]
          rfl

/-- A row of one byte that declares five segments and holds none. -/
theorem count_of_torn_row :
    ¬ (countBytes [MAGIC, 5] = (parseBytes (fun _ => none) [MAGIC, 5]).length ∧
      firstMsgidBytes (fun _ => none) [MAGIC, 5] =
        (parseBytes (fun _ => none) [MAGIC, 5]).head?.map Seg.id) := by
  rintro ⟨hcount, -⟩
  cases hcount

end NzbFast.Index
