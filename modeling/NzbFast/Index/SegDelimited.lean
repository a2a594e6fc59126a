import NzbFast.Index.SegRoundTrip

/-!
# The segment codec delimits itself

Every read of the decoder looks only at the bytes it takes (`Wire.Local`), down
to the tokens of an id middle, and `decode` takes all it is given. So a byte
string that decodes has neither a head nor an extension that does.
-/

namespace NzbFast.Index

open Wire List

theorem local_u8 : Local u8 := by
  intro buf x rest h
  cases buf with
  | nil => cases h
  | cons b buf =>
    obtain ⟨rfl, rfl⟩ := Prod.mk.inj (Option.some.inj h)
    exact ⟨[b], rfl, reads_u8 b⟩

theorem local_varintLoop (shifts : List Nat) : ∀ v, Local (varintLoop shifts v) := by
  induction shifts with
  | nil => exact fun _ _ _ _ h => nomatch h
  | cons shift shifts ih =>
    intro v
    exact local_u8.bind fun b => .ite (fun _ => .pure _) fun _ => ih _

theorem local_varint : Local varint := local_varintLoop _ 0

theorem local_readBytes (n : Nat) : Local (readBytes n) := by
  intro buf x rest h
  change (if n ≤ buf.length then some (buf.take n, buf.drop n) else none) = some (x, rest) at h
  split at h
  case isTrue hle =>
    cases h
    exact ⟨buf.take n, (take_append_drop n buf).symm,
      reads_readBytes (by rw [length_take, min_eq_left hle])⟩
  case isFalse => cases h

theorem local_getToken (kind : UInt8) (len : Nat) : Local (getToken kind len) := by
  refine .ite (fun _ => local_readBytes len) fun _ => .ite (fun _ => .ite (fun _ => .failure) ?_)
    fun _ => .ite (fun _ => ?_) fun _ => .failure
  · exact fun _ => (local_readBytes _).bind fun bs => .pure _
  · exact (local_readBytes _).bind fun packed => .ite (fun _ => .failure) fun _ => .pure _

section Guarded

variable {σ : Type} (keepGoing : σ → Bool × σ)

theorem local_getMiddleLoop (fuel : Nat) :
    ∀ left tokens s, Local (getMiddleLoop keepGoing fuel left tokens s) := by
  induction fuel with
  | zero =>
    intro left tokens s
    cases left with
    | zero => exact .pure _
    | succ left => exact .failure
  | succ fuel ih =>
    intro left tokens s
    cases left with
    | zero => exact .pure _
    | succ left =>
      refine (Local.lift _).bind fun s => local_u8.bind fun tag => .ite (fun _ => .failure) fun _ => ?_
      exact (local_getToken _ _).bind fun out => (ih _ _ s).bind fun r => .pure _

theorem local_readNumber (flags : UInt8) (prevNum : Int) : Local (readNumber flags prevNum) := by
  refine .ite (fun _ => .pure _) fun _ => local_varint.bind fun d => ?_
  exact (Local.lift _).bind fun n => .lift _

theorem local_readCount (flags : UInt8) (prevBytes : UInt64) : Local (readCount flags prevBytes) := by
  exact .ite (fun _ => .pure _) fun _ => local_varint

variable (textLimit : Nat) (strictUtf8 : Bool) (pre suf : List UInt8)

theorem local_decodeSeg (index : Nat) (st : DecodeState) (s : σ) :
    Local (decodeSeg textLimit strictUtf8 keepGoing pre suf index st s) := by
  refine (Local.lift _).bind fun s => local_u8.bind fun flags => ?_
  refine (local_readNumber flags st.prevNum).bind fun num => ?_
  refine (local_readCount flags st.prevBytes).bind fun bytes => local_varint.bind fun mlen => ?_
  refine (Local.lift _).bind fun idLen => (Local.lift _).bind fun idLen => ?_
  refine (Local.lift _).bind fun text => .ite (fun _ => .failure) fun _ => ?_
  refine (local_getMiddleLoop keepGoing _ _ _ s).bind fun mid => ?_
  exact (Local.lift _).bind fun num32 => (Local.lift _).bind fun id => .pure _

theorem local_decodeSegs (want : Nat) : ∀ index st s,
    Local (decodeSegs textLimit strictUtf8 keepGoing pre suf want index st s) := by
  induction want with
  | zero => exact fun _ _ _ => .pure _
  | succ want ih =>
    intro index st s
    refine (local_decodeSeg keepGoing textLimit strictUtf8 pre suf index st s).bind fun r => ?_
    exact (ih _ _ _).bind fun r => .pure _

theorem local_decodeBody (limit : Nat) (s : σ) :
    Local (decodeBody textLimit strictUtf8 keepGoing limit s) := by
  refine local_u8.bind fun magic => .ite (fun _ => .failure) fun _ => local_varint.bind fun n => ?_
  refine local_varint.bind fun plen => (local_readBytes _).bind fun pre => ?_
  refine local_varint.bind fun slen => (local_readBytes _).bind fun suf => ?_
  exact (local_decodeSegs keepGoing textLimit strictUtf8 pre suf _ _ _ s).bind fun r => .pure _

theorem count_of_decodeBody {limit n : Nat} {s t : σ} {raw rest : List UInt8} {out : List Seg}
    (h : (decodeBody textLimit strictUtf8 keepGoing limit s).run raw = some ((n, out, t), rest)) :
    n ≤ usizeMax := by
  obtain ⟨magic, _, -, h⟩ := run_bind_eq_some h
  split at h
  case isTrue => cases h
  case isFalse =>
    obtain ⟨count, _, -, h⟩ := run_bind_eq_some h
    obtain ⟨_, _, -, h⟩ := run_bind_eq_some h
    obtain ⟨_, _, -, h⟩ := run_bind_eq_some h
    obtain ⟨_, _, -, h⟩ := run_bind_eq_some h
    obtain ⟨_, _, -, h⟩ := run_bind_eq_some h
    obtain ⟨_, _, -, h⟩ := run_bind_eq_some h
    cases h
    have := count.toNat_lt
    unfold usizeMax
    omega

end Guarded

def decodeReads : Reader (Nat × List Seg × Unit) :=
  decodeBody usizeMax false (fun s : Unit => (true, s)) usizeMax ()

theorem reads_of_decode {raw : List UInt8} (h : decode raw ≠ none) :
    ∃ x, Reads decodeReads raw x ∧ x.1 ≤ usizeMax := by
  unfold decode decodePrefix decodePrefixImpl decodePrefixImplGuarded at h
  split at h
  case h_2 => exact absurd rfl h
  case h_1 n out s rest hrun =>
    obtain ⟨w, rfl, hw⟩ := local_decodeBody _ _ _ _ _ _ _ _ hrun
    have hn : n ≤ usizeMax := count_of_decodeBody _ _ _ hrun
    split at h
    case isTrue => exact absurd rfl h
    case isFalse hdone =>
      have hrest : rest = [] := by
        by_contra hne
        exact hdone ⟨min_eq_left hn, hne⟩
      subst hrest
      exact ⟨_, by rwa [append_nil], hn⟩

/-- Nothing that decodes is a head of anything else that does. -/
theorem decode_append {raw x : List UInt8} (h : decode raw ≠ none) (hx : x ≠ []) :
    decode (raw ++ x) = none := by
  obtain ⟨⟨n, out, s⟩, hreads, hn⟩ := reads_of_decode h
  have hrun := hreads x
  unfold decodeReads at hrun
  unfold decode decodePrefix decodePrefixImpl decodePrefixImplGuarded
  rw [hrun]
  dsimp only
  rw [if_pos ⟨min_eq_left hn, hx⟩]
  rfl

/-- A stored row cut short or run on is no row. -/
theorem decode_self_delimiting (v : SegVec) :
    (∀ cut : List UInt8, cut <+: encode v.segs → cut ≠ encode v.segs → decode cut = none) ∧
      ∀ x : List UInt8, x ≠ [] → decode (encode v.segs ++ x) = none := by
  have hsome : decode (encode v.segs) ≠ none := by
    have hread := decodePrefix_encode v usizeMax
    unfold decode
    rw [hread]
    exact Option.some_ne_none _
  constructor
  · rintro cut ⟨x, hx⟩ hne
    by_contra hcut
    have hxne : x ≠ [] := by
      rintro rfl
      exact hne (by rw [← hx, append_nil])
    exact hsome (hx ▸ decode_append hcut hxne)
  · exact fun x hx => decode_append hsome hx

theorem decode_self_delimiting_one : decode [MAGIC] = none ∧
    decode (encode [⟨1, "a", 7⟩] ++ [0]) = none := by
  let v : SegVec := ⟨[⟨1, "a", 7⟩], by decide, by decide⟩
  refine ⟨(decode_self_delimiting v).1 [MAGIC] ⟨_, rfl⟩ fun h => ?_,
    (decode_self_delimiting v).2 [0] (by decide)⟩
  have hvarint : putVarint (UInt64.ofNat v.segs.length) ≠ [] := by
    rw [putVarint_eq]
    split <;> simp
  have hpos := length_pos_iff.mpr hvarint
  have hlen := congrArg length h
  rw [encode] at hlen
  simp only [length_append, length_cons, length_nil] at hlen
  omega

end NzbFast.Index
