import NzbFast.Nntp.Source
import NzbFast.Nntp.Terminator

/-!
# Reading a multiline response

`read_multiline_paced_noting` (`crates/nzbkit-base/src/nntp/multiline.rs`), with
both of its paths: straight off the socket into the body, or out of the read
buffer. Waits that outlast the idle bound or the rate floor end a read with
`Timeout`; that is a matter of the clock and no part of this.

What a read returns is a function of the bytes on the stream. The invariant of
the loop says which part of them the body holds and that it ends no response; a
pass extends the part or settles the read, and the size check of a pass never
speaks before the whole stream would.
-/

namespace NzbFast.Nntp

open Source
open List hiding not_le not_lt

inductive ReadEnd where
  | ok
  | closed
  | tooLarge (max : Nat)
  | panicked
  deriving DecidableEq, Repr

/-- A read under way; `arrived` is what the arrivals sink has been credited. -/
structure Reading where
  src : Source
  out : Vec
  arrived : Nat

def DIRECT_MIN_SPARE : Nat := 4 * 1024

/-- `read_direct`: one read off the socket into the spare capacity of `out`. -/
def readDirect (src : Source) (out : Vec) (cap : Nat) : Source × Vec :=
  let out := if out.capacity - out.bytes.length < DIRECT_MIN_SPARE then out.reserve cap else out
  let limit := min cap (out.capacity - out.bytes.length)
  let (b, socket) := pollRead limit src.socket
  ({ src with socket := socket }, { out with bytes := out.bytes ++ b })

/-- The bytes at the end of a block that may turn out to begin a terminator. -/
def provisional (b : List UInt8) : Nat :=
  if [LF, DOT, CR] <:+ b ∨ b = [DOT, CR] then 2
  else if [LF, DOT] <:+ b ∨ b = [DOT] then 1
  else 0

/-- A chunk fetched: where the source and the body stand, the bytes it brought, and the
terminator if it completes one. -/
structure Fetched where
  src : Source
  out : Vec
  n : Nat
  found : Option (Nat × Nat)

def fetchDirect (start : Nat) (r : Reading) : Option Fetched :=
  let before := r.out.bytes.length
  let (src, out) := readDirect r.src r.out r.src.directCap
  let n := out.bytes.length - before
  if n = 0 then none
  else
    let block := (out.bytes.drop start).take (before - start)
    let chunk := (out.bytes.drop start).drop (before - start)
    some ⟨src, out, n, findTerminator block chunk⟩

/-- The part of a buffered chunk that is payload, copied to the body. -/
def copyPayload (out : Vec) (t : Nat) (buf : List UInt8) : Option (Nat × Nat) → Vec
  | some (dot, _) => if t < dot then out.extend (buf.take (dot - t)) else out
  | none => out.extend buf

def fetchBuffered (start : Nat) (r : Reading) : Option Fetched :=
  let before := r.out.bytes.length
  let src := r.src.fillBuf
  if src.buf = [] then none
  else
    let found := findTerminator (r.out.bytes.drop start) src.buf
    some ⟨src, copyPayload r.out (before - start) src.buf found, src.buf.length, found⟩

/-- One pass of the loop; `none` goes round again. -/
def pass (max start : Nat) (r : Reading) : Reading × Option ReadEnd :=
  let before := r.out.bytes.length
  let direct := decide (0 < r.src.directCap ∧ r.src.buf = [])
  match if direct then fetchDirect start r else fetchBuffered start r with
  | none => (r, some .closed)
  | some ⟨src, out, _, some (dot, term)⟩ =>
    if max < dot then (⟨src, out, r.arrived⟩, some (.tooLarge max))
    else
      let used := dot + 1 + term - (before - start)
      match if direct then src.unread (out.bytes.drop (before + used))
        else some (src.consume used) with
      | none => (⟨src, out, r.arrived⟩, some .panicked)
      | some src => (⟨src, out.truncate (start + dot), r.arrived + used⟩, some .ok)
  | some ⟨src, out, n, none⟩ =>
    let src := if direct then src else src.consume n
    let pend := provisional (out.bytes.drop start)
    (⟨src, out, r.arrived + n⟩,
      if max < out.bytes.length - start - pend then some (.tooLarge max) else none)

/-- The loop, for at most `fuel` passes. -/
def passes (max start : Nat) : Nat → Reading → Reading × Option ReadEnd
  | 0, r => (r, none)
  | fuel + 1, r =>
    match pass max start r with
    | (r, some e) => (r, some e)
    | (r, none) => passes max start fuel r

/-- `read_multiline`: every pass that goes round has taken a byte off the stream. -/
def readMultiline (max : Nat) (src : Source) (out : Vec) : Reading × Option ReadEnd :=
  passes max out.bytes.length (src.pending.length + 1) ⟨src, out, 0⟩

/-! ## What a pass sees -/

/-- The body holds `block`, the part of the stream `s` that has been taken off it. -/
structure Holding (front s block : List UInt8) (r : Reading) : Prop where
  out : r.out.bytes = front ++ block
  stream : block ++ r.src.pending = s
  unended : Unterminated block
  arrived : r.arrived = block.length

theorem limit_pos (out : Vec) {cap : Nat} (hcap : 0 < cap) :
    let out := if out.capacity - out.bytes.length < DIRECT_MIN_SPARE then out.reserve cap else out
    0 < min cap (out.capacity - out.bytes.length) := by
  split
  case isFalse h =>
    unfold DIRECT_MIN_SPARE at h
    omega
  case isTrue =>
    unfold Vec.reserve
    split
    · dsimp only
      omega
    · omega

/-- A direct read appends what it takes off the stream, and no more than the buffer can take
back. -/
theorem readDirect_spec {src : Source} (hbuf : src.buf = []) (hcap : 0 < src.directCap)
    (out : Vec) : ∃ c, (readDirect src out src.directCap).2.bytes = out.bytes ++ c ∧
      c ++ (readDirect src out src.directCap).1.pending = src.pending ∧
      (readDirect src out src.directCap).1.buf = [] ∧
      (readDirect src out src.directCap).1.capacity = src.capacity ∧
      c.length ≤ src.capacity ∧ (c = [] → src.pending = []) := by
  have hpos := limit_pos out hcap
  unfold readDirect
  dsimp only at hpos ⊢
  have hbytes : (if out.capacity - out.bytes.length < DIRECT_MIN_SPARE then out.reserve src.directCap
      else out).bytes = out.bytes := by
    split <;> simp
  generalize (if out.capacity - out.bytes.length < DIRECT_MIN_SPARE then out.reserve src.directCap
      else out) = out' at hpos hbytes ⊢
  refine ⟨(pollRead (min src.directCap (out'.capacity - out'.bytes.length)) src.socket).1,
    by rw [hbytes], ?_, hbuf, rfl, ?_, fun hc => ?_⟩
  · simp only [pending, hbuf, nil_append, pollRead_stream]
  · have hlen := pollRead_length (min src.directCap (out'.capacity - out'.bytes.length)) src.socket
    have := src.direct_le
    omega
  · rw [pending, hbuf, pollRead_eq_nil hpos hc, nil_append]

section Pass

variable {max : Nat} {front s block : List UInt8} {r : Reading}

theorem fetchDirect_spec (h : Holding front s block r) (hcap : 0 < r.src.directCap)
    (hbuf : r.src.buf = []) :
    (fetchDirect front.length r = none ∧ r.src.pending = []) ∨
    ∃ c src out, fetchDirect front.length r = some ⟨src, out, c.length, findTerminator block c⟩ ∧
      c ≠ [] ∧ out.bytes = front ++ (block ++ c) ∧ c ++ src.pending = r.src.pending ∧
      src.buf = [] ∧ c.length ≤ src.capacity := by
  obtain ⟨c, hout, hpending, hbuf', hcapacity, hlen, hend⟩ := readDirect_spec hbuf hcap r.out
  unfold fetchDirect
  dsimp only
  have hn : (readDirect r.src r.out r.src.directCap).2.bytes.length - r.out.bytes.length =
      c.length := by
    rw [hout, length_append, Nat.add_sub_cancel_left]
  rw [hn]
  by_cases hc : c = []
  · exact .inl ⟨by rw [hc]; rfl, hend hc⟩
  refine Or.inr ⟨c, (readDirect r.src r.out r.src.directCap).1,
    (readDirect r.src r.out r.src.directCap).2, ?_, hc, ?_, hpending, hbuf', hcapacity ▸ hlen⟩
  · have hsplit : (readDirect r.src r.out r.src.directCap).2.bytes.drop front.length =
        block ++ c := by
      rw [hout, h.out, append_assoc, drop_left]
    have hlength : r.out.bytes.length - front.length = block.length := by
      rw [h.out, length_append, Nat.add_sub_cancel_left]
    rw [if_neg (by simpa using hc), hsplit, hlength, take_left, drop_left]
  · rw [hout, h.out, append_assoc]

theorem fetchBuffered_spec (h : Holding front s block r) :
    (fetchBuffered front.length r = none ∧ r.src.pending = []) ∨
    ∃ c src out, fetchBuffered front.length r = some ⟨src, out, c.length, findTerminator block c⟩ ∧
      c ≠ [] ∧ src.buf = c ∧ src.pending = r.src.pending ∧
      out.bytes = front ++ (block ++ match findTerminator block c with
        | some (d, _) => c.take (d - block.length)
        | none => c) := by
  unfold fetchBuffered
  by_cases hc : r.src.fillBuf.buf = []
  · exact .inl ⟨if_pos hc, fillBuf_eq_nil hc⟩
  have hblock : r.out.bytes.drop front.length = block := by rw [h.out, drop_left]
  have hlength : r.out.bytes.length - front.length = block.length := by
    rw [h.out, length_append, Nat.add_sub_cancel_left]
  refine Or.inr ⟨r.src.fillBuf.buf, r.src.fillBuf, copyPayload r.out block.length r.src.fillBuf.buf
    (findTerminator block r.src.fillBuf.buf), ?_, hc, rfl, r.src.pending_fillBuf, ?_⟩
  · rw [if_neg hc, hblock, hlength]
  · unfold copyPayload
    split
    case h_1 d _ _ =>
      split
      · rw [Vec.bytes_extend, h.out, append_assoc]
      case isFalse hd => rw [h.out, Nat.sub_eq_zero_of_le (not_lt.mp hd), take_zero, append_nil]
    case h_2 => rw [Vec.bytes_extend, h.out, append_assoc]

/-- What a pass makes of a read that holds `block`. -/
inductive Passed (max : Nat) (front s block : List UInt8) : Reading × Option ReadEnd → Prop
  | closed (r : Reading) (hend : block = s) : Passed max front s block (r, some .closed)
  | ok {d k : Nat} (r : Reading) (hfirst : FirstTerminator s d k) (hfits : d ≤ max)
      (hout : r.out.bytes = front ++ s.take d) (hrest : r.src.pending = s.drop (d + 1 + k))
      (harrived : r.arrived = d + 1 + k) : Passed max front s block (r, some .ok)
  | long {d k : Nat} (r : Reading) (hfirst : FirstTerminator s d k) (hlong : max < d) :
      Passed max front s block (r, some (.tooLarge max))
  | full (r : Reading) (c : List UInt8) (hold : Holding front s (block ++ c) r)
      (hfull : max < (block ++ c).length - provisional (block ++ c)) :
      Passed max front s block (r, some (.tooLarge max))
  | more (r : Reading) (c : List UInt8) (hc : c ≠ []) (hold : Holding front s (block ++ c) r)
      (hfits : (block ++ c).length - provisional (block ++ c) ≤ max) :
      Passed max front s block (r, none)

theorem passed_more {r' : Reading} {c : List UInt8} (hc : c ≠ [])
    (hold : Holding front s (block ++ c) r') :
    Passed max front s block (r', if max < r'.out.bytes.length - front.length -
      provisional (r'.out.bytes.drop front.length) then some (.tooLarge max) else none) := by
  rw [hold.out, length_append, Nat.add_sub_cancel_left, drop_left]
  split
  case isTrue hfull => exact .full r' c hold hfull
  case isFalse hfits => exact .more r' c hc hold (not_lt.mp hfits)

theorem pass_passed (h : Holding front s block r) :
    Passed max front s block (pass max front.length r) := by
  have hlength : r.out.bytes.length - front.length = block.length := by
    rw [h.out, length_append, Nat.add_sub_cancel_left]
  have hbefore : r.out.bytes.length = front.length + block.length := by
    rw [h.out, length_append]
  -- where a terminator lies, given the chunk it was found in
  have hfound : ∀ {c rest : List UInt8} {d k : Nat}, c ++ rest = r.src.pending →
      findTerminator block c = some (d, k) →
      FirstTerminator s d k ∧ (block ++ c) ++ rest = s ∧ d + k < (block ++ c).length ∧
        block.length ≤ d + k := by
    intro c rest d k hc hf
    have hfirst := findTerminator_eq_some h.unended hf
    have hs : (block ++ c) ++ rest = s := by rw [append_assoc, hc, h.stream]
    refine ⟨hs ▸ hfirst.append rest, hs, hfirst.here.width.2, ?_⟩
    by_contra hlt
    exact h.unended d k (hfirst.here.of_append (not_le.mp hlt))
  have hhold : ∀ {c rest : List UInt8} {r' : Reading}, c ++ rest = r.src.pending →
      findTerminator block c = none → r'.out.bytes = front ++ (block ++ c) →
      r'.src.pending = rest → r'.arrived = r.arrived + c.length →
      Holding front s (block ++ c) r' := by
    intro c rest r' hc hf hout hrest harrived
    refine ⟨hout, ?_, findTerminator_eq_none h.unended hf, ?_⟩
    · rw [hrest, append_assoc, hc, h.stream]
    · rw [harrived, h.arrived, length_append]
  unfold pass
  by_cases hdirect : 0 < r.src.directCap ∧ r.src.buf = []
  · simp only [hdirect, and_self, decide_true, if_true]
    rcases fetchDirect_spec h hdirect.1 hdirect.2 with ⟨hnone, hend⟩ |
      ⟨c, src, out, hsome, hc, hout, hpending, hbuf, hroom⟩
    · rw [hnone]
      exact .closed r (by rw [← h.stream, hend, append_nil])
    rw [hsome]
    cases hf : findTerminator block c with
    | none =>
      exact passed_more hc (hhold hpending hf hout rfl rfl)
    | some hit =>
      obtain ⟨d, k⟩ := hit
      obtain ⟨hfirst, hs, hlt, hge⟩ := hfound hpending hf
      rw [length_append] at hlt
      dsimp only
      split
      case isTrue hlong => exact .long _ hfirst hlong
      case isFalse hfits =>
        have htail : out.bytes.drop (r.out.bytes.length + (d + 1 + k - (r.out.bytes.length -
            front.length))) = (block ++ c).drop (d + 1 + k) := by
          rw [hlength, hbefore, hout, add_assoc, ← drop_drop, drop_left]
          congr 1
          omega
        rw [htail, unread, if_pos ⟨hbuf, by
          rw [length_drop, length_append]; omega⟩]
        refine .ok _ hfirst (not_lt.mp hfits) ?_ ?_ ?_
        · simp only [Vec.truncate, hout]
          have htake : (block ++ c ++ src.pending).take d = (block ++ c).take d :=
            take_append_of_le_length (by rw [length_append]; omega)
          rw [take_length_add_append, ← hs, htake]
        · have hdrop : (block ++ c ++ src.pending).drop (d + 1 + k) =
              (block ++ c).drop (d + 1 + k) ++ src.pending :=
            drop_append_of_le_length (by rw [length_append]; omega)
          rw [← hs, hdrop]
          simp only [pending, hbuf, nil_append]
        · simp only [hlength, h.arrived]
          omega
  · simp only [hdirect, decide_false, Bool.false_eq_true, if_false]
    rcases fetchBuffered_spec h with ⟨hnone, hend⟩ | ⟨c, src, out, hsome, hc, hbuf, hpending, hout⟩
    · rw [hnone]
      exact .closed r (by rw [← h.stream, hend, append_nil])
    rw [hsome]
    have hsplit : c ++ (src.consume c.length).pending = r.src.pending := by
      rw [pending_consume (by rw [hbuf]), ← hpending]
      simp only [pending, hbuf, drop_left]
    cases hf : findTerminator block c with
    | none =>
      rw [hf] at hout
      exact passed_more hc (hhold hsplit hf hout rfl rfl)
    | some hit =>
      obtain ⟨d, k⟩ := hit
      obtain ⟨hfirst, hs, hlt, hge⟩ := hfound hsplit hf
      rw [length_append] at hlt
      rw [hf] at hout
      dsimp only at hout ⊢
      split
      case isTrue hlong => exact .long _ hfirst hlong
      case isFalse hfits =>
        refine .ok _ hfirst (not_lt.mp hfits) ?_ ?_ ?_
        · simp only [Vec.truncate, hout]
          have htake : (c ++ (src.consume c.length).pending).take (d - block.length) =
              c.take (d - block.length) := take_append_of_le_length (by omega)
          rw [take_length_add_append, ← hs, append_assoc, take_append,
            take_append, htake, take_take, min_self]
        · have hdrop : block.drop (d + 1 + k) = [] := drop_eq_nil_of_le (by omega)
          rw [hlength, pending_consume (by rw [hbuf]; omega), hpending, ← h.stream,
            drop_append, hdrop, nil_append]
        · simp only [hlength, h.arrived]
          omega

end Pass

/-! ## The size check -/

theorem suffix_of_getElem? {x b : List UInt8} (hlen : x.length ≤ b.length)
    (h : ∀ i < x.length, b[b.length - x.length + i]? = x[i]?) : x <:+ b := by
  rw [suffix_iff_eq_drop]
  refine ext_getElem? fun i => ?_
  rw [getElem?_drop]
  by_cases hi : i < x.length
  · exact (h i hi).symm
  · rw [getElem?_eq_none (by omega), getElem?_eq_none (by omega)]

/-- What is left out of the count is the dot a terminator begins with, or comes after it. -/
theorem provisional_le {s block : List UInt8} {d k : Nat} (hs : block <+: s)
    (hblock : Unterminated block) (h : Terminator s d k) :
    block.length - provisional block ≤ d := by
  obtain ⟨rest, rfl⟩ := hs
  by_cases hd : block.length ≤ d
  · omega
  have hlate : block.length ≤ d + k := by
    by_contra hlt
    exact hblock d k (h.of_append (not_le.mp hlt))
  have hget : ∀ {i : Nat} {b : UInt8}, (block ++ rest)[i]? = some b → i < block.length →
      block[i]? = some b := by
    intro i b hi hlen
    rwa [getElem?_append_left hlen] at hi
  obtain ⟨hstart, hdot, hend⟩ := h
  have hdot := hget hdot (by omega)
  by_cases hlast : d + 1 = block.length
  · -- the block ends in the dot
    have hsuf : [LF, DOT] <:+ block ∨ block = [DOT] := by
      rcases hstart with rfl | ⟨n, rfl, hlf⟩
      · right
        refine ext_getElem? fun i => ?_
        cases i with
        | zero => exact hdot
        | succ i =>
          rw [getElem?_eq_none (by omega), getElem?_eq_none (by simp)]
      · left
        refine suffix_of_getElem? (by simp; omega) fun i hi => ?_
        have hn : block.length - [LF, DOT].length = n := by simp; omega
        rw [hn]
        rcases i with _ | _ | i
        · exact hget hlf (by omega)
        · exact hdot
        · simp at hi
    have hp : 1 ≤ provisional block := by
      unfold provisional
      split <;> omega
    omega
  · -- the block ends in the dot and its carriage return
    obtain ⟨-, hcr, -⟩ : k = 2 ∧ _ := by
      rcases hend with h2 | ⟨rfl, -⟩
      · exact h2
      · omega
    have hcr := hget hcr (by omega)
    have hsuf : [LF, DOT, CR] <:+ block ∨ block = [DOT, CR] := by
      rcases hstart with rfl | ⟨n, rfl, hlf⟩
      · right
        refine ext_getElem? fun i => ?_
        rcases i with _ | _ | i
        · exact hdot
        · exact hcr
        · rw [getElem?_eq_none (by omega), getElem?_eq_none (by simp)]
      · left
        refine suffix_of_getElem? (by simp; omega) fun i hi => ?_
        have hn : block.length - [LF, DOT, CR].length = n := by simp; omega
        rw [hn]
        rcases i with _ | _ | _ | i
        · exact hget hlf (by omega)
        · exact hdot
        · exact hcr
        · simp at hi
          omega
    have hp : provisional block = 2 := by
      unfold provisional
      rw [if_pos hsuf]
    omega

theorem provisional_le_two (b : List UInt8) : provisional b ≤ 2 := by
  unfold provisional
  split
  · omega
  · split <;> omega

/-- The count never falls as bytes arrive: only a carriage return makes the left out part grow
beyond a dot, and the dot was left out before it. -/
theorem provisional_mono (block : List UInt8) (c : UInt8) :
    block.length - provisional block ≤ (block ++ [c]).length - provisional (block ++ [c]) := by
  have htwo := provisional_le_two (block ++ [c])
  rw [length_append, length_singleton]
  by_cases hp : provisional (block ++ [c]) ≤ 1
  · omega
  have hsuf : [LF, DOT, CR] <:+ block ++ [c] ∨ block ++ [c] = [DOT, CR] := by
    by_contra hno
    unfold provisional at hp
    rw [if_neg hno] at hp
    exact hp (by split <;> omega)
  have hdot : [LF, DOT] <:+ block ∨ block = [DOT] := by
    rcases hsuf with ⟨t, ht⟩ | hsuf
    · rw [show t ++ [LF, DOT, CR] = (t ++ [LF, DOT]) ++ [CR] by simp] at ht
      exact .inl ⟨t, (append_inj' ht rfl).1⟩
    · exact .inr (append_inj' (hsuf.trans (show [DOT, CR] = [DOT] ++ [CR] from rfl)) rfl).1
  have hone : 1 ≤ provisional block := by
    unfold provisional
    split <;> omega
  omega

theorem count_mono {block s : List UInt8} (h : block <+: s) :
    block.length - provisional block ≤ s.length - provisional s := by
  obtain ⟨rest, rfl⟩ := h
  induction rest generalizing block with
  | nil => rw [append_nil]
  | cons c rest ih =>
    have hstep := provisional_mono block c
    have hrest := @ih (block ++ [c])
    rw [append_assoc, singleton_append] at hrest
    omega

/-! ## The whole read -/

/-- What a read returns, by the bytes on the stream alone. -/
structure Reads (max : Nat) (front s : List UInt8) (res : Reading × Option ReadEnd) : Prop where
  ok : ∀ d k, FirstTerminator s d k → d ≤ max → res.2 = some .ok ∧
    res.1.out.bytes = front ++ s.take d ∧ res.1.src.pending = s.drop (d + 1 + k) ∧
    res.1.arrived = d + 1 + k
  tooLarge : ∀ d k, FirstTerminator s d k → max < d → res.2 = some (.tooLarge max)
  unended : Unterminated s →
    res.2 = some (if max < s.length - provisional s then .tooLarge max else .closed)

theorem passes_reads {max : Nat} {front s : List UInt8} {fuel : Nat} {r : Reading}
    {block : List UInt8} (h : Holding front s block r) (hfuel : r.src.pending.length < fuel)
    (hfits : block.length - provisional block ≤ max) :
    Reads max front s (passes max front.length fuel r) := by
  induction fuel generalizing r block with
  | zero => omega
  | succ fuel ih =>
    have hpass : Passed max front s block (pass max front.length r) := pass_passed h
    unfold passes
    generalize pass max front.length r = res at hpass
    cases hpass with
    | closed r' hend =>
      subst hend
      exact ⟨fun d k hf => absurd hf.here (h.unended d k),
        fun d k hf => absurd hf.here (h.unended d k), fun _ => by rw [if_neg (not_lt.mpr hfits)]⟩
    | ok r' hfirst hmax hout hrest harrived =>
      refine ⟨fun d k hf _ => ?_, fun d k hf hlong => ?_, fun hun => absurd hfirst.here (hun _ _)⟩
      · obtain ⟨rfl, rfl⟩ := hf.unique hfirst
        exact ⟨rfl, hout, hrest, harrived⟩
      · obtain ⟨rfl, rfl⟩ := hf.unique hfirst
        omega
    | long r' hfirst hlong =>
      refine ⟨fun d k hf hmax => ?_, fun _ _ _ _ => rfl, fun hun => absurd hfirst.here (hun _ _)⟩
      obtain ⟨rfl, rfl⟩ := hf.unique hfirst
      omega
    | full r' c hold hfull =>
      have hpre : block ++ c <+: s := ⟨_, hold.stream⟩
      refine ⟨fun d k hf hmax => ?_, fun _ _ _ _ => rfl, fun _ => ?_⟩
      · have := provisional_le hpre hold.unended hf.here
        omega
      · have := count_mono hpre
        rw [if_pos (by omega)]
    | more r' c hc hold hfits' =>
      refine ih hold ?_ hfits'
      have hlen := congrArg length (h.stream.trans hold.stream.symm)
      have hpos := length_pos_of_ne_nil hc
      simp only [length_append] at hlen
      omega

/-- Whatever the chunks, the buffer and the path, a read takes exactly the response off the
stream. -/
theorem readMultiline_reads (max : Nat) (src : Source) (out : Vec) :
    Reads max out.bytes src.pending (readMultiline max src out) := by
  have hold : Holding out.bytes src.pending [] ⟨src, out, 0⟩ :=
    ⟨(append_nil _).symm, rfl, unterminated_nil, rfl⟩
  exact passes_reads hold (Nat.lt_succ_self _) (Nat.zero_le _)

end NzbFast.Nntp
