import Mathlib.Data.List.TakeWhile
import NzbFast.Index.SegTokens

/-!
# The segment codec round trips

`decode (encode segs)` is `segs`, at every limit. An id middle is a sequence of
well-formed tokens (`Token`) whose characters concatenate to it; reading the
tokens back gives the middle. The common prefix and suffix never overlap on any
id, so an id is its prefix, its middle and its suffix.
-/

namespace NzbFast.Index

open Wire NzbFast.Rust Reads List UInt64

/-! ## Tokens of a middle -/

/-- A token the encoder may write. -/
structure Token where
  kind : UInt8
  chars : List UInt8
  pos : 0 < chars.length
  le : chars.length ≤ TOKEN_MAX
  wf : kind = KIND_RAW ∨ (kind = KIND_HEX ∧ chars.length % 2 = 0 ∧ ∀ c ∈ chars, isHex c) ∨
    (kind = KIND_B64 ∧ ∀ c ∈ chars, isB64 c)

def Token.written (t : Token) : List UInt8 := putToken t.kind t.chars

/-- `w` is a sequence of tokens that spells `s`. -/
def Spells (w s : List UInt8) : Prop :=
  ∃ ts : List Token, w = ts.flatMap Token.written ∧ s = ts.flatMap Token.chars

theorem Spells.nil : Spells [] [] := ⟨[], rfl, rfl⟩

theorem Spells.append {w w' s s' : List UInt8} (h : Spells w s) (h' : Spells w' s') :
    Spells (w ++ w') (s ++ s') := by
  obtain ⟨ts, rfl, rfl⟩ := h
  obtain ⟨ts', rfl, rfl⟩ := h'
  exact ⟨ts ++ ts', by simp, by simp⟩

theorem Spells.token (t : Token) : Spells t.written t.chars := ⟨[t], by simp, by simp⟩

/-- `put_tokens` spells its argument, given that every chunk makes a token of the kind. -/
theorem spells_putTokens {kind : UInt8} {s : List UInt8}
    (hwf : ∀ chunk : List UInt8, (∀ c ∈ chunk, c ∈ s) →
      (kind = KIND_HEX → s.length % 2 = 0 → chunk.length % 2 = 0) →
      kind = KIND_RAW ∨ (kind = KIND_HEX ∧ chunk.length % 2 = 0 ∧ ∀ c ∈ chunk, isHex c) ∨
        (kind = KIND_B64 ∧ ∀ c ∈ chunk, isB64 c)) :
    Spells (putTokens kind s) s := by
  unfold putTokens
  dsimp only
  set step := if kind = KIND_HEX then TOKEN_MAX - 1 else TOKEN_MAX with hstep
  have hstep_pos : 0 < step := by
    rw [hstep]
    split <;> decide
  have hstep_le : step ≤ TOKEN_MAX := by
    rw [hstep]
    split <;> decide
  have hstep_even : kind = KIND_HEX → step % 2 = 0 := by
    intro h
    rw [hstep, if_pos h]
    rfl
  induction s using chunks.induct step with
  | case1 s h =>
    rw [chunks, dif_pos h]
    rcases h with rfl | h
    · exact Spells.nil
    · omega
  | case2 s h ih =>
    rw [chunks, dif_neg h, flatMap_cons]
    rw [not_or] at h
    have hpos := length_pos_iff.mpr h.1
    have hhead := hwf (s.take step) (fun c hc => mem_of_mem_take hc) (by
      intro hk he
      have := hstep_even hk
      simp only [length_take]
      omega)
    have htok := Spells.token ⟨kind, s.take step, by simp; omega, by simp; omega, hhead⟩
    have hrec := ih (by
      intro chunk hsub heven
      refine hwf chunk (fun c hc => mem_of_mem_drop (hsub c hc)) ?_
      intro hk he
      have := hstep_even hk
      refine heven hk ?_
      simp only [length_drop]
      omega)
    have := htok.append hrec
    rwa [take_append_drop] at this

theorem b64Stretch_pos {run : List UInt8} (hne : run ≠ [])
    (h : ¬ HEX_MIN ≤ (run.takeWhile isHex).length) : 0 < b64Stretch run := by
  match run, hne with
  | c :: cs, _ =>
    unfold b64Stretch
    by_cases hc : isHex c
    · have hm : ¬ HEX_MIN ≤ (cs.takeWhile isHex).length + 1 := by
        simpa [takeWhile_cons, hc] using h
      simp only [hc, ↓reduceIte, hm]
      omega
    · simp only [hc, Bool.false_eq_true, ↓reduceIte]
      omega

theorem spells_putRun (fuel : Nat) : ∀ run : List UInt8, run.length ≤ fuel →
    (∀ c ∈ run, isB64 c) → Spells (putRun fuel run) run := by
  induction fuel with
  | zero =>
    intro run hlen _
    obtain rfl := length_eq_zero_iff.mp (Nat.le_zero.mp hlen)
    exact Spells.nil
  | succ fuel ih =>
    intro run hlen hb64
    match run, hlen, hb64 with
    | [], _, _ => exact Spells.nil
    | c :: cs, hlen, hb64 =>
      unfold putRun
      have hcons : 0 < (c :: cs).length := by simp
      generalize c :: cs = run at hlen hb64 hcons
      -- The rest behind a token of `n` characters.
      have hrest : ∀ n, 0 < n → Spells (putRun fuel (run.drop n)) (run.drop n) := by
        intro n hn
        refine ih _ ?_ (fun c hc => hb64 c (mem_of_mem_drop hc))
        simp only [length_drop]
        omega
      dsimp only
      split
      case isTrue h =>
        set len := if (run.takeWhile isHex).length % 2 = 1 then (run.takeWhile isHex).length - 1
          else (run.takeWhile isHex).length with hlendef
        have h8 : 8 ≤ (run.takeWhile isHex).length := h
        have hle : len ≤ (run.takeWhile isHex).length := by rw [hlendef]; split <;> omega
        have heven : len % 2 = 0 := by rw [hlendef]; split <;> omega
        have hpos : 0 < len := by rw [hlendef]; split <;> omega
        have htw : (run.takeWhile isHex).length ≤ run.length :=
          (takeWhile_sublist isHex).length_le
        have hhex : ∀ c ∈ run.take len, isHex c := by
          intro c hc
          have hpre : run.take len <+: run.takeWhile isHex := by
            obtain ⟨t, ht⟩ := takeWhile_prefix (l := run) isHex
            refine prefix_of_prefix_length_le ( take_prefix _ _) ⟨t, ht⟩ ?_
            simp only [length_take]
            omega
          exact mem_takeWhile_imp (hpre.subset hc)
        have htok : Spells (putTokens KIND_HEX (run.take len)) (run.take len) := by
          refine spells_putTokens fun chunk hsub hev => .inr (.inl ⟨rfl, ?_, ?_⟩)
          · refine hev rfl ?_
            simp only [length_take]
            omega
          · exact fun c hc => hhex c (hsub c hc)
        have := htok.append (hrest len hpos)
        rwa [take_append_drop] at this
      case isFalse h =>
        have hpos := b64Stretch_pos (length_pos_iff.mp hcons) h
        have htok : Spells (putTokens KIND_B64 (run.take (b64Stretch run)))
            (run.take (b64Stretch run)) := by
          refine spells_putTokens fun chunk hsub _ => .inr (.inr ⟨rfl, ?_⟩)
          exact fun c hc => hb64 c (mem_of_mem_take (hsub c hc))
        have := htok.append (hrest _ hpos)
        rwa [take_append_drop] at this

theorem spells_putMiddleLoop (fuel : Nat) : ∀ mid : List UInt8, mid.length ≤ fuel →
    Spells (putMiddleLoop fuel mid) mid := by
  induction fuel with
  | zero =>
    intro mid hlen
    obtain rfl := length_eq_zero_iff.mp (Nat.le_zero.mp hlen)
    exact Spells.nil
  | succ fuel ih =>
    intro mid hlen
    match mid, hlen with
    | [], _ => exact Spells.nil
    | c :: cs, hlen =>
      unfold putMiddleLoop
      -- A run takes at least its first character.
      have hrest : ∀ p : UInt8 → Bool, p c = true →
          Spells (putMiddleLoop fuel ((c :: cs).dropWhile p)) ((c :: cs).dropWhile p) := by
        intro p hp
        apply ih
        have := (dropWhile_sublist (l := cs) p).length_le
        simp only [dropWhile_cons, hp, ↓reduceIte, length_cons] at hlen ⊢
        omega
      split
      case isTrue hc =>
        have hrun := spells_putRun _ ((c :: cs).takeWhile isB64) le_rfl
          (fun d hd => mem_takeWhile_imp hd)
        have := hrun.append (hrest isB64 hc)
        rwa [takeWhile_append_dropWhile] at this
      case isFalse hc =>
        have htok : Spells (putTokens KIND_RAW ((c :: cs).takeWhile (!isB64 ·)))
            ((c :: cs).takeWhile (!isB64 ·)) :=
          spells_putTokens fun _ _ _ => .inl rfl
        have := htok.append (hrest (!isB64 ·) (by simpa using hc))
        rwa [takeWhile_append_dropWhile] at this

theorem spells_putMiddle (mid : List UInt8) : Spells (putMiddle mid) mid :=
  spells_putMiddleLoop _ mid le_rfl

/-! ## Reading a middle back -/

theorem Reads.lift {α : Type} (x : α) : Reads (StateT.lift (some x)) [] x := fun _ => rfl

set_option maxRecDepth 10000 in
theorem tag_fields {kind : UInt8} (hk : kind = KIND_RAW ∨ kind = KIND_HEX ∨ kind = KIND_B64)
    {n : Nat} (hn : n ≤ TOKEN_MAX) :
    ((kind <<< 6) ||| UInt8.ofNat n) >>> 6 = kind ∧
      (((kind <<< 6) ||| UInt8.ofNat n) &&& 0x3f).toNat = n := by
  have h : ∀ k ∈ [KIND_RAW, KIND_HEX, KIND_B64], ∀ n < 64,
      ((k <<< 6) ||| UInt8.ofNat n) >>> 6 = k ∧
        (((k <<< 6) ||| UInt8.ofNat n) &&& 0x3f).toNat = n := by decide
  exact h kind (by simpa using hk) n (Nat.lt_succ_of_le hn)

theorem Token.kind_mem (t : Token) : t.kind = KIND_RAW ∨ t.kind = KIND_HEX ∨ t.kind = KIND_B64 := by
  rcases t.wf with h | ⟨h, _⟩ | ⟨h, _⟩ <;> simp [h]

theorem Token.reads (t : Token) :
    Reads (getToken t.kind t.chars.length)
      (if t.kind = KIND_HEX then packHex t.chars
       else if t.kind = KIND_B64 then packB64 t.chars 0 0 else t.chars) t.chars := by
  unfold getToken
  rcases t.wf with h | ⟨h, heven, hhex⟩ | ⟨h, hb64⟩
  · have h1 : ¬ KIND_RAW = KIND_HEX := by decide
    have h2 : ¬ KIND_RAW = KIND_B64 := by decide
    simp only [h, ↓reduceIte, h1, h2]
    exact reads_readBytes rfl
  · have h1 : ¬ KIND_HEX = KIND_RAW := by decide
    have h2 : ¬ t.chars.length % 2 = 1 := by omega
    obtain ⟨hun, hlen⟩ := unpackHex_packHex t.chars heven hhex
    simp only [h, ↓reduceIte, h1, h2]
    have hr := bind_pure (f := unpackHex) (reads_readBytes hlen)
    rwa [hun] at hr
  · have h1 : ¬ KIND_B64 = KIND_RAW := by decide
    have h2 : ¬ KIND_B64 = KIND_HEX := by decide
    obtain ⟨hun, hlen⟩ := unpackB64_packB64 t.chars hb64
    simp only [h, ↓reduceIte, h1, h2]
    rw [← append_nil (packB64 t.chars 0 0)]
    refine (reads_readBytes hlen).bind ?_
    rw [hun]
    exact pure _

section Guarded

variable {σ : Type} {keepGoing : σ → Bool × σ} (hkeep : ∀ s, keepGoing s = (true, s))

include hkeep

theorem askEvery_keep (due : Bool) (s : σ) : askEvery keepGoing due s = some s := by
  unfold askEvery
  split
  · rw [hkeep]
  · rfl

theorem reads_getMiddleLoop (ts : List Token) : ∀ (fuel tokens : Nat) (s : σ),
    (ts.flatMap Token.chars).length ≤ fuel →
    Reads (getMiddleLoop keepGoing fuel (ts.flatMap Token.chars).length tokens s)
      (ts.flatMap Token.written) (ts.flatMap Token.chars, s) := by
  induction ts with
  | nil =>
    intro fuel tokens s _
    unfold getMiddleLoop
    exact pure _
  | cons t ts ih =>
    intro fuel tokens s hfuel
    simp only [flatMap_cons, length_append] at hfuel ⊢
    have hpos := t.pos
    obtain ⟨fuel, rfl⟩ : ∃ f, fuel = f + 1 := ⟨fuel - 1, by omega⟩
    obtain ⟨left, hleft⟩ : ∃ l, t.chars.length + (ts.flatMap Token.chars).length = l + 1 :=
      ⟨t.chars.length + (ts.flatMap Token.chars).length - 1, by omega⟩
    rw [hleft]
    unfold getMiddleLoop
    rw [askEvery_keep hkeep]
    obtain ⟨hkind, hlen⟩ := tag_fields t.kind_mem t.le
    rw [Token.written, putToken, cons_append]
    refine (Reads.lift s).bind ((reads_u8 _).bind ?_)
    rw [hkind, hlen, if_neg (by omega)]
    refine t.reads.bind ?_
    have hsub : left + 1 - t.chars.length = (ts.flatMap Token.chars).length := by omega
    rw [hsub]
    exact Reads.bind_pure (f := fun r => (t.chars ++ r.1, r.2)) (ih fuel (tokens + 1) s (by omega))

theorem reads_getMiddle (mid : List UInt8) (s : σ) :
    Reads (getMiddleGuarded keepGoing mid.length s) (putMiddle mid) (mid, s) := by
  obtain ⟨ts, hw, hs⟩ := spells_putMiddle mid
  rw [hw]
  have h := reads_getMiddleLoop hkeep ts _ 0 s le_rfl
  rwa [← hs] at h

end Guarded

/-! ## Prefix and suffix -/

theorem lcp_le : ∀ a b : List UInt8, lcp a b ≤ a.length ∧ lcp a b ≤ b.length
  | [], _ => by simp [lcp]
  | _ :: _, [] => by simp [lcp]
  | a :: as, b :: bs => by
    have ih := lcp_le as bs
    unfold lcp
    simp only [length_cons]
    split <;> omega

theorem take_lcp : ∀ {a b : List UInt8} {p : Nat}, p ≤ lcp a b → a.take p = b.take p
  | _, _, 0, _ => rfl
  | [], _, p + 1, h => by simp [lcp] at h
  | _ :: _, [], p + 1, h => by simp [lcp] at h
  | a :: as, b :: bs, p + 1, h => by
    unfold lcp at h
    split at h
    case isTrue hab =>
      have hp : p ≤ lcp as bs := by omega
      rw [hab, take_succ_cons, take_succ_cons, take_lcp hp]
    case isFalse => omega

theorem drop_lcs {a b : List UInt8} {s : Nat} (h : s ≤ lcs a b) :
    a.drop (a.length - s) = b.drop (b.length - s) := by
  have hr := congrArg reverse (take_lcp h)
  rwa [reverse_take, reverse_take, reverse_reverse, reverse_reverse,
    length_reverse, length_reverse] at hr

section FoldMin

variable {α : Type} (g : α → Nat)

theorem foldl_min_le_init (l : List α) (n : Nat) : l.foldl (fun n x => min n (g x)) n ≤ n := by
  induction l generalizing n with
  | nil => exact le_refl _
  | cons x l ih => exact le_trans (ih _) (min_le_left _ _)

theorem foldl_min_le_mem {l : List α} {x : α} (hx : x ∈ l) (n : Nat) :
    l.foldl (fun n x => min n (g x)) n ≤ g x := by
  induction l generalizing n with
  | nil => simp at hx
  | cons y l ih =>
    rcases mem_cons.mp hx with rfl | hx
    · exact le_trans (foldl_min_le_init g l _) (min_le_right _ _)
    · exact ih hx _

theorem le_foldl_min {l : List α} {n k : Nat} (hn : k ≤ n) (hl : ∀ x ∈ l, k ≤ g x) :
    k ≤ l.foldl (fun n x => min n (g x)) n := by
  induction l generalizing n with
  | nil => exact hn
  | cons x l ih =>
    exact ih (Nat.le_min.mpr ⟨hn, hl x (by simp)⟩) (fun y hy => hl y (by simp [hy]))

end FoldMin

/-- A byte string that begins and ends alike with another at lengths that do not cross. -/
theorem split_affixes {f id : List UInt8} {p s : Nat} (hp : p ≤ lcp f id) (hs : s ≤ lcs f id)
    (hps : p + s ≤ id.length) :
    id = f.take p ++ (id.take (id.length - s)).drop p ++ f.drop (f.length - s) := by
  have h1 : id.take p = (id.take (id.length - s)).take p := by
    rw [take_take, min_eq_left (by omega)]
  rw [take_lcp hp, drop_lcs hs, h1, take_append_drop, take_append_drop]

theorem affixes_spec (segs : List Seg) : ∀ seg ∈ segs,
    (affixes segs).1.length + (affixes segs).2.length ≤ (asBytes seg.id).length ∧
    asBytes seg.id = (affixes segs).1 ++
      ((asBytes seg.id).take ((asBytes seg.id).length - (affixes segs).2.length)).drop
        (affixes segs).1.length ++ (affixes segs).2 := by
  cases segs with
  | nil => simp
  | cons first segs =>
    unfold affixes
    dsimp only
    set f := asBytes first.id with hf
    set p := segs.foldl (fun p seg => min p (lcp f (asBytes seg.id))) f.length with hp
    set s0 := segs.foldl (fun s seg => min s (lcs f (asBytes seg.id))) f.length with hs0
    set shortest := segs.foldl (fun n seg => min n (asBytes seg.id).length) f.length with hsh
    set s := if p + s0 > shortest then shortest - p else s0 with hs
    have hpf : p ≤ f.length := foldl_min_le_init (fun seg => lcp f (asBytes seg.id)) segs _
    have hsf : s0 ≤ f.length := foldl_min_le_init (fun seg => lcs f (asBytes seg.id)) segs _
    have hp_mem : ∀ seg ∈ segs, p ≤ lcp f (asBytes seg.id) := fun seg hm =>
      foldl_min_le_mem (fun seg => lcp f (asBytes seg.id)) hm _
    have hs_mem : ∀ seg ∈ segs, s0 ≤ lcs f (asBytes seg.id) := fun seg hm =>
      foldl_min_le_mem (fun seg => lcs f (asBytes seg.id)) hm _
    have hpsh : p ≤ shortest := by
      refine le_foldl_min (fun seg : Seg => (asBytes seg.id).length) hpf ?_
      intro seg hm
      have h1 := hp_mem seg hm
      have h2 := lcp_le f (asBytes seg.id)
      omega
    have hs_le : s ≤ s0 := by rw [hs]; split <;> omega
    have hps : p + s ≤ shortest := by rw [hs]; split <;> omega
    have hlen : (f.drop (f.length - s)).length = s := by simp only [length_drop]; omega
    have hplen : (f.take p).length = p := by simp only [length_take]; omega
    rw [hlen, hplen]
    intro seg hm
    rcases mem_cons.mp hm with rfl | hm
    · have hsf' : shortest ≤ f.length :=
        foldl_min_le_init (fun seg : Seg => (asBytes seg.id).length) segs _
      have hself : ∀ l : List UInt8, lcp l l = l.length := by
        intro l
        induction l with
        | nil => rfl
        | cons x l ih => simp [lcp, ih]
      rw [← hf]
      refine ⟨by omega, split_affixes ?_ ?_ (by omega)⟩
      · rw [hself]
        exact hpf
      · rw [lcs, hself, length_reverse]
        omega
    · have hsm : shortest ≤ (asBytes seg.id).length :=
        foldl_min_le_mem (fun seg : Seg => (asBytes seg.id).length) hm _
      refine ⟨by omega, split_affixes (hp_mem seg hm) ?_ (by omega)⟩
      exact hs_le.trans (hs_mem seg hm)

/-! ## Reading the segments back -/

theorem flag_bits (same next : Bool) :
    (((if same then SAME_BYTES else 0) ||| (if next then NEXT_NUM else 0)) &&& NEXT_NUM = 0 ↔
      next = false) ∧
    (((if same then SAME_BYTES else 0) ||| (if next then NEXT_NUM else 0)) &&& SAME_BYTES = 0 ↔
      same = false) := by
  cases same <;> cases next <;> decide

theorem decodeId_asBytes (strictUtf8 : Bool) (s : String) : decodeId strictUtf8 (asBytes s) = some s := by
  unfold decodeId
  split
  · exact fromUtf8_asBytes s
  · rw [fromUtf8Lossy_asBytes]

/-- The decoder's state agrees with the encoder's: the same previous number and, once there is
one, the same previous byte count. -/
structure Follows (prevNum : Int) (prevBytes : Option UInt64) (st : DecodeState) : Prop where
  num : st.prevNum = prevNum
  nonneg : 0 ≤ prevNum
  small : prevNum < 2 ^ 32
  bytes : ∀ b, prevBytes = some b → st.prevBytes = b

theorem reads_number {prevNum : Int} (h0 : 0 ≤ prevNum) (hlt : prevNum < 2 ^ 32) (n : UInt32)
    (flags : UInt8) (hflag : flags &&& NEXT_NUM = 0 ↔ ¬ (n.toNat : Int) = prevNum + 1) :
    Reads (readNumber flags prevNum)
      (if flags &&& NEXT_NUM = 0 then putVarint (zigzag (n.toNat - prevNum - 1)) else [])
      (n.toNat : Int) := by
  have hn := n.toNat_lt
  unfold readNumber
  by_cases hnext : flags &&& NEXT_NUM = 0
  · rw [if_neg (by simpa using hnext), if_pos hnext,
      ← append_nil (putVarint (zigzag (n.toNat - prevNum - 1)))]
    refine (reads_varint _).bind ?_
    rw [unzigzag_zigzag (by omega) (by omega)]
    have h1 : checkedAddI64 prevNum (n.toNat - prevNum - 1) = some ((n.toNat : Int) - 1) := by
      unfold checkedAddI64
      rw [if_pos (by omega)]
      exact congrArg some (by omega)
    have h2 : checkedAddI64 ((n.toNat : Int) - 1) 1 = some (n.toNat : Int) := by
      unfold checkedAddI64
      rw [if_pos (by omega)]
      exact congrArg some (by omega)
    rw [h1]
    refine Reads.bind (v := []) (w := []) (Reads.lift ((n.toNat : Int) - 1)) ?_
    rw [h2]
    exact Reads.lift _
  · rw [if_pos hnext, if_neg hnext]
    have hval : (n.toNat : Int) = prevNum + 1 := by
      by_contra h
      exact hnext (hflag.mpr h)
    rw [hval]
    exact pure _

section Segments

variable {σ : Type} {keepGoing : σ → Bool × σ} (hkeep : ∀ s, keepGoing s = (true, s))
variable {textLimit : Nat} (strictUtf8 : Bool)

include hkeep

theorem reads_decodeSeg {pre suf : List UInt8} {seg : Seg} {prevNum : Int}
    {prevBytes : Option UInt64} {st : DecodeState} (hst : Follows prevNum prevBytes st)
    (hlen : pre.length + suf.length ≤ (asBytes seg.id).length)
    (hid : asBytes seg.id = pre ++
      ((asBytes seg.id).take ((asBytes seg.id).length - suf.length)).drop pre.length ++ suf)
    (htext : st.textBytes + (asBytes seg.id).length ≤ textLimit) (hlimit : textLimit ≤ usizeMax)
    (index : Nat) (s : σ) :
    Reads (decodeSeg textLimit strictUtf8 keepGoing pre suf index st s)
      (encodeSeg pre.length suf.length seg prevNum prevBytes)
      (seg, ⟨seg.number.toNat, seg.bytes, st.textBytes + (asBytes seg.id).length⟩, s) := by
  have hn := seg.number.toNat_lt
  unfold decodeSeg encodeSeg
  set mid := ((asBytes seg.id).take ((asBytes seg.id).length - suf.length)).drop pre.length
    with hmid
  have hmidlen : pre.length + mid.length + suf.length = (asBytes seg.id).length := by
    simp only [hmid, length_drop, length_take]
    omega
  obtain ⟨hnext, hsame⟩ := flag_bits (prevBytes = some seg.bytes)
    ((seg.number.toNat : Int) = prevNum + 1)
  simp only [decide_eq_true_eq] at hnext hsame
  set flags := (if prevBytes = some seg.bytes then SAME_BYTES else 0) |||
    (if (seg.number.toNat : Int) = prevNum + 1 then NEXT_NUM else 0) with hflags
  have hmlen : (UInt64.ofNat mid.length).toNat = mid.length := by
    rw [toNat_ofNat']
    unfold usizeMax at hlimit
    omega
  have hbytes : Reads (readCount flags st.prevBytes)
      (if flags &&& SAME_BYTES = 0 then putVarint seg.bytes else []) seg.bytes := by
    unfold readCount
    by_cases h : flags &&& SAME_BYTES = 0
    · rw [if_neg (by simpa using h), if_pos h]
      exact reads_varint _
    · rw [if_pos h, if_neg h]
      have hsome : prevBytes = some seg.bytes := by
        by_contra hne
        exact h (hsame.mpr (by simpa using hne))
      rw [hst.bytes _ hsome]
      exact pure _
  have hnum := reads_number hst.nonneg hst.small seg.number flags
    (by rw [hnext]; simp)
  have hsum1 : checkedAddUsize pre.length mid.length = some (pre.length + mid.length) := by
    unfold checkedAddUsize
    rw [if_pos (by omega)]
  have hsum2 : checkedAddUsize (pre.length + mid.length) suf.length =
      some (asBytes seg.id).length := by
    unfold checkedAddUsize
    rw [if_pos (by omega), hmidlen]
  have hsum3 : checkedAddUsize st.textBytes (asBytes seg.id).length =
      some (st.textBytes + (asBytes seg.id).length) := by
    unfold checkedAddUsize
    rw [if_pos (by omega)]
  have hu32 : u32TryFrom (seg.number.toNat : Int) = some seg.number := by
    unfold u32TryFrom
    rw [if_pos (by omega), Int.toNat_natCast, UInt32.ofNat_toNat]
  simp only [append_assoc]
  rw [askEvery_keep hkeep, hst.num]
  refine (Reads.lift s).bind ((reads_u8 _).bind (hnum.bind (hbytes.bind ((reads_varint _).bind ?_))))
  rw [hmlen, hsum1]
  show Reads _ ([] ++ ([] ++ ([] ++ putMiddle mid))) _
  refine (Reads.lift _).bind ?_
  rw [hsum2]
  refine (Reads.lift _).bind ?_
  rw [hsum3]
  refine (Reads.lift _).bind ?_
  rw [if_neg (by omega), ← append_nil (putMiddle mid)]
  refine (reads_getMiddle hkeep mid s).bind ?_
  rw [hu32, ← append_assoc, ← hid, decodeId_asBytes]
  exact (Reads.lift _).bind ((Reads.lift _).bind (Reads.pure _))

def textLen (segs : List Seg) : Nat := (segs.map fun seg => (asBytes seg.id).length).sum

/-- The first `segs` of a longer list read back, whatever stands behind them. -/
theorem reads_decodeSegs {pre suf : List UInt8} (hlimit : textLimit ≤ usizeMax) (segs : List Seg)
    (haff : ∀ seg ∈ segs, pre.length + suf.length ≤ (asBytes seg.id).length ∧
      asBytes seg.id = pre ++
        ((asBytes seg.id).take ((asBytes seg.id).length - suf.length)).drop pre.length ++ suf) :
    ∀ (prevNum : Int) (prevBytes : Option UInt64) (st : DecodeState) (index : Nat) (s : σ),
    Follows prevNum prevBytes st → st.textBytes + textLen segs ≤ textLimit →
    Reads (decodeSegs textLimit strictUtf8 keepGoing pre suf segs.length index st s)
      (encodeSegs pre.length suf.length segs prevNum prevBytes) (segs, s) := by
  induction segs with
  | nil => exact fun _ _ _ _ _ _ _ => pure _
  | cons seg segs ih =>
    intro prevNum prevBytes st index s hst htext
    have hn := seg.number.toNat_lt
    simp only [textLen, map_cons, sum_cons] at htext
    obtain ⟨hlen, hid⟩ := haff seg (by simp)
    rw [encodeSegs, length_cons, decodeSegs]
    refine (reads_decodeSeg hkeep strictUtf8 hst hlen hid (by omega) hlimit index s).bind ?_
    refine bind_pure (f := fun r : List Seg × σ => (seg :: r.1, r.2)) (x := (segs, s)) ?_
    refine ih (fun x hx => haff x (by simp [hx])) _ _ _ _ _ ⟨rfl, by omega, by omega, ?_⟩ ?_
    · rintro b ⟨⟩
      rfl
    · simp only [textLen]
      omega

end Segments

theorem encodeSegs_append (plen slen : Nat) (a b : List Seg) : ∀ prevNum prevBytes, ∃ rest,
    encodeSegs plen slen (a ++ b) prevNum prevBytes =
      encodeSegs plen slen a prevNum prevBytes ++ rest ∧ (b = [] → rest = []) := by
  induction a with
  | nil => exact fun prevNum prevBytes => ⟨_, rfl, by rintro rfl; rfl⟩
  | cons seg a ih =>
    intro prevNum prevBytes
    obtain ⟨rest, h, hnil⟩ := ih seg.number.toNat (some seg.bytes)
    exact ⟨rest, by rw [cons_append, encodeSegs, h, encodeSegs, append_assoc], hnil⟩

/-! ## The round trip -/

/-- A `Vec<Seg>` of a 64-bit program: at most `isize::MAX` elements, and the bytes of its ids in
one address space. -/
structure SegVec where
  segs : List Seg
  count : segs.length < 2 ^ 63
  text : textLen segs ≤ usizeMax

theorem textLen_take_le (segs : List Seg) (k : Nat) : textLen (segs.take k) ≤ textLen segs := by
  conv_rhs => rw [← take_append_drop k segs]
  simp only [textLen, map_append, sum_append]
  omega

/-- The decoder at any limit and any text limit the ids fit, strict or lossy, with a guard that
never refuses. -/
theorem decodePrefixImplGuarded_encode {σ : Type} {keepGoing : σ → Bool × σ}
    (hkeep : ∀ s, keepGoing s = (true, s)) (v : SegVec) {textLimit : Nat}
    (htext : textLen v.segs ≤ textLimit) (hlimit : textLimit ≤ usizeMax) (strictUtf8 : Bool)
    (limit : Nat) (s : σ) :
    decodePrefixImplGuarded textLimit strictUtf8 keepGoing (encode v.segs) limit s =
      some (v.segs.take limit, s) := by
  obtain ⟨segs, hcount, htot⟩ := v
  dsimp only at htext hcount htot ⊢
  set pre := (affixes segs).1 with hpre
  set suf := (affixes segs).2 with hsuf
  have haff := affixes_spec segs
  rw [← hpre, ← hsuf] at haff
  have hn : (UInt64.ofNat segs.length).toNat = segs.length := toNat_ofNat_of_lt' (show _ < 2 ^ 64 by omega)
  -- The affixes are no longer than an id, and empty with no id.
  have hbound : pre.length < 2 ^ 64 ∧ suf.length < 2 ^ 64 := by
    cases segs with
    | nil => simp [hpre, hsuf, affixes]
    | cons seg segs =>
      have h1 := (haff seg (by simp)).1
      simp only [textLen, map_cons, sum_cons] at htot
      unfold usizeMax at htot
      omega
  have hp : (UInt64.ofNat pre.length).toNat = pre.length := toNat_ofNat_of_lt' (show _ < 2 ^ 64 by omega)
  have hs : (UInt64.ofNat suf.length).toNat = suf.length := toNat_ofNat_of_lt' (show _ < 2 ^ 64 by omega)
  set want := min segs.length limit with hwant
  obtain ⟨rest, hsplit, hnil⟩ := encodeSegs_append pre.length suf.length (segs.take want)
    (segs.drop want) 0 none
  rw [take_append_drop] at hsplit
  have hwlen : (segs.take want).length = want := by
    simp only [length_take]
    omega
  have hsegs := reads_decodeSegs hkeep strictUtf8 hlimit (segs.take want)
    (fun seg hm => haff seg (mem_of_mem_take hm)) 0 none ⟨0, 0, 0⟩ 0 s
    ⟨rfl, by decide, by decide, by simp⟩
    (by have := textLen_take_le segs want; dsimp only; omega)
  rw [hwlen] at hsegs
  have hread : Reads (decodeBody textLimit strictUtf8 keepGoing limit s)
      ([MAGIC] ++ (putVarint (UInt64.ofNat segs.length) ++
        (putVarint (UInt64.ofNat pre.length) ++ (pre ++ (putVarint (UInt64.ofNat suf.length) ++
        (suf ++ encodeSegs pre.length suf.length (segs.take want) 0 none))))))
      (segs.length, segs.take want, s) := by
    refine (reads_u8 MAGIC).bind ?_
    rw [if_neg (by simp)]
    refine (reads_varint _).bind ((reads_varint _).bind ?_)
    rw [hp]
    refine (reads_readBytes rfl).bind ((reads_varint _).bind ?_)
    rw [hs]
    refine (reads_readBytes rfl).bind ?_
    rw [hn, ← hwant]
    exact bind_pure (f := fun r : List Seg × σ => (segs.length, r.1, r.2)) hsegs
  have hraw : encode segs = ([MAGIC] ++ (putVarint (UInt64.ofNat segs.length) ++
        (putVarint (UInt64.ofNat pre.length) ++ (pre ++ (putVarint (UInt64.ofNat suf.length) ++
        (suf ++ encodeSegs pre.length suf.length (segs.take want) 0 none)))))) ++ rest := by
    rw [encode]
    dsimp only
    rw [← hpre, ← hsuf, hsplit]
    simp only [append_assoc]
  unfold decodePrefixImplGuarded
  rw [hraw, hread rest]
  dsimp only
  have hdone : ¬ (min segs.length limit = segs.length ∧ rest ≠ []) := by
    rintro ⟨hall, hne⟩
    exact hne (hnil (by rw [hwant, hall, drop_length]))
  rw [if_neg hdone, hwant, take_eq_take_iff.mpr]
  omega

theorem decodePrefix_encode (v : SegVec) (limit : Nat) :
    decodePrefix (encode v.segs) limit = some (v.segs.take limit) := by
  unfold decodePrefix decodePrefixImpl
  rw [decodePrefixImplGuarded_encode (fun _ => rfl) v v.text le_rfl]
  rfl

theorem isEncoded_encode (segs : List Seg) : isEncoded (encode segs) = true := rfl

theorem countBytes_encode (v : SegVec) : countBytes (encode v.segs) = v.segs.length := by
  have hcount := v.count
  have hn : (UInt64.ofNat v.segs.length).toNat = v.segs.length :=
    toNat_ofNat_of_lt' (show _ < 2 ^ 64 by omega)
  have hdrop : (encode v.segs).drop 1 = putVarint (UInt64.ofNat v.segs.length) ++
      (putVarint (UInt64.ofNat (affixes v.segs).1.length) ++ ((affixes v.segs).1 ++
      (putVarint (UInt64.ofNat (affixes v.segs).2.length) ++ ((affixes v.segs).2 ++
      encodeSegs (affixes v.segs).1.length (affixes v.segs).2.length v.segs 0 none)))) := by
    rw [encode]
    simp only [append_assoc]
    rfl
  unfold countBytes
  rw [if_pos (isEncoded_encode v.segs), hdrop, reads_varint _ _]
  dsimp only [asI64]
  rw [BitVec.toInt_eq_toNat_of_lt]
  · rw [toNat_toBitVec, hn]
  · rw [toNat_toBitVec, hn]
    omega

/-- Encoding loses nothing: the list, its length, its first id and every head of it read back. -/
theorem segcodec_round_trip (fromJson : List UInt8 → Option (List Seg)) (v : SegVec) :
    decode (encode v.segs) = some v.segs ∧
    countBytes (encode v.segs) = v.segs.length ∧
    firstMsgidBytes fromJson (encode v.segs) = v.segs.head?.map Seg.id ∧
    ∀ k, decodePrefix (encode v.segs) k = some (v.segs.take (min k v.segs.length)) := by
  refine ⟨?_, countBytes_encode v, ?_, ?_⟩
  · have hle : v.segs.length ≤ usizeMax := by
      have := v.count
      unfold usizeMax
      omega
    rw [decode, decodePrefix_encode, take_of_length_le hle]
  · rw [firstMsgidBytes, if_pos (isEncoded_encode v.segs), decodePrefix_encode]
    cases v.segs <;> rfl
  · intro k
    rw [decodePrefix_encode]
    exact congrArg some (take_eq_take_iff.mpr (by omega))

end NzbFast.Index
