import NzbFast.Index.SegReaders

/-!
# The capped and guarded parse

`parse_capped_bytes_guarded` reads a stored row under a limit on its segments,
a limit on the bytes of their ids and a guard that may refuse at any call. The
guard is a closure of the caller's, so what it did stays done when a read fails:
`GuardedReader` keeps its state beside the failure, where `Wire.Reader` loses
it. `Shadows` says that a guarded read is the unguarded one of `SegCodec`
until the guard refuses.
-/

namespace NzbFast.Index

open Wire NzbFast.Rust
open List hiding not_lt

/-! ## The decoder, keeping the guard's state -/

abbrev GuardedReader (σ α : Type) := StateT (List UInt8) (OptionT (StateM σ)) α

section Guarded

variable {σ α : Type}

def unasked (p : Reader α) : GuardedReader σ α := fun buf => OptionT.mk fun s => (p.run buf, s)

variable (keepGoing : σ → Bool × σ)

/-- The guard is asked where it is due, and ends the read when it refuses. -/
def asked (due : Bool) : GuardedReader σ Unit := fun buf => OptionT.mk fun s =>
  if due then
    let (allowed, s) := keepGoing s
    (if allowed then some ((), buf) else none, s)
  else (some ((), buf), s)

def middleLoop : Nat → Nat → Nat → GuardedReader σ (List UInt8)
  | _, 0, _ => pure []
  | 0, _ + 1, _ => unasked failure
  | fuel + 1, left + 1, tokens => do
    asked keepGoing (0 < tokens ∧ tokens % GUARDED_PARSE_CHUNK = 0)
    let tag ← unasked u8
    let kind := tag >>> 6
    let len := (tag &&& 0x3f).toNat
    if len = 0 ∨ left + 1 < len then unasked failure else do
      let out ← unasked (getToken kind len)
      let rest ← middleLoop fuel (left + 1 - len) (tokens + 1)
      pure (out ++ rest)

variable (textLimit : Nat) (strictUtf8 : Bool) (pre suf : List UInt8)

def readSeg (index : Nat) (st : DecodeState) : GuardedReader σ (Seg × DecodeState) := do
  asked keepGoing (index % GUARDED_PARSE_CHUNK = 0)
  let flags ← unasked u8
  let num ← unasked (readNumber flags st.prevNum)
  let bytes ← unasked (readCount flags st.prevBytes)
  let mlen ← unasked varint
  let idLen ← unasked (StateT.lift (checkedAddUsize pre.length mlen.toNat))
  let idLen ← unasked (StateT.lift (checkedAddUsize idLen suf.length))
  let nextTextBytes ← unasked (StateT.lift (checkedAddUsize st.textBytes idLen))
  if textLimit < nextTextBytes then unasked failure else do
    let mid ← middleLoop keepGoing mlen.toNat mlen.toNat 0
    let num32 ← unasked (StateT.lift (u32TryFrom num))
    let id ← unasked (StateT.lift (decodeId strictUtf8 (pre ++ mid ++ suf)))
    pure (⟨num32, id, bytes⟩, ⟨num, bytes, nextTextBytes⟩)

def readSegList : Nat → Nat → DecodeState → GuardedReader σ (List Seg)
  | 0, _, _ => pure []
  | want + 1, index, st => do
    let (seg, st) ← readSeg keepGoing textLimit strictUtf8 pre suf index st
    let segs ← readSegList want (index + 1) st
    pure (seg :: segs)

def readBody (limit : Nat) : GuardedReader σ (Nat × List Seg) := do
  let magic ← unasked u8
  if magic ≠ MAGIC then unasked failure else do
    let h ← unasked readHeader
    let out ← readSegList keepGoing textLimit strictUtf8 h.2.1 h.2.2 (min h.1.toNat limit) 0 ⟨0, 0, 0⟩
    pure (h.1.toNat, out)

/-- `decode_prefix_impl_guarded`, with the guard's state whatever the answer is. -/
def decodeGuarded (raw : List UInt8) (limit : Nat) (s : σ) : Option (List Seg) × σ :=
  match ((readBody keepGoing textLimit strictUtf8 limit).run raw).run s with
  | (some ((n, out), rest), s) => (if min n limit = n ∧ rest ≠ [] then none else some out, s)
  | (none, s) => (none, s)

end Guarded

/-! ## Both stored forms -/

/-- What `serde_json` finds in a text: the elements of an array before it ends or breaks off, and
whether it ends, with nothing behind it. -/
structure JsonSeq where
  elements : List Seg
  ends : Bool

/-- `CappedSegmentsVisitor::visit_seq`. -/
def visitSeq {σ : Type} (keepGoing : σ → Bool × σ) (limit textLimit : Nat) (ends : Bool) :
    List Seg → List Seg → Nat → σ → Option (List Seg) × σ
  | elements, out, textBytes, s =>
    let (allowed, s) := if out.length % GUARDED_PARSE_CHUNK = 0 then keepGoing s else (true, s)
    if !allowed then (none, s)
    else
      match elements with
      | [] => (if ends then some out else none, s)
      | segment :: elements =>
        if out.length = limit then (none, s)
        else
          match checkedAddUsize textBytes (asBytes segment.id).length with
          | none => (none, s)
          | some textBytes =>
            if textLimit < textBytes then (none, s)
            else visitSeq keepGoing limit textLimit ends elements (out ++ [segment]) textBytes s

inductive GuardedParse
  | complete (segs : List Seg)
  | deferred
  | invalid
  deriving DecidableEq

section Capped

variable (json : List UInt8 → JsonSeq)

/-- `guarded`: the guard, and whether it ever refused. -/
def guarded {σ : Type} (keepGoing : σ → Bool × σ) (st : σ × Bool) : Bool × (σ × Bool) :=
  let (allowed, s) := keepGoing st.1
  (allowed, (s, st.2 || !allowed))

/-- The inner `out` of `parse_capped_bytes_guarded`. -/
def cappedOut {σ : Type} (keepGoing : σ → Bool × σ) (raw : List UInt8)
    (segmentLimit textLimit : Nat) (s : σ) : Option (List Seg) × σ :=
  if isEncoded raw then
    let (out, s) := decodeGuarded keepGoing textLimit true raw (min (segmentLimit + 1) usizeMax) s
    (out.filter fun out => out.length ≤ segmentLimit, s)
  else
    let seq := json raw
    visitSeq keepGoing segmentLimit textLimit seq.ends seq.elements [] 0 s

/-- `parse_capped_bytes_guarded`, with the guard's state. -/
def parseCappedBytesGuarded {σ : Type} (keepGoing : σ → Bool × σ) (raw : List UInt8)
    (segmentLimit textLimit : Nat) (s : σ) : GuardedParse × σ :=
  let (allowed, st) := guarded keepGoing (s, false)
  let (out, st) :=
    if !allowed then (none, st)
    else
      let (out, st) := cappedOut json (guarded keepGoing) raw segmentLimit textLimit st
      match out with
      | none => (none, st)
      | some out =>
        let (allowed, st) := guarded keepGoing st
        (if allowed then some out else none, st)
  (if st.2 then .deferred else out.elim .invalid .complete, st.1)

/-- `parse_capped_bytes`: the guard never refuses. -/
def parseCappedBytes (raw : List UInt8) (segmentLimit textLimit : Nat) : Option (List Seg) :=
  match (parseCappedBytesGuarded json (fun s : Unit => (true, s)) raw segmentLimit textLimit ()).1 with
  | .complete out => some out
  | .deferred => none
  | .invalid => none

end Capped

/-! ## Guarded and unguarded reads -/

theorem run_bind_guarded {σ α γ : Type} (p : GuardedReader σ α) (f : α → GuardedReader σ γ)
    (buf : List UInt8) (s : σ) : ((p >>= f).run buf).run s =
      match (p.run buf).run s with
      | (some (a, buf), s) => ((f a).run buf).run s
      | (none, s) => (none, s) := by
  rw [StateT.run_bind, OptionT.run_bind]
  show Option.elim ((p.run buf).run s).1 (pure none) (fun x => ((f x.1).run x.2).run)
    ((p.run buf).run s).2 = _
  rcases (p.run buf).run s with ⟨_ | x, s'⟩
  · rfl
  · rfl

section Shadows

variable {σ α β γ δ : Type} (I : σ × Bool → Prop)

/-- The guard refused and there is no answer, or it did not and the answer is `plain`. -/
def AnswersAs (r : Option α × (σ × Bool)) (plain : Option α) : Prop :=
  I r.2 ∧ (r.2.2 = true ∧ r.1 = none ∨ r.2.2 = false ∧ r.1 = plain)

/-- From a state whose guard has not refused yet, `p` is refused or reads what `q` reads. -/
def Shadows (π : β → α) (p : GuardedReader (σ × Bool) α) (q : Reader β) : Prop :=
  ∀ buf st, I st → st.2 = false →
    AnswersAs I ((p.run buf).run st) ((q.run buf).map fun x => (π x.1, x.2))

variable {I}

namespace Shadows

theorem unasked (q : Reader α) : Shadows I id (Index.unasked q) q := by
  intro buf st hI hst
  refine ⟨hI, .inr ⟨hst, ?_⟩⟩
  show q.run buf = _
  cases q.run buf with
  | none => rfl
  | some x => rfl

theorem pure (π : β → α) (x : β) : Shadows I π (pure (π x)) (pure x) :=
  fun _ _ hI hst => ⟨hI, .inr ⟨hst, rfl⟩⟩

theorem failure (π : β → α) : Shadows I π (Index.unasked failure) failure :=
  fun _ _ hI hst => ⟨hI, .inr ⟨hst, rfl⟩⟩

theorem bind {π : β → α} {π' : δ → γ} {p : GuardedReader (σ × Bool) α} {q : Reader β}
    {f : α → GuardedReader (σ × Bool) γ} {g : β → Reader δ} (hp : Shadows I π p q)
    (hf : ∀ x, Shadows I π' (f (π x)) (g x)) : Shadows I π' (p >>= f) (q >>= g) := by
  intro buf st hI hst
  obtain ⟨hI', hcase⟩ := hp buf st hI hst
  rw [run_bind_guarded, StateT.run_bind]
  rcases hr : (p.run buf).run st with ⟨o, st'⟩
  rw [hr] at hI' hcase
  rcases hcase with ⟨hflag, hnone⟩ | ⟨hflag, hsome⟩
  · dsimp only at hflag hnone
    subst hnone
    exact ⟨hI', .inl ⟨hflag, rfl⟩⟩
  · dsimp only at hflag hsome
    subst hsome
    cases hq : q.run buf with
    | none => exact ⟨hI', .inr ⟨hflag, rfl⟩⟩
    | some x => exact hf x.1 x.2 st' hI' hflag

theorem ite {π : β → α} {c : Prop} [Decidable c] {p p' : GuardedReader (σ × Bool) α}
    {q q' : Reader β} (h : c → Shadows I π p q) (h' : ¬ c → Shadows I π p' q') :
    Shadows I π (if c then p else p') (if c then q else q') := by
  split
  case isTrue hc => exact h hc
  case isFalse hc => exact h' hc

end Shadows

def keep (s : Unit) : Bool × Unit := (true, s)

variable {keepGoing : σ → Bool × σ} (hI : ∀ st, I st → I (guarded keepGoing st).2)

include hI

theorem shadows_asked (due : Bool) :
    Shadows I id (asked (guarded keepGoing) due) (StateT.lift (askEvery keep due ())) := by
  intro buf st hst hflag
  cases due with
  | false => exact ⟨hst, .inr ⟨hflag, rfl⟩⟩
  | true =>
    have hrun : ((asked (guarded keepGoing) true).run buf).run st =
        (if (guarded keepGoing st).1 then some ((), buf) else none, (guarded keepGoing st).2) := rfl
    have hguard : guarded keepGoing st =
        ((keepGoing st.1).1, ((keepGoing st.1).2, !(keepGoing st.1).1)) := by
      unfold guarded
      rw [hflag]
      rfl
    rw [hrun]
    refine ⟨hI st hst, ?_⟩
    rw [hguard]
    cases (keepGoing st.1).1 with
    | false => exact .inl ⟨rfl, rfl⟩
    | true => exact .inr ⟨rfl, rfl⟩

theorem shadows_middleLoop (fuel : Nat) : ∀ left tokens,
    Shadows I Prod.fst (middleLoop (guarded keepGoing) fuel left tokens)
      (getMiddleLoop keep fuel left tokens ()) := by
  induction fuel with
  | zero =>
    intro left tokens
    cases left with
    | zero => exact .pure Prod.fst ([], ())
    | succ left => exact .failure _
  | succ fuel ih =>
    intro left tokens
    cases left with
    | zero => exact .pure Prod.fst ([], ())
    | succ left =>
      refine (shadows_asked hI _).bind fun u => (Shadows.unasked u8).bind fun tag => ?_
      refine .ite (fun _ => .failure _) fun _ => (Shadows.unasked _).bind fun out => ?_
      exact (ih _ _).bind fun r => .pure Prod.fst (out ++ r.1, r.2)

variable (textLimit : Nat) (strictUtf8 : Bool) (pre suf : List UInt8)

theorem shadows_readSeg (index : Nat) (st : DecodeState) :
    Shadows I (fun x : Seg × DecodeState × Unit => (x.1, x.2.1))
      (readSeg (guarded keepGoing) textLimit strictUtf8 pre suf index st)
      (decodeSeg textLimit strictUtf8 keep pre suf index st ()) := by
  refine (shadows_asked hI _).bind fun u => (Shadows.unasked u8).bind fun flags => ?_
  refine (Shadows.unasked _).bind fun num => (Shadows.unasked _).bind fun bytes => ?_
  refine (Shadows.unasked varint).bind fun mlen => (Shadows.unasked _).bind fun idLen => ?_
  refine (Shadows.unasked _).bind fun idLen' => (Shadows.unasked _).bind fun text => ?_
  refine .ite (fun _ => .failure _) fun _ => (shadows_middleLoop hI _ _ _).bind fun mid => ?_
  refine (Shadows.unasked _).bind fun num32 => (Shadows.unasked _).bind fun id => ?_
  exact .pure (fun x : Seg × DecodeState × Unit => (x.1, x.2.1)) (_, _, mid.2)

theorem shadows_readSegList (want : Nat) : ∀ index st,
    Shadows I Prod.fst (readSegList (guarded keepGoing) textLimit strictUtf8 pre suf want index st)
      (decodeSegs textLimit strictUtf8 keep pre suf want index st ()) := by
  induction want with
  | zero => exact fun _ _ => .pure Prod.fst ([], ())
  | succ want ih =>
    intro index st
    refine (shadows_readSeg hI textLimit strictUtf8 pre suf index st).bind fun r => ?_
    exact (ih _ _).bind fun r' => .pure Prod.fst (r.1 :: r'.1, r'.2)

theorem shadows_readBody (limit : Nat) :
    Shadows I (fun x : Nat × List Seg × Unit => (x.1, x.2.1))
      (readBody (guarded keepGoing) textLimit strictUtf8 limit)
      (decodeBody textLimit strictUtf8 keep limit ()) := by
  rw [decodeBody_eq]
  refine (Shadows.unasked u8).bind fun magic => .ite (fun _ => .failure _) fun _ => ?_
  refine (Shadows.unasked readHeader).bind fun h => ?_
  refine (shadows_readSegList hI textLimit strictUtf8 h.2.1 h.2.2 _ _ _).bind fun r => ?_
  exact .pure (fun x : Nat × List Seg × Unit => (x.1, x.2.1)) (h.1.toNat, r)

theorem decodeGuarded_spec (raw : List UInt8) (limit : Nat) {st : σ × Bool} (hst : I st)
    (hflag : st.2 = false) :
    AnswersAs I (decodeGuarded (guarded keepGoing) textLimit strictUtf8 raw limit st)
      (decodePrefixImpl raw limit textLimit strictUtf8) := by
  have hbody := shadows_readBody hI textLimit strictUtf8 limit raw st hst hflag
  have hplain : decodePrefixImpl raw limit textLimit strictUtf8 =
      (decodePrefixImplGuarded textLimit strictUtf8 keep raw limit ()).map Prod.fst := rfl
  rw [hplain]
  unfold decodeGuarded decodePrefixImplGuarded
  rcases hr : ((readBody (guarded keepGoing) textLimit strictUtf8 limit).run raw).run st with ⟨o, st'⟩
  rw [hr] at hbody
  obtain ⟨hI', ⟨hflag', hnone⟩ | ⟨hflag', hsome⟩⟩ := hbody
  · dsimp only at hnone
    subst hnone
    exact ⟨hI', .inl ⟨hflag', rfl⟩⟩
  · dsimp only at hsome
    subst hsome
    cases (decodeBody textLimit strictUtf8 keep limit ()).run raw with
    | none => exact ⟨hI', .inr ⟨hflag', rfl⟩⟩
    | some x =>
      refine ⟨hI', .inr ⟨hflag', ?_⟩⟩
      dsimp only [Option.map_some]
      split_ifs
      · rfl
      · rfl

variable (json : List UInt8 → JsonSeq)

theorem cappedOut_spec {raw : List UInt8} (hraw : isEncoded raw = true) (segmentLimit : Nat)
    {st : σ × Bool} (hst : I st) (hflag : st.2 = false) :
    AnswersAs I (cappedOut json (guarded keepGoing) raw segmentLimit textLimit st)
      ((decodePrefixImpl raw (min (segmentLimit + 1) usizeMax) textLimit true).filter
        fun out => out.length ≤ segmentLimit) := by
  have hdec := decodeGuarded_spec hI textLimit true raw (min (segmentLimit + 1) usizeMax) hst hflag
  unfold cappedOut
  rw [if_pos hraw]
  rcases hr : decodeGuarded (guarded keepGoing) textLimit true raw (min (segmentLimit + 1) usizeMax)
    st with ⟨o, st'⟩
  rw [hr] at hdec
  obtain ⟨hI', ⟨hflag', hnone⟩ | ⟨hflag', hsome⟩⟩ := hdec
  · dsimp only at hnone
    subst hnone
    exact ⟨hI', .inl ⟨hflag', rfl⟩⟩
  · exact ⟨hI', .inr ⟨hflag', congrArg (Option.filter fun out => decide (out.length ≤ segmentLimit)) hsome⟩⟩

/-- What the unguarded parse of a compact row answers. -/
def plainCapped (raw : List UInt8) (segmentLimit textLimit : Nat) : Option (List Seg) :=
  (decodePrefixImpl raw (min (segmentLimit + 1) usizeMax) textLimit true).filter
    fun out => out.length ≤ segmentLimit

omit hI in
theorem guarded_flag (st : σ × Bool) (hflag : st.2 = false) :
    (guarded keepGoing st).2.2 = !(guarded keepGoing st).1 := by
  unfold guarded
  rw [hflag]
  rfl

/-- The guarded parse is deferred if its guard refused, and else answers as the unguarded one. -/
theorem parseCappedBytesGuarded_spec {raw : List UInt8} (hraw : isEncoded raw = true)
    (segmentLimit : Nat) {s : σ} (hs : I (s, false)) :
    ∃ refused, I ((parseCappedBytesGuarded json keepGoing raw segmentLimit textLimit s).2, refused) ∧
      (parseCappedBytesGuarded json keepGoing raw segmentLimit textLimit s).1 =
        if refused then .deferred
        else (plainCapped raw segmentLimit textLimit).elim .invalid .complete := by
  unfold parseCappedBytesGuarded
  have hI1 := hI (s, false) hs
  have hflag1 := @guarded_flag σ keepGoing (s, false) rfl
  rcases hg : guarded keepGoing (s, false) with ⟨allowed, s1, flag1⟩
  rw [hg] at hI1 hflag1
  dsimp only at hI1 hflag1 ⊢
  subst hflag1
  cases allowed with
  | false => exact ⟨true, hI1, rfl⟩
  | true =>
    have hout := cappedOut_spec hI textLimit json hraw segmentLimit hI1 rfl
    simp only [Bool.not_true, Bool.false_eq_true, if_false] at hout ⊢
    rcases hc : cappedOut json (guarded keepGoing) raw segmentLimit textLimit (s1, false)
      with ⟨out, s2, flag2⟩
    rw [hc] at hout
    obtain ⟨hI2, ⟨hflag2, hnone⟩ | ⟨hflag2, hsome⟩⟩ := hout
    · dsimp only at hI2 hflag2 hnone
      subst hflag2 hnone
      exact ⟨true, hI2, rfl⟩
    · dsimp only at hI2 hflag2 hsome
      subst hflag2
      rw [plainCapped, ← hsome]
      cases out with
      | none => exact ⟨false, hI2, rfl⟩
      | some out =>
        have hI3 := hI (s2, false) hI2
        have hflag3 := @guarded_flag σ keepGoing (s2, false) rfl
        rcases hg3 : guarded keepGoing (s2, false) with ⟨allowed, s3, flag3⟩
        rw [hg3] at hI3 hflag3
        dsimp only at hI3 hflag3 ⊢
        subst hflag3
        cases allowed with
        | false => exact ⟨true, hI3, rfl⟩
        | true => exact ⟨false, hI3, rfl⟩

end Shadows

/-! ## What the text limit bounds -/

theorem length_drainChars (acc : UInt32) (want : Nat) : ∀ nb,
    (drainChars acc nb want).1.length + (drainChars acc nb want).2.2 = want := by
  induction want with
  | zero => exact fun nb => rfl
  | succ want ih =>
    intro nb
    unfold drainChars
    split_ifs
    · have := ih (nb - 6)
      dsimp only [length_cons]
      omega
    · exact zero_add _

theorem length_unpackB64 (bs : List UInt8) : ∀ acc nb want,
    (unpackB64 bs acc nb want).1.length + (unpackB64 bs acc nb want).2 = want := by
  induction bs with
  | nil => exact fun acc nb want => zero_add _
  | cons b bs ih =>
    intro acc nb want
    have hdrain := length_drainChars ((acc <<< 8) ||| b.toUInt32) want (nb + 8)
    have hstep : unpackB64 (b :: bs) acc nb want =
        ((drainChars ((acc <<< 8) ||| b.toUInt32) (nb + 8) want).1 ++
          (unpackB64 bs ((acc <<< 8) ||| b.toUInt32)
            (drainChars ((acc <<< 8) ||| b.toUInt32) (nb + 8) want).2.1
            (drainChars ((acc <<< 8) ||| b.toUInt32) (nb + 8) want).2.2).1,
          (unpackB64 bs ((acc <<< 8) ||| b.toUInt32)
            (drainChars ((acc <<< 8) ||| b.toUInt32) (nb + 8) want).2.1
            (drainChars ((acc <<< 8) ||| b.toUInt32) (nb + 8) want).2.2).2) := rfl
    rw [hstep]
    generalize drainChars ((acc <<< 8) ||| b.toUInt32) (nb + 8) want = d at hdrain ⊢
    have hrest := ih ((acc <<< 8) ||| b.toUInt32) d.2.1 d.2.2
    rw [length_append]
    omega

theorem length_readBytes {n : Nat} {buf rest out : List UInt8}
    (h : (readBytes n).run buf = some (out, rest)) : out.length = n := by
  have hread : (readBytes n).run buf = if n ≤ buf.length then some (buf.take n, buf.drop n) else none :=
    rfl
  rw [hread] at h
  split at h
  case isTrue hle =>
    cases h
    rw [length_take]
    omega
  case isFalse => cases h

theorem length_getToken {kind : UInt8} {len : Nat} {buf rest out : List UInt8}
    (h : (getToken kind len).run buf = some (out, rest)) : out.length = len := by
  unfold getToken at h
  split at h
  · exact length_readBytes h
  split at h
  · split at h
    · cases h
    · obtain ⟨bs, mid, hbs, h⟩ := run_bind_eq_some h
      have hlen := length_readBytes hbs
      cases h
      unfold unpackHex
      rw [length_flatMap]
      simp only [length_cons, length_nil, map_const', sum_replicate, smul_eq_mul]
      omega
  split at h
  · obtain ⟨packed, mid, -, h⟩ := run_bind_eq_some h
    have hlen := length_unpackB64 packed 0 0 len
    rcases unpackB64 packed 0 0 len with ⟨out', want⟩
    dsimp only at h hlen
    split at h
    · cases h
    · rename_i hwant
      cases h
      rw [not_not.mp hwant] at hlen
      exact hlen
  · cases h

section Text

variable {pre suf : List UInt8}

theorem length_getMiddleLoop (fuel : Nat) : ∀ {left tokens : Nat} {buf rest out : List UInt8}
    {u : Unit}, (getMiddleLoop keep fuel left tokens ()).run buf = some ((out, u), rest) →
      out.length = left := by
  induction fuel with
  | zero =>
    intro left tokens buf rest out u h
    cases left with
    | zero =>
      cases h
      rfl
    | succ left => cases h
  | succ fuel ih =>
    intro left tokens buf rest out u h
    cases left with
    | zero =>
      cases h
      rfl
    | succ left =>
      obtain ⟨s, _, -, h⟩ := run_bind_eq_some h
      obtain ⟨tag, _, -, h⟩ := run_bind_eq_some h
      dsimp only at h
      split at h
      case isTrue => cases h
      case isFalse hlen =>
        obtain ⟨tok, _, htok, h⟩ := run_bind_eq_some h
        obtain ⟨⟨more, u'⟩, _, hmore, h⟩ := run_bind_eq_some h
        have h1 := length_getToken htok
        have h2 := ih hmore
        cases h
        show (tok ++ more).length = left + 1
        rw [length_append]
        omega

theorem asBytes_of_fromUtf8 {b : List UInt8} {s : String} (h : fromUtf8 b = some s) :
    asBytes s = b := by
  unfold fromUtf8 String.fromUTF8? at h
  split at h
  · cases h
    rfl
  · cases h

theorem run_bind_of_some {α β : Type} {p : Reader α} {f : α → Reader β} {buf mid : List UInt8}
    {x : α} (h : p.run buf = some (x, mid)) : (p >>= f).run buf = (f x).run mid := by
  rw [StateT.run_bind, h]
  rfl

theorem run_lift_eq_some {α : Type} {o : Option α} {x : α} {buf rest : List UInt8}
    (h : (StateT.lift o : Reader α).run buf = some (x, rest)) : o = some x := by
  cases o with
  | none => cases h
  | some y =>
    cases h
    rfl

theorem checkedAddUsize_eq_some {a b n : Nat} (h : checkedAddUsize a b = some n) :
    n = a + b ∧ n ≤ usizeMax := by
  unfold checkedAddUsize at h
  split at h
  case isTrue hle =>
    cases h
    exact ⟨rfl, hle⟩
  case isFalse => cases h

/-- A segment is charged its id's bytes, and but for the limit reads the same under any. -/
theorem text_of_decodeSeg {textLimit : Nat} {index : Nat} {st st' : DecodeState}
    {buf rest : List UInt8} {seg : Seg} {u : Unit}
    (h : (decodeSeg textLimit true keep pre suf index st ()).run buf = some ((seg, st', u), rest)) :
    st'.textBytes = st.textBytes + (asBytes seg.id).length ∧ st'.textBytes ≤ textLimit ∧
      (decodeSeg usizeMax true keep pre suf index st ()).run buf = some ((seg, st', u), rest) := by
  unfold decodeSeg at h ⊢
  obtain ⟨s, b1, h1, h⟩ := run_bind_eq_some h
  obtain ⟨flags, b2, h2, h⟩ := run_bind_eq_some h
  obtain ⟨num, b3, h3, h⟩ := run_bind_eq_some h
  obtain ⟨bytes, b4, h4, h⟩ := run_bind_eq_some h
  obtain ⟨mlen, b5, h5, h⟩ := run_bind_eq_some h
  obtain ⟨len1, b6, h6, h⟩ := run_bind_eq_some h
  obtain ⟨len2, b7, h7, h⟩ := run_bind_eq_some h
  obtain ⟨text, b8, h8, h⟩ := run_bind_eq_some h
  obtain ⟨hlen1, -⟩ := checkedAddUsize_eq_some (run_lift_eq_some h6)
  obtain ⟨hlen2, -⟩ := checkedAddUsize_eq_some (run_lift_eq_some h7)
  obtain ⟨htext, hmax⟩ := checkedAddUsize_eq_some (run_lift_eq_some h8)
  split at h
  case isTrue => cases h
  case isFalse hle =>
    obtain ⟨⟨mid, s'⟩, b9, h9, h⟩ := run_bind_eq_some h
    obtain ⟨num32, b10, h10, h⟩ := run_bind_eq_some h
    obtain ⟨id, b11, h11, h⟩ := run_bind_eq_some h
    have hmid := length_getMiddleLoop _ h9
    have hid := asBytes_of_fromUtf8 (run_lift_eq_some h11)
    cases h
    refine ⟨?_, not_lt.mp hle, ?_⟩
    · dsimp only
      rw [hid, length_append, length_append]
      omega
    · rw [run_bind_of_some h1, run_bind_of_some h2, run_bind_of_some h3, run_bind_of_some h4,
        run_bind_of_some h5, run_bind_of_some h6, run_bind_of_some h7, run_bind_of_some h8,
        if_neg (not_lt.mpr hmax), run_bind_of_some h9, run_bind_of_some h10, run_bind_of_some h11]
      rfl

theorem text_of_decodeSegs {textLimit : Nat} {want : Nat} : ∀ {index : Nat} {st : DecodeState}
    {buf rest : List UInt8} {out : List Seg} {u : Unit},
    st.textBytes ≤ textLimit →
    (decodeSegs textLimit true keep pre suf want index st ()).run buf = some ((out, u), rest) →
      st.textBytes + textLen out ≤ textLimit ∧
        (decodeSegs usizeMax true keep pre suf want index st ()).run buf = some ((out, u), rest) := by
  induction want with
  | zero =>
    intro index st buf rest out u hst h
    cases h
    exact ⟨hst, rfl⟩
  | succ want ih =>
    intro index st buf rest out u hst h
    unfold decodeSegs at h ⊢
    obtain ⟨⟨seg, st', u'⟩, mid, hseg, h⟩ := run_bind_eq_some h
    obtain ⟨⟨segs, u''⟩, _, hsegs, h⟩ := run_bind_eq_some h
    obtain ⟨hcharge, hle, hseg'⟩ := text_of_decodeSeg hseg
    obtain ⟨htext, hsegs'⟩ := ih hle hsegs
    cases h
    refine ⟨?_, ?_⟩
    · simp only [textLen, map_cons, sum_cons] at htext ⊢
      omega
    · rw [run_bind_of_some hseg', run_bind_of_some hsegs']
      rfl

end Text

theorem text_of_decodeBody {raw rest : List UInt8} {limit textLimit n : Nat} {out : List Seg}
    {u : Unit} (h : (decodeBody textLimit true keep limit ()).run raw = some ((n, out, u), rest)) :
    textLen out ≤ textLimit ∧
      (decodeBody usizeMax true keep limit ()).run raw = some ((n, out, u), rest) := by
  rw [decodeBody_eq] at h ⊢
  obtain ⟨magic, b1, h1, h⟩ := run_bind_eq_some h
  split at h
  case isTrue => cases h
  case isFalse hmagic =>
    obtain ⟨header, b2, h2, h⟩ := run_bind_eq_some h
    obtain ⟨⟨segs, u'⟩, b3, h3, h⟩ := run_bind_eq_some h
    obtain ⟨htext, h3'⟩ := text_of_decodeSegs (Nat.zero_le _) h3
    cases h
    refine ⟨by omega, ?_⟩
    rw [run_bind_of_some h1, if_neg hmagic, run_bind_of_some h2, run_bind_of_some h3']
    rfl

theorem text_of_decodePrefixImpl {raw : List UInt8} {limit textLimit : Nat} {out : List Seg}
    (h : decodePrefixImpl raw limit textLimit true = some out) :
    textLen out ≤ textLimit ∧ decodePrefixImpl raw limit usizeMax true = some out := by
  have hplain : ∀ t, decodePrefixImpl raw limit t true =
      (decodePrefixImplGuarded t true keep raw limit ()).map Prod.fst := fun _ => rfl
  rw [hplain] at h ⊢
  unfold decodePrefixImplGuarded at h ⊢
  cases hbody : (decodeBody textLimit true keep limit ()).run raw with
  | none =>
    rw [hbody] at h
    cases h
  | some r =>
    obtain ⟨htext, hbody'⟩ := text_of_decodeBody hbody
    rw [hbody] at h
    rw [hbody']
    dsimp only at h ⊢
    split at h
    case isTrue => cases h
    case isFalse hrest =>
      cases h
      exact ⟨htext, by rw [if_neg hrest]; rfl⟩

/-! ## Exactness on an encoded list -/

theorem plainCapped_encode (v : SegVec) {s t : Nat} (ht : t ≤ usizeMax) :
    plainCapped (encode v.segs) s t =
      if v.segs.length ≤ s ∧ textLen v.segs ≤ t then some v.segs else none := by
  have hcount := v.count
  have hplain : ∀ limit t, decodePrefixImpl (encode v.segs) limit t true =
      (decodePrefixImplGuarded t true keep (encode v.segs) limit ()).map Prod.fst := fun _ _ => rfl
  have hdecode : ∀ limit t, textLen v.segs ≤ t → t ≤ usizeMax →
      decodePrefixImpl (encode v.segs) limit t true = some (v.segs.take limit) := by
    intro limit t htext hmax
    rw [hplain, decodePrefixImplGuarded_encode (fun _ => rfl : ∀ u, keep u = (true, u)) v htext hmax]
    rfl
  have hfits : v.segs.length ≤ s → v.segs.take (min (s + 1) usizeMax) = v.segs := by
    intro hlen
    refine take_of_length_le ?_
    unfold usizeMax
    omega
  unfold plainCapped
  split_ifs with h
  · rw [hdecode _ _ h.2 ht, hfits h.1]
    exact Option.filter_some_pos (decide_eq_true h.1)
  · rw [Option.filter_eq_none_iff]
    intro out hout hlen
    obtain ⟨htext, hfull⟩ := text_of_decodePrefixImpl hout
    rw [hdecode _ _ v.text le_rfl] at hfull
    cases hfull
    have hle := of_decide_eq_true hlen
    rw [length_take] at hle
    have hlen : v.segs.length ≤ s := by
      unfold usizeMax at hle
      omega
    rw [hfits hlen] at htext
    exact h ⟨hlen, htext⟩

/-- `keep_going` answers its calls from `answers`, in order: the state is the calls so far. -/
def scripted (answers : Nat → Bool) (calls : Nat) : Bool × Nat := (answers calls, calls + 1)

theorem scripted_guarded (answers : Nat → Bool) (st : Nat × Bool)
    (hst : st.2 = true ↔ ∃ k < st.1, answers k = false) :
    (guarded (scripted answers) st).2.2 = true ↔
      ∃ k < (guarded (scripted answers) st).2.1, answers k = false := by
  show (st.2 || !answers st.1) = true ↔ ∃ k < st.1 + 1, answers k = false
  rw [Nat.exists_lt_succ_right, Bool.or_eq_true, hst, Bool.not_eq_true']

theorem parseCappedBytes_eq (json : List UInt8 → JsonSeq) {raw : List UInt8}
    (hraw : isEncoded raw = true) (s t : Nat) :
    parseCappedBytes json raw s t = plainCapped raw s t := by
  have hI : ∀ st : Unit × Bool, st.2 = false → (guarded keep st).2.2 = false := by
    intro st hst
    rw [guarded_flag st hst]
    rfl
  obtain ⟨refused, hr, hanswer⟩ := parseCappedBytesGuarded_spec hI t json hraw s (s := ()) rfl
  have hrefused : refused = false := hr
  have hkeep : (parseCappedBytesGuarded json (fun s : Unit => (true, s)) raw s t ()).1 =
      (plainCapped raw s t).elim .invalid .complete := by
    rw [hrefused] at hanswer
    exact hanswer
  unfold parseCappedBytes
  rw [hkeep]
  cases plainCapped raw s t with
  | none => rfl
  | some out => rfl

/-- A capped parse of an encoded list is the list or nothing, by the two limits; and whatever the
guard answers, a guarded one is deferred when a call made to the guard was refused, and else
says what the unguarded one does. -/
theorem capped_parse_exact (json : List UInt8 → JsonSeq) (v : SegVec) (s t : UInt64) :
    parseCappedBytes json (encode v.segs) s.toNat t.toNat =
        (if v.segs.length ≤ s.toNat ∧ textLen v.segs ≤ t.toNat then some v.segs else none) ∧
      ∀ answers : Nat → Bool,
        let parsed := parseCappedBytesGuarded json (scripted answers) (encode v.segs) s.toNat t.toNat 0
        ((∃ k < parsed.2, answers k = false) → parsed.1 = .deferred) ∧
          ((∀ k < parsed.2, answers k = true) → parsed.1 =
            (parseCappedBytes json (encode v.segs) s.toNat t.toNat).elim .invalid .complete) ∧
          ∀ out, parsed.1 = .complete out → out = v.segs := by
  have hraw := isEncoded_encode v.segs
  have ht : t.toNat ≤ usizeMax := by
    have := t.toNat_lt
    unfold usizeMax
    omega
  have hplain := plainCapped_encode v (s := s.toNat) ht
  rw [parseCappedBytes_eq json hraw]
  refine ⟨hplain, fun answers => ?_⟩
  dsimp only
  obtain ⟨refused, hr, hanswer⟩ := parseCappedBytesGuarded_spec (scripted_guarded answers) t.toNat
    json hraw s.toNat (s := 0) (by simp)
  rw [hanswer]
  refine ⟨fun hrefuse => by rw [if_pos (hr.mpr hrefuse)], fun hallow => ?_, fun out hout => ?_⟩
  · rw [if_neg]
    intro h
    obtain ⟨k, hk, hfalse⟩ := hr.mp h
    rw [hallow k hk] at hfalse
    cases hfalse
  · cases refused with
    | true => cases hout
    | false =>
      rw [if_neg Bool.false_ne_true, hplain] at hout
      split_ifs at hout
      · cases hout
        rfl
      · cases hout

end NzbFast.Index
