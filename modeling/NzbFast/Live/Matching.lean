import NzbFast.Live.Adopted

/-!
# The match tiers

`SlotState::try_match` (`crates/nzbkit-base/src/live/slotstate.rs`), its
reference drain `try_match_linear` (`live/matchref.rs`) and the head arbiter
(`live/headarb.rs`). The two drains differ in how the name tier draws up its
candidates and in nothing else, so both are `NamedSlot.matchBy` applied to a
`Shortlist`: `Adopted.indexedShortlist` answers from the name maps,
`Adopted.linearShortlist` scans.

* `Adopted.shortlist_eq`: the two shortlists are equal.
* `NamedSlot.tryMatch_refines`: so are the two drains.
-/

namespace NzbFast.Live

open NzbFast.Rust NzbFast.Par2 Fold

/-- How much of a file its `md5_16k` covers. -/
def HEAD_LEN : Nat := 16384

/-! ## The head arbiter -/

inductive HeadSays
  | confirm
  | deny
  | unknown
  deriving DecidableEq, Repr

/-- `head_says`: digests of different spans are never compared. -/
def headSays (f : Par2File) (want : Nat) (key : List UInt8) : HeadSays :=
  if min f.length HEAD_LEN ≠ want then .unknown else if f.md5_16k = key then .confirm else .deny

/-- The counts of `arbitrate_by_head`, with the first candidate of each kind. -/
structure Arbitration where
  confirm : Option Nat := none
  unknown : Option Nat := none
  nConfirm : Nat := 0
  nUnknown : Nat := 0

def Arbitration.count (a : Arbitration) (fi : Nat) : HeadSays → Arbitration
  | .confirm => { a with nConfirm := a.nConfirm + 1, confirm := some (a.confirm.getD fi) }
  | .unknown => { a with nUnknown := a.nUnknown + 1, unknown := some (a.unknown.getD fi) }
  | .deny => a

section Arbiter

variable {h : Host} (a : Adopted h)

/-- `arbitrate_by_head`: `some (fi, true)` is a claim, `some (fi, false)` a tentative binding. -/
def arbitrateByHead (cands : List Nat) (want : Nat) (key : Option (List UInt8)) :
    Option (Nat × Bool) :=
  key.bind fun key =>
    let t : Arbitration := cands.foldl
      (fun t fi => (a.file fi).elim t fun f => t.count fi (headSays f want key)) {}
    if 0 < t.nConfirm then t.confirm.map fun fi => (fi, t.nConfirm = 1)
    else if t.nUnknown = 1 then
      t.unknown.bind fun fi =>
        -- only a head shorter than the descriptor's own span is silent about it
        if (a.file fi).any fun f => want < min f.length HEAD_LEN then some (fi, true) else none
    else none

end Arbiter

/-! ## A slot's name and head -/

/-- `name_keys`: the folded and the sanitized name. -/
def Host.nameKeys (h : Host) (name : Text) : Text × Text :=
  (toAsciiLowercase name, h.sanitizeOutName name)

/-- The fields of `SlotState` that the match tiers read and write. -/
structure NamedSlot (h : Host) where
  name : Option Text := none
  nameKeys : Option (Text × Text) := none
  head : Option Partial := none
  headMd5 : Option (List UInt8) := none
  fileSize : Nat := 0
  file : Option Nat := none
  confirmed : Bool := false
  headNominated : Bool := false
  headRivalRuledOut : Bool := false
  blocks : List BlockState := []
  unmatchable : Option Nat := none
  liveOk : Nat := 0
  readbackForced : List Nat := []
  /-- The cached keys are the name's. -/
  keys_of_name : ∀ k, nameKeys = some k → ∃ n, name = some n ∧ k = h.nameKeys n := by simp

namespace NamedSlot

variable {h : Host} (s : NamedSlot h)

def headWant : Nat := if 0 < s.fileSize then min s.fileSize HEAD_LEN else HEAD_LEN

def completeHead : Option (List UInt8) :=
  if s.headWant = 0 then none
  else (s.head.filter fun p => p.buf.length == s.headWant && p.complete).map (·.buf)

def headKey : Option (List UInt8) := s.headMd5 <|> s.completeHead.map h.md5

/-- What `head_key` leaves in the cache. -/
def cacheHead : NamedSlot h := { s with headMd5 := s.headKey }

def cacheKeys : NamedSlot h :=
  { s with
    nameKeys := s.nameKeys <|> s.name.map h.nameKeys
    keys_of_name := by
      intro k hk
      cases hn : s.nameKeys with
      | some k' =>
        rw [hn] at hk
        exact s.keys_of_name k (by rw [hn]; exact hk)
      | none =>
        rw [hn] at hk
        obtain ⟨n, hname, rfl⟩ := Option.map_eq_some_iff.mp hk
        exact ⟨n, hname, rfl⟩ }

def refused (a : Adopted h) : Bool := s.unmatchable = some a.adoptedGen

/-- The permanent refusal, under the population it was reached against. -/
def refuse (a : Adopted h) : NamedSlot h := { s with unmatchable := some a.adoptedGen }

/-- A binding to descriptor `fi`: its block grid starts out Pending. -/
def bindTo (a : Adopted h) (fi : Nat) (confirmed headNominated : Bool) : NamedSlot h :=
  { s with
    file := some fi
    confirmed := confirmed
    headNominated := headNominated
    blocks := List.replicate ((a.file fi).elim 0 (·.blocks.length)) .pending }

end NamedSlot

/-! ## The name tier's candidates -/

/-- Candidates in flat order, and whether an approximate tier declined on a second one. -/
structure Shortlist where
  cands : List Nat
  ambiguous : Bool
  deriving DecidableEq, Repr

/-- The first candidate of an iterator, unless it yields a second. -/
def Shortlist.sole (it : List Nat) : Shortlist :=
  if it.tail.head? = none then ⟨it.head?.toList, false⟩ else ⟨[], true⟩

namespace Adopted

variable {h : Host} (a : Adopted h)

/-- The merge-walk's loop: the first unclaimed descriptor, unless there is a second. -/
def soleFree : Nat → List Nat → List Nat → Option Nat → Shortlist
  | 0, _, _, first => ⟨first.toList, false⟩
  | n + 1, folded, sanit, first =>
    match popLeast folded sanit with
    | none => ⟨first.toList, false⟩
    | some (fi, folded, sanit) =>
      if a.free fi then
        match first with
        | none => soleFree n folded sanit (some fi)
        | some _ => ⟨[], true⟩
      else soleFree n folded sanit first

/-- `try_match`'s candidates: exact within the fold bucket, else a sole approximate one. -/
def indexedShortlist (name : Text) (keys : Text × Text) : Shortlist :=
  let folded := bucket a.byFold keys.1
  let sanit := bucket a.bySanitized keys.2
  let exact := folded.filter fun fi => a.free fi && (a.file fi).any fun f => f.name.toList == name
  if exact ≠ [] then ⟨exact, false⟩
  else a.soleFree (folded.length + sanit.length) folded sanit none

/-- `try_match_linear`'s candidates: the same by full scans. -/
def linearShortlist (name : Text) : Shortlist :=
  let sname := h.sanitizeOutName name
  let exact := positions (fun fi f => a.free fi && f.name.toList == name) a.files
  if exact ≠ [] then ⟨exact, false⟩
  else
    Shortlist.sole (positions (fun fi f => a.free fi &&
      (eqIgnoreAsciiCase f.name.toList name || h.sanitizeOutName f.name.toList == sname)) a.files)

end Adopted

/-! ## The head tier -/

/-- What the md5-16k scan found. -/
structure HeadTier where
  hit : Option Nat := none
  ambiguous : Bool := false
  claimedRival : Bool := false
  deriving DecidableEq, Repr

/-- The md5-16k scan. Descriptors that agree on length and whole-file MD5 describe one file. -/
def Adopted.headScan {h : Host} (a : Adopted h) (want : Nat) (md5 : List UInt8) :
    List (Par2File × Nat) → HeadTier → HeadTier
  | [], t => t
  | (f, fi) :: rest, t =>
    if min f.length HEAD_LEN ≠ want ∨ f.md5_16k ≠ md5 then a.headScan want md5 rest t
    else if !a.free fi then a.headScan want md5 rest { t with claimedRival := true }
    else
      match t.hit with
      | none => a.headScan want md5 rest { t with hit := some fi }
      | some g =>
        if (a.file g).any fun f' => f'.length = f.length ∧ f'.md5 = f.md5 then
          a.headScan want md5 rest t
        else { t with hit := none, ambiguous := true }

/-! ## The drain -/

/-- What a drain answers: whether the slot is bound now, the claim table, and the slot. -/
structure Drained (h : Host) where
  bound : Bool
  population : Adopted h
  slot : NamedSlot h

namespace NamedSlot

variable {h : Host} (s : NamedSlot h)

/-- The name's tentative nominee, where the arbiter gave no hit. -/
def nominee (key : Option (List UInt8)) (cands : List Nat) : Option Nat :=
  if key = none then cands.head? else if cands.length = 1 then cands.head? else none

def bindNominee (a : Adopted h) (tentative : Bool) (nominee : Option Nat) : Drained h :=
  match nominee.filter fun fi => tentative && a.free fi with
  | some fi => ⟨true, a, s.bindTo a fi false false⟩
  | none => ⟨false, a, s⟩

/-- The md5-16k tier and what follows it. -/
def matchHead (a : Adopted h) (slot : Nat) (tentative nameAmbiguous : Bool) (nominee : Option Nat) :
    Drained h :=
  match s.completeHead with
  | none => s.bindNominee a tentative nominee
  | some head =>
    let t := a.headScan s.headWant (h.md5 head) a.files.zipIdx {}
    match t.hit with
    | some fi =>
      -- a head that is the whole file finalizes, a longer file's only nominates
      let whole := (a.file fi).any fun f => f.length ≤ HEAD_LEN
      ⟨true, a.setClaim fi (some slot), s.bindTo a fi whole !whole⟩
    | none =>
      let latch := s.name.isSome && !nameAmbiguous && !t.ambiguous && !t.claimedRival
      let s := if latch then s.refuse a else s
      s.bindNominee a tentative nominee

/-- A drain over a way to draw up the name's candidates. -/
def matchBy (a : Adopted h) (slot : Nat) (tentative : Bool) (shortlist : Text → Shortlist) :
    Drained h :=
  let key := s.headKey
  let s := s.cacheHead
  match s.name with
  | none => s.matchHead a slot tentative false none
  | some name =>
    let l := shortlist name
    match arbitrateByHead a l.cands s.headWant key with
    | some (fi, sure) =>
      ⟨true, if sure then a.setClaim fi (some slot) else a, s.bindTo a fi sure false⟩
    | none =>
      if l.cands = [] then s.matchHead a slot tentative l.ambiguous none
      else s.matchHead a slot tentative true (nominee key l.cands)

/-- `SlotState::try_match`. -/
def tryMatch (a : Adopted h) (slot : Nat) (tentative : Bool) : Drained h :=
  let s := s.cacheKeys
  s.matchBy a slot tentative fun name => a.indexedShortlist name (s.nameKeys.getD (h.nameKeys name))

/-- `SlotState::try_match_linear`. -/
def tryMatchLinear (a : Adopted h) (slot : Nat) (tentative : Bool) : Drained h :=
  s.matchBy a slot tentative a.linearShortlist

end NamedSlot

/-! ## The indexed drain is the linear one -/

namespace Adopted

variable {h : Host} (a : Adopted h)

theorem bucket_byFold (k : Text) :
    bucket a.byFold k = positions (fun _ f => toAsciiLowercase f.name.toList = k) a.files := by
  rw [a.byFold_eq, bucket_indexBy, files_eq]

theorem bucket_bySanitized (k : Text) :
    bucket a.bySanitized k = positions (fun _ f => h.sanitizeOutName f.name.toList = k) a.files := by
  rw [a.bySanitized_eq, bucket_indexBy, files_eq]

theorem soleFree_eq (n : Nat) (folded sanit : List Nat) (first : Option Nat) :
    a.soleFree n folded sanit first =
      Shortlist.sole (first.toList ++ (mergeWalk n folded sanit).filter a.free) := by
  induction n generalizing folded sanit first with
  | zero => cases first <;> rfl
  | succ n ih =>
    unfold soleFree mergeWalk
    cases popLeast folded sanit with
    | none => cases first <;> rfl
    | some x =>
      obtain ⟨fi, folded, sanit⟩ := x
      dsimp only
      by_cases hf : a.free fi = true
      · rw [if_pos hf, List.filter_cons_of_pos hf]
        cases first with
        | none => rw [ih]; rfl
        | some g => rfl
      · rw [if_neg hf, List.filter_cons_of_neg hf, ih]

/-- A byte-equal name is in its own fold bucket. -/
theorem exact_eq (name : Text) :
    ((bucket a.byFold (toAsciiLowercase name)).filter fun fi =>
        a.free fi && (a.file fi).any fun f => f.name.toList == name) =
      positions (fun fi f => a.free fi && f.name.toList == name) a.files := by
  rw [bucket_byFold, filter_positions _ fun fi f => a.free fi && f.name.toList == name]
  · apply positions_congr
    intro fi f _
    by_cases hn : f.name.toList = name
    · simp [hn]
    · simp [hn]
  · intro fi f hf _
    rw [file_eq, hf]
    rfl

theorem approximate_eq (name : Text) {n : Nat}
    (hn : (bucket a.byFold (toAsciiLowercase name)).length +
      (bucket a.bySanitized (h.sanitizeOutName name)).length ≤ n) :
    (mergeWalk n (bucket a.byFold (toAsciiLowercase name))
        (bucket a.bySanitized (h.sanitizeOutName name))).filter a.free =
      positions (fun fi f => a.free fi && (eqIgnoreAsciiCase f.name.toList name ||
        h.sanitizeOutName f.name.toList == h.sanitizeOutName name)) a.files := by
  rw [bucket_byFold, bucket_bySanitized] at hn ⊢
  rw [mergeWalk_eq_positions _ _ _ hn, filter_positions _ fun fi _ => a.free fi]
  · apply positions_congr
    intro fi f _
    have hfold : eqIgnoreAsciiCase f.name.toList name =
        decide (toAsciiLowercase f.name.toList = toAsciiLowercase name) := by
      rw [Bool.eq_iff_iff, eqIgnoreAsciiCase_iff, decide_eq_true_eq]
    rw [hfold, Bool.and_comm, beq_eq_decide]
  · intro fi f _ _
    rfl

theorem shortlist_eq (name : Text) :
    a.indexedShortlist name (h.nameKeys name) = a.linearShortlist name := by
  unfold indexedShortlist linearShortlist Host.nameKeys
  dsimp only
  rw [exact_eq]
  split
  · rfl
  · rw [soleFree_eq, approximate_eq a name le_rfl]
    rfl

end Adopted

namespace NamedSlot

variable {h : Host}

/-- Equal but for the cached keys. -/
structure SameButKeys (s t : NamedSlot h) : Prop where
  name : s.name = t.name
  head : s.head = t.head
  headMd5 : s.headMd5 = t.headMd5
  fileSize : s.fileSize = t.fileSize
  file : s.file = t.file
  confirmed : s.confirmed = t.confirmed
  headNominated : s.headNominated = t.headNominated
  blocks : s.blocks = t.blocks
  unmatchable : s.unmatchable = t.unmatchable

structure Drained.Agree (m l : Drained h) : Prop where
  bound : m.bound = l.bound
  population : m.population = l.population
  slot : SameButKeys m.slot l.slot

section Drain

variable {s t : NamedSlot h} (a : Adopted h)

theorem SameButKeys.headWant (hs : SameButKeys s t) : s.headWant = t.headWant := by
  unfold NamedSlot.headWant
  rw [hs.fileSize]

theorem SameButKeys.completeHead (hs : SameButKeys s t) : s.completeHead = t.completeHead := by
  unfold NamedSlot.completeHead
  rw [hs.headWant, hs.head]

theorem SameButKeys.headKey (hs : SameButKeys s t) : s.headKey = t.headKey := by
  unfold NamedSlot.headKey
  rw [hs.headMd5, hs.completeHead]

theorem SameButKeys.cacheHead (hs : SameButKeys s t) : SameButKeys s.cacheHead t.cacheHead :=
  { hs with headMd5 := hs.headKey }

theorem SameButKeys.bindTo (hs : SameButKeys s t) (fi : Nat) (confirmed headNominated : Bool) :
    SameButKeys (s.bindTo a fi confirmed headNominated) (t.bindTo a fi confirmed headNominated) :=
  { hs with file := rfl, confirmed := rfl, headNominated := rfl, blocks := rfl }

theorem SameButKeys.bindNominee (hs : SameButKeys s t) (tentative : Bool) (nominee : Option Nat) :
    Drained.Agree (s.bindNominee a tentative nominee) (t.bindNominee a tentative nominee) := by
  unfold NamedSlot.bindNominee
  cases nominee.filter fun fi => tentative && a.free fi with
  | none => exact ⟨rfl, rfl, hs⟩
  | some fi => exact ⟨rfl, rfl, hs.bindTo a fi false false⟩

theorem SameButKeys.matchHead (hs : SameButKeys s t) (slot : Nat) (tentative nameAmbiguous : Bool)
    (nominee : Option Nat) :
    Drained.Agree (s.matchHead a slot tentative nameAmbiguous nominee)
      (t.matchHead a slot tentative nameAmbiguous nominee) := by
  unfold NamedSlot.matchHead
  rw [hs.completeHead, hs.headWant, hs.name]
  cases t.completeHead with
  | none => exact hs.bindNominee a tentative nominee
  | some head =>
    dsimp only
    cases (a.headScan t.headWant (h.md5 head) a.files.zipIdx {}).hit with
    | some fi => exact ⟨rfl, rfl, hs.bindTo a fi _ _⟩
    | none =>
      dsimp only
      split
      · have hr : SameButKeys (s.refuse a) (t.refuse a) := { hs with unmatchable := rfl }
        exact hr.bindNominee a tentative nominee
      · exact hs.bindNominee a tentative nominee

/-- A drain over equal shortlists: the cached keys play no part in it. -/
theorem SameButKeys.matchBy (hs : SameButKeys s t) (slot : Nat) (tentative : Bool)
    {f g : Text → Shortlist} (hfg : ∀ name, t.name = some name → f name = g name) :
    Drained.Agree (s.matchBy a slot tentative f) (t.matchBy a slot tentative g) := by
  have hc := hs.cacheHead
  have hname : t.cacheHead.name = t.name := rfl
  unfold NamedSlot.matchBy
  dsimp only
  rw [hc.name, hc.headWant, hs.headKey]
  cases hn : t.cacheHead.name with
  | none => exact hc.matchHead a slot tentative false none
  | some name =>
    dsimp only
    rw [hfg name (hname ▸ hn)]
    cases arbitrateByHead a (g name).cands t.cacheHead.headWant t.headKey with
    | some x => exact ⟨rfl, rfl, hc.bindTo a x.1 x.2 false⟩
    | none =>
      dsimp only
      split
      · exact hc.matchHead a slot tentative (g name).ambiguous none
      · exact hc.matchHead a slot tentative true _

end Drain

theorem sameButKeys_cacheKeys (s : NamedSlot h) : SameButKeys s.cacheKeys s :=
  ⟨rfl, rfl, rfl, rfl, rfl, rfl, rfl, rfl, rfl⟩

theorem nameKeys_cacheKeys (s : NamedSlot h) {name : Text} (hn : s.name = some name) :
    s.cacheKeys.nameKeys = some (h.nameKeys name) := by
  unfold cacheKeys
  dsimp only
  cases hk : s.nameKeys with
  | none =>
    rw [hn]
    rfl
  | some k =>
    obtain ⟨n, hname, rfl⟩ := s.keys_of_name k hk
    rw [hn] at hname
    cases hname
    rfl

/-- The indexed drain refines the linear one: the same answer, the same claim table and the same
binding, for every population, claim table and slot. -/
theorem tryMatch_refines (s : NamedSlot h) (a : Adopted h) (slot : Nat) (tentative : Bool) :
    let m := s.tryMatch a slot tentative
    let l := s.tryMatchLinear a slot tentative
    m.bound = l.bound ∧ m.population.claimed = l.population.claimed ∧ m.slot.file = l.slot.file ∧
      m.slot.confirmed = l.slot.confirmed ∧ m.slot.headNominated = l.slot.headNominated ∧
      m.slot.blocks = l.slot.blocks ∧ m.slot.unmatchable = l.slot.unmatchable := by
  have hagree : Drained.Agree (s.tryMatch a slot tentative) (s.tryMatchLinear a slot tentative) := by
    apply s.sameButKeys_cacheKeys.matchBy a slot tentative
    intro name hn
    rw [s.nameKeys_cacheKeys hn]
    exact a.shortlist_eq name
  intro m l
  exact ⟨hagree.bound, congrArg Adopted.claimed hagree.population, hagree.slot.file,
    hagree.slot.confirmed, hagree.slot.headNominated, hagree.slot.blocks, hagree.slot.unmatchable⟩

end NamedSlot

end NzbFast.Live
