import NzbFast.Par2.Catalog
import NzbFast.Par2.Windowed

/-!
# Recovery packets deferred

`scan_packets_deferring`, `Par2Set::parse_deferred` and
`validate_recovery_spans` (`crates/nzbkit-base/src/par2.rs`): a verify frames a
set's recovery packets and hashes them only when a verdict needs the count. The
walk hops over a recovery packet by its unverified length, so what a damaged one
covers is not looked at, where the hashing walk would resync inside it
(`Unhidden`). Apart from that the deferral changes nothing but when the packets
are hashed.
-/

namespace NzbFast.Par2

open Fold SetClaims Finset
open Option hiding or_assoc

/-! ## The deferring walk -/

/-- Whether the header at `start` names a recovery packet. -/
def isRecovery (input : List UInt8) (start : Nat) : Bool :=
  slice input (start + 48) (start + 64) = TYPE_RECVSLIC

section Model

variable (md5 : List UInt8 → List UInt8)

/-- `scan_packets_deferring`: the packets emitted and the spans deferred. -/
def scanPacketsDeferring (input : List UInt8) : List RawPacket × List (Nat × Nat) :=
  let spans := packetSpans input
  let hashed := spans.filter fun s => !isRecovery input s.1
  if (hashed.all fun s => verified md5 input s.1 s.2) = true then
    (hashed.map fun s => rawPacket input s.1 s.2, spans.filter fun s => isRecovery input s.1)
  else ((scanPacketsSerial md5 input).1, [])

def verifySpan (input : List UInt8) (start stop : Nat) : Option RawPacket :=
  if stop < start + HEADER_LEN ∨ input.length < stop then none
  else if verified md5 input start stop then some (rawPacket input start stop)
  else none

/-- One row of a census. -/
structure PacketInfo where
  md5 : List UInt8
  setId : List UInt8
  recoveryExponent : Option Nat
  bodyLen : Nat
  deriving DecidableEq, Repr

def censusEntry (p : RawPacket) : PacketInfo where
  md5 := p.md5
  setId := p.setId
  recoveryExponent := if isSlice p then some (fromLe (slice p.body 0 4)) else none
  bodyLen := p.body.length

/-- The entry of a packet that is only framed: what its header says. -/
def framedEntry (input : List UInt8) (s : Nat × Nat) : PacketInfo where
  md5 := (rawPacket input s.1 s.2).md5
  setId := (rawPacket input s.1 s.2).setId
  recoveryExponent :=
    if 4 ≤ (rawPacket input s.1 s.2).body.length then
      some (fromLe (slice (rawPacket input s.1 s.2).body 0 4))
    else none
  bodyLen := (rawPacket input s.1 s.2).body.length

/-- What a deferred parse returns. -/
structure DeferredParse where
  set : Except Par2Error Par2Set
  census : List (List PacketInfo)
  deferred : List (List (Nat × Nat))

def claimedPackets (inputs : List (List UInt8)) : List RawPacket :=
  inputs.flatMap fun input => (scanPacketsDeferring md5 input).1

/-- `parse_inner_with` with the recovery packets deferred. -/
def parseInnerDeferred (o : HashOrder) (inputs : List (List UInt8)) : DeferredParse where
  set := settle o ((claimedPackets md5 inputs).foldl (Walk.claim md5) {}).groups
  census := inputs.map fun input =>
    (scanPacketsDeferring md5 input).1.map censusEntry ++
      (scanPacketsDeferring md5 input).2.map (framedEntry input)
  deferred := inputs.map fun input => (scanPacketsDeferring md5 input).2

/-- `parse_censused`, with nothing deferred. -/
def parseCensused (o : HashOrder) (inputs : List (List UInt8)) : DeferredParse where
  set := parse md5 o inputs
  census := inputs.map fun input => (scanPackets md5 input).map censusEntry
  deferred := inputs.map fun _ => []

def counted : Except Par2Error Par2Set → Bool
  | .ok s => s.recoveryBlocksSeen ≠ 0
  | .error _ => false

/-- `parse_deferred`: counts of hashed and of deferred packets cannot be added, so an input list
with both is parsed again with nothing deferred. -/
def parseDeferred (o : HashOrder) (inputs : List (List UInt8)) : DeferredParse :=
  let r := parseInnerDeferred md5 o inputs
  if counted r.set = true ∧ r.deferred.any (fun spans => spans ≠ []) = true then
    parseCensused md5 o inputs
  else r

/-- The exponent and the slice length of a verified recovery packet of the set whose slice fills
a block. -/
def validSlice (setId : FileId) (blockSize : Nat) (p : RawPacket) : Option (Nat × Nat) :=
  if p.setId ≠ setId ∨ p.ptype ≠ TYPE_RECVSLIC ∨ p.body.length < 4 then none
  else if sliceFitsBlock (p.body.length - 4) blockSize then
    some (fromLe (slice p.body 0 4), p.body.length - 4)
  else none

/-- `validate_recovery_spans`: the longest slice of each exponent. The order in which the workers
merge their finds changes no maximum. -/
def validateRecoverySpans (input : List UInt8) (spans : List (Nat × Nat)) (setId : FileId)
    (blockSize : Nat) : Table Nat Nat :=
  ((spans.filterMap fun s => verifySpan md5 input s.1 s.2).filterMap
    (validSlice setId blockSize)).foldl (fun t e => t.step e.1 0 (max · e.2)) ∅

/-- The recovery blocks a caller of `parse_deferred` settles on: the distinct exponents of the
validated spans, and the set's own count where nothing was deferred. -/
def settledCount (inputs : List (List UInt8)) (deferred : List (List (Nat × Nat)))
    (s : Par2Set) : Nat :=
  (((inputs.zip deferred).map fun e =>
      (validateRecoverySpans md5 e.1 e.2 s.recoverySetId s.blockSize).keys).foldr (· ∪ ·) ∅).card +
    if deferred.all (fun spans => spans = []) = true then s.recoveryBlocksSeen else 0

def Par2Set.sansCount (s : Par2Set) : Par2Set := { s with recoveryBlocksSeen := 0 }

/-- What a caller gets from a deferred parse is what `parse` says. -/
structure DeferralAgrees (o o' : HashOrder) (inputs : List (List UInt8)) : Prop where
  fields : (parseDeferred md5 o inputs).set.map Par2Set.sansCount =
    (parse md5 o' inputs).map Par2Set.sansCount
  count : ∀ s s', (parseDeferred md5 o inputs).set = .ok s → parse md5 o' inputs = .ok s' →
    settledCount md5 inputs (parseDeferred md5 o inputs).deferred s = s'.recoveryBlocksSeen

/-! ## What a damaged recovery packet hides -/

/-- Whether a packet that verifies starts at `p`. -/
def verifiesAt (input : List UInt8) (p : Nat) : Bool :=
  slice input p (p + 8) = MAGIC &&
    match validLen input p with
    | some len => verified md5 input p (p + len)
    | none => false

/-- The bytes the serial walk hashes for a packet framed at `p`. -/
def hashCharge (input : List UInt8) (p : Nat) : Nat :=
  if slice input p (p + 8) = MAGIC then (validLen input p).elim 0 (· - 32) else 0

/-- The bytes the serial walk hashes inside a range. -/
def hashChargeIn (input : List UInt8) (a b : Nat) : Nat :=
  ∑ p ∈ Finset.Ico a b, hashCharge input p

/-- The bytes the serial walk hashes for the framed spans, when it meets nothing else that
verifies: each span, and every packet framed inside one that does not verify. -/
def spansCharge (input : List UInt8) : List (Nat × Nat) → Nat
  | [] => 0
  | s :: ss =>
    hashCharge input s.1 +
      (if verified md5 input s.1 s.2 then 0 else hashChargeIn input (s.1 + 1) s.2) +
      spansCharge input ss

def NothingInside (input : List UInt8) (spans : List (Nat × Nat)) : Prop :=
  ∀ s ∈ spans, verified md5 input s.1 s.2 = false →
    ∀ p, s.1 < p → p < s.2 → verifiesAt md5 input p = false

/-- The hashing walk finds nothing that the framing hops over, and has hashes to spare for it. -/
def Unhidden (input : List UInt8) : Prop :=
  NothingInside md5 input (packetSpans input) ∧
  spansCharge md5 input (packetSpans input) ≤ max (4 * input.length) (16 * 1024 * 1024)

def CriticalDamaged (input : List UInt8) : Prop :=
  ∃ s ∈ packetSpans input, isRecovery input s.1 = false ∧ verified md5 input s.1 s.2 = false

end Model

/-! ## The serial walk over framed spans -/

theorem findMagic_take {bs : List UInt8} {rel : Nat} (h : findMagic bs = some rel) :
    (bs.drop rel).take 8 = MAGIC := by
  induction bs generalizing rel with
  | nil => cases h
  | cons b bs ih =>
    unfold findMagic at h
    split at h
    case isTrue hm =>
      cases h
      exact hm
    case isFalse =>
      obtain ⟨r, hr, rfl⟩ := map_eq_some_iff.mp h
      exact ih hr

/-- Dropping bytes before the first magic does not lose it. -/
theorem findMagic_drop {bs : List UInt8} {k : Nat} (h : ∀ rel, findMagic bs = some rel → k ≤ rel) :
    findMagic (bs.drop k) = (findMagic bs).map (· - k) := by
  induction bs generalizing k with
  | nil => simp [findMagic]
  | cons b bs ih =>
    cases k with
    | zero => simp
    | succ k =>
      have hne : (b :: bs).take 8 ≠ MAGIC := fun hm => by
        have := h 0 (by rw [findMagic, if_pos hm])
        omega
      have hcons : findMagic (b :: bs) = (findMagic bs).map (· + 1) := by
        rw [findMagic, if_neg hne]
      rw [List.drop_succ_cons, ih, hcons, Option.map_map]
      · congr 1
        funext n
        exact (Nat.add_sub_add_right n 1 k).symm
      · intro rel hrel
        have := h (rel + 1) (by rw [hcons, hrel, map_some])
        omega

variable {input : List UInt8} {off : Nat} {groups : Table FileId SetClaims}

theorem nextMagic_magic {start : Nat} (h : nextMagic input off = some start) :
    slice input start (start + 8) = MAGIC := by
  unfold nextMagic at h
  split at h
  case isFalse => cases h
  case isTrue =>
    cases hm : findMagic (input.drop off) with
    | none => rw [hm] at h; cases h
    | some rel =>
      rw [hm] at h
      dsimp only at h
      split at h
      case isTrue => cases h
      case isFalse =>
        cases h
        have htake := findMagic_take hm
        rw [List.drop_drop] at htake
        rw [slice, List.drop_take, show off + rel + 8 - (off + rel) = 8 by omega, htake]

theorem nextMagic_skip {stop : Nat} (hle : off ≤ stop)
    (h : ∀ start, nextMagic input off = some start → stop ≤ start) :
    nextMagic input stop = nextMagic input off := by
  unfold nextMagic at h ⊢
  by_cases hroom : off + HEADER_LEN ≤ input.length
  case neg =>
    rw [if_neg hroom, if_neg (by omega)]
  rw [if_pos hroom] at h ⊢
  cases hm : findMagic (input.drop off) with
  | none =>
    have hnone : findMagic (input.drop stop) = none := by
      have hd := @findMagic_drop (input.drop off) (stop - off) (by rw [hm]; rintro _ ⟨⟩)
      rwa [List.drop_drop, show off + (stop - off) = stop by omega, hm] at hd
    rw [hnone]
    split <;> rfl
  | some rel =>
    rw [hm] at h
    dsimp only at h ⊢
    by_cases hlate : input.length < off + rel + HEADER_LEN
    case pos =>
      rw [if_pos hlate]
      by_cases hrel : stop - off ≤ rel
      case neg => rw [if_neg (by omega)]
      have hd := @findMagic_drop (input.drop off) (stop - off) (by rw [hm]; rintro _ ⟨⟩; exact hrel)
      rw [List.drop_drop, show off + (stop - off) = stop by omega, hm] at hd
      rw [hd]
      dsimp only [map_some]
      split
      case isFalse => rfl
      case isTrue => rw [if_pos (by omega)]
    case neg =>
      rw [if_neg hlate] at h ⊢
      have hstop := h _ rfl
      have hd := @findMagic_drop (input.drop off) (stop - off) (by rw [hm]; rintro _ ⟨⟩; omega)
      rw [List.drop_drop, show off + (stop - off) = stop by omega, hm] at hd
      rw [hd, if_pos (by omega)]
      dsimp only [map_some]
      rw [if_neg (by omega), show stop + (rel - (stop - off)) = off + rel by omega]

theorem hashChargeIn_split (input : List UInt8) {p stop : Nat} (hoff : off ≤ p) (hp : p < stop) :
    hashCharge input p + hashChargeIn input (p + 1) stop ≤ hashChargeIn input off stop := by
  unfold hashChargeIn
  rw [← sum_eq_sum_Ico_succ_bot hp]
  exact sum_le_sum_of_subset (Finset.Ico_subset_Ico_left hoff)

theorem hashCharge_of_valid {p len : Nat} (hmagic : slice input p (p + 8) = MAGIC)
    (hlen : validLen input p = some len) : hashCharge input p = len - 32 := by
  rw [hashCharge, if_pos hmagic, hlen, elim_some]

/-- The serial walk from `off`, in what is left of a damaged span that ends at `stop`: nothing
inside verifies, so it comes out at `stop` and emits the framed spans from there that verify. -/
theorem scanSerialFrom_framed (md5 : List UInt8 → List UInt8) {budget : Nat} :
    ∀ {fuel fuel' off stop hashed : Nat}, off ≤ stop → input.length < fuel + off →
      input.length < fuel' + stop →
      (∀ p, off ≤ p → p < stop → verifiesAt md5 input p = false) →
      NothingInside md5 input (packetSpansFrom input fuel' stop) →
      hashed + hashChargeIn input off stop +
        spansCharge md5 input (packetSpansFrom input fuel' stop) ≤ budget →
      (scanSerialFrom md5 input budget fuel off hashed).1 =
        ((packetSpansFrom input fuel' stop).filter fun s => verified md5 input s.1 s.2).map
          fun s => rawPacket input s.1 s.2 := by
  intro fuel
  induction fuel with
  | zero =>
    intro fuel' off stop hashed hle hfuel hfuel' _ _ _
    cases fuel' with
    | zero => rfl
    | succ fuel' =>
      unfold scanSerialFrom packetSpansFrom nextMagic
      rw [if_neg (by omega)]
      rfl
  | succ fuel ih =>
    intro fuel' off stop hashed hle hfuel hfuel' hinside hspans hbudget
    unfold scanSerialFrom
    cases hm : nextMagic input off with
    | none =>
      have hstop := nextMagic_skip hle (by rw [hm]; intro _ h; cases h)
      rw [hm] at hstop
      cases fuel' with
      | zero => rfl
      | succ fuel' =>
        unfold packetSpansFrom
        rw [hstop]
        rfl
    | some p =>
      obtain ⟨hoff, hroom⟩ := nextMagic_spec hm
      have hmagic := nextMagic_magic hm
      dsimp only
      by_cases hin : p < stop
      case pos =>
        -- still inside the damaged span
        have hsplit := hashChargeIn_split input hoff hin
        have hfalse := hinside p hoff hin
        have hrest : ∀ q, p + 1 ≤ q → q < stop → verifiesAt md5 input q = false :=
          fun q hq => hinside q (by omega)
        cases hl : validLen input p with
        | none => exact ih hin (by omega) hfuel' hrest hspans (by omega)
        | some len =>
          have hcharge := hashCharge_of_valid hmagic hl
          rw [verifiesAt, hmagic, hl, decide_eq_true rfl, Bool.true_and] at hfalse
          dsimp only at hfalse ⊢
          rw [if_neg (by omega), hfalse, if_neg Bool.false_ne_true]
          exact ih hin (by omega) hfuel' hrest hspans (by omega)
      case neg =>
        have hstop := nextMagic_skip hle fun start hs => by
          rw [hm] at hs
          cases hs
          omega
        rw [hm] at hstop
        have hempty : ∀ a q : Nat, a ≤ q → q < a → verifiesAt md5 input q = false :=
          fun a q h h' => absurd h (by omega)
        have hnone : ∀ a, hashChargeIn input a a = 0 := fun a => by
          rw [hashChargeIn, Finset.Ico_self, sum_empty]
        cases fuel' with
        | zero => omega
        | succ fuel' =>
        unfold packetSpansFrom at hspans hbudget ⊢
        rw [hstop] at hspans hbudget ⊢
        dsimp only at hspans hbudget ⊢
        cases hl : validLen input p with
        | none =>
          rw [hl] at hspans hbudget
          dsimp only at hspans hbudget
          have := hnone (p + 1)
          exact ih le_rfl (by omega) (by omega) (hempty _) hspans (by omega)
        | some len =>
          rw [hl] at hspans hbudget
          dsimp only [spansCharge] at hspans hbudget ⊢
          have hcharge := hashCharge_of_valid hmagic hl
          obtain ⟨h64, -, -⟩ := validLen_spec hl
          have hpos : 64 ≤ len := h64
          have hrest : NothingInside md5 input (packetSpansFrom input fuel' (p + len)) :=
            fun s hs => hspans s (.tail _ hs)
          rw [if_neg (by omega)]
          cases hv : verified md5 input p (p + len) with
          | true =>
            have := hnone (p + len)
            have hrec := @ih fuel' (p + len) (p + len)
              (hashed + (p + len - (p + 32))) le_rfl (by omega) (by omega) (hempty _) hrest (by omega)
            rw [if_pos rfl, List.filter_cons_of_pos (by simpa using hv), List.map_cons, ← hrec]
          | false =>
            rw [hv, if_neg Bool.false_ne_true] at hbudget
            rw [if_neg Bool.false_ne_true, List.filter_cons_of_neg (by simp [hv])]
            refine ih (by omega) (by omega) (by omega) ?_ hrest (by omega)
            exact fun q hq => hspans _ (.head _) hv q hq

/-- Where nothing is hidden, the hashing walk emits the framed spans that verify. -/
theorem scanPackets_of_unhidden (md5 : List UInt8 → List UInt8) (h : Unhidden md5 input) :
    scanPackets md5 input =
      ((packetSpans input).filter fun s => verified md5 input s.1 s.2).map
        fun s => rawPacket input s.1 s.2 := by
  obtain ⟨hspans, hbudget⟩ := h
  rw [scanPackets_eq_serial]
  refine scanSerialFrom_framed md5 le_rfl (by omega) (by omega) (fun q hq hq' => by omega) hspans ?_
  rw [hashChargeIn, Finset.Ico_self, sum_empty, zero_add, zero_add]
  exact hbudget

/-! ## Recovery packets touch only the exponents -/

def SetClaims.sansExps (g : SetClaims) : SetClaims := { g with exps := ∅ }

def sliceOf (p : RawPacket) : Option (Nat × Nat) :=
  if isSlice p then some (fromLe (slice p.body 0 4), p.body.length - 4) else none

section Claims

variable (md5 : List UInt8 → List UInt8)

variable {body : List UInt8}

theorem recovery_reading (h : ¬ 4 ≤ body.length) : reading TYPE_RECVSLIC body = none := by
  simp [reading, show TYPE_RECVSLIC ≠ TYPE_MAIN by decide, show TYPE_RECVSLIC ≠ TYPE_FILEDESC by decide,
    show TYPE_RECVSLIC ≠ TYPE_IFSC by decide, show TYPE_RECVSLIC ≠ TYPE_UNIFILEN by decide,
    show TYPE_RECVSLIC ≠ TYPE_COMMASCI by decide, show TYPE_RECVSLIC ≠ TYPE_COMMUNI by decide, h]

theorem slice_reading (h : 4 ≤ body.length) :
    reading TYPE_RECVSLIC body = some (.slice (fromLe (slice body 0 4), body.length - 4)) := by
  simp [reading, show TYPE_RECVSLIC ≠ TYPE_MAIN by decide, show TYPE_RECVSLIC ≠ TYPE_FILEDESC by decide,
    show TYPE_RECVSLIC ≠ TYPE_IFSC by decide, show TYPE_RECVSLIC ≠ TYPE_UNIFILEN by decide,
    show TYPE_RECVSLIC ≠ TYPE_COMMASCI by decide, show TYPE_RECVSLIC ≠ TYPE_COMMUNI by decide, h]

theorem map_ne_slice {T : Type} {f : T → Reading} (hf : ∀ a r, f a ≠ .slice r) (x : Option T)
    (r : Nat × Nat) : x.map f ≠ some (.slice r) := by
  cases x with
  | none => exact fun h => nomatch h
  | some a => exact fun h => hf a r (some.inj h)

theorem reading_slice {ptype : List UInt8} {r : Nat × Nat}
    (h : reading ptype body = some (.slice r)) : ptype = TYPE_RECVSLIC := by
  unfold reading at h
  split at h
  case isTrue => exact absurd h (map_ne_slice (by rintro _ _ ⟨⟩) _ r)
  case isFalse =>
  split at h
  case isTrue => exact absurd h (map_ne_slice (by rintro _ _ ⟨⟩) _ r)
  case isFalse =>
  split at h
  case isTrue => exact absurd h (map_ne_slice (by rintro _ _ ⟨⟩) _ r)
  case isFalse =>
  split at h
  case isTrue => exact absurd h (map_ne_slice (by rintro _ _ ⟨⟩) _ r)
  case isFalse =>
  split at h
  case isTrue => exact absurd h (map_ne_slice (by rintro _ _ ⟨⟩) _ r)
  case isFalse =>
  split at h
  case isTrue => exact absurd h (map_ne_slice (by rintro _ _ ⟨⟩) _ r)
  case isFalse =>
  split at h
  case isTrue hslice => exact hslice.1
  case isFalse => cases h

theorem SetClaims.claim_recovery (g : SetClaims) (body : List UInt8) :
    (g.claim md5 TYPE_RECVSLIC body).sansExps = g.sansExps := by
  rw [claim_eq]
  by_cases h : 4 ≤ body.length
  · rw [slice_reading h]
    rfl
  · rw [recovery_reading h]
    rfl

/-- Every other packet's claim leaves the exponents alone. -/
theorem SetClaims.claim_other (g : SetClaims) {ptype : List UInt8} (body : List UInt8)
    (h : ptype ≠ TYPE_RECVSLIC) :
    (g.claim md5 ptype body).sansExps = g.sansExps.claim md5 ptype body ∧
      (g.claim md5 ptype body).exps = g.exps := by
  rw [claim_eq, claim_eq]
  cases hr : reading ptype body with
  | none => exact ⟨rfl, rfl⟩
  | some r =>
    cases r with
    | slice r => exact absurd (reading_slice hr) h
    | _ => exact ⟨rfl, rfl⟩

theorem foldl_claim_sansExps (l : List RawPacket) (g : SetClaims) :
    (l.foldl (fun g p => g.claim md5 p.ptype p.body) g).sansExps =
      (l.filter fun p => p.ptype ≠ TYPE_RECVSLIC).foldl (fun g p => g.claim md5 p.ptype p.body)
        g.sansExps := by
  induction l generalizing g with
  | nil => rfl
  | cons p l ih =>
    rw [List.foldl_cons, ih]
    by_cases h : p.ptype = TYPE_RECVSLIC
    · rw [List.filter_cons_of_neg (by simpa using h), h, claim_recovery]
    · rw [List.filter_cons_of_pos (by simpa using h), List.foldl_cons,
        (claim_other md5 g p.body h).1]

theorem foldl_claim_exps (l : List RawPacket) (g : SetClaims) :
    (l.foldl (fun g p => g.claim md5 p.ptype p.body) g).exps =
      (l.filterMap sliceOf).foldl (fun t e => t.step e.1 0 (max · e.2)) g.exps := by
  induction l generalizing g with
  | nil => rfl
  | cons p l ih =>
    rw [List.foldl_cons, ih, List.filterMap_cons]
    by_cases h : p.ptype = TYPE_RECVSLIC
    · by_cases hlen : 4 ≤ p.body.length
      · have hs : sliceOf p = some (fromLe (slice p.body 0 4), p.body.length - 4) :=
          if_pos (decide_eq_true ⟨h, hlen⟩)
        rw [hs, h, claim_eq, slice_reading hlen]
        rfl
      · have hs : sliceOf p = none := if_neg fun hd => hlen (of_decide_eq_true hd).2
        rw [hs, h, claim_eq, recovery_reading hlen]
        rfl
    · have hs : sliceOf p = none := if_neg fun hd => h (of_decide_eq_true hd).1
      rw [hs, (claim_other md5 g p.body h).2]

/-- An exponent with a slice of at least `bs` bytes. -/
def Served (bs : Nat) (t : Table Nat Nat) (e : Nat) : Prop := ∃ m, t.lookup e = some m ∧ bs ≤ m

theorem served_step (bs : Nat) (t : Table Nat Nat) (k d e : Nat) :
    Served bs (t.step k 0 (max · d)) e ↔ Served bs t e ∨ (k = e ∧ bs ≤ d) := by
  unfold Served
  rw [Table.lookup_step]
  by_cases h : e = k
  · subst h
    cases hl : t.lookup e with
    | none => simp
    | some m => simp
  · rw [if_neg h]
    have h' : ¬ k = e := fun hk => h hk.symm
    simp [h']

theorem served_foldl (bs : Nat) (l : List (Nat × Nat)) (t : Table Nat Nat) (e : Nat) :
    Served bs (l.foldl (fun t x => t.step x.1 0 (max · x.2)) t) e ↔
      Served bs t e ∨ ∃ x ∈ l, x.1 = e ∧ bs ≤ x.2 := by
  induction l generalizing t with
  | nil => simp
  | cons x l ih => rw [List.foldl_cons, ih, served_step, or_assoc, List.exists_mem_cons_iff]

theorem not_served_empty (bs e : Nat) : ¬ Served bs ∅ e := by
  rintro ⟨m, hm, -⟩
  cases hm

theorem mem_served (bs : Nat) (t : Table Nat Nat) (e : Nat) :
    e ∈ t.keys.filter (fun e => sliceFitsBlock ((t.lookup e).getD 0) bs) ↔ Served bs t e := by
  rw [mem_filter, Finmap.mem_keys, Finmap.mem_iff]
  unfold Served sliceFitsBlock
  constructor
  · rintro ⟨⟨m, hm⟩, hfit⟩
    rw [hm, getD_some, decide_eq_true_eq] at hfit
    exact ⟨m, hm, hfit⟩
  · rintro ⟨m, hm, hfit⟩
    rw [hm, getD_some, decide_eq_true_eq]
    exact ⟨⟨m, rfl⟩, hfit⟩

/-- The exponents a list of packets serves for a set and a block size. -/
def fittingExps (l : List RawPacket) (setId : FileId) (bs : Nat) : Finset Nat :=
  ((l.filterMap (validSlice setId bs)).map Prod.fst).toFinset

theorem validSlice_eq_some {setId : FileId} {bs : Nat} {p : RawPacket} {e : Nat × Nat} :
    validSlice setId bs p = some e ↔ p.setId = setId ∧ sliceOf p = some e ∧ bs ≤ e.2 := by
  unfold validSlice sliceOf isSlice sliceFitsBlock
  by_cases hid : p.setId = setId
  case neg => simp [hid]
  by_cases htype : p.ptype = TYPE_RECVSLIC
  case neg => simp [htype]
  by_cases hlen : 4 ≤ p.body.length
  case neg => simp [hlen, not_le.mp hlen]
  rw [if_neg (by simp [hid, htype, hlen])]
  by_cases hfit : bs ≤ p.body.length - 4
  · simp only [hid, htype, hlen, hfit, decide_true, if_true, and_self, true_and, some.injEq]
    constructor
    · rintro rfl
      exact ⟨rfl, hfit⟩
    · exact fun h => h.1
  · simp only [hid, htype, hlen, hfit, decide_true, decide_false, if_true, and_self, true_and,
      some.injEq, Bool.false_eq_true, if_false, false_iff, reduceCtorEq]
    rintro ⟨rfl, h⟩
    exact hfit h

theorem mem_fittingExps {l : List RawPacket} {setId : FileId} {bs e : Nat} :
    e ∈ fittingExps l setId bs ↔
      ∃ p ∈ l, p.setId = setId ∧ ∃ d, sliceOf p = some (e, d) ∧ bs ≤ d := by
  simp only [fittingExps, List.mem_toFinset, List.mem_map, List.mem_filterMap, validSlice_eq_some]
  constructor
  · rintro ⟨⟨e, d⟩, ⟨p, hp, hid, hs, hfit⟩, rfl⟩
    exact ⟨p, hp, hid, d, hs, hfit⟩
  · rintro ⟨p, hp, hid, d, hs, hfit⟩
    exact ⟨(e, d), ⟨p, hp, hid, hs, hfit⟩, rfl⟩

/-- What a walk's set counts is what its packets serve. -/
theorem counted_exps {l : List RawPacket} (hl : Collisionless l) (setId : FileId) (bs : Nat) :
    (((l.foldl (Walk.claim md5) {}).claims setId).exps.keys.filter fun e =>
      sliceFitsBlock ((((l.foldl (Walk.claim md5) {}).claims setId).exps.lookup e).getD 0) bs) =
        fittingExps l setId bs := by
  ext e
  rw [mem_served, walk_claims md5 hl, foldl_claim_exps, served_foldl, mem_fittingExps]
  simp only [not_served_empty, false_or, List.mem_filterMap, List.mem_filter, decide_eq_true_eq]
  constructor
  · rintro ⟨⟨e, d⟩, ⟨p, ⟨hp, hid⟩, hs⟩, rfl, hfit⟩
    exact ⟨p, hp, hid, d, hs, hfit⟩
  · rintro ⟨p, hp, hid, d, hs, hfit⟩
    exact ⟨(e, d), ⟨p, ⟨hp, hid⟩, hs⟩, rfl, hfit⟩

end Claims

/-! ## Settling on the same set -/

theorem SetClaims.resolve_sansExps (o : HashOrder) (setId : FileId) {g g' : SetClaims}
    (h : g.sansExps = g'.sansExps) :
    (g.resolve o setId).map Par2Set.sansCount = (g'.resolve o setId).map Par2Set.sansCount := by
  obtain ⟨main, saw, nonRec, mentioned, descs, ifscs, unis, ca, cu, exps⟩ := g
  obtain ⟨main', saw', nonRec', mentioned', descs', ifscs', unis', ca', cu', exps'⟩ := g'
  obtain ⟨rfl, rfl, rfl, rfl, rfl, rfl, rfl, rfl, rfl, -⟩ := h
  unfold resolve
  cases main.intoSettled <;> rfl

/-- The sets with a Main packet, in the order the map hands them out. -/
def candidates (o : HashOrder) (groups : Table FileId SetClaims) : List FileId :=
  (o.order groups.keys).filter fun id => ((groups.lookup id).getD {}).sawMain

theorem mem_candidates (o : HashOrder) (groups : Table FileId SetClaims) (id : FileId) :
    id ∈ candidates o groups ↔ ((groups.lookup id).getD {}).sawMain = true := by
  rw [candidates, List.mem_filter, o.mem, Finmap.mem_keys, Finmap.mem_iff]
  constructor
  · exact fun h => h.2
  · intro h
    refine ⟨?_, h⟩
    cases hl : groups.lookup id with
    | none => rw [hl] at h; cases h
    | some g => exact ⟨g, rfl⟩

theorem candidates_perm (o o' : HashOrder) {groups' : Table FileId SetClaims}
    (h : ∀ id, ((groups.lookup id).getD {}).sansExps = ((groups'.lookup id).getD {}).sansExps) :
    (candidates o groups).Perm (candidates o' groups') := by
  refine (List.perm_ext_iff_of_nodup ((o.nodup _).filter _) ((o'.nodup _).filter _)).mpr fun id => ?_
  have hsaw := Eq.to_iff (congrArg (fun g : SetClaims => g.sawMain = true) (h id))
  exact (mem_candidates o groups id).trans (hsaw.trans (mem_candidates o' groups' id).symm)

theorem settle_sansCount (o o' : HashOrder) {groups' : Table FileId SetClaims}
    (h : ∀ id, ((groups.lookup id).getD {}).sansExps = ((groups'.lookup id).getD {}).sansExps) :
    (settle o groups).map Par2Set.sansCount = (settle o' groups').map Par2Set.sansCount := by
  have hperm := candidates_perm o o' h
  unfold candidates at hperm
  unfold settle
  generalize (o.order groups.keys).filter _ = l at hperm ⊢
  generalize (o'.order groups'.keys).filter _ = l' at hperm ⊢
  match l, l', hperm with
  | [], _, hp => rw [List.nil_perm.mp hp]
  | [a], _, hp =>
    rw [← List.singleton_perm.mp hp]
    dsimp only
    rw [resolve_order o' o]
    exact resolve_sansExps o a (h a)
  | a :: b :: l, l', hp =>
    match l', hp.length_eq with
    | c :: d :: l', _ => rfl

theorem settle_count {o : HashOrder} {s : Par2Set} (h : settle o groups = .ok s) :
    s.recoveryBlocksSeen = (((groups.lookup s.recoverySetId).getD {}).exps.keys.filter fun e =>
      sliceFitsBlock ((((groups.lookup s.recoverySetId).getD {}).exps.lookup e).getD 0)
        s.blockSize).card := by
  unfold settle at h
  split at h
  case h_1 => cases h
  case h_2 setId _ =>
    unfold resolve at h
    split at h
    case h_1 => cases h
    case h_2 => cases h; rfl
  case h_3 => cases h

/-! ## The two walks of one input -/

section Agreement

variable (md5 : List UInt8 → List UInt8)

/-- What the deferring walk and its deferred spans have of one input is what the hashing walk
emits. -/
structure WalksAgree (input : List UInt8) : Prop where
  others : ((scanPacketsDeferring md5 input).1.filter fun p => p.ptype ≠ TYPE_RECVSLIC) =
    (scanPackets md5 input).filter fun p => p.ptype ≠ TYPE_RECVSLIC
  same : ∀ p, p ∈ scanPackets md5 input ↔
    p ∈ (scanPacketsDeferring md5 input).1 ∨
      ∃ s ∈ (scanPacketsDeferring md5 input).2, verifySpan md5 input s.1 s.2 = some p

variable {input : List UInt8} {inputs : List (List UInt8)}

theorem verifySpan_eq_some {s : Nat × Nat} (hs : s ∈ packetSpans input) {p : RawPacket} :
    verifySpan md5 input s.1 s.2 = some p ↔
      verified md5 input s.1 s.2 = true ∧ rawPacket input s.1 s.2 = p := by
  obtain ⟨hlen, hfit⟩ := packetSpansFrom_spec input _ _ s hs
  unfold verifySpan
  rw [if_neg (by omega)]
  cases verified md5 input s.1 s.2 <;> simp

theorem ptype_rawPacket (input : List UInt8) (s : Nat × Nat) :
    decide ((rawPacket input s.1 s.2).ptype ≠ TYPE_RECVSLIC) = !isRecovery input s.1 := by
  exact decide_not

theorem filter_map_rawPacket (input : List UInt8) (l : List (Nat × Nat)) :
    ((l.map fun s => rawPacket input s.1 s.2).filter fun p => p.ptype ≠ TYPE_RECVSLIC) =
      (l.filter fun s => !isRecovery input s.1).map fun s => rawPacket input s.1 s.2 := by
  rw [List.filter_map]
  congr 1
  exact List.filter_congr fun s _ => ptype_rawPacket input s

theorem walksAgree_of_damaged (h : CriticalDamaged md5 input) : WalksAgree md5 input := by
  obtain ⟨s, hs, hother, hbad⟩ := h
  have hfall : scanPacketsDeferring md5 input = ((scanPacketsSerial md5 input).1, []) := by
    refine if_neg fun hall => ?_
    have hv := List.all_eq_true.mp hall s (List.mem_filter.mpr ⟨hs, by rw [hother]; rfl⟩)
    rw [hbad] at hv
    cases hv
  refine ⟨?_, fun p => ?_⟩
  · rw [hfall, scanPackets_eq_serial]
  · rw [hfall, scanPackets_eq_serial]
    simp

theorem walksAgree_of_unhidden (hsound : ¬ CriticalDamaged md5 input) (h : Unhidden md5 input) :
    WalksAgree md5 input := by
  have hv : ∀ s ∈ packetSpans input, isRecovery input s.1 = false →
      verified md5 input s.1 s.2 = true := by
    intro s hs hother
    cases hb : verified md5 input s.1 s.2 with
    | true => rfl
    | false => exact absurd ⟨s, hs, hother, hb⟩ hsound
  have hdefer : scanPacketsDeferring md5 input =
      (((packetSpans input).filter fun s => !isRecovery input s.1).map
          fun s => rawPacket input s.1 s.2,
        (packetSpans input).filter fun s => isRecovery input s.1) := by
    refine if_pos (List.all_eq_true.mpr fun s hs => ?_)
    obtain ⟨hs, hother⟩ := List.mem_filter.mp hs
    exact hv s hs (by simpa using hother)
  have hscan := scanPackets_of_unhidden md5 h
  refine ⟨?_, fun p => ?_⟩
  · rw [hdefer, hscan, filter_map_rawPacket, filter_map_rawPacket, List.filter_filter,
      List.filter_filter]
    congr 1
    refine List.filter_congr fun s hs => ?_
    cases hr : isRecovery input s.1 with
    | true => rfl
    | false => simp only [Bool.not_false, Bool.and_self, hv s hs hr]
  · rw [hdefer, hscan]
    simp only [List.mem_map, List.mem_filter]
    constructor
    · rintro ⟨s, ⟨hs, hgood⟩, rfl⟩
      cases hr : isRecovery input s.1 with
      | true => exact .inr ⟨s, ⟨hs, hr⟩, (verifySpan_eq_some md5 hs).mpr ⟨hgood, rfl⟩⟩
      | false => exact .inl ⟨s, ⟨hs, by rw [hr]; rfl⟩, rfl⟩
    · rintro (⟨s, ⟨hs, hother⟩, rfl⟩ | ⟨s, ⟨hs, hr⟩, hp⟩)
      · exact ⟨s, ⟨hs, hv s hs (by simpa using hother)⟩, rfl⟩
      · obtain ⟨hgood, rfl⟩ := (verifySpan_eq_some md5 hs).mp hp
        exact ⟨s, ⟨hs, hgood⟩, rfl⟩

theorem mem_claimedPackets (hw : ∀ input ∈ inputs, WalksAgree md5 input) :
    ∀ p ∈ claimedPackets md5 inputs, p ∈ verifiedPackets md5 inputs := by
  intro p hp
  obtain ⟨input, hin, hp⟩ := List.mem_flatMap.mp hp
  exact List.mem_flatMap.mpr ⟨input, hin, ((hw input hin).same p).mpr (.inl hp)⟩

theorem claimed_others (hw : ∀ input ∈ inputs, WalksAgree md5 input) :
    ((claimedPackets md5 inputs).filter fun p => p.ptype ≠ TYPE_RECVSLIC) =
      (verifiedPackets md5 inputs).filter fun p => p.ptype ≠ TYPE_RECVSLIC := by
  unfold claimedPackets verifiedPackets
  rw [List.filter_flatMap, List.filter_flatMap]
  exact List.flatMap_congr fun input hin => (hw input hin).others

theorem claims_sansExps (hw : ∀ input ∈ inputs, WalksAgree md5 input)
    (hl : Collisionless (verifiedPackets md5 inputs)) (id : FileId) :
    (((claimedPackets md5 inputs).foldl (Walk.claim md5) {}).claims id).sansExps =
      ((walkInputs md5 inputs).claims id).sansExps := by
  have hfilter : ∀ l : List RawPacket, ((l.filter (·.setId = id)).filter fun p =>
      p.ptype ≠ TYPE_RECVSLIC) = (l.filter fun p => p.ptype ≠ TYPE_RECVSLIC).filter (·.setId = id) := by
    intro l
    rw [List.filter_filter, List.filter_filter]
    exact List.filter_congr fun p _ => Bool.and_comm _ _
  rw [walkInputs, walk_claims md5 (hl.mono (mem_claimedPackets md5 hw)), walk_claims md5 hl,
    foldl_claim_sansExps, foldl_claim_sansExps, hfilter, hfilter, claimed_others md5 hw]

/-- The distinct exponents over every input's validated spans. -/
def validatedExps (inputs : List (List UInt8)) (deferred : List (List (Nat × Nat)))
    (setId : FileId) (bs : Nat) : Finset Nat :=
  ((inputs.zip deferred).map fun e => (validateRecoverySpans md5 e.1 e.2 setId bs).keys).foldr
    (· ∪ ·) ∅

theorem settledCount_eq (inputs : List (List UInt8)) (deferred : List (List (Nat × Nat)))
    (s : Par2Set) :
    settledCount md5 inputs deferred s =
      (validatedExps md5 inputs deferred s.recoverySetId s.blockSize).card +
        if deferred.all (fun spans => spans = []) = true then s.recoveryBlocksSeen else 0 := rfl

theorem mem_foldr_union (l : List (Finset Nat)) (e : Nat) :
    e ∈ l.foldr (· ∪ ·) ∅ ↔ ∃ t ∈ l, e ∈ t := by
  induction l with
  | nil => simp
  | cons t l ih => rw [List.foldr_cons, mem_union, ih, List.exists_mem_cons_iff]

theorem mem_validateRecoverySpans {spans : List (Nat × Nat)} {setId : FileId} {bs e : Nat} :
    e ∈ (validateRecoverySpans md5 input spans setId bs).keys ↔
      ∃ s ∈ spans, ∃ p, verifySpan md5 input s.1 s.2 = some p ∧
        p.setId = setId ∧ ∃ d, sliceOf p = some (e, d) ∧ bs ≤ d := by
  have hkeys : ∀ t : Table Nat Nat, e ∈ t.keys ↔ Served 0 t e := fun t => by
    rw [Finmap.mem_keys, Finmap.mem_iff]
    simp [Served]
  rw [hkeys, validateRecoverySpans, served_foldl]
  simp only [not_served_empty, false_or, zero_le, and_true, List.mem_filterMap, validSlice_eq_some]
  constructor
  · rintro ⟨⟨e, d⟩, ⟨p, ⟨s, hs, hp⟩, hid, hslice, hfit⟩, rfl⟩
    exact ⟨s, hs, p, hp, hid, d, hslice, hfit⟩
  · rintro ⟨s, hs, p, hp, hid, d, hslice, hfit⟩
    exact ⟨(e, d), ⟨p, ⟨s, hs, hp⟩, hid, hslice, hfit⟩, rfl⟩

theorem mem_validatedExps {f : List UInt8 → List (Nat × Nat)} {setId : FileId} {bs e : Nat} :
    e ∈ validatedExps md5 inputs (inputs.map f) setId bs ↔
      ∃ input ∈ inputs, ∃ s ∈ f input, ∃ p, verifySpan md5 input s.1 s.2 = some p ∧
        p.setId = setId ∧ ∃ d, sliceOf p = some (e, d) ∧ bs ≤ d := by
  have hzip : inputs.zip (inputs.map f) = inputs.map fun input => (input, f input) := by
    induction inputs with
    | nil => rfl
    | cons x xs ih => rw [List.map_cons, List.zip_cons_cons, ih, List.map_cons]
  rw [validatedExps, mem_foldr_union, hzip, List.map_map]
  simp [mem_validateRecoverySpans]

theorem validatedExps_nil (inputs : List (List UInt8)) (setId : FileId) (bs : Nat) :
    validatedExps md5 inputs (inputs.map fun _ => []) setId bs = ∅ := by
  refine eq_empty_of_forall_notMem fun e he => ?_
  obtain ⟨input, -, s, hs, -⟩ := (mem_validatedExps md5).mp he
  cases hs

/-- What `parse` counts is what the claimed packets and the validated spans serve together. -/
theorem fittingExps_eq (hw : ∀ input ∈ inputs, WalksAgree md5 input) (setId : FileId) (bs : Nat) :
    fittingExps (verifiedPackets md5 inputs) setId bs =
      fittingExps (claimedPackets md5 inputs) setId bs ∪
        validatedExps md5 inputs (inputs.map fun input => (scanPacketsDeferring md5 input).2) setId
          bs := by
  ext e
  rw [mem_union, mem_fittingExps, mem_fittingExps, mem_validatedExps]
  constructor
  · rintro ⟨p, hp, hfit⟩
    obtain ⟨input, hin, hp⟩ := List.mem_flatMap.mp hp
    rcases ((hw input hin).same p).mp hp with hc | ⟨s, hs, hv⟩
    · exact .inl ⟨p, List.mem_flatMap.mpr ⟨input, hin, hc⟩, hfit⟩
    · exact .inr ⟨input, hin, s, hs, p, hv, hfit⟩
  · rintro (⟨p, hp, hfit⟩ | ⟨input, hin, s, hs, p, hv, hfit⟩)
    · exact ⟨p, mem_claimedPackets md5 hw p hp, hfit⟩
    · exact ⟨p, List.mem_flatMap.mpr ⟨input, hin, ((hw input hin).same p).mpr (.inr ⟨s, hs, hv⟩)⟩, hfit⟩

/-- Walks that agree on every input give one set, and one count once the spans are validated. -/
theorem deferralAgrees_of_walks (o o' : HashOrder) (hw : ∀ input ∈ inputs, WalksAgree md5 input)
    (hl : Collisionless (verifiedPackets md5 inputs)) : DeferralAgrees md5 o o' inputs := by
  have hl' := hl.mono (mem_claimedPackets md5 hw)
  have hfields := settle_sansCount o o' (claims_sansExps md5 hw hl)
  by_cases hmix : counted (parseInnerDeferred md5 o inputs).set = true ∧
      (parseInnerDeferred md5 o inputs).deferred.any (fun spans => spans ≠ []) = true
  case pos =>
    have hagain : parseDeferred md5 o inputs = parseCensused md5 o inputs := if_pos hmix
    have hsame : parse md5 o inputs = parse md5 o' inputs := settle_order o o' _
    refine ⟨?_, fun s s' hs hs' => ?_⟩
    · rw [hagain]
      exact congrArg _ hsame
    · rw [hagain] at hs ⊢
      have hset : s = s' := Except.ok.inj (hs.symm.trans (hsame.trans hs'))
      have hall : (inputs.map fun _ => ([] : List (Nat × Nat))).all (fun spans => spans = []) = true := by
        simp
      rw [settledCount_eq, parseCensused, validatedExps_nil, card_empty, zero_add,
        if_pos hall, hset]
  case neg =>
    have hinner : parseDeferred md5 o inputs = parseInnerDeferred md5 o inputs := if_neg hmix
    refine ⟨by rw [hinner]; exact hfields, fun s s' hs hs' => ?_⟩
    rw [hinner] at hs ⊢
    have hs2 : settle o ((claimedPackets md5 inputs).foldl (Walk.claim md5) {}).groups = .ok s := hs
    have hs2' : settle o' (walkInputs md5 inputs).groups = .ok s' := hs'
    have hcore : s.sansCount = s'.sansCount := by
      rw [hs2, hs2'] at hfields
      exact Except.ok.inj hfields
    have hid : s'.recoverySetId = s.recoverySetId := (congrArg Par2Set.recoverySetId hcore).symm
    have hbs : s'.blockSize = s.blockSize := (congrArg Par2Set.blockSize hcore).symm
    have hcount := settle_count hs2
    have hcount' := settle_count hs2'
    rw [← Walk.claims, counted_exps md5 hl'] at hcount
    rw [← Walk.claims, walkInputs, counted_exps md5 hl, hid, hbs, fittingExps_eq md5 hw] at hcount'
    rw [settledCount_eq, hcount']
    by_cases hnone : (parseInnerDeferred md5 o inputs).deferred.all (fun spans => spans = []) = true
    case pos =>
      -- nothing deferred: the spans add nothing, and the set counted them all
      have hempty : validatedExps md5 inputs (inputs.map fun input =>
          (scanPacketsDeferring md5 input).2) s.recoverySetId s.blockSize = ∅ := by
        refine eq_empty_of_forall_notMem fun e he => ?_
        obtain ⟨input, hin, t, ht, -⟩ := (mem_validatedExps md5).mp he
        have := List.all_eq_true.mp hnone _ (List.mem_map.mpr ⟨input, hin, rfl⟩)
        rw [of_decide_eq_true this] at ht
        cases ht
      rw [if_pos hnone, hcount, parseInnerDeferred, hempty, card_empty, zero_add, union_empty]
    case neg =>
      have hzero : s.recoveryBlocksSeen = 0 := by
        by_contra hne
        refine hmix ⟨?_, ?_⟩
        · rw [hs]
          exact decide_eq_true hne
        · rw [Bool.not_eq_true, List.all_eq_false] at hnone
          obtain ⟨t, ht, hne⟩ := hnone
          exact List.any_eq_true.mpr ⟨t, ht, by simpa using hne⟩
      rw [hzero, eq_comm, card_eq_zero] at hcount
      rw [if_neg hnone, hcount, empty_union, add_zero, parseInnerDeferred]

/-- **Deferral changes only when the recovery packets are hashed**, for every list of inputs each
of which either has a damaged critical packet (and is hashed whole) or hides nothing under a
damaged recovery packet. -/
theorem parseDeferred_agrees (o o' : HashOrder) (inputs : List (List UInt8))
    (hinj : Set.InjOn md5 (hashedBytes md5 inputs))
    (h : ∀ input ∈ inputs, CriticalDamaged md5 input ∨ Unhidden md5 input) :
    DeferralAgrees md5 o o' inputs := by
  refine deferralAgrees_of_walks md5 o o' (fun input hin => ?_)
    fun p hp q hq => content_eq_of_md5_eq md5 hinj hp hq
  by_cases hd : CriticalDamaged md5 input
  · exact walksAgree_of_damaged md5 hd
  · exact walksAgree_of_unhidden md5 hd ((h input hin).resolve_left hd)

end Agreement

/-! ## A damaged length -/

/-- A recovery packet's content: exponent 0 and a slice of one block. -/
def sampleSlice : List UInt8 :=
  List.replicate 16 7 ++ TYPE_RECVSLIC ++ List.replicate 4 0 ++ [1, 2, 3, 4]

def sampleSliceMd5 : List UInt8 :=
  [220, 70, 85, 144, 201, 221, 229, 4, 4, 183, 50, 226, 168, 131, 238, 162]

/-- A recovery packet and the Main packet behind it, the recovery packet's length damaged so that
it runs to the Main packet's end. -/
def hiddenMain : List UInt8 :=
  MAGIC ++ toLe64 148 ++ sampleSliceMd5 ++ sampleSlice ++ samplePacket sampleMainMd5 sampleMain

/-- MD5 on the byte strings the two parses of `hiddenMain` hash. -/
def hiddenMd5 (x : List UInt8) : List UInt8 :=
  if x = sampleMain then sampleMainMd5
  else [159, 84, 139, 10, 85, 67, 216, 53, 60, 117, 122, 130, 122, 109, 30, 71]

theorem noMain_of_settle {o : HashOrder} {groups : Table FileId SetClaims}
    (h : settle o groups = .error .noMainPacket) (id : FileId) :
    ((groups.lookup id).getD {}).sawMain = false := by
  unfold settle at h
  split at h
  case h_1 heq =>
    rw [← Bool.not_eq_true, ← mem_candidates o, candidates, heq]
    exact List.not_mem_nil
  case h_2 =>
    unfold resolve at h
    split at h <;> cases h
  case h_3 => cases h

theorem settle_empty (o : HashOrder) : settle o ∅ = .error .noMainPacket := by
  have hnil : candidates o ∅ = [] :=
    List.eq_nil_iff_forall_not_mem.mpr fun id hid => by
      rw [mem_candidates, Finmap.lookup_empty] at hid
      cases hid
  unfold settle
  rw [← candidates, hnil]

set_option maxRecDepth 10000 in
/-- The hashing parse finds the Main packet, the deferred one hops over it. -/
theorem parseDeferred_hides_main :
    ¬ DeferralAgrees hiddenMd5 sampleOrder sampleOrder [hiddenMain] := by
  intro h
  have hclaimed : claimedPackets hiddenMd5 [hiddenMain] = [] := by decide
  have hmain : (((walkInputs hiddenMd5 [hiddenMain]).groups.lookup
      (List.replicate 16 7)).getD {}).sawMain = true := by
    decide
  have hinner : (parseInnerDeferred hiddenMd5 sampleOrder [hiddenMain]).set = .error .noMainPacket := by
    rw [parseInnerDeferred, hclaimed]
    exact settle_empty sampleOrder
  have hdeferred : (parseDeferred hiddenMd5 sampleOrder [hiddenMain]).set = .error .noMainPacket := by
    rw [parseDeferred, if_neg, hinner]
    rw [hinner]
    exact fun hc => nomatch hc.1
  have hfields := h.fields
  rw [hdeferred] at hfields
  cases hp : parse hiddenMd5 sampleOrder [hiddenMain] with
  | ok s => rw [hp] at hfields; cases hfields
  | error e =>
    rw [hp] at hfields
    cases hfields
    rw [noMain_of_settle hp] at hmain
    cases hmain

/-! A set with a sound and a damaged recovery packet, neither covering another packet. -/

def damagedSlice : List UInt8 :=
  List.replicate 16 7 ++ TYPE_RECVSLIC ++ [1, 0, 0, 0] ++ List.replicate 4 9

def damagedInput : List UInt8 :=
  samplePacket sampleMainMd5 sampleMain ++ samplePacket sampleSliceMd5 sampleSlice ++
    samplePacket sampleSliceMd5 damagedSlice

/-- MD5 on the byte strings that `damagedInput` has hashed. -/
def damagedMd5 (x : List UInt8) : List UInt8 :=
  if x = sampleMain then sampleMainMd5
  else if x = sampleSlice then sampleSliceMd5
  else [173, 173, 180, 174, 134, 90, 129, 100, 63, 105, 110, 120, 142, 222, 184, 248]

set_option maxRecDepth 10000 in
theorem damagedInput_unhidden : Unhidden damagedMd5 damagedInput := by
  have hinside : (packetSpans damagedInput).all (fun s => verified damagedMd5 damagedInput s.1 s.2 ||
      (List.range s.2).all fun p => p ≤ s.1 || !verifiesAt damagedMd5 damagedInput p) = true := by
    decide
  refine ⟨fun s hs hbad p hlo hhi => ?_, by decide⟩
  have hall := List.all_eq_true.mp hinside s hs
  rw [hbad, Bool.false_or] at hall
  have hp := List.all_eq_true.mp hall p (List.mem_range.mpr hhi)
  rw [decide_eq_false (by omega), Bool.false_or, Bool.not_eq_true'] at hp
  exact hp

set_option maxRecDepth 10000 in
theorem damagedInput_injOn : Set.InjOn damagedMd5 (hashedBytes damagedMd5 [damagedInput]) := by
  have hcontents : (verifiedPackets damagedMd5 [damagedInput]).map RawPacket.content =
      [(List.replicate 16 7, TYPE_MAIN, sampleMain.drop 32),
       (List.replicate 16 7, TYPE_RECVSLIC, sampleSlice.drop 32)] := by
    decide
  have hmem : ∀ x ∈ hashedBytes damagedMd5 [damagedInput], x = sampleMain ∨ x = sampleSlice := by
    intro x hx
    obtain ⟨c, hc, rfl⟩ := hashedBytes_of_contents hx
    rw [hcontents] at hc
    simp only [List.mem_cons, List.not_mem_nil, or_false] at hc
    rcases hc with rfl | rfl
    · exact .inl (by decide)
    · exact .inr (by decide)
  have hne : damagedMd5 sampleMain ≠ damagedMd5 sampleSlice := by decide
  intro x hx y hy h
  rcases hmem x hx with rfl | rfl <;> rcases hmem y hy with rfl | rfl
  · rfl
  · exact absurd h hne
  · exact absurd h.symm hne
  · rfl

theorem parseDeferred_agrees_damagedInput :
    DeferralAgrees damagedMd5 sampleOrder sampleOrder [damagedInput] :=
  parseDeferred_agrees damagedMd5 sampleOrder sampleOrder [damagedInput] damagedInput_injOn
    fun _ hin => .inr (List.mem_singleton.mp hin ▸ damagedInput_unhidden)

end NzbFast.Par2
