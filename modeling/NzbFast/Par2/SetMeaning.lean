import NzbFast.Par2.SetParse

/-!
# What a set says does not depend on packet order

Every claim a packet makes commutes with every other and absorbs its own repeat,
so the claims of a walk are a function of the set of packets it met
(`walk_groups`). The packet MD5 that marks duplicates is taken to be injective on
the packets at hand. What `parse` then reads off the claims does not depend on a
hasher's order either (`settle_order`).
-/

namespace NzbFast.Par2

open Fold NzbFast.Rust SetClaims DescClaim
open List hiding le_antisymm le_total le_trans

/-! ## Claims commute -/

theorem Claim.offer_setLike {T : Type} [DecidableEq T] :
    SetLike (Claim.offer : Claim T → T → Claim T) := by
  refine ⟨fun c a b => ?_, fun c a => ?_⟩
  · obtain ⟨value, contradicted⟩ := c
    cases contradicted with
    | true => rfl
    | false =>
      cases value with
      | none =>
        by_cases h : a = b
        · rw [h]
        · simp [Claim.offer, h, Ne.symm h]
      | some v =>
        by_cases ha : v = a
        · subst ha
          by_cases hb : v = b <;> simp [Claim.offer, hb]
        · by_cases hb : v = b
          · subst hb
            simp [Claim.offer, ha]
          · simp [Claim.offer, ha, hb]
  · obtain ⟨value, contradicted⟩ := c
    cases contradicted with
    | true => rfl
    | false =>
      cases value with
      | none => simp [Claim.offer]
      | some v =>
        by_cases ha : v = a <;> simp [Claim.offer, ha]

section Meaning

variable (md5 : List UInt8 → List UInt8)

theorem DescClaim.offerDesc_setLike (fid : FileId) :
    SetLike fun (c : DescClaim) d => c.offerDesc md5 fid d := by
  have h := Claim.offer_setLike (T := Desc)
  refine ⟨fun c a b => ?_, fun c a => ?_⟩
  · obtain ⟨inner, seen⟩ := c
    by_cases ha : filedescId md5 a = fid <;> by_cases hb : filedescId md5 b = fid <;>
      cases seen <;> simp [offerDesc, ha, hb, h.comm]
    -- Two first binders: each is weighed against the other, whichever came first.
    by_cases hab : a = b
    · rw [hab]
    · simp [Claim.offer, hab, Ne.symm hab]
  · obtain ⟨inner, seen⟩ := c
    by_cases ha : filedescId md5 a = fid <;> cases seen <;>
      simp [offerDesc, ha, h.idem]
    simp [Claim.offer]

theorem max_setLike : SetLike fun m n : Nat => max m n :=
  ⟨fun s a b => by omega, fun s a => by omega⟩

/-- What one packet reads, by its type. -/
inductive Reading
  | main (r : Nat × List FileId × List FileId)
  | desc (r : FileId × Desc)
  | ifsc (r : FileId × List BlockCheck)
  | uni (r : FileId × String)
  | commAscii (c : String)
  | commUni (c : String)
  | slice (r : Nat × Nat)

/-- The reading of a packet; none for a body that does not parse or an unknown type. -/
def reading (ptype body : List UInt8) : Option Reading :=
  if ptype = TYPE_MAIN then (parseMain body).map .main
  else if ptype = TYPE_FILEDESC then (parseFiledesc body).map .desc
  else if ptype = TYPE_IFSC then (parseIfsc body).map .ifsc
  else if ptype = TYPE_UNIFILEN then (parseUnifilen body).map .uni
  else if ptype = TYPE_COMMASCI then (parseCommAscii body).map .commAscii
  else if ptype = TYPE_COMMUNI then (parseCommUni body).map .commUni
  else if ptype = TYPE_RECVSLIC ∧ 4 ≤ body.length then
    some (.slice (fromLe (Par2.slice body 0 4), body.length - 4))
  else none

def SetClaims.offer (g : SetClaims) : Reading → SetClaims
  | .main r => g.offerMain r
  | .desc r => { g with descs := g.descs.step r.1 default fun c => c.offerDesc md5 r.1 r.2 }
  | .ifsc r => { g with ifscs := g.ifscs.step r.1 default fun c => c.offer r.2 }
  | .uni r => { g with unis := g.unis.step r.1 default fun c => c.offer r.2 }
  | .commAscii c => { g with commAscii := g.commAscii.offer c }
  | .commUni c => { g with commUni := g.commUni.offer c }
  | .slice r => { g with exps := g.exps.step r.1 0 fun n => max n r.2 }

theorem SetClaims.claim_eq (g : SetClaims) (ptype body : List UInt8) :
    g.claim md5 ptype body = (reading ptype body).elim g (g.offer md5) := by
  unfold claim reading
  split
  · cases parseMain body <;> rfl
  split
  · cases parseFiledesc body <;> rfl
  split
  · cases parseIfsc body <;> rfl
  split
  · cases parseUnifilen body <;> rfl
  split
  · cases parseCommAscii body <;> rfl
  split
  · cases parseCommUni body <;> rfl
  split <;> rfl

theorem SetClaims.offer_setLike : SetLike (SetClaims.offer md5) := by
  have hd := SetLike.table (offerDesc_setLike md5) default
  have hi := SetLike.table (fun _ : FileId => Claim.offer_setLike (T := List BlockCheck)) default
  have hu := SetLike.table (fun _ : FileId => Claim.offer_setLike (T := String)) default
  have he := SetLike.table (fun _ : Nat => max_setLike) 0
  refine ⟨fun g a b => ?_, fun g a => ?_⟩
  · -- Readings of different kinds touch different fields.
    cases a with
    | main a =>
      cases b with
      | main b =>
        simp only [offer, offerMain, Claim.offer_setLike.comm _ _ (b.1, b.2.1),
          Claim.offer_setLike.comm _ _ b.2.2, Finset.union_right_comm _ _ (b.2.1 ++ b.2.2).toFinset]
      | _ => rfl
    | desc a =>
      cases b with
      | desc b => exact congrArg (fun t => { g with descs := t }) (hd.comm g.descs a b)
      | _ => rfl
    | ifsc a =>
      cases b with
      | ifsc b => exact congrArg (fun t => { g with ifscs := t }) (hi.comm g.ifscs a b)
      | _ => rfl
    | uni a =>
      cases b with
      | uni b => exact congrArg (fun t => { g with unis := t }) (hu.comm g.unis a b)
      | _ => rfl
    | commAscii a =>
      cases b with
      | commAscii b =>
        exact congrArg (fun t => { g with commAscii := t })
          (Claim.offer_setLike.comm g.commAscii a b)
      | _ => rfl
    | commUni a =>
      cases b with
      | commUni b =>
        exact congrArg (fun t => { g with commUni := t }) (Claim.offer_setLike.comm g.commUni a b)
      | _ => rfl
    | slice a =>
      cases b with
      | slice b => exact congrArg (fun t => { g with exps := t }) (he.comm g.exps a b)
      | _ => rfl
  · cases a with
    | main a =>
      simp only [offer, offerMain, Claim.offer_setLike.idem, Finset.union_assoc, Finset.union_self]
    | desc a => exact congrArg (fun t => { g with descs := t }) (hd.idem g.descs a)
    | ifsc a => exact congrArg (fun t => { g with ifscs := t }) (hi.idem g.ifscs a)
    | uni a => exact congrArg (fun t => { g with unis := t }) (hu.idem g.unis a)
    | commAscii a =>
      exact congrArg (fun t => { g with commAscii := t }) (Claim.offer_setLike.idem g.commAscii a)
    | commUni a =>
      exact congrArg (fun t => { g with commUni := t }) (Claim.offer_setLike.idem g.commUni a)
    | slice a => exact congrArg (fun t => { g with exps := t }) (he.idem g.exps a)

/-- The walk's step on the claims, by a packet's content. -/
def claimContent (m : Table FileId SetClaims) (c : List UInt8 × List UInt8 × List UInt8) :
    Table FileId SetClaims :=
  m.step c.1 default fun g => g.claim md5 c.2.1 c.2.2

theorem claimContent_setLike : SetLike (claimContent md5) := by
  have h := (offer_setLike md5).option fun c : List UInt8 × List UInt8 =>
    reading c.1 c.2
  have ht := SetLike.table (fun _ : FileId => h) (default : SetClaims)
  refine ⟨fun m a b => ?_, fun m a => ?_⟩
  · simp only [claimContent, claim_eq]
    exact ht.comm m a b
  · simp only [claimContent, claim_eq]
    exact ht.idem m a

/-! ## Verified packets -/

theorem slice_append {input : List UInt8} {a b c : Nat} (hab : a ≤ b) (hbc : b ≤ c) :
    slice input a c = slice input a b ++ slice input b c := by
  unfold slice
  conv_lhs => rw [← take_append_drop (b - a) ((input.take c).drop a)]
  rw [drop_drop, show a + (b - a) = b by omega, take_drop, take_take,
    show a + (b - a) = b by omega, Nat.min_eq_left hbc]

theorem length_slice {input : List UInt8} {a b : Nat} (h : b ≤ input.length) :
    (slice input a b).length = b - a := by
  simp only [slice, length_drop, length_take]
  omega

/-- A packet as the walks emit it: its MD5 is that of its set id, type and body. -/
structure RawPacket.Sound (p : RawPacket) : Prop where
  digest : p.md5 = md5 (p.setId ++ p.ptype ++ p.body)
  setId_length : p.setId.length = 16
  ptype_length : p.ptype.length = 16

theorem rawPacket_sound {input : List UInt8} {start stop : Nat} (hlen : start + HEADER_LEN ≤ stop)
    (hstop : stop ≤ input.length) (hv : verified md5 input start stop) :
    (rawPacket input start stop).Sound md5 := by
  simp only [HEADER_LEN] at hlen
  refine ⟨?_, ?_, ?_⟩
  · have h := of_decide_eq_true hv
    rw [slice_append (b := start + 48) (by omega) (by omega),
      slice_append (a := start + 48) (b := start + 64) (by omega) (by omega),
      ← append_assoc] at h
    exact h.symm
  · show (slice input (start + 32) (start + 48)).length = 16
    rw [length_slice (by omega)]
    omega
  · show (slice input (start + 48) (start + 64)).length = 16
    rw [length_slice (by omega)]
    omega

theorem scanSerialFrom_sound (input : List UInt8) (budget fuel : Nat) : ∀ off hashed,
    ∀ p ∈ (scanSerialFrom md5 input budget fuel off hashed).1, p.Sound md5 := by
  induction fuel with
  | zero => simp [scanSerialFrom]
  | succ fuel ih =>
    intro off hashed
    unfold scanSerialFrom
    cases hm : nextMagic input off with
    | none => simp
    | some start =>
      dsimp only
      cases hl : validLen input start with
      | none => exact ih _ _
      | some len =>
        have hlen := validLen_spec hl
        dsimp only
        split
        case isTrue => simp
        case isFalse =>
          split
          case isTrue hv =>
            intro p hp
            rcases mem_cons.mp hp with rfl | hp
            · exact rawPacket_sound md5 (by omega) hlen.2.2 hv
            · exact ih _ _ p hp
          case isFalse => exact ih _ _

theorem packetSpansFrom_spec (input : List UInt8) (fuel : Nat) : ∀ off,
    ∀ s ∈ packetSpansFrom input fuel off, s.1 + HEADER_LEN ≤ s.2 ∧ s.2 ≤ input.length := by
  induction fuel with
  | zero => simp [packetSpansFrom]
  | succ fuel ih =>
    intro off
    unfold packetSpansFrom
    cases hm : nextMagic input off with
    | none => simp
    | some start =>
      dsimp only
      cases hl : validLen input start with
      | none => exact ih _
      | some len =>
        have hlen := validLen_spec hl
        intro s hs
        rcases mem_cons.mp hs with rfl | hs
        · exact ⟨by dsimp only; omega, hlen.2.2⟩
        · exact ih _ s hs

theorem scanPackets_sound (input : List UInt8) : ∀ p ∈ scanPackets md5 input, p.Sound md5 := by
  unfold scanPackets
  split
  case isTrue h =>
    intro p hp
    obtain ⟨s, hs, rfl⟩ := mem_map.mp hp
    have hspan := packetSpansFrom_spec input _ _ s hs
    exact rawPacket_sound md5 hspan.1 hspan.2 (all_eq_true.mp h.2 s hs)
  case isFalse => exact scanSerialFrom_sound md5 input _ _ _ _

def hashedBytes (inputs : List (List UInt8)) : Set (List UInt8) :=
  {x | ∃ p ∈ verifiedPackets md5 inputs, x = p.setId ++ p.ptype ++ p.body}

theorem verifiedPackets_sound (inputs : List (List UInt8)) :
    ∀ p ∈ verifiedPackets md5 inputs, p.Sound md5 := by
  intro p hp
  obtain ⟨input, _, hp⟩ := mem_flatMap.mp hp
  exact scanPackets_sound md5 input p hp

/-- The bytes that a packet's MD5 covers say what it says. -/
theorem RawPacket.Sound.content_eq {p q : RawPacket} (sp : p.Sound md5) (sq : q.Sound md5)
    (h : p.setId ++ p.ptype ++ p.body = q.setId ++ q.ptype ++ q.body) : p.content = q.content := by
  have hids : p.setId.length = q.setId.length := by rw [sp.setId_length, sq.setId_length]
  have htypes : p.ptype.length = q.ptype.length := by rw [sp.ptype_length, sq.ptype_length]
  obtain ⟨h1, h2⟩ := append_inj h (by simp [hids, htypes])
  obtain ⟨h3, h4⟩ := append_inj h1 hids
  simp only [RawPacket.content, h2, h3, h4]

theorem content_eq_of_md5_eq {inputs : List (List UInt8)}
    (hinj : Set.InjOn md5 (hashedBytes md5 inputs)) {p q : RawPacket}
    (hp : p ∈ verifiedPackets md5 inputs) (hq : q ∈ verifiedPackets md5 inputs)
    (h : p.md5 = q.md5) : p.content = q.content := by
  have sp := verifiedPackets_sound md5 inputs p hp
  have sq := verifiedPackets_sound md5 inputs q hq
  rw [sp.digest, sq.digest] at h
  exact sp.content_eq md5 sq (hinj ⟨p, hp, rfl⟩ ⟨q, hq, rfl⟩ h)

/-! ## The walk -/

/-- After any walk the seen marks are the packets' MD5s and the claims are the fold of their
contents: a skipped duplicate had nothing new to say. -/
theorem walk_groups {l : List RawPacket}
    (hinj : ∀ p ∈ l, ∀ q ∈ l, p.md5 = q.md5 → p.content = q.content) :
    (l.foldl (Walk.claim md5) {}).seen = (l.map RawPacket.md5).toFinset ∧
    (l.foldl (Walk.claim md5) {}).groups =
      (l.map RawPacket.content).foldl (claimContent md5) ∅ := by
  induction l using reverseRecOn with
  | nil => exact ⟨rfl, rfl⟩
  | append_singleton l p ih =>
    obtain ⟨ih1, ih2⟩ := ih fun q hq r hr => hinj q (by simp [hq]) r (by simp [hr])
    rw [foldl_append, map_append, map_append, foldl_append, ← ih2]
    simp only [foldl_cons, foldl_nil, map_cons, map_nil, Walk.claim]
    split
    case isTrue hseen =>
      rw [ih1, mem_toFinset, mem_map] at hseen
      obtain ⟨q, hq, hmd5⟩ := hseen
      have hc := hinj q (by simp [hq]) p (by simp) hmd5
      have hmem := mem_map.mpr ⟨q, hq, hc⟩
      refine ⟨?_, ?_⟩
      · rw [ih1]
        ext x
        simp only [mem_toFinset, mem_append, mem_map, mem_singleton]
        constructor
        · exact Or.inl
        · rintro (h | rfl)
          · exact h
          · exact ⟨q, hq, hmd5⟩
      · rw [ih2, (claimContent_setLike md5).foldl_absorb hmem]
    case isFalse hseen =>
      refine ⟨?_, rfl⟩
      rw [ih1]
      ext x
      simp only [Finset.mem_insert, mem_toFinset, mem_append, mem_singleton]
      tauto

theorem walkInputs_groups {inputs : List (List UInt8)}
    (hinj : Set.InjOn md5 (hashedBytes md5 inputs)) :
    (walkInputs md5 inputs).groups =
      ((verifiedPackets md5 inputs).map RawPacket.content).foldl (claimContent md5) ∅ :=
  (walk_groups md5 fun _ hp _ hq => content_eq_of_md5_eq md5 hinj hp hq).2

end Meaning

/-! ## Hash order -/

theorem HashOrder.perm (o o' : HashOrder) (s : Finset FileId) : (o.order s).Perm (o'.order s) := by
  rw [perm_ext_iff_of_nodup (o.nodup s) (o'.nodup s)]
  intro k
  rw [o.mem, o'.mem]

theorem fileIdLe_sort_perm {l l' : List FileId} (h : l.Perm l') :
    l.mergeSort fileIdLe = l'.mergeSort fileIdLe := by
  have htrans : ∀ a b c : FileId, fileIdLe a b → fileIdLe b c → fileIdLe a c := by
    simp only [fileIdLe, decide_eq_true_eq]
    exact fun a b c => le_trans
  have htotal : ∀ a b : FileId, (fileIdLe a b || fileIdLe b a) = true := by
    simp only [fileIdLe, Bool.or_eq_true, decide_eq_true_eq]
    exact fun a b => le_total _ _
  refine List.Perm.eq_of_pairwise ?_ (pairwise_mergeSort htrans htotal l)
    (pairwise_mergeSort htrans htotal l') ?_
  · intro a b _ _ hab hba
    simp only [fileIdLe, decide_eq_true_eq] at hab hba
    have hmap := le_antisymm hab hba
    exact map_injective_iff.mpr (fun x y => UInt8.toNat_inj.mp) hmap
  · exact (mergeSort_perm l fileIdLe).trans (h.trans (mergeSort_perm l' fileIdLe).symm)

theorem SetClaims.resolve_order (o o' : HashOrder) (setId : FileId) (g : SetClaims) :
    g.resolve o setId = g.resolve o' setId := by
  have h : ((o.order g.descs.keys).filter (· ∉ g.mentioned)).mergeSort fileIdLe =
      ((o'.order g.descs.keys).filter (· ∉ g.mentioned)).mergeSort fileIdLe :=
    fileIdLe_sort_perm ((o.perm o' _).filter _)
  unfold resolve
  rw [h]

/-- The answer does not depend on the order in which the maps are iterated. -/
theorem settle_order (o o' : HashOrder) (groups : Table FileId SetClaims) :
    settle o groups = settle o' groups := by
  have hperm := (o.perm o' groups.keys).filter fun id => ((groups.lookup id).getD {}).sawMain
  unfold settle
  generalize (o.order groups.keys).filter _ = l at hperm ⊢
  generalize (o'.order groups.keys).filter _ = l' at hperm ⊢
  match l, l', hperm with
  | [], _, h => rw [nil_perm.mp h]
  | [a], _, h =>
    rw [← singleton_perm.mp h]
    exact resolve_order o o' a _
  | a :: b :: l, l', h =>
    match l', h.length_eq with
    | c :: d :: l', _ => rfl

/-! ## What a file id settles to -/

section Settled

variable (md5 : List UInt8 → List UInt8)

def offeredDescs (inputs : List (List UInt8)) (setId fid : FileId) : Set Desc :=
  {d | ∃ p ∈ verifiedPackets md5 inputs,
    p.setId = setId ∧ p.ptype = TYPE_FILEDESC ∧ parseFiledesc p.body = some (fid, d)}

/-- The descriptor `resolve` takes for a file id of a set. -/
def settledDesc (inputs : List (List UInt8)) (setId fid : FileId) : Option Desc :=
  ((((walkInputs md5 inputs).groups.lookup setId).getD {}).descs.lookup fid).bind
    DescClaim.intoSettled

/-- A claim folded over readings: one distinct reading settles, two or more settle nothing. -/
theorem Claim.foldl_offer {T : Type} [DecidableEq T] (l : List T) :
    (l = [] ∧ l.foldl Claim.offer ({} : Claim T) = {}) ∨
    (∃ v, v ∈ l ∧ (∀ x ∈ l, x = v) ∧ l.foldl Claim.offer ({} : Claim T) = ⟨some v, false⟩) ∨
    ((∃ x ∈ l, ∃ y ∈ l, x ≠ y) ∧ l.foldl Claim.offer ({} : Claim T) = ⟨none, true⟩) := by
  induction l using reverseRecOn with
  | nil => exact .inl ⟨rfl, rfl⟩
  | append_singleton l a ih =>
    rw [foldl_append, foldl_cons, foldl_nil]
    right
    rcases ih with ⟨rfl, h⟩ | ⟨v, hv, hall, h⟩ | ⟨⟨x, hx, y, hy, hne⟩, h⟩
    · left
      refine ⟨a, by simp, by simp, ?_⟩
      rw [h]
      rfl
    · by_cases ha : v = a
      · left
        refine ⟨v, by simp [hv], ?_, by rw [h, ha]; simp [Claim.offer]⟩
        intro x hx
        rcases mem_append.mp hx with hx | hx
        · exact hall x hx
        · rw [mem_singleton.mp hx, ha]
      · right
        refine ⟨⟨v, by simp [hv], a, by simp, ha⟩, ?_⟩
        rw [h]
        simp [Claim.offer, ha]
    · right
      refine ⟨⟨x, by simp [hx], y, by simp [hy], hne⟩, ?_⟩
      rw [h]
      rfl

/-- The settled value of a folded claim: the one reading, if there is exactly one. -/
theorem Claim.settled_iff {T : Type} [DecidableEq T] (l : List T) (v : T) :
    (l.foldl Claim.offer ({} : Claim T)).intoSettled = some v ↔ v ∈ l ∧ ∀ x ∈ l, x = v := by
  rcases Claim.foldl_offer l with ⟨rfl, h⟩ | ⟨w, hw, hall, h⟩ | ⟨⟨x, hx, y, hy, hne⟩, h⟩
  · simp [Claim.intoSettled]
  · rw [h]
    simp only [Claim.intoSettled, Option.some.injEq]
    constructor
    · rintro rfl
      exact ⟨hw, hall⟩
    · rintro ⟨hv, _⟩
      exact (hall v hv).symm
  · rw [h]
    simp only [Claim.intoSettled, reduceCtorEq, false_iff]
    rintro ⟨_, hall⟩
    exact hne ((hall x hx).trans (hall y hy).symm)

/-- Folding descriptors folds the binding class alone once there is one. -/
theorem DescClaim.foldl_offerDesc (fid : FileId) (l : List Desc) :
    l.foldl (fun c d => c.offerDesc md5 fid d) ({} : DescClaim) =
      if ∃ d ∈ l, filedescId md5 d = fid then
        ⟨(l.filter (filedescId md5 · = fid)).foldl Claim.offer {}, true⟩
      else ⟨l.foldl Claim.offer {}, false⟩ := by
  induction l using reverseRecOn with
  | nil => simp
  | append_singleton l a ih =>
    rw [foldl_append, foldl_cons, foldl_nil, ih]
    by_cases ha : filedescId md5 a = fid
    · have hex : ∃ d ∈ l ++ [a], filedescId md5 d = fid := ⟨a, by simp, ha⟩
      rw [if_pos hex, filter_append, filter_cons_of_pos (by simpa using ha),
        filter_nil, foldl_append, foldl_cons, foldl_nil]
      by_cases hl : ∃ d ∈ l, filedescId md5 d = fid
      · rw [if_pos hl]
        simp [offerDesc, ha]
      · -- The first binder takes the claim over from the unbound class.
        have hnil : l.filter (filedescId md5 · = fid) = [] := by
          rw [filter_eq_nil_iff]
          intro d hd
          simpa using fun h => hl ⟨d, hd, h⟩
        rw [if_neg hl, hnil]
        simp [offerDesc, ha, Claim.offer]
    · have hiff : (∃ d ∈ l ++ [a], filedescId md5 d = fid) ↔ ∃ d ∈ l, filedescId md5 d = fid := by
        constructor
        · rintro ⟨d, hd, h⟩
          rcases mem_append.mp hd with hd | hd
          · exact ⟨d, hd, h⟩
          · rw [mem_singleton.mp hd] at h
            exact absurd h ha
        · rintro ⟨d, hd, h⟩
          exact ⟨d, by simp [hd], h⟩
      by_cases hl : ∃ d ∈ l, filedescId md5 d = fid
      · rw [if_pos hl, if_pos (hiff.mpr hl), filter_append,
          filter_cons_of_neg (by simpa using ha), filter_nil, append_nil]
        simp [offerDesc, ha]
      · rw [if_neg hl, if_neg (fun h => hl (hiff.mp h)), foldl_append]
        simp [offerDesc, ha]

theorem DescClaim.settled_iff (fid : FileId) (l : List Desc) (d : Desc) :
    (l.foldl (fun c d => c.offerDesc md5 fid d) ({} : DescClaim)).intoSettled = some d ↔
      d ∈ l ∧ ((filedescId md5 d = fid ∧ ∀ x ∈ l, filedescId md5 x = fid → x = d) ∨
        ((∀ x ∈ l, filedescId md5 x ≠ fid) ∧ ∀ x ∈ l, x = d)) := by
  rw [foldl_offerDesc, intoSettled]
  by_cases hl : ∃ d ∈ l, filedescId md5 d = fid
  · rw [if_pos hl, Claim.settled_iff]
    simp only [mem_filter, decide_eq_true_eq]
    obtain ⟨b, hb, hbind⟩ := hl
    constructor
    · rintro ⟨⟨hd, hdb⟩, hall⟩
      exact ⟨hd, .inl ⟨hdb, fun x hx h => hall x ⟨hx, h⟩⟩⟩
    · rintro ⟨hd, ⟨hdb, hall⟩ | ⟨hno, _⟩⟩
      · exact ⟨⟨hd, hdb⟩, fun x hx => hall x hx.1 hx.2⟩
      · exact absurd hbind (hno b hb)
  · rw [if_neg hl, Claim.settled_iff]
    constructor
    · rintro ⟨hd, hall⟩
      exact ⟨hd, .inr ⟨fun x hx h => hl ⟨x, hx, h⟩, hall⟩⟩
    · rintro ⟨hd, ⟨hdb, _⟩ | ⟨_, hall⟩⟩
      · exact absurd ⟨d, hd, hdb⟩ hl
      · exact ⟨hd, hall⟩

def descReading (c : List UInt8 × List UInt8) : Option (FileId × Desc) :=
  if c.1 = TYPE_FILEDESC then parseFiledesc c.2 else none

theorem SetClaims.claim_descs (g : SetClaims) (c : List UInt8 × List UInt8) :
    (g.claim md5 c.1 c.2).descs = (descReading c).elim g.descs fun r =>
      g.descs.step r.1 default fun k => k.offerDesc md5 r.1 r.2 := by
  unfold claim descReading
  by_cases hf : c.1 = TYPE_FILEDESC
  · have hm : ¬ TYPE_FILEDESC = TYPE_MAIN := by decide
    simp only [hf, hm, ↓reduceIte]
    cases parseFiledesc c.2 <;> rfl
  · simp only [hf, ↓reduceIte, Option.elim_none]
    split
    · cases parseMain c.2 <;> rfl
    split
    · cases parseIfsc c.2 <;> rfl
    split
    · cases parseUnifilen c.2 <;> rfl
    split
    · cases parseCommAscii c.2 <;> rfl
    split
    · cases parseCommUni c.2 <;> rfl
    split <;> rfl

/-- The descriptor table of a set after a walk over packets of that set. -/
theorem foldl_claim_descs (l : List (List UInt8 × List UInt8)) (g : SetClaims) :
    (l.foldl (fun g c => g.claim md5 c.1 c.2) g).descs =
      (l.filterMap descReading).foldl
        (fun m r => m.step r.1 default fun k => k.offerDesc md5 r.1 r.2) g.descs := by
  induction l generalizing g with
  | nil => rfl
  | cons c l ih =>
    rw [foldl_cons, ih, claim_descs]
    cases h : descReading c with
    | none => rw [filterMap_cons_none h]; rfl
    | some r => rw [filterMap_cons_some h]; rfl

def offeredList (inputs : List (List UInt8)) (setId fid : FileId) : List Desc :=
  (((((((verifiedPackets md5 inputs).map RawPacket.content).filter (·.1 = setId)).map
    Prod.snd).filterMap descReading)).filter (·.1 = fid)).map Prod.snd

theorem mem_offeredList {inputs : List (List UInt8)} {setId fid : FileId} {d : Desc} :
    d ∈ offeredList md5 inputs setId fid ↔ d ∈ offeredDescs md5 inputs setId fid := by
  simp only [offeredList, offeredDescs, descReading, RawPacket.content, mem_map,
    mem_filter, mem_filterMap, Set.mem_ofPred_eq, decide_eq_true_eq]
  constructor
  · rintro ⟨⟨f, d'⟩, ⟨⟨_, ⟨_, ⟨⟨p, hp, rfl⟩, hset⟩, rfl⟩, hr⟩, hfid⟩, rfl⟩
    dsimp only at hset hfid hr
    split at hr
    case isTrue ht => exact ⟨p, hp, hset, ht, by rw [hr, hfid]⟩
    case isFalse => cases hr
  · rintro ⟨p, hp, hset, ht, hr⟩
    exact ⟨(fid, d), ⟨⟨(p.ptype, p.body), ⟨(p.setId, p.ptype, p.body), ⟨⟨p, hp, rfl⟩, hset⟩, rfl⟩,
      by rw [if_pos ht]; exact hr⟩, rfl⟩, rfl⟩

theorem settledDesc_eq {inputs : List (List UInt8)}
    (hinj : Set.InjOn md5 (hashedBytes md5 inputs)) (setId fid : FileId) :
    settledDesc md5 inputs setId fid = ((offeredList md5 inputs setId fid).foldl
      (fun c d => c.offerDesc md5 fid d) ({} : DescClaim)).intoSettled := by
  have hgetD : ∀ m : Table FileId DescClaim, (m.lookup fid).bind intoSettled =
      ((m.lookup fid).getD default).intoSettled := by
    intro m
    cases m.lookup fid <;> rfl
  rw [settledDesc, walkInputs_groups md5 hinj]
  have hset := Table.getD_foldl_step (fun _ (g : SetClaims) (c : List UInt8 × List UInt8) =>
    g.claim md5 c.1 c.2) default ((verifiedPackets md5 inputs).map RawPacket.content) ∅ setId
  have hfid := Table.getD_foldl_step (fun f (k : DescClaim) (d : Desc) => k.offerDesc md5 f d)
    default (((((verifiedPackets md5 inputs).map RawPacket.content).filter (·.1 = setId)).map
      Prod.snd).filterMap descReading) ∅ fid
  rw [hgetD]
  refine congrArg intoSettled (Eq.trans ?_ hfid)
  refine congrArg (fun m : Table FileId DescClaim => (m.lookup fid).getD default) ?_
  exact (congrArg descs hset).trans (foldl_claim_descs md5 _ _)

end Settled

/-! ## The set's meaning -/

/-- `parse` is a function of the set of verified packets, and a file id settles to the one
descriptor that binds it, to none when several bind it, and to the one unbound descriptor when
none does. -/
theorem parse_packet_set (md5 : List UInt8 → List UInt8) (o o' : HashOrder)
    (inputs inputs' : List (List UInt8))
    (hset : ∀ c, c ∈ (verifiedPackets md5 inputs).map RawPacket.content ↔
      c ∈ (verifiedPackets md5 inputs').map RawPacket.content)
    (hinj : Set.InjOn md5 (hashedBytes md5 inputs ∪ hashedBytes md5 inputs')) :
    parse md5 o inputs = parse md5 o' inputs' ∧
    ∀ setId fid d, settledDesc md5 inputs setId fid = some d ↔
      d ∈ offeredDescs md5 inputs setId fid ∧
      ((filedescId md5 d = fid ∧
          ∀ x ∈ offeredDescs md5 inputs setId fid, filedescId md5 x = fid → x = d) ∨
        ((∀ x ∈ offeredDescs md5 inputs setId fid, filedescId md5 x ≠ fid) ∧
          ∀ x ∈ offeredDescs md5 inputs setId fid, x = d)) := by
  have h1 := hinj.mono Set.subset_union_left
  have h2 := hinj.mono Set.subset_union_right
  refine ⟨?_, ?_⟩
  · unfold parse
    rw [walkInputs_groups md5 h1, walkInputs_groups md5 h2,
      (claimContent_setLike md5).foldl_congr hset]
    exact settle_order o o' _
  · intro setId fid d
    rw [settledDesc_eq md5 h1, settled_iff]
    simp only [mem_offeredList]

/-! A small set: a Main packet with no files and one descriptor that binds its id. -/

def sampleMain : List UInt8 := List.replicate 16 7 ++ TYPE_MAIN ++ toLe64 4 ++ List.replicate 4 0

def sampleMainMd5 : List UInt8 :=
  [93, 168, 45, 223, 74, 124, 82, 191, 246, 116, 2, 94, 170, 52, 90, 33]

def sampleFid : List UInt8 :=
  [135, 227, 25, 42, 98, 222, 193, 244, 1, 138, 211, 54, 166, 146, 125, 119]

def sampleDesc : List UInt8 :=
  List.replicate 16 7 ++ TYPE_FILEDESC ++ sampleFid ++ List.replicate 16 1 ++
    List.replicate 16 2 ++ toLe64 9 ++ ascii "a.bk"

def sampleDescMd5 : List UInt8 :=
  [76, 90, 254, 75, 244, 166, 51, 161, 184, 74, 8, 67, 242, 91, 237, 56]

def sampleMd5 (x : List UInt8) : List UInt8 :=
  if x = sampleMain then sampleMainMd5
  else if x = sampleDesc then sampleDescMd5
  else if x = List.replicate 16 2 ++ toLe64 9 ++ ascii "a.bk" then sampleFid
  else List.replicate 16 0

def samplePacket (digest content : List UInt8) : List UInt8 :=
  MAGIC ++ toLe64 (32 + content.length) ++ digest ++ content

noncomputable def sampleOrder : HashOrder :=
  ⟨Finset.toList, fun s => s.nodup_toList, fun _ _ => Finset.mem_toList⟩

set_option maxRecDepth 10000 in
theorem sample_contents :
    (verifiedPackets sampleMd5 [samplePacket sampleMainMd5 sampleMain ++
      samplePacket sampleDescMd5 sampleDesc]).map RawPacket.content =
      [(List.replicate 16 7, TYPE_MAIN, sampleMain.drop 32),
       (List.replicate 16 7, TYPE_FILEDESC, sampleDesc.drop 32)] := by
  decide

set_option maxRecDepth 10000 in
theorem sample_contents_reordered :
    (verifiedPackets sampleMd5 [samplePacket sampleDescMd5 sampleDesc, [], [0, 1, 2] ++
      samplePacket sampleMainMd5 sampleMain ++ samplePacket sampleMainMd5 sampleMain]).map
        RawPacket.content =
      [(List.replicate 16 7, TYPE_FILEDESC, sampleDesc.drop 32),
       (List.replicate 16 7, TYPE_MAIN, sampleMain.drop 32),
       (List.replicate 16 7, TYPE_MAIN, sampleMain.drop 32)] := by
  decide

theorem hashedBytes_of_contents {md5 : List UInt8 → List UInt8} {inputs : List (List UInt8)}
    {x : List UInt8} (hx : x ∈ hashedBytes md5 inputs) :
    ∃ c ∈ (verifiedPackets md5 inputs).map RawPacket.content, x = c.1 ++ c.2.1 ++ c.2.2 := by
  obtain ⟨p, hp, rfl⟩ := hx
  exact ⟨p.content, mem_map.mpr ⟨p, hp, rfl⟩, rfl⟩

theorem sampleMd5_injOn : Set.InjOn sampleMd5
    (hashedBytes sampleMd5 [samplePacket sampleMainMd5 sampleMain ++
      samplePacket sampleDescMd5 sampleDesc] ∪
     hashedBytes sampleMd5 [samplePacket sampleDescMd5 sampleDesc, [], [0, 1, 2] ++
      samplePacket sampleMainMd5 sampleMain ++ samplePacket sampleMainMd5 sampleMain]) := by
  have hmem : ∀ x ∈ hashedBytes sampleMd5 [samplePacket sampleMainMd5 sampleMain ++
      samplePacket sampleDescMd5 sampleDesc] ∪
     hashedBytes sampleMd5 [samplePacket sampleDescMd5 sampleDesc, [], [0, 1, 2] ++
      samplePacket sampleMainMd5 sampleMain ++ samplePacket sampleMainMd5 sampleMain],
      x = sampleMain ∨ x = sampleDesc := by
    have hm : replicate 16 7 ++ TYPE_MAIN ++ sampleMain.drop 32 = sampleMain := by decide
    have hd : replicate 16 7 ++ TYPE_FILEDESC ++ sampleDesc.drop 32 = sampleDesc := by
      decide
    rintro x (hx | hx)
    · obtain ⟨c, hc, rfl⟩ := hashedBytes_of_contents hx
      rw [sample_contents] at hc
      simp only [mem_cons, not_mem_nil, or_false] at hc
      rcases hc with rfl | rfl
      · exact .inl hm
      · exact .inr hd
    · obtain ⟨c, hc, rfl⟩ := hashedBytes_of_contents hx
      rw [sample_contents_reordered] at hc
      simp only [mem_cons, not_mem_nil, or_false] at hc
      rcases hc with rfl | rfl | rfl
      · exact .inr hd
      · exact .inl hm
      · exact .inl hm
  have hne : sampleMd5 sampleMain ≠ sampleMd5 sampleDesc := by decide
  intro x hx y hy h
  rcases hmem x hx with rfl | rfl <;> rcases hmem y hy with rfl | rfl
  · rfl
  · exact absurd h hne
  · exact absurd h.symm hne
  · rfl

/-- Two postings of the sample: one file, and its packets over three files in another order, one
of them twice. -/
theorem parse_packet_set_sample :
    parse sampleMd5 sampleOrder [samplePacket sampleMainMd5 sampleMain ++
      samplePacket sampleDescMd5 sampleDesc] =
    parse sampleMd5 sampleOrder [samplePacket sampleDescMd5 sampleDesc, [], [0, 1, 2] ++
      samplePacket sampleMainMd5 sampleMain ++ samplePacket sampleMainMd5 sampleMain] := by
  have hmem : ∀ a b c : List UInt8 × List UInt8 × List UInt8, c ∈ [a, b] ↔ c ∈ [b, a, a] := by
    intro a b c
    simp only [mem_cons, not_mem_nil, or_false]
    tauto
  refine (parse_packet_set sampleMd5 sampleOrder sampleOrder _ _ ?_ sampleMd5_injOn).1
  intro c
  rw [sample_contents, sample_contents_reordered]
  exact hmem _ _ c

end NzbFast.Par2
