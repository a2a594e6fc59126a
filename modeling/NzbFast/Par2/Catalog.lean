import NzbFast.Fold.Table
import NzbFast.Par2.SetMeaning

/-!
# Disk repair's reading of a set

`PacketCatalog` and `SetReplay` of `crates/nzbkit-base/src/par2repair/catalog.rs`:
packet files are scanned into the catalog one after another, and the replay is
fed the occurrences in catalog order, with any scans between two feeds (the
catalog of a repair is built lazily). The replay keeps, beside three maps, the
claims that packets contradicted; `Mirrors` says which of them is which claim of
`Par2Set::parse`, and one feed keeps it.
-/

namespace NzbFast.Par2

open Fold NzbFast.Rust Finmap SetClaims
open List hiding lookup

/-! ## The catalog -/

inductive Kind
  | plain
  | recvSlic (exp : Nat) (off : Nat) (len : Nat)
  deriving DecidableEq

/-- One validated packet occurrence. -/
structure Occ where
  md5 : List UInt8
  setId : FileId
  kind : Kind

/-- A parsed critical packet body. -/
inductive Crit
  | main (blockSize : Nat) (ids : List FileId)
  | fileDesc (fid : FileId) (d : Desc)
  | ifsc (fid : FileId) (b : List BlockCheck)

def isSlice (p : RawPacket) : Bool := p.ptype = TYPE_RECVSLIC ∧ 4 ≤ p.body.length

def kindOf (p : RawPacket) : Kind :=
  if isSlice p then
    .recvSlic (fromLe (slice p.body 0 4)) (p.bodyOffset + 4) ((p.body.length - 4) % 2 ^ 32)
  else .plain

def critOf (p : RawPacket) : Option Crit :=
  if isSlice p then none
  else if p.ptype = TYPE_MAIN then (parseMain p.body).map fun r => .main r.1 r.2.1
  else if p.ptype = TYPE_FILEDESC then (parseFiledesc p.body).map fun r => .fileDesc r.1 r.2
  else if p.ptype = TYPE_IFSC then (parseIfsc p.body).map fun r => .ifsc r.1 r.2
  else none

structure Catalog where
  files : Nat := 0
  /-- Every scanned occurrence with its file, in the order of `walk`. -/
  occs : List (Nat × Occ) := []
  parsed : Table (List UInt8) Crit := ∅

def storeCrit (t : Table (List UInt8) Crit) (p : RawPacket) : Table (List UInt8) Crit :=
  match critOf p with
  | none => t
  | some c => if p.md5 ∈ t then t else t.insert p.md5 c

def Catalog.scan (cat : Catalog) (packets : List RawPacket) : Catalog where
  files := cat.files + 1
  occs := cat.occs ++ packets.map fun p => (cat.files, ⟨p.md5, p.setId, kindOf p⟩)
  parsed := packets.foldl storeCrit cat.parsed

/-! ## The replay -/

structure RecLoc where
  file : Nat
  exp : Nat
  off : Nat
  len : Nat
  md5 : List UInt8

structure SetReplay where
  setId : Option FileId
  seen : Finset (List UInt8) := ∅
  main : Option (Nat × List FileId) := none
  descs : Table FileId Desc := ∅
  ifscs : Table FileId (List BlockCheck) := ∅
  recLocs : List RecLoc := []
  mainContradicted : Bool := false
  descsContradicted : Finset FileId := ∅
  ifscsContradicted : Finset FileId := ∅
  descsBound : Finset FileId := ∅

/-- `claim_or_contradict`: the map beside its latch. -/
def claimOrContradict {T : Type} [DecidableEq T] (held : Table FileId T)
    (contradicted : Finset FileId) (fid : FileId) (offered : T) :
    Table FileId T × Finset FileId :=
  if fid ∈ contradicted then (held, contradicted)
  else
    match held.lookup fid with
    | some cur => if cur ≠ offered then (held.erase fid, insert fid contradicted) else (held, contradicted)
    | none => (held.insert fid offered, contradicted)

section Replay

variable (md5 : List UInt8 → List UInt8)

namespace SetReplay

/-- `claim_desc_or_contradict`. -/
def claimDesc (r : SetReplay) (fid : FileId) (offered : Desc) : SetReplay :=
  let claim := claimOrContradict r.descs r.descsContradicted fid offered
  if filedescId md5 offered = fid then
    if fid ∉ r.descsBound then
      { r with
        descsBound := insert fid r.descsBound
        descs := r.descs.insert fid offered
        descsContradicted := r.descsContradicted.erase fid }
    else { r with descs := claim.1, descsContradicted := claim.2 }
  else if fid ∈ r.descsBound then r
  else { r with descs := claim.1, descsContradicted := claim.2 }

def claimMain (r : SetReplay) (claim : Nat × List FileId) : SetReplay :=
  if r.mainContradicted then r
  else
    match r.main with
    | some cur => if cur ≠ claim then { r with main := none, mainContradicted := true } else r
    | none => { r with main := some claim }

def claimIfsc (r : SetReplay) (fid : FileId) (b : List BlockCheck) : SetReplay :=
  let claim := claimOrContradict r.ifscs r.ifscsContradicted fid b
  { r with ifscs := claim.1, ifscsContradicted := claim.2 }

def claimCrit (r : SetReplay) : Option Crit → SetReplay
  | some (.main bsz ids) => r.claimMain (bsz, ids)
  | some (.fileDesc fid d) => r.claimDesc md5 fid d
  | some (.ifsc fid b) => r.claimIfsc fid b
  | none => r

def take (r : SetReplay) (parsed : Table (List UInt8) Crit) (file : Nat) (occ : Occ) : SetReplay :=
  match occ.kind with
  | .recvSlic exp off len => { r with recLocs := r.recLocs ++ [⟨file, exp, off, len, occ.md5⟩] }
  | .plain => r.claimCrit md5 (parsed.lookup occ.md5)

def feed (parsed : Table (List UInt8) Crit) (r : SetReplay) (file : Nat) (occ : Occ) : SetReplay :=
  if occ.md5 ∈ r.seen then r
  else
    let r := { r with seen := insert occ.md5 r.seen }
    match r.setId with
    | none => { r with setId := some occ.setId }.take md5 parsed file occ
    | some id => if id ≠ occ.setId then r else r.take md5 parsed file occ

def criticalsComplete (r : SetReplay) : Bool :=
  r.mainContradicted ||
    match r.main with
    | none => false
    | some (_, ids) => ids.all fun fid =>
      (fid ∈ r.descs || fid ∈ r.descsBound) && (fid ∈ r.ifscs || fid ∈ r.ifscsContradicted)

end SetReplay

/-! ## Scanning and feeding -/

/-- A packet file is scanned, or the next scanned occurrence is fed. -/
inductive Event
  | scan (packets : List RawPacket)
  | feed

structure Repair where
  cat : Catalog := {}
  fed : Nat := 0
  replay : SetReplay

def Repair.step (s : Repair) : Event → Repair
  | .scan packets => { s with cat := s.cat.scan packets }
  | .feed =>
    match s.cat.occs[s.fed]? with
    | none => s
    | some (file, occ) =>
      { s with fed := s.fed + 1, replay := s.replay.feed md5 s.cat.parsed file occ }

def Repair.run (want : Option FileId) (events : List Event) : Repair :=
  events.foldl (Repair.step md5) { replay := { setId := want } }

def scanned (events : List Event) : List RawPacket :=
  events.flatMap fun
    | .scan packets => packets
    | .feed => []

/-! ## One occurrence on both sides -/

/-- A map and its latch, as the claim they stand for. -/
def heldClaim {T : Type} (held : Table FileId T) (contradicted : Finset FileId) (fid : FileId) :
    Claim T :=
  ⟨held.lookup fid, decide (fid ∈ contradicted)⟩

def SetReplay.descClaim (r : SetReplay) (fid : FileId) : DescClaim :=
  ⟨heldClaim r.descs r.descsContradicted fid, decide (fid ∈ r.descsBound)⟩

theorem heldClaim_claimOrContradict {T : Type} [DecidableEq T] (held : Table FileId T)
    (con : Finset FileId) (fid : FileId) (v : T) (j : FileId) :
    heldClaim (claimOrContradict held con fid v).1 (claimOrContradict held con fid v).2 j =
      if j = fid then (heldClaim held con fid).offer v else heldClaim held con j := by
  unfold claimOrContradict heldClaim Claim.offer
  by_cases hj : j = fid
  · subst hj
    by_cases hcon : j ∈ con
    · simp [hcon]
    · cases hheld : held.lookup j with
      | none => simp [hcon]
      | some cur =>
        by_cases hcur : cur = v
        · simp [hcon, hheld, hcur]
        · simp [hcon, hcur]
  · by_cases hcon : fid ∈ con
    · simp [hj, hcon]
    · cases hheld : held.lookup fid with
      | none => simp [hj, hcon, lookup_insert_of_ne]
      | some cur =>
        by_cases hcur : cur = v
        · simp [hj, hcon, hcur]
        · simp [hj, hcon, hcur, lookup_erase_ne]

theorem SetReplay.descClaim_claimDesc (r : SetReplay) (fid : FileId) (d : Desc) (j : FileId) :
    (r.claimDesc md5 fid d).descClaim j =
      if j = fid then (r.descClaim fid).offerDesc md5 fid d else r.descClaim j := by
  have hclaim := heldClaim_claimOrContradict r.descs r.descsContradicted fid d j
  unfold SetReplay.claimDesc DescClaim.offerDesc SetReplay.descClaim
  by_cases hj : j = fid
  · subst hj
    by_cases hbind : filedescId md5 d = j
    · by_cases hbound : j ∈ r.descsBound
      · simp [hbind, hbound, hclaim]
      · simp [hbind, hbound, heldClaim]
    · by_cases hbound : j ∈ r.descsBound
      · simp [hbind, hbound]
      · simp [hbind, hbound, hclaim]
  · rw [if_neg hj] at hclaim
    by_cases hbind : filedescId md5 d = fid
    · by_cases hbound : fid ∈ r.descsBound
      · simp [hj, hbind, hbound, hclaim]
      · simp [hj, hbind, hbound, heldClaim, lookup_insert_of_ne]
    · by_cases hbound : fid ∈ r.descsBound
      · simp [hj, hbind, hbound]
      · simp [hj, hbind, hbound, hclaim]

/-- The three claims of a set that the replay keeps. -/
structure Mirrored (r : SetReplay) (g : SetClaims) : Prop where
  main : (⟨r.main, r.mainContradicted⟩ : Claim _) = g.main
  descs : ∀ fid, r.descClaim fid = (g.descs.lookup fid).getD {}
  ifscs : ∀ fid, heldClaim r.ifscs r.ifscsContradicted fid = (g.ifscs.lookup fid).getD {}

variable {g : SetClaims} {r : SetReplay} {l : List RawPacket}

theorem Mirrored.claimMain (h : Mirrored r g) (m : Nat × List FileId × List FileId) :
    Mirrored (r.claimMain (m.1, m.2.1)) (g.offerMain m) := by
  have hmain := h.main
  unfold SetReplay.claimMain
  split
  case isTrue hcon =>
    refine ⟨?_, h.descs, h.ifscs⟩
    rw [offerMain, ← hmain]
    simp [Claim.offer, hcon]
  case isFalse hcon =>
    split
    case h_1 cur hcur =>
      split
      case isTrue hne =>
        refine ⟨?_, h.descs, h.ifscs⟩
        rw [offerMain, ← hmain]
        simp only [Claim.offer, hcon, hcur, Bool.false_eq_true, if_false, if_pos hne]
      case isFalse heq =>
        refine ⟨?_, h.descs, h.ifscs⟩
        rw [offerMain, ← hmain]
        simp only [Claim.offer, hcon, hcur, Bool.false_eq_true, if_false, if_neg heq]
    case h_2 hnone =>
      refine ⟨?_, h.descs, h.ifscs⟩
      rw [offerMain, ← hmain]
      simp only [Claim.offer, hcon, hnone, Bool.false_eq_true, if_false]

theorem Mirrored.claimDesc (h : Mirrored r g) (fid : FileId) (d : Desc) :
    Mirrored (r.claimDesc md5 fid d)
      { g with descs := g.descs.step fid default fun c => c.offerDesc md5 fid d } := by
  have hrest : (r.claimDesc md5 fid d).main = r.main ∧
      (r.claimDesc md5 fid d).mainContradicted = r.mainContradicted ∧
      (r.claimDesc md5 fid d).ifscs = r.ifscs ∧
      (r.claimDesc md5 fid d).ifscsContradicted = r.ifscsContradicted := by
    unfold SetReplay.claimDesc
    split
    · split <;> exact ⟨rfl, rfl, rfl, rfl⟩
    · split <;> exact ⟨rfl, rfl, rfl, rfl⟩
  obtain ⟨hm, hmc, hi, hic⟩ := hrest
  refine ⟨by rw [hm, hmc]; exact h.main, fun j => ?_, fun j => by rw [hi, hic]; exact h.ifscs j⟩
  rw [SetReplay.descClaim_claimDesc, Table.lookup_step, h.descs, h.descs]
  split <;> rfl

theorem Mirrored.claimIfsc (h : Mirrored r g) (fid : FileId) (b : List BlockCheck) :
    Mirrored (r.claimIfsc fid b)
      { g with ifscs := g.ifscs.step fid default fun c => c.offer b } := by
  refine ⟨h.main, h.descs, fun j => ?_⟩
  rw [Table.lookup_step]
  refine (heldClaim_claimOrContradict r.ifscs r.ifscsContradicted fid b j).trans ?_
  rw [h.ifscs, h.ifscs]
  split <;> rfl

/-- The claim of a packet's critical body is the claim of the packet. -/
theorem Mirrored.claimCrit (h : Mirrored r g) (p : RawPacket) :
    Mirrored (r.claimCrit md5 (critOf p)) (g.claim md5 p.ptype p.body) := by
  have hslice : ∀ t, p.ptype = t → t ≠ TYPE_RECVSLIC → isSlice p = false := by
    intro t ht hne
    simp [isSlice, ht, hne]
  unfold claim
  split
  case isTrue hm =>
    rw [critOf, hslice _ hm (by decide), if_neg (by decide), if_pos hm]
    cases hr : parseMain p.body with
    | none => exact h
    | some m => exact h.claimMain m
  case isFalse hm =>
  split
  case isTrue hd =>
    rw [critOf, hslice _ hd (by decide), if_neg (by decide), if_neg hm, if_pos hd]
    cases hr : parseFiledesc p.body with
    | none => exact h
    | some d => exact h.claimDesc md5 d.1 d.2
  case isFalse hd =>
  split
  case isTrue hi =>
    rw [critOf, hslice _ hi (by decide), if_neg (by decide), if_neg hm, if_neg hd, if_pos hi]
    cases hr : parseIfsc p.body with
    | none => exact h
    | some i => exact h.claimIfsc i.1 i.2
  case isFalse hi =>
  -- the other packets say nothing that the replay keeps
  have hnone : critOf p = none := by
    rw [critOf, if_neg hm, if_neg hd, if_neg hi]
    split <;> rfl
  rw [hnone]
  split
  case isTrue => cases parseUnifilen p.body <;> exact ⟨h.main, h.descs, h.ifscs⟩
  case isFalse =>
  split
  case isTrue => cases parseCommAscii p.body <;> exact ⟨h.main, h.descs, h.ifscs⟩
  case isFalse =>
  split
  case isTrue => cases parseCommUni p.body <;> exact ⟨h.main, h.descs, h.ifscs⟩
  case isFalse =>
  split
  case isTrue => exact ⟨h.main, h.descs, h.ifscs⟩
  case isFalse => exact h

def Walk.claims (w : Walk) (s : FileId) : SetClaims := (w.groups.lookup s).getD {}

/-- The replay of a set against a walk over the same packets. -/
structure Mirrors (s : FileId) (r : SetReplay) (w : Walk) : Prop extends
    Mirrored r (w.claims s) where
  setId : r.setId = some s
  seen : r.seen = w.seen

def occOf (p : RawPacket) : Occ := ⟨p.md5, p.setId, kindOf p⟩

theorem SetReplay.take_frame (r : SetReplay) (parsed : Table (List UInt8) Crit) (file : Nat)
    (occ : Occ) : (r.take md5 parsed file occ).setId = r.setId ∧
      (r.take md5 parsed file occ).seen = r.seen := by
  unfold SetReplay.take
  split
  case h_1 => exact ⟨rfl, rfl⟩
  case h_2 =>
    unfold SetReplay.claimCrit
    split
    case h_1 =>
      unfold SetReplay.claimMain
      split
      · exact ⟨rfl, rfl⟩
      · split
        · split <;> exact ⟨rfl, rfl⟩
        · exact ⟨rfl, rfl⟩
    case h_2 =>
      unfold SetReplay.claimDesc
      split
      · split <;> exact ⟨rfl, rfl⟩
      · split <;> exact ⟨rfl, rfl⟩
    case h_3 => exact ⟨rfl, rfl⟩
    case h_4 => exact ⟨rfl, rfl⟩

theorem Mirrors.feed {s : FileId} {w : Walk} (h : Mirrors s r w) (p : RawPacket)
    {parsed : Table (List UInt8) Crit} (hp : parsed.lookup p.md5 = critOf p) (file : Nat) :
    Mirrors s (r.feed md5 parsed file (occOf p)) (w.claim md5 p) := by
  unfold SetReplay.feed Walk.claim
  simp only [occOf, h.seen]
  split
  case isTrue => exact h
  case isFalse hfresh =>
    simp only [h.setId]
    split
    case isTrue hne =>
      refine ⟨?_, rfl, rfl⟩
      have hsame : (⟨insert p.md5 w.seen, w.groups.step p.setId default
          (·.claim md5 p.ptype p.body)⟩ : Walk).claims s = w.claims s := by
        rw [Walk.claims, Table.lookup_step, if_neg hne, Walk.claims]
      rw [hsame]
      exact ⟨h.main, h.descs, h.ifscs⟩
    case isFalse heq =>
      have hs : s = p.setId := not_not.mp heq
      subst hs
      have hclaims : (⟨insert p.md5 w.seen, w.groups.step p.setId default
          (·.claim md5 p.ptype p.body)⟩ : Walk).claims p.setId =
            (w.claims p.setId).claim md5 p.ptype p.body := by
        rw [Walk.claims, Table.lookup_step, if_pos rfl, Walk.claims]
        rfl
      have hseen : Mirrored { r with setId := some p.setId, seen := insert p.md5 w.seen }
          (w.claims p.setId) := ⟨h.main, h.descs, h.ifscs⟩
      have hcrit := hseen.claimCrit md5 p
      obtain ⟨hid, hsn⟩ := SetReplay.take_frame md5
        { r with setId := some p.setId, seen := insert p.md5 w.seen } parsed file (occOf p)
      refine ⟨?_, hid, hsn⟩
      rw [hclaims]
      unfold SetReplay.take
      simp only [kindOf]
      split
      case h_1 exp off len hkind =>
        have hnone : critOf p = none := by
          rw [critOf, if_pos]
          by_contra hno
          rw [if_neg hno] at hkind
          cases hkind
        rw [hnone] at hcrit
        exact ⟨hcrit.main, hcrit.descs, hcrit.ifscs⟩
      case h_2 =>
        rw [hp]
        exact hcrit


/-! ## Whole runs -/

def Collisionless (l : List RawPacket) : Prop :=
  ∀ p ∈ l, ∀ q ∈ l, p.md5 = q.md5 → p.content = q.content

theorem Collisionless.mono {l' : List RawPacket} (h : Collisionless l') (hsub : ∀ p ∈ l, p ∈ l') :
    Collisionless l :=
  fun p hp q hq => h p (hsub p hp) q (hsub q hq)

theorem critOf_content {p q : RawPacket} (h : p.content = q.content) : critOf p = critOf q := by
  obtain ⟨m, i, t, b, o⟩ := p
  obtain ⟨rfl, rfl, rfl⟩ := h
  rfl

/-- What the table of critical bodies has for the packets scanned so far. -/
structure Stored (t : Table (List UInt8) Crit) (l : List RawPacket) : Prop where
  lookup : ∀ p ∈ l, t.lookup p.md5 = critOf p
  only : ∀ m, m ∈ t → ∃ p ∈ l, p.md5 = m

theorem Stored.store {t : Table (List UInt8) Crit} (h : Stored t l) {p : RawPacket}
    (hl : Collisionless (l ++ [p])) : Stored (storeCrit t p) (l ++ [p]) := by
  have hlast : p ∈ l ++ [p] := by simp
  have hold : ∀ {q}, q ∈ l → q ∈ l ++ [p] := fun hq => mem_append_left _ hq
  have hsame : ∀ q ∈ l, q.md5 = p.md5 → critOf q = critOf p := fun q hq heq =>
    critOf_content (hl q (hold hq) p hlast heq)
  have honly : ∀ m, m ∈ t → ∃ q ∈ l ++ [p], q.md5 = m := by
    intro m hm
    obtain ⟨q, hq, heq⟩ := h.only m hm
    exact ⟨q, hold hq, heq⟩
  -- a body under the packet's MD5 is the packet's own
  have hmem : p.md5 ∈ t → t.lookup p.md5 = critOf p := by
    intro hm
    obtain ⟨q, hq, heq⟩ := h.only _ hm
    rw [← heq, h.lookup q hq, hsame q hq heq]
  have hcases : ∀ {P : RawPacket → Prop}, (∀ q ∈ l, P q) → P p → ∀ q ∈ l ++ [p], P q := by
    intro P hP hp q hq
    rcases mem_append.mp hq with hq | hq
    · exact hP q hq
    · rw [mem_singleton.mp hq]
      exact hp
  unfold storeCrit
  cases hc : critOf p with
  | none =>
    refine ⟨hcases h.lookup ?_, honly⟩
    rw [hc, lookup_eq_none]
    intro hm
    obtain ⟨c, hlook⟩ := mem_iff.mp hm
    rw [hmem hm, hc] at hlook
    cases hlook
  | some c =>
    simp only
    split
    case isTrue hm => exact ⟨hcases h.lookup (hmem hm), honly⟩
    case isFalse hm =>
      refine ⟨hcases ?_ (by rw [lookup_insert, hc]), ?_⟩
      · intro q hq
        rw [Table.lookup_insert_eq_ite]
        split
        case isTrue heq => rw [hsame q hq heq, hc]
        case isFalse => exact h.lookup q hq
      · intro m hmm
        rcases mem_insert.mp hmm with rfl | hmm
        · exact ⟨p, hlast, rfl⟩
        · exact honly m hmm

theorem Stored.storeAll {t : Table (List UInt8) Crit} {ps : List RawPacket} (h : Stored t l)
    (hl : Collisionless (l ++ ps)) : Stored (ps.foldl storeCrit t) (l ++ ps) := by
  induction ps generalizing t l with
  | nil => simpa using h
  | cons p ps ih =>
    have hsplit : l ++ p :: ps = l ++ [p] ++ ps := by simp
    rw [hsplit] at hl ⊢
    exact ih (h.store (hl.mono fun q hq => mem_append_left _ hq)) hl

/-- A repair in progress: what has been scanned, and the walk over what has been fed. -/
structure InStep (s : FileId) (l : List RawPacket) (x : Repair) : Prop where
  stored : Stored x.cat.parsed l
  occs : x.cat.occs.map Prod.snd = l.map occOf
  fed : x.fed ≤ l.length
  mirrors : Mirrors s x.replay ((l.take x.fed).foldl (Walk.claim md5) {})

theorem InStep.step {s : FileId} {l : List RawPacket} {x : Repair} (h : InStep md5 s l x)
    (e : Event) (hl : Collisionless (l ++ scanned [e])) :
    InStep md5 s (l ++ scanned [e]) (x.step md5 e) := by
  cases e with
  | scan ps =>
    have hps : scanned [.scan ps] = ps := by simp [scanned]
    rw [hps] at hl ⊢
    refine ⟨h.stored.storeAll hl, ?_, ?_, ?_⟩
    · simp only [Repair.step, Catalog.scan, map_append, h.occs, map_map]
      rfl
    · have := h.fed
      simp only [Repair.step, length_append]
      omega
    · simp only [Repair.step, take_append_of_le_length h.fed]
      exact h.mirrors
  | feed =>
    have hnil : scanned [.feed] = [] := rfl
    rw [hnil, append_nil]
    unfold Repair.step
    simp only
    split
    case h_1 => exact h
    case h_2 file occ hocc =>
      have hat : l[x.fed]?.map occOf = some occ := by
        have := congrArg (·[x.fed]?) h.occs
        simpa [hocc] using this.symm
      obtain ⟨p, hp, rfl⟩ := Option.map_eq_some_iff.mp hat
      obtain ⟨hlt, hget⟩ := List.getElem?_eq_some_iff.mp hp
      refine ⟨h.stored, h.occs, hlt, ?_⟩
      rw [take_succ_eq_append_getElem hlt, foldl_append, hget]
      exact h.mirrors.feed md5 p (h.stored.lookup p (mem_of_getElem? hp)) file

theorem inStep_run (s : FileId) (events : List Event) (hl : Collisionless (scanned events)) :
    InStep md5 s (scanned events) (Repair.run md5 (some s) events) := by
  induction events using reverseRecOn with
  | nil =>
    refine ⟨⟨fun p hp => (nomatch hp), fun m hm => absurd hm notMem_empty⟩, rfl, le_refl _, ?_⟩
    refine ⟨⟨rfl, fun fid => ?_, fun fid => ?_⟩, rfl, rfl⟩
    · rfl
    · rfl
  | append_singleton events e ih =>
    have hscan : scanned (events ++ [e]) = scanned events ++ scanned [e] := by
      simp [scanned]
    rw [hscan] at hl ⊢
    rw [Repair.run, foldl_append]
    exact (ih (hl.mono fun q hq => mem_append_left _ hq)).step md5 e hl

/-! ## The two readings -/

def descsOffered (l : List RawPacket) (s fid : FileId) : List Desc :=
  ((l.filter (·.setId = s)).filterMap fun p => descReading (p.ptype, p.body)).filter (·.1 = fid)
    |>.map Prod.snd

theorem walk_claims (hl : Collisionless l) (s : FileId) :
    (l.foldl (Walk.claim md5) {}).claims s =
      (l.filter (·.setId = s)).foldl (fun g p => g.claim md5 p.ptype p.body) {} := by
  have hset := Table.getD_foldl_step (fun _ (g : SetClaims) (c : List UInt8 × List UInt8) =>
    g.claim md5 c.1 c.2) default (l.map RawPacket.content) ∅ s
  rw [Walk.claims, (walk_groups md5 hl).2]
  refine hset.trans ?_
  rw [filter_map, map_map, foldl_map]
  rfl

theorem walk_descClaim (hl : Collisionless l) (s fid : FileId) :
    ((((l.foldl (Walk.claim md5) {}).claims s).descs).lookup fid).getD {} =
      (descsOffered l s fid).foldl (fun c d => c.offerDesc md5 fid d) {} := by
  have hdescs := foldl_claim_descs md5 ((l.filter (·.setId = s)).map fun p => (p.ptype, p.body)) {}
  have hfid := Table.getD_foldl_step (fun f (k : DescClaim) (d : Desc) => k.offerDesc md5 f d)
    default ((l.filter (·.setId = s)).filterMap fun p => descReading (p.ptype, p.body)) ∅ fid
  rw [walk_claims md5 hl]
  rw [foldl_map, filterMap_map] at hdescs
  rw [hdescs]
  exact hfid

/-- An id with no binder and two unbound readings has no descriptor and is not bound. -/
theorem open_claim {l : List Desc} {fid : FileId} (hno : ∀ d ∈ l, filedescId md5 d ≠ fid)
    {d d' : Desc} (hd : d ∈ l) (hd' : d' ∈ l) (hne : d ≠ d') :
    l.foldl (fun c d => c.offerDesc md5 fid d) ({} : DescClaim) = ⟨⟨none, true⟩, false⟩ := by
  rw [DescClaim.foldl_offerDesc, if_neg fun ⟨x, hx, hbind⟩ => hno x hx hbind]
  rcases Claim.foldl_offer l with ⟨rfl, -⟩ | ⟨v, -, hall, -⟩ | ⟨-, h⟩
  · cases hd
  · exact absurd ((hall d hd).trans (hall d' hd').symm) hne
  · rw [h]

def Latched {T : Type} (c : Claim T) : Prop := c.contradicted = true → c.value = none

theorem Latched.offer {T : Type} [DecidableEq T] {c : Claim T} (h : Latched c) (v : T) :
    Latched (c.offer v) := by
  unfold Claim.offer
  split
  case isTrue => exact h
  case isFalse hcon =>
    split
    case h_1 => exact fun hc => absurd hc hcon
    case h_2 cur _ =>
      split
      case isTrue => exact fun _ => rfl
      case isFalse => exact h

theorem latched_main (hl : Collisionless l) (s : FileId) :
    Latched ((l.foldl (Walk.claim md5) {}).claims s).main := by
  rw [walk_claims md5 hl]
  suffices hfold : ∀ (l : List RawPacket) (g : SetClaims), Latched g.main →
      Latched (l.foldl (fun g p => g.claim md5 p.ptype p.body) g).main from
    hfold _ _ fun h => (nomatch h)
  intro l
  induction l with
  | nil => exact fun g hg => hg
  | cons p l ih =>
    intro g hg
    refine ih _ ?_
    simp only [claim_eq]
    cases reading p.ptype p.body with
    | none => exact hg
    | some r =>
      cases r with
      | main m => exact hg.offer _
      | _ => exact hg

theorem collisionless_of_sound (hsound : ∀ p ∈ l, p.Sound md5)
    (hinj : Set.InjOn md5 {x | ∃ p ∈ l, x = p.setId ++ p.ptype ++ p.body}) : Collisionless l := by
  intro p hp q hq h
  have sp := hsound p hp
  have sq := hsound q hq
  rw [sp.digest, sq.digest] at h
  exact sp.content_eq md5 sq (hinj ⟨p, hp, rfl⟩ ⟨q, hq, rfl⟩ h)

theorem claims_congr {l' : List RawPacket} (hl : Collisionless l) (hl' : Collisionless l')
    (hsame : ∀ c, c ∈ l.map RawPacket.content ↔ c ∈ l'.map RawPacket.content) (s : FileId) :
    (l.foldl (Walk.claim md5) {}).claims s = (l'.foldl (Walk.claim md5) {}).claims s := by
  rw [Walk.claims, Walk.claims, (walk_groups md5 hl).2, (walk_groups md5 hl').2,
    (claimContent_setLike md5).foldl_congr hsame]

/-- What stopping the scan says of every id that the settled Main names. -/
theorem Mirrors.complete {s : FileId} {w : Walk} (h : Mirrors s r w)
    (hlatched : Latched (w.claims s).main) (hcomplete : r.criticalsComplete = true) {bs : Nat}
    {ids : List FileId} (hmain : r.main = some (bs, ids)) {fid : FileId} (hfid : fid ∈ ids) :
    ((w.claims s).descs.lookup fid).getD {} ≠ ⟨⟨none, true⟩, false⟩ := by
  have hcon : r.mainContradicted = false := by
    by_contra hcon
    have hmirror := h.main
    rw [← hmirror] at hlatched
    have hnone : r.main = none := hlatched (by simpa using hcon)
    rw [hnone] at hmain
    cases hmain
  simp only [SetReplay.criticalsComplete, hcon, hmain, Bool.false_or, all_eq_true,
    Bool.and_eq_true, Bool.or_eq_true, decide_eq_true_eq] at hcomplete
  intro hopen
  rw [← h.descs fid, SetReplay.descClaim, heldClaim] at hopen
  simp only [DescClaim.mk.injEq, Claim.mk.injEq, decide_eq_false_iff_not] at hopen
  rcases (hcomplete fid hfid).1 with hheld | hbound
  · exact absurd hheld (lookup_eq_none.mp hopen.1.1)
  · exact hopen.2 hbound

end Replay

/-- Disk repair and live verification read one set alike, and repair does not stop reading while a
binder could still settle an id. -/
theorem replay_reads_parse (md5 : List UInt8 → List UInt8) (s : FileId) (events : List Event)
    (packets : List RawPacket)
    (hsound : ∀ p ∈ scanned events ++ packets, p.Sound md5)
    (hinj : Set.InjOn md5 {x | ∃ p ∈ scanned events ++ packets, x = p.setId ++ p.ptype ++ p.body})
    (hsame : ∀ c, c ∈ packets.map RawPacket.content ↔ c ∈ (scanned events).map RawPacket.content) :
    ((Repair.run md5 (some s) events).fed = (Repair.run md5 (some s) events).cat.occs.length →
      (Repair.run md5 (some s) events).replay.main =
        ((packets.foldl (Walk.claim md5) {}).claims s).main.intoSettled ∧
      (∀ fid, (Repair.run md5 (some s) events).replay.descs.lookup fid =
        (((packets.foldl (Walk.claim md5) {}).claims s).descs.lookup fid).bind
          DescClaim.intoSettled) ∧
      ∀ fid, (Repair.run md5 (some s) events).replay.ifscs.lookup fid =
        (((packets.foldl (Walk.claim md5) {}).claims s).ifscs.lookup fid).bind
          Claim.intoSettled) ∧
    ((Repair.run md5 (some s) events).replay.criticalsComplete = true →
      ∀ bs ids, (Repair.run md5 (some s) events).replay.main = some (bs, ids) → ∀ fid ∈ ids,
        ¬ ((∀ d ∈ descsOffered ((scanned events).take (Repair.run md5 (some s) events).fed) s fid,
              filedescId md5 d ≠ fid) ∧
            ∃ d ∈ descsOffered ((scanned events).take (Repair.run md5 (some s) events).fed) s fid,
            ∃ d' ∈ descsOffered ((scanned events).take (Repair.run md5 (some s) events).fed) s fid,
              d ≠ d')) := by
  have hall := collisionless_of_sound md5 hsound hinj
  have hscan := hall.mono fun p hp => mem_append_left _ hp
  have hpackets := hall.mono fun p hp => mem_append_right _ hp
  have hstep := inStep_run md5 s events hscan
  have hmirrors := hstep.mirrors
  constructor
  · intro hfed
    have hlen : (Repair.run md5 (some s) events).cat.occs.length = (scanned events).length := by
      simpa using congrArg length hstep.occs
    rw [hfed, hlen, take_length] at hmirrors
    rw [claims_congr md5 hpackets hscan hsame]
    refine ⟨?_, fun fid => ?_, fun fid => ?_⟩
    · rw [Claim.intoSettled, ← hmirrors.main]
    · have hdesc := congrArg (fun c => c.inner.value) (hmirrors.descs fid)
      simp only [SetReplay.descClaim, heldClaim] at hdesc
      rw [hdesc]
      cases lookup fid _ <;> rfl
    · have hifsc := congrArg (fun c => c.value) (hmirrors.ifscs fid)
      simp only [heldClaim] at hifsc
      rw [hifsc]
      cases lookup fid _ <;> rfl
  · rintro hcomplete bs ids hmain fid hfid ⟨hno, d, hd, d', hd', hne⟩
    have hfed := hscan.mono fun p hp =>
      mem_of_mem_take (i := (Repair.run md5 (some s) events).fed) hp
    refine hmirrors.complete (latched_main md5 hfed s) hcomplete hmain hfid ?_
    rw [walk_descClaim md5 hfed]
    exact open_claim md5 hno hd hd' hne

/-! The sample set of `SetMeaning`, read off disk in the other order. -/

def sampleMainPacket : RawPacket :=
  ⟨sampleMainMd5, List.replicate 16 7, TYPE_MAIN, sampleMain.drop 32, 64⟩

def sampleDescPacket : RawPacket :=
  ⟨sampleDescMd5, List.replicate 16 7, TYPE_FILEDESC, sampleDesc.drop 32, 140⟩

def sampleEvents : List Event :=
  [.scan [sampleDescPacket], .feed, .scan [sampleMainPacket, sampleDescPacket], .feed, .feed]

theorem sample_bytes :
    sampleMainPacket.setId ++ sampleMainPacket.ptype ++ sampleMainPacket.body = sampleMain ∧
    sampleDescPacket.setId ++ sampleDescPacket.ptype ++ sampleDescPacket.body = sampleDesc := by
  decide

theorem sample_sound : sampleMainPacket.Sound sampleMd5 ∧ sampleDescPacket.Sound sampleMd5 := by
  refine ⟨⟨?_, ?_, ?_⟩, ⟨?_, ?_, ?_⟩⟩ <;> decide

theorem replay_reads_parse_sample :
    (Repair.run sampleMd5 (some (List.replicate 16 7)) sampleEvents).replay.main =
      (([sampleMainPacket, sampleDescPacket].foldl (Walk.claim sampleMd5) {}).claims
        (List.replicate 16 7)).main.intoSettled := by
  have hmem : ∀ p ∈ scanned sampleEvents ++ [sampleMainPacket, sampleDescPacket],
      p = sampleMainPacket ∨ p = sampleDescPacket := by
    intro p hp
    simp only [scanned, sampleEvents, flatMap_cons, flatMap_nil, mem_append,
      mem_cons, not_mem_nil, or_false] at hp
    tauto
  refine ((replay_reads_parse sampleMd5 (replicate 16 7) sampleEvents
    [sampleMainPacket, sampleDescPacket] ?_ ?_ ?_).1 (by decide)).1
  · intro p hp
    rcases hmem p hp with rfl | rfl
    · exact sample_sound.1
    · exact sample_sound.2
  · have hne : sampleMd5 sampleMain ≠ sampleMd5 sampleDesc := by decide
    have hbytes : ∀ x ∈ {x | ∃ p ∈ scanned sampleEvents ++ [sampleMainPacket, sampleDescPacket],
        x = p.setId ++ p.ptype ++ p.body}, x = sampleMain ∨ x = sampleDesc := by
      rintro x ⟨p, hp, rfl⟩
      rcases hmem p hp with rfl | rfl
      · exact .inl sample_bytes.1
      · exact .inr sample_bytes.2
    intro x hx y hy h
    rcases hbytes x hx with rfl | rfl <;> rcases hbytes y hy with rfl | rfl
    · rfl
    · exact absurd h hne
    · exact absurd h.symm hne
    · rfl
  · have hiff : ∀ a b c : List UInt8 × List UInt8 × List UInt8, c ∈ [a, b] ↔ c ∈ [b, a, b] := by
      intro a b c
      simp only [mem_cons, not_mem_nil, or_false]
      tauto
    exact hiff sampleMainPacket.content sampleDescPacket.content

end NzbFast.Par2
