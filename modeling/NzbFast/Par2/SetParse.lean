import NzbFast.Fold.SetFold
import NzbFast.Par2.Packet

/-!
# Reading a recovery set

`Par2Set::parse` (`crates/nzbkit-base/src/par2.rs`): every verified packet of
every input makes its claims on its recovery set; the one set with a Main packet
is then resolved into files. A hash map is a `Fold.Table`, and the order in which
the program iterates one is a parameter (`HashOrder`), since a hasher picks it.
-/

namespace NzbFast.Par2

open Fold NzbFast.Rust

abbrev FileId := List UInt8

/-! ## Claims -/

/-- One field of a set as the packets claim it. -/
structure Claim (T : Type) where
  value : Option T := none
  contradicted : Bool := false

instance {T : Type} : Inhabited (Claim T) := ⟨{}⟩

/-- `Claim::offer`: a repeat is a no-op, a different reading empties the claim for good. -/
def Claim.offer {T : Type} [DecidableEq T] (c : Claim T) (v : T) : Claim T :=
  if c.contradicted then c
  else
    match c.value with
    | none => { c with value := some v }
    | some cur => if cur ≠ v then ⟨none, true⟩ else c

def Claim.intoSettled {T : Type} (c : Claim T) : Option T := c.value

/-- A claim over one file id's descriptors: a descriptor that binds the id outranks one that
only carries it. -/
structure DescClaim where
  inner : Claim Desc := {}
  boundSeen : Bool := false

instance : Inhabited DescClaim := ⟨{}⟩

section Parse

variable (md5 : List UInt8 → List UInt8)

def filedescId (d : Desc) : FileId := md5 (d.md5_16k ++ toLe64 d.length ++ asBytes d.name)

def DescClaim.offerDesc (c : DescClaim) (fid : FileId) (v : Desc) : DescClaim :=
  if filedescId md5 v = fid then
    if !c.boundSeen then { inner := ⟨some v, false⟩, boundSeen := true }
    else { c with inner := c.inner.offer v }
  else if c.boundSeen then c
  else { c with inner := c.inner.offer v }

def DescClaim.intoSettled (c : DescClaim) : Option Desc := c.inner.intoSettled

/-- Everything one recovery set's packets claim. -/
structure SetClaims where
  main : Claim (Nat × List FileId) := {}
  sawMain : Bool := false
  nonRec : Claim (List FileId) := {}
  mentioned : Finset FileId := ∅
  descs : Table FileId DescClaim := ∅
  ifscs : Table FileId (Claim (List BlockCheck)) := ∅
  unis : Table FileId (Claim String) := ∅
  commAscii : Claim String := {}
  commUni : Claim String := {}
  exps : Table Nat Nat := ∅

instance : Inhabited SetClaims := ⟨{}⟩

/-- A Main packet's reading: the union of the ids it names, the geometry and the non-recovery
list. -/
def SetClaims.offerMain (g : SetClaims) (r : Nat × List FileId × List FileId) : SetClaims :=
  { g with
    sawMain := true
    mentioned := g.mentioned ∪ (r.2.1 ++ r.2.2).toFinset
    main := g.main.offer (r.1, r.2.1)
    nonRec := g.nonRec.offer r.2.2 }

def SetClaims.claim (g : SetClaims) (ptype body : List UInt8) : SetClaims :=
  if ptype = TYPE_MAIN then
    match parseMain body with
    | some r => g.offerMain r
    | none => g
  else if ptype = TYPE_FILEDESC then
    match parseFiledesc body with
    | some (fid, desc) => { g with descs := g.descs.step fid default (·.offerDesc md5 fid desc) }
    | none => g
  else if ptype = TYPE_IFSC then
    match parseIfsc body with
    | some (fid, blocks) => { g with ifscs := g.ifscs.step fid default (·.offer blocks) }
    | none => g
  else if ptype = TYPE_UNIFILEN then
    match parseUnifilen body with
    | some (fid, name) => { g with unis := g.unis.step fid default (·.offer name) }
    | none => g
  else if ptype = TYPE_COMMASCI then
    match parseCommAscii body with
    | some c => { g with commAscii := g.commAscii.offer c }
    | none => g
  else if ptype = TYPE_COMMUNI then
    match parseCommUni body with
    | some c => { g with commUni := g.commUni.offer c }
    | none => g
  else if ptype = TYPE_RECVSLIC ∧ 4 ≤ body.length then
    { g with exps := g.exps.step (fromLe (slice body 0 4)) 0 (max · (body.length - 4)) }
  else g

/-- The walk's state: the packet MD5s seen, and the claims of each set. -/
structure Walk where
  seen : Finset (List UInt8) := ∅
  groups : Table FileId SetClaims := ∅

/-- The closure `claim`: a packet whose MD5 was seen is a duplicate. -/
def Walk.claim (w : Walk) (pkt : RawPacket) : Walk :=
  if pkt.md5 ∈ w.seen then w
  else
    { seen := insert pkt.md5 w.seen
      groups := w.groups.step pkt.setId default (·.claim md5 pkt.ptype pkt.body) }

/-- The verified packets of every input, in the order the walk meets them. -/
def verifiedPackets (inputs : List (List UInt8)) : List RawPacket :=
  inputs.flatMap (scanPackets md5)

def walkInputs (inputs : List (List UInt8)) : Walk :=
  (verifiedPackets md5 inputs).foldl (Walk.claim md5) {}

end Parse

/-! ## Resolving the set -/

inductive Par2Error
  | noMainPacket
  | mixedRecoverySets
  | contradictoryPackets
  deriving DecidableEq, Repr

structure Par2File where
  fileId : FileId
  name : String
  length : Nat
  md5 : List UInt8
  md5_16k : List UInt8
  blocks : List BlockCheck
  deriving DecidableEq, Repr

structure Par2Set where
  recoverySetId : FileId
  blockSize : Nat
  files : List Par2File
  nonrecovery : List Par2File
  comment : Option String
  recoveryBlocksSeen : Nat
  deriving DecidableEq, Repr

/-- `BlockCheck::UNPROVEN`. -/
def UNPROVEN : BlockCheck := ⟨List.replicate 16 0, 0⟩

def MAX_IFSC_PAD_SLICES : Nat := 32768

/-- `fit_ifsc`: the checks trimmed or padded to the declared grid. -/
def fitIfsc (blocks : List BlockCheck) (length blockSize : Nat) : List BlockCheck :=
  if blockSize = 0 then []
  else
    let want := (length + blockSize - 1) / blockSize
    if want ≤ blocks.length then blocks.take want
    else if MAX_IFSC_PAD_SLICES < want then []
    else blocks ++ List.replicate (want - blocks.length) UNPROVEN

def sliceFitsBlock (len bs : Nat) : Bool := bs ≤ len

/-- The maps `resolve` takes its entries out of. -/
structure Pending where
  descs : Table FileId DescClaim
  ifscs : Table FileId (Claim (List BlockCheck))
  unis : Table FileId (Claim String)

/-- The closure `resolve`: the file of one id, its entries removed so that an id resolves once. -/
def Pending.resolve (blockSize : Nat) (p : Pending) (fid : FileId) : Option Par2File × Pending :=
  let p' := { p with descs := p.descs.erase fid }
  match (p.descs.lookup fid).bind DescClaim.intoSettled with
  | none => (none, p')
  | some d =>
    let blocks := match (p.ifscs.lookup fid).bind Claim.intoSettled with
      | some b => fitIfsc b d.length blockSize
      | none => []
    let name := ((p.unis.lookup fid).bind Claim.intoSettled).getD d.name
    (some ⟨fid, name, d.length, d.md5, d.md5_16k, blocks⟩,
      { p' with ifscs := p.ifscs.erase fid, unis := p.unis.erase fid })

/-- `ids.into_iter().filter_map(&mut resolve)`. -/
def Pending.resolveAll (blockSize : Nat) : List FileId → Pending → List Par2File × Pending
  | [], p => ([], p)
  | fid :: fids, p =>
    let (f, p) := p.resolve blockSize fid
    let (fs, p) := Pending.resolveAll blockSize fids p
    (f.toList ++ fs, p)

/-- The order of `[u8; 16]`: lexicographic on the byte values. -/
def fileIdLe (a b : FileId) : Bool := a.map UInt8.toNat ≤ b.map UInt8.toNat

/-- The order in which a hash map hands out its keys: every key once. -/
structure HashOrder where
  order : Finset FileId → List FileId
  nodup : ∀ s, (order s).Nodup
  mem : ∀ s k, k ∈ order s ↔ k ∈ s

def SetClaims.resolve (o : HashOrder) (setId : FileId) (g : SetClaims) :
    Except Par2Error Par2Set :=
  match g.main.intoSettled with
  | none => .error .contradictoryPackets
  | some (blockSize, fileIds) =>
    let nonrecoveryIds := g.nonRec.intoSettled.getD []
    let orphanIds := ((o.order g.descs.keys).filter (· ∉ g.mentioned)).mergeSort fileIdLe
    let (files, p) := Pending.resolveAll blockSize fileIds ⟨g.descs, g.ifscs, g.unis⟩
    let (nonrecovery, p) := Pending.resolveAll blockSize nonrecoveryIds p
    let (orphans, _) := Pending.resolveAll blockSize orphanIds p
    .ok
      { recoverySetId := setId
        blockSize
        files
        nonrecovery := nonrecovery ++ orphans
        comment := g.commUni.intoSettled <|> g.commAscii.intoSettled
        recoveryBlocksSeen :=
          (g.exps.keys.filter fun e => sliceFitsBlock ((g.exps.lookup e).getD 0) blockSize).card }

/-- The end of `parse_inner_with`: exactly one set with a Main packet is the set described. -/
def settle (o : HashOrder) (groups : Table FileId SetClaims) : Except Par2Error Par2Set :=
  match (o.order groups.keys).filter fun id => ((groups.lookup id).getD {}).sawMain with
  | [] => .error .noMainPacket
  | [setId] => ((groups.lookup setId).getD {}).resolve o setId
  | _ => .error .mixedRecoverySets

/-- `Par2Set::parse`. -/
def parse (md5 : List UInt8 → List UInt8) (o : HashOrder) (inputs : List (List UInt8)) :
    Except Par2Error Par2Set :=
  settle o (walkInputs md5 inputs).groups

end NzbFast.Par2
