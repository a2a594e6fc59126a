import NzbFast.Par2.Comment
import NzbFast.Par2.Written

/-!
# The critical block

`critical_packets` and `critical_index` (`crates/nzbkit-base/src/par2gen.rs`). The block is a run
of sealed packets with the creator's last; the index is read back out of the block, so it holds
the packets' own spans. Two blocks built over the same names and lengths have one index, whatever
the digests in them.
-/

namespace NzbFast.Par2

open NzbFast.Rust List

def TYPE_CREATOR : List UInt8 := ascii "PAR 2.0\x00Creator\x00"

/-! ## The block -/

/-- `Scanned`, without the change its digest cache owes. -/
structure Scanned where
  namePadded : List UInt8
  fileId : List.Vector UInt8 16
  md5Whole : List.Vector UInt8 16
  md516k : List.Vector UInt8 16
  length : UInt64
  blocks : List (List.Vector UInt8 16 × UInt32)

def mainBody (scanned : List Scanned) (blockSize : UInt64) : List UInt8 :=
  toLe64 blockSize.toNat ++ toLe32 (UInt32.ofNat scanned.length) ++
    scanned.flatMap fun s => s.fileId.toList

def Scanned.descBody (s : Scanned) : List UInt8 :=
  s.fileId.toList ++ s.md5Whole.toList ++ s.md516k.toList ++ toLe64 s.length.toNat ++ s.namePadded

def Scanned.ifscBody (s : Scanned) : List UInt8 :=
  s.fileId.toList ++ s.blocks.flatMap fun b => b.1.toList ++ toLe32 b.2

section

variable (md5 : List UInt8 → List.Vector UInt8 16) (version : String)

def digestBytes (bytes : List UInt8) : List UInt8 := (md5 bytes).toList

def appendComment (setId critical : List UInt8) (comment : Option String) :
    Option (List UInt8) :=
  match comment.map commentPacket with
  | some (ptype, body) => appendPacket (digestBytes md5) critical setId ptype body.length body
  | none => some critical

def appendDesc (setId critical : List UInt8) (s : Scanned) : Option (List UInt8) :=
  appendPacket (digestBytes md5) critical setId TYPE_FILEDESC (56 + s.namePadded.length) s.descBody

/-- A member without bytes has no slices, and gets no packet of them. -/
def appendIfsc (setId critical : List UInt8) (s : Scanned) : Option (List UInt8) :=
  if s.blocks = [] then some critical
  else
    appendPacket (digestBytes md5) critical setId TYPE_IFSC (16 + s.blocks.length * 20) s.ifscBody

/-- `critical_packets`; nothing where a packet's length is not the one declared. -/
def criticalPackets (scanned : List Scanned) (blockSize : UInt64) (comment : Option String) :
    Option (List.Vector UInt8 16 × List UInt8) := do
  let body := mainBody scanned blockSize
  let setId := md5 body
  let append := appendPacket (digestBytes md5)
  let creator := pad4 (asBytes ("nzbfast " ++ version))
  let critical ← append [] setId.toList TYPE_MAIN body.length body
  let critical ← appendComment md5 setId.toList critical comment
  let critical ← scanned.foldlM (appendDesc md5 setId.toList) critical
  let critical ← scanned.foldlM (appendIfsc md5 setId.toList) critical
  let critical ← append critical setId.toList TYPE_CREATOR creator.length creator
  return (setId, critical)

end

/-! ## The index -/

structure CriticalIndex where
  cycle : List (Nat × Nat)
  creator : Nat × Nat
  deriving DecidableEq

/-- The walk over the block's headers: what stands in the cycle, and the creator met last. -/
def walkCritical (critical : List UInt8) (off : Nat) (cycle : List (Nat × Nat))
    (creator : Option (Nat × Nat)) : List (Nat × Nat) × Option (Nat × Nat) :=
  if off + 64 ≤ critical.length then
    let len := fromLe (slice critical (off + 8) (off + 16))
    if slice critical (off + 48) (off + 64) = TYPE_CREATOR then
      walkCritical critical (off + max len 64) cycle (some (off, len))
    else walkCritical critical (off + max len 64) (cycle ++ [(off, len)]) creator
  else (cycle, creator)
termination_by critical.length - off
decreasing_by all_goals omega

def criticalIndex (critical : List UInt8) : Option CriticalIndex :=
  let walked := walkCritical critical 0 [] none
  walked.2.map fun creator => ⟨walked.1, creator⟩

/-! ## The block as packets -/

section

variable (md5 : List UInt8 → List.Vector UInt8 16)

def packetsBytes (setId : List UInt8) (packets : List (List UInt8 × List UInt8)) : List UInt8 :=
  packets.flatMap fun p => packetBytes (digestBytes md5) setId p.1 p.2

def creatorPacket (version : String) : List UInt8 × List UInt8 :=
  (TYPE_CREATOR, pad4 (asBytes ("nzbfast " ++ version)))

end

variable {md5 : List UInt8 → List.Vector UInt8 16}

@[simp] theorem length_digestBytes (bytes : List UInt8) : (digestBytes md5 bytes).length = 16 :=
  (md5 bytes).toList_length

variable {critical ptype setId : List UInt8} {packets : List (List UInt8 × List UInt8)}

@[simp] theorem length_packetBytes (body : List UInt8) (hs : setId.length = 16)
    (ht : ptype.length = 16) :
    (packetBytes (digestBytes md5) setId ptype body).length = 64 + body.length := by
  simp only [packetBytes, length_append, length_MAGIC, length_toLe64, length_digestBytes, hs, ht]

theorem length_descBody (s : Scanned) : s.descBody.length = 56 + s.namePadded.length := by
  simp [Scanned.descBody]
  omega

theorem length_ifscBody (s : Scanned) : s.ifscBody.length = 16 + s.blocks.length * 20 := by
  simp [Scanned.ifscBody, length_flatMap]

theorem length_commentPacket (comment : String) : (commentPacket comment).1.length = 16 := by
  unfold commentPacket
  split <;> rfl

theorem packetsBytes_append (setId : List UInt8) (ps qs : List (List UInt8 × List UInt8)) :
    packetsBytes md5 setId (ps ++ qs) = packetsBytes md5 setId ps ++ packetsBytes md5 setId qs :=
  flatMap_append

/-- Members that append their packets one after another leave them in a row. -/
theorem foldlM_append {f : List UInt8 → Scanned → Option (List UInt8)}
    {packets : Scanned → List (List UInt8 × List UInt8)}
    (hf : ∀ critical s, f critical s = some (critical ++ packetsBytes md5 setId (packets s)))
    (scanned : List Scanned) (critical : List UInt8) :
    scanned.foldlM f critical =
      some (critical ++ packetsBytes md5 setId (scanned.flatMap packets)) := by
  induction scanned generalizing critical with
  | nil => simp [packetsBytes]
  | cons s rest ih =>
    rw [foldlM_cons, hf, flatMap_cons, packetsBytes_append, ← append_assoc]
    exact ih _

theorem append_eq (setId : List.Vector UInt8 16) (critical : List UInt8) (body : List UInt8)
    (ht : ptype.length = 16) :
    appendPacket (digestBytes md5) critical setId.toList ptype body.length body =
      some (critical ++ packetsBytes md5 setId.toList [(ptype, body)]) := by
  rw [appendPacket_eq critical body setId.toList_length ht]
  simp [packetsBytes]

theorem appendComment_eq (setId : List.Vector UInt8 16) (critical : List UInt8)
    (comment : Option String) :
    appendComment md5 setId.toList critical comment =
      some (critical ++ packetsBytes md5 setId.toList (comment.map commentPacket).toList) := by
  cases comment with
  | none => simp [appendComment, packetsBytes]
  | some text => exact append_eq setId critical _ (length_commentPacket text)

theorem appendDesc_eq (setId : List.Vector UInt8 16) (critical : List UInt8) (s : Scanned) :
    appendDesc md5 setId.toList critical s =
      some (critical ++ packetsBytes md5 setId.toList [(TYPE_FILEDESC, s.descBody)]) := by
  rw [appendDesc, ← length_descBody]
  exact append_eq setId critical s.descBody rfl

theorem appendIfsc_eq (setId : List.Vector UInt8 16) (critical : List UInt8) (s : Scanned) :
    appendIfsc md5 setId.toList critical s =
      some (critical ++ packetsBytes md5 setId.toList
        (if s.blocks = [] then [] else [(TYPE_IFSC, s.ifscBody)])) := by
  unfold appendIfsc
  split
  · simp [packetsBytes]
  · rw [← length_ifscBody]
    exact append_eq setId critical s.ifscBody rfl

def cyclePackets (scanned : List Scanned) (blockSize : UInt64) (comment : Option String) :
    List (List UInt8 × List UInt8) :=
  [(TYPE_MAIN, mainBody scanned blockSize)] ++ (comment.map commentPacket).toList ++
    (scanned.flatMap fun s => [(TYPE_FILEDESC, s.descBody)]) ++
    scanned.flatMap fun s => if s.blocks = [] then [] else [(TYPE_IFSC, s.ifscBody)]

theorem criticalPackets_eq (version : String) (scanned : List Scanned) (blockSize : UInt64)
    (comment : Option String) :
    criticalPackets md5 version scanned blockSize comment =
      some (md5 (mainBody scanned blockSize), packetsBytes md5
        (md5 (mainBody scanned blockSize)).toList
        (cyclePackets scanned blockSize comment ++ [creatorPacket version])) := by
  simp only [criticalPackets, append_eq _ _ _ (rfl : TYPE_MAIN.length = 16), appendComment_eq,
    foldlM_append (appendDesc_eq _), foldlM_append (appendIfsc_eq _),
    append_eq _ _ _ (rfl : TYPE_CREATOR.length = 16), Option.bind_eq_bind, Option.bind_some,
    ← packetsBytes_append, cyclePackets, creatorPacket, nil_append]
  rfl

/-! ## Reading the index back -/

/-- Where packets in a row stand, from an offset on. -/
def spans : Nat → List (List UInt8 × List UInt8) → List (Nat × Nat)
  | _, [] => []
  | off, p :: ps => (off, 64 + p.2.length) :: spans (off + (64 + p.2.length)) ps

def spanBytes (packets : List (List UInt8 × List UInt8)) : Nat :=
  (packets.map fun p => 64 + p.2.length).sum

theorem sum_spans (off : Nat) (packets : List (List UInt8 × List UInt8)) :
    ((spans off packets).map Prod.snd).sum = spanBytes packets := by
  induction packets generalizing off with
  | nil => rfl
  | cons p ps ih => simp [spans, spanBytes, ih]

theorem spans_within {off : Nat} :
    ∀ v ∈ spans off packets, v.1 + v.2 ≤ off + spanBytes packets := by
  induction packets generalizing off with
  | nil => simp [spans]
  | cons p ps ih =>
    intro v hv
    have htotal : spanBytes (p :: ps) = 64 + p.2.length + spanBytes ps := by simp [spanBytes]
    rcases mem_cons.mp hv with rfl | hv
    · dsimp only
      omega
    · have := ih v hv
      omega

theorem header_spans {off : Nat} : ∀ v ∈ spans off packets, 64 ≤ v.2 := by
  induction packets generalizing off with
  | nil => simp [spans]
  | cons p ps ih =>
    intro v hv
    rcases mem_cons.mp hv with rfl | hv
    · exact Nat.le_add_right 64 _
    · exact ih v hv

def Typed (packets : List (List UInt8 × List UInt8)) : Prop := ∀ p ∈ packets, p.1.length = 16

theorem length_packetsBytes (hs : setId.length = 16) (ht : Typed packets) :
    (packetsBytes md5 setId packets).length = spanBytes packets := by
  induction packets with
  | nil => rfl
  | cons p ps ih =>
    have hrest := ih fun q hq => ht q (.tail _ hq)
    rw [packetsBytes, flatMap_cons, length_append, length_packetBytes p.2 hs (ht p (.head _))]
    rw [packetsBytes] at hrest
    rw [hrest]
    simp [spanBytes]

theorem walk_header {body pre post : List UInt8} (hs : setId.length = 16) (ht : ptype.length = 16)
    (hin : critical = pre ++ (packetBytes (digestBytes md5) setId ptype body ++ post))
    (hfit : critical.length < 2 ^ 64) :
    pre.length + (64 + body.length) ≤ critical.length ∧
      fromLe (slice critical (pre.length + 8) (pre.length + 16)) = 64 + body.length ∧
      slice critical (pre.length + 48) (pre.length + 64) = ptype := by
  have hlen : pre.length + (64 + body.length) ≤ critical.length := by
    rw [hin, length_append, length_append, length_packetBytes body hs ht]
    omega
  have hpacket : critical = (pre ++ MAGIC) ++ (toLe64 (64 + body.length) ++
      (digestBytes md5 (setId ++ ptype ++ body) ++ setId ++ (ptype ++ (body ++ post)))) := by
    rw [hin, packetBytes]
    simp only [append_assoc]
  obtain ⟨hsize, h1⟩ := slice_next hpacket
  obtain ⟨-, h2⟩ := slice_next h1
  obtain ⟨htype, -⟩ := slice_next h2
  simp only [length_append, length_MAGIC, length_toLe64, length_digestBytes, hs, ht,
    add_assoc, Nat.reduceAdd] at hsize htype
  exact ⟨hlen, by rw [hsize, fromLe_toLe64 (by omega)], htype⟩

theorem walkCritical_packets (hs : setId.length = 16) (ht : Typed packets)
    (hcycle : ∀ p ∈ packets, p.1 ≠ TYPE_CREATOR) {creator : List UInt8} (pre : List UInt8)
    (hin : critical = pre ++ packetsBytes md5 setId (packets ++ [(TYPE_CREATOR, creator)]))
    (hfit : critical.length < 2 ^ 64) (cycle : List (Nat × Nat)) :
    walkCritical critical pre.length cycle none =
      (cycle ++ spans pre.length packets,
        some (pre.length + spanBytes packets, 64 + creator.length)) := by
  induction packets generalizing pre cycle with
  | nil =>
    rw [nil_append, packetsBytes, flatMap_cons, flatMap_nil] at hin
    obtain ⟨hle, hlen, htype⟩ := walk_header hs (show TYPE_CREATOR.length = 16 from rfl) hin hfit
    have htotal : critical.length = pre.length + (64 + creator.length) := by
      rw [hin, length_append, length_append,
        length_packetBytes creator hs (show TYPE_CREATOR.length = 16 from rfl), length_nil,
        add_zero]
    rw [walkCritical, if_pos (by omega)]
    simp only [hlen, htype, if_true]
    rw [walkCritical, if_neg (by omega)]
    simp [spans, spanBytes]
  | cons p ps ih =>
    have hp := ht p (.head _)
    obtain ⟨hle, hlen, htype⟩ := walk_header hs hp hin hfit
    have hnext : (pre ++ packetBytes (digestBytes md5) setId p.1 p.2).length =
        pre.length + (64 + p.2.length) := by
      rw [length_append, length_packetBytes p.2 hs hp]
    have hrest := ih (fun q hq => ht q (.tail _ hq))
      (fun q hq => hcycle q (.tail _ hq)) _
      (hin.trans (append_assoc ..).symm) (cycle ++ [(pre.length, 64 + p.2.length)])
    rw [walkCritical, if_pos (by omega)]
    simp only [hlen, htype, if_neg (hcycle p (.head _)), Nat.max_eq_left (Nat.le_add_right 64 _)]
    rw [← hnext, hrest, hnext]
    have htotal : spanBytes (p :: ps) = 64 + p.2.length + spanBytes ps := by simp [spanBytes]
    simp [spans, htotal, add_assoc]

/-- An index of spans that lie within the block and fill it. -/
structure Indexed (critical : List UInt8) (cidx : CriticalIndex) : Prop where
  index : criticalIndex critical = some cidx
  cycle_ne : cidx.cycle ≠ []
  header : ∀ v ∈ cidx.cycle, 64 ≤ v.2
  within : ∀ v ∈ cidx.creator :: cidx.cycle, v.1 + v.2 ≤ critical.length
  whole : (cidx.cycle.map Prod.snd).sum + cidx.creator.2 = critical.length

theorem packets_indexed (hs : setId.length = 16) (hne : packets ≠ []) (ht : Typed packets)
    (hcycle : ∀ p ∈ packets, p.1 ≠ TYPE_CREATOR) {creator : List UInt8}
    (hin : critical = packetsBytes md5 setId (packets ++ [(TYPE_CREATOR, creator)]))
    (hfit : critical.length < 2 ^ 64) :
    Indexed critical ⟨spans 0 packets, (spanBytes packets, 64 + creator.length)⟩ := by
  have hlen : critical.length = spanBytes packets + (64 + creator.length) := by
    rw [hin, packetsBytes_append, length_append, length_packetsBytes hs ht,
      length_packetsBytes hs (by simp [Typed, TYPE_CREATOR, ascii])]
    simp [spanBytes]
  have hwalk := walkCritical_packets hs ht hcycle []
    (hin.trans (nil_append _).symm) hfit []
  refine ⟨?_, ?_, header_spans, fun v hv => ?_, ?_⟩
  · unfold criticalIndex
    rw [length_nil] at hwalk
    simp [hwalk]
  · obtain ⟨p, ps, rfl⟩ := exists_cons_of_ne_nil hne
    exact cons_ne_nil _ _
  · rcases mem_cons.mp hv with rfl | hv
    · exact hlen.ge
    · have := spans_within v hv
      omega
  · rw [sum_spans, hlen]

/-! ## The block of a set -/

theorem cyclePackets_typed (scanned : List Scanned) (blockSize : UInt64) (comment : Option String) :
    ∀ p ∈ cyclePackets scanned blockSize comment, p.1.length = 16 ∧ p.1 ≠ TYPE_CREATOR := by
  intro p hp
  have hcomment : ∀ text, (commentPacket text).1 ≠ TYPE_CREATOR := by
    intro text
    unfold commentPacket
    split
    · exact show TYPE_COMMASCI ≠ TYPE_CREATOR by decide
    · exact show TYPE_COMMUNI ≠ TYPE_CREATOR by decide
  simp only [cyclePackets, mem_append, mem_flatMap, Option.mem_toList,
    Option.map_eq_some_iff, mem_singleton] at hp
  rcases hp with ((rfl | ⟨text, -, rfl⟩) | ⟨s, -, rfl⟩) | ⟨s, -, hp⟩
  · exact ⟨rfl, show TYPE_MAIN ≠ TYPE_CREATOR by decide⟩
  · exact ⟨length_commentPacket text, hcomment text⟩
  · exact ⟨rfl, show TYPE_FILEDESC ≠ TYPE_CREATOR by decide⟩
  · split at hp
    · cases hp
    · rw [mem_singleton.mp hp]
      exact ⟨rfl, show TYPE_IFSC ≠ TYPE_CREATOR by decide⟩

/-- What the packets of a member take up. -/
def Scanned.shape (s : Scanned) : Nat × Nat := (s.namePadded.length, s.blocks.length)

theorem spanBytes_cyclePackets (scanned : List Scanned) (blockSize : UInt64)
    (comment : Option String) :
    spanBytes (cyclePackets scanned blockSize comment) =
      76 + spanBytes (comment.map commentPacket).toList +
        ((scanned.map Scanned.shape).map fun s =>
          136 + s.1 + if s.2 = 0 then 0 else 80 + s.2 * 20).sum := by
  have hmain : (mainBody scanned blockSize).length = 12 + scanned.length * 16 := by
    simp [mainBody, length_flatMap]
    omega
  have hcost : ∀ members : List Scanned,
      members.length * 16 + spanBytes (members.flatMap fun s => [(TYPE_FILEDESC, s.descBody)]) +
        spanBytes
          (members.flatMap fun s => if s.blocks = [] then [] else [(TYPE_IFSC, s.ifscBody)]) =
      ((members.map Scanned.shape).map fun s =>
        136 + s.1 + if s.2 = 0 then 0 else 80 + s.2 * 20).sum := by
    intro members
    induction members with
    | nil => rfl
    | cons s rest ih =>
      simp only [spanBytes, flatMap_cons, map_append, sum_append, map_cons,
        map_nil, sum_cons, sum_nil, length_descBody, Scanned.shape] at ih ⊢
      rw [← ih]
      by_cases hb : s.blocks = []
      · simp [hb]
        omega
      · simp [hb, length_ifscBody]
        omega
  have hsplit : ∀ ps qs : List (List UInt8 × List UInt8),
      spanBytes (ps ++ qs) = spanBytes ps + spanBytes qs := by
    intro ps qs
    simp [spanBytes]
  rw [cyclePackets, hsplit, hsplit, hsplit, ← hcost]
  simp only [spanBytes, map_cons, map_nil, sum_cons, sum_nil, hmain]
  omega

/-- The length of the block depends on the members' shapes alone. -/
theorem length_criticalPackets {version : String} {scanned : List Scanned} {blockSize : UInt64}
    {comment : Option String} {setId : List.Vector UInt8 16}
    (h : criticalPackets md5 version scanned blockSize comment = some (setId, critical)) :
    critical.length = spanBytes (cyclePackets scanned blockSize comment) +
      (64 + (creatorPacket version).2.length) := by
  rw [criticalPackets_eq] at h
  obtain ⟨-, rfl⟩ := Prod.mk.inj (Option.some.inj h)
  have htyped := cyclePackets_typed scanned blockSize comment
  have hcreator : Typed [creatorPacket version] := by
    intro p hp
    rw [mem_singleton.mp hp]
    rfl
  rw [packetsBytes_append, length_append,
    length_packetsBytes (List.Vector.toList_length _) fun p hp => (htyped p hp).1,
    length_packetsBytes (List.Vector.toList_length _) hcreator]
  simp [spanBytes]

theorem criticalPackets_indexed {version : String} {scanned : List Scanned} {blockSize : UInt64}
    {comment : Option String} {setId : List.Vector UInt8 16}
    (h : criticalPackets md5 version scanned blockSize comment = some (setId, critical))
    (hfit : critical.length < 2 ^ 64) :
    ∃ cidx, Indexed critical cidx ∧ cidx.creator.2 = 64 + (creatorPacket version).2.length := by
  rw [criticalPackets_eq] at h
  obtain ⟨-, hcritical⟩ := Prod.mk.inj (Option.some.inj h)
  have htyped := cyclePackets_typed scanned blockSize comment
  exact ⟨_, packets_indexed (md5 (mainBody scanned blockSize)).toList_length
    (by simp [cyclePackets]) (fun p hp => (htyped p hp).1) (fun p hp => (htyped p hp).2)
    hcritical.symm hfit, rfl⟩

end NzbFast.Par2
