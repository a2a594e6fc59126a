import NzbFast.Par2.Scanned

/-!
# Packets as they are written

`append_packet` and `write_recovery_packet` (`crates/nzbkit-base/src/par2gen/packets.rs`). Both
leave the same bytes: magic, length, the digest of what follows, set id, type and body. The
scan reads them back from any file in which no magic stands between them.
-/

namespace NzbFast.Par2

open List

variable {md5 : List UInt8 → List UInt8}

/-! ## The writers -/

/-- `u32::to_le_bytes`. -/
def toLe32 (n : UInt32) : List UInt8 :=
  (List.range 4).map fun i => UInt8.ofNat (n.toNat / 256 ^ i % 256)

section

variable (md5)

/-- The digest slot is left empty, the body appended, and the digest sealed over the slot. The
length asserted is the declared one. -/
def appendPacket (out setId ptype : List UInt8) (bodyLen : Nat) (body : List UInt8) :
    Option (List UInt8) :=
  let placed := out ++ MAGIC ++ toLe64 (64 + bodyLen) ++ List.replicate 16 0 ++ setId ++ ptype ++ body
  if placed.length = out.length + 64 + bodyLen then
    let digest := md5 (placed.drop (out.length + 32))
    some (placed.take (out.length + 16) ++ digest ++ placed.drop (out.length + 32))
  else none

def recoveryDigest (setId : List UInt8) (exponent : UInt32) (slice : List UInt8) : List UInt8 :=
  md5 (setId ++ TYPE_RECVSLIC ++ toLe32 exponent ++ slice)

def writeRecoveryPacket (out setId : List UInt8) (exponent : UInt32) (slice : List UInt8)
    (sealed : Option (List UInt8)) : List UInt8 :=
  let digest := sealed.getD (recoveryDigest md5 setId exponent slice)
  let header := MAGIC ++ toLe64 (68 + slice.length) ++ digest ++ setId ++ TYPE_RECVSLIC ++
    toLe32 exponent
  out ++ header ++ slice

def packetBytes (setId ptype body : List UInt8) : List UInt8 :=
  MAGIC ++ toLe64 (64 + body.length) ++ md5 (setId ++ ptype ++ body) ++ setId ++ ptype ++ body

end

@[simp] theorem length_MAGIC : MAGIC.length = 8 := rfl

@[simp] theorem length_TYPE_RECVSLIC : TYPE_RECVSLIC.length = 16 := rfl

@[simp] theorem length_toLe64 (n : Nat) : (toLe64 n).length = 8 := by simp [toLe64]

@[simp] theorem length_toLe32 (n : UInt32) : (toLe32 n).length = 4 := by simp [toLe32]

theorem fromLe_toLe64 {n : Nat} (h : n < 2 ^ 64) : fromLe (toLe64 n) = n := by
  simp only [toLe64, range, range.loop, map_cons, map_nil, fromLe,
    UInt8.toNat_ofNat', Nat.reducePow, Nat.mod_mod]
  omega

theorem appendPacket_eq (out : List UInt8) {setId ptype : List UInt8} (body : List UInt8)
    (hs : setId.length = 16) (ht : ptype.length = 16) :
    appendPacket md5 out setId ptype body.length body =
      some (out ++ packetBytes md5 setId ptype body) := by
  set front := out ++ MAGIC ++ toLe64 (64 + body.length) with hfront
  set rest := setId ++ ptype ++ body with hrest
  have hplaced : front ++ replicate 16 0 ++ setId ++ ptype ++ body =
      front ++ (replicate 16 0 ++ rest) := by
    simp only [hrest, append_assoc]
  have hlen : front.length = out.length + 16 := by simp [hfront]
  have htake : (front ++ (replicate 16 0 ++ rest)).take (out.length + 16) = front :=
    take_left' hlen
  have hdrop : (front ++ (replicate 16 0 ++ rest)).drop (out.length + 32) = rest := by
    rw [← append_assoc]
    exact drop_left' (by simp [hlen])
  simp only [appendPacket, ← hfront, hplaced, htake, hdrop]
  rw [if_pos (by simp [hlen, hrest, hs, ht]; omega), packetBytes, hfront]
  simp only [hrest, append_assoc]

theorem writeRecoveryPacket_eq (out setId : List UInt8) (exponent : UInt32) (slice : List UInt8)
    {sealed : Option (List UInt8)} (hsealed : ∀ d ∈ sealed, d = recoveryDigest md5 setId exponent slice) :
    writeRecoveryPacket md5 out setId exponent slice sealed =
      out ++ packetBytes md5 setId TYPE_RECVSLIC (toLe32 exponent ++ slice) := by
  have hdigest : sealed.getD (recoveryDigest md5 setId exponent slice) =
      md5 (setId ++ TYPE_RECVSLIC ++ (toLe32 exponent ++ slice)) := by
    rw [← append_assoc]
    cases sealed with
    | none => rfl
    | some d => exact hsealed d rfl
  have hlen : 64 + (toLe32 exponent ++ slice).length = 68 + slice.length := by
    simp only [length_append, length_toLe32]
    omega
  simp only [writeRecoveryPacket, packetBytes, hdigest, hlen, append_assoc]

/-! ## Packets and what lies between them -/

/-- A packet as one of the two writers is asked for it. -/
inductive Written where
  | appended (setId ptype body : List UInt8)
  | recovery (setId : List UInt8) (exponent : UInt32) (slice : List UInt8)
      (sealed : Option (List UInt8))

namespace Written

def write (md5 : List UInt8 → List UInt8) (out : List UInt8) : Written → Option (List UInt8)
  | appended setId ptype body => appendPacket md5 out setId ptype body.length body
  | recovery setId exponent slice sealed =>
    some (writeRecoveryPacket md5 out setId exponent slice sealed)

def content : Written → List UInt8 × List UInt8 × List UInt8
  | appended setId ptype body => (setId, ptype, body)
  | recovery setId exponent slice _ => (setId, TYPE_RECVSLIC, toLe32 exponent ++ slice)

/-- What the writers are promised: 16-byte fields, a body padded to words, and as a seal prepared
ahead the packet's own digest. -/
structure Ok (md5 : List UInt8 → List UInt8) (w : Written) : Prop where
  setId_length : w.content.1.length = 16
  ptype_length : w.content.2.1.length = 16
  body_length : w.content.2.2.length % 4 = 0
  seal_eq : ∀ setId exponent slice d, w = recovery setId exponent slice (some d) →
    d = recoveryDigest md5 setId exponent slice

def bytes (md5 : List UInt8 → List UInt8) (w : Written) : List UInt8 :=
  packetBytes md5 w.content.1 w.content.2.1 w.content.2.2

theorem Ok.write {w : Written} (h : w.Ok md5) (out : List UInt8) :
    w.write md5 out = some (out ++ w.bytes md5) := by
  cases w with
  | appended setId ptype body => exact appendPacket_eq out body h.setId_length h.ptype_length
  | recovery setId exponent slice sealed =>
    refine congrArg some (writeRecoveryPacket_eq out setId exponent slice fun d hd => ?_)
    cases hd
    exact h.seal_eq _ _ _ d rfl

end Written

/-- A file of packets, each behind bytes of its own, and bytes after the last. -/
def writeLayout (md5 : List UInt8 → List UInt8) :
    List UInt8 → List (List UInt8 × Written) → List UInt8 → Option (List UInt8)
  | out, [], trailer => some (out ++ trailer)
  | out, (gap, w) :: rest, trailer =>
    (w.write md5 (out ++ gap)).bind fun out => writeLayout md5 out rest trailer

/-! ## Reading back -/

/-- A field at the head of what is left, and what is left behind it. -/
theorem slice_next {pre x post input : List UInt8} (hin : input = pre ++ (x ++ post)) :
    slice input pre.length (pre.length + x.length) = x ∧ input = (pre ++ x) ++ post := by
  subst hin
  rw [slice, take_append, take_append, take_of_length_le (by omega),
    take_of_length_le (by omega), drop_left]
  simp

/-- The magic does not overlap itself, so none begins in bytes without one before the next packet. -/
theorem findMagic_gap {gap rest : List UInt8} (h : findMagic gap = none) :
    findMagic (gap ++ (MAGIC ++ rest)) = some gap.length := by
  induction gap with
  | nil =>
    exact if_pos (by simp; rfl)
  | cons b gap ih =>
    rw [findMagic] at h
    split at h
    · cases h
    rename_i hb
    have hgap := Option.map_eq_none_iff.mp h
    rw [cons_append, findMagic, if_neg ?_, ih hgap]
    · simp
    intro hm
    rcases lt_or_ge (b :: gap).length 8 with hshort | hlong
    · -- an overlap of the magic with itself
      have hsplit : (b :: gap) ++ MAGIC.take (8 - (b :: gap).length) = MAGIC := by
        rw [← cons_append, take_append, take_of_length_le hshort.le,
          take_append_of_le_length (by simp only [length_MAGIC]; omega)] at hm
        exact hm
      have htail := congrArg (drop (b :: gap).length) hsplit
      rw [drop_left] at htail
      have hborder : ∀ k < 8, 0 < k → MAGIC.take (8 - k) ≠ MAGIC.drop k := by decide
      exact hborder _ hshort (by simp) htail
    · refine hb ?_
      rwa [← cons_append, take_append_of_le_length hlong] at hm

/-- A sealed packet inside a file is one the scan takes, with the content it was written with. -/
theorem packetAt_packetBytes (hmd5 : ∀ x, (md5 x).length = 16) {setId ptype body : List UInt8}
    (hs : setId.length = 16) (ht : ptype.length = 16) (hb : body.length % 4 = 0)
    {pre post input : List UInt8} (hin : input = pre ++ (packetBytes md5 setId ptype body ++ post))
    (hfit : input.length < 2 ^ 64) :
    PacketAt md5 input pre.length (64 + body.length) ∧
      (rawPacket input pre.length (pre.length + (64 + body.length))).content =
        (setId, ptype, body) := by
  set digest := md5 (setId ++ ptype ++ body) with hdigest
  have hd : digest.length = 16 := hmd5 _
  have hpacket : input = pre ++ (MAGIC ++ (toLe64 (64 + body.length) ++ (digest ++ (setId ++
      (ptype ++ (body ++ post)))))) := by
    rw [hin, packetBytes, ← hdigest]
    simp only [append_assoc]
  -- the fields, each behind those before it
  obtain ⟨hmagic, h1⟩ := slice_next hpacket
  obtain ⟨hsize, h2⟩ := slice_next h1
  obtain ⟨hseal, h3⟩ := slice_next h2
  obtain ⟨hset, h4⟩ := slice_next h3
  obtain ⟨htype, h5⟩ := slice_next h4
  obtain ⟨hbody, h6⟩ := slice_next h5
  have hrest : input = pre ++ MAGIC ++ toLe64 (64 + body.length) ++ digest ++
      (setId ++ ptype ++ body ++ post) := by
    rw [h6]
    simp only [append_assoc]
  have hcovered := (slice_next hrest).1
  have hlen := congrArg length h6
  simp only [length_append, length_MAGIC, length_toLe64, hd, hs, ht, add_assoc,
    Nat.reduceAdd] at hmagic hsize hseal hset htype hbody hcovered hlen
  have hend : pre.length + (32 + (32 + body.length)) = pre.length + (64 + body.length) := by omega
  have hdeclared : fromLe (slice input (pre.length + 8) (pre.length + 16)) = 64 + body.length := by
    rw [hsize, fromLe_toLe64 (by omega)]
  refine ⟨⟨hmagic, ?_, ?_⟩, ?_⟩
  · simp only [validLen, hdeclared]
    rw [if_pos ⟨by simp [HEADER_LEN], by omega, by omega⟩]
  · rw [verified, hseal, decide_eq_true_eq]
    refine congrArg md5 (Eq.trans ?_ hcovered)
    rw [hend]
  · simp only [RawPacket.content, rawPacket, hset, htype, hbody]

def layoutBytes (md5 : List UInt8 → List UInt8) :
    List (List UInt8 × Written) → List UInt8 → List UInt8
  | [], trailer => trailer
  | (gap, w) :: rest, trailer => gap ++ (w.bytes md5 ++ layoutBytes md5 rest trailer)

theorem writeLayout_eq {pieces : List (List UInt8 × Written)} (h : ∀ p ∈ pieces, p.2.Ok md5)
    (out trailer : List UInt8) :
    writeLayout md5 out pieces trailer = some (out ++ layoutBytes md5 pieces trailer) := by
  induction pieces generalizing out with
  | nil => rfl
  | cons p rest ih =>
    rw [writeLayout, (h _ (mem_cons_self ..)).write, Option.bind_some,
      ih fun q hq => h q (mem_cons_of_mem _ hq), layoutBytes]
    simp only [append_assoc]

/-- From the end of one packet the scan reads the rest of the file as it was written. -/
theorem scanSerialFrom_layout (hmd5 : ∀ x, (md5 x).length = 16) {input trailer : List UInt8}
    {budget : Nat} (hfit : input.length < 2 ^ 64) (htrailer : findMagic trailer = none)
    (pieces : List (List UInt8 × Written)) :
    ∀ {pre : List UInt8} {fuel hashed : Nat},
      (∀ p ∈ pieces, findMagic p.1 = none ∧ p.2.Ok md5) →
      input = pre ++ layoutBytes md5 pieces trailer → input.length < fuel + pre.length →
      hashed + (input.length - pre.length) ≤ budget →
      (scanSerialFrom md5 input budget fuel pre.length hashed).1.map RawPacket.content =
        pieces.map fun p => p.2.content := by
  induction pieces with
  | nil =>
    intro pre fuel hashed _ hin _ _
    cases fuel with
    | zero => rfl
    | succ fuel =>
      have hnone : nextMagic input pre.length = none := by
        have hdrop : input.drop pre.length = trailer := by rw [hin, drop_left, layoutBytes]
        rw [nextMagic, hdrop, htrailer]
        split <;> rfl
      simp [scanSerialFrom, hnone]
  | cons p rest ih =>
    intro pre fuel hashed hpieces hin hfuel hbudget
    obtain ⟨gap, w⟩ := p
    obtain ⟨hgap, hw⟩ := hpieces _ (mem_cons_self ..)
    cases fuel with
    | zero =>
      have := congrArg length hin
      simp only [length_append] at this
      omega
    | succ fuel =>
      have hin' : input = (pre ++ gap) ++ (w.bytes md5 ++ layoutBytes md5 rest trailer) := by
        rw [hin, layoutBytes, append_assoc]
      obtain ⟨hat, hcontent⟩ := packetAt_packetBytes hmd5 hw.setId_length hw.ptype_length
        hw.body_length hin' hfit
      set start := (pre ++ gap).length with hstart
      set len := 64 + w.content.2.2.length with hlen
      -- nothing in the gap is taken for a packet
      obtain ⟨x, hx⟩ : ∃ x, w.bytes md5 ++ layoutBytes md5 rest trailer = MAGIC ++ x :=
        ⟨_, by simp only [Written.bytes, packetBytes, append_assoc]; rfl⟩
      have hroom := hat.room
      have hnext : nextMagic input pre.length = some start := by
        have hdrop : input.drop pre.length = gap ++ (MAGIC ++ x) := by
          rw [hin, drop_left, layoutBytes, hx]
        have hsum : pre.length + gap.length = start := (length_append ..).symm
        rw [nextMagic, if_pos (by omega), hdrop, findMagic_gap hgap]
        simp only [hsum, if_neg (show ¬ input.length < start + HEADER_LEN by omega)]
      obtain ⟨-, -, hend⟩ := validLen_spec hat.2.1
      have hpre : pre.length ≤ start := by simp [hstart]
      have hstop : start + len = (pre ++ gap ++ w.bytes md5).length := by
        simp only [Written.bytes, packetBytes, length_append, length_MAGIC, length_toLe64, hmd5,
          hw.setId_length, hw.ptype_length, hstart, hlen, add_assoc, Nat.reduceAdd]
      have hrest : (scanSerialFrom md5 input budget fuel (pre ++ gap ++ w.bytes md5).length
          (hashed + (start + len - (start + 32)))).1.map RawPacket.content =
          rest.map fun p => p.2.content :=
        ih (fun q hq => hpieces q (mem_cons_of_mem _ hq)) (by rw [hin']; simp only [append_assoc])
          (by omega) (by omega)
      rw [← hstop] at hrest
      have hcharge : ¬ budget < hashed + (start + len - (start + 32)) := by omega
      simp only [scanSerialFrom, hnext, hat.2.1, hat.2.2, if_neg hcharge, if_true, map_cons,
        hrest, hcontent]

/-! ## What the scan gives -/

/-- The scan hashes no more than four times its input, or 16 MiB, and ends within as many rounds as the
input has bytes; where the budget lasts it is the greedy reading; and packets of the two writers with
bytes between them that hold no magic come back as they were written. -/
theorem scan_greedy (md5 : List UInt8 → List UInt8) (hmd5 : ∀ x, (md5 x).length = 16)
    (input : List UInt8) :
    ((scanPacketsSerial md5 input).2 ≤ max (4 * input.length) (16 * 1024 * 1024) ∧
      (∀ more, scanSerialFrom md5 input (max (4 * input.length) (16 * 1024 * 1024))
        (input.length + 1 + more) 0 0 = scanPacketsSerial md5 input)) ∧
    (hashDemand md5 input (input.length + 1) 0 ≤ max (4 * input.length) (16 * 1024 * 1024) →
      ∃ spans, Greedy md5 input 0 spans ∧
        (scanPacketsSerial md5 input).1 = spans.map fun s => rawPacket input s.1 s.2) ∧
    ∀ (pieces : List (List UInt8 × Written)) (trailer : List UInt8),
      (∀ p ∈ pieces, findMagic p.1 = none ∧ p.2.Ok md5) → findMagic trailer = none →
      writeLayout md5 [] pieces trailer = some input → input.length < 2 ^ 64 →
      (scanPacketsSerial md5 input).1.map RawPacket.content = pieces.map fun p => p.2.content := by
  refine ⟨⟨scanSerialFrom_hashed _ (Nat.zero_le _), fun more => scanSerialFrom_ends _ (by omega)⟩,
    fun hdemand => scanSerialFrom_greedy _ (by omega) (by omega), ?_⟩
  intro pieces trailer hpieces htrailer hwrite hfit
  rw [writeLayout_eq fun p hp => (hpieces p hp).2] at hwrite
  have hin := (Option.some.inj hwrite).symm
  exact scanSerialFrom_layout hmd5 hfit htrailer pieces hpieces hin (by simp) (by simp; omega)

theorem scan_greedy_two :
    let md5 : List UInt8 → List UInt8 := fun x => replicate 16 (UInt8.ofNat x.length)
    let setId : List UInt8 := replicate 16 7
    let pieces : List (List UInt8 × Written) :=
      [([80, 65], .appended setId TYPE_MAIN [1, 2, 3, 4]), ([], .recovery setId 5 [9, 9, 9, 9] none)]
    (scanPacketsSerial md5 (layoutBytes md5 pieces [80])).1.map RawPacket.content =
      [(setId, TYPE_MAIN, [1, 2, 3, 4]), (setId, TYPE_RECVSLIC, [5, 0, 0, 0, 9, 9, 9, 9])] := by
  intro md5 setId pieces
  have hok : ∀ p ∈ pieces, findMagic p.1 = none ∧ p.2.Ok md5 := by
    intro p hp
    simp only [pieces, mem_cons, not_mem_nil, or_false] at hp
    rcases hp with rfl | rfl
    · exact ⟨by decide, by decide, by decide, by decide, fun _ _ _ _ h => by cases h⟩
    · exact ⟨by decide, by decide, by decide, by decide, fun _ _ _ _ h => by cases h⟩
  have hlen : (layoutBytes md5 pieces [80]).length = 143 := by
    have htype : TYPE_MAIN.length = 16 := rfl
    simp [layoutBytes, pieces, Written.bytes, packetBytes, Written.content, setId, md5, htype]
  exact (scan_greedy md5 (fun _ => length_replicate) _).2.2 pieces [80] hok (by decide)
    (writeLayout_eq (fun p hp => (hok p hp).2) [] [80]) (by rw [hlen]; decide)

end NzbFast.Par2
