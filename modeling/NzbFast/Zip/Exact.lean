import NzbFast.Zip.ReadBack

/-!
# Directory reading is exact and pinned

What the writer emits behind a prefix and under a comment is found and walked
into the entries that were written, and whatever the reader accepts ends at its
end record.
-/

namespace NzbFast.Zip.Fixtures

open Wire Rust Source List Option

/-- A spec and what of it is stored. -/
structure Member (k : Codecs) where
  spec : Spec
  st : Stored
  made : stored k spec = some st

section Members

variable {k : Codecs}

def locals (ms : List (Member k)) : List UInt8 := ms.flatMap fun m => localHeader m.spec m.st

/-- The directory of `ms`, the first local header at `off`. -/
def centrals : Nat → List (Member k) → List UInt8
  | _, [] => []
  | off, m :: ms => record m.spec m.st off ++ centrals (off + (localHeader m.spec m.st).length) ms

def entries : Nat → List (Member k) → List Entry
  | _, [] => []
  | off, m :: ms => entry m.spec m.st off :: entries (off + (localHeader m.spec m.st).length) ms

/-- What the writer's loop appends. -/
theorem foldlM_addEntry {specs : List Spec} {b b' : Built}
    (h : specs.foldlM (addEntry k) b = some b') :
    ∃ ms : List (Member k), ms.map Member.spec = specs ∧ b'.out = b.out ++ locals ms ∧
      b'.cd = b.cd ++ centrals b.out.length ms := by
  induction specs generalizing b with
  | nil =>
    cases h
    exact ⟨[], rfl, (append_nil _).symm, (append_nil _).symm⟩
  | cons s specs ih =>
    obtain ⟨b₁, hadd, h⟩ := bind_eq_some_iff.mp h
    obtain ⟨st, hst, hadd⟩ := bind_eq_some_iff.mp hadd
    cases hadd
    obtain ⟨ms, hspecs, hout, hcd⟩ := ih h
    refine ⟨⟨s, st, hst⟩ :: ms, by rw [map_cons, hspecs], ?_, ?_⟩
    · rw [hout, append_assoc]
      rfl
    · rw [hcd, append_assoc, length_append]
      rfl

theorem written_eq (off : Nat) (ms : List (Member k)) :
    written k off (ms.map Member.spec) = some (entries off ms) := by
  induction ms generalizing off with
  | nil => rfl
  | cons m ms ih =>
    rw [map_cons, written, m.made, bind_eq_bind, bind_some, ih]
    rfl

/-- An entry whose local header is `n` bytes further on. -/
def shifted (n : Nat) (e : Entry) : Entry := { e with localOffset := e.localOffset + UInt64.ofNat n }

theorem parseRecords_written {bytes : List UInt8} {base off pos : Nat} (ms : List (Member k))
    (hroom : ∀ m ∈ ms, (asBytes m.spec.name).length ≤ MAX_NAME ∧ m.spec.data.length < 2 ^ 64 ∧
      (m.spec.zip64 = false → m.spec.data.length ≤ U32_MAX))
    (hoff : off + (locals ms).length < U32_MAX)
    (hst : Stands (centrals off ms) bytes pos)
    (hle : pos + (centrals off ms).length ≤ bytes.length)
    (hin : off + (locals ms).length + base ≤ bytes.length) (hlen : bytes.length < 2 ^ 64) :
    parseRecords (single bytes) false base ms.length pos =
      .ok ((entries off ms).map (shifted base), pos + (centrals off ms).length) := by
  induction ms generalizing off pos with
  | nil => rfl
  | cons m ms ih =>
    rw [centrals] at hst hle ⊢
    rw [length_append] at hle ⊢
    have hlocals : (locals (m :: ms)).length =
        (localHeader m.spec m.st).length + (locals ms).length := length_append
    have hpayload : m.st.payload.length ≤ (localHeader m.spec m.st).length := by
      rw [localHeader, length_append]
      omega
    obtain ⟨hname, hdata, hreal⟩ := hroom m (.head _)
    have hm : Room m.spec m.st off := ⟨hname, hdata, by omega, hreal, by omega⟩
    have hin' : off + base ≤ bytes.length := by omega
    have hstep := parseRecord_written m.made hm hst.left (by omega) hin' hlen
    have hrest := ih (fun m' hm' => hroom m' (mem_cons_of_mem m hm')) (by omega) hst.right
      (by omega) (by omega)
    refine bind_eq_ok.mpr ⟨_, hstep, bind_eq_ok.mpr ⟨_, hrest, ?_⟩⟩
    rw [entry_add, add_assoc]
    rfl

theorem length_record_le (m : Member k) (off : Nat)
    (hname : (asBytes m.spec.name).length ≤ MAX_NAME) : (record m.spec m.st off).length ≤ 4173 := by
  have hx := length_extra_le m.made
  have hmax : MAX_NAME = 4096 := rfl
  rw [record, length_append, length_centralHeader, centralRest, length_append]
  omega

theorem length_centrals_le (ms : List (Member k)) (off : Nat)
    (hname : ∀ m ∈ ms, (asBytes m.spec.name).length ≤ MAX_NAME) :
    (centrals off ms).length ≤ 4173 * ms.length := by
  induction ms generalizing off with
  | nil => exact Nat.zero_le _
  | cons m ms ih =>
    have hm := length_record_le m off (hname m (.head _))
    have hrest := ih (off + (localHeader m.spec m.st).length)
      (fun m' hm' => hname m' (mem_cons_of_mem m hm'))
    rw [centrals, length_append, length_cons]
    omega

theorem centrals_sig (m : Member k) (ms : List (Member k)) (off : Nat) :
    ∃ rest, centrals off (m :: ms) = CENTRAL_SIG ++ rest := ⟨_, rfl⟩

end Members

/-! ## Finding the directory -/

section Find

variable {bytes : List UInt8} {b : Built} {count : Nat} {stub comment : List UInt8}

theorem length_endRecord : (endRecord count b comment).length = EOCD_MIN := by
  rfl

theorem readEocd_written (hn : count < U16_MAX) (hcd : b.cd.length < U32_MAX)
    (hout : b.out.length < U32_MAX) : readEocd (endRecord count b comment ++ comment) =
      ⟨0, 0, count, count, b.cd.length, b.out.length⟩ := by
  have hfields : endRecord count b comment ++ comment =
      (endFields count b comment ++ [comment]).flatten := by
    rw [flatten_append, flatten_singleton, endRecord]
  have hcount : (UInt16.ofNat count).toNat = count := by
    have hmax : U16_MAX = 65535 := rfl
    exact Nat.mod_eq_of_lt (by omega)
  have h4 : rdU16 ((endFields count b comment ++ [comment]).flatten.drop 4) = 0 :=
    rdU16_field 1 rfl rfl
  have h6 : rdU16 ((endFields count b comment ++ [comment]).flatten.drop 6) = 0 :=
    rdU16_field 2 rfl (by simp [endFields, EOCD_SIG])
  have h8 : rdU16 ((endFields count b comment ++ [comment]).flatten.drop 8) = UInt16.ofNat count :=
    rdU16_field 3 rfl (by simp [endFields, EOCD_SIG])
  have h10 : rdU16 ((endFields count b comment ++ [comment]).flatten.drop 10) =
    UInt16.ofNat count := rdU16_field 4 rfl (by simp [endFields, EOCD_SIG])
  have h12 : rdU32 ((endFields count b comment ++ [comment]).flatten.drop 12) = len32 b.cd :=
    rdU32_field 5 rfl (by simp [endFields, EOCD_SIG])
  have h16 : rdU32 ((endFields count b comment ++ [comment]).flatten.drop 16) = len32 b.out :=
    rdU32_field 6 rfl (by simp [endFields, EOCD_SIG])
  unfold readEocd
  rw [hfields, h4, h6, h8, h10, h12, h16, hcount, len32, len32,
    toNat_ofNat32 hcd.le, toNat_ofNat32 hout.le]
  rfl

theorem lastEnd_window {p : Nat} (hp : IsLastEnd bytes p) {window : Nat}
    (hw : window ≤ bytes.length) (hin : bytes.length - window ≤ p) :
    lastEnd (bytes.drop (bytes.length - window)) = some (p - (bytes.length - window)) := by
  obtain ⟨hst, hle, hlast⟩ := hp
  apply (lastEnd_eq_some (by rw [length_drop]; omega)).mpr
  refine ⟨(stands_drop _).mpr ?_, by rw [length_drop]; omega, fun q hq hq' hsq => ?_⟩
  · rwa [show bytes.length - window + (p - (bytes.length - window)) = p by omega]
  · rw [length_drop] at hq'
    exact hlast _ (by omega) (by omega) ((stands_drop _).mp hsq)

theorem geometry_plain {r : Eocd} {p : Nat} (hz : ∀ q, ¬ Stands Z64_SIG bytes q)
    (hg : r.geometrySentinel = false) (hc : r.countSentinel = false) :
    geometry (single bytes) r p =
      .ok ⟨r.perDisk, r.entries, r.cdSize, r.cdOff, r.cdDisk, p, none⟩ := by
  have hnamed : namedZip64Record (single bytes) p r.cdOff r.cdSize = none := by
    cases h : namedZip64Record (single bytes) p r.cdOff r.cdSize with
    | none => rfl
    | some c => exact absurd (namedZip64Record_stands h) (hz c)
  have hphysical : physicalZip64Record (single bytes) p = none := by
    cases h : physicalZip64Record (single bytes) p with
    | none => rfl
    | some c => exact absurd (physicalZip64Record_stands h) (hz c)
  unfold geometry zip64Locator
  rw [hnamed, hphysical, hg, hc]
  rfl

theorem impliedBase_plain {n stub cdOff cdSize disk : Nat}
    (hfit : stub + cdOff + cdSize < 2 ^ 64)
    (hsig : 0 < stub → Stands CENTRAL_SIG bytes (cdOff + stub)) :
    impliedBase (single bytes) ⟨n, n, cdSize, cdOff, disk, stub + cdOff + cdSize, none⟩ =
      .ok stub := by
  have hends : checkedAdd cdOff cdSize = some (cdOff + cdSize) :=
    checkedAdd_eq_some.mpr ⟨rfl, by omega⟩
  unfold impliedBase
  dsimp only
  rw [hends]
  by_cases hs : stub = 0
  · rw [if_neg (by rintro ⟨h, -⟩; exact h (by rw [hs, zero_add])), hs]
  · have hbase : checkedSub (stub + cdOff + cdSize) (cdOff + cdSize) = some stub :=
      checkedSub_eq_some.mpr (by omega)
    have hcd : checkedAdd cdOff stub = some (cdOff + stub) := checkedAdd_eq_some.mpr ⟨rfl, by omega⟩
    have hst := hsig (by omega)
    have hread := single_read_stands hst (hst.le (by decide))
    rw [show CENTRAL_SIG.length = 4 from rfl] at hread
    rw [if_pos ⟨fun h => hs (by have := some.inj h; omega), by simp⟩]
    unfold prependedBase
    rw [hends, bind_some, hbase, filter_some, if_pos (by simpa using by omega)]
    dsimp only
    rw [hcd]
    dsimp only
    rw [hread]
    exact if_neg (not_not.mpr rfl)

/-- The directory of `count` records that ends where the last end record starts. -/
theorem findCentralDirectory_plain (hn : count < U16_MAX) (hcd : b.cd.length < U32_MAX)
    (hout : b.out.length < U32_MAX) (hcomment : comment.length ≤ U16_MAX)
    (hbytes : bytes = stub ++ (b.out ++ b.cd ++ endRecord count b comment ++ comment))
    (hlen : bytes.length < 2 ^ 64)
    (hend : ∀ q, Stands EOCD_SIG bytes q → q = stub.length + b.out.length + b.cd.length)
    (hz : ∀ q, ¬ Stands Z64_SIG bytes q)
    (hsig : stub ≠ [] → Stands CENTRAL_SIG bytes (b.out.length + stub.length)) :
    findCentralDirectory (single bytes) = .ok
      ⟨b.out.length + stub.length, count, b.cd.length, false, stub.length⟩ := by
  have hmax : U16_MAX = 65535 := rfl
  have htotal : bytes.length =
      stub.length + b.out.length + b.cd.length + EOCD_MIN + comment.length := by
    rw [hbytes]
    simp only [length_append, length_endRecord]
    omega
  have hdrop : bytes.drop (stub.length + b.out.length + b.cd.length) =
      endRecord count b comment ++ comment := by
    have hassoc : bytes = (stub ++ b.out ++ b.cd) ++ (endRecord count b comment ++ comment) := by
      rw [hbytes]
      simp
    rw [hassoc]
    exact drop_left' (by simp only [length_append])
  have hlast : IsLastEnd bytes (stub.length + b.out.length + b.cd.length) := by
    refine ⟨?_, by omega, fun q hq _ hsq => ?_⟩
    · have hhead : Stands EOCD_SIG (bytes.drop (stub.length + b.out.length + b.cd.length)) 0 := by
        rw [hdrop]
        rfl
      have hst := (stands_drop (stub.length + b.out.length + b.cd.length)).mp hhead
      rwa [add_zero] at hst
    · have := hend q hsq
      omega
  have hw : min (EOCD_MIN + U16_MAX) bytes.length ≤ bytes.length := min_le_right _ _
  have hread := single_read_tail hw
  have hscan := lastEnd_window hlast hw (by omega)
  have heocd : (bytes.drop (bytes.length - min (EOCD_MIN + U16_MAX) bytes.length)).drop
      (stub.length + b.out.length + b.cd.length -
        (bytes.length - min (EOCD_MIN + U16_MAX) bytes.length)) =
      endRecord count b comment ++ comment := by
    rw [drop_drop, ← hdrop]
    congr 1
    omega
  have hpos : bytes.length - min (EOCD_MIN + U16_MAX) bytes.length +
      (stub.length + b.out.length + b.cd.length -
        (bytes.length - min (EOCD_MIN + U16_MAX) bytes.length)) =
      stub.length + b.out.length + b.cd.length := by omega
  have hmd : Eocd.multiDisk ⟨0, 0, count, count, b.cd.length, b.out.length⟩ = false := rfl
  have hsentinel : Eocd.geometrySentinel ⟨0, 0, count, count, b.cd.length, b.out.length⟩ = false := by
    simp only [Eocd.geometrySentinel, Bool.or_eq_false_iff, beq_eq_false_iff_ne]
    exact ⟨⟨ne_of_lt hcd, ne_of_lt hout⟩, by decide⟩
  have hcount : Eocd.countSentinel ⟨0, 0, count, count, b.cd.length, b.out.length⟩ = false := by
    simp only [Eocd.countSentinel, Bool.or_eq_false_iff, beq_eq_false_iff_ne]
    exact ⟨ne_of_lt hn, ne_of_lt hn⟩
  have himplied : impliedBase (single bytes) ⟨count, count, b.cd.length, b.out.length, 0,
      stub.length + b.out.length + b.cd.length, none⟩ = .ok stub.length :=
    impliedBase_plain (by omega) (fun h => hsig (ne_nil_of_length_pos h))
  unfold findCentralDirectory
  rw [single_total, if_neg (by omega)]
  refine bind_eq_ok.mpr ⟨_, hread, ?_⟩
  rw [hscan]
  dsimp only
  rw [heocd, hpos, readEocd_written hn hcd hout, hmd, Bool.false_and, if_neg Bool.false_ne_true]
  refine bind_eq_ok.mpr ⟨_, geometry_plain hz hsentinel hcount, ?_⟩
  unfold describe
  rw [if_neg (by show ¬ count > 200000; omega)]
  refine bind_eq_ok.mpr ⟨stub.length, ?_, ?_⟩
  · unfold baseOf directoryBase
    refine bind_eq_ok.mpr ⟨_, himplied, ?_⟩
    rw [if_neg (not_not.mpr rfl)]
  · have hstart : (checkedAdd b.out.length stub.length).bind ((single bytes).logical false 0) =
        some (b.out.length + stub.length) := by
      apply bind_eq_some_iff.mpr
      exact ⟨_, checkedAdd_eq_some.mpr ⟨rfl, by omega⟩, single_logical.mpr ⟨rfl, by omega⟩⟩
    rw [hstart]

end Find

/-- What the format's fields have room for, and the machine's lengths. -/
structure Fits (specs : List Spec) (b : Built) (stub comment : List UInt8) : Prop where
  names : ∀ s ∈ specs, (asBytes s.name).length ≤ MAX_NAME
  count : specs.length < U16_MAX
  /-- A size of 4 GiB or more is written in a zip64 field. -/
  data : ∀ s ∈ specs, s.data.length < 2 ^ 64 ∧ (s.zip64 = false → s.data.length ≤ U32_MAX)
  /-- The directory starts where 32 bits can say. -/
  out : b.out.length < U32_MAX
  archiveComment : comment.length ≤ U16_MAX
  total : stub.length + b.out.length + b.cd.length + EOCD_MIN + comment.length < 2 ^ 64

theorem directory_read_back {k : Codecs} {specs : List Spec} {stub comment bytes : List UInt8}
    {b : Built} (hb : built k specs = some b) (hfits : Fits specs b stub comment)
    (hne : specs ≠ [] ∨ stub = [])
    (hbytes : bytes = stub ++ (b.out ++ b.cd ++ endRecord specs.length b comment ++ comment))
    (hend : ∀ q, Stands EOCD_SIG bytes q → q = stub.length + b.out.length + b.cd.length)
    (hz : ∀ q, ¬ Stands Z64_SIG bytes q) :
    ∃ dir es, findCentralDirectory (single bytes) = .ok dir ∧ written k 0 specs = some es ∧
      parseCentralDirectory (single bytes) dir = .ok (es.map (shifted stub.length)) := by
  obtain ⟨ms, rfl, hout, hcd⟩ := foldlM_addEntry hb
  rw [nil_append] at hout hcd
  rw [length_nil] at hcd
  have hnames : ∀ m ∈ ms, (asBytes m.spec.name).length ≤ MAX_NAME := fun m hm =>
    hfits.names _ (mem_map_of_mem hm)
  have hcount : ms.length < U16_MAX := by
    have := hfits.count
    rwa [length_map] at this
  have hsize : b.cd.length < U32_MAX := by
    have := length_centrals_le ms 0 hnames
    have hmax : U16_MAX = 65535 := rfl
    have hmax32 : U32_MAX = 4294967295 := rfl
    rw [hcd]
    omega
  have hlen : bytes.length < 2 ^ 64 := by
    have := hfits.total
    rw [hbytes]
    simp only [length_append, length_endRecord]
    omega
  have hdir : Stands (centrals 0 ms) bytes (b.out.length + stub.length) := by
    apply stands_of_eq (a := stub ++ b.out)
      (b := endRecord (ms.map Member.spec).length b comment ++ comment)
    · rw [hbytes, hcd]
      simp
    · rw [length_append, add_comm]
  have hfind := findCentralDirectory_plain hfits.count hsize hfits.out hfits.archiveComment hbytes hlen
    hend hz (by
      intro hs
      rcases hne with hne | hs'
      · obtain ⟨m, ms', rfl⟩ := exists_cons_of_ne_nil (mt (congrArg (map Member.spec)) hne)
        obtain ⟨rest, hrest⟩ := centrals_sig m ms' 0
        rw [hrest] at hdir
        exact hdir.left
      · exact absurd hs' hs)
  have hin : 0 + (locals ms).length + stub.length ≤ bytes.length := by
    rw [hbytes, ← hout]
    simp only [length_append]
    omega
  have hstop : b.out.length + stub.length + (centrals 0 ms).length ≤ bytes.length := by
    rw [hbytes, ← hcd]
    simp only [length_append]
    omega
  have hwalk := parseRecords_written ms
    (fun m hm => ⟨hnames m hm, hfits.data _ (mem_map_of_mem hm)⟩)
    (by rw [zero_add, ← hout]; exact hfits.out) hdir hstop hin hlen
  refine ⟨_, _, hfind, written_eq 0 ms, ?_⟩
  unfold parseCentralDirectory
  dsimp only
  rw [length_map]
  refine bind_eq_ok.mpr ⟨_, hwalk, ?_⟩
  have hstop : checkedSub (b.out.length + stub.length + (centrals 0 ms).length)
      (b.out.length + stub.length) = some b.cd.length := by
    apply checkedSub_eq_some.mpr
    rw [hcd, add_comm]
  rw [hstop, if_neg (not_not.mpr rfl)]

/-- Directory reading is exact and pinned: what the writer wrote behind a prefix
is read back, an empty directory behind a prefix apart; and where a directory is
found and walked, its entries are those of consecutive records, which end at the
last end record that has room, or at a zip64 end record. -/
theorem directory_exact_and_pinned :
    (∀ (k : Codecs) (specs : List Spec) (b : Built) (stub comment zip : List UInt8),
      built k specs = some b → zipOfWithComment k specs comment = some zip →
      Fits specs b stub comment → specs ≠ [] ∨ stub = [] →
      (∀ q, Stands EOCD_SIG (stub ++ zip) q → q = stub.length + b.out.length + b.cd.length) →
      (∀ q, ¬ Stands Z64_SIG (stub ++ zip) q) →
      ∃ dir es, findCentralDirectory (single (stub ++ zip)) = .ok dir ∧
        written k 0 specs = some es ∧
        parseCentralDirectory (single (stub ++ zip)) dir = .ok (es.map (shifted stub.length))) ∧
    ∀ (bytes : List UInt8) (dir : Directory) (es : List Entry), bytes.length < 2 ^ 64 →
      findCentralDirectory (single bytes) = .ok dir →
      parseCentralDirectory (single bytes) dir = .ok es →
      ∃ recs : List Record, recs.length = dir.count ∧ Occupy recs bytes dir.start dir.size ∧
        List.Forall₂ (fun r e => r.entry bytes dir.base = .ok e) recs es ∧
        (IsLastEnd bytes (dir.start + dir.size) ∨
          Stands Z64_SIG bytes (dir.start + dir.size)) := by
  constructor
  · intro k specs b stub comment zip hb hzip hfits hne hend hz
    unfold zipOfWithComment at hzip
    rw [hb] at hzip
    cases hzip
    exact directory_read_back hb hfits hne rfl hend hz
  · intro bytes dir es hlen hf hp
    exact directory_pinned hlen hf hp

/-- Codecs that store what they are given. -/
def plain : Codecs where
  deflate := id
  bzip2 := id
  lzma _ b := (0, b)
  zipCrypto _ b := b
  aeDerive _ _ n := ⟨List.replicate n 0, List.replicate n 0, [0, 0]⟩
  aeCtr _ b := b
  aeMac _ _ := List.replicate 10 0

/-- A stored entry `a` of one byte. -/
def one : Spec := ⟨"a", [7], METHOD_STORE, 0, 0, none, false, none, false, none⟩

def oneBuilt : Built := (built plain [one]).getD ⟨[], []⟩

def oneZip : List UInt8 := (zipOfWithComment plain [one] [0x21]).getD []

theorem directory_exact_one :
    (∃ dir es, findCentralDirectory (single ([9] ++ oneZip)) = .ok dir ∧
      written plain 0 [one] = some es ∧
      parseCentralDirectory (single ([9] ++ oneZip)) dir = .ok (es.map (shifted 1))) ∧
    ∃ (es : List Entry) (recs : List Record), recs.length = 1 ∧ Occupy recs oneZip 32 47 ∧
      List.Forall₂ (fun r e => r.entry oneZip 0 = .ok e) recs es ∧
      (IsLastEnd oneZip 79 ∨ Stands Z64_SIG oneZip 79) := by
  have hfits : Fits [one] oneBuilt [9] [0x21] :=
    ⟨by decide, by decide, by decide, by decide, by decide,
      by decide⟩
  have hall : ∀ q, q < 103 →
      (Stands EOCD_SIG ([9] ++ oneZip) q → q = [9].length + oneBuilt.out.length +
        oneBuilt.cd.length) ∧ ¬ Stands Z64_SIG ([9] ++ oneZip) q := by decide
  have hbound : ∀ {sig : List UInt8} {q : Nat}, sig.length = 4 →
      Stands sig ([9] ++ oneZip) q → q < 103 := by
    intro sig q hsig hst
    have hle := hst.le (ne_nil_of_length_pos (by omega))
    have : ([9] ++ oneZip).length = 103 := by decide
    omega
  constructor
  · exact directory_exact_and_pinned.1 plain [one] oneBuilt [9] [0x21] oneZip (by decide)
      (by decide) hfits (.inl (by decide)) (fun q h => (hall q (hbound rfl h)).1 h)
      (fun q h => (hall q (hbound rfl h)).2 h)
  · have hf : findCentralDirectory (single oneZip) = .ok ⟨32, 1, 47, false, 0⟩ := by
      decide
    obtain ⟨es, hp⟩ : ∃ es, parseCentralDirectory (single oneZip) ⟨32, 1, 47, false, 0⟩ = .ok es :=
      ⟨[entry one ⟨[7], 0, 0x4C667A2E, []⟩ 0], by decide⟩
    exact ⟨es, directory_exact_and_pinned.2 oneZip _ es (by decide) hf hp⟩

/-- No end record in the window: a comment that its length field cannot say
pushes it out. -/
theorem findCentralDirectory_none {bytes : List UInt8} (hlen : EOCD_MIN ≤ bytes.length)
    (h : ∀ q, bytes.length - min (EOCD_MIN + U16_MAX) bytes.length ≤ q →
      ¬ Stands EOCD_SIG bytes q) :
    findCentralDirectory (single bytes) =
      .error (.malformed "no end-of-central-directory record") := by
  have hread := single_read_tail (min_le_right (EOCD_MIN + U16_MAX) bytes.length)
  have hscan : lastEnd (bytes.drop (bytes.length - min (EOCD_MIN + U16_MAX) bytes.length)) =
      none := by
    apply find?_eq_none.mpr
    intro q _
    rw [decide_eq_true_eq, stands_drop]
    exact h _ (by omega)
  unfold findCentralDirectory
  rw [single_total, if_neg (not_lt.mpr hlen)]
  dsimp only
  rw [hread]
  dsimp only [bind, Except.bind]
  rw [hscan]

/-- An empty directory under a comment of 65536 zeros is out of the scan's reach. -/
theorem refused_under_long_comment {c : List UInt8} (hlen : c.length = 65536)
    (hzero : ∀ x ∈ c, x = 0) :
    ∃ zip, zipOfWithComment plain [] c = some zip ∧ (∀ q, Stands EOCD_SIG zip q → q = 0) ∧
      (∀ q, ¬ Stands Z64_SIG zip q) ∧ findCentralDirectory (single zip) =
        .error (.malformed "no end-of-central-directory record") := by
  have hrec : endRecord 0 ⟨[], []⟩ c = 0x50 :: 0x4B :: 0x05 :: 0x06 :: replicate 18 0 := by
    have hlen16 : len16 c = 0 := by
      rw [len16, hlen]
      rfl
    unfold endRecord endFields
    rw [hlen16]
    rfl
  have hzip : zipOfWithComment plain [] c =
      some (0x50 :: (0x4B :: 0x05 :: 0x06 :: replicate 18 0) ++ c) := by
    rw [← hrec]
    rfl
  have htotal : (0x50 :: (0x4B :: 0x05 :: 0x06 :: replicate 18 0) ++ c).length = 65558 := by
    simp [hlen]
  -- the first byte of a signature stands nowhere but at the front
  have hfront : ∀ (v : List UInt8) (q : Nat), Stands (0x50 :: v)
      (0x50 :: (0x4B :: 0x05 :: 0x06 :: replicate 18 0) ++ c) q → q = 0 := by
    intro v q hst
    by_contra hq
    have hhead := hst.head
    rw [show q = (q - 1) + 1 by omega, cons_append, getElem?_cons_succ] at hhead
    rcases mem_append.mp (mem_of_getElem? hhead) with hx | hx
    · exact absurd hx (by decide)
    · exact absurd (hzero _ hx) (by decide)
  refine ⟨_, hzip, fun q h => hfront _ q h, fun q hst => ?_, ?_⟩
  · obtain rfl := hfront _ q hst
    have hthird : Stands ([0x50, 0x4B] ++ [0x06, 0x06])
        (0x50 :: (0x4B :: 0x05 :: 0x06 :: replicate 18 0) ++ c) 0 := hst
    have hhead := hthird.right.head
    simp at hhead
  · apply findCentralDirectory_none
    · rw [htotal]
      decide
    · intro q hq hst
      obtain rfl := hfront _ q hst
      rw [htotal] at hq
      exact absurd hq (by decide)

/-- An empty directory behind a prefix is refused; so is an end record under a
comment of 65536 bytes; and an end record under a comment that is a bare signature
is not at the last signature. -/
theorem directory_refused_and_signature_behind :
    (∃ zip, zipOfWithComment plain [] [] = some zip ∧ Fits [] ⟨[], []⟩ [0] [] ∧
      (∀ q, Stands EOCD_SIG ([0] ++ zip) q → q = 1) ∧ (∀ q, ¬ Stands Z64_SIG ([0] ++ zip) q) ∧
      findCentralDirectory (single ([0] ++ zip)) =
        .error (.malformed "the zip does not start at the beginning of the file, and no central directory sits where that implies")) ∧
    (∃ zip, zipOfWithComment plain [] (List.replicate 65536 0) = some zip ∧
      (∀ q, Stands EOCD_SIG zip q → q = 0) ∧ (∀ q, ¬ Stands Z64_SIG zip q) ∧
      findCentralDirectory (single zip) =
        .error (.malformed "no end-of-central-directory record")) ∧
    ∃ zip dir, zipOfWithComment plain [] EOCD_SIG = some zip ∧
      findCentralDirectory (single zip) = .ok dir ∧
      parseCentralDirectory (single zip) dir = .ok [] ∧
      ¬ Stands Z64_SIG zip (dir.start + dir.size) ∧
      ∃ q, dir.start + dir.size < q ∧ Stands EOCD_SIG zip q := by
  refine ⟨?_, ?_, ?_⟩
  · have hall : ∀ q, q < 23 → (Stands EOCD_SIG ([0] ++ endRecord 0 ⟨[], []⟩ []) q → q = 1) ∧
        ¬ Stands Z64_SIG ([0] ++ endRecord 0 ⟨[], []⟩ []) q := by decide
    have hbound : ∀ {sig : List UInt8} {q : Nat}, sig.length = 4 →
        Stands sig ([0] ++ endRecord 0 ⟨[], []⟩ []) q → q < 23 := by
      intro sig q hsig hst
      have hle := hst.le (ne_nil_of_length_pos (by omega))
      have : ([0] ++ endRecord 0 ⟨[], []⟩ []).length = 23 := rfl
      omega
    refine ⟨endRecord 0 ⟨[], []⟩ [], by decide, ?_, fun q h => (hall q (hbound rfl h)).1 h,
      fun q h => (hall q (hbound rfl h)).2 h, by decide⟩
    exact ⟨by simp, by decide, by simp, by decide, by decide, by decide⟩
  · exact refused_under_long_comment length_replicate (fun x hx => eq_of_mem_replicate hx)
  · refine ⟨endRecord 0 ⟨[], []⟩ EOCD_SIG ++ EOCD_SIG, ⟨0, 0, 0, false, 0⟩, ?_⟩
    refine ⟨by decide, by decide, by decide, by decide, 22, ?_⟩
    exact ⟨by decide, by decide⟩

end NzbFast.Zip.Fixtures
