import NzbFast.Zip.Fixtures
import NzbFast.Zip.Pinned

/-!
# Reading back what the writer wrote

The walk over the records of a written directory returns the entries that were
written, their local headers as much further on as the prefix is long.
-/

namespace NzbFast.Zip.Fixtures

open Wire Rust Source List

def aesOf (s : Spec) : Option AesSpec :=
  match s.encrypt with
  | some (.ae _ strength vendorVersion) => some ⟨vendorVersion, strength, s.method⟩
  | _ => none

/-- The entry that is written with its local header at `off`. -/
def entry (s : Spec) (st : Stored) (off : Nat) : Entry where
  name := s.name
  method := st.method
  crc32 := st.crc
  compressedSize := len64 st.payload
  uncompressedSize := len64 s.data
  isDir := isDirectory s.name s.external s.data.length st.payload.length
  flags := entryFlags s
  dosTime := 0
  aes := aesOf s
  unixMode := UInt16.ofNat (s.external.toNat >>> 16)
  localOffset := UInt64.ofNat off

/-- The entries of a container, its first local header at `off`. -/
def written (k : Codecs) : Nat → List Spec → Option (List Entry)
  | _, [] => some []
  | off, s :: ss => do
    let st ← stored k s
    let es ← written k (off + (localHeader s st).length) ss
    some (entry s st off :: es)

/-! ## Fields -/

@[simp] theorem rdU16_u16le (v : UInt16) (rest : List UInt8) : rdU16 (u16le v ++ rest) = v := by
  have hv : v.toNat < 256 ^ 2 := v.toNat_lt
  unfold rdU16 u16le
  rw [take_left' (length_leBytes 2 _), leValue_leBytes, Nat.mod_eq_of_lt hv, UInt16.ofNat_toNat]

@[simp] theorem rdU32_u32le (v : UInt32) (rest : List UInt8) : rdU32 (u32le v ++ rest) = v := by
  have hv : v.toNat < 256 ^ 4 := v.toNat_lt
  unfold rdU32 u32le
  rw [take_left' (length_leBytes 4 _), leValue_leBytes, Nat.mod_eq_of_lt hv, UInt32.ofNat_toNat]

@[simp] theorem rdU64_u64le (v : UInt64) (rest : List UInt8) : rdU64 (u64le v ++ rest) = v := by
  have hv : v.toNat < 256 ^ 8 := v.toNat_lt
  unfold rdU64 u64le
  rw [take_left' (length_leBytes 8 _), leValue_leBytes, Nat.mod_eq_of_lt hv, UInt64.ofNat_toNat]

@[simp] theorem length_u16le (v : UInt16) : (u16le v).length = 2 := length_leBytes 2 _

@[simp] theorem length_u32le (v : UInt32) : (u32le v).length = 4 := length_leBytes 4 _

/-- A field read at its place among the others. -/
theorem rdU16_field {fields : List (List UInt8)} (i : Nat) {k : Nat} {v : UInt16}
    (hi : fields[i]? = some (u16le v)) (hk : ((fields.take i).map List.length).sum = k) :
    rdU16 (fields.flatten.drop k) = v := by
  obtain ⟨hlt, hv⟩ := List.getElem?_eq_some_iff.mp hi
  rw [drop_flatten i hk, drop_eq_getElem_cons hlt, hv, flatten_cons, rdU16_u16le]

theorem rdU32_field {fields : List (List UInt8)} (i : Nat) {k : Nat} {v : UInt32}
    (hi : fields[i]? = some (u32le v)) (hk : ((fields.take i).map List.length).sum = k) :
    rdU32 (fields.flatten.drop k) = v := by
  obtain ⟨hlt, hv⟩ := List.getElem?_eq_some_iff.mp hi
  rw [drop_flatten i hk, drop_eq_getElem_cons hlt, hv, flatten_cons, rdU32_u32le]

/-! ## The extra fields -/

theorem walkExtra_nil (n : Nat) (f : Resolved) : walkExtra n [] f = .ok f := by
  cases n <;> rfl

theorem walkExtra_fuel {n m : Nat} {b : List UInt8} (f : Resolved) (hn : b.length ≤ n)
    (hm : b.length ≤ m) : walkExtra n b f = walkExtra m b f := by
  induction n generalizing m b f with
  | zero =>
    rw [eq_nil_of_length_eq_zero (Nat.le_zero.mp hn), walkExtra_nil, walkExtra_nil]
  | succ n ih =>
    cases m with
    | zero => rw [eq_nil_of_length_eq_zero (Nat.le_zero.mp hm), walkExtra_nil, walkExtra_nil]
    | succ m =>
      unfold walkExtra
      split
      case isTrue => rfl
      case isFalse h4 =>
      have hrest : ∀ f, walkExtra n ((b.drop 4).drop (rdU16 (b.drop 2)).toNat) f =
          walkExtra m ((b.drop 4).drop (rdU16 (b.drop 2)).toNat) f := by
        intro f
        apply ih f <;> simp only [length_drop] <;> omega
      simp only [hrest]

def field (tag : UInt16) (b : List UInt8) : List UInt8 := u16le tag ++ u16le (len16 b) ++ b

def walk (b : List UInt8) (f : Resolved) : Except ZipError Resolved := walkExtra b.length b f

/-- The walk over a block whose first field is `b` under `tag`. -/
theorem walk_field {tag : UInt16} {b rest : List UInt8} (f : Resolved) (hb : b.length < 2 ^ 16) :
    walk (field tag b ++ rest) f =
      if tag = 0x9901 ∧ 7 ≤ b.length then walk rest (applyAes f b)
      else if tag = 0x0001 then applyZip64 f b >>= walk rest
      else walk rest f := by
  have htag : rdU16 (field tag b ++ rest) = tag := rdU16_u16le tag _
  have hlen : (rdU16 ((field tag b ++ rest).drop 2)).toNat = b.length := by
    show (rdU16 (u16le (len16 b) ++ (b ++ rest))).toNat = _
    rw [rdU16_u16le]
    exact Nat.mod_eq_of_lt hb
  have hdrop : (field tag b ++ rest).drop 4 = b ++ rest := rfl
  have hsize : (field tag b ++ rest).length = b.length + rest.length + 3 + 1 := by
    show (u16le tag ++ u16le (len16 b) ++ b ++ rest).length = _
    simp only [length_append, u16le, length_leBytes]
    omega
  have hrest : ∀ f, walkExtra (b.length + rest.length + 3) rest f = walk rest f := fun f =>
    walkExtra_fuel f (by omega) le_rfl
  unfold walk
  rw [hsize, walkExtra]
  rw [if_neg (by omega), htag, hlen, hdrop, hsize, if_neg (by omega), take_left,
    drop_left]
  simp only [hrest]
  rfl

theorem applyZip64_sizes {f : Resolved} (u c : UInt64) (hu : f.usize = U32_MAX)
    (hc : f.csize = U32_MAX) (hl : f.localOff ≠ U32_MAX) (hd : f.disk ≠ U16_MAX) :
    applyZip64 f (u64le u ++ u64le c) = .ok { f with usize := u.toNat, csize := c.toNat } := by
  have hone : takeZip64 f.usize (u64le u ++ u64le c) = .ok (u.toNat, u64le c) := by
    unfold takeZip64
    rw [if_pos hu, rdU64_u64le]
    rfl
  have htwo : takeZip64 f.csize (u64le c) = .ok (c.toNat, []) := by
    have := rdU64_u64le c []
    rw [append_nil] at this
    unfold takeZip64
    rw [if_pos hc, this]
    rfl
  have hthree : takeZip64 f.localOff [] = .ok (f.localOff, []) := by
    unfold takeZip64
    rw [if_neg hl]
  refine bind_eq_ok.mpr ⟨_, hone, bind_eq_ok.mpr ⟨_, htwo, bind_eq_ok.mpr ⟨_, hthree, ?_⟩⟩⟩
  dsimp only
  rw [if_neg (fun h => hd h.1)]

theorem applyAes_field (f : Resolved) (strength : UInt8) (vendorVersion method : UInt16) :
    applyAes f (u16le vendorVersion ++ [0x41, 0x45] ++ [strength] ++ u16le method) =
      { f with aes := some ⟨vendorVersion, strength, method⟩ } := by
  have hv : rdU16 (u16le vendorVersion ++ [0x41, 0x45] ++ [strength] ++ u16le method) =
    vendorVersion := rdU16_u16le _ _
  have hm : rdU16 ((u16le vendorVersion ++ [0x41, 0x45] ++ [strength] ++ u16le method).drop 5) =
    method := rdU16_u16le method []
  have hid : ((u16le vendorVersion ++ [0x41, 0x45] ++ [strength] ++ u16le method).drop 2).take 2 =
    [0x41, 0x45] := rfl
  unfold applyAes
  rw [if_pos hid, hv, hm]
  rfl

/-! ## What is stored -/

theorem stored_aeExtra {k : Codecs} {s : Spec} {st : Stored} (h : stored k s = some st) :
    st.aeExtra =
      match aesOf s with
      | some a => aeExtra a.strength a.vendorVersion a.method
      | none => [] := by
  obtain ⟨st', he, h⟩ := Option.bind_eq_some_iff.mp h
  have hst : st.aeExtra = st'.aeExtra := by
    split at h
    case isTrue =>
      obtain ⟨payload, -, h⟩ := Option.bind_eq_some_iff.mp h
      cases h
      rfl
    case isFalse =>
      cases h
      rfl
  rw [hst]
  unfold encrypted at he
  unfold aesOf
  cases hs : s.encrypt with
  | none =>
    rw [hs] at he
    cases he
    rfl
  | some c =>
    rw [hs] at he
    cases c with
    | zipCrypto password =>
      cases he
      rfl
    | ae password strength vendorVersion =>
      obtain ⟨lens, -, rfl⟩ := Option.map_eq_some_iff.mp he
      rfl

/-! ## One record -/

/-- What a member's sizes and offset must leave room for. -/
structure Room (s : Spec) (st : Stored) (off : Nat) : Prop where
  name : (asBytes s.name).length ≤ MAX_NAME
  data : s.data.length < 2 ^ 64
  payload : st.payload.length < U32_MAX
  real : s.zip64 = false → s.data.length ≤ U32_MAX
  off : off < U32_MAX

variable {s : Spec} {st : Stored} {k : Codecs} {off : Nat}

/-- The fields of a record once its extra fields are applied. -/
def resolved (s : Spec) (st : Stored) (off : Nat) : Resolved where
  usize := s.data.length
  csize := st.payload.length
  localOff := off
  disk := 0
  aes := aesOf s

theorem toNat_ofNat32 {n : Nat} (h : n ≤ U32_MAX) : (UInt32.ofNat n).toNat = n := by
  have hmax : U32_MAX = 4294967295 := rfl
  exact Nat.mod_eq_of_lt (by omega)

theorem toNat_len64 {b : List UInt8} (h : b.length < 2 ^ 64) : (len64 b).toNat = b.length := by
  exact Nat.mod_eq_of_lt h

theorem unresolved_centralHeader (lo : UInt32) : unresolved (centralHeader s st lo) =
    { usize := (size32 s s.data).toNat, csize := (size32 s st.payload).toNat
      localOff := lo.toNat, disk := 0, aes := none } := by
  have hu : rdU32 ((centralHeader s st lo).drop 24) = size32 s s.data :=
    rdU32_field 9 rfl (by simp [centralFields, CENTRAL_SIG])
  have hc : rdU32 ((centralHeader s st lo).drop 20) = size32 s st.payload :=
    rdU32_field 8 rfl (by simp [centralFields, CENTRAL_SIG])
  have hl : rdU32 ((centralHeader s st lo).drop 42) = lo :=
    rdU32_field 16 rfl (by simp [centralFields, CENTRAL_SIG])
  have hd : rdU16 ((centralHeader s st lo).drop 34) = 0 :=
    rdU16_field 13 rfl (by simp [centralFields, CENTRAL_SIG])
  unfold unresolved
  rw [hu, hc, hl, hd]
  rfl

theorem length_extra_le (h : stored k s = some st) : (extra s st).length ≤ 31 := by
  have hz : (zip64Extra s st).length ≤ 20 := by
    unfold zip64Extra
    split
    · simp only [length_append, u16le, u64le, length_leBytes]
      omega
    · exact Nat.zero_le _
  have ha : st.aeExtra.length ≤ 11 := by
    rw [stored_aeExtra h]
    split
    · simp only [aeExtra, length_append, u16le, length_leBytes, length_cons, length_nil]
      omega
    · exact Nat.zero_le _
  rw [extra, length_append]
  omega

/-- The extra fields of a written record give it its sizes and its AE parameters. -/
theorem walk_extra (h : stored k s = some st) (hr : Room s st off) :
    walk (extra s st) (unresolved (centralHeader s st (UInt32.ofNat off))) =
      .ok (resolved s st off) := by
  have hoff := toNat_ofNat32 hr.off.le
  -- the AE field comes last, whether or not a zip64 field stands before it
  have hae : ∀ f : Resolved, f.aes = none → walk st.aeExtra f = .ok { f with aes := aesOf s } := by
    intro f hf
    rw [stored_aeExtra h]
    split
    case h_1 a ha =>
      have hfield : aeExtra a.strength a.vendorVersion a.method = field 0x9901
        (u16le a.vendorVersion ++ [0x41, 0x45] ++ [a.strength] ++ u16le a.method) ++ [] := rfl
      have hlen : (u16le a.vendorVersion ++ [0x41, 0x45] ++ [a.strength] ++ u16le a.method).length =
        7 := rfl
      rw [hfield, walk_field f (by rw [hlen]; decide), if_pos ⟨rfl, by rw [hlen]⟩, applyAes_field,
        ha]
      rfl
    case h_2 ha =>
      rw [ha, ← hf]
      rfl
  rw [unresolved_centralHeader, hoff]
  unfold extra zip64Extra size32
  cases hz : s.zip64 with
  | true =>
    have hlen : (u64le (len64 s.data) ++ u64le (len64 st.payload)).length = 16 := rfl
    have hfield : u16le 0x0001 ++ u16le 16 ++ u64le (len64 s.data) ++ u64le (len64 st.payload) =
      field 0x0001 (u64le (len64 s.data) ++ u64le (len64 st.payload)) := rfl
    have hd := toNat_len64 hr.data
    have hp := toNat_len64 (hr.payload.trans (by decide))
    have htag : ¬ ((0x0001 : UInt16) = 0x9901 ∧
      7 ≤ (u64le (len64 s.data) ++ u64le (len64 st.payload)).length) := fun h => absurd h.1 (by decide)
    have hdisk : (0 : Nat) ≠ U16_MAX := by decide
    rw [if_pos rfl, hfield, walk_field _ (by rw [hlen]; decide), if_neg htag, if_pos rfl,
      applyZip64_sizes _ _ rfl rfl hr.off.ne hdisk, hd, hp]
    exact hae _ rfl
  | false =>
    have hd : (len32 s.data).toNat = s.data.length := toNat_ofNat32 (hr.real hz)
    have hp : (len32 st.payload).toNat = st.payload.length :=
      toNat_ofNat32 hr.payload.le
    rw [if_neg (by decide), nil_append, if_neg (by decide), if_neg (by decide), hd, hp]
    exact hae _ rfl

theorem length_centralHeader (lo : UInt32) : (centralHeader s st lo).length = 46 := by
  unfold centralHeader centralFields CENTRAL_SIG
  simp

theorem restLen_centralHeader (h : stored k s = some st) (hn : (asBytes s.name).length ≤ MAX_NAME)
    (lo : UInt32) : nameLen (centralHeader s st lo) = (asBytes s.name).length ∧
      extraLen (centralHeader s st lo) = (extra s st).length ∧
      commentLen (centralHeader s st lo) = 0 := by
  have hname : rdU16 ((centralHeader s st lo).drop 28) = len16 (asBytes s.name) :=
    rdU16_field 10 rfl (by simp [centralFields, CENTRAL_SIG])
  have hextra : rdU16 ((centralHeader s st lo).drop 30) = len16 (extra s st) :=
    rdU16_field 11 rfl (by simp [centralFields, CENTRAL_SIG])
  have hcomment : rdU16 ((centralHeader s st lo).drop 32) = 0 :=
    rdU16_field 12 rfl (by simp [centralFields, CENTRAL_SIG])
  have hle := length_extra_le h
  have hmax : MAX_NAME = 4096 := rfl
  unfold nameLen extraLen commentLen
  rw [hname, hextra, hcomment, len16, len16, UInt16.toNat_ofNat', UInt16.toNat_ofNat',
    Nat.mod_eq_of_lt (by omega), Nat.mod_eq_of_lt (by omega)]
  exact ⟨rfl, rfl, rfl⟩

def record (s : Spec) (st : Stored) (off : Nat) : List UInt8 :=
  centralHeader s st (UInt32.ofNat off) ++ centralRest s st

theorem entry_add (n : Nat) : entry s st (off + n) =
    { entry s st off with localOffset := (entry s st off).localOffset + UInt64.ofNat n } := by
  unfold entry
  rw [UInt64.ofNat_add]

/-- The entry of a written record, in a container that holds its local header. -/
theorem entryOf_written {bytes : List UInt8} {base : Nat} (h : stored k s = some st)
    (hr : Room s st off) (hin : off + base ≤ bytes.length) (hlen : bytes.length < 2 ^ 64) :
    entryOf (single bytes) false base (centralHeader s st (UInt32.ofNat off)) (centralRest s st) =
      .ok (entry s st (off + base)) := by
  obtain ⟨hname, hextra, -⟩ := restLen_centralHeader h hr.name (UInt32.ofNat off)
  have hflags : rdU16 ((centralHeader s st (UInt32.ofNat off)).drop 8) = entryFlags s :=
    rdU16_field 3 rfl (by simp [centralFields, CENTRAL_SIG])
  have hmethod : rdU16 ((centralHeader s st (UInt32.ofNat off)).drop 10) = st.method :=
    rdU16_field 4 rfl (by simp [centralFields, CENTRAL_SIG])
  have htime : rdU16 ((centralHeader s st (UInt32.ofNat off)).drop 12) = 0 :=
    rdU16_field 5 rfl (by simp [centralFields, CENTRAL_SIG])
  have hcrc : rdU32 ((centralHeader s st (UInt32.ofNat off)).drop 16) = st.crc :=
    rdU32_field 7 rfl (by simp [centralFields, CENTRAL_SIG])
  have hext : rdU32 ((centralHeader s st (UInt32.ofNat off)).drop 38) = s.external :=
    rdU32_field 15 rfl (by simp [centralFields, CENTRAL_SIG])
  have hlog : (checkedAdd off base).bind ((single bytes).logical false 0) = some (off + base) := by
    apply Option.bind_eq_some_iff.mpr
    exact ⟨off + base, checkedAdd_eq_some.mpr ⟨rfl, by omega⟩, single_logical.mpr ⟨rfl, hin⟩⟩
  have hdecode : decodeEntryName ((centralRest s st).take (asBytes s.name).length)
      (entryFlags s) = s.name := by
    unfold decodeEntryName centralRest
    rw [take_left, fromUtf8_asBytes]
  refine bind_eq_ok.mpr ⟨resolved s st off, ?_, ?_⟩
  · rw [hname, hextra, centralRest, drop_left, take_length]
    exact walk_extra h hr
  · rw [show (resolved s st off).localOff = off from rfl,
      show (resolved s st off).disk = 0 from rfl, hlog, hname, hflags, hmethod, htime, hcrc, hext,
      hdecode]
    rfl

/-- The walk's step over a written record. -/
theorem parseRecord_written {bytes : List UInt8} {base pos : Nat} (h : stored k s = some st)
    (hr : Room s st off) (hst : Stands (record s st off) bytes pos)
    (hle : pos + (record s st off).length ≤ bytes.length) (hin : off + base ≤ bytes.length)
    (hlen : bytes.length < 2 ^ 64) : parseRecord (single bytes) false base pos =
      .ok (entry s st (off + base), pos + (record s st off).length) := by
  have hhdr : (centralHeader s st (UInt32.ofNat off)).length = 46 := length_centralHeader _
  obtain ⟨hname, hextra, hcomment⟩ := restLen_centralHeader h hr.name (UInt32.ofNat off)
  have hrest : restLen (centralHeader s st (UInt32.ofNat off)) = (centralRest s st).length := by
    rw [restLen, hname, hextra, hcomment, centralRest, length_append, add_zero]
  have hsize : (record s st off).length = 46 + (centralRest s st).length := by
    rw [record, length_append, hhdr]
  have hhead := hst.left
  have hread := single_read_stands hhead (by omega)
  have hbehind : Stands (centralRest s st) bytes (pos + 46) := by
    have := Stands.right hst
    rwa [hhdr] at this
  refine bind_eq_ok.mpr ⟨_, hread, ?_⟩
  have hsig : (centralHeader s st (UInt32.ofNat off)).take 4 = CENTRAL_SIG := rfl
  rw [if_neg (not_not.mpr hsig), hname, if_neg (not_lt.mpr hr.name), hrest]
  refine bind_eq_ok.mpr ⟨_, single_read_stands hbehind (by omega), ?_⟩
  refine bind_eq_ok.mpr ⟨_, entryOf_written h hr hin hlen, ?_⟩
  rw [checkedAdd_eq_some.mpr ⟨rfl, by omega⟩, hsize]

end NzbFast.Zip.Fixtures
