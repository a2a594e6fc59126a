import NzbFast.Zip.Central

/-!
# The directory and its end

`Record`: the bytes of one whole record. What the walk returns are the entries
of consecutive records; where the directory is found, they end at the end record
or at a zip64 end record.
-/

namespace NzbFast.Zip

open Wire Source List Option

/-- A central-directory record: 46 bytes, and as many more as they announce. -/
structure Record where
  hdr : List UInt8
  rest : List UInt8
  length_hdr : hdr.length = 46
  sig : hdr.take 4 = CENTRAL_SIG
  length_rest : rest.length = restLen hdr

def Record.bytes (r : Record) : List UInt8 := r.hdr ++ r.rest

def Record.entry (r : Record) (bytes : List UInt8) (base : Nat) : Except ZipError Entry :=
  entryOf (single bytes) false base r.hdr r.rest

theorem Record.length_bytes (r : Record) : r.bytes.length = 46 + restLen r.hdr := by
  rw [bytes, length_append, r.length_hdr, r.length_rest]

/-- `recs` stand one behind the other in `[start, start + size)`. -/
def Occupy (recs : List Record) (bytes : List UInt8) (start size : Nat) : Prop :=
  Stands (recs.flatMap Record.bytes) bytes start ∧ (recs.flatMap Record.bytes).length = size

/-- The last end-of-directory signature with room for an end record. -/
def IsLastEnd (bytes : List UInt8) (p : Nat) : Prop :=
  Stands EOCD_SIG bytes p ∧ p + EOCD_MIN ≤ bytes.length ∧
    ∀ q, p < q → q + EOCD_MIN ≤ bytes.length → ¬ Stands EOCD_SIG bytes q

variable {bytes : List UInt8} {base : Nat}

/-! ## The walk -/

variable {c eocdAt pos : Nat} {es : List Entry} {dir : Directory} {g : Geometry}

theorem parseRecord_ok {next : Nat} {e : Entry}
    (h : parseRecord (single bytes) false base pos = .ok (e, next)) :
    ∃ r : Record, Stands r.bytes bytes pos ∧ next = pos + r.bytes.length ∧
      next ≤ bytes.length ∧ r.entry bytes base = .ok e := by
  obtain ⟨hdr, hh, h⟩ := bind_eq_ok.mp h
  obtain ⟨hlen, hst, -⟩ := stands_of_single_read hh
  split at h
  case isTrue => cases h
  case isFalse hsig =>
  split at h
  case isTrue => cases h
  case isFalse =>
  obtain ⟨rest, hr, h⟩ := bind_eq_ok.mp h
  obtain ⟨hrlen, hrst, hle⟩ := stands_of_single_read hr
  obtain ⟨e', he, h⟩ := bind_eq_ok.mp h
  split at h
  case h_1 => cases h
  case h_2 n hn =>
    cases h
    obtain ⟨hn, -⟩ := checkedAdd_eq_some.mp hn
    refine ⟨⟨hdr, rest, hlen, by simpa using hsig, hrlen⟩, ?_, ?_, ?_, he⟩
    · apply hst.append
      rw [hlen]
      exact hrst
    · rw [Record.length_bytes]
      exact hn.symm
    · omega

theorem parseRecords_ok {count stop : Nat}
    (h : parseRecords (single bytes) false base count pos = .ok (es, stop)) :
    ∃ recs : List Record, recs.length = count ∧ Occupy recs bytes pos (stop - pos) ∧ pos ≤ stop ∧
      (stop ≤ bytes.length ∨ stop = pos) ∧
      List.Forall₂ (fun r e => r.entry bytes base = .ok e) recs es := by
  induction count generalizing pos es with
  | zero =>
    cases h
    exact ⟨[], rfl, ⟨rfl, by simp⟩, le_refl _, Or.inr rfl, .nil⟩
  | succ count ih =>
    obtain ⟨⟨e, next⟩, hrec, h⟩ := bind_eq_ok.mp h
    obtain ⟨⟨es', stop'⟩, hrun, h⟩ := bind_eq_ok.mp h
    cases h
    obtain ⟨r, hst, rfl, hle, he⟩ := parseRecord_ok hrec
    obtain ⟨recs, hcount, ⟨hocc, hsize⟩, hge, hend, hall⟩ := ih hrun
    refine ⟨r :: recs, by rw [length_cons, hcount], ⟨?_, ?_⟩, by omega, Or.inl ?_, .cons he hall⟩
    · rw [flatMap_cons]
      exact hst.append hocc
    · rw [flatMap_cons, length_append, hsize]
      omega
    · rcases hend with hend | rfl
      · exact hend
      · exact hle

/-- What the walk returns are the entries of the records in
`[dir.start, dir.start + dir.size)`. -/
theorem parseCentralDirectory_ok (hm : dir.multiDisk = false)
    (h : parseCentralDirectory (single bytes) dir = .ok es) :
    ∃ recs : List Record, recs.length = dir.count ∧ Occupy recs bytes dir.start dir.size ∧
      (dir.start + dir.size ≤ bytes.length ∨ dir.size = 0) ∧
      List.Forall₂ (fun r e => r.entry bytes dir.base = .ok e) recs es := by
  unfold parseCentralDirectory at h
  rw [hm] at h
  obtain ⟨⟨out, stop⟩, hrun, h⟩ := bind_eq_ok.mp h
  dsimp only at h
  split at h
  case isTrue => cases h
  case isFalse hsize =>
    cases h
    have hsize := checkedSub_eq_some.mp (not_not.mp hsize)
    obtain ⟨recs, hcount, hocc, -, hend, hall⟩ := parseRecords_ok hrun
    rw [show stop - dir.start = dir.size by omega] at hocc
    exact ⟨recs, hcount, hocc, by omega, hall⟩

/-! ## The end record -/

theorem lastEnd_eq_some {buf : List UInt8} (hlen : EOCD_MIN ≤ buf.length) :
    lastEnd buf = some pos ↔ IsLastEnd buf pos := by
  unfold lastEnd IsLastEnd
  rw [find?_reverse_range]
  simp only [decide_eq_true_eq, decide_eq_false_iff_not]
  constructor
  · rintro ⟨hs, hp, hlast⟩
    exact ⟨hs, by omega, fun q hq hq' => hlast q hq (by omega)⟩
  · rintro ⟨hs, hp, hlast⟩
    exact ⟨hs, by omega, fun q hq hq' => hlast q hq (by omega)⟩

theorem IsLastEnd.of_drop {start : Nat} (h : IsLastEnd (bytes.drop start) pos) :
    IsLastEnd bytes (start + pos) := by
  obtain ⟨hs, hle, hlast⟩ := h
  rw [length_drop] at hle hlast
  have hmin : EOCD_MIN = 22 := rfl
  refine ⟨(stands_drop start).mp hs, by omega, fun q hq hq' hst => ?_⟩
  apply hlast (q - start) (by omega) (by omega)
  apply (stands_drop start).mpr
  rwa [show start + (q - start) = q by omega]

/-! ## The anchors -/

theorem z64Start_eq_some {win : List UInt8} {span i : Nat} (h : z64Start win span = some i) :
    Stands Z64_SIG win i := by
  have := find?_some h
  rw [Bool.and_eq_true, decide_eq_true_eq] at this
  exact this.1

theorem physicalZip64Record_stands (h : physicalZip64Record (single bytes) eocdAt = some c) :
    Stands Z64_SIG bytes c := by
  obtain ⟨locatorAt, -, h⟩ := bind_eq_some_iff.mp h
  obtain ⟨span, -, h⟩ := bind_eq_some_iff.mp h
  split at h
  case isTrue => cases h
  case isFalse =>
  split at h
  case h_2 => cases h
  case h_1 win hw =>
    obtain ⟨i, hi, rfl⟩ := map_eq_some_iff.mp h
    obtain ⟨hlen, hst, -⟩ := stands_of_single_read hw
    have hi := z64Start_eq_some hi
    exact hi.within hst

theorem namedZip64Record_stands {cdOff cdSize : Nat}
    (h : namedZip64Record (single bytes) eocdAt cdOff cdSize = some c) :
    Stands Z64_SIG bytes c := by
  have := (filter_eq_some_iff.mp h).2
  rw [Bool.and_eq_true] at this
  exact (single_wears rfl).mp this.2

theorem namesZip64Record_stands (h : namesZip64Record (single bytes) c = true) :
    Stands Z64_SIG bytes c := by
  unfold namesZip64Record at h
  split at h
  case h_2 => cases h
  case h_1 z64 hz =>
    obtain ⟨-, hst, -⟩ := stands_of_single_read hz
    exact Stands.within (i := 0) (beq_iff_eq.mp h) hst

/-- The places where a directory with geometry `g` may end. -/
def Pinned (bytes : List UInt8) (eocdAt : Nat) (p : Nat) : Prop :=
  p = eocdAt ∨ Stands Z64_SIG bytes p

theorem zip64Geometry_pinned {md : Bool} {loc : List UInt8} {cand : Option Nat}
    (hcand : ∀ c, cand = some c → Stands Z64_SIG bytes c)
    (h : zip64Geometry (single bytes) md loc cand = .ok g) :
    Stands Z64_SIG bytes g.anchor ∧ g.z64Anchor = none := by
  unfold zip64Geometry at h
  dsimp only at h
  split at h
  case h_1 => cases h
  case h_2 at' hat =>
    obtain ⟨z64, -, h⟩ := bind_eq_ok.mp h
    cases h
    refine ⟨?_, rfl⟩
    rcases or_eq_some_iff.mp hat with hptr | ⟨-, hc⟩
    · exact namesZip64Record_stands (filter_eq_some_iff.mp hptr).2
    · exact hcand _ hc

theorem geometry_pinned {r : Eocd} (h : geometry (single bytes) r eocdAt = .ok g) :
    Pinned bytes eocdAt g.anchor ∧ ∀ c, g.z64Anchor = some c → Pinned bytes eocdAt c := by
  obtain ⟨loc, -, h⟩ := bind_eq_ok.mp h
  have hcand : ∀ c, (namedZip64Record (single bytes) eocdAt r.cdOff r.cdSize).or
      (physicalZip64Record (single bytes) eocdAt) = some c → Stands Z64_SIG bytes c := by
    intro c hc
    rcases or_eq_some_iff.mp hc with hc | ⟨-, hc⟩
    · exact namedZip64Record_stands hc
    · exact physicalZip64Record_stands hc
  cases loc with
  | some loc =>
    obtain ⟨ha, hn⟩ := zip64Geometry_pinned hcand h
    refine ⟨Or.inr ha, fun c hc => ?_⟩
    rw [hn] at hc
    cases hc
  | none =>
    cases h
    exact ⟨Or.inl rfl, fun c hc => Or.inr (hcand c hc)⟩

/-! ## The base -/

theorem prependedBase_ok {anchor cdOff cdSize : Nat} {parts : Source}
    (h : prependedBase parts anchor cdOff cdSize = .ok base) : cdOff + cdSize + base = anchor := by
  unfold prependedBase at h
  split at h
  case h_1 => cases h
  case h_2 b hb =>
    obtain ⟨ends, hends, hsub⟩ := bind_eq_some_iff.mp (filter_eq_some_iff.mp hb).1
    have hsub := checkedSub_eq_some.mp hsub
    obtain ⟨hends, -⟩ := checkedAdd_eq_some.mp hends
    split at h
    case h_1 => cases h
    case h_2 =>
    split at h
    case h_1 => cases h
    case h_2 =>
    split at h
    case isTrue => cases h
    case isFalse =>
      cases h
      omega

theorem impliedBase_ok {parts : Source} (h : impliedBase parts g = .ok base)
    (hfit : g.cdOff + g.cdSize < 2 ^ 64) :
    g.cdOff + g.cdSize + base = g.anchor ∨
      g.z64Anchor = some (g.cdOff + g.cdSize + base) := by
  have hends : checkedAdd g.cdOff g.cdSize = some (g.cdOff + g.cdSize) :=
    checkedAdd_eq_some.mpr ⟨rfl, hfit⟩
  unfold impliedBase at h
  rw [hends] at h
  dsimp only at h
  split at h
  case isTrue =>
    split at h
    case h_1 cand hc =>
      unfold orElse at h
      split at h
      case h_1 b hb =>
        cases h
        right
        rw [hc, prependedBase_ok hb]
      case h_2 => exact Or.inl (prependedBase_ok h)
    case h_2 => exact Or.inl (prependedBase_ok h)
  case isFalse hne =>
    cases h
    by_cases ha : g.cdOff + g.cdSize = g.anchor
    · exact Or.inl ha
    · right
      by_contra hz
      exact hne ⟨fun e => ha (some.inj e), hz⟩

theorem describe_ok (h : describe (single bytes) false g = .ok dir) :
    dir.multiDisk = false ∧ dir.start ≤ bytes.length ∧ (dir.start + dir.size < 2 ^ 64 →
      dir.start + dir.size = g.anchor ∨ g.z64Anchor = some (dir.start + dir.size)) := by
  unfold describe at h
  split at h
  case isTrue => cases h
  case isFalse =>
  obtain ⟨base, hbase, h⟩ := bind_eq_ok.mp h
  split at h
  case h_1 => cases h
  case h_2 start hstart =>
  cases h
  obtain ⟨off, hoff, hlog⟩ := bind_eq_some_iff.mp hstart
  obtain ⟨hoff, -⟩ := checkedAdd_eq_some.mp hoff
  obtain ⟨rfl, hin⟩ := single_logical.mp hlog
  dsimp only
  refine ⟨rfl, hin, fun hfit => ?_⟩
  obtain ⟨b, hb, hcount⟩ := bind_eq_ok.mp hbase
  split at hcount
  case isTrue => cases hcount
  case isFalse =>
  cases hcount
  rw [show off + g.cdSize = g.cdOff + g.cdSize + base by omega]
  exact impliedBase_ok hb (by omega)

/-- The end record that the scan finds in the window is the container's last. -/
theorem isLastEnd_of_window {window : Nat} {buf : List UInt8} (hw : EOCD_MIN ≤ window)
    (hle : window ≤ bytes.length)
    (hbuf : (single bytes).readExactAt (bytes.length - window) window = .ok buf)
    (hpos : lastEnd buf = some pos) : IsLastEnd bytes (bytes.length - window + pos) := by
  obtain ⟨hlen, hst, -⟩ := stands_of_single_read hbuf
  have hwin : buf = bytes.drop (bytes.length - window) := by
    rw [← hst, take_of_length_le]
    rw [length_drop, hlen]
    omega
  apply IsLastEnd.of_drop
  rw [← hwin]
  exact (lastEnd_eq_some (by omega)).mp hpos

/-- The directory found in a single-disk container ends, its base applied, at the
end record or at a zip64 end record. -/
theorem findCentralDirectory_ok (h : findCentralDirectory (single bytes) = .ok dir) :
    dir.multiDisk = false ∧ dir.start ≤ bytes.length ∧ (dir.start + dir.size < 2 ^ 64 →
      IsLastEnd bytes (dir.start + dir.size) ∨ Stands Z64_SIG bytes (dir.start + dir.size)) := by
  unfold findCentralDirectory at h
  split at h
  case isTrue => cases h
  case isFalse hmin =>
  rw [single_total] at hmin h
  obtain ⟨buf, hbuf, h⟩ := bind_eq_ok.mp h
  split at h
  case h_1 => cases h
  case h_2 pos hpos =>
  have hlast := isLastEnd_of_window (by omega) (min_le_right _ _) hbuf hpos
  dsimp only at h
  split at h
  case isTrue => cases h
  case isFalse hmd =>
  obtain ⟨g, hg, h⟩ := bind_eq_ok.mp h
  rw [show (readEocd (buf.drop pos)).multiDisk = false by simpa using hmd] at h
  obtain ⟨hsingle, hin, hends⟩ := describe_ok h
  obtain ⟨hanchor, hcand⟩ := geometry_pinned hg
  refine ⟨hsingle, hin, fun hfit => ?_⟩
  have hpin : Pinned bytes (bytes.length - min (EOCD_MIN + U16_MAX) bytes.length + pos)
      (dir.start + dir.size) := by
    rcases hends hfit with he | he
    · rw [he]
      exact hanchor
    · exact hcand _ he
  rcases hpin with heq | hz
  · left
    rw [heq]
    exact hlast
  · exact Or.inr hz

/-- What both succeed on: the entries are those of consecutive records, and the
records end at the end record or at a zip64 end record. -/
theorem directory_pinned (hlen : bytes.length < 2 ^ 64)
    (hf : findCentralDirectory (single bytes) = .ok dir)
    (hp : parseCentralDirectory (single bytes) dir = .ok es) :
    ∃ recs : List Record, recs.length = dir.count ∧ Occupy recs bytes dir.start dir.size ∧
      List.Forall₂ (fun r e => r.entry bytes dir.base = .ok e) recs es ∧
      (IsLastEnd bytes (dir.start + dir.size) ∨ Stands Z64_SIG bytes (dir.start + dir.size)) := by
  obtain ⟨hsingle, hin, hends⟩ := findCentralDirectory_ok hf
  obtain ⟨recs, hcount, hocc, hle, hall⟩ := parseCentralDirectory_ok hsingle hp
  exact ⟨recs, hcount, hocc, hall, hends (by omega)⟩

end NzbFast.Zip
