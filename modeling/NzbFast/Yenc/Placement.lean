import NzbFast.Yenc.RoundTrip
import NzbFast.Yenc.SimdAgrees

/-!
# Where an article's bytes go

Which of the numbers an article declares govern its place and its checksum depends on
which lines it has. `Scan.Read` is what the header lines leave of the range, whatever
their order; `Scan.Supports` is what a decoded article may then claim.

* `placePart_ok`: a place that was given, and what it rests on.
* `finish_supports`: the checks after the lines.
* `placement_sound`: every article that decodes, in either decoder.
-/

namespace NzbFast.Yenc

open NzbFast.Rust Scan Option List Bool

namespace Scan

/-- What the header lines left of the range, however often and in whatever order they came. -/
structure Read (s : Scan) : Prop where
  beginAt : s.beginAt = s.beginDecl.getD 1
  beginPos : ∀ b, s.beginDecl = some b → 1 ≤ b
  endPos : ∀ e, s.endDecl = some e → 1 ≤ e
  endAt : s.seenYpart = true → s.endAt = s.endDecl.getD 0
  whole : s.seenYpart = false → s.beginDecl = none ∧ s.endDecl = none ∧
    (s.seenBegin = true → s.endAt = s.fileSize)

variable {s t : Scan} {x : FieldReader} {fields : List UInt8}

theorem read_default : ({} : Scan).Read where
  beginAt := rfl
  beginPos _ h := by cases h
  endPos _ h := by cases h
  endAt h := by cases h
  whole _ := ⟨rfl, rfl, fun h => by cases h⟩

theorem Read.ybegin (h : s.Read) (ht : s.ybegin x fields = .ok t) : t.Read := by
  unfold Scan.ybegin at ht
  split at ht
  · cases ht
  · cases ht
    refine ⟨h.beginAt, h.beginPos, h.endPos, fun hy => ?_, fun hy => ?_⟩
    · exact (if_pos hy).trans (h.endAt hy)
    · obtain ⟨hb, he, -⟩ := h.whole hy
      exact ⟨hb, he, fun _ => if_neg (by simpa using hy)⟩

theorem read_ypart (x : FieldReader) (fields : List UInt8) (s : Scan) : (s.ypart x fields).Read where
  beginAt := rfl
  beginPos b hb := of_decide_eq_true (filter_eq_some_iff.mp hb).2
  endPos e he := of_decide_eq_true (filter_eq_some_iff.mp he).2
  endAt _ := by
    dsimp only [ypart]
    cases x.num fields "end" with
    | none => rfl
    | some e =>
      by_cases he : 1 ≤ e
      · rw [filter_some, if_pos (decide_eq_true he)]
      · rw [filter_some, if_neg (by simpa using he)]
        exact Nat.lt_one_iff.mp (not_le.mp he)
  whole h := by cases h

/-- Nothing but the data and the header's other fields moved. -/
theorem Read.congr (h : s.Read) (hbegin : t.beginAt = s.beginAt) (hend : t.endAt = s.endAt)
    (hbd : t.beginDecl = s.beginDecl) (hed : t.endDecl = s.endDecl) (hy : t.seenYpart = s.seenYpart)
    (hsize : t.fileSize = s.fileSize) (hseen : t.seenBegin = s.seenBegin) : t.Read := by
  constructor
  · rw [hbegin, hbd]
    exact h.beginAt
  · rw [hbd]
    exact h.beginPos
  · rw [hed]
    exact h.endPos
  · rw [hy, hend, hed]
    exact h.endAt
  · rw [hy, hbd, hed, hseen, hend, hsize]
    exact h.whole

theorem Read.yencryption (h : s.Read) (ht : Scan.yencryption fields s = .ok t) : t.Read := by
  unfold Scan.yencryption at ht
  split at ht
  · cases ht
    exact h.congr rfl rfl rfl rfl rfl rfl rfl
  · cases ht

theorem Read.yend (h : s.Read) : (s.yend x fields).Read := h.congr rfl rfl rfl rfl rfl rfl rfl

/-! ## The lines -/

variable {encOk stop : Bool}

theorem ok_of_map_pair {e : Except YencError Scan} {b : Bool} (h : e.map (·, b) = .ok (t, stop)) :
    e = .ok t := by
  cases e with
  | error e => cases h
  | ok u =>
    cases h
    rfl

theorem Read.scanLine (h : s.Read) {line : List UInt8}
    (ht : Yenc.scanLine encOk x line s = .ok (t, stop)) : t.Read := by
  rw [scanLine_kind] at ht
  cases hk : lineKind encOk (content line) with
  | blank =>
    rw [hk] at ht
    cases ht
    exact h
  | ybegin fields =>
    rw [hk] at ht
    exact h.ybegin (ok_of_map_pair ht)
  | ypart fields =>
    rw [hk] at ht
    cases ht
    exact read_ypart x fields s
  | yend fields =>
    rw [hk] at ht
    cases ht
    exact h.yend
  | yencryption fields =>
    rw [hk] at ht
    exact h.yencryption (ok_of_map_pair ht)
  | other =>
    rw [hk] at ht
    dsimp only at ht
    split at ht
    · cases ht
      exact h.congr rfl rfl rfl rfl rfl rfl rfl
    · cases ht
      exact h

theorem Read.scanLines (h : s.Read) {lines : List (List UInt8)}
    (ht : Yenc.scanLines encOk x lines s = .ok t) : t.Read := by
  induction lines generalizing s with
  | nil =>
    cases ht
    exact h
  | cons line lines ih =>
    unfold Yenc.scanLines at ht
    split at ht
    · cases ht
    case _ hline =>
      cases ht
      exact h.scanLine hline
    case _ hline => exact ih (h.scanLine hline) ht

theorem Read.controlLine (h : s.Read) {rest : List UInt8}
    (ht : Yenc.controlLine encOk rest s = .ok (t, stop)) : t.Read := by
  unfold Yenc.controlLine at ht
  split at ht
  · cases ht
    exact h.yend
  split at ht
  · exact h.ybegin (ok_of_map_pair ht)
  split at ht
  · cases ht
    exact read_ypart simdReader _ s
  split at ht
  · exact h.yencryption (ok_of_map_pair ht)
  · cases ht
    exact h.congr rfl rfl rfl rfl rfl rfl rfl

theorem Read.simdLoop (h : s.Read) {lib : RapidYenc} {inBody : Bool} {fuel : Nat}
    {rest : List UInt8} (ht : Yenc.simdLoop lib encOk fuel inBody rest s = .done t) : t.Read := by
  induction fuel generalizing inBody rest s with
  | zero =>
    cases rest with
    | nil =>
      cases ht
      exact h
    | cons b bs => cases ht
  | succ fuel ih =>
    cases rest with
    | nil =>
      cases ht
      exact h
    | cons b bs =>
      cases inBody with
      | false =>
        rw [simdLoop_line lib encOk fuel (cons_ne_nil b bs)] at ht
        cases hk : lineKind encOk (unstuff (lineAt (b :: bs))) with
        | blank =>
          rw [hk] at ht
          exact ih h ht
        | ybegin fields =>
          rw [hk] at ht
          dsimp only at ht
          split at ht
          · cases ht
          case _ hu => exact ih (h.ybegin hu) ht
        | ypart fields =>
          rw [hk] at ht
          exact ih (read_ypart simdReader fields s) ht
        | yend fields =>
          rw [hk] at ht
          cases ht
          exact h.yend
        | yencryption fields =>
          rw [hk] at ht
          dsimp only at ht
          split at ht
          · cases ht
          case _ hu => exact ih (h.yencryption hu) ht
        | other =>
          rw [hk] at ht
          dsimp only at ht
          split at ht
          · refine ih (h.congr ?_ ?_ ?_ ?_ ?_ ?_ ?_) ht <;> rfl
          · exact ih h ht
      | true =>
        -- A pass of the vendored decoder adds payload only.
        have hpass : Read { s with data := s.data ++ (lib.decodeIncremental (b :: bs)).written } :=
          h.congr rfl rfl rfl rfl rfl rfl rfl
        unfold Yenc.simdLoop at ht
        dsimp only at ht
        split at ht
        · cases ht
        split at ht
        · split at ht
          · cases ht
          split at ht
          · cases ht
          case _ hline =>
            cases ht
            exact hpass.controlLine hline
          case _ hline => exact ih (hpass.controlLine hline) ht
        · cases ht
          exact hpass
        · cases ht

end Scan

/-! ## The place -/

theorem ranged_of_waived {t : Trailer} {d : Declared} (h : (trailerGates t d).lenWaived = true) :
    0 < d.endAt := by
  unfold trailerGates at h
  rw [and_eq_true] at h
  cases hsize : t.size with
  | none =>
    rw [hsize] at h
    cases h.1
  | some n =>
    rw [hsize] at h
    dsimp only at h
    split at h
    case isTrue hw =>
      simp only [and_eq_true, decide_eq_true_eq] at hw
      exact hw.1.1.1.2.2
    case isFalse => cases h.2

/-- The CRC that decides, or may at least vouch. -/
theorem governing_eq (t : Trailer) (d : Declared) :
    ((trailerGates t d).crc <|> (trailerGates t d).crcAdvisory) = (t.pcrc32 <|> t.crc32) := by
  unfold trailerGates
  cases t.pcrc32 with
  | some p => rfl
  | none =>
    cases t.crc32 with
    | none => rfl
    | some c =>
      dsimp only
      split
      · rfl
      · rfl

/-- A place that was given to data, and what it rests on. -/
structure Rests (s : Scan) (p : Placed) : Prop where
  pos : 1 ≤ p.beginAt
  le : p.beginAt ≤ p.endAt
  length : p.endAt - p.beginAt + 1 = s.data.length
  vouched : p.vouched = true → s.beginDecl.getD 1 = p.beginAt ∧ s.endDecl = some p.endAt
  later : pastFirst s.part = true → s.beginDecl = some p.beginAt ∨ s.endDecl = some p.endAt ∨
    (s.beginDecl = some p.endAt ∧ s.endDecl = some p.beginAt)

variable {p : Placed} {s : Scan} {encOk strict : Bool} {d : Decoded} {body : List UInt8}

theorem placePart_unranged (hdata : s.data ≠ []) (hy : s.seenYpart = false)
    (hp : placePart s.declared strict = .ok p) :
    pastFirst s.part = false ∧ p = ⟨s.beginAt, s.endAt, true⟩ := by
  have hlen : 0 < s.data.length := length_pos_iff.mpr hdata
  unfold placePart declared at hp
  rw [hy, Bool.not_false, if_pos rfl] at hp
  split at hp
  · cases hp
  case isFalse hfirst =>
    cases hp
    rw [and_eq_true, not_and_or, decide_eq_true_eq] at hfirst
    exact ⟨by simpa using hfirst.resolve_right (not_not_intro hlen), rfl⟩

theorem placePart_ranged (h : s.Read) (hdata : s.data ≠ []) (hy : s.seenYpart = true)
    (hstrict : strict = true → 0 < s.endAt) (hp : placePart s.declared strict = .ok p) :
    Rests s p := by
  have hlen : 0 < s.data.length := length_pos_iff.mpr hdata
  have hbegin : 1 ≤ s.beginDecl.getD 1 := by
    cases hb : s.beginDecl with
    | none => exact le_refl 1
    | some b => exact h.beginPos b hb
  unfold placePart declared at hp
  dsimp only at hp
  rw [hy, if_neg (by decide)] at hp
  split at hp
  case isTrue hchecked =>
    -- The range as declared, an absent `begin=` read as 1.
    rw [or_eq_true, decide_eq_true_eq] at hchecked
    have hend := hstrict (hchecked.resolve_right (by omega))
    have hdecl : s.endDecl = some s.endAt := by
      have he := h.endAt hy
      cases hed : s.endDecl with
      | none =>
        rw [hed] at he
        exact absurd he (by simpa using ne_of_gt hend)
      | some e =>
        rw [hed] at he
        rw [he]
        rfl
    unfold checkPartGeometry at hp
    rw [if_neg (by decide), if_neg (by omega)] at hp
    split at hp
    · cases hp
    case isFalse hfits =>
      cases hp
      obtain ⟨hle, hcount⟩ := not_or.mp hfits
      exact ⟨h.beginAt ▸ hbegin, not_lt.mp hle, not_not.mp hcount,
        fun _ => ⟨h.beginAt.symm, hdecl⟩, fun _ => .inr (.inl hdecl)⟩
  case isFalse =>
    cases hb : s.beginDecl with
    | none =>
      cases he : s.endDecl with
      | none =>
        rw [hb, he] at hp
        dsimp only at hp
        split at hp
        · cases hp
        case isFalse hfirst =>
          cases hp
          exact ⟨le_refl 1, hlen, by dsimp only; omega, nofun, fun hpast => absurd hpast hfirst⟩
      | some e =>
        rw [hb, he] at hp
        dsimp only at hp
        split at hp
        · cases hp
          exact ⟨by dsimp only; omega, by dsimp only; omega, by dsimp only; omega, nofun,
            fun _ => .inr (.inl he)⟩
        · cases hp
    | some b =>
      have hpos := h.beginPos b hb
      cases he : s.endDecl with
      | none =>
        rw [hb, he] at hp
        dsimp only at hp
        split at hp
        · cases hp
          exact ⟨hpos, by dsimp only; omega, by dsimp only; omega, nofun, fun _ => .inl hb⟩
        · cases hp
      | some e =>
        have hepos := h.endPos e he
        rw [hb, he] at hp
        dsimp only at hp
        split at hp
        case isTrue hfits =>
          cases hp
          exact ⟨hpos, hfits.1, hfits.2, fun _ => ⟨by rw [hb]; rfl, he⟩, fun _ => .inl hb⟩
        case isFalse =>
          split at hp
          case isTrue hswapped =>
            cases hp
            exact ⟨hepos, le_of_lt hswapped.1, hswapped.2, nofun, fun _ => .inr (.inr ⟨hb, he⟩)⟩
          · cases hp

/-! ## The verdict -/

/-- What an article that decoded may claim, on the strength of what was read of it. -/
structure Scan.Supports (s : Scan) (d : Decoded) (crcChecked : Bool) : Prop where
  data : d.data = s.data
  part : d.part = declaredPart s.part
  fileSize : d.fileSize = s.fileSize
  /-- With an `=ypart` line the range holds exactly the data. -/
  ranged : s.seenYpart = true → d.data ≠ [] →
    1 ≤ d.beginAt ∧ d.beginAt ≤ d.endAt ∧ d.endAt - d.beginAt + 1 = d.data.length
  /-- A later part has its place from a range it declared. -/
  later : ∀ p, d.part = some p → 2 ≤ p → d.data ≠ [] → s.seenYpart = true ∧
    (s.beginDecl = some d.beginAt ∨ s.endDecl = some d.endAt ∨
      (s.beginDecl = some d.endAt ∧ s.endDecl = some d.beginAt))
  /-- The checksum that governs is the data's, and the range is one the article vouched for. -/
  crc : crcChecked = true → (s.trailer.pcrc32 <|> s.trailer.crc32) = some (Wire.crc32 d.data) ∧
    placePart s.declared (trailerGates s.trailer s.declared).lenWaived =
      .ok ⟨d.beginAt, d.endAt, true⟩ ∧
    (s.seenYpart = true → d.data ≠ [] →
      s.beginDecl.getD 1 = d.beginAt ∧ s.endDecl = some d.endAt)
  /-- Without a `=yend` line the declared range holds exactly the data. -/
  trailerless : s.seenYend = false → d.data ≠ [] ∧
    d.endAt - d.beginAt + 1 = d.data.length ∧
    (s.seenYpart = true → s.beginDecl = some d.beginAt ∧ s.endDecl = some d.endAt) ∧
    (s.seenYpart = false → d.beginAt = 1 ∧ d.endAt = d.fileSize)

theorem placePart_exact (h : s.Read) (hy : s.seenYpart = true) {b e : Nat}
    (hb : s.beginDecl = some b) (he : s.endDecl = some e) (hle : b ≤ e)
    (hcount : e - b + 1 = s.data.length) (hp : placePart s.declared strict = .ok p) :
    p = ⟨b, e, true⟩ := by
  have hbegin : s.beginAt = b := by rw [h.beginAt, hb, getD_some]
  have hend : s.endAt = e := by rw [h.endAt hy, he, getD_some]
  unfold placePart declared at hp
  dsimp only at hp
  rw [hy, if_neg (by decide), hb, he, hbegin, hend] at hp
  dsimp only at hp
  split at hp
  · have hchecked : checkPartGeometry true b e s.data.length = .ok () := by
      have := h.beginPos b hb
      unfold checkPartGeometry
      rw [if_neg (by decide), if_neg (by omega), if_neg (by omega)]
    rw [hchecked] at hp
    cases hp
    rfl
  · rw [if_pos ⟨hle, hcount⟩] at hp
    cases hp
    rfl

/-- A place that was given and a checksum that agrees. -/
theorem supports_decodedAt {s : Scan} (h : s.Read) (hbegin : s.seenBegin = true)
    (hend : s.seenYend = true ∨ trailerlessComplete s.declared = true) {p : Placed}
    (hp : placePart s.declared (trailerGates s.trailer s.declared).lenWaived = .ok p)
    {crcChecked : Bool} (hcrc : crcChecked = true → p.vouched = true ∧
      (s.trailer.pcrc32 <|> s.trailer.crc32) = some (Wire.crc32 s.data)) :
    s.Supports (s.decodedAt p.beginAt p.endAt) crcChecked := by
  have hrests : s.seenYpart = true → s.data ≠ [] → Rests s p := fun hy hdata =>
    placePart_ranged h hdata hy ranged_of_waived hp
  refine ⟨rfl, rfl, rfl, fun hy hdata => ?_, fun q hq hlater hdata => ?_, fun hc => ?_, fun hno => ?_⟩
  · have hr := hrests hy hdata
    exact ⟨hr.pos, hr.le, hr.length⟩
  · have hpast : pastFirst s.part = true := by
      unfold pastFirst
      rw [show declaredPart s.part = some q from hq]
      exact decide_eq_true hlater
    cases hy : s.seenYpart with
    | true => exact ⟨rfl, (hrests hy hdata).later hpast⟩
    | false =>
      have := (placePart_unranged hdata hy hp).1
      rw [hpast] at this
      cases this
  · obtain ⟨hv, hgoverns⟩ := hcrc hc
    exact ⟨hgoverns, by rw [hp, ← hv]; rfl, fun hy hdata => (hrests hy hdata).vouched hv⟩
  · have hcomplete := hend.resolve_left (by rw [hno]; decide)
    unfold trailerlessComplete declared at hcomplete
    dsimp only at hcomplete
    split at hcomplete
    · cases hcomplete
    case isFalse hlen =>
      have hdata : s.data ≠ [] := fun hnil => hlen (congrArg length hnil)
      cases hy : s.seenYpart with
      | true =>
        rw [hy, if_pos rfl] at hcomplete
        cases hb : s.beginDecl with
        | none =>
          rw [hb] at hcomplete
          cases hcomplete
        | some b =>
          cases he : s.endDecl with
          | none =>
            rw [hb, he] at hcomplete
            cases hcomplete
          | some e =>
            rw [hb, he] at hcomplete
            rw [and_eq_true, decide_eq_true_eq, decide_eq_true_eq] at hcomplete
            have hplace := placePart_exact h hy hb he hcomplete.1 hcomplete.2 hp
            subst hplace
            exact ⟨hdata, hcomplete.2, fun _ => ⟨rfl, rfl⟩, nofun⟩
      | false =>
        rw [hy, if_neg (by decide), and_eq_true, decide_eq_true_eq] at hcomplete
        obtain ⟨-, hplace⟩ := placePart_unranged hdata hy hp
        obtain ⟨hbd, -, hsize⟩ := h.whole hy
        have hone : s.beginAt = 1 := by rw [h.beginAt, hbd, getD_none]
        have hwhole := hsize hbegin
        subst hplace
        refine ⟨hdata, ?_, nofun, fun _ => ⟨hone, hwhole⟩⟩
        dsimp only [decodedAt]
        omega

theorem finish_supports (h : s.Read) {crcChecked : Bool} (hok : finish s = .ok (d, crcChecked)) :
    s.Supports d crcChecked := by
  unfold finish at hok
  dsimp only at hok
  split at hok
  · cases hok
  case isFalse hbegin =>
    split at hok
    · cases hok
    case isFalse hend =>
      rw [and_eq_true, not_and_or, not_eq_true', not_eq_true', not_eq_false,
        not_eq_false] at hend
      have hgates : finish.finishGates s s.declared = .ok (d, crcChecked) := by
        split at hok
        · split at hok
          · cases hok
          · exact hok
        · exact hok
      unfold finish.finishGates at hgates
      dsimp only at hgates
      split at hgates
      · cases hgates
      split at hgates
      · cases hgates
      case _ p hp =>
        have hgoverns := governing_eq s.trailer s.declared
        split at hgates
        case _ header hheader =>
          split at hgates
          · cases hgates
          case isFalse hsame =>
            cases hgates
            refine supports_decodedAt h (by simpa using hbegin) hend hp fun hv => ⟨hv, ?_⟩
            rw [← hgoverns, hheader, not_not.mp hsame]
            rfl
        case _ hnone =>
          cases hgates
          refine supports_decodedAt h (by simpa using hbegin) hend hp fun hv => ?_
          rw [and_eq_true] at hv
          refine ⟨hv.2, ?_⟩
          rw [← hgoverns, hnone]
          cases hadv : (trailerGates s.trailer s.declared).crcAdvisory with
          | none =>
            rw [hadv] at hv
            cases hv.1
          | some c =>
            rw [hadv] at hv
            exact congrArg some (of_decide_eq_true hv.1)

theorem Scan.Supports.weaken {c c' : Bool} (h : s.Supports d c) (hc : c' = true → c = true) :
    s.Supports d c' :=
  { h with crc := fun hyes => h.crc (hc hyes) }

theorem simdFinish_supports {lib : RapidYenc} (hlib : ∀ data, lib.crc data = Wire.crc32 data)
    (h : s.Read) {verifyCrc forceSkip : Bool} {r : SimdDecoded}
    (hok : simdFinish lib verifyCrc forceSkip s = .ok r) :
    s.Supports r.toScalar.1 r.toScalar.2 := by
  unfold simdFinish at hok
  dsimp only at hok
  split at hok
  · cases hok
  case isFalse hbegin =>
    split at hok
    · cases hok
    case isFalse hend =>
      rw [and_eq_true, not_and_or, not_eq_true', not_eq_true', not_eq_false,
        not_eq_false] at hend
      have hgates : simdFinish.gated lib verifyCrc forceSkip s s.declared = .ok r := by
        split at hok
        · split at hok
          · cases hok
          · exact hok
        · exact hok
      unfold simdFinish.gated at hgates
      dsimp only at hgates
      split at hgates
      · cases hgates
      split at hgates
      · cases hgates
      case _ p hp =>
        have hgoverns := governing_eq s.trailer s.declared
        have hplaced := fun {c : Bool} => @supports_decodedAt s h (by simpa using hbegin) hend p hp c
        split at hgates
        case _ header hheader =>
          split at hgates
          · split at hgates
            · cases hgates
            case isFalse hsame =>
              cases hgates
              refine hplaced fun hv => ⟨hv, ?_⟩
              rw [← hgoverns, hheader, ← not_not.mp hsame, hlib]
              rfl
          · cases hgates
            exact hplaced nofun
        case _ hnone =>
          split at hgates
          case _ advisory hadv =>
            split at hgates
            case isTrue hsame =>
              cases hgates
              refine hplaced fun hv => ⟨hv, ?_⟩
              rw [and_eq_true, decide_eq_true_eq] at hsame
              rw [← hgoverns, hnone, hadv, ← hsame.2, hlib]
              rfl
            · cases hgates
              exact hplaced nofun
          · cases hgates
            exact hplaced nofun

/-! ## The article -/

def LineKind.isYpart : LineKind → Bool
  | .ypart _ => true
  | _ => false

def LineKind.isYend : LineKind → Bool
  | .yend _ => true
  | _ => false

/-- The lines that are read: none after the first `=yend`. -/
def readLines (encOk : Bool) : List (List UInt8) → List (List UInt8)
  | [] => []
  | line :: lines =>
    if (lineKind encOk (content line)).isYend then [line] else line :: readLines encOk lines

theorem scanLine_seen {stop : Bool} {x : FieldReader} {line : List UInt8} {t : Scan}
    (h : scanLine encOk x line s = .ok (t, stop)) :
    t.seenYpart = (s.seenYpart || (lineKind encOk (content line)).isYpart) ∧
      t.seenYend = (s.seenYend || stop) ∧ stop = (lineKind encOk (content line)).isYend := by
  rw [scanLine_kind] at h
  cases hk : lineKind encOk (content line) with
  | blank =>
    rw [hk] at h
    cases h
    exact ⟨(Bool.or_false _).symm, (Bool.or_false _).symm, rfl⟩
  | ybegin fields =>
    rw [hk] at h
    dsimp only at h
    unfold ybegin at h
    split at h
    · cases h
    · cases h
      exact ⟨(Bool.or_false _).symm, (Bool.or_false _).symm, rfl⟩
  | ypart fields =>
    rw [hk] at h
    cases h
    exact ⟨(Bool.or_true _).symm, (Bool.or_false _).symm, rfl⟩
  | yend fields =>
    rw [hk] at h
    cases h
    exact ⟨(Bool.or_false _).symm, (Bool.or_true _).symm, rfl⟩
  | yencryption fields =>
    rw [hk] at h
    dsimp only at h
    unfold yencryption at h
    split at h
    · cases h
      exact ⟨(Bool.or_false _).symm, (Bool.or_false _).symm, rfl⟩
    · cases h
  | other =>
    rw [hk] at h
    dsimp only at h
    split at h
    · cases h
      exact ⟨(Bool.or_false _).symm, (Bool.or_false _).symm, rfl⟩
    · cases h
      exact ⟨(Bool.or_false _).symm, (Bool.or_false _).symm, rfl⟩

theorem scanLines_seen {x : FieldReader} {lines : List (List UInt8)} {t : Scan}
    (h : scanLines encOk x lines s = .ok t) :
    t.seenYpart = (s.seenYpart ||
        (readLines encOk lines).any fun l => (lineKind encOk (content l)).isYpart) ∧
      t.seenYend = (s.seenYend ||
        (readLines encOk lines).any fun l => (lineKind encOk (content l)).isYend) := by
  induction lines generalizing s with
  | nil =>
    cases h
    exact ⟨(Bool.or_false _).symm, (Bool.or_false _).symm⟩
  | cons line lines ih =>
    unfold scanLines at h
    unfold readLines
    split at h
    · cases h
    case _ hline =>
      cases h
      obtain ⟨hpart, hend, hstop⟩ := scanLine_seen hline
      rw [if_pos hstop.symm]
      simp only [any_cons, any_nil, Bool.or_false]
      exact ⟨hpart, by rw [← hstop]; exact hend⟩
    case _ hline =>
      obtain ⟨hpart, hend, hstop⟩ := scanLine_seen hline
      obtain ⟨hparts, hends⟩ := ih h
      rw [if_neg (by rw [← hstop]; decide), any_cons, any_cons, ← hstop]
      rw [hpart, Bool.or_assoc] at hparts
      rw [hend, Bool.or_assoc] at hends
      exact ⟨hparts, hends⟩

/-- What supports an article is what was read of these lines. -/
def Supported (encOk : Bool) (lines : List (List UInt8)) (d : Decoded) (crcChecked : Bool) : Prop :=
  ∃ s, scanLines encOk scalarReader lines {} = .ok s ∧
    (s.seenYpart = true ↔
      ∃ l ∈ readLines encOk lines, (lineKind encOk (content l)).isYpart = true) ∧
    (s.seenYend = true ↔ ∃ l ∈ readLines encOk lines, (lineKind encOk (content l)).isYend = true) ∧
    s.Supports d crcChecked

theorem decodeFramed_supported {crcChecked : Bool}
    (h : decodeFramed body encOk = .ok (d, crcChecked)) :
    Supported encOk (splitLines body) d crcChecked := by
  unfold decodeFramed at h
  cases hs : scanLines encOk scalarReader (splitLines body) {} with
  | error e =>
    rw [hs] at h
    cases h
  | ok s =>
    rw [hs] at h
    obtain ⟨hpart, hend⟩ := scanLines_seen hs
    refine ⟨s, hs, ?_, ?_, finish_supports (read_default.scanLines hs) h⟩
    · rw [hpart, Bool.false_or, List.any_eq_true]
    · rw [hend, Bool.false_or, List.any_eq_true]

/-- A body is decoded as it stands, without a byte order mark, or with its line ends made whole. -/
theorem decodeChecked_cases {r : Decoded × Bool} (h : decodeChecked body encOk = .ok r) : ∃ framed,
      (framed = stripBom body ∨ crFramedToCrlf (stripBom body) = some framed) ∧
        decodeFramed framed encOk = .ok r := by
  unfold decodeChecked at h
  dsimp only at h
  split at h
  · split at h
    · split at h
      case _ hcr => exact ⟨_, .inr hcr, h⟩
      · cases h
    · cases h
  case _ hok =>
    cases h
    exact ⟨_, .inl rfl, hok⟩

/-- The same of the SIMD decoder, whose verdict is given on its own scan or on the scalar one's. -/
theorem decodeFramedSimd_supported {lib : RapidYenc} (hlib : ∀ data, lib.crc data = Wire.crc32 data)
    {verifyCrc forceSkip : Bool} {r : SimdDecoded}
    (h : decodeFramedSimd lib body verifyCrc encOk forceSkip = some (.ok r)) :
    ∃ s, (simdLoop lib encOk (2 * body.length) false body {} = .done s ∨
        scanLines encOk scalarReader (splitLines body) {} = .ok s) ∧
      s.Supports r.toScalar.1 r.toScalar.2 := by
  unfold decodeFramedSimd at h
  cases hl : simdLoop lib encOk (2 * body.length) false body {} with
  | panic =>
    rw [hl] at h
    cases h
  | error e =>
    rw [hl] at h
    cases h
  | done s =>
    rw [hl] at h
    exact ⟨s, .inl rfl, simdFinish_supports hlib (read_default.simdLoop hl) (some.inj h)⟩
  | fallback =>
    rw [hl] at h
    cases hd : decodeFramed body encOk with
    | error e =>
      rw [hd] at h
      cases h
    | ok x =>
      rw [hd] at h
      cases h
      obtain ⟨s, hs, -, -, hsup⟩ := decodeFramed_supported hd
      exact ⟨s, .inr hs, hsup.weaken fun hc => (and_eq_true_iff.mp hc).1⟩

/-- Every article that decodes is placed on what it declared: with an `=ypart` line its range holds
exactly its data, a later part has its place from a range, a checked CRC is the governing one and the
data's, and without a `=yend` line the declared range holds exactly the data. -/
theorem placement_sound {lib : RapidYenc} (hlib : ∀ data, lib.crc data = Wire.crc32 data)
    (body : List UInt8) (encOk : Bool) :
    (∀ d crcChecked, decodeChecked body encOk = .ok (d, crcChecked) → ∃ framed,
      (framed = stripBom body ∨ crFramedToCrlf (stripBom body) = some framed) ∧
        Supported encOk (splitLines framed) d crcChecked) ∧
    ∀ verifyCrc forceSkip r, decodeFramedSimd lib body verifyCrc encOk forceSkip = some (.ok r) →
      ∃ s, (simdLoop lib encOk (2 * body.length) false body {} = .done s ∨
          scanLines encOk scalarReader (splitLines body) {} = .ok s) ∧
        s.Supports r.toScalar.1 r.toScalar.2 := by
  constructor
  · intro d crcChecked h
    obtain ⟨framed, hframed, hok⟩ := decodeChecked_cases h
    exact ⟨framed, hframed, decodeFramed_supported hok⟩
  · intro verifyCrc forceSkip r h
    exact decodeFramedSimd_supported hlib h

theorem placement_sound_sample : ∃ framed,
    (framed = stripBom (encode "demo, disc 2.bin".toList 3000 (some (2, 3)) 1001 [4, 227, 214]) ∨
      crFramedToCrlf (stripBom (encode "demo, disc 2.bin".toList 3000 (some (2, 3)) 1001
        [4, 227, 214])) = some framed) ∧
      Supported false (splitLines framed)
        { name := "demo, disc 2.bin".toList, fileSize := 3000, part := some 2, beginAt := 1001,
          endAt := 1003, data := [4, 227, 214], encryption := none } true :=
  (placement_sound published_lineDecoder.crc _ false).1 _ _
    (decodeChecked_framed rfl (decodeFramed_encode headerName_sample (by decide) (by decide) (by decide)
      (fun p total hp => by cases hp; decide) false))

end NzbFast.Yenc
