import NzbFast.Rar.Resolve
import Mathlib.Algebra.Order.BigOperators.Group.Finset
import Mathlib.Data.Nat.Digits.Lemmas

/-!
# Arithmetic placement

`ArchiveMap::resolve_arithmetic`: the scan over the volumes (`Scan.visit`), the
capacity and the head's field length (`solve`), the closure proof (`proven`) and
the bases. The scan and the checks leave by `Refusal` where the source returns
`Shape` or `Numbers`.

Volume `n` of a set of capacity `d` whose head spends `h` bytes on its number
starts at `n * d` less the bytes that the volumes before it spend on theirs
(`spent h n`); the band sum of the source computes that number.
-/

namespace NzbFast.Rar

open NzbFast.Rust Fold UInt64 UInt64

/-! ## Volume-number fields -/

/-- The loop of `volnum_field_len`. -/
def volnumFieldLoop (n l : UInt64) : UInt64 :=
  if 0 < n then volnumFieldLoop (n >>> 7) (l + 1) else l
termination_by n.toNat
decreasing_by
  rename_i h
  rw [UInt64.lt_iff_toNat_lt] at h
  simp only [UInt64.toNat_shiftRight, Nat.shiftRight_eq_div_pow]
  exact Nat.div_lt_self h (by decide)

def volnumFieldLen (vn : UInt64) : UInt64 := if vn = 0 then 0 else volnumFieldLoop vn 0

/-- The last volume number whose field has `len` bytes. -/
def bandEnd (len : UInt64) : UInt64 :=
  if 10 ≤ len then UInt64.ofNat (2 ^ 64 - 1) else (1 <<< (7 * len)) - 1

/-- The loop of `volnum_field_bytes_before`; the band of ten bytes is the last one. -/
def volnumBands (n : UInt64) : Nat → UInt64 → UInt64 → UInt64 → Option UInt64
  | 0, s, _, _ => some s
  | fuel + 1, s, bandStart, len =>
    if bandStart < n then
      let hi := min (bandEnd len) (n - 1)
      ((checkedMul (hi - bandStart + 1) len).bind (checkedAdd s)).bind fun s =>
        if n - 1 ≤ bandEnd len then some s
        else volnumBands n fuel s (bandEnd len + 1) (len + 1)
    else some s

def volnumFieldBytesBefore (n : UInt64) : Option UInt64 := volnumBands n 10 0 1 1

def arithBase (n d headLen : UInt64) : Option UInt64 :=
  (volnumFieldBytesBefore n).bind fun s =>
    (if 0 < n then checkedAdd s headLen else some s).bind fun s =>
      (checkedMul n d).bind (checkedSub · s)

/-! ## The gate -/

/-- Why a set is not placed. -/
inductive Refusal
  | shape
  | numbers
  deriving DecidableEq

inductive ArithGate
  | place (bases : List UInt64) (closed : Bool)
  | shape
  | numbers
  deriving DecidableEq

def Refusal.gate : Refusal → ArithGate
  | .shape => .shape
  | .numbers => .numbers

/-- What the loop over the volumes gathers. -/
structure Scan where
  geom : Option (UInt64 × UInt64) := none
  fin : Option (UInt64 × UInt64) := none
  total : Option UInt64 := none
  name : Option String := none
  seen : Finset UInt64 := ∅
  startsAtZero : Bool := false
  headLen : Option UInt64 := none

/-- The first value stands, and a different one is refused. -/
def agree {α : Type} [DecidableEq α] (held : Option α) (x : α) (r : Refusal) :
    Except Refusal α :=
  match held with
  | none => .ok x
  | some y => if y = x then .ok x else .error r

def plainStored (e : FileEntry) : Bool :=
  !(e.isDir || e.encrypted || e.crypt.isSome || e.sizeUnknown || e.method != .store ||
    e.unpackedSize == 0)

namespace Scan

/-- How many bytes the head spends on its number: two layouts are legal, and past the head the
number decides. -/
def headField (s : Scan) (vn flen : UInt64) : Except Refusal (Option UInt64) :=
  if vn = 0 then
    if 1 < flen then .error .numbers else (agree s.headLen flen .numbers).map some
  else if flen ≠ volnumFieldLen vn then .error .numbers
  else .ok s.headLen

/-- The geometry of a piece that continues, or the final piece. -/
def geometry (s : Scan) (vn flen : UInt64) (e : FileEntry) : Except Refusal Scan :=
  match checkedSub e.dataOff flen with
  | none => .error .numbers
  | some offBase =>
    if e.splitAfter then
      if e.dataLen = 0 then .error .shape
      else
        match checkedAdd e.dataOff e.dataLen with
        | none => .error .numbers
        | some dend =>
          (agree s.geom (offBase, dend) .numbers).map fun g => { s with geom := some g }
    else if s.fin.isSome then .error .numbers
    else .ok { s with fin := some (vn, e.dataLen) }

/-- A volume of number `vn` with the one entry `e`. -/
def visitEntry (s : Scan) (m : Mapped) (vn : UInt64) (e : FileEntry) : Except Refusal Scan :=
  if !plainStored e then .error .shape
  else
    (agree s.name e.name .shape).bind fun name =>
      if 0 < vn ∧ !e.splitBefore then .error .shape
      else
        (agree s.total e.unpackedSize .numbers).bind fun total =>
          if vn = 0 ∧ e.splitBefore then .error .numbers
          else if vn ∈ s.seen then .error .numbers
          else
            match m.volumeNumberLen with
            | none => .error .shape
            | some flen =>
              (s.headField vn flen).bind fun headLen =>
                geometry
                  { s with
                    name := some name
                    total := some total
                    startsAtZero := s.startsAtZero || vn == 0
                    seen := insert vn s.seen
                    headLen := headLen }
                  vn flen e

def visit (s : Scan) (m : Mapped) : Except Refusal Scan :=
  if m.version ≠ some .v5 ∨ m.blocker.isSome then .error .shape
  else
    match m.volumeNumber, m.entries with
    | some vn, [e] => s.visitEntry m vn e
    | _, _ => .error .shape

end Scan

/-- The capacity that a final piece of a set with no other piece implies. -/
def closing (head s fvn fdl h : UInt64) : Option (UInt64 × UInt64) :=
  ((checkedAdd head s).bind (checkedAdd · h)).bind fun num =>
    if num % fvn ≠ 0 then none
    else if num / fvn = 0 ∨ num / fvn < fdl then none
    else some (num / fvn, h)

/-- The head's field length: read, or solved from the closure identity. -/
def solveHead (s : Scan) (total d : UInt64) : Except Refusal UInt64 :=
  match s.headLen, s.fin with
  | some h, _ => .ok h
  | none, some (fvn, fdl) =>
    match checkedSub total fdl, arithBase fvn d 0 with
    | some head, some zeroHead =>
      match checkedSub zeroHead head with
      | some v => if v = 0 ∨ v = 1 then .ok v else .error .shape
      | none => .error .shape
    | _, _ => .error .shape
  | none, none => .ok 0

/-- The capacity `D` and the head's field length `h`. -/
def solve (s : Scan) (total : UInt64) : Except Refusal (UInt64 × UInt64) :=
  match s.geom, s.fin with
  | some (ob, de), _ =>
    match checkedSub de ob with
    | none => .error .numbers
    | some d => (solveHead s total d).map (d, ·)
  | none, some (fvn, fdl) =>
    if 0 < fvn then
      match checkedSub total fdl, volnumFieldBytesBefore fvn with
      | some head, some sum =>
        let candidates := match s.headLen with
          | some h => [h]
          | none => [0, 1]
        match candidates.findSome? (closing head sum fvn fdl) with
        | some dh => .ok dh
        | none => .error .numbers
      | _, _ => .error .numbers
    else .ok (0, s.headLen.getD 0)
  | none, none => .ok (0, s.headLen.getD 0)

/-- The premise that the file begins at volume 0. -/
def proven (s : Scan) (total d h : UInt64) : Bool :=
  match s.fin with
  | none => s.startsAtZero
  | some (fvn, fdl) =>
    if ∃ v ∈ s.seen, fvn < v then false
    else
      match checkedSub total fdl with
      | none => false
      | some head =>
        if fvn = 0 then head == 0 else !(arithBase fvn d h != some head || d < fdl)

/-- Where a piece starts, before it is held against the declared size. -/
def startOf (total d h vn : UInt64) (e : FileEntry) : Except Refusal UInt64 :=
  if !e.splitBefore then .ok 0
  else if !e.splitAfter then .ok (total - e.dataLen)
  else
    match arithBase vn d h with
    | some b => .ok b
    | none => .error .numbers

def pieceBase (total d h : UInt64) (m : Mapped) : Except Refusal UInt64 :=
  match m.entries, m.volumeNumber with
  | e :: _, some vn =>
    (startOf total d h vn e).bind fun base =>
      match checkedAdd base e.dataLen with
      | some last => if total < last then .error .shape else .ok base
      | none => .error .shape
  | _, _ => .error .shape

/-- The complete set 0..=last, ending in the declared final piece. -/
def closedSet (s : Scan) : Bool :=
  match s.fin with
  | none => false
  | some (fvn, _) => UInt64.ofNat s.seen.card == saturatingAdd fvn 1

def place (vols : List Mapped) : Except Refusal ArithGate :=
  (vols.foldlM Scan.visit {}).bind fun s =>
    let total := s.total.getD 0
    (solve s total).bind fun dh =>
      if !proven s total dh.1 dh.2 then .error .shape
      else (vols.mapM (pieceBase total dh.1 dh.2)).map fun bases => .place bases (closedSet s)

def resolveArithmetic (vols : List Mapped) : ArithGate :=
  if vols = [] then .shape
  else
    match place vols with
    | .ok g => g
    | .error r => r.gate

/-! ## Field lengths and their sums -/

/-- The bytes of a minimal variable-length number. -/
def fieldLen (n : Nat) : Nat := (Nat.digits 128 n).length

theorem fieldLen_of_pos {n : Nat} (h : 0 < n) : fieldLen n = fieldLen (n / 128) + 1 := by
  rw [fieldLen, Nat.digits_def' (by decide) h, List.length_cons, fieldLen]

theorem fieldLen_eq {n k : Nat} (hlo : 128 ^ k ≤ n) (hhi : n < 128 ^ (k + 1)) :
    fieldLen n = k + 1 := by
  have h1 := (Nat.lt_digits_length_iff (by decide : 1 < 128) n).mpr hlo
  have h2 := (Nat.digits_length_le_iff (by decide : 1 < 128) n).mpr hhi
  rw [fieldLen]
  omega

theorem fieldLen_le (n : UInt64) : fieldLen n.toNat ≤ 10 := by
  have := n.toNat_lt
  refine (Nat.digits_length_le_iff (by decide : 1 < 128) _).mpr ?_
  calc n.toNat < 2 ^ 64 := this
    _ ≤ 128 ^ 10 := by decide

theorem toNat_shiftRight_seven (n : UInt64) : (n >>> 7).toNat = n.toNat / 128 := by
  rw [UInt64.toNat_shiftRight, Nat.shiftRight_eq_div_pow]
  rfl

theorem volnumFieldLoop_toNat (n l : UInt64) (h : l.toNat + fieldLen n.toNat < 2 ^ 64) :
    (volnumFieldLoop n l).toNat = l.toNat + fieldLen n.toNat := by
  induction n, l using volnumFieldLoop.induct with
  | case1 n l hn ih =>
    have hpos : 0 < n.toNat := hn
    rw [fieldLen_of_pos hpos] at h ⊢
    have hl : (l + 1).toNat = l.toNat + 1 := by
      rw [UInt64.toNat_add, UInt64.toNat_one, Nat.mod_eq_of_lt (by omega)]
    rw [volnumFieldLoop, if_pos hn, ih (by rw [toNat_shiftRight_seven, hl]; omega),
      toNat_shiftRight_seven, hl]
    omega
  | case2 n l hn =>
    have hzero : n.toNat = 0 := Nat.eq_zero_of_not_pos hn
    rw [volnumFieldLoop, if_neg hn, hzero]
    simp [fieldLen]

@[simp] theorem volnumFieldLen_toNat (vn : UInt64) : (volnumFieldLen vn).toNat = fieldLen vn.toNat := by
  unfold volnumFieldLen
  split
  case isTrue h => simp [h, fieldLen]
  case isFalse h =>
    have := fieldLen_le vn
    rw [volnumFieldLoop_toNat _ _ (by simp; omega)]
    simp

/-- The field bytes of the volumes from 1 up to `n`. -/
def fieldSum (n : Nat) : Nat := ∑ k ∈ Finset.Ico 1 n, fieldLen k

theorem fieldSum_succ {n : Nat} (h : 0 < n) : fieldSum (n + 1) = fieldSum n + fieldLen n :=
  Finset.sum_Ico_succ_top h _

theorem fieldSum_mono {m n : Nat} (h : m ≤ n) : fieldSum m ≤ fieldSum n :=
  Finset.sum_le_sum_of_subset (Finset.Ico_subset_Ico_right h)

theorem fieldSum_band {k n : Nat} (hlo : 128 ^ k ≤ n) (hhi : n ≤ 128 ^ (k + 1)) :
    fieldSum n = fieldSum (128 ^ k) + (n - 128 ^ k) * (k + 1) := by
  have hsplit : fieldSum (128 ^ k) + ∑ j ∈ Finset.Ico (128 ^ k) n, fieldLen j = fieldSum n :=
    Finset.sum_Ico_consecutive _ (Nat.one_le_two_pow.trans (Nat.pow_le_pow_left (by decide) k)) hlo
  have hconst : ∀ j ∈ Finset.Ico (128 ^ k) n, fieldLen j = k + 1 := by
    intro j hj
    rw [Finset.mem_Ico] at hj
    exact fieldLen_eq hj.1 (by omega)
  rw [← hsplit, Finset.sum_const_nat hconst, Nat.card_Ico]

/-- A band below the last ends right before the next power. -/
theorem bandEnd_toNat {k : Nat} (hk : k < 9) :
    (bandEnd (ofNat (k + 1))).toNat + 1 = 128 ^ (k + 1) := by
  interval_cases k <;> decide

theorem bandEnd_last : (bandEnd (ofNat (9 + 1))).toNat = 2 ^ 64 - 1 := by decide

/-- One round adds the fields of the band up to `hi`. -/
theorem band_eq_some {k : Nat} (hk : k ≤ 9) {s bandStart hi s' : UInt64}
    (hstart : bandStart.toNat = 128 ^ k) (hs : s.toNat = fieldSum (128 ^ k))
    (hlo : 128 ^ k ≤ hi.toNat) (hhi : hi.toNat < 128 ^ (k + 1)) :
    (checkedMul (hi - bandStart + 1) (ofNat (k + 1))).bind (checkedAdd s) = some s' ↔
      fieldSum (hi.toNat + 1) = s'.toNat := by
  have hlen : (ofNat (k + 1)).toNat = k + 1 := by
    rw [toNat_ofNat', Nat.mod_eq_of_lt (by omega)]
  have hcount : (hi - bandStart + 1).toNat = hi.toNat + 1 - 128 ^ k := by
    have := hi.toNat_lt
    rw [UInt64.toNat_add, UInt64.toNat_sub_of_le _ _ (by rw [UInt64.le_iff_toNat_le]; omega),
      toNat_one, Nat.mod_eq_of_lt (by omega)]
    omega
  have hhi' : hi.toNat + 1 ≤ 128 ^ (k + 1) := hhi
  rw [fieldSum_band (by omega) hhi', ← hs]
  simp only [Option.bind_eq_some_iff, checkedMul_eq_some, checkedAdd_eq_some, hcount, hlen]
  constructor
  · rintro ⟨x, hx, hsum⟩
    omega
  · intro h
    have := s'.toNat_lt
    refine ⟨ofNat ((hi.toNat + 1 - 128 ^ k) * (k + 1)), ?_, ?_⟩
    · rw [toNat_ofNat', Nat.mod_eq_of_lt (by omega)]
    · rw [toNat_ofNat', Nat.mod_eq_of_lt (by omega)]
      exact h

theorem volnumBands_eq_some {n c : UInt64} {fuel k : Nat} {s bandStart : UInt64}
    (hfuel : k + fuel = 10) (hk : k ≤ 9) (hstart : bandStart.toNat = 128 ^ k)
    (hs : s.toNat = fieldSum (128 ^ k)) (hn : 128 ^ k < n.toNat) :
    volnumBands n fuel s bandStart (ofNat (k + 1)) = some c ↔
      fieldSum n.toNat = c.toNat := by
  induction fuel generalizing k s bandStart with
  | zero => omega
  | succ fuel ih =>
    have hnlt := n.toNat_lt
    have hn1 : (n - 1).toNat = n.toNat - 1 := by
      rw [UInt64.toNat_sub_of_le _ _ (by rw [UInt64.le_iff_toNat_le]; simp; omega)]
      rfl
    have hcond : bandStart < n := by rw [lt_iff_toNat_lt]; omega
    simp only [volnumBands, hcond, if_true]
    by_cases hlast : n - 1 ≤ bandEnd (ofNat (k + 1))
    · -- the band holds the rest
      have hhi : (n - 1).toNat < 128 ^ (k + 1) := by
        rw [le_iff_toNat_le, hn1] at hlast
        rcases lt_or_ge k 9 with hk9 | hk9
        · have := bandEnd_toNat hk9
          omega
        · obtain rfl : k = 9 := by omega
          calc (n - 1).toNat < 2 ^ 64 := (n - 1).toNat_lt
            _ ≤ 128 ^ (9 + 1) := by decide
      have hmin : min (bandEnd (ofNat (k + 1))) (n - 1) = n - 1 := by
        rw [le_iff_toNat_le] at hlast
        rw [← UInt64.toNat_inj, UInt64.toNat_min]
        omega
      have hband := @band_eq_some k hk s bandStart (n - 1)
      simp only [hlast, if_true, Option.bind_fun_some, hmin]
      rw [hband hstart hs (by omega) hhi, hn1, Nat.sub_add_cancel (by omega)]
    · -- a whole band, and more to come
      have hk9 : k < 9 := by
        by_contra hk9
        obtain rfl : k = 9 := by omega
        refine hlast ?_
        rw [le_iff_toNat_le, bandEnd_last]
        omega
      have hend := bandEnd_toNat hk9
      have hmin : min (bandEnd (ofNat (k + 1))) (n - 1) = bandEnd (ofNat (k + 1)) := by
        rw [le_iff_toNat_le] at hlast
        rw [← UInt64.toNat_inj, UInt64.toNat_min]
        omega
      have hlo : 128 ^ k ≤ (bandEnd (ofNat (k + 1))).toNat := by
        omega
      have hband := fun s' => @band_eq_some k hk s bandStart (bandEnd (ofNat (k + 1))) s'
        hstart hs hlo (by omega)
      simp only [hlast, if_false, hmin]
      rw [le_iff_toNat_le, hn1] at hlast
      have hnext : (bandEnd (ofNat (k + 1)) + 1).toNat = 128 ^ (k + 1) := by
        rw [UInt64.toNat_add, UInt64.toNat_one, Nat.mod_eq_of_lt (by omega), hend]
      have hstep : (ofNat (k + 1) + 1 : UInt64) = ofNat (k + 1 + 1) := by
        exact (ofNat_add (k + 1) 1).symm
      cases hround : (checkedMul (bandEnd (ofNat (k + 1)) - bandStart + 1)
          (ofNat (k + 1))).bind (checkedAdd s) with
      | none =>
        -- what the band holds already does not fit
        simp only [Option.bind_none, reduceCtorEq, false_iff]
        intro hc
        have hle := fieldSum_mono (show 128 ^ (k + 1) ≤ n.toNat by omega)
        have := c.toNat_lt
        have hfits := (hband (ofNat (fieldSum (128 ^ (k + 1))))).mpr (by
          rw [hend, toNat_ofNat', Nat.mod_eq_of_lt (by omega)])
        rw [hround] at hfits
        cases hfits
      | some s' =>
        have hs' := (hband s').mp hround
        rw [hend] at hs'
        rw [Option.bind_some, hstep]
        exact ih (by omega) (by omega) hnext hs'.symm (by omega)

theorem fieldSum_zero_one {n : Nat} (h : n ≤ 1) : fieldSum n = 0 := by
  rw [fieldSum, Finset.Ico_eq_empty_of_le h, Finset.sum_empty]

/-- The band sum is the sum over the volumes, where that fits. -/
theorem volnumFieldBytesBefore_eq_some {n c : UInt64} :
    volnumFieldBytesBefore n = some c ↔ fieldSum n.toNat = c.toNat := by
  have hone := fieldSum_zero_one (le_refl 1)
  rcases lt_or_ge 1 n.toNat with hn | hn
  · exact volnumBands_eq_some (by omega) (by omega) rfl hone.symm hn
  · have hcond : ¬ (1 : UInt64) < n := by rw [lt_iff_toNat_lt]; simpa using hn
    rw [volnumFieldBytesBefore, volnumBands, if_neg hcond, fieldSum_zero_one hn,
      Option.some.injEq, ← UInt64.toNat_inj]
    rfl

/-- The field bytes of the volumes before `n`, the head's `h` among them. -/
def spent (h n : Nat) : Nat := if n = 0 then 0 else fieldSum n + h

theorem arithBase_eq {n d h b : UInt64} (hb : arithBase n d h = some b) :
    b.toNat + spent h.toNat n.toNat = n.toNat * d.toNat := by
  unfold arithBase at hb
  simp only [Option.bind_eq_some_iff, volnumFieldBytesBefore_eq_some, checkedMul_eq_some,
    checkedSub_eq_some] at hb
  obtain ⟨s, hs, s', hs', p, hp, hsub⟩ := hb
  rw [hp, ← hsub, spent]
  split at hs'
  case isTrue hn =>
    have hpos : 0 < n.toNat := hn
    rw [if_neg (by omega)]
    have := checkedAdd_eq_some.mp hs'
    omega
  case isFalse hn =>
    have hzero : n.toNat = 0 := Nat.eq_zero_of_not_pos hn
    rw [if_pos hzero]
    rw [hzero, fieldSum_zero_one (by omega)] at hs
    cases hs'
    omega

/-- The bytes that volume `n` itself spends. -/
def fieldOf (h n : Nat) : Nat := if n = 0 then h else fieldLen n

theorem spent_succ (h n : Nat) : spent h (n + 1) = spent h n + fieldOf h n := by
  unfold spent fieldOf
  rcases eq_zero_or_pos n with rfl | hn
  · simp [fieldSum_zero_one]
  · rw [if_neg (by omega), if_neg (by omega), if_neg (by omega), fieldSum_succ hn]
    omega

end NzbFast.Rar
