import NzbFast.Gf.Elimination
import NzbFast.Gf.Field

/-!
# The unstructured inverse

`invert_serial_controlled` (`crates/nzbkit-base/src/par2repair/linalg.rs`): Gauss-Jordan
elimination column by column, with row swaps, over a square matrix of words. It ends in
the inverse, or in a column with no pivot, which is a kernel vector of the matrix.
-/

namespace NzbFast.Repair

open Function Gf16
open List hiding not_le
open NzbFast.Gf (Tableau)

/-- `RepairError`, as far as the inverse uses it. -/
inductive RepairError where
  | cancelled
  | singularMatrix
  deriving DecidableEq

variable {m : Nat}

/-- A square matrix, row by row. -/
abbrev Rows (m : Nat) := Fin m → Fin m → Gf16

/-! ## One column -/

/-- `MulTable::xor_mul_words`. -/
def xorMulWords (t : MulTable) (row src : Fin m → Gf16) : Fin m → Gf16 := fun x => row x + t.mul (src x)

/-- The pivot row made one in column `col`. -/
def normalize (s : Tableau (Fin m) Gf16) (p col : Fin m) : Tableau (Fin m) Gf16 :=
  let f := Gf16.inv (s.a p col)
  if f ≠ 1 then
    ⟨update s.a p fun x => Gf16.mul (s.a p x) f, update s.inv p fun x => Gf16.mul (s.inv p x) f⟩
  else s

/-- Row `r` folded against the pivot row `g` of both halves. -/
def eliminateRow (p col : Fin m) (g : (Fin m → Gf16) × (Fin m → Gf16)) (s : Tableau (Fin m) Gf16)
    (r : Fin m) : Tableau (Fin m) Gf16 :=
  if r = p then s
  else
    let f := s.a r col
    if f = 0 then s
    else
      let t := MulTable.new f
      ⟨update s.a r (xorMulWords t (s.a r) g.1), update s.inv r (xorMulWords t (s.inv r) g.2)⟩

def serialColumn (s : Tableau (Fin m) Gf16) (col : Fin m) : Except RepairError (Tableau (Fin m) Gf16) :=
  match ((List.finRange m).filter fun r => col ≤ r).find? fun r => s.a r col ≠ 0 with
  | none => .error .singularMatrix
  | some piv =>
    let s := normalize (s.permute (Equiv.swap col piv)) col col
    .ok ((List.finRange m).foldl (fun s r => eliminateRow col col (s.a col, s.inv col) s r) s)

def augmented (a : Rows m) : Tableau (Fin m) Gf16 := ⟨a, fun i k => if k = i then 1 else 0⟩

/-- `invert_serial_controlled`, where `cancelled` is what the control answers at each column. -/
def invertSerialControlled (cancelled : Fin m → Bool) (a : Rows m) : Except RepairError (Rows m) :=
  ((List.finRange m).foldlM (fun s col =>
    if cancelled col then .error .cancelled else serialColumn s col) (augmented a)).map (·.inv)

def invertSerial (a : Rows m) : Except RepairError (Rows m) := invertSerialControlled (fun _ => false) a

/-! ## What the steps do -/

theorem xorMulWords_eq (c : Gf16) (row src : Fin m → Gf16) :
    xorMulWords (MulTable.new c) row src = row - c • src := by
  funext x
  rw [xorMulWords, MulTable.mul_new, Pi.sub_apply, CharTwo.sub_eq_add]
  rfl

theorem normalize_eq {s : Tableau (Fin m) Gf16} {p col : Fin m} (hp : s.a p col ≠ 0) :
    normalize s p col = s.scale p (s.a p col)⁻¹ := by
  unfold normalize Tableau.scale
  dsimp only
  rw [inv_eq hp]
  split
  case isTrue =>
    congr 2
    · exact funext fun x => (mul_comm _ _).trans rfl
    · exact funext fun x => (mul_comm _ _).trans rfl
  case isFalse h =>
    rw [not_not.mp h, one_smul, one_smul, update_eq_self, update_eq_self]

/-- A row but the pivot loses its share of the pivot row; the others stay. -/
theorem eliminateRow_apply (p col : Fin m) (g : (Fin m → Gf16) × (Fin m → Gf16))
    (s : Tableau (Fin m) Gf16) (q r : Fin m) :
    (eliminateRow p col g s q).a r = (if r = q ∧ r ≠ p then s.a r - s.a r col • g.1 else s.a r) ∧
      (eliminateRow p col g s q).inv r =
        if r = q ∧ r ≠ p then s.inv r - s.a r col • g.2 else s.inv r := by
  unfold eliminateRow
  by_cases hr : r = q
  · rw [hr]
    by_cases hp : q = p
    · have hskip : ¬ (q = q ∧ q ≠ p) := fun h => h.2 hp
      rw [if_pos hp, if_neg hskip, if_neg hskip]
      exact ⟨rfl, rfl⟩
    · have hfold : q = q ∧ q ≠ p := ⟨rfl, hp⟩
      rw [if_neg hp, if_pos hfold, if_pos hfold]
      by_cases hzero : s.a q col = 0
      · rw [if_pos hzero, hzero, zero_smul, zero_smul, sub_zero, sub_zero]
        exact ⟨rfl, rfl⟩
      · rw [if_neg hzero, ← xorMulWords_eq, ← xorMulWords_eq]
        exact ⟨update_self _ _ _, update_self _ _ _⟩
  · have hskip : ¬ (r = q ∧ r ≠ p) := fun h => hr h.1
    rw [if_neg hskip, if_neg hskip]
    by_cases hp : q = p
    · rw [if_pos hp]
      exact ⟨rfl, rfl⟩
    · rw [if_neg hp]
      by_cases hzero : s.a q col = 0
      · rw [if_pos hzero]
        exact ⟨rfl, rfl⟩
      · rw [if_neg hzero]
        exact ⟨update_of_ne hr _ _, update_of_ne hr _ _⟩

/-- Rows folded one after the other, against one copy of the pivot row. -/
theorem foldl_eliminateRow {rows : List (Fin m)} (hrows : rows.Nodup) (p col : Fin m)
    (g : (Fin m → Gf16) × (Fin m → Gf16)) (s : Tableau (Fin m) Gf16) (r : Fin m) :
    (rows.foldl (eliminateRow p col g) s).a r =
        (if r ∈ rows ∧ r ≠ p then s.a r - s.a r col • g.1 else s.a r) ∧
      (rows.foldl (eliminateRow p col g) s).inv r =
        if r ∈ rows ∧ r ≠ p then s.inv r - s.a r col • g.2 else s.inv r := by
  induction rows generalizing s with
  | nil => exact ⟨(if_neg fun h => by cases h.1).symm, (if_neg fun h => by cases h.1).symm⟩
  | cons q rows ih =>
    obtain ⟨hq, hrows⟩ := nodup_cons.mp hrows
    obtain ⟨ha, hinv⟩ := ih hrows (eliminateRow p col g s q)
    obtain ⟨hstep, hstep'⟩ := eliminateRow_apply p col g s q r
    rw [foldl_cons, ha, hinv, hstep, hstep']
    by_cases hr : r = q
    · have hout : ¬ (r ∈ rows ∧ r ≠ p) := fun h => hq (hr ▸ h.1)
      have hmem : r = q ∧ r ≠ p ↔ r ∈ q :: rows ∧ r ≠ p := by simp [hr]
      rw [if_neg hout, if_neg hout]
      exact ⟨if_congr hmem rfl rfl, if_congr hmem rfl rfl⟩
    · have hskip : ¬ (r = q ∧ r ≠ p) := fun h => hr h.1
      have hmem : r ∈ rows ∧ r ≠ p ↔ r ∈ q :: rows ∧ r ≠ p := by simp [hr]
      rw [if_neg hskip, if_neg hskip]
      exact ⟨if_congr hmem rfl rfl, if_congr hmem rfl rfl⟩

/-- The pivot row does not change while the others are folded against it. -/
theorem foldl_all (p col : Fin m) (s : Tableau (Fin m) Gf16) :
    (List.finRange m).foldl (fun s r => eliminateRow p col (s.a p, s.inv p) s r) s = s.clear p col := by
  have hcopy : ∀ (rows : List (Fin m)) (s' : Tableau (Fin m) Gf16), s'.a p = s.a p → s'.inv p = s.inv p →
      rows.foldl (fun s r => eliminateRow p col (s.a p, s.inv p) s r) s' =
        rows.foldl (eliminateRow p col (s.a p, s.inv p)) s' := by
    intro rows
    induction rows with
    | nil => exact fun _ _ _ => rfl
    | cons q rows ih =>
      intro s' ha hinv
      obtain ⟨hstep, hstep'⟩ := eliminateRow_apply p col (s.a p, s.inv p) s' q p
      rw [if_neg fun h => h.2 rfl] at hstep hstep'
      rw [foldl_cons, foldl_cons, ha, hinv]
      exact ih _ (hstep.trans ha) (hstep'.trans hinv)
  have happly := foldl_eliminateRow (nodup_finRange m) p col (s.a p, s.inv p) s
  rw [hcopy _ s rfl rfl]
  refine Tableau.ext (funext fun r => ?_) (funext fun r => ?_)
  · rw [(happly r).1, Tableau.clear_a]
    by_cases hr : r = p
    · rw [if_pos hr, if_neg fun h => h.2 hr]
    · rw [if_neg hr, if_pos ⟨mem_finRange r, hr⟩]
  · rw [(happly r).2, Tableau.clear_inv]
    by_cases hr : r = p
    · rw [if_pos hr, if_neg fun h => h.2 hr]
    · rw [if_neg hr, if_pos ⟨mem_finRange r, hr⟩]

/-! ## The serial run -/

/-- The pivots of the serial run: column `j` in row `j`. -/
def diagonal (c : Nat) (j : Fin m) : Option (Fin m) := if j.val < c then some j else none

theorem diagonal_eq_some {c : Nat} {j p : Fin m} (h : diagonal c j = some p) : p = j ∧ j.val < c := by
  unfold diagonal at h
  split at h
  · exact ⟨(Option.some.inj h).symm, by assumption⟩
  · cases h

theorem serialColumn_spec {A : Rows m} {s : Tableau (Fin m) Gf16} {col : Fin m} (hA : s.From A)
    (hs : s.Reduced (diagonal col.val)) :
    (∃ s', serialColumn s col = .ok s' ∧ s'.From A ∧ s'.Reduced (diagonal (col.val + 1))) ∨
      serialColumn s col = .error .singularMatrix ∧
        ∃ v : Fin m → Gf16, v ≠ 0 ∧ Matrix.mulVec (Matrix.of A) v = 0 := by
  unfold serialColumn
  split
  case h_1 hnone =>
    refine .inr ⟨rfl, hs.singular hA (if_neg (lt_irrefl _)) fun r hr => ?_⟩
    have hle : col ≤ r := by
      by_contra hlt
      exact hr r (if_pos (Fin.lt_def.mp (not_le.mp hlt)))
    have hzero := find?_eq_none.mp hnone r (mem_filter.mpr ⟨mem_finRange r, by simpa using hle⟩)
    simpa using hzero
  case h_2 piv hpiv =>
    have hne : s.a piv col ≠ 0 := by simpa using find?_some hpiv
    have hle : col ≤ piv := by simpa using (mem_filter.mp (mem_of_find?_eq_some hpiv)).2
    left
    -- the rows swapped are both below the reduced columns
    have hswap : (s.permute (Equiv.swap col piv)).Reduced (diagonal col.val) := by
      refine ⟨fun {j p} hp r => ?_, hs.injective⟩
      obtain ⟨rfl, hlt⟩ := diagonal_eq_some hp
      have hcol : p ≠ col := fun h => lt_irrefl _ (h ▸ hlt)
      have hpiv : p ≠ piv := fun h => lt_irrefl _ (hlt.trans_le (h ▸ hle))
      rw [Tableau.permute_a, hs.column hp]
      refine if_congr ?_ rfl rfl
      rw [Equiv.swap_apply_eq_iff, Equiv.swap_apply_of_ne_of_ne hcol hpiv]
    have hpivot : (s.permute (Equiv.swap col piv)).a col col ≠ 0 := by
      rwa [Tableau.permute_a, Equiv.swap_apply_left]
    have hfresh : ∀ j, diagonal col.val j ≠ some col := fun j hj => by
      obtain ⟨rfl, hlt⟩ := diagonal_eq_some hj
      exact lt_irrefl _ hlt
    have hdiagonal : diagonal (col.val + 1) = update (diagonal col.val) col (some col) := by
      funext j
      unfold diagonal
      by_cases hj : j = col
      · rw [hj, update_self, if_pos (Nat.lt_succ_self _)]
      · rw [update_of_ne hj]
        refine if_congr ?_ rfl rfl
        omega
    refine ⟨_, rfl, ?_, ?_⟩
    · rw [foldl_all, normalize_eq hpivot]
      exact ((hA.permute _).scale col (inv_ne_zero hpivot)).clear col col
    · rw [foldl_all, normalize_eq hpivot, hdiagonal]
      exact (hswap.scale hfresh _).clear hfresh (Tableau.scale_one hpivot)

theorem foldlM_serialColumn {A : Rows m} : ∀ (d c : Nat), m ≤ c + d → ∀ s : Tableau (Fin m) Gf16,
    s.From A → s.Reduced (diagonal c) →
    (∃ s', ((List.finRange m).drop c).foldlM serialColumn s = .ok s' ∧ s'.From A ∧
        s'.Reduced (fun j => some j)) ∨
      ((List.finRange m).drop c).foldlM serialColumn s = .error .singularMatrix ∧
        ∃ v : Fin m → Gf16, v ≠ 0 ∧ Matrix.mulVec (Matrix.of A) v = 0
  | 0, c, hc, s, hA, hs => by
    have hdrop : (finRange m).drop c = [] := drop_of_length_le (by rwa [length_finRange])
    have hall : (diagonal c : Fin m → Option (Fin m)) = some := funext fun j => if_pos (j.isLt.trans_le hc)
    rw [hdrop]
    rw [hall] at hs
    exact .inl ⟨s, rfl, hA, hs⟩
  | d + 1, c, hc, s, hA, hs => by
    rcases lt_or_ge c m with hlt | hge
    · have hdrop : (finRange m).drop c = ⟨c, hlt⟩ :: (finRange m).drop (c + 1) := by
        rw [drop_eq_getElem_cons (by rwa [length_finRange]), getElem_finRange]
        rfl
      rw [hdrop, foldlM_cons]
      have hdiag : s.Reduced (diagonal (⟨c, hlt⟩ : Fin m).val) := hs
      rcases serialColumn_spec hA hdiag with ⟨s', hstep, hA', hs'⟩ | ⟨hstep, hv⟩
      · rw [hstep]
        exact foldlM_serialColumn d (c + 1) (by omega) s' hA' hs'
      · rw [hstep]
        exact .inr ⟨rfl, hv⟩
    · exact foldlM_serialColumn d c (by omega) s hA hs

/-- The serial run ends in a left inverse, or finds a kernel vector. -/
theorem invertSerial_spec (A : Rows m) :
    (∃ X, invertSerial A = .ok X ∧ Matrix.of X * Matrix.of A = 1) ∨
      invertSerial A = .error .singularMatrix ∧
        ∃ v : Fin m → Gf16, v ≠ 0 ∧ Matrix.mulVec (Matrix.of A) v = 0 := by
  have hstart : (augmented A).Reduced (diagonal 0) := by
    exact Tableau.reduced_start _
  have hrun : invertSerial A = ((finRange m).foldlM serialColumn (augmented A)).map (·.inv) := rfl
  rw [hrun]
  have hfrom : (augmented A).From A := Tableau.from_start A
  rcases foldlM_serialColumn m 0 (Nat.le_add_left _ _) _ hfrom hstart with ⟨s, hs, hA, hred⟩ | ⟨hs, hv⟩
  · rw [drop_zero] at hs
    rw [hs]
    exact .inl ⟨s.inv, rfl, hred.left_inverse hA fun _ => rfl⟩
  · rw [drop_zero] at hs
    rw [hs]
    exact .inr ⟨rfl, hv⟩

end NzbFast.Repair
