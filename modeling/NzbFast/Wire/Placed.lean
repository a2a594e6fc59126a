import Mathlib.Data.List.Basic
import Mathlib.Order.Basic

/-!
# Bytes at an offset

A byte string placed at an offset, as the partial map from offsets to bytes it is
(`byteAt`). Writing one placed string over another keeps the second's place and
length and takes the first's bytes where the two meet (`overlay`), and `firstDiff`
is the first offset where they disagree.
-/

namespace Wire

open List

/-- The byte at offset `x` of the string `v` placed at `s`. -/
def byteAt (s : Nat) (v : List UInt8) (x : Nat) : Option UInt8 := if s ≤ x then v[x - s]? else none

theorem byteAt_isSome {s x : Nat} {v : List UInt8} :
    (byteAt s v x).isSome ↔ s ≤ x ∧ x < s + v.length := by
  unfold byteAt
  split
  case isTrue h =>
    rw [isSome_getElem?]
    omega
  case isFalse h =>
    simp only [Option.isSome_none, Bool.false_eq_true, false_iff]
    omega

theorem byteAt_eq_none {s x : Nat} {v : List UInt8} :
    byteAt s v x = none ↔ x < s ∨ s + v.length ≤ x := by
  rw [← Option.not_isSome_iff_eq_none, byteAt_isSome]
  omega

theorem byteAt_some_range {s x : Nat} {v : List UInt8} {b : UInt8} (h : byteAt s v x = some b) :
    s ≤ x ∧ x < s + v.length := byteAt_isSome.mp (h ▸ rfl)

@[simp] theorem byteAt_nil (s x : Nat) : byteAt s [] x = none :=
  byteAt_eq_none.mpr (by rw [length_nil]; omega)

theorem byteAt_append (s x : Nat) (v w : List UInt8) :
    byteAt s (v ++ w) x = if x < s + v.length then byteAt s v x else byteAt (s + v.length) w x := by
  unfold byteAt
  by_cases hs : s ≤ x
  · by_cases hx : x < s + v.length
    · rw [if_pos hs, if_pos hx, if_pos hs, getElem?_append_left (by omega)]
    · rw [if_pos hs, if_neg hx, if_pos (by omega), getElem?_append_right (by omega),
        Nat.sub_sub]
  · rw [if_neg hs, if_pos (by omega), if_neg hs]

theorem byteAt_drop {s k x : Nat} {v : List UInt8} :
    byteAt (s + k) (v.drop k) x = if s + k ≤ x then byteAt s v x else none := by
  unfold byteAt
  by_cases hx : s + k ≤ x
  · rw [if_pos hx, if_pos hx, if_pos (by omega), getElem?_drop]
    congr 1
    omega
  · rw [if_neg hx, if_neg hx]

theorem byteAt_take {s k x : Nat} {v : List UInt8} :
    byteAt s (v.take k) x = if x < s + k then byteAt s v x else none := by
  unfold byteAt
  by_cases hs : s ≤ x
  · rw [if_pos hs, if_pos hs, getElem?_take]
    by_cases hx : x < s + k
    · rw [if_pos hx, if_pos (by omega)]
    · rw [if_neg hx, if_neg (by omega)]
  · rw [if_neg hs, if_neg hs, ite_self]

/-- `v` placed at `s`, with the bytes placed at `off` written over it where the two meet. -/
def overlay (s : Nat) (v : List UInt8) (off : Nat) (bytes : List UInt8) : List UInt8 :=
  let a := max off s
  let b := min (off + bytes.length) (s + v.length)
  if a < b then v.take (a - s) ++ (bytes.take (b - off)).drop (a - off) ++ v.drop (b - s) else v

/-- The first offset where a string placed at `off` differs from `v` placed at `s`. -/
def firstDiff (s : Nat) (v : List UInt8) (off : Nat) (bytes : List UInt8) : Option Nat :=
  let a := max off s
  (((v.drop (a - s)).zip (bytes.drop (a - off))).findIdx? fun p => p.1 != p.2).map (a + ·)

theorem length_overlay (s off : Nat) (v bytes : List UInt8) :
    (overlay s v off bytes).length = v.length := by
  unfold overlay
  dsimp only
  split
  case isTrue h =>
    simp only [length_append, length_take, length_drop]
    omega
  case isFalse => rfl

theorem byteAt_splice {s a b x : Nat} {v mid : List UInt8} (hsa : s ≤ a) (hb : b ≤ s + v.length)
    (hmid : a + mid.length = b) :
    byteAt s (v.take (a - s) ++ mid ++ v.drop (b - s)) x =
      if a ≤ x ∧ x < b then byteAt a mid x else byteAt s v x := by
  have hlo : (v.take (a - s)).length = a - s := by
    rw [length_take]
    omega
  rw [append_assoc, byteAt_append, hlo, show s + (a - s) = a by omega, byteAt_append, hmid]
  by_cases hx : x < a
  · rw [if_pos hx, if_neg (by omega), byteAt_take, if_pos (by omega)]
  · rw [if_neg hx]
    by_cases hx' : x < b
    · rw [if_pos hx', if_pos (by omega)]
    · have hdrop := @byteAt_drop s (b - s) x v
      rw [show s + (b - s) = b by omega] at hdrop
      rw [if_neg hx', if_neg (by omega), hdrop, if_pos (by omega)]

theorem byteAt_overlay (s off x : Nat) (v bytes : List UInt8) :
    byteAt s (overlay s v off bytes) x =
      (byteAt s v x).map fun old => (byteAt off bytes x).getD old := by
  have hout : ∀ {a b : Nat}, a = max off s → b = min (off + bytes.length) (s + v.length) →
      ¬ (a ≤ x ∧ x < b) → byteAt s v x = (byteAt s v x).map fun old => (byteAt off bytes x).getD old :=
    fun {a b} ha hb hx => by
      cases hold : byteAt s v x with
      | none => rfl
      | some old =>
        have := byteAt_some_range hold
        rw [Option.map_some, byteAt_eq_none.mpr (by omega : x < off ∨ off + bytes.length ≤ x)]
        rfl
  unfold overlay
  dsimp only
  generalize ha : max off s = a
  generalize hb : min (off + bytes.length) (s + v.length) = b
  split
  case isTrue h =>
    rw [byteAt_splice (by omega) (by omega)
      (by rw [length_drop, length_take]; omega)]
    split
    case isTrue hx =>
      have hdrop := @byteAt_drop off (a - off) x (bytes.take (b - off))
      rw [show off + (a - off) = a by omega] at hdrop
      obtain ⟨old, hold⟩ := Option.isSome_iff_exists.mp
        (byteAt_isSome.mpr (by omega : s ≤ x ∧ x < s + v.length))
      obtain ⟨new, hnew⟩ := Option.isSome_iff_exists.mp
        (byteAt_isSome.mpr (by omega : off ≤ x ∧ x < off + bytes.length))
      rw [hdrop, if_pos hx.1, byteAt_take, if_pos (by omega), hold, hnew]
      rfl
    case isFalse hx => exact hout ha.symm hb.symm hx
  case isFalse h => exact hout ha.symm hb.symm (by omega)

theorem byteAt_max_left {s off x : Nat} {v : List UInt8} (h : max off s ≤ x) :
    byteAt s v x = (v.drop (max off s - s))[x - max off s]? := by
  rw [byteAt, if_pos (by omega), getElem?_drop]
  congr 1
  omega

/-- Two placed strings that differ somewhere have a first such offset, and nothing else does. -/
theorem firstDiff_spec (s off : Nat) (v bytes : List UInt8) :
    (∀ x, firstDiff s v off bytes = some x →
      ∃ b c, byteAt s v x = some b ∧ byteAt off bytes x = some c ∧ b ≠ c) ∧
    ∀ x b c, byteAt s v x = some b → byteAt off bytes x = some c → b ≠ c →
      ∃ y ≤ x, firstDiff s v off bytes = some y := by
  have hright : ∀ {x : Nat}, max off s ≤ x →
      byteAt off bytes x = (bytes.drop (max off s - off))[x - max off s]? := fun {x} h => by
    have hcomm := @byteAt_max_left off s x bytes (by omega)
    rwa [Nat.max_comm s off] at hcomm
  unfold firstDiff
  dsimp only
  constructor
  · intro x hx
    obtain ⟨i, hi, rfl⟩ := Option.map_eq_some_iff.mp hx
    obtain ⟨hlt, hp, -⟩ := findIdx?_eq_some_iff_getElem.mp hi
    have hmem := getElem?_zip_eq_some.mp (getElem?_eq_getElem hlt)
    refine ⟨_, _, ?_, ?_, bne_iff_ne.mp hp⟩
    · rw [byteAt_max_left (Nat.le_add_right _ _), Nat.add_sub_cancel_left]
      exact hmem.1
    · rw [hright (Nat.le_add_right _ _), Nat.add_sub_cancel_left]
      exact hmem.2
  · intro x b c hb hc hne
    have hbr := byteAt_some_range hb
    have hcr := byteAt_some_range hc
    have hle : max off s ≤ x := by omega
    rw [byteAt_max_left hle] at hb
    rw [hright hle] at hc
    have hzip := (@getElem?_zip_eq_some _ _ _ _ (b, c) _).mpr ⟨hb, hc⟩
    cases hfind : ((v.drop (max off s - s)).zip (bytes.drop (max off s - off))).findIdx?
        fun p => p.1 != p.2 with
    | none =>
      have := findIdx?_eq_none_iff.mp hfind (b, c) (mem_of_getElem? hzip)
      simp [hne] at this
    | some i =>
      refine ⟨max off s + i, ?_, rfl⟩
      obtain ⟨hi, -, hmin⟩ := findIdx?_eq_some_iff_getElem.mp hfind
      by_contra hlt
      have hnot := hmin (x - max off s) (by omega)
      obtain ⟨hlen, hval⟩ := List.getElem?_eq_some_iff.mp hzip
      rw [hval] at hnot
      simp [hne] at hnot

/-! ## One by one -/

/-- The placed bytes with their offsets. -/
def spread (s : Nat) : List UInt8 → List (Nat × UInt8)
  | [] => []
  | b :: v => (s, b) :: spread (s + 1) v

theorem spread_append (s : Nat) (v w : List UInt8) :
    spread s (v ++ w) = spread s v ++ spread (s + v.length) w := by
  induction v generalizing s with
  | nil => rfl
  | cons b v ih =>
    rw [cons_append, spread, ih, spread, cons_append, length_cons,
      show s + 1 + v.length = s + (v.length + 1) by omega]

theorem mem_spread {s x : Nat} {b : UInt8} {v : List UInt8} :
    (x, b) ∈ spread s v ↔ byteAt s v x = some b := by
  induction v generalizing s with
  | nil => simp [spread]
  | cons c v ih =>
    rw [spread, mem_cons, ih]
    unfold byteAt
    by_cases hx : s = x
    · subst hx
      rw [if_neg (by omega), if_pos (Nat.le_refl s), Nat.sub_self]
      simp [eq_comm]
    · by_cases hs : s + 1 ≤ x
      · rw [if_pos hs, if_pos (by omega), show x - s = x - (s + 1) + 1 by omega,
          getElem?_cons_succ]
        simp only [Prod.mk.injEq, or_iff_right_iff_imp]
        omega
      · rw [if_neg hs, if_neg (by omega)]
        simp only [Prod.mk.injEq]
        constructor
        · rintro (h | h)
          · omega
          · cases h
        · intro h
          cases h

theorem map_fst_spread (s : Nat) (v : List UInt8) :
    (spread s v).map Prod.fst = List.range' s v.length := by
  induction v generalizing s with
  | nil => rfl
  | cons b v ih => rw [spread, map_cons, ih, length_cons, range'_succ]

end Wire
