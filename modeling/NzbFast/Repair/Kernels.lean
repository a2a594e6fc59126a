import NzbFast.Gf.Field
import NzbFast.Tiling.Spans

/-!
# Folding words

What one call of a fold kernel does (`crates/nzbkit-base/src/gf16.rs`): `xor_mul_into` folds
one source into a piece of a row, the fused kernels fold several at once and say how many
words they covered. No kernel looks at the destination to decide anything, so a call is
the list of the words it folds, each with its coefficient and the word read from the source.

A source holds little-endian words, or, split for the planar kernel, the low bytes of every
32 words followed by their high bytes (`preparePlanar`).
-/

namespace NzbFast.Repair

open Gf16 Tiling Multiset List

/-! ## Words of a source -/

/-- The words of a source: an odd trailing byte is the low half of a final word. -/
def srcWords : List UInt8 → List Gf16
  | lo :: hi :: rest => ofNat (lo.toNat + 256 * hi.toNat) :: srcWords rest
  | [lo] => [ofNat lo.toNat]
  | [] => []

/-- Word `k` of a source that zeros follow. -/
def srcWord (src : List UInt8) (k : Nat) : Gf16 :=
  ofNat ((src.getD (2 * k) 0).toNat + 256 * (src.getD (2 * k + 1) 0).toNat)

theorem length_srcWords : ∀ src : List UInt8, (srcWords src).length = (src.length + 1) / 2
  | lo :: hi :: rest => by
    rw [srcWords, length_cons, length_srcWords rest, length_cons, length_cons]
    omega
  | [lo] => by rw [srcWords, length_singleton, length_singleton]
  | [] => rfl

variable {k w0 w1 : Nat} {src : List UInt8}

theorem srcWord_of_le (h : src.length ≤ 2 * k) : srcWord src k = 0 := by
  unfold srcWord
  rw [getD_eq_default _ _ h, getD_eq_default _ _ (by omega)]
  rfl

theorem getD_srcWords : ∀ (src : List UInt8) (k : Nat), (srcWords src).getD k 0 = srcWord src k
  | lo :: hi :: rest, 0 => rfl
  | lo :: hi :: rest, k + 1 => by
    rw [srcWords, getD_cons_succ, getD_srcWords rest k]
    rfl
  | [lo], 0 => rfl
  | [lo], k + 1 => (srcWord_of_le (by rw [length_singleton]; omega)).symm
  | [], k => (srcWord_of_le (Nat.zero_le _)).symm

/-- `&src[sb..eb]`: the bytes a source has for the words from `w0` to `w1`. -/
def window (src : List UInt8) (w0 w1 : Nat) : List UInt8 :=
  (src.take (min (w1 * 2) src.length)).drop (min (w0 * 2) src.length)

theorem length_window (src : List UInt8) (w0 w1 : Nat) :
    (window src w0 w1).length = min (w1 * 2) src.length - min (w0 * 2) src.length := by
  unfold window
  rw [length_drop, length_take, min_assoc, min_self]

theorem getD_window {x : Nat} (h : w0 * 2 + x < w1 * 2) :
    (window src w0 w1).getD x 0 = src.getD (w0 * 2 + x) 0 := by
  unfold window
  rw [getD_eq_getElem?_getD, getD_eq_getElem?_getD, getElem?_drop]
  rcases lt_or_ge (w0 * 2 + x) src.length with hin | hout
  · rw [min_eq_left (by omega : w0 * 2 ≤ src.length), getElem?_take_of_lt (by omega)]
  · rw [getElem?_eq_none (by rw [length_take]; omega), getElem?_eq_none hout]

theorem srcWord_window (h : w0 + k < w1) : srcWord (window src w0 w1) k = srcWord src (w0 + k) := by
  unfold srcWord
  rw [getD_window (by omega), getD_window (by omega)]
  have heven : w0 * 2 + 2 * k = 2 * (w0 + k) := by omega
  have hodd : w0 * 2 + (2 * k + 1) = 2 * (w0 + k) + 1 := by omega
  rw [heven, hodd]

/-! ## The planar layout -/

/-- Where a word of 32 lies among the low bytes: the packs work on halves of a register, so its
second and third group of eight change places. -/
def planarIndex (p : Nat) : Nat :=
  if 8 ≤ p ∧ p < 16 then p + 8 else if 16 ≤ p ∧ p < 24 then p - 8 else p

theorem planarIndex_lt {p : Nat} (h : p < 32) : planarIndex p < 32 := by
  unfold planarIndex
  split
  · omega
  · split
    · omega
    · exact h

theorem planarIndex_planarIndex (p : Nat) : planarIndex (planarIndex p) = p := by
  unfold planarIndex
  grind

/-- `prepare_planar`: every 64 bytes split into the low bytes of their 32 words, then the high ones. -/
def preparePlanar (src : List UInt8) : List UInt8 :=
  (List.range src.length).map fun x =>
    src.getD (x / 64 * 64 + 2 * planarIndex (x % 32) + x % 64 / 32) 0

/-- Word `k` of a source in the planar layout. -/
def planarWord (src : List UInt8) (k : Nat) : Gf16 :=
  ofNat ((src.getD (k / 32 * 64 + planarIndex (k % 32)) 0).toNat +
    256 * (src.getD (k / 32 * 64 + planarIndex (k % 32) + 32) 0).toNat)

@[simp] theorem length_preparePlanar (src : List UInt8) : (preparePlanar src).length = src.length := by
  unfold preparePlanar
  rw [length_map, length_range]

theorem planarWord_preparePlanar (hwhole : 64 ∣ src.length) (hk : 2 * k < src.length) :
    planarWord (preparePlanar src) k = srcWord src k := by
  have hp := planarIndex_lt (Nat.mod_lt k (by decide : 0 < 32))
  have hback := planarIndex_planarIndex (k % 32)
  have hget : ∀ x < src.length, (preparePlanar src).getD x 0 =
      src.getD (x / 64 * 64 + 2 * planarIndex (x % 32) + x % 64 / 32) 0 := fun x hx => by
    rw [preparePlanar, getD_eq_getElem?_getD, getElem?_map, getElem?_range hx]
    rfl
  unfold planarWord srcWord
  generalize planarIndex (k % 32) = p at hp hback ⊢
  rw [hget _ (by omega), hget _ (by omega)]
  have hlow : (k / 32 * 64 + p) % 32 = p := by omega
  have hhigh : (k / 32 * 64 + p + 32) % 32 = p := by omega
  rw [hlow, hhigh, hback]
  have heven : (k / 32 * 64 + p) / 64 * 64 + 2 * (k % 32) + (k / 32 * 64 + p) % 64 / 32 = 2 * k := by
    omega
  have hodd : (k / 32 * 64 + p + 32) / 64 * 64 + 2 * (k % 32) + (k / 32 * 64 + p + 32) % 64 / 32 =
      2 * k + 1 := by omega
  rw [heven, hodd]

theorem planarWord_window (hw0 : 32 ∣ w0) (hw1 : 32 ∣ w1) (h : w0 + k < w1) :
    planarWord (window src w0 w1) k = planarWord src (w0 + k) := by
  have hp := planarIndex_lt (Nat.mod_lt k (by decide : 0 < 32))
  unfold planarWord
  have hmod : (w0 + k) % 32 = k % 32 := by omega
  rw [hmod]
  generalize planarIndex (k % 32) = p at hp ⊢
  rw [getD_window (by omega), getD_window (by omega)]
  have hlow : w0 * 2 + (k / 32 * 64 + p) = (w0 + k) / 32 * 64 + p := by omega
  have hhigh : w0 * 2 + (k / 32 * 64 + p + 32) = (w0 + k) / 32 * 64 + p + 32 := by omega
  rw [hlow, hhigh]

/-! ## One call -/

/-- One word of one source folded into a row, or passed over: a zero coefficient skips a source that
is folded singly. -/
structure Visit where
  row : Nat
  word : Nat
  src : Nat
  c : Gf16
  value : Gf16
  skipped : Bool

def Visit.cell (v : Visit) : Nat × Nat × Nat := (v.row, v.src, v.word)

/-- A `&mut [u16]`: the part of a row it borrows. -/
structure Slice where
  row : Nat
  start : Nat
  len : Nat

/-- `&mut d[w0..w1]`. -/
def Slice.sub (d : Slice) (w0 w1 : Nat) : Slice := ⟨d.row, d.start + w0, w1 - w0⟩

/-- `FoldTable::new(c).xor_mul_into(d, bytes)`, which a zero coefficient skips. -/
def xorMulInto (d : Slice) (src : Nat) (c : Gf16) (bytes : List UInt8) : List Visit :=
  (List.range (srcWords bytes).length).map fun k =>
    ⟨d.row, d.start + k, src, c, (srcWords bytes).getD k 0, decide (c = 0)⟩

/-- A fused kernel over the first `done` words: a destination word is loaded once for all sources. -/
def xorMulMulti (d : Slice) (done : Nat) (srcs : List (Nat × Gf16 × (Nat → Gf16))) : List Visit :=
  (List.range done).flatMap fun k => srcs.map fun s => ⟨d.row, d.start + k, s.1, s.2.1, s.2.2 k, false⟩

/-- What a visit of a slice may be: the word `k` of a source, with its coefficient. -/
structure Visit.At (v : Visit) (d : Slice) (i k : Nat) (a b : Gf16) : Prop where
  row : v.row = d.row
  word : v.word = d.start + k
  src : v.src = i
  c : v.c = a
  value : v.value = b
  skipped : v.skipped = true → a = 0

theorem mem_xorMulInto {d : Slice} {i : Nat} {c : Gf16} {bytes : List UInt8} {v : Visit}
    (h : v ∈ xorMulInto d i c bytes) : ∃ k, 2 * k < bytes.length ∧ v.At d i k c (srcWord bytes k) := by
  obtain ⟨k, hk, rfl⟩ := mem_map.mp h
  rw [List.mem_range, length_srcWords] at hk
  exact ⟨k, by omega, rfl, rfl, rfl, rfl, getD_srcWords bytes k, of_decide_eq_true⟩

theorem mem_xorMulMulti {d : Slice} {done : Nat} {srcs : List (Nat × Gf16 × (Nat → Gf16))} {v : Visit}
    (h : v ∈ xorMulMulti d done srcs) : ∃ s ∈ srcs, ∃ k < done, v.At d s.1 k s.2.1 (s.2.2 k) := by
  obtain ⟨k, hk, hv⟩ := mem_flatMap.mp h
  obtain ⟨s, hs, rfl⟩ := mem_map.mp hv
  exact ⟨s, hs, k, List.mem_range.mp hk, rfl, rfl, rfl, rfl, rfl, fun h => (by cases h)⟩

/-! ## Cells -/

def cells (vs : List Visit) : Multiset (Nat × Nat × Nat) := (vs.map Visit.cell : List (Nat × Nat × Nat))

/-- The cells of the words from `w0` to `w1` of a slice and one source. -/
def span (d : Slice) (i w0 w1 : Nat) : Multiset (Nat × Nat × Nat) :=
  ((between (w0, w1)).map fun k => (d.row, i, d.start + k) : List (Nat × Nat × Nat))

@[simp] theorem cells_nil : cells [] = 0 := rfl

theorem cells_append (vs ws : List Visit) : cells (vs ++ ws) = cells vs + cells ws := by
  unfold cells
  rw [map_append, coe_add]

theorem cells_flatMap {α : Type} (l : List α) (f : α → List Visit) :
    cells (l.flatMap f) = (l : Multiset α).bind fun x => cells (f x) := by
  unfold cells
  rw [map_flatMap, ← coe_bind]

theorem span_append (d : Slice) (i : Nat) {a b c : Nat} (hab : a ≤ b) (hbc : b ≤ c) :
    span d i a b + span d i b c = span d i a c := by
  unfold span
  rw [coe_add, ← map_append, between_append hab hbc]

theorem cells_xorMulInto (d : Slice) (i : Nat) (c : Gf16) (bytes : List UInt8) :
    cells (xorMulInto d i c bytes) = span d i 0 ((bytes.length + 1) / 2) := by
  unfold cells xorMulInto span between
  rw [List.map_map, length_srcWords, Nat.sub_zero, ← List.range_eq_range']
  rfl

theorem cells_xorMulMulti (d : Slice) (done : Nat) (srcs : List (Nat × Gf16 × (Nat → Gf16))) :
    cells (xorMulMulti d done srcs) =
      (srcs : Multiset (Nat × Gf16 × (Nat → Gf16))).bind fun s => span d s.1 0 done := by
  have hrow : ∀ k, cells (srcs.map fun s => ⟨d.row, d.start + k, s.1, s.2.1, s.2.2 k, false⟩) =
      (srcs : Multiset (Nat × Gf16 × (Nat → Gf16))).bind fun s => {(d.row, s.1, d.start + k)} := by
    intro k
    rw [bind_singleton, map_coe]
    unfold cells
    rw [List.map_map]
    rfl
  unfold xorMulMulti
  rw [cells_flatMap, bind_congr fun k _ => hrow k, bind_bind]
  refine bind_congr fun s _ => ?_
  rw [bind_singleton, map_coe]
  unfold span between
  rw [Nat.sub_zero, ← range_eq_range']

end NzbFast.Repair
