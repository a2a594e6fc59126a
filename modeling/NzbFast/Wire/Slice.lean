import Mathlib.Data.List.Basic

/-!
# Slices of a byte map

The bytes that a total map has at consecutive offsets. A part of a slice is a
slice, and so are two put together, so a string known to be a slice is moved
about by arithmetic on its bounds.
-/

namespace Wire

open List

/-- The bytes of `c` from offset `s` to `s + n`. -/
def slice (c : Nat → UInt8) (s n : Nat) : List UInt8 := (List.range n).map fun i => c (s + i)

variable {c d : Nat → UInt8} {s n : Nat}

@[simp] theorem length_slice : (slice c s n).length = n := by
  rw [slice, length_map, length_range]

@[simp] theorem slice_zero : slice c s 0 = [] := rfl

theorem getElem?_slice (i : Nat) : (slice c s n)[i]? = if i < n then some (c (s + i)) else none := by
  unfold slice
  rw [getElem?_map]
  split
  case isTrue h => rw [getElem?_range h, Option.map_some]
  case isFalse h => rw [getElem?_eq_none (by rw [length_range]; omega), Option.map_none]

theorem eq_slice {v : List UInt8} (hlen : v.length = n) (h : ∀ i, i < n → v[i]? = some (c (s + i))) :
    v = slice c s n := by
  refine ext_getElem? fun i => ?_
  rw [getElem?_slice]
  split
  case isTrue hi => exact h i hi
  case isFalse hi => exact getElem?_eq_none (by omega)

theorem slice_congr (h : ∀ x, s ≤ x → x < s + n → c x = d x) : slice c s n = slice d s n :=
  eq_slice length_slice fun i hi => by
    rw [getElem?_slice, if_pos hi, h (s + i) (Nat.le_add_right _ _) (by omega)]

theorem slice_append (m : Nat) : slice c s m ++ slice c (s + m) n = slice c s (m + n) := by
  refine eq_slice (by rw [length_append, length_slice, length_slice]) fun i hi => ?_
  by_cases him : i < m
  · rw [getElem?_append_left (by rw [length_slice]; exact him), getElem?_slice, if_pos him]
  · rw [getElem?_append_right (by rw [length_slice]; omega), length_slice, getElem?_slice,
      if_pos (by omega)]
    congr 2
    omega

/-- Two slices that meet, put together. -/
theorem slice_join {m t : Nat} (h : s + m = t) : slice c s m ++ slice c t n = slice c s (m + n) :=
  h ▸ slice_append m

theorem drop_slice (k : Nat) : (slice c s n).drop k = slice c (s + k) (n - k) := by
  refine eq_slice (by rw [length_drop, length_slice]) fun i hi => ?_
  rw [getElem?_drop, getElem?_slice, if_pos (by omega), Nat.add_assoc]

theorem take_slice {k : Nat} (hk : k ≤ n) : (slice c s n).take k = slice c s k := by
  refine eq_slice (by rw [length_take, length_slice]; omega) fun i hi => ?_
  rw [getElem?_take, if_pos hi, getElem?_slice, if_pos (by omega)]

theorem take_drop_slice {j k : Nat} (hk : j + k ≤ n) :
    ((slice c s n).drop j).take k = slice c (s + j) k := by
  rw [drop_slice, take_slice (by omega)]

def ofBytes (v : List UInt8) (x : Nat) : UInt8 := v.getD x 0

theorem take_drop_eq_slice {v : List UInt8} (h : s + n ≤ v.length) :
    (v.drop s).take n = slice (ofBytes v) s n := by
  refine eq_slice (by rw [length_take, length_drop]; omega) fun i hi => ?_
  rw [getElem?_take, if_pos hi, getElem?_drop, ofBytes, getD_eq_getElem?_getD,
    getElem?_eq_getElem (by omega), Option.getD_some]

end Wire
