import Mathlib.Data.List.Basic
import Mathlib.Data.Nat.Bitwise

/-!
# Bit strings

`bits w n` is the low `w` bits of `n`, high bit first. Packing a sequence of
`w`-bit digits into bytes and unpacking it again are both statements about the
concatenation of such strings (`digits`): splitting off the high part is
`bits_add`, and `digits_injective` recovers the digits.
-/

namespace Wire

open List

/-- The low `w` bits of `n`, high bit first. -/
def bits (w n : Nat) : List Bool := (List.range w).map fun i => n.testBit (w - 1 - i)

@[simp] theorem length_bits (w n : Nat) : (bits w n).length = w := by simp [bits]

@[simp] theorem bits_zero (n : Nat) : bits 0 n = [] := rfl

/-- Two numbers with the same low bits have the same bit string. -/
theorem bits_congr {w m n : Nat} (h : ∀ i, i < w → m.testBit i = n.testBit i) :
    bits w m = bits w n := by
  apply map_congr_left
  intro i hi
  rw [mem_range] at hi
  exact h _ (by omega)

theorem testBit_of_bits_eq {w m n : Nat} (h : bits w m = bits w n) {i : Nat} (hi : i < w) :
    m.testBit i = n.testBit i := by
  have hj := congrArg (·[w - 1 - i]?) h
  have hlt : w - 1 - i < w := by omega
  have hi' : w - 1 - (w - 1 - i) = i := by omega
  simpa [bits, getElem?_range hlt, hi'] using hj

theorem eq_of_bits_eq {w m n : Nat} (hm : m < 2 ^ w) (hn : n < 2 ^ w)
    (h : bits w m = bits w n) : m = n := by
  apply Nat.eq_of_testBit_eq
  intro i
  rcases lt_or_ge i w with hi | hi
  · exact testBit_of_bits_eq h hi
  · have hp : 2 ^ w ≤ 2 ^ i := Nat.pow_le_pow_right (by decide) hi
    rw [Nat.testBit_lt_two_pow (by omega), Nat.testBit_lt_two_pow (by omega)]

/-- The high `a` bits, then the low `b` bits. -/
theorem bits_add (a b n : Nat) : bits (a + b) n = bits a (n >>> b) ++ bits b n := by
  unfold bits
  rw [range_add, map_append, map_map]
  congr 1
  · apply map_congr_left
    intro i hi
    rw [mem_range] at hi
    rw [Nat.testBit_shiftRight]
    congr 1
    omega
  · apply map_congr_left
    intro i hi
    simp only [Function.comp]
    congr 1
    omega

/-- The concatenation of the digits' `w`-bit strings. -/
def digits (w : Nat) (ds : List Nat) : List Bool := ds.flatMap (bits w)

@[simp] theorem digits_nil (w : Nat) : digits w [] = [] := rfl

@[simp] theorem digits_cons (w d : Nat) (ds : List Nat) :
    digits w (d :: ds) = bits w d ++ digits w ds := rfl

@[simp] theorem digits_append (w : Nat) (ds es : List Nat) :
    digits w (ds ++ es) = digits w ds ++ digits w es := flatMap_append

@[simp] theorem length_digits (w : Nat) (ds : List Nat) :
    (digits w ds).length = w * ds.length := by
  induction ds with
  | nil => rfl
  | cons d ds ih => simp [ih, Nat.mul_succ, add_comm]

/-- Equally many digits below `2 ^ w` are determined by their bit string. -/
theorem digits_injective {w : Nat} {ds es : List Nat} (hlen : ds.length = es.length)
    (hd : ∀ d ∈ ds, d < 2 ^ w) (he : ∀ e ∈ es, e < 2 ^ w)
    (h : digits w ds = digits w es) : ds = es := by
  induction ds generalizing es with
  | nil => exact (length_eq_zero_iff.mp hlen.symm).symm
  | cons d ds ih =>
    cases es with
    | nil => simp at hlen
    | cons e es =>
      obtain ⟨h1, h2⟩ := append_inj h (by simp)
      have hde : d = e := eq_of_bits_eq (hd d (by simp)) (he e (by simp)) h1
      have hrest : ds = es := ih (by simpa using hlen) (fun x hx => hd x (by simp [hx]))
        (fun x hx => he x (by simp [hx])) h2
      rw [hde, hrest]

end Wire
