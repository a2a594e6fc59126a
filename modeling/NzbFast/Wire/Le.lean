import Mathlib.Tactic

/-!
# Little-endian fields and where bytes stand

`leBytes n v` writes the `n` low bytes of `v`, `leValue` reads them back.
`Stands v bytes p` says that `v` stands in `bytes` at position `p`; `readAt` is
the positional read that every such statement is about.
-/

namespace Wire

open List

/-- The `n` low bytes of `v`, least significant first. -/
def leBytes : Nat → Nat → List UInt8
  | 0, _ => []
  | n + 1, v => UInt8.ofNat v :: leBytes n (v / 256)

def leValue : List UInt8 → Nat
  | [] => 0
  | b :: bs => b.toNat + 256 * leValue bs

@[simp] theorem length_leBytes (n v : Nat) : (leBytes n v).length = n := by
  induction n generalizing v with
  | zero => rfl
  | succ n ih => simp [leBytes, ih]

/-- Writing and reading back keeps the bits that the field has room for. -/
theorem leValue_leBytes (n v : Nat) : leValue (leBytes n v) = v % 256 ^ n := by
  induction n generalizing v with
  | zero => simp [leBytes, leValue, Nat.mod_one]
  | succ n ih =>
    have hb : (UInt8.ofNat v).toNat = v % 256 := UInt8.toNat_ofNat'
    rw [leBytes, leValue, ih, hb, pow_succ, mul_comm (256 ^ n), Nat.mod_mul]

/-- `v` stands in `bytes` at `p`. -/
def Stands (v bytes : List UInt8) (p : Nat) : Prop := (bytes.drop p).take v.length = v

instance (v bytes : List UInt8) (p : Nat) : Decidable (Stands v bytes p) :=
  inferInstanceAs (Decidable (_ = _))

variable {v w bytes : List UInt8} {p : Nat}

theorem stands_append (a v b : List UInt8) : Stands v (a ++ v ++ b) a.length := by
  unfold Stands
  rw [append_assoc, drop_left, take_left]

theorem stands_of_eq {a b : List UInt8} (h : bytes = a ++ v ++ b) (hp : p = a.length) :
    Stands v bytes p := by
  rw [h, hp]
  exact stands_append a v b

theorem Stands.le (h : Stands v bytes p) (hv : v ≠ []) : p + v.length ≤ bytes.length := by
  have hlen := congrArg length h
  rw [length_take, length_drop] at hlen
  have := length_pos_of_ne_nil hv
  omega

theorem Stands.head {x : UInt8} (h : Stands (x :: v) bytes p) : bytes[p]? = some x := by
  have h0 : ((bytes.drop p).take (x :: v).length)[0]? = some x := by
    rw [h]
    rfl
  rw [getElem?_take_of_lt (by simp), getElem?_drop, add_zero] at h0
  exact h0

/-- What stands at `p` and what stands behind it stand there together. -/
theorem Stands.append (hv : Stands v bytes p) (hw : Stands w bytes (p + v.length)) :
    Stands (v ++ w) bytes p := by
  unfold Stands at *
  rw [length_append, take_add, hv, drop_drop, hw]

theorem Stands.part {a b : List UInt8} (h : Stands (a ++ v ++ b) bytes p) :
    Stands v bytes (p + a.length) := by
  have h' := congrArg (fun l => (l.drop a.length).take v.length) h
  simp only [append_assoc, drop_left, take_left] at h'
  rw [drop_take, drop_drop, take_take, length_append, length_append,
    min_eq_left (by omega)] at h'
  exact h'

theorem Stands.left {b : List UInt8} (h : Stands (v ++ b) bytes p) : Stands v bytes p := by
  have := Stands.part (a := []) (v := v) (b := b) h
  rwa [length_nil, add_zero] at this

theorem Stands.right {a : List UInt8} (h : Stands (a ++ v) bytes p) :
    Stands v bytes (p + a.length) := by
  apply Stands.part
  rwa [append_nil]

theorem Stands.within {i : Nat} (hw : Stands w v i) (hv : Stands v bytes p) :
    Stands w bytes (p + i) := by
  unfold Stands at *
  have hlen := congrArg length hw
  rw [length_take, length_drop] at hlen
  rw [← hv, drop_take, drop_drop, take_take, min_eq_left (by omega)] at hw
  exact hw

/-- Where the bytes are cut off at `s`, positions count from there. -/
theorem stands_drop (s : Nat) : Stands v (bytes.drop s) p ↔ Stands v bytes (s + p) := by
  unfold Stands
  rw [drop_drop]

/-- Fields one behind the other: what stands behind the first `i` of them. -/
theorem drop_flatten {fields : List (List UInt8)} (i : Nat) {k : Nat}
    (hk : ((fields.take i).map List.length).sum = k) :
    fields.flatten.drop k = (fields.drop i).flatten := by
  have hsplit : fields.flatten = (fields.take i).flatten ++ (fields.drop i).flatten := by
    rw [← flatten_append, take_append_drop]
  rw [hsplit, ← hk, ← length_flatten, drop_left]

theorem find?_reverse_range {f : Nat → Bool} {n i : Nat} :
    (List.range n).reverse.find? f = some i ↔
      f i = true ∧ i < n ∧ ∀ j, i < j → j < n → f j = false := by
  induction n with
  | zero => simp
  | succ n ih =>
    rw [range_succ, reverse_append, reverse_singleton, singleton_append, find?_cons]
    cases hn : f n with
    | true =>
      rw [Option.some.injEq]
      constructor
      · rintro rfl
        exact ⟨hn, by omega, by omega⟩
      · rintro ⟨-, hi, hlast⟩
        by_contra hne
        rw [hlast n (by omega) (by omega)] at hn
        cases hn
    | false =>
      rw [ih]
      constructor
      · rintro ⟨hi, hlt, hlast⟩
        refine ⟨hi, by omega, fun j hj hjn => ?_⟩
        rcases lt_or_eq_of_le (Nat.le_of_lt_succ hjn) with hlt' | rfl
        · exact hlast j hj hlt'
        · exact hn
      · rintro ⟨hi, hlt, hlast⟩
        have hne : i ≠ n := by
          rintro rfl
          rw [hi] at hn
          cases hn
        exact ⟨hi, by omega, fun j hj hjn => hlast j hj (by omega)⟩

/-- The first `n` bytes at `off`, where there are as many. -/
def readAt (bytes : List UInt8) (off n : Nat) : Option (List UInt8) :=
  if off + n ≤ bytes.length then some ((bytes.drop off).take n) else none

theorem readAt_eq_some {off n : Nat} : readAt bytes off n = some v ↔
    v.length = n ∧ Stands v bytes off ∧ off + n ≤ bytes.length := by
  unfold readAt Stands
  constructor
  · intro h
    split at h
    case isTrue hle =>
      obtain rfl := Option.some.inj h
      have hlen : ((bytes.drop off).take n).length = n := by
        rw [length_take, length_drop]
        omega
      exact ⟨hlen, by rw [hlen], hle⟩
    case isFalse => cases h
  · rintro ⟨rfl, h, hle⟩
    rw [if_pos hle, h]

end Wire
