import Mathlib.Tactic.Common

/-!
# Streams in pieces

A stateful transform is fed a string cut into calls. A transform that xors what stands at a
position with a keystream does so whatever the cut (`feed_xorFrom`), and one that takes byte after
byte does not see the cut (`feed_bytewise`).
-/

namespace Wire

open List

variable {α σ : Type}

/-- The pieces of a string that is cut at the given lengths. -/
def cut : List Nat → List α → List (List α)
  | [], data => [data]
  | n :: ns, data => data.take n :: cut ns (data.drop n)

@[simp] theorem flatten_cut (ns : List Nat) (data : List α) : (cut ns data).flatten = data := by
  induction ns generalizing data with
  | nil => exact append_nil data
  | cons n ns ih => rw [cut, flatten_cons, ih, take_append_drop]

/-- What a transform makes of a string, call after call. -/
def feed (f : σ → List α → σ × List α) : σ → List (List α) → List α
  | _, [] => []
  | s, piece :: pieces => (f s piece).2 ++ feed f (f s piece).1 pieces

def bytewise (f : σ → α → σ × α) : σ → List α → σ × List α
  | s, [] => (s, [])
  | s, b :: rest => ((bytewise f (f s b).1 rest).1, (f s b).2 :: (bytewise f (f s b).1 rest).2)

theorem bytewise_append (f : σ → α → σ × α) (s : σ) (a b : List α) :
    bytewise f s (a ++ b) =
      ((bytewise f (bytewise f s a).1 b).1, (bytewise f s a).2 ++ (bytewise f (bytewise f s a).1 b).2) := by
  induction a generalizing s with
  | nil => rfl
  | cons x a ih => rw [cons_append, bytewise, ih, bytewise, cons_append]

theorem feed_bytewise (f : σ → α → σ × α) (s : σ) (pieces : List (List α)) :
    feed (bytewise f) s pieces = (bytewise f s pieces.flatten).2 := by
  induction pieces generalizing s with
  | nil => rfl
  | cons a pieces ih => rw [feed, ih, flatten_cons, bytewise_append]

/-! ## Keystreams -/

/-- A string xored with the keystream from position `p` on. -/
def xorFrom (ks : Nat → UInt8) : Nat → List UInt8 → List UInt8
  | _, [] => []
  | p, b :: rest => (b ^^^ ks p) :: xorFrom ks (p + 1) rest

variable (ks : Nat → UInt8)

theorem xorFrom_append (p : Nat) (a b : List UInt8) :
    xorFrom ks p (a ++ b) = xorFrom ks p a ++ xorFrom ks (p + a.length) b := by
  induction a generalizing p with
  | nil => rfl
  | cons x a ih => rw [cons_append, xorFrom, ih, xorFrom, length_cons, Nat.add_right_comm,
      cons_append, Nat.add_assoc]

theorem xorFrom_xorFrom (p : Nat) (data : List UInt8) : xorFrom ks p (xorFrom ks p data) = data := by
  induction data generalizing p with
  | nil => rfl
  | cons b rest ih => rw [xorFrom, xorFrom, ih, UInt8.xor_assoc, UInt8.xor_self, UInt8.xor_zero]

theorem getElem?_xorFrom (p : Nat) (data : List UInt8) (i : Nat) :
    (xorFrom ks p data)[i]? = data[i]?.map (· ^^^ ks (p + i)) := by
  induction data generalizing p i with
  | nil => rfl
  | cons b rest ih =>
    cases i with
    | zero => rfl
    | succ i => rw [xorFrom, getElem?_cons_succ, ih, getElem?_cons_succ, Nat.add_right_comm, Nat.add_assoc]

theorem zipWith_eq_xorFrom {p : Nat} {data block : List UInt8}
    (h : ∀ i < data.length, block[i]? = some (ks (p + i))) :
    List.zipWith (· ^^^ ·) data block = xorFrom ks p data := by
  refine ext_getElem? fun i => ?_
  rw [getElem?_zipWith, getElem?_xorFrom]
  cases hd : data[i]? with
  | none => rfl
  | some b => rw [h i (List.getElem?_eq_some_iff.mp hd).1, Option.map_some]

variable {ks}

/-- A transform that knows its position xors the keystream, whatever the cut. -/
theorem feed_xorFrom {At : Nat → σ → Prop} {f : σ → List UInt8 → σ × List UInt8}
    (h : ∀ p s data, At p s → At (p + data.length) (f s data).1 ∧ (f s data).2 = xorFrom ks p data) :
    ∀ {p s} (pieces : List (List UInt8)), At p s → feed f s pieces = xorFrom ks p pieces.flatten := by
  intro p s pieces
  induction pieces generalizing p s with
  | nil => exact fun _ => rfl
  | cons piece pieces ih =>
    intro hs
    obtain ⟨hnext, hout⟩ := h p s piece hs
    rw [feed, hout, ih hnext, flatten_cons, xorFrom_append]

end Wire
