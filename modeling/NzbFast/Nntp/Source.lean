import Mathlib.Tactic

/-!
# What a response is read from

A `MultilineSource` (`crates/nzbkit-base/src/nntp/multiline.rs`, `wirebuf.rs`):
a read buffer in front of a socket. The socket is the list of chunks its reads
deliver; a read with less room than a chunk leaves the rest of it for the next.
`pending` is every byte not yet consumed, and each operation is described by what
it does to `pending`.
-/

namespace NzbFast.Nntp

open List

/-- The bytes one read of the socket delivers. -/
abbrev Chunk := {b : List UInt8 // b ≠ []}

structure Source where
  buf : List UInt8
  capacity : Nat
  directCap : Nat
  socket : List Chunk
  capacity_pos : 0 < capacity
  direct_le : directCap ≤ capacity

/-- `Vec<u8>`. -/
structure Vec where
  bytes : List UInt8 := []
  capacity : Nat := 0

/-- `Vec::reserve`, with the growth of `RawVec`. -/
def Vec.reserve (v : Vec) (additional : Nat) : Vec :=
  if v.capacity - v.bytes.length < additional then
    { v with capacity := max (max (2 * v.capacity) (v.bytes.length + additional)) 8 }
  else v

/-- `Vec::extend_from_slice`. -/
def Vec.extend (v : Vec) (b : List UInt8) : Vec :=
  let v := v.reserve b.length
  { v with bytes := v.bytes ++ b }

def Vec.truncate (v : Vec) (n : Nat) : Vec := { v with bytes := v.bytes.take n }

@[simp] theorem Vec.bytes_reserve (v : Vec) (n : Nat) : (v.reserve n).bytes = v.bytes := by
  unfold Vec.reserve
  split <;> rfl

@[simp] theorem Vec.bytes_extend (v : Vec) (b : List UInt8) :
    (v.extend b).bytes = v.bytes ++ b := by
  simp [Vec.extend]

/-- One read of the socket into `room` bytes; nothing means the end of the stream. -/
def pollRead (room : Nat) : List Chunk → List UInt8 × List Chunk
  | [] => ([], [])
  | c :: cs =>
    (c.val.take room, if h : c.val.drop room = [] then cs else ⟨c.val.drop room, h⟩ :: cs)

def streamOf (socket : List Chunk) : List UInt8 := socket.flatMap (·.val)

theorem pollRead_stream (room : Nat) (socket : List Chunk) :
    (pollRead room socket).1 ++ streamOf (pollRead room socket).2 = streamOf socket := by
  cases socket with
  | nil => rfl
  | cons c cs =>
    have hcons : ∀ (c : Chunk) (cs : List Chunk), streamOf (c :: cs) = c.val ++ streamOf cs :=
      fun c cs => flatMap_cons
    rw [pollRead, hcons]
    by_cases h : c.val.drop room = []
    · rw [dif_pos h, take_of_length_le (drop_eq_nil_iff.mp h)]
    · rw [dif_neg h, hcons, ← append_assoc, take_append_drop]

theorem pollRead_length (room : Nat) (socket : List Chunk) :
    (pollRead room socket).1.length ≤ room := by
  cases socket with
  | nil => exact Nat.zero_le _
  | cons c cs => exact length_take_le _ _

/-- A read comes back empty only at the end. -/
theorem pollRead_eq_nil {room : Nat} (hroom : 0 < room) {socket : List Chunk}
    (h : (pollRead room socket).1 = []) : streamOf socket = [] := by
  cases socket with
  | nil => rfl
  | cons c cs =>
    rcases take_eq_nil_iff.mp h with hr | hc
    · omega
    · exact absurd hc c.property

namespace Source

/-- Every byte not yet consumed. -/
def pending (s : Source) : List UInt8 := s.buf ++ streamOf s.socket

/-- `fill_buf`: read only when nothing is buffered. -/
def fillBuf (s : Source) : Source :=
  if s.buf = [] then
    let (b, socket) := pollRead s.capacity s.socket
    { s with buf := b, socket := socket }
  else s

def consume (s : Source) (n : Nat) : Source := { s with buf := s.buf.drop n }

/-- `unread`; `none` is its assertion. -/
def unread (s : Source) (tail : List UInt8) : Option Source :=
  if s.buf = [] ∧ tail.length ≤ s.capacity then some { s with buf := tail } else none

@[simp] theorem pending_fillBuf (s : Source) : s.fillBuf.pending = s.pending := by
  unfold fillBuf
  split
  case isTrue h =>
    unfold pending
    rw [h, pollRead_stream, nil_append]
  case isFalse => rfl

theorem fillBuf_eq_nil {s : Source} (h : s.fillBuf.buf = []) : s.pending = [] := by
  unfold fillBuf at h
  split at h
  case isTrue hb => rw [pending, hb, pollRead_eq_nil s.capacity_pos h, nil_append]
  case isFalse hb => exact absurd h hb

theorem pending_consume {s : Source} {n : Nat} (h : n ≤ s.buf.length) :
    (s.consume n).pending = s.pending.drop n := by
  unfold pending consume
  rw [drop_append_of_le_length h]

end Source

end NzbFast.Nntp
