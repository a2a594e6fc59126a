import NzbFast.Rar.Arith
import NzbFast.Rust.Text
import Mathlib.Data.Char

/-!
# Recomputing a group's bases

`reresolve_recompute` of `crates/nzbkit/src/extract/settle.rs`, over the slots
of one group as it reads them: arithmetic placement where the gate places the
set, else the chain over the volumes that have an index, with the arithmetic
placements that the chain has not reached carried over. `volSortKey` is
`vol_sort_key` of `crates/nzbkit-base/src/names.rs`.
-/

namespace NzbFast.Rar

open NzbFast.Rust Fold

/-! ## The volume order of names -/

/-- What stands behind the last occurrence of `pat`. -/
def afterLast (pat : Text) : Text → Option Text
  | [] => if pat = [] then some [] else none
  | c :: cs =>
    match afterLast pat cs with
    | some rest => some rest
    | none => if pat.isPrefixOf (c :: cs) then some ((c :: cs).drop pat.length) else none

def checkedPow (b e : Nat) : Option UInt64 :=
  if b ^ e < 2 ^ 64 then some (UInt64.ofNat (b ^ e)) else none

/-- The number of a `.r00`, `.s00` … continuation. -/
def letterKey (tail : Text) : Option UInt64 :=
  match tail with
  | [] => none
  | c :: digits =>
    if 2 ≤ (encode tail).length ∧ 'r' ≤ c ∧ c ≤ 'z' then
      (parseU64 digits).bind fun n =>
        (checkedPow 10 (((encode tail).length - 1) % 2 ^ 32)).bind fun span =>
          (checkedMul (UInt64.ofNat (c.toNat - 'r'.toNat)) span).bind fun base =>
            (checkedAdd base n).bind fun k => checkedAdd k 1
    else none

/-- The number of a `.001`, `.002` … volume. -/
def numericKey (tail : Text) : Option UInt64 :=
  if 2 ≤ (encode tail).length ∧ tail.all Char.isDigit then parseU64 tail else none

def U64_MAX : UInt64 := UInt64.ofNat (2 ^ 64 - 1)

def volSortKey (name : Text) : UInt64 × Text :=
  let lower := name.map Char.toLower
  let part := (afterLast ".part".toList lower).bind fun tail =>
    parseU64 (tail.takeWhile Char.isDigit)
  match part with
  | some n => (n, lower)
  | none =>
    if ".rar".toList.isSuffixOf lower then (0, lower)
    else
      match (afterLast ['.'] lower).bind fun tail => (letterKey tail).or (numericKey tail) with
      | some n => (n, lower)
      | none => (U64_MAX, lower)

/-! ## Groups -/

/-- A slot of the group with its mapper. -/
structure Slot where
  id : Nat
  name : Text
  mapper : Mapped
  deriving DecidableEq

/-- The group as the recompute reads and writes it; bases are by slot and entry. -/
structure Group where
  bases : Table Key UInt64 := ∅
  arithProvisional : Table Key UInt64 := ∅
  arithEver : Bool := false
  resolveStamp : Option (Nat × Nat × Nat) := none

/-- The table of a list of entries, the later ones last. -/
def tableOf (l : List (Key × UInt64)) : Table Key UInt64 :=
  l.foldl (fun t p => t.insert p.1 p.2) ∅

def numbered (slots : List Slot) : Nat :=
  (slots.filter fun s => s.mapper.volumeNumber.isSome).length

/-- How many slots, how many of them with a volume number, and how many entries. -/
def stampOf (slots : List Slot) : Nat × Nat × Nat :=
  (slots.length, numbered slots, (slots.map fun s => s.mapper.entries.length).sum)

/-! ## The gate -/

def mappers (slots : List Slot) : List Mapped := slots.map Slot.mapper

/-- The gate over the group, whose slots must all have a parsed entry. -/
def gateOf (slots : List Slot) : ArithGate :=
  if (mappers slots).all fun m => !m.entries.isEmpty then resolveArithmetic (mappers slots)
  else .shape

/-- The end of the run of volumes from 0 in a sorted list of numbers. -/
def runEnd : UInt64 → List UInt64 → UInt64
  | stop, [] => stop
  | stop, v :: vs => if v = stop then runEnd (stop + 1) vs else stop

def volNumber (s : Slot) : UInt64 := s.mapper.volumeNumber.getD 0

/-- The group with the set placed arithmetically; the pieces beyond the run from
volume 0 are provisional. -/
def placeGroup (slots : List Slot) (bases : List UInt64) (g : Group) : Group :=
  let stop := runEnd 0 ((slots.map volNumber).insertionSort (· ≤ ·))
  let placed := (slots.zip bases).map fun p => ((p.1.id, 0), p.2)
  let beyond := ((slots.zip bases).filter fun p => decide (stop ≤ volNumber p.1)).map fun p =>
    ((p.1.id, 0), p.2)
  { bases := tableOf placed
    arithProvisional := tableOf beyond
    arithEver := g.arithEver || !beyond.isEmpty
    resolveStamp := some (stampOf slots) }

/-! ## The chain -/

/-- The index of a slot: its volume number where every slot has one, else what
its name says. -/
def indexOf (allNumbered : Bool) (s : Slot) : Option UInt64 :=
  if allNumbered then s.mapper.volumeNumber
  else if (volSortKey s.name).1 ≠ U64_MAX then some (volSortKey s.name).1
  else none

def slotKey (allNumbered : Bool) (s : Slot) : Nat ×ₗ Nat ×ₗ Text ×ₗ Nat :=
  let rank := ((indexOf allNumbered s).map fun i => i.toNat + 1).getD 0
  toLex (rank, toLex ((volSortKey s.name).1.toNat, toLex ((volSortKey s.name).2, s.id)))

def allNumbered (slots : List Slot) : Bool := numbered slots == slots.length

def indexed (slots : List Slot) : List (UInt64 × Slot) :=
  (slots.insertionSort fun s t => slotKey (allNumbered slots) s ≤ slotKey (allNumbered slots) t)
    |>.filterMap fun s => (indexOf (allNumbered slots) s).map (·, s)

def volsOf (slots : List Slot) : Vols := (indexed slots).map fun v => (v.1, v.2.mapper)

/-- The slot and entry of a piece of the sorted volumes. -/
def toSlot (slots : List Slot) (k : Key) : Option Key :=
  (indexed slots)[k.1]?.map fun v => (v.2.id, k.2)

def chainBases (slots : List Slot) : Table Key UInt64 :=
  tableOf <| (pieces (volsOf slots)).filterMap fun p =>
    (toSlot slots p.1).bind fun k =>
      ((resolveIndexed (volsOf slots)).bases.lookup p.1).map (k, ·)

def unconfirmed (chain : Table Key UInt64) (k : Key) (pv : UInt64) : Option UInt64 :=
  match chain.lookup k with
  | some cv => if cv = pv then none else some pv
  | none => some pv

def contradicts (chain provisional : Table Key UInt64) : Bool :=
  decide (∃ k ∈ provisional.keys, (chain.lookup k).isSome ∧ chain.lookup k ≠ provisional.lookup k)

def chainGroup (slots : List Slot) (g : Group) : Group × Option String :=
  let chain := chainBases slots
  let provisional := g.arithProvisional.filterMap (unconfirmed chain)
  let group : Group :=
    { g with
      bases := provisional ∪ chain
      arithProvisional := provisional
      resolveStamp := some (stampOf slots) }
  if contradicts chain g.arithProvisional then (group, some "non-uniform store set")
  else if (resolveIndexed (volsOf slots)).contradiction then
    (group, some "inconsistent volume chain")
  else (group, none)

/-- `reresolve_recompute`: the group's new bases, and why it must fall back. -/
def recompute (slots : List Slot) (g : Group) : Group × Option String :=
  match gateOf slots with
  | .place bases _ => (placeGroup slots bases g, none)
  | .numbers =>
    if g.arithProvisional ≠ ∅ then (g, some "non-uniform store set") else chainGroup slots g
  | .shape => chainGroup slots g

end NzbFast.Rar
