import Mathlib.Data.Finset.Lattice.Fold
import Mathlib.Order.Interval.Finset.Nat
import NzbFast.Live.Twins

/-!
# Damage told to a twin

`slot_twin_damage` of `crates/nzbkit-base/src/live.rs`: the bad blocks of a slot's owning set as
blocks of every other set that describes the same file, through the bytes they share.
-/

namespace NzbFast.Live

open NzbFast.Par2 List

/-! ## Two grids over one file -/

/-- The bytes of block `b` of a grid of `size`, as far as the file goes. -/
def blockBytes (size length b : Nat) : Set Nat := {x | b * size ≤ x ∧ x < b * size + size ∧ x < length}

/-- The bytes of a file that lie in a damaged block. -/
def damagedBytes (size length : Nat) (bad : List Nat) : Set Nat := ⋃ b ∈ bad, blockBytes size length b

/-- What one bad block adds. -/
def touch (obs tbs length : Nat) (touched : Finset Nat) (b : Nat) : Finset Nat :=
  let start := min (b * obs) U64_MAX
  let stop := min (min (start + obs) U64_MAX) length
  if stop ≤ start then touched else touched ∪ Finset.Icc (start / tbs) ((stop - 1) / tbs)

/-- The blocks of size `tbs` that the bad blocks of size `obs` reach into. -/
def reached (obs tbs length : Nat) (bad : List Nat) : Finset Nat := bad.foldl (touch obs tbs length) ∅

/-- A nonempty range of bytes meets a block exactly if the block is between those of its ends. -/
theorem mem_Icc_div_iff {size start stop k : Nat} (hsize : 0 < size) (h : start < stop) :
    k ∈ Finset.Icc (start / size) ((stop - 1) / size) ↔
      ∃ x, start ≤ x ∧ x < stop ∧ k * size ≤ x ∧ x < k * size + size := by
  have hlo : start / size ≤ k ↔ start < k * size + size := by
    rw [← Nat.lt_succ_iff, Nat.div_lt_iff_lt_mul hsize, Nat.succ_mul]
  have hhi : k ≤ (stop - 1) / size ↔ k * size ≤ stop - 1 := Nat.le_div_iff_mul_le hsize
  rw [Finset.mem_Icc, hlo, hhi]
  constructor
  · rintro ⟨hbelow, habove⟩
    exact ⟨max start (k * size), by omega, by omega, by omega, by omega⟩
  · rintro ⟨x, hx⟩
    omega

variable {obs tbs length : Nat}

theorem mem_touch (hobs : 0 < obs) (htbs : 0 < tbs) (hlen : length ≤ U64_MAX) (s : Finset Nat) (b k : Nat) :
    k ∈ touch obs tbs length s b ↔
      k ∈ s ∨ (blockBytes tbs length k ∩ blockBytes obs length b).Nonempty := by
  have hmeet : (blockBytes tbs length k ∩ blockBytes obs length b).Nonempty ↔
      ∃ x, b * obs ≤ x ∧ x < min (b * obs + obs) length ∧ k * tbs ≤ x ∧ x < k * tbs + tbs :=
    ⟨fun ⟨x, hk, hb⟩ => ⟨x, hb.1, lt_min hb.2.1 hb.2.2, hk.1, hk.2.1⟩, fun ⟨x, hlo, hhi, hk⟩ =>
      have hx := lt_min_iff.mp hhi
      ⟨x, ⟨hk.1, hk.2, hx.2⟩, hlo, hx⟩⟩
  unfold touch
  dsimp only
  rw [hmeet]
  -- a saturated start is past the end of any file
  rcases lt_or_ge (b * obs) length with hin | hpast
  · have hstart : min (b * obs) U64_MAX = b * obs := by omega
    have hstop : min (min (b * obs + obs) U64_MAX) length = min (b * obs + obs) length := by omega
    rw [hstart, hstop, if_neg (by omega), Finset.mem_union, mem_Icc_div_iff htbs (by omega)]
  · rw [if_pos (by omega)]
    refine ⟨.inl, fun h => h.resolve_right ?_⟩
    omega

theorem mem_reached (hobs : 0 < obs) (htbs : 0 < tbs) (hlen : length ≤ U64_MAX) (bad : List Nat) (k : Nat) :
    k ∈ reached obs tbs length bad ↔ (blockBytes tbs length k ∩ damagedBytes obs length bad).Nonempty := by
  have hrun : ∀ s, k ∈ bad.foldl (touch obs tbs length) s ↔
      k ∈ s ∨ ∃ b ∈ bad, (blockBytes tbs length k ∩ blockBytes obs length b).Nonempty := by
    induction bad with
    | nil => simp
    | cons b bad ih =>
      intro s
      rw [foldl_cons, ih, mem_touch hobs htbs hlen, exists_mem_cons_iff, or_assoc]
  unfold reached damagedBytes
  rw [hrun, or_iff_right (Finset.notMem_empty k), Set.inter_iUnion₂, Set.nonempty_iUnion]
  simp only [Set.nonempty_iUnion, exists_prop]

/-! ## The sets that describe the file -/

def sameFile (f g : Par2File) : Bool := g.length = f.length ∧ g.md5 = f.md5 ∧ g.md5_16k = f.md5_16k

namespace Adopted

variable {h : Host} (a : Adopted h)

/-- The damage in the blocks of one set, by its index; nothing of it where none is hit. -/
def twinDamage (owner : Nat) (f : Par2File) (obs : Nat) (bad : List Nat) (x : Par2Set × Nat) :
    Option (Nat × Nat) :=
  if x.2 = owner then none
  else (x.1.files.find? (sameFile f)).bind fun t =>
    let hit := reached obs (max x.1.blockSize 1) t.length bad
    if hit = ∅ then none else some (x.2, hit.card)

/-- `slot_twin_damage` with the plan's population and what the slots are bound to; `none` where an
index is out of range. -/
def slotTwinDamage (plan : Option (Adopted h)) (slots : List (Option Nat)) (slot : Nat) (bad : List Nat) :
    Option (List (Nat × Nat)) :=
  match plan with
  | none => some []
  | some a =>
    slots[slot]?.bind fun
      | none => some []
      | some flat =>
        if bad = [] then some []
        else a.index[flat]?.bind fun owner => (a.file flat).bind fun f =>
          some (a.sets.zipIdx.filterMap (twinDamage owner.1 f (max (a.blockSize flat) 1) bad))

variable {a} {slots : List (Option Nat)} {slot flat : Nat} {owner : Nat × Nat} {f : Par2File}

theorem twinDamage_eq_some {o obs si n i : Nat} {bad : List Nat} {set : Par2Set} :
    twinDamage o f obs bad (set, i) = some (si, n) ↔ i = si ∧ i ≠ o ∧ ∃ t,
      set.files.find? (sameFile f) = some t ∧ reached obs (max set.blockSize 1) f.length bad ≠ ∅ ∧
        n = (reached obs (max set.blockSize 1) f.length bad).card := by
  unfold twinDamage
  by_cases hi : i = o
  · simp [hi]
  · rw [if_neg hi, Option.bind_eq_some_iff]
    constructor
    · rintro ⟨t, hfind, hhit⟩
      have hsame : sameFile f t = true := find?_some hfind
      rw [(of_decide_eq_true hsame).1] at hhit
      by_cases hne : reached obs (max set.blockSize 1) f.length bad = ∅
      · rw [if_pos hne] at hhit
        cases hhit
      · rw [if_neg hne] at hhit
        cases hhit
        exact ⟨rfl, hi, t, hfind, hne, rfl⟩
    · rintro ⟨rfl, -, t, hfind, hne, rfl⟩
      have hsame : sameFile f t = true := find?_some hfind
      refine ⟨t, hfind, ?_⟩
      rw [(of_decide_eq_true hsame).1]
      exact if_neg hne

/-- Every other set that describes the file is told the number of its blocks that damage reaches. -/
theorem slotTwinDamage_exact (bad : List Nat) (hslot : slots[slot]? = some (some flat))
    (howner : a.index[flat]? = some owner) (hfile : a.file flat = some f) (hlen : f.length ≤ U64_MAX) :
    ∃ out, slotTwinDamage (some a) slots slot bad = some out ∧ ∀ si n, (si, n) ∈ out ↔
      ∃ set t, a.sets[si]? = some set ∧ si ≠ owner.1 ∧ set.files.find? (sameFile f) = some t ∧
        ∃ hit : Finset Nat, (∀ k, k ∈ hit ↔ (blockBytes (max set.blockSize 1) f.length k ∩
          damagedBytes (max (a.blockSize flat) 1) f.length bad).Nonempty) ∧ hit ≠ ∅ ∧ n = hit.card := by
  have hobs : 0 < max (a.blockSize flat) 1 := lt_of_lt_of_le one_pos (le_max_right ..)
  have hreached : ∀ (set : Par2Set) (hit : Finset Nat), (∀ k, k ∈ hit ↔
      (blockBytes (max set.blockSize 1) f.length k ∩
        damagedBytes (max (a.blockSize flat) 1) f.length bad).Nonempty) ↔
      hit = reached (max (a.blockSize flat) 1) (max set.blockSize 1) f.length bad := fun set hit => by
    have htbs : 0 < max set.blockSize 1 := lt_of_lt_of_le one_pos (le_max_right ..)
    simp only [← mem_reached hobs htbs hlen, Finset.ext_iff]
  simp only [hreached, slotTwinDamage, hslot, howner, hfile, Option.bind_some]
  split
  case isTrue hbad =>
    subst hbad
    refine ⟨[], rfl, fun si n => ⟨nofun, ?_⟩⟩
    rintro ⟨set, t, -, -, -, hit, rfl, hne, -⟩
    exact absurd rfl hne
  case isFalse hbad =>
    refine ⟨_, rfl, fun si n => ?_⟩
    rw [mem_filterMap]
    constructor
    · rintro ⟨⟨set, i⟩, hmem, htwin⟩
      obtain ⟨rfl, hi, t, hfind, hne, hcard⟩ := twinDamage_eq_some.mp htwin
      exact ⟨set, t, mem_zipIdx_iff_getElem?.mp hmem, hi, hfind, _, rfl, hne, hcard⟩
    · rintro ⟨set, t, hset, hi, hfind, hit, rfl, hne, hcard⟩
      exact ⟨(set, si), mem_zipIdx_iff_getElem?.mpr hset,
        twinDamage_eq_some.mpr ⟨rfl, hi, t, hfind, hne, hcard⟩⟩

/-- Two grids over one file. -/
def twinGrids : Adopted twinHost := .new twinHost [twinSet, { twinSet with blockSize := 3 }]

/-- The second block of four bytes reaches into two blocks of three. -/
theorem slotTwinDamage_exact_grids : ∃ hit : Finset Nat,
    (∀ k, k ∈ hit ↔ (blockBytes 3 8 k ∩ damagedBytes 4 8 [1]).Nonempty) ∧ hit.card = 2 := by
  have hfile : twinGrids.file 0 = twinSet.files[0]? := by decide
  obtain ⟨out, hout, hmem⟩ := slotTwinDamage_exact [1] (rfl : [some 0][0]? = some (some 0))
    (by decide : twinGrids.index[0]? = some (0, 0)) hfile (by decide)
  cases hout
  obtain ⟨set, t, hset, -, -, hit, hhit, -, hcard⟩ := (hmem 1 2).mp (.head _)
  cases hset
  exact ⟨hit, hhit, hcard.symm⟩

end Adopted

end NzbFast.Live
