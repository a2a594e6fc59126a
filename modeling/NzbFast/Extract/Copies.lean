import NzbFast.Extract.Frontier

/-!
# What the copies of a frontier buffer know

A byte at or above `base` may be held in the run, in several parked spans and in
a paged region at once. `Stage` says what each kind of copy is known to hold, and
that the scratch keeps the regions; `Holds` is the stage at rest, where every
copy is the byte last delivered and every delivered byte has a copy. A delivery
goes through stages in between: the run has the new bytes, then the regions have
them, then the parked spans.
-/

namespace NzbFast.Extract

open NzbFast.Rust List
open Wire (byteAt byteAt_some_range byteAt_eq_none byteAt_isSome overlay firstDiff Covers)

/-! ## Copies -/

/-- From `base` on, the bytes placed at `s` satisfy `P`. -/
def Agrees (base : Nat) (P : Nat → UInt8 → Prop) (s : Nat) (v : List UInt8) : Prop :=
  ∀ x b, base ≤ x → byteAt s v x = some b → P x b

def Is (last : Nat → Option UInt8) (x : Nat) (b : UInt8) : Prop := last x = some b

def written (last : Nat → Option UInt8) (offset : Nat) (bytes : List UInt8) : Nat → Option UInt8 :=
  fun x => (byteAt offset bytes x).or (last x)

variable {bytes v : List UInt8} {last : Nat → Option UInt8} {base offset rest s x : Nat}
  {G P R : Nat → UInt8 → Prop} {sc : Scratch} {st : FrontierState}

theorem written_of_some {b : UInt8} (h : byteAt offset bytes x = some b) :
    written last offset bytes x = some b := by
  rw [written, h, Option.some_or]

theorem written_of_none (h : byteAt offset bytes x = none) :
    written last offset bytes x = last x := by
  rw [written, h, Option.none_or]

theorem Agrees.imp {Q : Nat → UInt8 → Prop} (h : Agrees base P s v)
    (hPQ : ∀ x b, base ≤ x → s ≤ x → x < s + v.length → P x b → Q x b) :
    Agrees base Q s v := fun x b hx hb =>
  hPQ x b hx (byteAt_some_range hb).1 (byteAt_some_range hb).2 (h x b hx hb)

theorem Agrees.mono {base' : Nat} (h : Agrees base P s v) (hle : base ≤ base') :
    Agrees base' P s v :=
  fun x b hx hb => h x b (hle.trans hx) hb

theorem Agrees.drop {k : Nat} (h : Agrees base P s v) : Agrees base P (s + k) (v.drop k) := by
  intro x b hx hb
  rw [Wire.byteAt_drop] at hb
  split at hb
  case isTrue => exact h x b hx hb
  case isFalse => cases hb

theorem Agrees.take {k : Nat} (h : Agrees base P s v) : Agrees base P s (v.take k) := by
  intro x b hx hb
  rw [Wire.byteAt_take] at hb
  split at hb
  case isTrue => exact h x b hx hb
  case isFalse => cases hb

theorem Agrees.append {w : List UInt8} (hv : Agrees base P s v)
    (hw : Agrees base P (s + v.length) w) : Agrees base P s (v ++ w) := by
  intro x b hx hb
  rw [Wire.byteAt_append] at hb
  split at hb
  case isTrue => exact hv x b hx hb
  case isFalse => exact hw x b hx hb

/-- A copy whose bytes were right before or after a delivery is right after it is reconciled. -/
theorem Agrees.overlay
    (h : Agrees base (fun x b => Is last x b ∨ Is (written last offset bytes) x b) s v) :
    Agrees base (Is (written last offset bytes)) s (overlay s v offset bytes) := by
  intro x b hx hb
  rw [Wire.byteAt_overlay] at hb
  obtain ⟨old, hold, hb⟩ := Option.map_eq_some_iff.mp hb
  cases hnew : byteAt offset bytes x with
  | some c =>
    rw [hnew] at hb
    cases hb
    exact written_of_some hnew
  | none =>
    rw [hnew] at hb
    cases hb
    rcases h x _ hx hold with hlast | hwritten
    · exact (written_of_none hnew).trans hlast
    · exact hwritten

/-- A copy that the delivery does not differ from. -/
theorem Agrees.same
    (h : Agrees base (fun x b => Is last x b ∨ Is (written last offset bytes) x b) s v)
    (hsame : ∀ x b c, byteAt s v x = some b → byteAt offset bytes x = some c → b = c) :
    Agrees base (Is (written last offset bytes)) s v := by
  intro x b hx hb
  cases hnew : byteAt offset bytes x with
  | some c => exact hsame x b c hb hnew ▸ written_of_some hnew
  | none =>
    rcases h x b hx hb with hlast | hwritten
    · exact (written_of_none hnew).trans hlast
    · exact hwritten

namespace FrontierState

theorem length_reconcile (s offset : Nat) (v bytes : List UInt8) (low : Option Nat) :
    (reconcile s v offset bytes low).1.length = v.length := by
  unfold reconcile
  split
  · exact Wire.length_overlay s offset v bytes
  · rfl

theorem agrees_reconcile {base s offset : Nat} {v bytes : List UInt8} {last : Nat → Option UInt8}
    (low : Option Nat)
    (h : Agrees base (fun x b => Is last x b ∨ Is (written last offset bytes) x b) s v) :
    Agrees base (Is (written last offset bytes)) s (reconcile s v offset bytes low).1 := by
  unfold reconcile
  split
  case h_1 => exact h.overlay
  case h_2 hnone =>
    refine h.same fun x b c hb hc => ?_
    by_contra hne
    obtain ⟨y, -, hy⟩ := (Wire.firstDiff_spec s offset v bytes).2 x b c hb hc hne
    rw [hnone] at hy
    cases hy

/-- Where no lowest difference is known after a copy, none was before and the copy had none. -/
theorem reconcile_low {s offset : Nat} {v bytes : List UInt8} {low : Option Nat}
    (h : (reconcile s v offset bytes low).2 = none) :
    low = none ∧ ∀ x b c, byteAt s v x = some b → byteAt offset bytes x = some c → b = c := by
  unfold reconcile at h
  split at h
  case h_1 => cases h
  case h_2 hnone =>
    refine ⟨h, fun x b c hb hc => ?_⟩
    by_contra hne
    obtain ⟨y, -, hy⟩ := (Wire.firstDiff_spec s offset v bytes).2 x b c hb hc hne
    rw [hnone] at hy
    cases hy

end FrontierState

/-! ## The scratch -/

def Scratch.region (sc : Scratch) (r : Nat × Nat) : List UInt8 := (sc.file.drop r.1).take r.2

theorem Scratch.length_region {r : Nat × Nat} (h : r.1 + r.2 ≤ sc.file.length) :
    (sc.region r).length = r.2 := by
  rw [Scratch.region, length_take, length_drop]
  omega

theorem Scratch.read_inside {r : Nat × Nat} (h : r.1 + r.2 ≤ sc.file.length) {skip n : Nat}
    (hn : skip + n ≤ r.2) : sc.read (r.1 + skip) n = some (((sc.region r).drop skip).take n) := by
  rw [Scratch.read, if_pos (by omega), Scratch.region, drop_take, drop_drop, take_take]
  congr 2
  omega

/-- Some charge was let go; what is still live keeps its bytes. -/
structure Scratch.Shrinks (sc sc' : Scratch) : Prop where
  live : sc'.live ≤ sc.live
  same : 0 < sc'.live → sc'.file = sc.file ∧ sc'.cursor = sc.cursor

theorem Scratch.Shrinks.refl (sc : Scratch) : sc.Shrinks sc := ⟨le_rfl, fun _ => ⟨rfl, rfl⟩⟩

theorem Scratch.Shrinks.trans {sc₁ sc₂ sc₃ : Scratch} (h : sc₁.Shrinks sc₂) (h' : sc₂.Shrinks sc₃) :
    sc₁.Shrinks sc₃ := by
  refine ⟨h'.live.trans h.live, fun hpos => ?_⟩
  obtain ⟨hfile, hcursor⟩ := h'.same hpos
  obtain ⟨hfile', hcursor'⟩ := h.same (lt_of_lt_of_le hpos h'.live)
  exact ⟨hfile.trans hfile', hcursor.trans hcursor'⟩

theorem Scratch.release_live (sc : Scratch) (n : Nat) : (sc.release n).live = sc.live - n := by
  unfold Scratch.release
  dsimp only
  split <;> rfl

theorem Scratch.release_shrinks (sc : Scratch) (n : Nat) : sc.Shrinks (sc.release n) := by
  refine ⟨(sc.release_live n).le.trans (Nat.sub_le _ _), fun hpos => ?_⟩
  rw [Scratch.release_live] at hpos
  unfold Scratch.release
  rw [if_neg fun h => by omega]
  exact ⟨rfl, rfl⟩

theorem Scratch.release_cursor (h : sc.cursor ≤ sc.file.length) (n : Nat) :
    (sc.release n).cursor ≤ (sc.release n).file.length := by
  unfold Scratch.release
  dsimp only
  split
  case isTrue => exact Nat.zero_le _
  case isFalse => exact h

/-- Bytes were added behind the cursor; what is live keeps its bytes. -/
theorem Scratch.append_spec (sc : Scratch) (bytes : List UInt8) (cap : Nat)
    (hcursor : sc.cursor ≤ sc.file.length) :
    (sc.append bytes cap).1.cursor ≤ (sc.append bytes cap).1.file.length ∧
    (∀ r : Nat × Nat, 0 < sc.live → r.1 + r.2 ≤ sc.cursor →
      r.1 + r.2 ≤ (sc.append bytes cap).1.cursor ∧ (sc.append bytes cap).1.region r = sc.region r) ∧
    (∀ off, (sc.append bytes cap).2 = some off →
      (sc.append bytes cap).1.live = sc.live + bytes.length ∧
      off + bytes.length ≤ (sc.append bytes cap).1.cursor ∧
      (sc.append bytes cap).1.region (off, bytes.length) = bytes) ∧
    ((sc.append bytes cap).2 = none → (sc.append bytes cap).1.live = sc.live) := by
  have hidle : sc.idle.cursor ≤ sc.idle.file.length ∧ sc.idle.file = sc.file ∧
      sc.idle.live = sc.live ∧ (0 < sc.live → sc.idle.cursor = sc.cursor) := by
    unfold Scratch.idle
    split
    case isTrue hreset => exact ⟨Nat.zero_le _, rfl, rfl, fun hpos => absurd hreset.1 (by omega)⟩
    case isFalse => exact ⟨hcursor, rfl, rfl, fun _ => rfl⟩
  obtain ⟨hlen, hfile, hlive, hsame⟩ := hidle
  have hwrite : writeAllAt sc.idle.file sc.idle.cursor bytes =
      sc.idle.file.take sc.idle.cursor ++ bytes ++ sc.idle.file.drop (sc.idle.cursor + bytes.length) := by
    rw [writeAllAt, Nat.sub_eq_zero_of_le hlen, replicate_zero, append_nil]
  have htake : (sc.idle.file.take sc.idle.cursor).length = sc.idle.cursor := by
    rw [length_take]
    omega
  unfold Scratch.append
  dsimp only
  split
  case isTrue =>
    refine ⟨hlen, fun r hpos hr => ⟨by rw [hsame hpos]; exact hr, ?_⟩, nofun, fun _ => hlive⟩
    rw [Scratch.region, Scratch.region, hfile]
  case isFalse =>
    refine ⟨?_, fun r hpos hr => ⟨?_, ?_⟩, fun off hoff => ?_, nofun⟩
    · dsimp only
      rw [hwrite, length_append, length_append, htake]
      omega
    · dsimp only
      omega
    · dsimp only [Scratch.region]
      rw [hwrite, append_assoc, drop_append_of_le_length (by rw [htake, hsame hpos]; omega),
        take_append_of_le_length (by rw [length_drop, htake, hsame hpos]; omega),
        drop_take, take_take, hfile, hsame hpos]
      congr 1
      omega
    · cases hoff
      refine ⟨by dsimp only; rw [hlive], le_rfl, ?_⟩
      dsimp only [Scratch.region]
      rw [hwrite, append_assoc, drop_left' htake, take_left]

/-! ## Stages -/

/-- What the run's bytes, the parked spans' and the regions' satisfy from `base` on, and that the
scratch keeps the regions; `rest` is the charge of everything else live on the scratch. -/
structure Stage (st : FrontierState) (sc : Scratch) (rest : Nat) (R P G : Nat → UInt8 → Prop) :
    Prop where
  run : Agrees st.base R st.base st.data
  parked : ∀ y ∈ st.pending, Agrees st.base P y.1 y.2
  nonempty : ∀ y ∈ st.pending, y.2 ≠ []
  pages : ∀ y ∈ st.paged, Agrees st.base G y.1 (sc.region y.2)
  disjoint : ∀ y ∈ st.paged, ∀ z ∈ st.paged, y.1 < z.1 → y.1 + y.2.2 ≤ z.1
  positive : ∀ y ∈ st.paged, 0 < y.2.2
  backed : ∀ y ∈ st.paged, y.2.1 + y.2.2 ≤ sc.cursor
  cursor : sc.cursor ≤ sc.file.length
  live : sc.live = st.pagedBytes + rest
  charged : st.pagedBytes = st.paged.sum (·.2)

def Covered (st : FrontierState) (x : Nat) : Prop :=
  (st.base ≤ x ∧ x < st.frontierRam) ∨ (∃ y ∈ st.pending, y.1 ≤ x ∧ x < y.1 + y.2.length) ∨
    ∃ y ∈ st.paged, y.1 ≤ x ∧ x < y.1 + y.2.2

/-- The search window spans every parked span. -/
def Bounded (st : FrontierState) : Prop := ∀ y ∈ st.pending, y.2.length ≤ st.pendingMaxLen

/-- A buffer at rest: its copies are the bytes last delivered, and all of them. -/
structure Holds (st : FrontierState) (sc : Scratch) (rest : Nat) (last : Nat → Option UInt8) :
    Prop where
  stage : Stage st sc rest (Is last) (Is last) (Is last)
  kept : ∀ x b, st.base ≤ x → last x = some b → Covered st x
  bounded : Bounded st
  stored : st.stored = st.data.length + st.pending.sum List.length

theorem Stage.region_length (h : Stage st sc rest R P G) {y : Nat × Nat × Nat} (hy : y ∈ st.paged) :
    (sc.region y.2).length = y.2.2 :=
  Scratch.length_region ((h.backed y hy).trans h.cursor)

/-- Charge let go that was not a region's leaves the regions alone. -/
theorem Stage.shrink {sc' : Scratch} {rest' : Nat} (h : Stage st sc rest R P G)
    (hs : sc.Shrinks sc') (hcursor : sc'.cursor ≤ sc'.file.length)
    (hlive : sc'.live = st.pagedBytes + rest') : Stage st sc' rest' R P G := by
  have hsame : ∀ y ∈ st.paged, sc'.file = sc.file ∧ sc'.cursor = sc.cursor := fun y hy => by
    refine hs.same ?_
    have hpos := h.positive y hy
    have hle := BTreeMap.le_sum (·.2) hy
    have hcharged := h.charged
    omega
  refine ⟨h.run, h.parked, h.nonempty, fun y hy => ?_, h.disjoint, h.positive, fun y hy => ?_, hcursor, hlive,
    h.charged⟩
  · rw [Scratch.region, (hsame y hy).1]
    exact h.pages y hy
  · rw [(hsame y hy).2]
    exact h.backed y hy

theorem le_foldl_max {l : List Nat} {m : Nat} (h : x ≤ m ∨ x ∈ l) : x ≤ l.foldl max m := by
  induction l generalizing m with
  | nil => exact h.resolve_right not_mem_nil
  | cons y l ih =>
    refine ih ?_
    rcases h with h | h
    · exact .inl (h.trans (le_max_left m y))
    · rcases mem_cons.mp h with rfl | h
      · exact .inl (le_max_right m x)
      · exact .inr h

theorem FrontierState.resyncRetained_bounded (st : FrontierState) : Bounded st.resyncRetained := fun y hy =>
  le_foldl_max (.inr (mem_map.mpr ⟨y, hy, rfl⟩))

theorem Stage.resync (h : Stage st sc rest R P G) : Stage st.resyncRetained sc rest R P G :=
  ⟨h.run, h.parked, h.nonempty, h.pages, h.disjoint, h.positive, h.backed, h.cursor, h.live,
    h.charged⟩

end NzbFast.Extract
