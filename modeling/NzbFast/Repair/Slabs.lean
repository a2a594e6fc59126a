import Mathlib.Algebra.Order.Floor.Div
import Mathlib.GroupTheory.GroupAction.Ring
import Mathlib.Tactic.Ring

/-!
# Slabs of a solve

`plan_slabs_with` and `plan_solve` (`crates/nzbkit-base/src/par2repair/reconstruct.rs`): a
solve whose window is over the budget is cut into slabs along the block, the fewest that
fit, spread evenly. A sum the source does not guard wraps at 64 bits, so a plan's ranges
cut a block (`SlabPlan.Tiles`) as long as slabs times width is a word.
-/

namespace NzbFast.Repair

open Nat

/-! ## Words -/

def U64_MAX : Nat := 2 ^ 64 - 1

def saturatingMul (a b : Nat) : Nat := min (a * b) U64_MAX

def saturatingAdd (a b : Nat) : Nat := min (a + b) U64_MAX

def wrappingMul (a b : Nat) : Nat := a * b % (U64_MAX + 1)

def wrappingAdd (a b : Nat) : Nat := (a + b) % (U64_MAX + 1)

theorem saturatingMul_le (a b : Nat) : saturatingMul a b ≤ a * b := min_le_left _ _

theorem saturatingMul_of_le {a b : Nat} (h : a * b ≤ U64_MAX) : saturatingMul a b = a * b :=
  min_eq_left h

theorem wrappingMul_of_le {a b : Nat} (h : a * b ≤ U64_MAX) : wrappingMul a b = a * b :=
  mod_eq_of_lt (lt_succ_of_le h)

theorem wrappingAdd_of_le {a b : Nat} (h : a + b ≤ U64_MAX) : wrappingAdd a b = a + b :=
  mod_eq_of_lt (lt_succ_of_le h)

/-! ## Rounding -/

theorem ceilDiv_le {x y k : Nat} (hy : 0 < y) : x ⌈/⌉ y ≤ k ↔ x ≤ y * k :=
  ceilDiv_le_iff_le_mul hy

theorem lt_ceilDiv {x y k : Nat} (hy : 0 < y) : k < x ⌈/⌉ y ↔ y * k < x := by
  rw [← not_le, ceilDiv_le hy, not_le]

theorem ceilDiv_anti {x y z : Nat} (hy : 0 < y) (h : y ≤ z) : x ⌈/⌉ z ≤ x ⌈/⌉ y := by
  rw [ceilDiv_le (hy.trans_le h)]
  exact ((ceilDiv_le hy).mp le_rfl).trans (mul_le_mul_right _ h)

def roundUpEven (n : Nat) : Nat := saturatingAdd n (n % 2)

theorem roundUpEven_eq {n b : Nat} (hn : n ≤ b) (heven : b % 2 = 0) (hb : b ≤ U64_MAX) :
    roundUpEven n = n + n % 2 ∧ roundUpEven n ≤ b := by
  have hle : n + n % 2 ≤ b := by omega
  have : roundUpEven n = n + n % 2 := min_eq_left (hle.trans hb)
  exact ⟨this, this ▸ hle⟩

/-! ## The plan -/

structure SlabPlan where
  slabs : Nat
  width : Nat
  deriving DecidableEq

/-- The bytes of each block slab `i` covers. -/
def SlabPlan.range (p : SlabPlan) (i blockSize : Nat) : Nat × Nat :=
  let c0 := min (wrappingMul i p.width) blockSize
  (c0, min (wrappingAdd c0 p.width) blockSize)

def denseMatrixBytes (m : Nat) : Nat := saturatingMul (saturatingMul m m) 4

def perSlab (buffers m w : Nat) : Nat := saturatingMul (saturatingMul w buffers) m

/-- What the window may take: the budget less the matrix of a dense solve. -/
def spendable (m budget : Nat) (dense : Bool) : Nat :=
  budget - if dense then denseMatrixBytes m else 0

/-- The widest even slab that fits, never wider than the block and never narrower than a word. -/
def widest (m blockSize spendable buffers : Nat) : Nat :=
  max (min (spendable / max (wrappingMul buffers m) 1) blockSize / 2 * 2) 2

/-- The loop that settles the width; nothing where it is still running. -/
def settleWidth (blockSize spendable buffers m : Nat) : Nat → Nat → Option Nat
  | 0, _ => none
  | fuel + 1, slabs =>
    let w := roundUpEven (blockSize ⌈/⌉ slabs)
    if perSlab buffers m w ≤ spendable ∨ w ≤ 2 then some w
    else settleWidth blockSize spendable buffers m fuel (slabs + 1)

def planSlabsWith (m blockSize budget buffers : Nat) (dense : Bool) : Option SlabPlan :=
  let buffers := max buffers 1
  if m = 0 ∨ blockSize = 0 then some ⟨1, max blockSize 2⟩
  else
    let spendable := spendable m budget dense
    -- the count reaches `block_size / 2` at the latest, where the width is a word
    (settleWidth blockSize spendable buffers m blockSize
      (max (blockSize ⌈/⌉ widest m blockSize spendable buffers) 1)).map fun width =>
        ⟨blockSize ⌈/⌉ width, width⟩

/-! ## Plans that are exact -/

/-- The ranges of a plan, in order, are the block: none is empty. -/
structure SlabPlan.Tiles (p : SlabPlan) (blockSize : Nat) : Prop where
  slabs_pos : 0 < p.slabs
  first : (p.range 0 blockSize).1 = 0
  next : ∀ i, i + 1 < p.slabs → (p.range (i + 1) blockSize).1 = (p.range i blockSize).2
  last : (p.range (p.slabs - 1) blockSize).2 = blockSize
  nonempty : ∀ i < p.slabs, (p.range i blockSize).1 < (p.range i blockSize).2

/-- The window of a width, beside the matrix, is within the budget. -/
def Fits (m budget buffers : Nat) (dense : Bool) (w : Nat) : Prop :=
  buffers * m * w ≤ budget - if dense then 4 * m ^ 2 else 0

/-- The plan is even, within the budget where a word is, and no other even width takes fewer slabs. -/
structure SlabPlan.Exact (p : SlabPlan) (m blockSize budget buffers : Nat) (dense : Bool) : Prop where
  even : p.width % 2 = 0
  word : 2 ≤ p.width
  within : p.width ≤ blockSize
  count : p.slabs = blockSize ⌈/⌉ p.width
  fits : Fits m budget buffers dense p.width ∨ p.width = 2
  fewest : ∀ w, 0 < w → w % 2 = 0 → blockSize ⌈/⌉ w < p.slabs → ¬ Fits m budget buffers dense w

namespace SlabPlan

variable {p : SlabPlan} {m blockSize budget buffers : Nat} {dense : Bool}

/-- A slab of the plan starts inside the block. -/
theorem Exact.start_lt (h : p.Exact m blockSize budget buffers dense) {i : Nat} (hi : i < p.slabs) :
    i * p.width < blockSize := by
  rw [h.count, lt_ceilDiv (by have := h.word; omega)] at hi
  rwa [mul_comm]

theorem Exact.range_eq (h : p.Exact m blockSize budget buffers dense)
    (hword : p.slabs * p.width ≤ U64_MAX) {i : Nat} (hi : i < p.slabs) :
    p.range i blockSize = (i * p.width, min ((i + 1) * p.width) blockSize) := by
  have hstart := h.start_lt hi
  have hend : (i + 1) * p.width ≤ U64_MAX := (mul_le_mul_right _ hi).trans hword
  have hsucc : (i + 1) * p.width = i * p.width + p.width := succ_mul ..
  simp only [range, wrappingMul_of_le (show i * p.width ≤ U64_MAX by omega),
    min_eq_left hstart.le, wrappingAdd_of_le (hsucc ▸ hend), hsucc]

theorem Exact.tiles (h : p.Exact m blockSize budget buffers dense) (hpos : 0 < blockSize)
    (hword : p.slabs * p.width ≤ U64_MAX) : p.Tiles blockSize := by
  have hwidth : 0 < p.width := by have := h.word; omega
  have hslabs : 0 < p.slabs := by rwa [h.count, lt_ceilDiv hwidth]
  have hcover : blockSize ≤ p.slabs * p.width := by
    rw [mul_comm, ← ceilDiv_le hwidth, h.count]
  refine ⟨hslabs, by simp [h.range_eq hword hslabs], fun i hi => ?_, ?_, fun i hi => ?_⟩
  · simp [h.range_eq hword hi, h.range_eq hword (lt_of_succ_lt hi), (h.start_lt hi).le]
  · rw [h.range_eq hword (by omega), Nat.sub_add_cancel hslabs]
    exact min_eq_right hcover
  · have hsucc : (i + 1) * p.width = i * p.width + p.width := succ_mul ..
    have hstart := h.start_lt hi
    simp only [h.range_eq hword hi]
    omega

/-- The ranges cut the block exactly when the end of the last slab does not wrap. -/
theorem Exact.tiles_iff (h : p.Exact m blockSize budget buffers dense) (hpos : 0 < blockSize)
    (hhi : blockSize ≤ U64_MAX) : p.Tiles blockSize ↔ p.slabs * p.width ≤ U64_MAX := by
  refine ⟨fun htiles => ?_, h.tiles hpos⟩
  by_contra hwrap
  have hwidth := h.within
  have hstart := h.start_lt (sub_lt htiles.slabs_pos one_pos)
  have hsucc : p.slabs * p.width = (p.slabs - 1) * p.width + p.width := by
    rw [← Nat.succ_mul, Nat.succ_eq_add_one, Nat.sub_add_cancel htiles.slabs_pos]
  have hlast := htiles.last
  simp only [range, wrappingMul_of_le (show (p.slabs - 1) * p.width ≤ U64_MAX by omega),
    min_eq_left hstart.le, wrappingAdd, ← hsucc] at hlast
  -- the end has wrapped below the block
  have hmod : p.slabs * p.width % (U64_MAX + 1) < blockSize := by
    rw [mod_eq_sub_mod (by omega), mod_eq_of_lt (by omega)]
    omega
  omega

theorem Exact.slabs_mul_le (h : p.Exact m blockSize budget buffers dense) (hpos : 0 < blockSize)
    (hhalf : blockSize ≤ 2 ^ 63) : p.slabs * p.width ≤ U64_MAX := by
  have hwidth : 0 < p.width := by have := h.word; omega
  have hslabs : 0 < p.slabs := by rwa [h.count, lt_ceilDiv hwidth]
  have hlast := h.start_lt (sub_lt hslabs one_pos)
  have hsucc : p.slabs * p.width = (p.slabs - 1) * p.width + p.width := by
    rw [← Nat.succ_mul, Nat.succ_eq_add_one, Nat.sub_add_cancel hslabs]
  have := h.within
  unfold U64_MAX
  omega

end SlabPlan

/-! ## The loop -/

section

variable {m blockSize budget buffers : Nat} {dense : Bool}

theorem denseMatrixBytes_eq (hm : m ≤ 65535) : denseMatrixBytes m = 4 * m ^ 2 := by
  have hsq := mul_le_mul hm hm
  have hfits : m * m * 4 ≤ U64_MAX := by unfold U64_MAX; omega
  rw [denseMatrixBytes, saturatingMul_of_le (a := m) (by omega), saturatingMul_of_le hfits]
  ring

/-- The code's bound is the exact one: neither the matrix nor the product saturates. -/
theorem spendable_eq (hm : m ≤ 65535) :
    spendable m budget dense = budget - if dense then 4 * m ^ 2 else 0 := by
  rw [spendable, denseMatrixBytes_eq hm]

theorem wrappingMul_buffers (hm : m ≤ 65535) (hbuf : buffers = 1 ∨ buffers = 2) :
    wrappingMul buffers m = buffers * m := by
  refine wrappingMul_of_le ?_
  unfold U64_MAX
  obtain rfl | rfl := hbuf <;> omega

theorem perSlab_le (buffers m w : Nat) : perSlab buffers m w ≤ buffers * m * w :=
  calc perSlab buffers m w ≤ saturatingMul w buffers * m := saturatingMul_le _ _
    _ ≤ w * buffers * m := mul_le_mul_right _ (saturatingMul_le _ _)
    _ = buffers * m * w := by ring

/-- The widest slab is even and inside the block, fits unless it is a word, and any even width that
fits is no wider or covers the block. -/
theorem widest_cases (budget : Nat) (dense : Bool) (hm : 1 ≤ m) (hmax : m ≤ 65535)
    (heven : blockSize % 2 = 0) (hlo : 2 ≤ blockSize) (hbuf : buffers = 1 ∨ buffers = 2) :
    let W := widest m blockSize (spendable m budget dense) buffers
    W % 2 = 0 ∧ 2 ≤ W ∧ W ≤ blockSize ∧ (Fits m budget buffers dense W ∨ W = 2) ∧
      ∀ w, 0 < w → w % 2 = 0 → Fits m budget buffers dense w → w ≤ W ∨ W = blockSize := by
  intro W
  have hpos : 0 < buffers * m := mul_pos (by omega) hm
  have hW : W = max (min ((budget - if dense then 4 * m ^ 2 else 0) / (buffers * m)) blockSize
      / 2 * 2) 2 := by
    simp only [W, widest, spendable_eq hmax, wrappingMul_buffers hmax hbuf, Nat.max_eq_left hpos]
  refine ⟨by omega, by omega, by omega, ?_, fun w hw hweven hfits => ?_⟩
  · by_cases hword : W = 2
    · exact .inr hword
    · refine .inl ?_
      rw [Fits, mul_comm, ← le_div_iff_mul_le hpos]
      omega
  · rw [Fits, mul_comm, ← le_div_iff_mul_le hpos] at hfits
    omega

/-- The first count tried already settles: the widest slab leaves room for the spread width. -/
theorem settleWidth_eq (budget : Nat) (dense : Bool) (hm : 1 ≤ m) (hmax : m ≤ 65535)
    (heven : blockSize % 2 = 0) (hlo : 2 ≤ blockSize) (hhi : blockSize ≤ U64_MAX)
    (hbuf : buffers = 1 ∨ buffers = 2) (fuel : Nat) :
    let slabs := blockSize ⌈/⌉ widest m blockSize (spendable m budget dense) buffers
    let w := blockSize ⌈/⌉ slabs + blockSize ⌈/⌉ slabs % 2
    settleWidth blockSize (spendable m budget dense) buffers m (fuel + 1) (max slabs 1) = some w ∧
      2 ≤ w ∧ w ≤ widest m blockSize (spendable m budget dense) buffers := by
  intro slabs w
  obtain ⟨hWeven, hW2, hWle, hWfits, -⟩ :=
    widest_cases budget dense hm hmax heven hlo hbuf
  set W := widest m blockSize (spendable m budget dense) buffers with hWdef
  have hslabs : 0 < slabs := (lt_ceilDiv (by omega)).mpr (by omega)
  have hceil : blockSize ⌈/⌉ slabs ≤ W := by
    rw [ceilDiv_le hslabs, mul_comm, ← ceilDiv_le (by omega)]
  have hone : 0 < blockSize ⌈/⌉ slabs := (lt_ceilDiv hslabs).mpr (by omega)
  obtain ⟨hround, hwW⟩ := roundUpEven_eq hceil hWeven (hWle.trans hhi)
  rw [hround] at hwW
  refine ⟨?_, by omega, hwW⟩
  have hstop : perSlab buffers m w ≤ spendable m budget dense ∨ w ≤ 2 := by
    rcases hWfits with hfits | hword
    · left
      calc perSlab buffers m w ≤ buffers * m * w := perSlab_le _ _ _
        _ ≤ buffers * m * W := mul_le_mul_left _ hwW
        _ ≤ spendable m budget dense := by rw [spendable_eq hmax]; exact hfits
    · right; omega
  rw [max_eq_left hslabs, settleWidth]
  simp only [hround]
  exact if_pos hstop

theorem planSlabsWith_exact (budget : Nat) (dense : Bool) (hm : 1 ≤ m) (hmax : m ≤ 65535)
    (heven : blockSize % 2 = 0) (hlo : 2 ≤ blockSize) (hhi : blockSize ≤ U64_MAX)
    (hbuf : buffers = 1 ∨ buffers = 2) :
    ∃ p, planSlabsWith m blockSize budget buffers dense = some p ∧
      p.Exact m blockSize budget buffers dense := by
  obtain ⟨hWeven, hW2, hWle, hWfits, hWmax⟩ :=
    widest_cases budget dense hm hmax heven hlo hbuf
  obtain ⟨hsettle, hw2, hwW⟩ := settleWidth_eq budget dense hm hmax heven hlo hhi
    hbuf (blockSize - 1)
  set W := widest m blockSize (spendable m budget dense) buffers
  set slabs := blockSize ⌈/⌉ W
  set w := blockSize ⌈/⌉ slabs + blockSize ⌈/⌉ slabs % 2 with hw
  rw [Nat.sub_add_cancel (by omega)] at hsettle
  have hslabs : 0 < slabs := (lt_ceilDiv (by omega)).mpr (by omega)
  refine ⟨⟨blockSize ⌈/⌉ w, w⟩, ?_, ⟨by simp only; omega, hw2, hwW.trans hWle, rfl, ?_, ?_⟩⟩
  · simp only [planSlabsWith, if_neg (show ¬ (m = 0 ∨ blockSize = 0) by omega),
      max_eq_left (show 1 ≤ buffers by omega), hsettle, Option.map_some, W, slabs]
  · rcases hWfits with hfits | hword
    · exact .inl ((mul_le_mul_left _ hwW).trans hfits)
    · exact .inr (by simp only; omega)
  · intro v hv hveven hfewer hfits
    -- the plan takes no more slabs than the widest width would
    have hle : blockSize ⌈/⌉ w ≤ slabs := by
      rw [ceilDiv_le (by omega), mul_comm, ← ceilDiv_le hslabs]
      omega
    rcases hWmax v hv hveven hfits with hvW | hall
    · exact absurd (hfewer.trans_le hle) (not_lt.mpr (ceilDiv_anti hv hvW))
    · have hone : slabs ≤ 1 := by
        rw [ceilDiv_le (by omega), hall, mul_one]
      have hvpos : 0 < blockSize ⌈/⌉ v := (lt_ceilDiv hv).mpr (by omega)
      exact absurd (hfewer.trans_le (hle.trans hone)) (not_lt.mpr hvpos)

end

/-! ## Staging -/

/-- What the code reads to pick the arm of a solve. -/
structure Arms where
  /-- `NZBFAST_BACKSUB`: `forney` or `dense`. -/
  backsub : Option Bool
  multiFoldWidth : Nat
  backsubMinMissing : Nat
  /-- `NZBFAST_REPAIR_OUTPUT=inplace`. -/
  inPlaceOutput : Bool
  /-- `set_joint_arm`. -/
  jointArm : Option Bool
  /-- `NZBFAST_FORNEY_JOINT`. -/
  forneyJoint : Option Bool
  jointDefaultOn : Bool

namespace Arms

def backsubGate (a : Arms) (m : Nat) : Bool :=
  a.backsub.getD (decide (0 < a.multiFoldWidth ∧ a.backsubMinMissing ≤ m))

def jointGate (a : Arms) : Bool := a.jointArm.getD (a.forneyJoint.getD a.jointDefaultOn)

def solveBuffers (a : Arms) (m : Nat) (structured : Bool) : Nat :=
  if structured && a.inPlaceOutput && a.backsubGate m && a.jointGate then 1 else 2

def dense (a : Arms) (m : Nat) (structured : Bool) : Bool := !(structured && a.backsubGate m)

end Arms

def planSlabs (a : Arms) (m blockSize budget : Nat) (structured : Bool) : Option SlabPlan :=
  planSlabsWith m blockSize budget (a.solveBuffers m structured) (a.dense m structured)

inductive Staging where
  | whole
  | assembled
  | spill
  deriving DecidableEq

structure SolvePlan where
  slabs : SlabPlan
  staging : Staging
  deriving DecidableEq

def planSolve (a : Arms) (m blockSize budget : Nat) (structured : Bool) : Option SolvePlan :=
  (planSlabs a m blockSize budget structured).bind fun whole =>
    if whole.slabs = 1 then some ⟨whole, .whole⟩
    else
      let left := budget - saturatingMul m blockSize
      if 0 < left then
        (planSlabs a m blockSize left structured).bind fun assembled =>
          if assembled.slabs ≤ whole.slabs then some ⟨assembled, .assembled⟩
          else some ⟨whole, .spill⟩
      else some ⟨whole, .spill⟩

theorem Arms.solveBuffers_cases (a : Arms) (m : Nat) (structured : Bool) :
    a.solveBuffers m structured = 1 ∨ a.solveBuffers m structured = 2 := by
  unfold Arms.solveBuffers
  split <;> simp

/-- A smaller budget takes no fewer slabs. -/
theorem SlabPlan.Exact.slabs_anti {p q : SlabPlan} {m blockSize budget left buffers : Nat}
    {dense : Bool} (hp : p.Exact m blockSize budget buffers dense)
    (hq : q.Exact m blockSize left buffers dense) (hleft : left ≤ budget) : p.slabs ≤ q.slabs := by
  have hqw := hq.word
  by_contra hfewer
  rw [not_le, hq.count] at hfewer
  rcases hq.fits with hfits | hword
  · exact hp.fewest _ (by omega) hq.even hfewer (hfits.trans (Nat.sub_le_sub_right hleft _))
  · rw [hword, hp.count] at hfewer
    exact absurd hfewer (not_lt.mpr (ceilDiv_anti (by omega) hp.word))

section

variable {a : Arms} {m blockSize budget : Nat} {structured : Bool}

/-- A solve planned as assembled holds the output, the window and the matrix within the budget, and
sweeps no more often than a spilled one. -/
def Assembles (a : Arms) (m blockSize budget : Nat) (structured : Bool) (p : SlabPlan) : Prop :=
  (m * blockSize + a.solveBuffers m structured * m * p.width +
      (if a.dense m structured then 4 * m ^ 2 else 0) ≤ budget ∨ p.width = 2) ∧
    ∃ whole, planSlabs a m blockSize budget structured = some whole ∧ p.slabs = whole.slabs

theorem planSlabs_exact (a : Arms) (budget : Nat) (structured : Bool) (hm : 1 ≤ m)
    (hmax : m ≤ 65535) (heven : blockSize % 2 = 0) (hlo : 2 ≤ blockSize) (hhi : blockSize ≤ U64_MAX) :
    ∃ p, planSlabs a m blockSize budget structured = some p ∧
      p.Exact m blockSize budget (a.solveBuffers m structured) (a.dense m structured) :=
  planSlabsWith_exact budget (a.dense m structured) hm hmax heven hlo hhi
    (a.solveBuffers_cases m structured)

/-- Planning a solve ends, and assembles only where that fits at no extra sweep. -/
theorem planSolve_assembles (hm : 1 ≤ m) (hmax : m ≤ 65535) (heven : blockSize % 2 = 0)
    (hlo : 2 ≤ blockSize) (hhi : blockSize ≤ U64_MAX) (hbudget : budget ≤ U64_MAX) :
    ∃ s, planSolve a m blockSize budget structured = some s ∧
      (s.staging = .assembled → Assembles a m blockSize budget structured s.slabs) := by
  obtain ⟨whole, hwhole, hexact⟩ :=
    planSlabs_exact a budget structured hm hmax heven hlo hhi
  obtain ⟨part, hpart, hpexact⟩ := planSlabs_exact a
    (budget - saturatingMul m blockSize) structured hm hmax heven hlo hhi
  simp only [planSolve, hwhole, hpart, Option.bind_some]
  split
  · exact ⟨_, rfl, by simp⟩
  split
  case isFalse => exact ⟨_, rfl, by simp⟩
  rename_i hleft
  split
  case isFalse => exact ⟨_, rfl, by simp⟩
  rename_i hslabs
  refine ⟨_, rfl, fun _ => ⟨hpexact.fits.imp_left fun hfits => ?_, whole, hwhole, ?_⟩⟩
  · have hresident : saturatingMul m blockSize = m * blockSize := by
      unfold saturatingMul at hleft ⊢
      omega
    have hwindow : 0 < a.solveBuffers m structured * m * part.width := by
      have hword := hpexact.word
      have := a.solveBuffers_cases m structured
      exact mul_pos (mul_pos (by omega) hm) (by omega)
    simp only [Fits, hresident] at hfits ⊢
    omega
  · exact hslabs.antisymm (hexact.slabs_anti hpexact (sub_le _ _))

end

/-- For every even block, every count of missing blocks, every budget and either arm, planning ends
with the fewest even slabs that fit; they cut the block exactly when the end of the last is a word,
which every block up to half the address space has. Output is assembled in memory only where it fits
beside the window and the matrix, at the sweeps spilling would take. -/
theorem plan_slabs_exact {m blockSize budget : Nat} (hm : 1 ≤ m) (hmax : m ≤ 65535)
    (heven : blockSize % 2 = 0) (hlo : 2 ≤ blockSize) (hhi : blockSize ≤ U64_MAX)
    (hbudget : budget ≤ U64_MAX) :
    (∀ buffers dense, buffers = 1 ∨ buffers = 2 →
      ∃ p, planSlabsWith m blockSize budget buffers dense = some p ∧
        p.Exact m blockSize budget buffers dense ∧
        (p.Tiles blockSize ↔ p.slabs * p.width ≤ U64_MAX) ∧
        (blockSize ≤ 2 ^ 63 → p.Tiles blockSize)) ∧
    ∀ a structured, ∃ s, planSolve a m blockSize budget structured = some s ∧
      (s.staging = .assembled → Assembles a m blockSize budget structured s.slabs) := by
  refine ⟨fun buffers dense hbuf => ?_, fun a structured =>
    planSolve_assembles hm hmax heven hlo hhi hbudget⟩
  obtain ⟨p, hp, hexact⟩ := planSlabsWith_exact budget dense hm hmax heven hlo hhi hbuf
  exact ⟨p, hp, hexact, hexact.tiles_iff (by omega) hhi,
    fun hhalf => hexact.tiles (by omega) (hexact.slabs_mul_le (by omega) hhalf)⟩

theorem plan_slabs_exact_small :
    ∃ p, planSlabsWith 3 10 40 2 false = some p ∧ p.Exact 3 10 40 2 false ∧ p.Tiles 10 := by
  obtain ⟨p, hp, hexact, -, htiles⟩ :=
    (@plan_slabs_exact 3 10 40 (by decide) (by decide) (by decide) (by decide) (by decide)
      (by decide)).1 2 false (.inr rfl)
  exact ⟨p, hp, hexact, htiles (by decide)⟩

/-- Three slabs cut the largest even block, and the end of the third wraps. -/
theorem planSlabsWith_wraps :
    let p : SlabPlan := ⟨3, 6148914691236517206⟩
    planSlabsWith 1 (2 ^ 64 - 2) (2 ^ 64 - 1) 2 false = some p ∧
      p.range 2 (2 ^ 64 - 2) = (12297829382473034412, 2) ∧ ¬ p.Tiles (2 ^ 64 - 2) := by
  refine ⟨by decide, by decide, fun htiles => ?_⟩
  have := htiles.last
  exact absurd this (by decide)

end NzbFast.Repair
