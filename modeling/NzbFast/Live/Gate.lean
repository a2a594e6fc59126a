import Mathlib.Tactic

/-!
# The chase gate

`VerifyGate` and `VouchBits` (`crates/nzbkit-base/src/live.rs`): per slot a
watermark below which the chase decode may consume bytes, and a bitmap of the
blocks that are individually vouched for. Cells are total functions of the
slot; a cell the source has not sized yet reads as `none` there and here.

The verifier holds its slot's bitmap through an `Arc` that is the gate's own
cell, so the model keeps the bits in the gate and `SlotState.vouch` says
whether the slot holds the handle.
-/

namespace NzbFast.Live

/-- `u64::MAX`: nothing is withheld. -/
def U64_MAX : Nat := 2 ^ 64 - 1

/-- How many blocks one `vouched_end` walk looks at. -/
def SCAN_CAP : Nat := 4096

/-- Which of a slot's blocks are individually vouched for; one bit per block. -/
structure VouchBits where
  blockSize : Nat
  ok : List Bool
  deriving DecidableEq, Repr

namespace VouchBits

def new (nBlocks blockSize : Nat) : VouchBits := ⟨blockSize, List.replicate nBlocks false⟩

/-- Block `bi` verified Ok; an index out of range is dropped. -/
def setOk (b : VouchBits) (bi : Nat) : VouchBits := { b with ok := b.ok.set bi true }

def clear (b : VouchBits) : VouchBits := { b with ok := List.replicate b.ok.length false }

def isOk (b : VouchBits) (bi : Nat) : Bool := b.ok.getD bi false

def seed (b : VouchBits) (oks : List Nat) : VouchBits := oks.foldl setOk b

/-- The walk of `vouched_end` from block `e` on, at most `n` blocks further. -/
def scan (b : VouchBits) : Nat → Nat → Nat
  | 0, e => e
  | n + 1, e => if e < b.ok.length ∧ b.isOk e then b.scan n (e + 1) else e

/-- The exclusive end of the Ok run containing `offset`, or `offset` where the block is not Ok. -/
def vouchedEnd (b : VouchBits) (offset : Nat) : Nat :=
  if b.blockSize = 0 ∨ b.ok.length = 0 then offset
  else
    let bi := offset / b.blockSize
    if b.ok.length ≤ bi then U64_MAX
    else if !b.isOk bi then offset
    else
      let stop := b.scan (SCAN_CAP - 1) (bi + 1)
      if stop = b.ok.length then U64_MAX else stop * b.blockSize

@[simp] theorem length_setOk (b : VouchBits) (bi : Nat) : (b.setOk bi).ok.length = b.ok.length := by
  simp [setOk]

theorem isOk_setOk (b : VouchBits) (bi k : Nat) :
    (b.setOk bi).isOk k = true ↔ b.isOk k = true ∨ (k = bi ∧ bi < b.ok.length) := by
  simp only [isOk, setOk, List.getD_eq_getElem?_getD, List.getElem?_set]
  by_cases hk : bi = k
  · subst hk
    by_cases hl : bi < b.ok.length
    · simp [hl]
    · simp [hl]
  · have hk' : k ≠ bi := fun h => hk h.symm
    simp [hk, hk']

@[simp] theorem isOk_clear (b : VouchBits) (k : Nat) : b.clear.isOk k = false := by
  simp only [isOk, clear, List.getD_eq_getElem?_getD, List.getElem?_replicate]
  split <;> rfl

@[simp] theorem isOk_new (n bs k : Nat) : (new n bs).isOk k = false := by
  simp only [isOk, new, List.getD_eq_getElem?_getD, List.getElem?_replicate]
  split <;> rfl

theorem length_seed (b : VouchBits) (oks : List Nat) : (b.seed oks).ok.length = b.ok.length := by
  induction oks generalizing b with
  | nil => rfl
  | cons o os ih => exact (ih _).trans (length_setOk b o)

theorem blockSize_seed (b : VouchBits) (oks : List Nat) : (b.seed oks).blockSize = b.blockSize := by
  induction oks generalizing b with
  | nil => rfl
  | cons o os ih => exact ih _

theorem isOk_seed (b : VouchBits) (oks : List Nat) (k : Nat) :
    (b.seed oks).isOk k = true ↔ b.isOk k = true ∨ (k ∈ oks ∧ k < b.ok.length) := by
  induction oks generalizing b with
  | nil => simp [seed]
  | cons o os ih =>
    rw [show b.seed (o :: os) = (b.setOk o).seed os from rfl, ih, isOk_setOk, length_setOk,
      List.mem_cons]
    constructor
    · rintro ((h | ⟨rfl, h⟩) | ⟨h, h'⟩)
      · exact Or.inl h
      · exact Or.inr ⟨Or.inl rfl, h⟩
      · exact Or.inr ⟨Or.inr h, h'⟩
    · rintro (h | ⟨rfl | h, h'⟩)
      · exact Or.inl (Or.inl h)
      · exact Or.inl (Or.inr ⟨rfl, h'⟩)
      · exact Or.inr ⟨h, h'⟩

/-- Every block the walk passes is Ok, and it stays inside the grid. -/
theorem scan_ok (b : VouchBits) : ∀ (n e k : Nat), e ≤ k → k < b.scan n e → b.isOk k = true
  | 0, e, k, h1, h2 => by unfold scan at h2; omega
  | n + 1, e, k, h1, h2 => by
    unfold scan at h2
    split at h2
    case isTrue h =>
      rcases eq_or_lt_of_le h1 with rfl | h1
      · exact h.2
      · exact b.scan_ok n (e + 1) k h1 h2
    case isFalse => omega

/-- A byte the bitmap reports lies in an Ok block, or past the grid of a bitmap that has one. -/
theorem ok_of_lt_vouchedEnd {b : VouchBits} {offset p : Nat} (h1 : offset ≤ p)
    (h2 : p < b.vouchedEnd offset) (hp : p < b.ok.length * b.blockSize) :
    b.isOk (p / b.blockSize) = true := by
  unfold vouchedEnd at h2
  split at h2
  · omega
  case isFalse hz =>
    have hb : 0 < b.blockSize := by omega
    have hpn : p / b.blockSize < b.ok.length := (Nat.div_lt_iff_lt_mul hb).2 hp
    have hle : offset / b.blockSize ≤ p / b.blockSize := Nat.div_le_div_right h1
    dsimp only at h2
    split at h2
    · omega
    split at h2
    · omega
    case isFalse hok =>
      have hok : b.isOk (offset / b.blockSize) = true := by simpa using hok
      have hscan : p / b.blockSize < b.scan (SCAN_CAP - 1) (offset / b.blockSize + 1) := by
        split at h2
        case isTrue hs => omega
        case isFalse => exact (Nat.div_lt_iff_lt_mul hb).2 h2
      rcases eq_or_lt_of_le hle with h | h
      · rw [← h]; exact hok
      · exact b.scan_ok _ _ _ h hscan

end VouchBits

/-- The verified-block watermark the chase decode gates on, and the bitmaps beside it. -/
structure VerifyGate where
  marks : Nat → Option Nat
  vouch : Nat → Option VouchBits

namespace VerifyGate

def new : VerifyGate := ⟨fun _ => none, fun _ => none⟩

/-- The slot's watermark; an ungated slot reads as `u64::MAX`. -/
def watermark (g : VerifyGate) (slot : Nat) : Nat := (g.marks slot).getD U64_MAX

def engagedMark (g : VerifyGate) (slot : Nat) : Option Nat := g.marks slot

/-- A claim engaged the gate; never lowers an existing mark. -/
def engage (g : VerifyGate) (slot : Nat) : VerifyGate :=
  { g with marks := Function.update g.marks slot (some ((g.marks slot).getD 0)) }

def advance (g : VerifyGate) (slot bytes : Nat) : VerifyGate :=
  let cur := (g.marks slot).getD 0
  if cur < bytes ∨ g.marks slot = none then
    { g with marks := Function.update g.marks slot (some (max bytes cur)) }
  else g

/-- The exclusive offset up to which `slot` is vouched for from `offset`. -/
def vouchedEnd (g : VerifyGate) (slot offset : Nat) : Nat :=
  let wm := g.watermark slot
  if offset < wm then wm
  else
    match g.vouch slot with
    | some b => b.vouchedEnd offset
    | none => wm

/-- Arm the slot's bitmap anew; the previous one is cleared and dropped. -/
def armVouch (g : VerifyGate) (slot nBlocks blockSize : Nat) : VerifyGate :=
  { g with vouch := Function.update g.vouch slot (some (.new nBlocks blockSize)) }

/-- An update of the slot's bitmap through the handle the verifier holds. -/
def onBits (g : VerifyGate) (slot : Nat) (f : VouchBits → VouchBits) : VerifyGate :=
  { g with vouch := Function.update g.vouch slot ((g.vouch slot).map f) }

@[simp] theorem engage_marks_self (g : VerifyGate) (slot : Nat) :
    (g.engage slot).marks slot = some ((g.marks slot).getD 0) := by simp [engage]

@[simp] theorem engage_vouch (g : VerifyGate) (slot : Nat) : (g.engage slot).vouch = g.vouch := rfl

@[simp] theorem advance_vouch (g : VerifyGate) (slot bytes : Nat) :
    (g.advance slot bytes).vouch = g.vouch := by
  unfold advance; dsimp only; split <;> rfl

theorem advance_marks_self (g : VerifyGate) (slot bytes : Nat) :
    (g.advance slot bytes).marks slot = some (max bytes ((g.marks slot).getD 0)) := by
  unfold advance
  dsimp only
  split
  case isTrue => simp
  case isFalse h =>
    rw [not_or] at h
    obtain ⟨m, hm⟩ := Option.ne_none_iff_exists'.mp h.2
    rw [hm] at h ⊢
    simp only [Option.getD_some] at h ⊢
    congr 1; omega

theorem advance_marks_ne (g : VerifyGate) {slot slot' : Nat} (bytes : Nat) (h : slot' ≠ slot) :
    (g.advance slot bytes).marks slot' = g.marks slot' := by
  unfold advance
  dsimp only
  split
  · simp [h]
  · rfl

end VerifyGate

end NzbFast.Live
