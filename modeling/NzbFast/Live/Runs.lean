import Mathlib.Tactic

/-!
# Boundary-block interval tracking

The two shapes a block that straddles articles is held in
(`crates/nzbkit-base/src/live/runs.rs`): `Partial` keeps the bytes, `CrcParts`
keeps one CRC32 per run of fragments. Both sit over `Runs`, a list of runs in
start order; the source's switch from a sorted `Vec` to a `BTreeMap` above 32
runs changes the container and not its contents.

* `Partial.covers_fill`: a filled offset was filled before or is one of the
  new bytes.
* `CrcParts.insert_composed`: every stored CRC is composed from fragments that
  tile its range.
-/

namespace NzbFast.Live

open List hiding le_refl

/-! ## Runs -/

/-- Runs keyed by start, in start order. -/
abbrev Runs (V : Type) := List (Nat × V)

namespace Runs

variable {V : Type}

/-- The greatest run starting strictly before `k`. -/
def before (r : Runs V) (k : Nat) : Option (Nat × V) := (r.takeWhile (·.1 < k)).getLast?

/-- The least run starting at or after `k`. -/
def atOrAfter (r : Runs V) (k : Nat) : Option (Nat × V) := (r.dropWhile (·.1 < k)).head?

def remove (r : Runs V) (k : Nat) : Runs V := r.eraseP (·.1 = k)

/-- Insert or replace the run starting at `k`. -/
def insert (r : Runs V) (k : Nat) (v : V) : Runs V :=
  match r with
  | [] => [(k, v)]
  | x :: xs => if x.1 < k then x :: insert xs k v else if x.1 = k then (k, v) :: xs else (k, v) :: x :: xs

variable {k : Nat} {x : Nat × V} {r : Runs V}

theorem before_mem (h : r.before k = some x) : x ∈ r :=
  (List.takeWhile_prefix _).subset (mem_of_getLast? h)

theorem atOrAfter_mem (h : r.atOrAfter k = some x) :
    x ∈ r := (dropWhile_suffix _).subset (mem_of_head? h)

theorem mem_of_mem_remove (h : x ∈ r.remove k) : x ∈ r :=
  mem_of_mem_eraseP h

theorem mem_insert {v : V} (h : x ∈ r.insert k v) : x = (k, v) ∨ x ∈ r := by
  induction r with
  | nil => simpa [insert] using h
  | cons y ys ih =>
    unfold insert at h
    split at h
    · rcases mem_cons.mp h with rfl | h
      · exact Or.inr (by simp)
      · rcases ih h with h | h
        · exact Or.inl h
        · exact Or.inr (by simp [h])
    · split at h
      · rcases mem_cons.mp h with rfl | h
        · exact Or.inl rfl
        · exact Or.inr (by simp [h])
      · rcases mem_cons.mp h with rfl | h
        · exact Or.inl rfl
        · exact Or.inr h

end Runs

/-! ## Byte partials -/

/-- A boundary block accumulating bytes from more than one article. -/
structure Partial where
  buf : List UInt8
  filled : Runs Nat := []
  deriving DecidableEq, Repr

namespace Partial

def new (len : Nat) : Partial := { buf := List.replicate len 0 }

/-- `buf[at..at + bytes.len()].copy_from_slice(bytes)`. -/
def copyInto (buf : List UInt8) (at_ : Nat) (bytes : List UInt8) : List UInt8 :=
  buf.take at_ ++ bytes ++ buf.drop (at_ + bytes.length)

/-- The loop that absorbs the runs starting inside `s..=e`; each turn removes one run. -/
def absorb : Nat → Runs Nat → Nat → Nat → Runs Nat × Nat
  | 0, r, _, e => (r, e)
  | n + 1, r, s, e =>
    match r.atOrAfter s with
    | none => (r, e)
    | some (ns, ne) => if e < ns then (r, e) else absorb n (r.remove ns) s (max e ne)

def fill (p : Partial) (at_ : Nat) (bytes : List UInt8) : Partial :=
  let (r, e) := absorb p.filled.length p.filled at_ (at_ + bytes.length)
  { buf := copyInto p.buf at_ bytes
    filled :=
      match r.before at_ with
      | some (ps, pe) => if at_ ≤ pe then r.insert ps (max e pe) else r.insert at_ e
      | none => r.insert at_ e }

def complete (p : Partial) : Bool := p.filled.head? = some (0, p.buf.length)

/-- Clip to the first `want` bytes. -/
def truncate (p : Partial) (want : Nat) : Partial :=
  { buf := p.buf.take want
    filled := (p.filled.filter (·.1 < want)).map fun x => (x.1, min x.2 want) }

/-- Offset `k` lies in a filled run. -/
def Covers (r : Runs Nat) (k : Nat) : Prop := ∃ x ∈ r, x.1 ≤ k ∧ k < x.2

theorem covers_absorb (k s : Nat) : ∀ (n : Nat) (r : Runs Nat) (e : Nat), s ≤ e →
    (Covers (absorb n r s e).1 k → Covers r k) ∧
    (s ≤ k → k < (absorb n r s e).2 → Covers r k ∨ k < e) ∧ e ≤ (absorb n r s e).2
  | 0, r, e, _ => ⟨id, fun _ h => Or.inr h, le_refl e⟩
  | n + 1, r, e, hse => by
    unfold absorb
    cases hf : r.atOrAfter s with
    | none => exact ⟨id, fun _ h => Or.inr h, le_refl e⟩
    | some x =>
      obtain ⟨ns, ne⟩ := x
      dsimp only
      split
      · exact ⟨id, fun _ h => Or.inr h, le_refl e⟩
      · rename_i hle
        obtain ⟨h1, h2, h3⟩ := covers_absorb k s n (r.remove ns) (max e ne) (by omega)
        have hr : Covers (r.remove ns) k → Covers r k := fun ⟨x, hx, hk⟩ =>
          ⟨x, Runs.mem_of_mem_remove hx, hk⟩
        refine ⟨fun h => hr (h1 h), fun hsk hk => ?_, by omega⟩
        rcases h2 hsk hk with h | h
        · exact Or.inl (hr h)
        · by_cases hke : k < e
          · exact Or.inr hke
          · exact Or.inl ⟨(ns, ne), Runs.atOrAfter_mem hf, by omega, by omega⟩

variable {at_ k : Nat} {bytes : List UInt8} {p : Partial}

theorem covers_insert {r : Runs Nat} {s e : Nat} (h : Covers (r.insert s e) k) :
    Covers r k ∨ (s ≤ k ∧ k < e) := by
  obtain ⟨x, hx, hk⟩ := h
  rcases Runs.mem_insert hx with rfl | hx
  · exact Or.inr hk
  · exact Or.inl ⟨x, hx, hk⟩

/-- What a fill records as filled was filled before or is among the new bytes. -/
theorem covers_fill (h : Covers (p.fill at_ bytes).filled k) :
    Covers p.filled k ∨ (at_ ≤ k ∧ k < at_ + bytes.length) := by
  obtain ⟨h1, h2, h3⟩ :=
    covers_absorb k at_ p.filled.length p.filled (at_ + bytes.length) (by omega)
  unfold fill at h
  generalize absorb p.filled.length p.filled at_ (at_ + bytes.length) = re at *
  obtain ⟨r, e⟩ := re
  dsimp only at h h1 h2 h3
  -- the new run `at_..e` holds nothing that was not filled
  have hnew : at_ ≤ k → k < e → Covers p.filled k ∨ (at_ ≤ k ∧ k < at_ + bytes.length) := by
    intro hk hke
    rcases h2 hk hke with h | h
    · exact Or.inl h
    · exact Or.inr ⟨hk, h⟩
  have hplain : Covers (r.insert at_ e) k →
      Covers p.filled k ∨ (at_ ≤ k ∧ k < at_ + bytes.length) := by
    intro h
    rcases covers_insert h with h | ⟨hk, hke⟩
    · exact Or.inl (h1 h)
    · exact hnew hk hke
  cases hb : r.before at_ with
  | none => rw [hb] at h; exact hplain h
  | some x =>
    obtain ⟨ps, pe⟩ := x
    rw [hb] at h
    dsimp only at h
    split at h
    · rename_i hpe
      rcases covers_insert h with h | ⟨hk, hke⟩
      · exact Or.inl (h1 h)
      · by_cases hk' : k < pe
        · exact Or.inl (h1 ⟨(ps, pe), Runs.before_mem hb, hk, hk'⟩)
        · exact hnew (by omega) (by omega)
    · exact hplain h

theorem length_copyInto {buf : List UInt8} (h : at_ + bytes.length ≤ buf.length) :
    (copyInto buf at_ bytes).length = buf.length := by
  simp only [copyInto, length_append, length_take, length_drop]; omega

theorem getElem?_copyInto {buf : List UInt8} (h : at_ + bytes.length ≤ buf.length) :
    (copyInto buf at_ bytes)[k]? =
      if at_ ≤ k ∧ k < at_ + bytes.length then bytes[k - at_]? else buf[k]? := by
  have ht : (buf.take at_).length = at_ := by simp; omega
  unfold copyInto
  rw [append_assoc]
  by_cases h1 : k < at_
  · rw [getElem?_append_left (by omega), getElem?_take_of_lt h1, if_neg (by omega)]
  · rw [getElem?_append_right (by omega), ht]
    by_cases h2 : k < at_ + bytes.length
    · rw [getElem?_append_left (by omega), if_pos (by omega)]
    · rw [getElem?_append_right (by omega), getElem?_drop, if_neg (by omega)]
      congr 1; omega

@[simp] theorem length_fill (h : at_ + bytes.length ≤ p.buf.length) :
    (p.fill at_ bytes).buf.length = p.buf.length := by
  exact length_copyInto h

/-- A complete partial has every offset filled. -/
theorem covers_of_complete (h : p.complete) (hk : k < p.buf.length) : Covers p.filled k := by
  simp only [complete, decide_eq_true_eq] at h
  exact ⟨_, mem_of_head? h, Nat.zero_le _, hk⟩

end Partial

/-! ## CRC partials -/

/-- A fragment of a block, by its CRC32. -/
structure Frag where
  start : Nat
  stop : Nat
  crc : Nat
  deriving DecidableEq, Repr

/-- `Composes combine frags s e crc`: `frags` tile `s..e` in order and `crc` is their CRCs combined
along some bracketing. -/
inductive Composes (combine : Nat → Nat → Nat → Nat) : List Frag → Nat → Nat → Nat → Prop
  | one (f : Frag) : Composes combine [f] f.start f.stop f.crc
  | join {l₁ l₂ : List Frag} {s m e c₁ c₂ : Nat} :
      Composes combine l₁ s m c₁ → Composes combine l₂ m e c₂ →
      Composes combine (l₁ ++ l₂) s e (combine c₁ c₂ (e - m))

/-- A boundary block held as CRC32s of merged fragments. -/
structure CrcParts where
  parts : Runs (Nat × Nat) := []
  deriving DecidableEq, Repr

namespace CrcParts

variable (combine : Nat → Nat → Nat → Nat)

/-- The merge with the right neighbour: the runs left, the new end and its CRC. -/
def joinRight (p : CrcParts) (e crc : Nat) (succ : Option (Nat × Nat × Nat)) :
    Runs (Nat × Nat) × Nat × Nat :=
  match succ with
  | some (ns, ne, nc) =>
    if ns = e then (p.parts.remove ns, ne, combine crc nc (ne - e)) else (p.parts, e, crc)
  | none => (p.parts, e, crc)

/-- The merge with the left neighbour, which grows in place. -/
def joinLeft (r : Runs (Nat × Nat)) (s e crc : Nat) (pred : Option (Nat × Nat × Nat)) : CrcParts :=
  match pred with
  | some (ps, pe, pc) =>
    if pe = s then ⟨r.insert ps (e, combine pc crc (e - s))⟩ else ⟨r.insert s (e, crc)⟩
  | none => ⟨r.insert s (e, crc)⟩

/-- Merge a fragment; `none` on an empty or an overlapping one. -/
def insert (p : CrcParts) (s e crc : Nat) : Option CrcParts :=
  let pred := p.parts.before s
  let succ := p.parts.atOrAfter s
  if e ≤ s then none
  else if pred.any fun x => s < x.2.1 then none
  else if succ.any fun x => x.1 < e then none
  else
    let (r, e', crc') := p.joinRight combine e crc succ
    some (joinLeft combine r s e' crc' pred)

/-- The CRC of the whole block once every fragment landed. -/
def complete (p : CrcParts) (blen : Nat) : Option Nat :=
  match p.parts with
  | [(0, e, crc)] => if e = blen then some crc else none
  | _ => none

/-- Every stored CRC is composed from fragments of `P`. -/
def Composed (P : Frag → Prop) (p : CrcParts) : Prop :=
  ∀ x ∈ p.parts, ∃ frags, Composes combine frags x.1 x.2.1 x.2.2 ∧ ∀ f ∈ frags, P f

variable {combine} {P : Frag → Prop} {p p' : CrcParts} {s e crc : Nat}

theorem composed_new : Composed combine P {} := by
  intro x hx; cases hx

theorem composed_put {r : Runs (Nat × Nat)} {k c : Nat} (hr : Composed combine P ⟨r⟩)
    (hc : ∃ frags, Composes combine frags k e c ∧ ∀ f ∈ frags, P f) :
    Composed combine P ⟨r.insert k (e, c)⟩ := by
  intro x hx
  rcases Runs.mem_insert hx with rfl | hx
  · exact hc
  · exact hr x hx

theorem Composes.append {l₁ l₂ : List Frag} {m c₁ c₂ : Nat}
    (h₁ : Composes combine l₁ s m c₁ ∧ ∀ f ∈ l₁, P f)
    (h₂ : Composes combine l₂ m e c₂ ∧ ∀ f ∈ l₂, P f) :
    Composes combine (l₁ ++ l₂) s e (combine c₁ c₂ (e - m)) ∧ ∀ f ∈ l₁ ++ l₂, P f := by
  refine ⟨.join h₁.1 h₂.1, fun f hf => ?_⟩
  rcases mem_append.mp hf with h | h
  · exact h₁.2 f h
  · exact h₂.2 f h

theorem joinRight_composed (hp : p.Composed combine P) (hf : P ⟨s, e, crc⟩) :
    Composed combine P ⟨(p.joinRight combine e crc (p.parts.atOrAfter s)).1⟩ ∧
    ∃ frags, Composes combine frags s (p.joinRight combine e crc (p.parts.atOrAfter s)).2.1
      (p.joinRight combine e crc (p.parts.atOrAfter s)).2.2 ∧ ∀ f ∈ frags, P f := by
  have hone : Composes combine [⟨s, e, crc⟩] s e crc ∧ ∀ f ∈ [(⟨s, e, crc⟩ : Frag)], P f :=
    ⟨.one _, by simpa using hf⟩
  unfold joinRight
  cases hs : p.parts.atOrAfter s with
  | none => exact ⟨hp, _, hone⟩
  | some x =>
    dsimp only
    split
    case isTrue hne =>
      subst hne
      obtain ⟨l, hl⟩ := hp _ (Runs.atOrAfter_mem hs)
      exact ⟨fun y hy => hp y (Runs.mem_of_mem_remove hy), _, Composes.append hone hl⟩
    case isFalse => exact ⟨hp, _, hone⟩

theorem joinLeft_composed {r : Runs (Nat × Nat)} (hp : p.Composed combine P)
    (hr : Composed combine P ⟨r⟩)
    (hc : ∃ frags, Composes combine frags s e crc ∧ ∀ f ∈ frags, P f) :
    Composed combine P (joinLeft combine r s e crc (p.parts.before s)) := by
  unfold joinLeft
  cases hb : p.parts.before s with
  | none => exact composed_put hr hc
  | some x =>
    dsimp only
    split
    case isTrue hpe =>
      subst hpe
      obtain ⟨l₁, h₁⟩ := hp _ (Runs.before_mem hb)
      obtain ⟨l₂, h₂⟩ := hc
      exact composed_put hr ⟨l₁ ++ l₂, Composes.append h₁ h₂⟩
    case isFalse => exact composed_put hr hc

/-- Inserting a fragment of `P` keeps every stored CRC composed from fragments of `P`. -/
theorem insert_composed (hp : p.Composed combine P) (hf : P ⟨s, e, crc⟩)
    (h : p.insert combine s e crc = some p') : p'.Composed combine P := by
  unfold insert at h
  dsimp only at h
  split at h
  · cases h
  split at h
  · cases h
  split at h
  · cases h
  · cases h
    obtain ⟨hr, hc⟩ := joinRight_composed hp hf
    exact joinLeft_composed hp hr hc

theorem complete_composes {blen : Nat} (hp : p.Composed combine P)
    (h : p.complete blen = some crc) :
    ∃ frags, Composes combine frags 0 blen crc ∧ ∀ f ∈ frags, P f := by
  unfold complete at h
  split at h
  · rename_i e c hparts
    split at h
    · rename_i he
      cases h
      subst he
      exact hp (0, e, crc) (by rw [hparts]; simp)
    · cases h
  · cases h

end CrcParts

/-- A boundary block in flight: bytes (full-MD5 mode) or fragment CRCs (fast/lean mode). -/
inductive PartialBuf
  | bytes (p : Partial)
  | crc (p : CrcParts)
  deriving DecidableEq, Repr

end NzbFast.Live
