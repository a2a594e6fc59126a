import NzbFast.Live.Containers

/-!
# What a partial has is what was filled

A block that straddles articles is filled in pieces and clipped when its end moves.
`Partial.Exact` relates a partial to the last byte each offset received; every fill in
bounds and every truncation keeps it. `StoredPartial` is the partial over the store the
source keeps its runs in, and agrees with it step by step whatever length promotes the
store.

* `Partial.fill_runs`: the runs after a fill, around the run it leaves.
* `partial_exact`: any sequence of fills and truncations.
-/

namespace NzbFast.Live

open List

/-- Runs in order, none of which touches the next. A run may be empty. -/
structure Tidy (r : Runs Nat) : Prop where
  le : ∀ x ∈ r, x.1 ≤ x.2
  gap : r.Pairwise fun x y => x.2 < y.1

namespace Tidy

theorem ordered {r : Runs Nat} (h : Tidy r) : r.Ordered := by
  have := h.gap.imp_of_mem (S := fun x y => x.1 < y.1) fun {x y} hx _ hxy =>
    lt_of_le_of_lt (h.le x hx) hxy
  exact this

theorem nil : Tidy [] := ⟨fun _ h => absurd h not_mem_nil, .nil⟩

theorem left {a b : Runs Nat} (h : Tidy (a ++ b)) : Tidy a :=
  ⟨fun x hx => h.le x (mem_append_left b hx), (pairwise_append.mp h.gap).1⟩

theorem right {a b : Runs Nat} (h : Tidy (a ++ b)) : Tidy b :=
  ⟨fun x hx => h.le x (mem_append_right a hx), (pairwise_append.mp h.gap).2.1⟩

/-- A run between what ends before it and what starts behind it. -/
theorem put {l t : Runs Nat} {s e : Nat} (hl : Tidy l) (ht : Tidy t) (hse : s ≤ e)
    (hls : ∀ x ∈ l, x.2 < s) (hte : ∀ x ∈ t, e < x.1) : Tidy (l ++ (s, e) :: t) := by
  constructor
  · intro x hx
    rcases mem_append.mp hx with hx | hx
    · exact hl.le x hx
    · rcases mem_cons.mp hx with rfl | hx
      · exact hse
      · exact ht.le x hx
  · refine pairwise_append.mpr ⟨hl.gap, pairwise_cons.mpr ⟨hte, ht.gap⟩,
      fun x hx y hy => ?_⟩
    have := hls x hx
    rcases mem_cons.mp hy with rfl | hy
    · exact this
    · have := hte y hy
      omega

end Tidy

namespace Partial

variable {k len : Nat} {p : Partial} {last : Nat → Option UInt8}

theorem covers_append {a b : Runs Nat} : Covers (a ++ b) k ↔ Covers a k ∨ Covers b k := by
  simp [Covers, or_and_right, exists_or]

theorem covers_cons {x : Nat × Nat} {r : Runs Nat} :
    Covers (x :: r) k ↔ (x.1 ≤ k ∧ k < x.2) ∨ Covers r k := by
  simp [Covers]

theorem not_covers_nil (k : Nat) : ¬ Covers [] k := by
  rintro ⟨x, hx, -⟩
  exact not_mem_nil hx

/-! ## One fill -/

/-- The loop takes the runs from `s` on that the growing run touches. -/
theorem absorb_spec {front back : Runs Nat} {s e n : Nat} (hf : ∀ x ∈ front, x.1 < s)
    (hb : ∀ x ∈ back, s ≤ x.1) (ht : Tidy back) (hn : back.length ≤ n) :
    ∃ mid rest e', back = mid ++ rest ∧ absorb n (front ++ back) s e = (front ++ rest, e') ∧
      e ≤ e' ∧ (e' = e ∨ ∃ x ∈ mid, e' = x.2) ∧ (∀ x ∈ rest, e' < x.1) ∧
      ∀ k, s ≤ k → (k < e' ↔ Covers mid k ∨ k < e) := by
  induction back generalizing n e with
  | nil =>
    refine ⟨[], [], e, rfl, ?_, le_refl e, .inl rfl, fun x hx => absurd hx not_mem_nil,
      fun k _ => by simp [not_covers_nil]⟩
    cases n with
    | zero => rfl
    | succ n => rw [absorb, Runs.atOrAfter_around hf hb]; rfl
  | cons x back ih =>
    obtain ⟨ns, ne⟩ := x
    obtain ⟨m, rfl⟩ : ∃ m, n = m + 1 := ⟨n - 1, by rw [length_cons] at hn; omega⟩
    have hgap := (pairwise_cons.mp ht.gap).1
    have hle : ns ≤ ne := ht.le (ns, ne) (.head _)
    have hns : s ≤ ns := hb (ns, ne) (.head _)
    rw [absorb, Runs.atOrAfter_around hf hb, head?_cons]
    dsimp only
    by_cases hpast : e < ns
    · refine ⟨[], (ns, ne) :: back, e, rfl, if_pos hpast, le_refl e, .inl rfl, fun x hx => ?_,
        fun k _ => by simp [not_covers_nil]⟩
      rcases mem_cons.mp hx with rfl | hx
      · exact hpast
      · have := hgap x hx
        omega
    · rw [if_neg hpast, Runs.remove_around fun x hx => lt_of_lt_of_le (hf x hx) hns]
      obtain ⟨mid, rest, e', rfl, habs, hge, hend, hrest, hcov⟩ := ih (n := m) (e := max e ne)
        (fun x hx => hb x (.tail _ hx))
        (Tidy.right (a := [(ns, ne)]) ht) (by rw [length_cons] at hn; omega)
      refine ⟨(ns, ne) :: mid, rest, e', rfl, habs, by omega, ?_, hrest, fun k hk => ?_⟩
      · rcases hend with hend | ⟨x, hx, hend⟩
        · rcases le_total ne e with h | h
          · exact .inl (by omega)
          · exact .inr ⟨(ns, ne), .head _, by dsimp only; omega⟩
        · exact .inr ⟨x, .tail _ hx, hend⟩
      · rw [hcov k hk, covers_cons]
        constructor
        · rintro (h | h)
          · exact .inl (.inr h)
          · by_cases hke : k < e
            · exact .inr hke
            · exact .inl (.inl (by omega))
        · rintro ((h | h) | h)
          · exact .inr (by omega)
          · exact .inl h
          · exact .inr (by omega)

/-- The runs after a fill: those the fill does not touch, and between them the one it leaves. -/
theorem fill_runs (h : Tidy p.filled) (at_ : Nat) (bytes : List UInt8) :
    ∃ l m t ns ne, p.filled = l ++ m ++ t ∧ (p.fill at_ bytes).filled = l ++ (ns, ne) :: t ∧
      (∀ x ∈ l, x.2 < ns) ∧ (∀ x ∈ t, ne < x.1) ∧ ns ≤ ne ∧
      (ne = at_ + bytes.length ∨ ∃ x ∈ m, ne = x.2) ∧
      ∀ k, ns ≤ k ∧ k < ne ↔ Covers m k ∨ (at_ ≤ k ∧ k < at_ + bytes.length) := by
  obtain ⟨front, back, hs, hf, hb⟩ := Runs.split_at h.ordered at_
  have htidy := h
  rw [hs] at htidy
  have hcross := (pairwise_append.mp htidy.gap).2.2
  have hlen : back.length ≤ p.filled.length := by rw [hs, length_append]; omega
  obtain ⟨mid, rest, e', rfl, habs, hge, hend, hrest, hcov⟩ :=
    absorb_spec (e := at_ + bytes.length) hf hb htidy.right hlen
  rw [← hs] at habs
  have hafter : ∀ x ∈ rest, at_ ≤ x.1 := fun x hx => hb x (mem_append_right mid hx)
  have hmid : ∀ x ∈ mid, at_ ≤ x.1 := fun x hx => hb x (mem_append_left rest hx)
  -- A run that grows from `at_` on, with everything in front of it ending before.
  have hfresh : (∀ x ∈ front, x.2 < at_) → (p.fill at_ bytes).filled = front ++ (at_, e') :: rest →
      ∃ l m t ns ne, p.filled = l ++ m ++ t ∧ (p.fill at_ bytes).filled = l ++ (ns, ne) :: t ∧
        (∀ x ∈ l, x.2 < ns) ∧ (∀ x ∈ t, ne < x.1) ∧ ns ≤ ne ∧
        (ne = at_ + bytes.length ∨ ∃ x ∈ m, ne = x.2) ∧
        ∀ k, ns ≤ k ∧ k < ne ↔ Covers m k ∨ (at_ ≤ k ∧ k < at_ + bytes.length) := by
    intro hfront hfill
    refine ⟨front, mid, rest, at_, e', by rw [hs, append_assoc], hfill, hfront, hrest,
      by omega, hend, fun k => ?_⟩
    constructor
    · rintro ⟨hlo, hhi⟩
      exact ((hcov k hlo).mp hhi).imp_right fun h => ⟨hlo, h⟩
    · intro hk
      have hlo : at_ ≤ k := by
        rcases hk with ⟨x, hx, hlo, -⟩ | hk
        · exact le_trans (hmid x hx) hlo
        · exact hk.1
      exact ⟨hlo, (hcov k hlo).mpr (hk.imp_right And.right)⟩
  have hplain : (∀ x ∈ rest, at_ < x.1) := fun x hx => by
    have := hrest x hx
    omega
  rcases eq_nil_or_concat front with rfl | ⟨front', x, rfl⟩
  · refine hfresh (fun x hx => absurd hx not_mem_nil) ?_
    unfold fill
    rw [habs]
    dsimp only
    rw [Runs.before_around hf hafter, Runs.insert_around hf hplain]
    rfl
  · obtain ⟨ps, pe⟩ := x
    rw [concat_eq_append] at *
    have hbefore : Runs.before (front' ++ [(ps, pe)] ++ rest) at_ = some (ps, pe) := by
      rw [Runs.before_around hf hafter, getLast?_append, getLast?_singleton]
      rfl
    have hps : ps < at_ := hf (ps, pe) (by simp)
    have hfront' := htidy.left
    have hends : ∀ x ∈ front', x.2 < ps := fun x hx =>
      (pairwise_append.mp hfront'.gap).2.2 x hx _ (mem_singleton_self _)
    by_cases hjoin : at_ ≤ pe
    · -- The predecessor grows in place.
      have hpast : ∀ x ∈ mid ++ rest, pe < x.1 := fun x hx =>
        hcross (ps, pe) (by simp) x hx
      refine ⟨front', (ps, pe) :: mid, rest, ps, max e' pe, ?_, ?_, hends, fun x hx => ?_, by omega,
        ?_, fun k => ?_⟩
      · rw [hs]
        simp
      · unfold fill
        rw [habs]
        dsimp only
        rw [hbefore]
        dsimp only
        rw [if_pos hjoin, append_assoc, singleton_append,
          Runs.insert_over fun x hx => ?_]
        have h1 := hends x hx
        have h2 := hfront'.le x (by simp [hx])
        omega
      · have h1 := hrest x hx
        have h2 := hpast x (mem_append_right mid hx)
        omega
      · rcases le_total e' pe with hle | hle
        · exact .inr ⟨(ps, pe), .head _, by dsimp only; omega⟩
        · rw [max_eq_left hle]
          exact hend.imp_right fun ⟨x, hx, he⟩ => ⟨x, .tail _ hx, he⟩
      · rw [covers_cons]
        constructor
        · rintro ⟨hlo, hhi⟩
          by_cases hk : k < pe
          · exact .inl (.inl ⟨hlo, hk⟩)
          · have hat : at_ ≤ k := by omega
            rcases (hcov k hat).mp (by omega) with hk | hk
            · exact .inl (.inr hk)
            · exact .inr ⟨hat, hk⟩
        · rintro ((hk | ⟨x, hx, hlo, hhi⟩) | hk)
          · omega
          · have h1 := hmid x hx
            have := (hcov k (by omega)).mpr (.inl ⟨x, hx, hlo, hhi⟩)
            omega
          · have := (hcov k hk.1).mpr (.inr hk.2)
            omega
    · refine hfresh (fun x hx => ?_) ?_
      · rcases mem_append.mp hx with hx | hx
        · have := hends x hx
          omega
        · rw [mem_singleton.mp hx]
          omega
      · unfold fill
        rw [habs]
        dsimp only
        rw [hbefore]
        dsimp only
        rw [if_neg hjoin, Runs.insert_around hf hplain]

theorem tidy_fill (h : Tidy p.filled) (at_ : Nat) (bytes : List UInt8) :
    Tidy (p.fill at_ bytes).filled := by
  obtain ⟨l, m, t, ns, ne, hs, hfill, hl, ht, hle, -, -⟩ := fill_runs h at_ bytes
  rw [hfill]
  rw [hs] at h
  exact h.left.left.put h.right hle hl ht

theorem covers_fill_iff (h : Tidy p.filled) (at_ : Nat) (bytes : List UInt8) (k : Nat) :
    Covers (p.fill at_ bytes).filled k ↔
      Covers p.filled k ∨ (at_ ≤ k ∧ k < at_ + bytes.length) := by
  obtain ⟨l, m, t, ns, ne, hs, hfill, -, -, -, -, hcov⟩ := fill_runs h at_ bytes
  rw [hfill, hs, covers_append, covers_cons, covers_append, covers_append]
  rw [hcov k]
  tauto

/-! ## One truncation -/

theorem tidy_truncate (h : Tidy p.filled) (want : Nat) : Tidy (p.truncate want).filled := by
  constructor
  · intro x hx
    obtain ⟨y, hy, rfl⟩ := mem_map.mp hx
    obtain ⟨hmem, hlt⟩ := mem_filter.mp hy
    rw [decide_eq_true_eq] at hlt
    have := h.le y hmem
    omega
  · refine pairwise_map.mpr ((h.gap.filter _).imp fun {x y} hxy => ?_)
    omega

theorem covers_truncate (want k : Nat) :
    Covers (p.truncate want).filled k ↔ Covers p.filled k ∧ k < want := by
  constructor
  · rintro ⟨x, hx, hk⟩
    obtain ⟨y, hy, rfl⟩ := mem_map.mp hx
    exact ⟨⟨y, (mem_filter.mp hy).1, by omega⟩, by omega⟩
  · rintro ⟨⟨x, hx, hk⟩, hlt⟩
    refine ⟨(x.1, min x.2 want), mem_map.mpr ⟨x, mem_filter.mpr ⟨hx, ?_⟩, rfl⟩, ?_⟩
    · rw [decide_eq_true_eq]
      omega
    · dsimp only
      omega

/-! ## Any sequence -/

inductive Op where
  | fill (at_ : Nat) (bytes : List UInt8)
  | truncate (want : Nat)
  deriving DecidableEq

def apply (p : Partial) : Op → Partial
  | .fill at_ bytes => p.fill at_ bytes
  | .truncate want => p.truncate want

/-- The block's length after the operation. -/
def Op.length (len : Nat) : Op → Nat
  | .fill _ _ => len
  | .truncate want => min want len

/-- The operation stays inside a block of this length. -/
def Op.InBounds (len : Nat) : Op → Prop
  | .fill at_ bytes => at_ + bytes.length ≤ len
  | .truncate _ => True

/-- Every operation stays inside the block its predecessors left. -/
def InBounds : Nat → List Op → Prop
  | _, [] => True
  | len, op :: ops => op.InBounds len ∧ InBounds (op.length len) ops

def finalLength (len : Nat) (ops : List Op) : Nat := ops.foldl Op.length len

/-- The byte an offset received last, of those no truncation has cut off since. -/
def received (last : Nat → Option UInt8) : Op → Nat → Option UInt8
  | .fill at_ bytes, k => if at_ ≤ k ∧ k < at_ + bytes.length then bytes[k - at_]? else last k
  | .truncate want, k => if k < want then last k else none

def lastReceived (ops : List Op) : Nat → Option UInt8 := ops.foldl received fun _ => none

/-- The partial has the bytes its offsets received last, zeros elsewhere, and knows which. -/
structure Exact (len : Nat) (last : Nat → Option UInt8) (p : Partial) : Prop where
  length : p.buf.length = len
  tidy : Tidy p.filled
  inside : ∀ x ∈ p.filled, x.2 ≤ len
  covers : ∀ k, Covers p.filled k ↔ (last k).isSome
  holds : ∀ k < len, p.buf[k]? = some ((last k).getD 0)

theorem exact_new (len : Nat) : Exact len (fun _ => none) (Partial.new len) where
  length := by simp [Partial.new]
  tidy := .nil
  inside x hx := absurd hx not_mem_nil
  covers k := iff_of_false (not_covers_nil k) Bool.false_ne_true
  holds k hk := by simp [Partial.new, hk]

theorem Exact.apply {len : Nat} {last : Nat → Option UInt8} {p : Partial} (h : Exact len last p)
    {op : Op} (hop : op.InBounds len) : Exact (op.length len) (received last op) (p.apply op) := by
  cases op with
  | fill at_ bytes =>
    have hin : at_ + bytes.length ≤ p.buf.length := by rw [h.length]; exact hop
    refine ⟨(length_fill hin).trans h.length, tidy_fill h.tidy at_ bytes, fun x hx => ?_,
      fun k => ?_, fun k hk => ?_⟩
    · obtain ⟨l, m, t, ns, ne, hs, hfill, -, -, -, hend, -⟩ := fill_runs h.tidy at_ bytes
      have hold := h.inside
      rw [hs] at hold
      change x ∈ (p.fill at_ bytes).filled at hx
      rw [hfill] at hx
      rcases mem_append.mp hx with hx | hx
      · exact hold x (by simp [hx])
      · rcases mem_cons.mp hx with rfl | hx
        · rcases hend with rfl | ⟨y, hy, rfl⟩
          · exact hop
          · exact hold y (by simp [hy])
        · exact hold x (by simp [hx])
    · change Covers (p.fill at_ bytes).filled k ↔ _
      rw [covers_fill_iff h.tidy, h.covers k]
      dsimp only [received]
      split
      case isTrue hk =>
        rw [getElem?_eq_getElem (by omega)]
        exact iff_of_true (.inr hk) rfl
      case isFalse hk => exact or_iff_left hk
    · change (copyInto p.buf at_ bytes)[k]? = _
      rw [getElem?_copyInto hin]
      dsimp only [received]
      split
      case isTrue hr => rw [getElem?_eq_getElem (by omega), Option.getD_some]
      case isFalse => exact h.holds k hk
  | truncate want =>
    refine ⟨?_, tidy_truncate h.tidy want, fun x hx => ?_, fun k => ?_, fun k hk => ?_⟩
    · change (p.buf.take want).length = min want len
      rw [length_take, h.length]
    · obtain ⟨y, hy, rfl⟩ := mem_map.mp hx
      have := h.inside y (mem_filter.mp hy).1
      change min y.2 want ≤ min want len
      omega
    · change Covers (p.truncate want).filled k ↔ _
      rw [covers_truncate, h.covers k]
      dsimp only [received]
      split
      case isTrue hk => exact and_iff_left hk
      case isFalse hk => exact iff_of_false (fun hc => hk hc.2) Bool.false_ne_true
    · change k < min want len at hk
      change (p.buf.take want)[k]? = _
      dsimp only [received]
      rw [getElem?_take_of_lt (by omega), if_pos (by omega)]
      exact h.holds k (by omega)

theorem Exact.run (h : Exact len last p) {ops : List Op} (hops : InBounds len ops) :
    Exact (finalLength len ops) (ops.foldl received last) (ops.foldl Partial.apply p) := by
  induction ops generalizing len last p with
  | nil => exact h
  | cons op ops ih => exact ih (h.apply hops.1) hops.2

theorem Exact.lt (h : Exact len last p) (hk : Covers p.filled k) : k < len := by
  obtain ⟨x, hx, -, hlt⟩ := hk
  exact hlt.trans_le (h.inside x hx)

/-- A longer block, zeros at its end. -/
theorem Exact.grow {n : Nat} (h : Exact len last p) (hn : len ≤ n) :
    Exact n last { p with buf := p.buf ++ replicate (n - len) 0 } where
  length := by
    rw [length_append, length_replicate, h.length]
    omega
  tidy := h.tidy
  inside x hx := le_trans (h.inside x hx) hn
  covers := h.covers
  holds k hk := by
    by_cases hlen : k < len
    · rw [getElem?_append_left (by rw [h.length]; exact hlen), h.holds k hlen]
    · have hnone : last k = none := by
        cases hl : last k with
        | none => rfl
        | some b => exact absurd (h.lt ((h.covers k).mpr (by rw [hl]; rfl))) hlen
      rw [getElem?_append_right (by rw [h.length]; omega), h.length,
        getElem?_replicate_of_lt (by omega), hnone]
      rfl

/-- A block that is not empty is complete once every byte of it is filled. -/
theorem Exact.complete_iff (h : Exact len last p) (hlen : 0 < len) :
    p.complete = true ↔ ∀ k < len, (last k).isSome := by
  constructor
  · intro hc k hk
    exact (h.covers k).mp (covers_of_complete hc (by rw [h.length]; exact hk))
  · intro hall
    obtain ⟨x, hx, hlo, hhi⟩ := (h.covers 0).mpr (hall 0 hlen)
    obtain ⟨s, e⟩ := x
    obtain rfl : s = 0 := Nat.le_zero.mp hlo
    -- The run at zero is the first, and no run could follow it before the end of the block.
    obtain ⟨l, t, hs⟩ := append_of_mem hx
    have htidy := h.tidy
    rw [hs] at htidy
    have hnil : l = [] := by
      cases l with
      | nil => rfl
      | cons y l =>
        have := (pairwise_append.mp htidy.gap).2.2 y (.head _) (0, e) (.head _)
        exact absurd this (Nat.not_lt_zero _)
    subst hnil
    have hend : e = len := by
      refine le_antisymm (h.inside (0, e) hx) ?_
      by_contra hshort
      obtain ⟨y, hy, hylo, hyhi⟩ := (h.covers e).mpr (hall e (by omega))
      rw [hs, nil_append] at hy
      rcases mem_cons.mp hy with rfl | hy
      · exact lt_irrefl _ hyhi
      · have := (pairwise_cons.mp htidy.gap).1 y hy
        omega
    subst hend
    rw [complete, hs, h.length]
    exact decide_eq_true rfl

end Partial

/-! ## The partial over its store -/

/-- `Partial`, its runs in the store. -/
structure StoredPartial where
  buf : List UInt8
  filled : Store Nat

namespace StoredPartial

def new (len : Nat) : StoredPartial := ⟨List.replicate len 0, .new⟩

/-- The loop that absorbs the runs starting inside `s..=e`; each turn removes one run. -/
def absorb : Nat → Store Nat → Nat → Nat → Store Nat × Nat
  | 0, r, _, e => (r, e)
  | n + 1, r, s, e =>
    match r.atOrAfter s with
    | none => (r, e)
    | some (ns, ne) => if e < ns then (r, e) else absorb n (r.remove ns) s (max e ne)

def fill (limit : Nat) (p : StoredPartial) (at_ : Nat) (bytes : List UInt8) : StoredPartial :=
  let (r, e) := absorb p.filled.len p.filled at_ (at_ + bytes.length)
  { buf := Partial.copyInto p.buf at_ bytes
    filled :=
      match r.before at_ with
      | some (ps, pe) => if at_ ≤ pe then r.insert limit ps (max e pe) else r.insert limit at_ e
      | none => r.insert limit at_ e }

def complete (p : StoredPartial) : Bool := p.filled.first = some (0, p.buf.length)

def truncate (p : StoredPartial) (want : Nat) : StoredPartial :=
  { buf := p.buf.take want
    filled := p.filled.retain fun s e => if s < want then some (min e want) else none }

def apply (limit : Nat) (p : StoredPartial) : Partial.Op → StoredPartial
  | .fill at_ bytes => p.fill limit at_ bytes
  | .truncate want => p.truncate want

def inOrder (p : StoredPartial) : Partial := ⟨p.buf, p.filled.inOrder⟩

theorem inOrder_absorb {r : Store Nat} (h : r.Sorted) (n s e : Nat) :
    (absorb n r s e).1.Sorted ∧ (absorb n r s e).2 = (Partial.absorb n r.inOrder s e).2 ∧
      (absorb n r s e).1.inOrder = (Partial.absorb n r.inOrder s e).1 := by
  induction n generalizing r e with
  | zero => exact ⟨h, rfl, rfl⟩
  | succ n ih =>
    unfold absorb Partial.absorb
    rw [Store.atOrAfter_eq h]
    cases r.inOrder.atOrAfter s with
    | none => exact ⟨h, rfl, rfl⟩
    | some x =>
      dsimp only
      split
      · exact ⟨h, rfl, rfl⟩
      · rw [← Store.inOrder_remove h]
        exact ih (Store.sorted_remove h x.1) _

variable {p : StoredPartial}

theorem inOrder_fill (h : p.filled.Sorted) (limit at_ : Nat) (bytes : List UInt8) :
    (p.fill limit at_ bytes).filled.Sorted ∧
      (p.fill limit at_ bytes).inOrder = p.inOrder.fill at_ bytes := by
  obtain ⟨hsorted, hend, hruns⟩ := inOrder_absorb h p.filled.len at_ (at_ + bytes.length)
  unfold fill Partial.fill
  dsimp only [inOrder]
  rw [Store.len_eq] at *
  generalize absorb p.filled.inOrder.length p.filled at_ (at_ + bytes.length) = a at *
  generalize Partial.absorb p.filled.inOrder.length p.filled.inOrder at_ (at_ + bytes.length) = b at *
  obtain ⟨r, e⟩ := a
  obtain ⟨r', e'⟩ := b
  subst hend hruns
  rw [Store.before_eq hsorted]
  cases r.inOrder.before at_ with
  | none =>
    exact ⟨Store.sorted_insert hsorted _ _ _, congrArg (Partial.mk _) (Store.inOrder_insert hsorted _ _ _)⟩
  | some x =>
    dsimp only
    split
    · exact ⟨Store.sorted_insert hsorted _ _ _,
        congrArg (Partial.mk _) (Store.inOrder_insert hsorted _ _ _)⟩
    · exact ⟨Store.sorted_insert hsorted _ _ _,
        congrArg (Partial.mk _) (Store.inOrder_insert hsorted _ _ _)⟩

theorem inOrder_truncate (p : StoredPartial) (want : Nat) :
    (p.truncate want).inOrder = p.inOrder.truncate want := by
  unfold truncate Partial.truncate inOrder
  rw [Store.inOrder_retain, Runs.retain]
  congr 1
  rw [← filterMap_eq_map, ← filterMap_eq_filter, filterMap_filterMap]
  refine filterMap_congr fun x _ => ?_
  by_cases hx : x.1 < want
  · simp [hx, Option.guard]
  · simp [hx, Option.guard]

theorem inOrder_apply (h : p.filled.Sorted) (limit : Nat) (op : Partial.Op) :
    (p.apply limit op).filled.Sorted ∧ (p.apply limit op).inOrder = p.inOrder.apply op := by
  cases op with
  | fill at_ bytes => exact inOrder_fill h limit at_ bytes
  | truncate want =>
    refine ⟨?_, inOrder_truncate p want⟩
    exact Store.sorted_retain h fun s e => if s < want then some (min e want) else none

theorem inOrder_run (h : p.filled.Sorted) (limit : Nat) (ops : List Partial.Op) :
    (ops.foldl (apply limit) p).inOrder = ops.foldl Partial.apply p.inOrder := by
  induction ops generalizing p with
  | nil => rfl
  | cons op ops ih =>
    obtain ⟨hsorted, happly⟩ := inOrder_apply h limit op
    rw [foldl_cons, ih hsorted, happly, foldl_cons]

theorem complete_eq (p : StoredPartial) : p.complete = p.inOrder.complete := by
  rw [complete, Partial.complete, Store.first_eq]
  rfl

end StoredPartial

/-- After any sequence of fills in bounds and truncations, each offset of the block has the byte it
received last, the runs are in order, keep apart and have exactly the offsets that received one, a
block that is not empty is complete once all did, a truncation clips the bytes and the runs, and
runs, bytes and answer are the same whatever length promotes the store. -/
theorem partial_exact (len : Nat) (ops : List Partial.Op) (h : Partial.InBounds len ops) :
    let p := ops.foldl (StoredPartial.apply RUNS_TREE_AT) (.new len)
    let last := Partial.lastReceived ops
    p.buf.length = Partial.finalLength len ops ∧
      (∀ k < p.buf.length, p.buf[k]? = some ((last k).getD 0)) ∧
      Tidy p.filled.inOrder ∧
      (∀ k, Partial.Covers p.filled.inOrder k ↔ (last k).isSome) ∧
      (0 < p.buf.length → (p.complete = true ↔ ∀ k < p.buf.length, (last k).isSome)) ∧
      (∀ want, (p.truncate want).buf = p.buf.take want ∧ ∀ k,
        Partial.Covers (p.truncate want).filled.inOrder k ↔
          Partial.Covers p.filled.inOrder k ∧ k < want) ∧
      ∀ limit, let q := ops.foldl (StoredPartial.apply limit) (.new len)
        q.inOrder = p.inOrder ∧ q.complete = p.complete := by
  intro p last
  have hlimit : ∀ limit, (ops.foldl (StoredPartial.apply limit) (.new len)).inOrder =
      ops.foldl Partial.apply (Partial.new len) := fun limit =>
    StoredPartial.inOrder_run Store.sorted_new limit ops
  have hrun := hlimit RUNS_TREE_AT
  have hexact : Partial.Exact (Partial.finalLength len ops) last p.inOrder := by
    rw [hrun]
    exact (Partial.exact_new len).run h
  have hlen : p.buf.length = Partial.finalLength len ops := hexact.length
  refine ⟨hlen, fun k hk => hexact.holds k (hlen ▸ hk), hexact.tidy, hexact.covers, fun hpos => ?_,
    fun want => ⟨rfl, fun k => ?_⟩, fun limit => ?_⟩
  · rw [StoredPartial.complete_eq, hexact.complete_iff (hlen ▸ hpos), hlen]
  · have := Partial.covers_truncate (p := p.inOrder) want k
    rwa [← StoredPartial.inOrder_truncate] at this
  · have heq : (ops.foldl (StoredPartial.apply limit) (.new len)).inOrder = p.inOrder := by
      rw [hlimit, hrun]
    exact ⟨heq, by rw [StoredPartial.complete_eq, heq, ← StoredPartial.complete_eq]⟩

theorem partial_exact_threeOps :
    ([.fill 1 [7, 8, 9], .fill 0 [5, 6], .truncate 3].foldl (StoredPartial.apply RUNS_TREE_AT)
      (.new 4)).complete = true :=
  ((partial_exact 4 [.fill 1 [7, 8, 9], .fill 0 [5, 6], .truncate 3]
    ⟨Nat.le_refl 4, Nat.le_add_left 2 2, trivial, trivial⟩).2.2.2.2.1 (by decide)).mpr (by decide)

end NzbFast.Live
