import NzbFast.Disk.Writer
import Mathlib.Order.Interval.Set.Nat

/-!
# The coverage ledger counts bytes

`note_written` over any sequence of spans, and what the writer answers afterwards. The
intervals stand for the set of bytes some span has; `covered` is its size, `written`
the lengths of the spans added up, and the two differ once a byte comes a second time.
Both count without a bound, where the source has 64 bits.

* `Apart.ncard`: intervals apart hold as many bytes as their lengths say.
* `ncard_fresh`: the count `merge_span` returns.
* `ledger_exact`: the ledger after any sequence of spans.
-/

namespace NzbFast.Disk

open Wire FileWriter
open List hiding Disjoint

/-! ## Sizes -/

/-- The lengths of the intervals added up. -/
def total (iv : List (Nat × Nat)) : Nat := (iv.map fun x => x.2 - x.1).sum

@[simp] theorem total_nil : total [] = 0 := rfl

@[simp] theorem total_cons (x : Nat × Nat) (iv : List (Nat × Nat)) :
    total (x :: iv) = (x.2 - x.1) + total iv := by
  rw [total, map_cons, sum_cons, total]

theorem finite_range (s e : Nat) : {x : Nat | s ≤ x ∧ x < e}.Finite := Set.finite_Ico s e

theorem ncard_range (s e : Nat) : {x : Nat | s ≤ x ∧ x < e}.ncard = e - s :=
  Set.ncard_Ico_nat s e

theorem finite_covers (iv : List (Nat × Nat)) : {x | Covers iv x}.Finite := by
  induction iv with
  | nil => simp
  | cons a iv ih =>
    simp only [covers_cons, Set.ofPred_or]
    exact (finite_range a.1 a.2).union ih

variable {iv spans : List (Nat × Nat)} {w : FileWriter}

/-- Intervals apart hold as many bytes as their lengths say. -/
theorem Apart.ncard (h : Apart iv) : {x | Covers iv x}.ncard = total iv := by
  induction iv with
  | nil => simp
  | cons a iv ih =>
    obtain ⟨hgap, hrest⟩ := pairwise_cons.mp h.gap
    have htail : Apart iv := ⟨fun x hx => h.pos x (mem_cons_of_mem a hx), hrest⟩
    have hdisj : Disjoint {x : Nat | a.1 ≤ x ∧ x < a.2} {x | Covers iv x} := by
      rw [Set.disjoint_left]
      rintro x ⟨-, hx⟩ ⟨b, hb, hxb, -⟩
      have := hgap b hb
      omega
    simp only [covers_cons, Set.ofPred_or]
    rw [Set.ncard_union_eq hdisj (finite_range _ _) (finite_covers _), ncard_range, ih htail, total_cons]

/-- The bytes of `[offset, offset + len)` that are not covered. -/
def freshBytes (iv : List (Nat × Nat)) (offset len : Nat) : Set Nat :=
  {x | (offset ≤ x ∧ x < offset + len) ∧ ¬ Covers iv x}

theorem finite_freshBytes (iv : List (Nat × Nat)) (offset len : Nat) :
    (freshBytes iv offset len).Finite := (finite_range offset (offset + len)).subset fun _ hx => hx.1

/-- `merge_span` counts the bytes that were not covered. -/
theorem ncard_fresh (h : Apart iv) (offset len : Nat) :
    (mergeSpan iv offset len).2 = (freshBytes iv offset len).ncard := by
  by_cases hlen : len = 0
  · have hempty : freshBytes iv offset len = ∅ := by
      ext x
      simp only [freshBytes, Set.mem_ofPred_eq, Set.mem_empty_iff_false, iff_false]
      omega
    rw [mergeSpan, if_pos hlen, hempty, Set.ncard_empty]
  obtain ⟨l, m, r, ns, ne, rfl, -, hl, hr, hne, hmid, hcount⟩ :=
    @mergeSpan_eq _ h offset len (Nat.pos_of_ne_zero hlen)
  have hm : Apart m := by
    have hlm := (pairwise_append.mp h.gap).1
    exact ⟨fun x hx => h.pos x (by simp [hx]), (pairwise_append.mp hlm).2.1⟩
  -- The merged interval is the middle's bytes and the fresh ones.
  have hset : {x | ns ≤ x ∧ x < ne} = {x | Covers m x} ∪ freshBytes (l ++ m ++ r) offset len := by
    ext x
    simp only [freshBytes, Set.mem_ofPred_eq, Set.mem_union, covers_append]
    constructor
    · intro hx
      by_cases hcm : Covers m x
      · exact .inl hcm
      refine .inr ⟨((hmid x).mp hx).resolve_left hcm, ?_⟩
      rintro ((⟨y, hy, hxy⟩ | hxm) | ⟨y, hy, hxy⟩)
      · have := hl y hy
        omega
      · exact hcm hxm
      · have := hr y hy
        omega
    · rintro (hx | ⟨hx, -⟩)
      · exact (hmid x).mpr (.inl hx)
      · exact (hmid x).mpr (.inr hx)
  have hdisj : Disjoint {x | Covers m x} (freshBytes (l ++ m ++ r) offset len) := by
    rw [Set.disjoint_left]
    rintro x hx ⟨-, hn⟩
    exact hn (by simp only [covers_append]; exact .inl (.inr hx))
  have hsum := congrArg Set.ncard hset
  rw [ncard_range, Set.ncard_union_eq hdisj (finite_covers m) (finite_freshBytes _ _ _), hm.ncard] at hsum
  rw [hcount, ← total]
  omega

/-! ## The writer's counters -/

namespace FileWriter

def noteWritten (w : FileWriter) (offset len : Nat) : FileWriter × Nat :=
  if len = 0 then (w, 0)
  else
    let (intervals, fresh) := mergeSpan w.intervals offset len
    ({ w with intervals, written := w.written + len, covered := w.covered + fresh }, fresh)

/-- `had_rewrite`, with nothing staged. -/
def hadRewrite (w : FileWriter) : Bool := w.covered < w.written

/-- `contiguous_from_start`, with nothing staged. -/
def contiguousFromStart (w : FileWriter) : Nat :=
  match w.intervals.head? with
  | some (0, e) => e
  | _ => 0

def noteAll (w : FileWriter) (spans : List (Nat × Nat)) : FileWriter :=
  spans.foldl (fun w span => (w.noteWritten span.1 span.2).1) w

end FileWriter

def InSpan (span : Nat × Nat) (x : Nat) : Prop := span.1 ≤ x ∧ x < span.1 + span.2

def bytesOf (spans : List (Nat × Nat)) : Set Nat := {x | ∃ span ∈ spans, InSpan span x}

def Overlapped (spans : List (Nat × Nat)) : Prop :=
  ∃ i j : Fin spans.length, i < j ∧ ∃ x, InSpan (spans.get i) x ∧ InSpan (spans.get j) x

theorem not_overlapped_iff :
    ¬ Overlapped spans ↔ spans.Pairwise fun a b => ∀ x, InSpan a x → ¬ InSpan b x := by
  rw [pairwise_iff_get, Overlapped]
  push Not
  rfl

theorem overlapped_concat {span : Nat × Nat} :
    Overlapped (spans ++ [span]) ↔ Overlapped spans ∨ ∃ x ∈ bytesOf spans, InSpan span x := by
  rw [← not_iff_not, not_or, not_overlapped_iff, not_overlapped_iff, pairwise_append]
  simp only [pairwise_singleton, mem_singleton, forall_eq, true_and, bytesOf,
    Set.mem_ofPred_eq, not_exists, not_and, forall_exists_index, and_imp]
  exact and_congr_right fun _ => ⟨fun h x a ha hx => h a ha x hx, fun h a ha x hx => h x a ha hx⟩

/-- What the ledger says of the spans noted so far. -/
structure Noted (spans : List (Nat × Nat)) (w : FileWriter) : Prop where
  apart : Apart w.intervals
  union : ∀ x, Covers w.intervals x ↔ x ∈ bytesOf spans
  covered : w.covered = (bytesOf spans).ncard
  written : w.written = (spans.map (·.2)).sum
  /-- The counters agree as long as no byte came twice. -/
  once : ¬ Overlapped spans → w.covered = w.written
  again : Overlapped spans → w.covered < w.written

theorem Noted.bytes (h : Noted spans w) :
    {x | Covers w.intervals x} = bytesOf spans := Set.ext h.union

theorem bytesOf_concat (spans : List (Nat × Nat)) (span : Nat × Nat) :
    bytesOf (spans ++ [span]) = bytesOf spans ∪ {x | InSpan span x} := by
  ext x
  simp only [bytesOf, mem_append, mem_singleton, Set.mem_ofPred_eq, Set.mem_union, or_and_right,
    exists_or, exists_eq_left]

theorem Noted.note (h : Noted spans w) (span : Nat × Nat) :
    Noted (spans ++ [span]) (w.noteWritten span.1 span.2).1 ∧
      (w.noteWritten span.1 span.2).2 = ({x | InSpan span x} \ bytesOf spans).ncard := by
  obtain ⟨offset, len⟩ := span
  have hfresh : freshBytes w.intervals offset len = {x | InSpan (offset, len) x} \ bytesOf spans := by
    rw [← h.bytes]
    rfl
  have hfin : (bytesOf spans).Finite := h.bytes ▸ finite_covers w.intervals
  have hunion : bytesOf (spans ++ [(offset, len)]) = bytesOf spans ∪ freshBytes w.intervals offset len := by
    rw [bytesOf_concat, hfresh, Set.union_sdiff_self]
  have hcard : (bytesOf (spans ++ [(offset, len)])).ncard =
      (bytesOf spans).ncard + (freshBytes w.intervals offset len).ncard := by
    rw [hunion, Set.ncard_union_eq _ hfin (finite_freshBytes _ _ _)]
    rw [hfresh]
    exact Set.disjoint_sdiff_right
  -- The fresh bytes are all of the span's exactly where it meets no earlier one.
  have hle : (freshBytes w.intervals offset len).ncard ≤ len := by
    have hsub : freshBytes w.intervals offset len ⊆ {x | offset ≤ x ∧ x < offset + len} :=
      fun _ hx => hx.1
    have := Set.ncard_le_ncard hsub (finite_range offset (offset + len))
    rwa [ncard_range, Nat.add_sub_cancel_left] at this
  have hall : (freshBytes w.intervals offset len).ncard = len ↔
      ¬ ∃ x ∈ bytesOf spans, InSpan (offset, len) x := by
    constructor
    · rintro hn ⟨x, hx, hspan⟩
      have hssub : freshBytes w.intervals offset len ⊂ {x | offset ≤ x ∧ x < offset + len} :=
        ⟨fun _ hy => hy.1, fun hsub => (hsub hspan).2 ((h.union x).mpr hx)⟩
      have := Set.ncard_lt_ncard hssub (finite_range offset (offset + len))
      rw [ncard_range] at this
      omega
    · intro hno
      have heq : freshBytes w.intervals offset len = {x | offset ≤ x ∧ x < offset + len} :=
        Set.Subset.antisymm (fun _ hy => hy.1) fun x hx =>
          ⟨hx, fun hc => hno ⟨x, (h.union x).mp hc, hx⟩⟩
      rw [heq, ncard_range, Nat.add_sub_cancel_left]
  have hcount := ncard_fresh h.apart offset len
  have honce : ¬ Overlapped (spans ++ [(offset, len)]) →
      w.covered + (freshBytes w.intervals offset len).ncard = w.written + len := by
    rw [overlapped_concat, not_or]
    rintro ⟨hover, hno⟩
    rw [h.once hover, hall.mpr hno]
  have hagain : Overlapped (spans ++ [(offset, len)]) →
      w.covered + (freshBytes w.intervals offset len).ncard < w.written + len := by
    rw [overlapped_concat]
    rintro (hover | hnew)
    · have := h.again hover
      omega
    · have hne := mt hall.mp (not_not.mpr hnew)
      by_cases hover : Overlapped spans
      · have := h.again hover
        omega
      · have := h.once hover
        omega
  unfold noteWritten
  by_cases hlen : len = 0
  · rw [if_pos hlen]
    have hnone : (freshBytes w.intervals offset len).ncard = 0 := by omega
    have hnil : freshBytes w.intervals offset len = ∅ :=
      (Set.ncard_eq_zero (finite_freshBytes _ _ _)).mp hnone
    rw [hnil, Set.union_empty] at hunion
    rw [hnone, hlen] at honce hagain
    refine ⟨⟨h.apart, fun x => by rw [hunion]; exact h.union x, by rw [hunion]; exact h.covered, ?_,
      by simpa [hlen] using honce, by simpa [hlen] using hagain⟩, by rw [← hfresh, hnone]⟩
    rw [h.written, hlen]
    simp
  · rw [if_neg hlen]
    refine ⟨⟨h.apart.mergeSpan offset len, fun x => ?_, ?_, ?_, ?_, ?_⟩,
      by rw [← hfresh]; exact hcount⟩
    · dsimp only
      rw [covers_mergeSpan h.apart, h.union, bytesOf_concat]
      rfl
    · dsimp only
      rw [hcard, hcount, h.covered]
    · dsimp only
      rw [h.written]
      simp
    · dsimp only
      rw [hcount]
      exact honce
    · dsimp only
      rw [hcount]
      exact hagain

theorem Noted.new (size : Nat) (caps : Caps) (window : Bool) : Noted [] (.new size caps window) where
  apart := .nil
  union x := by simp [FileWriter.new, bytesOf]
  covered := by simp [FileWriter.new, bytesOf]
  written := rfl
  once _ := rfl
  again := by
    rintro ⟨i, -⟩
    exact i.elim0

theorem Noted.noteAll {before : List (Nat × Nat)} (h : Noted before w) :
    Noted (before ++ spans) (w.noteAll spans) := by
  induction spans generalizing before w with
  | nil => rwa [append_nil]
  | cons span spans ih =>
    have := ih (h.note span).1
    rwa [append_assoc, singleton_append] at this

/-! ## The answers -/

/-- One interval has a range whose bytes are all covered. -/
theorem Apart.covered_iff (h : Apart iv) {off len : Nat} (hlen : 0 < len) :
    covered iv off len = true ↔ ∀ x, off ≤ x → x < off + len → Covers iv x := by
  unfold covered
  rw [any_eq_true]
  constructor
  · rintro ⟨a, ha, hin⟩ x hlo hhi
    rw [decide_eq_true_eq] at hin
    exact ⟨a, ha, by omega⟩
  · intro hall
    obtain ⟨a, ha, hlo, hhi⟩ := hall off (Nat.le_refl _) (by omega)
    refine ⟨a, ha, decide_eq_true ⟨hlo, ?_⟩⟩
    by_contra hshort
    -- The byte behind the interval is some other interval's, which would touch it.
    obtain ⟨b, hb, hblo, hbhi⟩ := hall a.2 (by omega) (by omega)
    have hapart : ∀ {a b : Nat × Nat}, a ∈ iv → b ∈ iv → a ≠ b → a.2 < b.1 ∨ b.2 < a.1 :=
      fun {a b} ha hb hne => @List.Pairwise.forall _ _ _ ⟨fun _ _ => Or.symm⟩
        (h.gap.imp fun {_ _} hlt => .inl hlt) a ha b hb hne
    rcases eq_or_ne a b with rfl | hne
    · omega
    · have := hapart ha hb hne
      omega

theorem Apart.coveredIntervals (h : Apart iv) (off len : Nat) :
    Apart (coveredIntervals iv off len) := by
  have hclip : ∀ {a b : Nat × Nat}, (if max a.1 off < min a.2 (off + len)
      then some (max a.1 off, min a.2 (off + len)) else none) = some b →
      b.1 < b.2 ∧ a.1 ≤ b.1 ∧ b.2 ≤ a.2 := fun {a b} hb => by
    split at hb
    · cases hb
      omega
    · cases hb
  constructor
  · intro x hx
    obtain ⟨a, -, ha⟩ := mem_filterMap.mp hx
    exact (hclip ha).1
  · refine List.Pairwise.filterMap _ (fun a b hab a' ha b' hb => ?_) h.gap
    have h1 := hclip ha
    have h2 := hclip hb
    omega

theorem contiguousFromStart_spec (h : Apart w.intervals) :
    (∀ x < w.contiguousFromStart, Covers w.intervals x) ∧
      ¬ Covers w.intervals w.contiguousFromStart := by
  unfold contiguousFromStart
  cases hiv : w.intervals with
  | nil => exact ⟨fun x hx => absurd hx (Nat.not_lt_zero x), covers_nil _⟩
  | cons a iv =>
    obtain ⟨s, e⟩ := a
    rw [hiv] at h
    have hgap := (pairwise_cons.mp h.gap).1
    cases s with
    | zero =>
      refine ⟨fun x hx => covers_cons.mpr (.inl ⟨Nat.zero_le x, hx⟩), fun hc => ?_⟩
      rcases covers_cons.mp hc with hc | ⟨b, hb, hlo, -⟩
      · exact absurd hc.2 (Nat.lt_irrefl _)
      · exact absurd (hgap b hb) (Nat.not_lt.mpr hlo)
    | succ n =>
      refine ⟨fun x hx => absurd hx (Nat.not_lt_zero x), fun hc => ?_⟩
      rcases covers_cons.mp hc with hc | ⟨b, hb, hlo, -⟩
      · exact absurd hc.1 (by simp)
      · exact absurd (Nat.lt_of_lt_of_le (hgap b hb) hlo) (Nat.not_lt_zero _)

/-- After any sequence of spans the ledger has exactly their bytes, in intervals that keep apart;
each span was answered with the count of its bytes that no earlier one had; the counters, the
pieces and the prefix are those of that set; and a rewrite is seen exactly where two of the spans
overlap. -/
theorem ledger_exact (size : Nat) (caps : Caps) (window : Bool) (spans : List (Nat × Nat)) :
    let w := (new size caps window).noteAll spans
    Apart w.intervals ∧ (∀ x, Covers w.intervals x ↔ x ∈ bytesOf spans) ∧
      (∀ span, (w.noteWritten span.1 span.2).2 = ({x | InSpan span x} \ bytesOf spans).ncard) ∧
      w.covered = (bytesOf spans).ncard ∧
      (∀ off len, 0 < len →
        (covered w.intervals off len = true ↔ ∀ x, off ≤ x → x < off + len → x ∈ bytesOf spans)) ∧
      (∀ off len, Apart (coveredIntervals w.intervals off len) ∧
        ∀ x, Covers (coveredIntervals w.intervals off len) x ↔
          x ∈ bytesOf spans ∧ off ≤ x ∧ x < off + len) ∧
      (∀ x < w.contiguousFromStart, x ∈ bytesOf spans) ∧ w.contiguousFromStart ∉ bytesOf spans ∧
      (w.hadRewrite = true ↔ Overlapped spans) := by
  intro w
  have h : Noted spans w := (Noted.new size caps window).noteAll
  obtain ⟨hcovered, hend⟩ := contiguousFromStart_spec h.apart
  refine ⟨h.apart, h.union, fun span => (h.note span).2, h.covered, fun off len hlen => ?_,
    fun off len => ⟨h.apart.coveredIntervals off len, fun x => ?_⟩,
    fun x hx => (h.union x).mp (hcovered x hx), fun hx => hend ((h.union _).mpr hx), ?_⟩
  · rw [h.apart.covered_iff hlen]
    exact forall_congr' fun x => imp_congr_right fun _ => imp_congr_right fun _ => h.union x
  · rw [covers_coveredIntervals, h.union]
  · rw [hadRewrite, decide_eq_true_eq]
    refine ⟨fun hlt => ?_, h.again⟩
    by_contra hover
    have := h.once hover
    omega

end NzbFast.Disk
