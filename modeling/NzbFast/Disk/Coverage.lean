import NzbFast.Wire.Intervals

/-!
# The coverage ledger of a file

Which bytes of an output are written, as intervals in order with a gap between any
two. A span merges into the ledger in place; the answers are about single intervals,
which is exact because no two touch.
-/

namespace NzbFast.Disk

open Wire List

def partitionPoint {α : Type} (p : α → Bool) (l : List α) : Nat := (l.takeWhile p).length

/-- `merge_span`: the ledger with `[offset, offset+len)`, and how many of its bytes are new. -/
def mergeSpan (iv : List (Nat × Nat)) (offset len : Nat) : List (Nat × Nat) × Nat :=
  if len = 0 then (iv, 0)
  else
    let (s, e) := (offset, offset + len)
    let lo := partitionPoint (fun x => decide (x.2 < s)) iv
    let hi := partitionPoint (fun x => decide (x.1 ≤ e)) iv
    if lo < hi then
      let held := (((iv.take hi).drop lo).map fun x => x.2 - x.1).sum
      let ns := min s (iv.getD lo (0, 0)).1
      let ne := max e (iv.getD (hi - 1) (0, 0)).2
      (iv.take lo ++ (ns, ne) :: iv.drop hi, (ne - ns) - held)
    else (iv.take lo ++ (s, e) :: iv.drop lo, len)

/-- `covered`, with nothing staged. -/
def covered (iv : List (Nat × Nat)) (off len : Nat) : Bool :=
  iv.any fun x => decide (x.1 ≤ off ∧ off + len ≤ x.2)

/-- `covered_intervals_raw`. -/
def coveredIntervals (iv : List (Nat × Nat)) (off len : Nat) : List (Nat × Nat) :=
  iv.filterMap fun x =>
    let cs := max x.1 off
    let ce := min x.2 (off + len)
    if cs < ce then some (cs, ce) else none

theorem covered_one {iv : List (Nat × Nat)} {x : Nat} : covered iv x 1 = true ↔ Covers iv x := by
  unfold covered Covers
  rw [any_eq_true]
  refine exists_congr fun a => and_congr_right fun _ => ?_
  rw [decide_eq_true_eq]
  omega

theorem covers_coveredIntervals {iv : List (Nat × Nat)} {off len x : Nat} :
    Covers (coveredIntervals iv off len) x ↔ Covers iv x ∧ off ≤ x ∧ x < off + len := by
  constructor
  · rintro ⟨a, ha, hx⟩
    obtain ⟨b, hb, he⟩ := mem_filterMap.mp ha
    dsimp only at he
    split at he
    · cases he
      exact ⟨⟨b, hb, by omega⟩, by omega⟩
    · cases he
  · rintro ⟨⟨b, hb, hx⟩, hoff⟩
    refine ⟨(max b.1 off, min b.2 (off + len)), mem_filterMap.mpr ⟨b, hb, ?_⟩, ?_⟩
    · exact if_pos (by omega)
    · dsimp only
      omega

/-- The intervals are not empty and do not touch. -/
structure Apart (iv : List (Nat × Nat)) : Prop where
  pos : ∀ x ∈ iv, x.1 < x.2
  gap : iv.Pairwise fun x y => x.2 < y.1

theorem Apart.nil : Apart [] := ⟨fun _ h => absurd h not_mem_nil, .nil⟩

/-- The three parts of a ledger around `[s, e)`: what ends before it, what meets it, what starts
behind it. -/
theorem Apart.split {iv : List (Nat × Nat)} (h : Apart iv) {s e : Nat} (hse : s ≤ e) :
    ∃ l m r, iv = l ++ m ++ r ∧ (∀ x ∈ l, x.2 < s) ∧ (∀ x ∈ m, s ≤ x.2 ∧ x.1 ≤ e) ∧
      (∀ x ∈ r, e < x.1) ∧ partitionPoint (fun x => decide (x.2 < s)) iv = l.length ∧
      partitionPoint (fun x => decide (x.1 ≤ e)) iv = (l ++ m).length := by
  induction iv with
  | nil => exact ⟨[], [], [], rfl, by simp, by simp, by simp, rfl, rfl⟩
  | cons a iv ih =>
    obtain ⟨hgap, hrest⟩ := pairwise_cons.mp h.gap
    have hpos : a.1 < a.2 := h.pos a mem_cons_self
    have hpos' : ∀ x ∈ iv, x.1 < x.2 := fun x hx => h.pos x (mem_cons_of_mem a hx)
    obtain ⟨l, m, r, rfl, hl, hm, hr, hlo, hhi⟩ := ih ⟨hpos', hrest⟩
    unfold partitionPoint at hlo hhi ⊢
    by_cases hbefore : a.2 < s
    · refine ⟨a :: l, m, r, rfl, ?_, hm, hr, ?_, ?_⟩
      · intro x hx
        rcases mem_cons.mp hx with rfl | hx
        · exact hbefore
        · exact hl x hx
      · rw [takeWhile_cons_of_pos (by simpa using hbefore), length_cons, hlo,
          length_cons]
      · rw [takeWhile_cons_of_pos (by simp; omega), length_cons, hhi, cons_append,
          length_cons]
    · -- What follows `a` starts behind its end, so none of it ends before `s`.
      have hlnil : l = [] := by
        cases l with
        | nil => rfl
        | cons b l =>
          have h1 := hl b mem_cons_self
          have h2 := hgap b (by simp)
          have h3 := hpos' b (by simp)
          omega
      subst hlnil
      by_cases hmeet : a.1 ≤ e
      · refine ⟨[], a :: m, r, rfl, by simp, ?_, hr, ?_, ?_⟩
        · intro x hx
          rcases mem_cons.mp hx with rfl | hx
          · exact ⟨by omega, hmeet⟩
          · exact hm x hx
        · rw [takeWhile_cons_of_neg (by simpa using hbefore), length_nil]
        · rw [takeWhile_cons_of_pos (by simpa using hmeet), length_cons, hhi]
          rfl
      · have hmnil : m = [] := by
          cases m with
          | nil => rfl
          | cons b m =>
            have h1 := (hm b mem_cons_self).2
            have h2 := hgap b (by simp)
            omega
        subst hmnil
        refine ⟨[], [], a :: r, rfl, by simp, by simp, ?_, ?_, ?_⟩
        · intro x hx
          rcases mem_cons.mp hx with rfl | hx
          · omega
          · exact hr x hx
        · rw [takeWhile_cons_of_neg (by simpa using hbefore)]
        · rw [takeWhile_cons_of_neg (by simpa using hmeet)]
          rfl

theorem mergeSpan_eq {iv : List (Nat × Nat)} (h : Apart iv) {offset len : Nat} (hlen : 0 < len) :
    ∃ l m r ns ne, iv = l ++ m ++ r ∧ (mergeSpan iv offset len).1 = l ++ (ns, ne) :: r ∧
      (∀ x ∈ l, x.2 < ns) ∧ (∀ x ∈ r, ne < x.1) ∧ ns < ne ∧
      (∀ x, ns ≤ x ∧ x < ne ↔ Covers m x ∨ (offset ≤ x ∧ x < offset + len)) ∧
      (mergeSpan iv offset len).2 = (ne - ns) - (m.map fun x => x.2 - x.1).sum := by
  obtain ⟨l, m, r, rfl, hl, hm, hr, hlo, hhi⟩ := @Apart.split _ h offset (offset + len) (by omega)
  unfold mergeSpan
  rw [if_neg (by omega)]
  dsimp only
  rw [hlo, hhi]
  cases hmc : m with
  | nil =>
    refine ⟨l, [], r, offset, offset + len, rfl, ?_, hl, hr, by omega, fun x => by simp, ?_⟩
    · rw [if_neg (by simp)]
      simp
    · rw [if_neg (by simp)]
      simp
  | cons a m' =>
    obtain ⟨hgap, hgapr, hlr⟩ := pairwise_append.mp h.gap
    obtain ⟨-, hgapm, hlm⟩ := pairwise_append.mp hgap
    have hmne : m ≠ [] := by rw [hmc]; exact cons_ne_nil _ _
    have hfirst : (l ++ m ++ r).getD l.length (0, 0) = a := by
      rw [hmc, getD_eq_getElem?_getD, append_assoc,
        getElem?_append_right (Nat.le_refl _), Nat.sub_self]
      rfl
    have hlast : (l ++ m ++ r).getD ((l ++ m).length - 1) (0, 0) = m.getLast hmne := by
      have hpos : 0 < m.length := length_pos_of_ne_nil hmne
      rw [getD_eq_getElem?_getD, getElem?_append_left (by simp; omega),
        getElem?_append_right (by simp; omega), length_append, getLast_eq_getElem,
        show l.length + m.length - 1 - l.length = m.length - 1 by omega,
        getElem?_eq_getElem (by omega), Option.getD_some]
    have ha : a ∈ m := by rw [hmc]; exact mem_cons_self
    have hz : m.getLast hmne ∈ m := getLast_mem hmne
    have hae := hm a ha
    have hze := hm _ hz
    -- The first interval of the middle starts it and the last ends it.
    have hstart : ∀ x ∈ m, a.1 ≤ x.1 := by
      intro x hx
      rw [hmc] at hx hgapm
      rcases mem_cons.mp hx with rfl | hx
      · omega
      · have h1 := (pairwise_cons.mp hgapm).1 x hx
        have h2 := h.pos a (by simp [hmc])
        omega
    have hstop : ∀ x ∈ m, x.2 ≤ (m.getLast hmne).2 := by
      intro x hx
      have hsplit := dropLast_append_getLast hmne
      rw [← hsplit] at hx hgapm
      rcases mem_append.mp hx with hx | hx
      · have h1 := (pairwise_append.mp hgapm).2.2 x hx _ (mem_singleton_self _)
        have h2 := h.pos _ (by simp : m.getLast hmne ∈ l ++ m ++ r)
        omega
      · rw [mem_singleton.mp hx]
    have hlt : l.length < (l ++ m).length := by
      rw [length_append]
      have := length_pos_of_ne_nil hmne
      omega
    refine ⟨l, m, r, min offset a.1, max (offset + len) (m.getLast hmne).2, by rw [hmc], ?_,
      ?_, ?_, by omega, ?_, ?_⟩
    · rw [← hmc, if_pos hlt, hfirst, hlast, drop_left, append_assoc, take_left]
    · intro x hx
      have h1 := hl x hx
      have h2 := hlm x hx a ha
      omega
    · intro x hx
      have h1 := hr x hx
      have h2 := hlr _ (mem_append_right l hz) x hx
      omega
    · intro x
      constructor
      · intro hx
        by_cases hlow : x < offset
        · exact .inl ⟨a, ha, by omega⟩
        · by_cases hhigh : x < offset + len
          · exact .inr ⟨by omega, hhigh⟩
          · exact .inl ⟨_, hz, by omega⟩
      · rintro (⟨y, hy, hx⟩ | hx)
        · have h1 := hstart y hy
          have h2 := hstop y hy
          omega
        · omega
    · rw [← hmc, if_pos hlt, hfirst, hlast, take_left]
      dsimp only
      rw [drop_left]

theorem covers_mergeSpan {iv : List (Nat × Nat)} (h : Apart iv) (offset len x : Nat) :
    Covers (mergeSpan iv offset len).1 x ↔ Covers iv x ∨ (offset ≤ x ∧ x < offset + len) := by
  by_cases hlen : len = 0
  · rw [mergeSpan, if_pos hlen]
    simp only [iff_self_or]
    omega
  · obtain ⟨l, m, r, ns, ne, rfl, he, -, -, -, hmid, -⟩ :=
      @mergeSpan_eq _ h offset len (pos_of_ne_zero hlen)
    rw [he, covers_append, covers_cons, covers_append, covers_append]
    rw [hmid x]
    tauto

theorem Apart.mergeSpan {iv : List (Nat × Nat)} (h : Apart iv) (offset len : Nat) :
    Apart (mergeSpan iv offset len).1 := by
  by_cases hlen : len = 0
  · rw [Disk.mergeSpan, if_pos hlen]
    exact h
  · obtain ⟨l, m, r, ns, ne, rfl, he, hl, hr, hpos, -, -⟩ :=
      @mergeSpan_eq _ h offset len (pos_of_ne_zero hlen)
    obtain ⟨hgap, hgapr, hlr⟩ := pairwise_append.mp h.gap
    obtain ⟨hgapl, -, -⟩ := pairwise_append.mp hgap
    rw [he]
    constructor
    · intro x hx
      rcases mem_append.mp hx with hx | hx
      · exact h.pos x (by simp [hx])
      · rcases mem_cons.mp hx with rfl | hx
        · exact hpos
        · exact h.pos x (by simp [hx])
    · refine pairwise_append.mpr ⟨hgapl, pairwise_cons.mpr ⟨fun x hx => ?_, hgapr⟩,
        fun x hx y hy => ?_⟩
      · exact hr x hx
      · rcases mem_cons.mp hy with rfl | hy
        · exact hl x hx
        · exact hlr x (by simp [hx]) y hy

end NzbFast.Disk
