import NzbFast.Sql.Table

/-!
# Tables kept beside another

`Replica R p t' t`: every row of `t'` stands in `R` to a row of `t`, and the rows of
`t` whose rowid satisfies `p` have theirs in `t'`. A write done to both tables, and a
copied row, keep it.
-/

namespace NzbFast.Sql

open Table List

variable {ρ κ : Type} {rowid : ρ → Int} {key : ρ → κ}

/-- Related rows take the same place in their tables. -/
structure Aligned (rowid : ρ → Int) (key : ρ → κ) (R : ρ → ρ → Prop) : Prop where
  refl : ∀ a, R a a
  rowid_eq : ∀ {a b}, R a b → rowid a = rowid b
  key_eq : ∀ {a b}, R a b → key a = key b

theorem Aligned.clash_iff {R : ρ → ρ → Prop} (hR : Aligned rowid key R) {a a' b b' : ρ}
    (ha : R a' a) (hb : R b' b) : Clash rowid key a' b' ↔ Clash rowid key a b := by
  unfold Clash
  rw [hR.rowid_eq ha, hR.rowid_eq hb, hR.key_eq ha, hR.key_eq hb]

structure Replica (R : ρ → ρ → Prop) (p : Int → Prop) (t' t : Table rowid key) : Prop where
  related : ∀ a ∈ t', ∃ b ∈ t, R a b
  covered : ∀ b ∈ t, p (rowid b) → ∃ a ∈ t', R a b

namespace Replica

variable {R : ρ → ρ → Prop} {p q : Int → Prop} {t' t : Table rowid key}

theorem mono (h : Replica R p t' t) (hpq : ∀ b ∈ t, q (rowid b) → p (rowid b)) :
    Replica R q t' t :=
  ⟨h.related, fun b hb hq => h.covered b hb (hpq b hb hq)⟩

theorem erase (hR : Aligned rowid key R) (h : Replica R p t' t) (i : Int) :
    Replica R p (t'.erase i) (t.erase i) := by
  constructor
  · intro a ha
    obtain ⟨ha, hi⟩ := mem_erase.mp ha
    obtain ⟨b, hb, hab⟩ := h.related a ha
    exact ⟨b, mem_erase.mpr ⟨hb, hR.rowid_eq hab ▸ hi⟩, hab⟩
  · intro b hb hp
    obtain ⟨hb, hi⟩ := mem_erase.mp hb
    obtain ⟨a, ha, hab⟩ := h.covered b hb hp
    exact ⟨a, mem_erase.mpr ⟨ha, (hR.rowid_eq hab).symm ▸ hi⟩, hab⟩

theorem forall₂ (hR : Aligned rowid key R) : ∀ {l' l : List ρ},
    l'.Pairwise (fun a b => rowid a < rowid b) → l.Pairwise (fun a b => rowid a < rowid b) →
    (∀ a ∈ l', ∃ b ∈ l, R a b) → (∀ b ∈ l, ∃ a ∈ l', R a b) → List.Forall₂ R l' l := by
  intro l'
  -- The heads are the least rowids of the two lists, so they face each other.
  induction l' with
  | nil =>
    intro l _ _ _ hback
    cases l with
    | nil => exact .nil
    | cons b l =>
      obtain ⟨a, ha, -⟩ := hback b mem_cons_self
      exact absurd ha not_mem_nil
  | cons a l' ih =>
    intro l hs' hs hfor hback
    cases l with
    | nil =>
      obtain ⟨b, hb, -⟩ := hfor a mem_cons_self
      exact absurd hb not_mem_nil
    | cons b l =>
      obtain ⟨ha, hs'⟩ := pairwise_cons.mp hs'
      obtain ⟨hb, hs⟩ := pairwise_cons.mp hs
      obtain ⟨b₁, hb₁, hab₁⟩ := hfor a mem_cons_self
      obtain ⟨a₁, ha₁, hab₂⟩ := hback b mem_cons_self
      have hr₁ := hR.rowid_eq hab₁
      have hr₂ := hR.rowid_eq hab₂
      have hab : R a b := by
        rcases mem_cons.mp hb₁ with rfl | hb₁
        · exact hab₁
        · rcases mem_cons.mp ha₁ with rfl | ha₁
          · exact hab₂
          · have h₁ := ha a₁ ha₁
            have h₂ := hb b₁ hb₁
            omega
      have hr := hR.rowid_eq hab
      refine .cons hab (ih hs' hs (fun x hx => ?_) fun y hy => ?_)
      · obtain ⟨y, hy, hxy⟩ := hfor x (mem_cons_of_mem a hx)
        rcases mem_cons.mp hy with rfl | hy
        · have h₁ := ha x hx
          have h₂ := hR.rowid_eq hxy
          omega
        · exact ⟨y, hy, hxy⟩
      · obtain ⟨x, hx, hxy⟩ := hback y (mem_cons_of_mem b hy)
        rcases mem_cons.mp hx with rfl | hx
        · have h₁ := hb y hy
          have h₂ := hR.rowid_eq hxy
          omega
        · exact ⟨x, hx, hxy⟩

/-- A replica that covers everything holds the table row by row. -/
theorem rows (hR : Aligned rowid key R) (h : Replica R p t' t) (hp : ∀ b ∈ t, p (rowid b)) :
    List.Forall₂ R t'.rows t.rows :=
  forall₂ hR t'.sorted t.sorted h.related fun b hb => h.covered b hb (hp b hb)

variable [DecidableEq κ]

/-- The same row stored on both sides. -/
theorem place (hR : Aligned rowid key R) (h : Replica R p t' t) (r : ρ) :
    Replica R p (t'.place r) (t.place r) := by
  constructor
  · intro a ha
    rcases mem_place.mp ha with rfl | ⟨ha, hc⟩
    · exact ⟨a, mem_place.mpr (.inl rfl), hR.refl a⟩
    · obtain ⟨b, hb, hab⟩ := h.related a ha
      exact ⟨b, mem_place.mpr (.inr ⟨hb, (hR.clash_iff hab (hR.refl r)).not.mp hc⟩), hab⟩
  · intro b hb hp
    rcases mem_place.mp hb with rfl | ⟨hb, hc⟩
    · exact ⟨b, mem_place.mpr (.inl rfl), hR.refl b⟩
    · obtain ⟨a, ha, hab⟩ := h.covered b hb hp
      exact ⟨a, mem_place.mpr (.inr ⟨ha, (hR.clash_iff hab (hR.refl r)).not.mpr hc⟩), hab⟩

/-- What the primary stored, the replica stores under any clause that yields to the primary's:
whatever a row clashes with there, it clashed with in the primary. -/
theorem insert (hR : Aligned rowid key R) (h : Replica R p t' t) {c c' : Conflict} {r : ρ}
    {s : Table rowid key} (hs : t.insert c r = .stored s) (hc : c' ≠ .replace → c ≠ .replace) :
    t'.insert c' r = .stored (t'.place r) ∧ Replica R p (t'.place r) s := by
  obtain ⟨rfl, hfree⟩ := insert_stored hs
  refine ⟨insert_eq_place fun hr a ha hclash => ?_, h.place hR r⟩
  obtain ⟨b, hb, hab⟩ := h.related a ha
  exact hfree (hc hr) b hb ((hR.clash_iff hab (hR.refl r)).mp hclash)

/-- A row of the table carried over to the replica. -/
theorem copy (hR : Aligned rowid key R) (h : Replica R p t' t) {r r' : ρ} (hr : r ∈ t)
    (hrr : R r' r) : Replica R (fun i => p i ∨ i = rowid r) (t'.place r') t := by
  constructor
  · intro a ha
    rcases mem_place.mp ha with rfl | ⟨ha, -⟩
    · exact ⟨r, hr, hrr⟩
    · exact h.related a ha
  · intro b hb hp
    -- A row of the table that clashes with the copied one is the copied one.
    by_cases hclash : Clash rowid key b r
    · have hbr : b = r := by
        rcases hclash with he | he
        · exact eq_of_rowid hb hr he
        · exact eq_of_key hb hr he
      subst hbr
      exact ⟨r', mem_place.mpr (.inl rfl), hrr⟩
    · have hb' : p (rowid b) := hp.resolve_right fun he => hclash (.inl he)
      obtain ⟨a, ha, hab⟩ := h.covered b hb hb'
      exact ⟨a, mem_place.mpr (.inr ⟨ha, (hR.clash_iff hab hrr).not.mpr hclash⟩), hab⟩

theorem copyAll (hR : Aligned rowid key R) (f : ρ → ρ) (hf : ∀ r ∈ t, R (f r) r) :
    ∀ (rs : List ρ) {p : Int → Prop} {t' : Table rowid key}, (∀ r ∈ rs, r ∈ t) →
    Replica R p t' t →
    Replica R (fun i => p i ∨ ∃ r ∈ rs, i = rowid r) (rs.foldl (fun t' r => t'.place (f r)) t') t := by
  intro rs
  induction rs with
  | nil =>
    intro p t' _ h
    exact h.mono fun b _ hp => hp.resolve_right (by simp)
  | cons r rs ih =>
    intro p t' hmem h
    have hr : r ∈ t := hmem r mem_cons_self
    have hstep := ih (fun x hx => hmem x (mem_cons_of_mem r hx)) (h.copy hR hr (hf r hr))
    refine hstep.mono fun b _ hp => ?_
    rcases hp with hp | ⟨x, hx, he⟩
    · exact .inl (.inl hp)
    · rcases mem_cons.mp hx with rfl | hx
      · exact .inl (.inr he)
      · exact .inr ⟨x, hx, he⟩

end Replica

end NzbFast.Sql
