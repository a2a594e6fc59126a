import Mathlib.Tactic

/-!
# Intervals

Half-open ranges of offsets as pairs. `mergeIntervals` sorts a list of them and
joins those that touch or overlap; it covers what the list covers. `sweep` walks
two lists in start order from a point to the first offset that none covers, and
`gaps` lists what a list in start order leaves of a window.
-/

namespace Wire

open List

/-- Some interval of the list has `x`. -/
def Covers (ivs : List (Nat × Nat)) (x : Nat) : Prop := ∃ iv ∈ ivs, iv.1 ≤ x ∧ x < iv.2

@[simp] theorem covers_nil (x : Nat) : ¬ Covers [] x := by
  rintro ⟨iv, h, -⟩
  cases h

variable {iv : Nat × Nat} {ivs : List (Nat × Nat)} {x : Nat}

@[simp] theorem covers_cons : Covers (iv :: ivs) x ↔ (iv.1 ≤ x ∧ x < iv.2) ∨ Covers ivs x := by
  simp [Covers]

@[simp] theorem covers_append {as bs : List (Nat × Nat)} :
    Covers (as ++ bs) x ↔ Covers as x ∨ Covers bs x := by
  simp [Covers, or_and_right, exists_or]

theorem covers_ite {p : Prop} [Decidable p] :
    Covers (if p then [iv] else []) x ↔ p ∧ iv.1 ≤ x ∧ x < iv.2 := by
  split
  case isTrue h => simp [h]
  case isFalse h => simp [h]

theorem covers_perm {as bs : List (Nat × Nat)} (h : as.Perm bs) : Covers as x ↔ Covers bs x := by
  simp [Covers, h.mem_iff]

/-! ## Merging -/

/-- The loop of `merge_intervals`: `last` is the interval still open at the end of the output. -/
def mergeFrom : Nat × Nat → List (Nat × Nat) → List (Nat × Nat)
  | last, [] => [last]
  | last, (a, b) :: ivs =>
    if a ≤ last.2 then mergeFrom (last.1, max last.2 b) ivs else last :: mergeFrom (a, b) ivs

def mergeIntervals (ivs : List (Nat × Nat)) : List (Nat × Nat) :=
  match ivs.insertionSort fun p q => p.1 < q.1 ∨ (p.1 = q.1 ∧ p.2 ≤ q.2) with
  | [] => []
  | iv :: ivs => mergeFrom iv ivs

theorem covers_mergeFrom {last : Nat × Nat} (hs : ∀ iv ∈ ivs, last.1 ≤ iv.1)
    (hp : ivs.Pairwise fun p q => p.1 ≤ q.1) (x : Nat) :
    Covers (mergeFrom last ivs) x ↔ (last.1 ≤ x ∧ x < last.2) ∨ Covers ivs x := by
  induction ivs generalizing last with
  | nil => rw [mergeFrom, covers_cons]
  | cons iv ivs ih =>
    obtain ⟨a, b⟩ := iv
    obtain ⟨hhead, htail⟩ := pairwise_cons.mp hp
    have hle : last.1 ≤ a := hs (a, b) mem_cons_self
    unfold mergeFrom
    split
    case isTrue htouch =>
      have hrest := @ih (last.1, max last.2 b)
        (fun iv hiv => hs iv (mem_cons_of_mem _ hiv)) htail
      rw [hrest, covers_cons, ← or_assoc]
      refine or_congr_left ?_
      omega
    case isFalse =>
      rw [covers_cons, ih hhead htail, covers_cons]

theorem apart_mergeFrom {last : Nat × Nat} (hne : last.1 < last.2)
    (hs : ∀ iv ∈ ivs, last.1 ≤ iv.1 ∧ iv.1 < iv.2) (hp : ivs.Pairwise fun p q => p.1 ≤ q.1) :
    (∀ iv ∈ mergeFrom last ivs, last.1 ≤ iv.1 ∧ iv.1 < iv.2) ∧
      (mergeFrom last ivs).Pairwise fun p q => p.2 < q.1 := by
  induction ivs generalizing last with
  | nil =>
    refine ⟨fun iv hiv => ?_, pairwise_singleton _ _⟩
    rw [mem_singleton.mp hiv]
    exact ⟨le_rfl, hne⟩
  | cons iv ivs ih =>
    obtain ⟨a, b⟩ := iv
    obtain ⟨hhead, htail⟩ := pairwise_cons.mp hp
    have hab : last.1 ≤ a ∧ a < b := hs (a, b) mem_cons_self
    unfold mergeFrom
    split
    case isTrue htouch =>
      exact @ih (last.1, max last.2 b) (by dsimp only; omega)
        (fun iv hiv => hs iv (mem_cons_of_mem _ hiv)) htail
    case isFalse hgap =>
      obtain ⟨hlow, hapart⟩ := @ih (a, b) hab.2
        (fun iv hiv => ⟨hhead iv hiv, (hs iv (mem_cons_of_mem _ hiv)).2⟩) htail
      refine ⟨fun iv hiv => ?_, pairwise_cons.mpr ⟨fun iv hiv => ?_, hapart⟩⟩
      · rcases mem_cons.mp hiv with rfl | hiv
        · exact ⟨le_rfl, hne⟩
        · exact ⟨hab.1.trans (hlow iv hiv).1, (hlow iv hiv).2⟩
      · exact lt_of_lt_of_le (Nat.lt_of_not_le hgap) (hlow iv hiv).1

theorem sorted_starts (ivs : List (Nat × Nat)) :
    (ivs.insertionSort fun p q => p.1 < q.1 ∨ (p.1 = q.1 ∧ p.2 ≤ q.2)).Pairwise
      fun p q => p.1 ≤ q.1 := by
  let le : Nat × Nat → Nat × Nat → Prop := fun p q => p.1 < q.1 ∨ (p.1 = q.1 ∧ p.2 ≤ q.2)
  have htotal : Std.Total le := ⟨fun p q => by
    omega⟩
  have htrans : IsTrans (Nat × Nat) le := ⟨fun p q r hpq hqr => by
    omega⟩
  refine (pairwise_insertionSort le ivs).imp fun {p q} (h : le p q) => ?_
  omega

theorem covers_mergeIntervals (ivs : List (Nat × Nat)) (x : Nat) :
    Covers (mergeIntervals ivs) x ↔ Covers ivs x := by
  have hperm := perm_insertionSort (fun p q : Nat × Nat => p.1 < q.1 ∨ (p.1 = q.1 ∧ p.2 ≤ q.2)) ivs
  have hstarts := sorted_starts ivs
  rw [← covers_perm hperm, mergeIntervals]
  cases hl : ivs.insertionSort fun p q => p.1 < q.1 ∨ (p.1 = q.1 ∧ p.2 ≤ q.2) with
  | nil => rfl
  | cons iv rest =>
    rw [hl] at hstarts
    obtain ⟨hhead, htail⟩ := pairwise_cons.mp hstarts
    rw [covers_mergeFrom hhead htail, covers_cons]

theorem apart_mergeIntervals (h : ∀ iv ∈ ivs, iv.1 < iv.2) :
    (∀ iv ∈ mergeIntervals ivs, iv.1 < iv.2) ∧
      (mergeIntervals ivs).Pairwise fun p q => p.2 < q.1 := by
  have hperm := perm_insertionSort (fun p q : Nat × Nat => p.1 < q.1 ∨ (p.1 = q.1 ∧ p.2 ≤ q.2)) ivs
  have hstarts := sorted_starts ivs
  rw [mergeIntervals]
  cases hl : ivs.insertionSort fun p q => p.1 < q.1 ∨ (p.1 = q.1 ∧ p.2 ≤ q.2) with
  | nil => exact ⟨nofun, .nil⟩
  | cons iv rest =>
    rw [hl] at hstarts hperm
    have hne : ∀ iv' ∈ iv :: rest, iv'.1 < iv'.2 := fun iv' hiv => h iv' (hperm.mem_iff.mp hiv)
    obtain ⟨hhead, htail⟩ := pairwise_cons.mp hstarts
    obtain ⟨hlow, hapart⟩ := apart_mergeFrom (hne iv mem_cons_self)
      (fun iv' hiv => ⟨hhead iv' hiv, hne iv' (mem_cons_of_mem _ hiv)⟩) htail
    exact ⟨fun iv' hiv => (hlow iv' hiv).2, hapart⟩

/-! ## Sweeping -/

/-- The interval that starts first in either list, the first list's where they tie, and the lists
without it. -/
def firstOf : List (Nat × Nat) → List (Nat × Nat) →
    Option ((Nat × Nat) × List (Nat × Nat) × List (Nat × Nat))
  | [], [] => none
  | iv :: park, [] => some (iv, park, [])
  | [], iv :: page => some (iv, [], page)
  | a :: park, b :: page =>
    if a.1 ≤ b.1 then some (a, park, b :: page) else some (b, a :: park, page)

/-- The end of the contiguous coverage from `f`, by two lists of intervals in start order. A round
takes one interval. -/
def sweep : Nat → List (Nat × Nat) → List (Nat × Nat) → Nat → Nat
  | 0, _, _, f => f
  | fuel + 1, park, page, f =>
    match firstOf park page with
    | none => f
    | some (iv, park, page) => if f < iv.1 then f else sweep fuel park page (max f iv.2)

theorem firstOf_some {park page park' page' : List (Nat × Nat)}
    (hpark : park.Pairwise fun p q => p.1 ≤ q.1) (hpage : page.Pairwise fun p q => p.1 ≤ q.1)
    (h : firstOf park page = some (iv, park', page')) :
    (iv :: (park' ++ page')).Perm (park ++ page) ∧ (∀ x ∈ park ++ page, iv.1 ≤ x.1) ∧
      (park'.Pairwise fun p q => p.1 ≤ q.1) ∧ page'.Pairwise fun p q => p.1 ≤ q.1 := by
  have hleast : ∀ {a : Nat × Nat} {l : List (Nat × Nat)},
      (a :: l).Pairwise (fun p q => p.1 ≤ q.1) → ∀ x ∈ a :: l, a.1 ≤ x.1 := fun hp x hx => by
    rcases mem_cons.mp hx with rfl | hx
    · exact le_rfl
    · exact (pairwise_cons.mp hp).1 x hx
  cases park with
  | nil =>
    cases page with
    | nil => cases h
    | cons b page =>
      cases h
      exact ⟨.rfl, hleast hpage, hpark, hpage.tail⟩
  | cons a park =>
    cases page with
    | nil =>
      cases h
      exact ⟨by rw [append_nil, append_nil], by rw [append_nil]; exact hleast hpark, hpark.tail, hpage⟩
    | cons b page =>
      by_cases hab : a.1 ≤ b.1
      case pos =>
        rw [firstOf, if_pos hab] at h
        cases h
        refine ⟨.rfl, fun x hx => ?_, hpark.tail, hpage⟩
        rcases mem_append.mp hx with hx | hx
        · exact hleast hpark x hx
        · exact hab.trans (hleast hpage x hx)
      case neg =>
        rw [firstOf, if_neg hab] at h
        cases h
        refine ⟨perm_middle.symm, fun x hx => ?_, hpark, hpage.tail⟩
        rcases mem_append.mp hx with hx | hx
        · exact (Nat.le_of_not_le hab).trans (hleast hpark x hx)
        · exact hleast hpage x hx

theorem sweep_spec : ∀ (fuel : Nat) {park page : List (Nat × Nat)} {f : Nat},
    (park ++ page).length ≤ fuel → (park.Pairwise fun p q => p.1 ≤ q.1) →
    (page.Pairwise fun p q => p.1 ≤ q.1) →
    f ≤ sweep fuel park page f ∧
      (∀ x, f ≤ x → x < sweep fuel park page f → Covers (park ++ page) x) ∧
      ¬ Covers (park ++ page) (sweep fuel park page f)
  | 0, park, page, f, hfuel, _, _ => by
    rw [length_eq_zero_iff.mp (Nat.le_zero.mp hfuel)]
    exact ⟨le_rfl, fun x hle hlt => absurd hlt (not_lt.mpr hle), covers_nil _⟩
  | fuel + 1, park, page, f, hfuel, hpark, hpage => by
    unfold sweep
    cases hfirst : firstOf park page with
    | none =>
      have hnil : park = [] ∧ page = [] := by
        unfold firstOf at hfirst
        split at hfirst
        case h_1 => exact ⟨rfl, rfl⟩
        case h_2 => cases hfirst
        case h_3 => cases hfirst
        case h_4 => split at hfirst <;> cases hfirst
      rw [hnil.1, hnil.2]
      exact ⟨le_rfl, fun x hle hlt => absurd hlt (not_lt.mpr hle), covers_nil _⟩
    | some next =>
      obtain ⟨iv, park', page'⟩ := next
      obtain ⟨hperm, hleast, hpark', hpage'⟩ := firstOf_some hpark hpage hfirst
      dsimp only
      split
      case isTrue hlt =>
        refine ⟨le_rfl, fun x hle hx => absurd hx (not_lt.mpr hle), ?_⟩
        rintro ⟨x, hx, hle, -⟩
        have := hleast x hx
        omega
      case isFalse hge =>
        have hlen := hperm.length_eq
        rw [length_cons] at hlen
        obtain ⟨hle, hcov, hno⟩ := @sweep_spec fuel park' page' (max f iv.2) (by omega) hpark' hpage'
        have hiff : ∀ x, Covers (park ++ page) x ↔ (iv.1 ≤ x ∧ x < iv.2) ∨ Covers (park' ++ page') x :=
          fun x => by rw [← covers_perm hperm, covers_cons]
        refine ⟨by omega, fun x hx hlt => (hiff x).mpr ?_, fun hcovers => ?_⟩
        · by_cases hxe : x < max f iv.2
          · exact .inl (by omega)
          · exact .inr (hcov x (by omega) hlt)
        · rcases (hiff _).mp hcovers with ⟨-, hlt⟩ | hcovers
          · omega
          · exact hno hcovers

/-! ## Gaps -/

/-- What intervals in start order leave of `[cur, stop)`. -/
def gaps : List (Nat × Nat) → Nat → Nat → List (Nat × Nat)
  | [], cur, stop => if cur < stop then [(cur, stop)] else []
  | (s, e) :: ivs, cur, stop =>
    if e ≤ cur then gaps ivs cur stop
    else
      (if cur < s then [(cur, min s stop)] else []) ++
        if stop ≤ max cur e then [] else gaps ivs (max cur e) stop

theorem gaps_spec (hp : ivs.Pairwise fun p q => p.1 ≤ q.1) (cur : Nat) {stop : Nat}
    (hstop : ∀ iv ∈ ivs, iv.1 ≤ iv.2 ∧ iv.1 < stop) :
    (∀ g ∈ gaps ivs cur stop, cur ≤ g.1 ∧ g.1 < g.2 ∧ g.2 ≤ stop) ∧
      ((gaps ivs cur stop).Pairwise fun p q => p.2 ≤ q.1) ∧
      ∀ x, Covers (gaps ivs cur stop) x ↔ cur ≤ x ∧ x < stop ∧ ¬ Covers ivs x := by
  induction ivs generalizing cur with
  | nil =>
    unfold gaps
    split
    case isTrue hlt =>
      refine ⟨fun g hg => ?_, pairwise_singleton _ _, fun x => by simp⟩
      obtain rfl := mem_singleton.mp hg
      exact ⟨le_rfl, hlt, le_rfl⟩
    case isFalse hge =>
      refine ⟨nofun, .nil, fun x => ?_⟩
      rw [iff_false_intro (covers_nil x), false_iff]
      omega
  | cons iv ivs ih =>
    obtain ⟨s, e⟩ := iv
    obtain ⟨hhead, htail⟩ := pairwise_cons.mp hp
    have hs : s ≤ e ∧ s < stop := hstop (s, e) mem_cons_self
    have ih := fun cur => ih htail cur fun iv hiv => hstop iv (mem_cons_of_mem _ hiv)
    unfold gaps
    split
    case isTrue hskip =>
      obtain ⟨hin, hapart, hcov⟩ := ih cur
      refine ⟨hin, hapart, fun x => ?_⟩
      rw [hcov, covers_cons]
      constructor
      · rintro ⟨hlo, hhi, hno⟩
        exact ⟨hlo, hhi, fun hor => hor.elim (fun h => by omega) hno⟩
      · rintro ⟨hlo, hhi, hno⟩
        exact ⟨hlo, hhi, fun h => hno (.inr h)⟩
    case isFalse hreach =>
    -- the gap before the interval, and what is left past it
    have hgap : ∀ x, Covers (if cur < s then [(cur, min s stop)] else []) x ↔ cur ≤ x ∧ x < s :=
      fun x => by
        split
        case isTrue =>
          rw [covers_cons, iff_false_intro (covers_nil x), or_false]
          omega
        case isFalse =>
          rw [iff_false_intro (covers_nil x), false_iff]
          omega
    have hgapin : ∀ g ∈ (if cur < s then [(cur, min s stop)] else []),
        cur ≤ g.1 ∧ g.1 < g.2 ∧ g.2 ≤ stop ∧ g.2 ≤ s := fun g hg => by
      split at hg
      case isTrue hlt =>
        obtain rfl := mem_singleton.mp hg
        omega
      case isFalse => cases hg
    have hgaps : (if cur < s then [(cur, min s stop)] else []).Pairwise fun p q => p.2 ≤ q.1 := by
      split
      · exact pairwise_singleton _ _
      · exact .nil
    have hafter : ∀ x, x < s → ¬ Covers ivs x := by
      rintro x hx ⟨iv, hiv, hlo, -⟩
      have := hhead iv hiv
      omega
    by_cases hend : stop ≤ max cur e
    case pos =>
      rw [if_pos hend, append_nil]
      refine ⟨fun g hg => ?_, hgaps, fun x => ?_⟩
      · obtain ⟨h1, h2, h3, -⟩ := hgapin g hg
        exact ⟨h1, h2, h3⟩
      · rw [hgap, covers_cons]
        constructor
        · rintro ⟨hlo, hhi⟩
          exact ⟨hlo, by omega, fun hor => hor.elim (fun h => by omega) (hafter x hhi)⟩
        · rintro ⟨hlo, hhi, hno⟩
          omega
    case neg =>
      rw [if_neg hend]
      obtain ⟨hin, hapart, hcov⟩ := ih (max cur e)
      refine ⟨fun g hg => ?_, pairwise_append.mpr ⟨hgaps, hapart, fun g hg g' hg' => ?_⟩,
        fun x => ?_⟩
      · rcases mem_append.mp hg with hg | hg
        · obtain ⟨h1, h2, h3, -⟩ := hgapin g hg
          exact ⟨h1, h2, h3⟩
        · obtain ⟨h1, h2, h3⟩ := hin g hg
          exact ⟨by omega, h2, h3⟩
      · obtain ⟨h1, h2, -, h4⟩ := hgapin g hg
        obtain ⟨h5, -, -⟩ := hin g' hg'
        omega
      · rw [covers_append, hgap, hcov, covers_cons]
        constructor
        · rintro (⟨hlo, hhi⟩ | ⟨hlo, hhi, hno⟩)
          · exact ⟨hlo, by omega, fun hor => hor.elim (fun h => by omega) (hafter x hhi)⟩
          · exact ⟨by omega, hhi, fun hor => hor.elim (fun h => by omega) hno⟩
        · rintro ⟨hlo, hhi, hno⟩
          by_cases hx : x < s
          · exact .inl ⟨hlo, hx⟩
          · refine .inr ⟨?_, hhi, fun h => hno (.inr h)⟩
            by_contra hlt
            exact hno (.inl ⟨by omega, by omega⟩)

end Wire
