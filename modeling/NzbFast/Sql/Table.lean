import Mathlib.Data.List.Forall2
import Mathlib.Data.List.Pairwise

/-!
# Tables with a rowid and a unique key

A table is its rows in rowid order, no two of them with one rowid or one key. A row
is stored under a conflict policy; `place` is the write that happens when it is
stored, and evicts what it clashes with. A scan reads the rows above a cursor.
-/

namespace NzbFast.Sql

open List hiding modify

variable {ρ κ : Type}

/-- The rows of a table in rowid order, under a UNIQUE constraint on `key`. -/
structure Table (rowid : ρ → Int) (key : ρ → κ) where
  rows : List ρ
  sorted : rows.Pairwise fun a b => rowid a < rowid b
  unique : rows.Pairwise fun a b => key a ≠ key b

/-- The conflict clauses of a statement. -/
inductive Conflict where
  | rollback
  | abort
  | fail
  | ignore
  | replace
  deriving DecidableEq

/-- What became of one row of a statement. -/
inductive Stored (τ : Type) where
  | stored (t : τ)
  | skipped
  | refused

/-- Two rows that one table cannot hold. -/
def Clash (rowid : ρ → Int) (key : ρ → κ) (a b : ρ) : Prop := rowid a = rowid b ∨ key a = key b

namespace Table

variable {rowid : ρ → Int} {key : ρ → κ}

instance : Membership ρ (Table rowid key) := ⟨fun t r => r ∈ t.rows⟩

def empty : Table rowid key := ⟨[], .nil, .nil⟩

/-- The rows that satisfy `p`. -/
def keep (t : Table rowid key) (p : ρ → Bool) : Table rowid key :=
  ⟨t.rows.filter p, t.sorted.filter _, t.unique.filter _⟩

/-- Every row changed by `f`, which leaves rowids and keys alone. -/
def modify (t : Table rowid key) (f : ρ → ρ) (hid : ∀ r, rowid (f r) = rowid r)
    (hkey : ∀ r, key (f r) = key r) : Table rowid key where
  rows := t.rows.map f
  sorted := List.pairwise_map.mpr (t.sorted.imp fun h => by rwa [hid, hid])
  unique := List.pairwise_map.mpr (t.unique.imp fun h => by rwa [hkey, hkey])

def erase (t : Table rowid key) (i : Int) : Table rowid key := t.keep fun r => decide (rowid r ≠ i)

def find (t : Table rowid key) (i : Int) : Option ρ := t.rows.find? fun r => rowid r == i

def nextId (t : Table rowid key) : Int := ((t.rows.getLast?.map rowid).getD 0) + 1

/-- `WHERE rowid > cursor ORDER BY rowid LIMIT limit`. -/
def scan (t : Table rowid key) (cursor : Int) (limit : Nat) : List ρ :=
  (t.keep fun r => decide (cursor < rowid r)).rows.take limit

variable {r : ρ} {t : Table rowid key} {cursor : Int} {limit : Nat}

theorem mem_rows : r ∈ t.rows ↔ r ∈ t := Iff.rfl

@[simp] theorem not_mem_empty (r : ρ) : r ∉ (empty : Table rowid key) := not_mem_nil

@[simp] theorem mem_keep {p : ρ → Bool} : r ∈ t.keep p ↔ r ∈ t ∧ p r = true := mem_filter

@[simp] theorem mem_erase {i : Int} : r ∈ t.erase i ↔ r ∈ t ∧ rowid r ≠ i := by
  rw [erase, mem_keep, decide_eq_true_eq]

theorem find_some {i : Int} (h : t.find i = some r) : r ∈ t ∧ rowid r = i :=
  ⟨mem_of_find?_eq_some h, by simpa using find?_some h⟩

theorem lt_nextId (h : r ∈ t) : rowid r < t.nextId := by
  have hne : t.rows ≠ [] := ne_nil_of_mem h
  have hle : rowid r ≤ rowid (t.rows.getLast hne) := by
    have hsplit := t.sorted
    rw [← dropLast_append_getLast hne] at hsplit
    have hr : r ∈ t.rows.dropLast ++ [t.rows.getLast hne] := by
      rw [dropLast_append_getLast hne]
      exact h
    rcases mem_append.mp hr with hr | hr
    · exact Int.le_of_lt ((pairwise_append.mp hsplit).2.2 r hr _ (mem_singleton_self _))
    · exact Int.le_of_eq (congrArg rowid (mem_singleton.mp hr))
  rw [nextId, getLast?_eq_getLast_of_ne_nil hne]
  exact Int.lt_add_one_of_le hle

theorem eq_of_rowid {a b : ρ} (ha : a ∈ t) (hb : b ∈ t) (h : rowid a = rowid b) : a = b := by
  by_contra hne
  have hpair : t.rows.Pairwise fun a b => rowid a ≠ rowid b := t.sorted.imp Int.ne_of_lt
  exact @List.Pairwise.forall _ _ _ ⟨fun _ _ => Ne.symm⟩ hpair a ha b hb hne h

theorem eq_of_key {a b : ρ} (ha : a ∈ t) (hb : b ∈ t) (h : key a = key b) : a = b := by
  by_contra hne
  exact @List.Pairwise.forall _ _ _ ⟨fun _ _ => Ne.symm⟩ t.unique a ha b hb hne h

variable [DecidableEq κ]

instance (a b : ρ) : Decidable (Clash rowid key a b) := inferInstanceAs (Decidable (_ ∨ _))

/-- Store `r`; the rows it clashes with go. -/
def place (t : Table rowid key) (r : ρ) : Table rowid key where
  rows := (t.keep fun x => decide (¬ Clash rowid key x r ∧ rowid x < rowid r)).rows ++
    r :: (t.keep fun x => decide (¬ Clash rowid key x r ∧ rowid r < rowid x)).rows
  sorted := by
    refine List.pairwise_append.mpr ⟨(t.keep _).sorted,
      List.pairwise_cons.mpr ⟨fun x hx => ?_, (t.keep _).sorted⟩, fun x hx y hy => ?_⟩
    · exact (of_decide_eq_true (List.mem_filter.mp hx).2).2
    have hlt := (of_decide_eq_true (List.mem_filter.mp hx).2).2
    rcases List.mem_cons.mp hy with rfl | hy
    · exact hlt
    · exact Int.lt_trans hlt (of_decide_eq_true (List.mem_filter.mp hy).2).2
  unique := by
    refine List.pairwise_append.mpr ⟨(t.keep _).unique,
      List.pairwise_cons.mpr ⟨fun x hx he => ?_, (t.keep _).unique⟩, fun x hx y hy he => ?_⟩
    · exact (of_decide_eq_true (List.mem_filter.mp hx).2).1 (.inr he.symm)
    have hx' := of_decide_eq_true (List.mem_filter.mp hx).2
    rcases List.mem_cons.mp hy with rfl | hy
    · exact hx'.1 (.inr he)
    · have hy' := of_decide_eq_true (List.mem_filter.mp hy).2
      have hxy : x = y := eq_of_key (List.mem_filter.mp hx).1 (List.mem_filter.mp hy).1 he
      subst hxy
      omega

@[simp] theorem mem_place {x : ρ} : x ∈ t.place r ↔ x = r ∨ (x ∈ t ∧ ¬ Clash rowid key x r) := by
  have happ : x ∈ t.place r ↔
      x ∈ t.keep (fun x => decide (¬ Clash rowid key x r ∧ rowid x < rowid r)) ∨ x = r ∨
      x ∈ t.keep (fun x => decide (¬ Clash rowid key x r ∧ rowid r < rowid x)) := by
    rw [← mem_rows, place, mem_append, mem_cons]
    exact Iff.rfl
  rw [happ, mem_keep, mem_keep, decide_eq_true_eq, decide_eq_true_eq]
  constructor
  · rintro (⟨hx, hc, -⟩ | rfl | ⟨hx, hc, -⟩)
    · exact .inr ⟨hx, hc⟩
    · exact .inl rfl
    · exact .inr ⟨hx, hc⟩
  · rintro (rfl | ⟨hx, hc⟩)
    · exact .inr (.inl rfl)
    · rcases Int.lt_or_gt_of_ne (fun he => hc (.inl he) : rowid x ≠ rowid r) with hlt | hgt
      · exact .inl ⟨hx, hc, hlt⟩
      · exact .inr (.inr ⟨hx, hc, hgt⟩)

theorem mem_place_over {t : Table rowid key} {old r x : ρ} (hold : old ∈ t)
    (hid : rowid r = rowid old) (hkey : key r = key old) :
    x ∈ t.place r ↔ x = r ∨ (x ∈ t ∧ rowid x ≠ rowid old) := by
  rw [mem_place]
  constructor
  · rintro (rfl | ⟨hx, hc⟩)
    · exact .inl rfl
    · exact .inr ⟨hx, fun he => hc (.inl (he.trans hid.symm))⟩
  · rintro (rfl | ⟨hx, hne⟩)
    · exact .inl rfl
    · refine .inr ⟨hx, fun hc => ?_⟩
      rcases hc with he | he
      · exact hne (he.trans hid)
      · exact hne (congrArg rowid (eq_of_key hx hold (he.trans hkey)))

theorem mem_place_fresh {x : ρ} (hid : ∀ y ∈ t, rowid y ≠ rowid r) (hkey : ∀ y ∈ t, key y ≠ key r) :
    x ∈ t.place r ↔ x = r ∨ x ∈ t := by
  rw [mem_place]
  constructor
  · rintro (rfl | ⟨hx, -⟩)
    · exact .inl rfl
    · exact .inr hx
  · rintro (rfl | hx)
    · exact .inl rfl
    · exact .inr ⟨hx, fun hc => hc.elim (hid x hx) (hkey x hx)⟩

def lookup (t : Table rowid key) (k : κ) : Option ρ := t.rows.find? fun r => key r == k

theorem lookup_eq_some {k : κ} : t.lookup k = some r ↔ r ∈ t ∧ key r = k := by
  constructor
  · intro h
    exact ⟨mem_of_find?_eq_some h, by simpa using find?_some h⟩
  · rintro ⟨hr, hk⟩
    obtain ⟨x, hfind⟩ := Option.isSome_iff_exists.mp
      (find?_isSome (p := fun r : ρ => key r == k).mpr ⟨r, hr, beq_iff_eq.mpr hk⟩)
    have hx : key x = k := by simpa using find?_some hfind
    rw [lookup, hfind, eq_of_key (mem_of_find?_eq_some hfind) hr (hx.trans hk.symm)]

/-- Store a row under a conflict clause. -/
def insert (c : Conflict) (t : Table rowid key) (r : ρ) : Stored (Table rowid key) :=
  if t.rows.any fun x => decide (Clash rowid key x r) then
    match c with
    | .replace => .stored (t.place r)
    | .ignore => .skipped
    | _ => .refused
  else .stored (t.place r)

/-- A row is stored by `place`, and unless the clause is REPLACE nothing clashed. -/
theorem insert_stored {c : Conflict} {t' : Table rowid key} (h : t.insert c r = .stored t') :
    t' = t.place r ∧ (c ≠ .replace → ∀ x ∈ t, ¬ Clash rowid key x r) := by
  unfold insert at h
  split at h
  · cases c <;> cases h
    exact ⟨rfl, fun hc => absurd rfl hc⟩
  · rename_i hany
    cases h
    refine ⟨rfl, fun _ x hx hc => hany ?_⟩
    exact any_eq_true.mpr ⟨x, hx, decide_eq_true hc⟩

theorem insert_eq_place {c : Conflict} (h : c ≠ .replace → ∀ x ∈ t, ¬ Clash rowid key x r) :
    t.insert c r = .stored (t.place r) := by
  unfold insert
  split
  · rename_i hany
    obtain ⟨x, hx, hc⟩ := any_eq_true.mp hany
    by_cases hr : c = .replace
    · subst hr
      rfl
    · exact absurd (of_decide_eq_true hc) (h hr x hx)
  · rfl

omit [DecidableEq κ] in
theorem mem_of_mem_scan (h : r ∈ t.scan cursor limit) : r ∈ t ∧ cursor < rowid r := by
  have := mem_filter.mp (mem_of_mem_take h)
  exact ⟨this.1, of_decide_eq_true this.2⟩

omit [DecidableEq κ] in
theorem le_of_scan_nil (hlimit : 0 < limit) (h : t.scan cursor limit = []) (hr : r ∈ t) :
    rowid r ≤ cursor := by
  by_contra hlt
  have hmem : r ∈ (t.keep fun r => decide (cursor < rowid r)).rows :=
    mem_filter.mpr ⟨hr, decide_eq_true (Int.not_le.mp hlt)⟩
  rcases take_eq_nil_iff.mp h with h0 | hnil
  · omega
  · rw [hnil] at hmem
    exact not_mem_nil hmem

omit [DecidableEq κ] in
theorem mem_scan_of_le_last {last : ρ} (hlast : (t.scan cursor limit).getLast? = some last)
    (hr : r ∈ t) (hlo : cursor < rowid r) (hhi : rowid r ≤ rowid last) :
    r ∈ t.scan cursor limit := by
  have hmem : r ∈ (t.keep fun r => decide (cursor < rowid r)).rows :=
    mem_filter.mpr ⟨hr, decide_eq_true hlo⟩
  have hsorted := (t.keep fun r => decide (cursor < rowid r)).sorted
  rw [← take_append_drop limit (t.keep _).rows] at hmem hsorted
  rcases mem_append.mp hmem with h | h
  · exact h
  · have hl : last ∈ t.scan cursor limit := mem_of_getLast? hlast
    have := (pairwise_append.mp hsorted).2.2 last hl r h
    omega

end Table

end NzbFast.Sql
