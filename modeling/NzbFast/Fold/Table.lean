import NzbFast.Fold.SetFold

/-!
# Hash maps as tables

`retain` and `values_mut` of a hash map are one operation on a `Table`:
`filterMap`. `HashOrder` is the order in which a hash map hands out its keys,
which nothing fixes but that every key comes once.
-/

namespace Fold

open Finmap Option

variable {K V W : Type} [DecidableEq K]

/-- The entries that `f` keeps, with the values it gives them. -/
def Table.filterMap (f : K → V → Option W) (t : Table K V) : Table K W where
  entries := t.entries.filterMap fun e => (f e.1 e.2).map fun w => ⟨e.1, w⟩
  nodupKeys := by
    obtain ⟨entries, hnodup⟩ := t
    induction entries using Quotient.inductionOn with
    | h l =>
      have hl : l.NodupKeys := hnodup
      show (List.filterMap _ l).NodupKeys
      rw [List.nodupKeys_iff_pairwise] at hl ⊢
      refine hl.filterMap _ ?_
      rintro ⟨k, v⟩ ⟨k', v'⟩ hne ⟨j, w⟩ hj ⟨j', w'⟩ hj'
      obtain ⟨_, -, he⟩ := Option.map_eq_some_iff.mp hj
      obtain ⟨_, -, he'⟩ := Option.map_eq_some_iff.mp hj'
      cases he
      cases he'
      exact hne

theorem Table.lookup_filterMap (f : K → V → Option W) (t : Table K V) (k : K) :
    (t.filterMap f).lookup k = (t.lookup k).bind (f k) := by
  refine ext fun w => ?_
  rw [lookup_eq_some_iff, bind_eq_some_iff]
  simp only [Table.filterMap, Multiset.mem_filterMap, map_eq_some_iff]
  constructor
  · rintro ⟨⟨j, v⟩, hmem, w', hw, he⟩
    cases he
    exact ⟨v, lookup_eq_some_iff.mpr hmem, hw⟩
  · rintro ⟨v, hv, hw⟩
    exact ⟨⟨k, v⟩, lookup_eq_some_iff.mp hv, w, hw, rfl⟩

theorem Table.lookup_insert_eq_ite (t : Table K V) (k j : K) (v : V) :
    (t.insert k v).lookup j = if j = k then some v else t.lookup j := by
  split
  case isTrue h => rw [h, lookup_insert]
  case isFalse h => rw [lookup_insert_of_ne _ h]

theorem Table.lookup_union (t u : Table K V) (k : K) :
    (t ∪ u).lookup k = (t.lookup k).or (u.lookup k) := by
  by_cases hk : k ∈ t
  · obtain ⟨v, hv⟩ := isSome_iff_exists.mp (lookup_isSome.mpr hk)
    rw [lookup_union_left hk, hv, some_or]
  · rw [lookup_union_right hk, lookup_eq_none.mpr hk, none_or]

theorem Table.keys_insert_empty (k : K) (v : V) : ((∅ : Table K V).insert k v).keys = {k} := by
  ext j
  rw [mem_keys, mem_insert, Finset.mem_singleton]
  exact or_iff_left notMem_empty

/-! ## Totals -/

def Table.total (f : V → Nat) (t : Table K V) : Nat := (t.entries.map fun e => f e.2).sum

omit [DecidableEq K] in
@[simp] theorem Table.total_empty (f : V → Nat) : Table.total f (∅ : Table K V) = 0 := rfl

theorem Table.total_insert_of_notMem (f : V → Nat) {t : Table K V} {k : K} (v : V) (h : k ∉ t) :
    Table.total f (t.insert k v) = f v + t.total f := by
  unfold Table.total
  rw [entries_insert_of_notMem h, Multiset.map_cons, Multiset.sum_cons]

theorem Table.insert_erase (t : Table K V) (k : K) (v : V) :
    (t.erase k).insert k v = t.insert k v := by
  apply ext_lookup
  intro j
  rw [lookup_insert_eq_ite, lookup_insert_eq_ite]
  split
  · rfl
  · rename_i hj
    exact lookup_erase_ne hj

theorem Table.total_insert (f : V → Nat) (t : Table K V) (k : K) (v : V) :
    Table.total f (t.insert k v) = f v + Table.total f (t.erase k) := by
  rw [← insert_erase, total_insert_of_notMem f v notMem_erase_self]

theorem Table.total_of_lookup (f : V → Nat) {t : Table K V} {k : K} {v : V}
    (h : t.lookup k = some v) : t.total f = f v + Table.total f (t.erase k) := by
  have hself : t.insert k v = t := by
    apply ext_lookup
    intro j
    rw [lookup_insert_eq_ite]
    split
    case isTrue hj => rw [hj, h]
    case isFalse => rfl
  rw [← total_insert, hself]

theorem Table.erase_of_lookup_none {t : Table K V} {k : K} (h : t.lookup k = none) :
    t.erase k = t := by
  apply ext_lookup
  intro j
  by_cases hj : j = k
  · subst hj
    rw [lookup_erase, h]
  · exact lookup_erase_ne hj

/-- The order in which a hash map hands out its keys: every key once. -/
structure HashOrder (K : Type) where
  order : Finset K → List K
  nodup : ∀ s, (order s).Nodup
  mem : ∀ s k, k ∈ order s ↔ k ∈ s

omit [DecidableEq K] in
theorem HashOrder.order_singleton (o : HashOrder K) (k : K) : o.order {k} = [k] := by
  refine List.perm_singleton.mp ?_
  rw [List.perm_ext_iff_of_nodup (o.nodup _) (List.nodup_singleton k)]
  intro j
  rw [o.mem, Finset.mem_singleton, List.mem_singleton]

end Fold
