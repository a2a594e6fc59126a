import NzbFast.Rar.Exposed

/-!
# Histories of a group

`reresolve` recomputes the group each time its slots have parsed on, until a
recompute gives a reason to fall back. What a recompute leaves without a reason
is a set of offsets that goes with every header (`Inv`); the next recompute then
moves an exposed base only where the piece has lost what held it.
-/

namespace NzbFast.Rar

open NzbFast.Rust Fold Relation List

/-! ## What the chain gives -/

section Chain

variable {s : List Slot} {k : Key} {b : UInt64}

theorem At.unique (hd : Distinct s) {t : Table Key UInt64} {b' : UInt64} (h : At s t k b)
    (h' : At s t k b') : b = b' := by
  obtain ⟨q, e, hq, he, hb⟩ := h
  obtain ⟨q', e', hq', he', hb'⟩ := h'
  obtain rfl := toSlot_inj hd hq hq'
  exact Option.some.inj (hb.symm.trans hb')

theorem lookup_chainBases (hd : Distinct s) :
    (chainBases s).lookup k = some b ↔ At s (resolveIndexed (volsOf s)).bases k b := by
  have hmem : ∀ p : Key × UInt64, (p ∈ (pieces (volsOf s)).filterMap fun p =>
      (toSlot s p.1).bind fun k => ((resolveIndexed (volsOf s)).bases.lookup p.1).map (k, ·)) ↔
      At s (resolveIndexed (volsOf s)).bases p.1 p.2 := by
    rintro ⟨k, b⟩
    rw [mem_filterMap]
    constructor
    · rintro ⟨⟨q, e⟩, hmem, hp⟩
      obtain ⟨k', hk, hp⟩ := Option.bind_eq_some_iff.mp hp
      obtain ⟨b', hb, heq⟩ := Option.map_eq_some_iff.mp hp
      cases heq
      exact ⟨q, e, hk, mem_pieces.mp hmem, hb⟩
    · rintro ⟨q, e, hq, he, hb⟩
      exact ⟨(q, e), mem_pieces.mpr he, by rw [hq, Option.bind_some, hb]; rfl⟩
  unfold chainBases
  rw [lookup_tableOf, hmem]
  rintro ⟨j, x⟩ hp ⟨j', x'⟩ hq rfl
  exact ((hmem _).mp hp).unique hd ((hmem _).mp hq)

theorem certain_chainBases (hd : Distinct s)
    (hc : (resolveIndexed (volsOf s)).contradiction = false) :
    Certain s fun k => (chainBases s).lookup k where
  seed k b h := by
    obtain ⟨q, e, hq, he, hb⟩ := h
    exact (lookup_chainBases hd).mpr
      ⟨q, e, hq, he, resolved_of_firstRound (firstRound_of_swept (swept_seed he hb))⟩
  link k k' n hj y hy := by
    obtain ⟨l, hl, hla, hlb, rfl⟩ := hj
    obtain ⟨q, e, hq, he, hat⟩ := (lookup_chainBases hd).mp hy
    obtain rfl := toSlot_inj hd hq hlb
    obtain ⟨m, -, hlast⟩ := resolveIndexed_cases (volsOf s)
    rw [hlast] at hc hat
    obtain ⟨x, hx, hsum⟩ := settled_pass _ m hc l hl y hat
    obtain ⟨ea, eb, hlink⟩ := linked_of_mem hl
    exact ⟨x, (lookup_chainBases hd).mpr ⟨l.a, ea, hla, hlink.entry_a, hlast ▸ hx⟩, hsum⟩

end Chain

/-! ## What the gate gives -/

theorem accepted_of_foldlM {vols : List Mapped} {sc sc' : Scan}
    (h : vols.foldlM Scan.visit sc = .ok sc') :
    ∀ m ∈ vols, m.version = some .v5 ∧ m.blocker = none := by
  induction vols generalizing sc with
  | nil => exact fun m hm => nomatch hm
  | cons x vols ih =>
    obtain ⟨t, ht, h⟩ := bind_eq_ok.mp h
    intro m hm
    rcases mem_cons.mp hm with rfl | hm
    · unfold Scan.visit at ht
      split at ht
      case isTrue => cases ht
      case isFalse hok => simpa using hok
    · exact ih h m hm

theorem accepted_of_place {vols : List Mapped} {bases : List UInt64} {closed : Bool}
    (h : resolveArithmetic vols = .place bases closed) :
    ∀ m ∈ vols, m.version = some .v5 ∧ m.blocker = none := by
  unfold resolveArithmetic at h
  split at h
  case isTrue => cases h
  case isFalse =>
    split at h
    case h_2 r _ => cases r <;> cases h
    case h_1 g hg =>
      obtain ⟨sc, hsc, -⟩ := bind_eq_ok.mp hg
      exact accepted_of_foldlM hsc

theorem resolveArithmetic_of_gateOf {s : List Slot} {bases : List UInt64} {closed : Bool}
    (h : gateOf s = .place bases closed) : resolveArithmetic (mappers s) = .place bases closed := by
  unfold gateOf at h
  split at h
  · exact h
  · cases h

def placed (s : List Slot) (bases : List UInt64) : List (Key × UInt64) :=
  (s.zip bases).map fun p => ((p.1.id, 0), p.2)

section Gate

variable {s : List Slot} {bases : List UInt64} {sc : Scan} {total d h : UInt64}
  (hp : Placement (mappers s) bases sc total d h)

include hp

theorem forall₂_placed : List.Forall₂ (fun x b => pieceBase total d h x.mapper = .ok b) s bases :=
  forall₂_map_left_iff.mp (forall₂_of_mapM hp.based)

theorem pieceBase_of_zip {x : Slot} {b : UInt64} (hx : (x, b) ∈ s.zip bases) :
    pieceBase total d h x.mapper = .ok b :=
  (forall₂_iff_zip.mp (forall₂_placed hp)).2 hx

theorem exists_zip {x : Slot} (hx : x ∈ s) : ∃ b, (x, b) ∈ s.zip bases := by
  obtain ⟨i, hi, rfl⟩ := getElem_of_mem hx
  have hlen : bases.length = s.length := by rw [hp.length, mappers, length_map]
  exact ⟨bases[i], mem_iff_getElem.mpr ⟨i, by simp [hlen, hi], getElem_zip⟩⟩

/-- The gate gives a slot one base. -/
theorem placed_unique (hd : Distinct s) : ∀ p ∈ placed s bases, ∀ q ∈ placed s bases,
    p.1 = q.1 → p.2 = q.2 := by
  intro p hpm q hqm hk
  obtain ⟨⟨x, b⟩, hx, rfl⟩ := mem_map.mp hpm
  obtain ⟨⟨y, b'⟩, hy, rfl⟩ := mem_map.mp hqm
  obtain rfl := hd.eq (of_mem_zip hx).1 (of_mem_zip hy).1 (Prod.mk.inj hk).1
  exact Except.ok.inj ((pieceBase_of_zip hp hx).symm.trans (pieceBase_of_zip hp hy))

theorem lookup_placed (hd : Distinct s) {k : Key} {b : UInt64} :
    (tableOf (placed s bases)).lookup k = some b ↔ ∃ x, (x, b) ∈ s.zip bases ∧ k = (x.id, 0) := by
  rw [lookup_tableOf (placed_unique hp hd), placed, mem_map]
  constructor
  · rintro ⟨⟨x, b⟩, hx, heq⟩
    cases heq
    exact ⟨x, hx, rfl⟩
  · rintro ⟨x, hx, rfl⟩
    exact ⟨(x, b), hx, rfl⟩

/-- The provisional bases are among the placed ones. -/
theorem lookup_beyond (hd : Distinct s) {far : Slot × UInt64 → Bool} {k : Key} {b : UInt64}
    (hk : (tableOf (((s.zip bases).filter far).map fun p => ((p.1.id, 0), p.2))).lookup k =
      some b) : (tableOf (placed s bases)).lookup k = some b := by
  have hsub : ∀ p ∈ ((s.zip bases).filter far).map fun p => ((p.1.id, 0), p.2),
      p ∈ placed s bases := by
    intro p hmem
    obtain ⟨x, hx, rfl⟩ := mem_map.mp hmem
    exact mem_map_of_mem (mem_filter.mp hx).1
  rw [lookup_tableOf fun p hpm q hqm => placed_unique hp hd p (hsub p hpm) q (hsub q hqm)] at hk
  exact (lookup_tableOf (placed_unique hp hd) k b).mpr (hsub _ hk)

theorem allNumbered_of_placed : allNumbered s = true := by
  unfold allNumbered numbered
  rw [beq_iff_eq, length_filter_eq_length_iff]
  intro x hx
  obtain ⟨vn, e, flen, hv⟩ := hp.scanned.volume x.mapper (mem_map_of_mem hx)
  rw [hv.number]
  rfl

/-- A piece of the sorted volumes, with the base that the gate gave it. -/
theorem placed_entry (hd : Distinct s) {q k : Key} {e : FileEntry} (hq : toSlot s q = some k)
    (he : entryAt (volsOf s) q = some e) : ∃ v flen b, (volsOf s)[q.1]? = some v ∧
      Vol sc v.2 v.1 e flen ∧ pieceBase total d h v.2 = .ok b ∧
      (tableOf (placed s bases)).lookup k = some b := by
  obtain ⟨⟨i, x⟩, hv, rfl⟩ := toSlot_eq_some.mp hq
  obtain ⟨hx, hi⟩ := mem_indexed (mem_of_getElem? hv)
  rw [allNumbered_of_placed hp] at hi
  obtain ⟨vn, e', flen, hvol⟩ := hp.scanned.volume x.mapper (mem_map_of_mem hx)
  rw [entryAt_volsOf, hv, Option.bind_some, hvol.entries] at he
  have hzero : q.2 = 0 := by
    have := (List.getElem?_eq_some_iff.mp he).1
    simpa using this
  rw [hzero] at he
  cases he
  obtain rfl : vn = i := Option.some.inj (hvol.number.symm.trans hi)
  obtain ⟨b, hb⟩ := exists_zip hp hx
  refine ⟨(vn, x.mapper), flen, b, ?_, hvol, pieceBase_of_zip hp hb, ?_⟩
  · rw [volsOf, getElem?_map, hv]
    rfl
  · exact (lookup_placed hp hd).mpr ⟨x, hb, by rw [hzero]⟩

theorem metric_placed (hd : Distinct s) : Metric s fun k => (tableOf (placed s bases)).lookup k where
  seed k b hs := by
    obtain ⟨q, e, hq, he, hb⟩ := hs
    obtain ⟨v, flen, b', -, hvol, hb', hlook⟩ := placed_entry hp hd hq he
    rw [hlook, hp.seed_base hvol hb' hb]
  link k k' n hj := by
    obtain ⟨l, hl, hla, hlb, rfl⟩ := hj
    obtain ⟨ea, eb, hlink⟩ := linked_of_mem hl
    obtain ⟨va, fa, ba, hva, hvola, hba, hlooka⟩ := placed_entry hp hd hla hlink.entry_a
    obtain ⟨vb, fb, bb, hvb, hvolb, hbb, hlookb⟩ := placed_entry hp hd hlb hlink.entry_b
    have hsorted : (volsOf s).Pairwise fun v v' => v.1 ≤ v'.1 :=
      pairwise_map.mpr (indexed_sorted s)
    exact ⟨ba, bb, hlooka, hlookb, hp.link_base hsorted hlink hva hvb hvola hvolb hba hbb⟩

end Gate

/-- A slot whose mapper the gate has placed, before and after its parse went on. -/
theorem mapper_eq_of_grows {m m' : Mapped} (hm : m.Grows m') {sc sc' : Scan}
    {vn vn' flen flen' : UInt64} {e e' : FileEntry} (hv : Vol sc m vn e flen)
    (hv' : Vol sc' m' vn' e' flen') (ha : m.version = some .v5 ∧ m.blocker = none)
    (ha' : m'.version = some .v5 ∧ m'.blocker = none) : m = m' := by
  obtain ⟨version, entries, blocker, number, field⟩ := m
  obtain ⟨version', entries', blocker', number', field'⟩ := m'
  have hpre := hm.entries
  rw [hv.entries, hv'.entries] at hpre
  have hentries : entries = entries' := calc
    entries = [e] := hv.entries
    _ = [e'] := hpre.eq_of_length rfl
    _ = entries' := hv'.entries.symm
  have hnumber := hm.number vn hv.number
  have hfield := hm.field flen hv.field
  have hn := hv.number
  have hf := hv.field
  simp only at *
  rw [ha.1, ha'.1, ha.2, ha'.2, hentries, hn, hnumber, hf, hfield]

def PlacedAt (s : List Slot) (k : Key) (b : UInt64) : Prop :=
  ∃ bases closed x, gateOf s = .place bases closed ∧ (x, b) ∈ s.zip bases ∧ k = (x.id, 0)

/-- The gate places a piece where it has placed it before. -/
theorem PlacedAt.grows {s s' : List Slot} (hg : Grows s s') {k : Key} {b : UInt64}
    (h : PlacedAt s k b) {bases : List UInt64} {closed : Bool}
    (hgate : gateOf s' = .place bases closed) : ∃ x, (x, b) ∈ s'.zip bases ∧ k = (x.id, 0) := by
  obtain ⟨bases₀, closed₀, x, hgate₀, hx, rfl⟩ := h
  have harith₀ := resolveArithmetic_of_gateOf hgate₀
  have harith := resolveArithmetic_of_gateOf hgate
  obtain ⟨sc₀, total₀, d₀, h₀, hp₀, -⟩ := placement_of_place harith₀
  obtain ⟨sc, total, d, h, hp, -⟩ := placement_of_place harith
  have hsame : ∀ x ∈ s, ∃ y ∈ s', y.id = x.id ∧ x.mapper = y.mapper := by
    intro x hx
    obtain ⟨y, hy, hid, -, hm⟩ := hg x hx
    have hx' : x.mapper ∈ mappers s := mem_map_of_mem hx
    have hy' : y.mapper ∈ mappers s' := mem_map_of_mem hy
    obtain ⟨_, _, _, hv⟩ := hp₀.scanned.volume _ hx'
    obtain ⟨_, _, _, hv'⟩ := hp.scanned.volume _ hy'
    exact ⟨y, hy, hid, mapper_eq_of_grows hm hv hv' (accepted_of_place harith₀ _ hx')
      (accepted_of_place harith _ hy')⟩
  have hsub : ∀ m ∈ mappers s, m ∈ mappers s' := by
    intro m hm
    obtain ⟨x, hx, rfl⟩ := mem_map.mp hm
    obtain ⟨y, hy, -, heq⟩ := hsame x hx
    exact heq ▸ mem_map_of_mem hy
  have hxs := (of_mem_zip hx).1
  obtain ⟨y, hy, hid, heq⟩ := hsame x hxs
  obtain ⟨b', hb'⟩ := exists_zip hp hy
  have hbase := pieceBase_of_zip hp₀ hx
  have hbase' := pieceBase_of_zip hp hb'
  rw [← heq] at hbase'
  obtain rfl := hp₀.base_eq hp hsub (mem_map_of_mem hxs) hbase hbase'
  exact ⟨y, hb', by rw [hid]⟩

/-! ## One recompute -/

/-- What a recompute without a reason leaves: the bases that are not provisional go
with the headers, and the gate has placed the others. -/
structure Inv (s : List Slot) (g : Group) : Prop where
  certain : ∃ c, Certain s c ∧ ∀ k b, g.arithProvisional.lookup k = none →
    g.bases.lookup k = some b → c k = some b
  exposed : ∀ k b, g.arithProvisional.lookup k = some b → g.bases.lookup k = some b
  placed : ∀ k b, g.arithProvisional.lookup k = some b → ∃ s₀, Grows s₀ s ∧ PlacedAt s₀ k b

theorem inv_empty : Inv [] {} where
  certain := by
    refine ⟨fun _ => none, ⟨?_, ?_⟩, fun k b _ h => nomatch h⟩
    · rintro k b ⟨q, e, hq, -⟩
      cases hq
    · rintro k k' n ⟨l, hl, -⟩
      cases hl
  exposed k b h := nomatch h
  placed k b h := nomatch h

section Recompute

variable {s s' : List Slot} {g : Group}

def leftover (s : List Slot) (g : Group) : Table Key UInt64 :=
  g.arithProvisional.filterMap (unconfirmed (chainBases s))

theorem lookup_leftover {k : Key} {b : UInt64} : (leftover s g).lookup k = some b ↔
    g.arithProvisional.lookup k = some b ∧ (chainBases s).lookup k ≠ some b := by
  unfold leftover unconfirmed
  rw [Table.lookup_filterMap, Option.bind_eq_some_iff]
  cases (chainBases s).lookup k <;> grind

/-- The group over the chain, whatever reason comes with it. -/
theorem chainGroup_eq (s : List Slot) (g : Group) : ∃ why,
    chainGroup s g = ({ g with
      bases := leftover s g ∪ chainBases s
      arithProvisional := leftover s g
      resolveStamp := some (stampOf s) }, why) ∧
    (why = none → (resolveIndexed (volsOf s)).contradiction = false) := by
  by_cases hprov : contradicts (chainBases s) g.arithProvisional = true
  · refine ⟨some "non-uniform store set", ?_, nofun⟩
    simp only [chainGroup, hprov, if_true]
    rfl
  · by_cases hchain : (resolveIndexed (volsOf s)).contradiction = true
    · refine ⟨some "inconsistent volume chain", ?_, nofun⟩
      simp only [chainGroup, hprov, hchain, if_true]
      rfl
    · refine ⟨none, ?_, fun _ => by simpa using hchain⟩
      simp only [chainGroup, hprov, hchain]
      rfl

@[simp] theorem chainGroup_bases : (chainGroup s g).1.bases = leftover s g ∪ chainBases s := by
  obtain ⟨why, heq, -⟩ := chainGroup_eq s g
  rw [heq]

@[simp] theorem chainGroup_arithProvisional :
    (chainGroup s g).1.arithProvisional = leftover s g := by
  obtain ⟨why, heq, -⟩ := chainGroup_eq s g
  rw [heq]

theorem chainGroup_clean (h : (chainGroup s g).2 = none) :
    (resolveIndexed (volsOf s)).contradiction = false := by
  obtain ⟨why, heq, hclean⟩ := chainGroup_eq s g
  rw [heq] at h
  exact hclean h

theorem placeGroup_bases (s : List Slot) (bases : List UInt64) (g : Group) :
    (placeGroup s bases g).bases = tableOf (placed s bases) := rfl

theorem recompute_cases (s : List Slot) (g : Group) :
    (∃ bases closed, gateOf s = .place bases closed ∧ recompute s g = (placeGroup s bases g, none)) ∨
      (gateOf s = .numbers ∧ g.arithProvisional ≠ ∅ ∧
        recompute s g = (g, some "non-uniform store set")) ∨
      ((gateOf s = .numbers → g.arithProvisional = ∅) ∧ recompute s g = chainGroup s g) := by
  unfold recompute
  cases hgate : gateOf s with
  | place bases closed => exact .inl ⟨bases, closed, rfl, rfl⟩
  | numbers =>
    by_cases hprov : g.arithProvisional = ∅
    · exact .inr (.inr ⟨fun _ => hprov, by simp [hprov]⟩)
    · exact .inr (.inl ⟨rfl, hprov, by simp [hprov]⟩)
  | shape => exact .inr (.inr ⟨nofun, rfl⟩)

/-- What holds an exposed base through the recompute over `s'`: the gate refuses the
numbers, the base is provisional, or the piece is held. -/
def Held (s : List Slot) (g : Group) (s' : List Slot) (k : Key) (b : UInt64) : Prop :=
  (gateOf s' = .numbers ∧ g.arithProvisional ≠ ∅) ∨ (∃ v, g.arithProvisional.lookup k = some v) ∨
    Kept s s' k b

variable (hi : Inv s g) (hd : Distinct s') (hg : Grows s s')

include hi hd hg

theorem recompute_inv (hr : (recompute s' g).2 = none) : Inv s' (recompute s' g).1 := by
  rcases recompute_cases s' g with ⟨bases, closed, hgate, heq⟩ | ⟨-, -, heq⟩ | ⟨-, heq⟩
  · obtain ⟨sc, total, d, h, hp, -⟩ := placement_of_place (resolveArithmetic_of_gateOf hgate)
    rw [heq]
    exact {
      certain := ⟨_, (metric_placed hp hd).certain, fun k b _ hb => hb⟩
      exposed := fun k b hb => lookup_beyond hp hd hb
      placed := fun k b hb => by
        obtain ⟨x, hx, hk⟩ := (lookup_placed hp hd).mp (lookup_beyond hp hd hb)
        exact ⟨s', .refl s', bases, closed, x, hgate, hx, hk⟩ }
  · rw [heq] at hr
    cases hr
  · rw [heq] at hr ⊢
    exact {
      certain := by
        refine ⟨_, certain_chainBases hd (chainGroup_clean hr), fun k b hprov hb => ?_⟩
        rw [chainGroup_arithProvisional] at hprov
        rw [chainGroup_bases, Table.lookup_union, hprov, Option.none_or] at hb
        exact hb
      exposed := fun k b hprov => by
        rw [chainGroup_arithProvisional] at hprov
        rw [chainGroup_bases, Table.lookup_union, hprov, Option.some_or]
      placed := fun k b hprov => by
        rw [chainGroup_arithProvisional, lookup_leftover] at hprov
        obtain ⟨s₀, hs₀, hplaced⟩ := hi.placed k b hprov.1
        exact ⟨s₀, hs₀.trans hg, hplaced⟩ }

theorem recompute_keeps {k : Key} {b : UInt64} (hb : g.bases.lookup k = some b)
    (hh : Held s g s' k b) : (recompute s' g).1.bases.lookup k = some b := by
  obtain ⟨c, hc, hcb⟩ := hi.certain
  rcases recompute_cases s' g with ⟨bases, closed, hgate, heq⟩ | ⟨-, -, heq⟩ | ⟨hnumbers, heq⟩
  · obtain ⟨sc, total, d, h, hp, -⟩ := placement_of_place (resolveArithmetic_of_gateOf hgate)
    rw [heq, placeGroup_bases]
    cases hprov : g.arithProvisional.lookup k with
    | some v =>
      obtain rfl : b = v := Option.some.inj (hb.symm.trans (hi.exposed k v hprov))
      obtain ⟨s₀, hs₀, hplaced⟩ := hi.placed k b hprov
      exact (lookup_placed hp hd).mpr (hplaced.grows (hs₀.trans hg) hgate)
    | none =>
      rcases hh with ⟨hnum, -⟩ | ⟨v, hv⟩ | hkept
      · rw [hgate] at hnum
        cases hnum
      · rw [hprov] at hv
        cases hv
      · exact metric_of_kept hc (metric_placed hp hd) hkept (hcb k b hprov hb)
  · rw [heq]
    exact hb
  · rw [heq, chainGroup_bases, Table.lookup_union]
    cases hprov : g.arithProvisional.lookup k with
    | some v =>
      obtain rfl : b = v := Option.some.inj (hb.symm.trans (hi.exposed k v hprov))
      by_cases hchain : (chainBases s').lookup k = some b
      · have hnone : (leftover s' g).lookup k = none := by
          rw [Option.eq_none_iff_forall_ne_some]
          intro v hv
          obtain ⟨hv, hne⟩ := lookup_leftover.mp hv
          rw [hprov] at hv
          exact hne (hv ▸ hchain)
        rw [hnone, Option.none_or, hchain]
      · rw [lookup_leftover.mpr ⟨hprov, hchain⟩, Option.some_or]
    | none =>
      have hnone : (leftover s' g).lookup k = none := by
        rw [Option.eq_none_iff_forall_ne_some]
        intro v hv
        rw [(lookup_leftover.mp hv).1] at hprov
        cases hprov
      rw [hnone, Option.none_or]
      rcases hh with ⟨hnum, hne⟩ | ⟨v, hv⟩ | hkept
      · exact absurd (hnumbers hnum) hne
      · rw [hprov] at hv
        cases hv
      · exact (lookup_chainBases hd).mpr (resolved_of_kept hd hg hc hkept (hcb k b hprov hb))

end Recompute

/-! ## Runs -/

/-- The group of a run, the slots of its last recompute, and whether it has fallen back. -/
structure World where
  slots : List Slot := []
  group : Group := {}
  demoted : Bool := false

/-- `reresolve` after a step: a group that has fallen back is left as it is. -/
def World.reresolve (w : World) (slots : List Slot) : World :=
  if w.demoted then { w with slots := slots }
  else
    let r := recompute slots w.group
    { slots := slots, group := r.1, demoted := r.2.isSome }

def run (history : List (List Slot)) : World := history.foldl World.reresolve {}

/-- The steps of a history hold the base of a piece. -/
def HeldThrough (k : Key) (b : UInt64) : World → List (List Slot) → Prop
  | _, [] => True
  | w, s :: later =>
    (w.demoted = true ∨ Held w.slots w.group s k b) ∧ HeldThrough k b (w.reresolve s) later

def World.Inv (w : World) : Prop := w.demoted = false → Rar.Inv w.slots w.group

@[simp] theorem World.reresolve_slots (w : World) (s : List Slot) : (w.reresolve s).slots = s := by
  unfold reresolve
  split <;> rfl

section Run

variable {w : World} {s : List Slot} (hi : w.Inv) (hd : Distinct s) (hg : Grows w.slots s)

include hi hd hg

theorem World.Inv.reresolve : (w.reresolve s).Inv := by
  unfold World.reresolve
  split
  case isTrue hdem =>
    intro h
    rw [hdem] at h
    cases h
  case isFalse hdem =>
    intro h
    exact recompute_inv (hi (by simpa using hdem)) hd hg (by simpa using h)

theorem reresolve_keeps {k : Key} {b : UInt64} (hb : w.group.bases.lookup k = some b)
    (hh : w.demoted = true ∨ Held w.slots w.group s k b) :
    (w.reresolve s).group.bases.lookup k = some b := by
  unfold World.reresolve
  split
  case isTrue => exact hb
  case isFalse hdem =>
    exact recompute_keeps (hi (by simpa using hdem)) hd hg hb (hh.resolve_left hdem)

end Run

def Parses (w : World) (history : List (List Slot)) : Prop :=
  List.IsChain Grows (w.slots :: history) ∧ ∀ s ∈ history, Distinct s

theorem Parses.cons {w : World} {s : List Slot} {later : List (List Slot)}
    (h : Parses w (s :: later)) : Grows w.slots s ∧ Distinct s ∧ Parses (w.reresolve s) later := by
  obtain ⟨hchain, hd⟩ := h
  rw [isChain_cons_cons] at hchain
  refine ⟨hchain.1, hd s (.head _), ?_, fun x hx => hd x (.tail _ hx)⟩
  rw [World.reresolve_slots]
  exact hchain.2

theorem Parses.append {w : World} {history later : List (List Slot)}
    (h : Parses w (history ++ later)) : Parses (history.foldl World.reresolve w) later := by
  induction history generalizing w with
  | nil => exact h
  | cons s history ih => exact ih h.cons.2.2

theorem World.Inv.foldl {w : World} (hi : w.Inv) {history later : List (List Slot)}
    (h : Parses w (history ++ later)) : (history.foldl World.reresolve w).Inv := by
  induction history generalizing w with
  | nil => exact hi
  | cons s history ih =>
    obtain ⟨hg, hd, h⟩ := h.cons
    exact ih (hi.reresolve hd hg) h

theorem foldl_keeps {w : World} (hi : w.Inv) {later : List (List Slot)} (h : Parses w later)
    {k : Key} {b : UInt64} (hb : w.group.bases.lookup k = some b) (hh : HeldThrough k b w later) :
    (later.foldl World.reresolve w).group.bases.lookup k = some b := by
  induction later generalizing w with
  | nil => exact hb
  | cons s later ih =>
    obtain ⟨hg, hd, h⟩ := h.cons
    exact ih (hi.reresolve hd hg) h (reresolve_keeps hi hd hg hb hh.1) hh.2

/-- An exposed base stays, value and presence, through every step that holds it, the
one that demotes the group among them. -/
theorem exposed_base_stays (history later : List (List Slot)) (h : Parses {} (history ++ later))
    (k : Key) (b : UInt64) (hb : (run history).group.bases.lookup k = some b)
    (hh : HeldThrough k b (run history) later) :
    (run (history ++ later)).group.bases.lookup k = some b := by
  have hinv : World.Inv {} := fun _ => inv_empty
  unfold run
  rw [foldl_append]
  exact foldl_keeps (hinv.foldl h) h.append hb hh

/-! ### A split set without volume numbers -/

/-- One of three volumes of a file of 30 bytes. -/
def sampleSlot (id : Nat) (name : String) (before after : Bool) (len : UInt64) : Slot where
  id := id
  name := name.toList
  mapper :=
    { version := some .v4
      entries := [{
        name := "a"
        unpackedSize := 30
        splitBefore := before
        splitAfter := after
        dataOff := 64
        dataLen := len }]
      blocker := none
      volumeNumber := none
      volumeNumberLen := none }

def sampleHead : Slot := sampleSlot 0 "x.part1.rar" false true 15
def sampleMiddle : Slot := sampleSlot 1 "x.part2.rar" true true 10
def sampleTail : Slot := sampleSlot 2 "x.part3.rar" true false 10

theorem grows_extended {s s' : List Slot} (h : s <+: s') : Grows s s' := fun x hx =>
  ⟨x, h.subset hx, rfl, rfl, .refl _⟩

/-- The middle piece keeps its base when the tail joins. -/
theorem exposed_base_stays_sample :
    (run ([[sampleHead, sampleMiddle]] ++
      [[sampleHead, sampleMiddle, sampleTail]])).group.bases.lookup (1, 0) = some 15 := by
  have hlink : (links (volsOf [sampleHead, sampleMiddle]))[0]? = some ⟨(0, 0), (1, 0), 15⟩ := rfl
  have hlink' : (links (volsOf [sampleHead, sampleMiddle, sampleTail]))[0]? =
      some ⟨(0, 0), (1, 0), 15⟩ := rfl
  refine exposed_base_stays [[sampleHead, sampleMiddle]] _ ⟨?_, ?_⟩ (1, 0) 15 (by decide)
    ⟨.inr (.inr (.inr ?_)), trivial⟩
  · refine .cons_cons (grows_extended nil_prefix) (.cons_cons (grows_extended ?_) (.singleton _))
    exact ⟨[sampleTail], rfl⟩
  · intro s hs
    rcases mem_cons.mp hs with rfl | hs
    · show List.Nodup _
      decide
    · rw [mem_singleton.mp hs]
      show List.Nodup _
      decide
  · refine Or.inl ⟨(0, 0), 0, ⟨(0, 0), _, rfl, rfl, rfl⟩, ⟨(0, 0), _, rfl, rfl, rfl⟩, ?_⟩
    refine .single ⟨15, ⟨_, mem_of_getElem? hlink, rfl, rfl, rfl⟩, ?_⟩
    exact ⟨_, mem_of_getElem? hlink', rfl, rfl, rfl⟩

/-- The tail anchors the middle piece at 10, and the head joins with a length that
puts it at 15: the base moves in the recompute that demotes the group. -/
theorem exposed_base_moves :
    Parses {} [[sampleTail], [sampleTail, sampleMiddle], [sampleTail, sampleMiddle, sampleHead]] ∧
      (run [[sampleTail], [sampleTail, sampleMiddle]]).group.bases.lookup (1, 0) = some 10 ∧
      (run [[sampleTail], [sampleTail, sampleMiddle],
        [sampleTail, sampleMiddle, sampleHead]]).group.bases.lookup (1, 0) = some 15 ∧
      (run [[sampleTail], [sampleTail, sampleMiddle],
        [sampleTail, sampleMiddle, sampleHead]]).demoted = true := by
  refine ⟨⟨?_, ?_⟩, by decide, by decide, by decide⟩
  · refine .cons_cons (grows_extended nil_prefix) (.cons_cons (grows_extended ?_)
      (.cons_cons (grows_extended ?_) (.singleton _)))
    · exact ⟨[sampleMiddle], rfl⟩
    · exact ⟨[sampleHead], rfl⟩
  · intro s hs
    simp only [mem_cons, not_mem_nil, or_false] at hs
    rcases hs with rfl | rfl | rfl
    · show List.Nodup _
      decide
    · show List.Nodup _
      decide
    · show List.Nodup _
      decide

end NzbFast.Rar
