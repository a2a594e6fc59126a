import NzbFast.Rar.Volume

/-!
# Piece offsets of a split set

`ArchiveMap::resolve_indexed`: seeds, links between neighbouring volumes, and
the sweeps over the links. Every pass ends with a backward sweep, and a backward
sweep visits a link after all links that could still change its later end; so
whatever the last pass leaves is settled (`Settled`), contradiction or not.
-/

namespace NzbFast.Rar

open NzbFast.Rust Fold List

/-- A piece: the position of its volume in the list, and of the entry in the volume. -/
abbrev Key := Nat × Nat

/-- The volumes handed to `resolve_indexed`, each with its index. -/
abbrev Vols := List (UInt64 × Mapped)

structure ArchiveMap where
  bases : Table Key UInt64 := ∅
  contradiction : Bool := false

/-- May this piece's base be derived from `unpacked_size - data_len`? -/
def tailAnchorable (e : FileEntry) : Bool :=
  e.method == .store && !e.encrypted && e.crypt.isNone && !e.sizeUnknown && !e.isDir &&
    e.dataLen ≤ e.unpackedSize

/-! ## Seeds -/

/-- The base a piece has by its own header. -/
def seed (e : FileEntry) : Option UInt64 :=
  if e.isDir then none
  else if !e.splitBefore then some 0
  else if !e.splitAfter && tailAnchorable e then checkedSub e.unpackedSize e.dataLen
  else none

/-- The entries in the order the seed loop visits them. -/
def pieces (vols : Vols) : List (Key × FileEntry) :=
  vols.zipIdx.flatMap fun v => v.1.2.entries.zipIdx.map fun e => ((v.2, e.2), e.1)

def plant (t : Table Key UInt64) (p : Key × FileEntry) : Table Key UInt64 :=
  match seed p.2 with
  | some b => t.insert p.1 b
  | none => t

def seeds (vols : Vols) : Table Key UInt64 := (pieces vols).foldl plant ∅

/-! ## Links -/

/-- Two adjacent pieces of one inner file, and the length of the earlier one. -/
structure Link where
  a : Key
  b : Key
  len : UInt64

def carries (name : String) (e : FileEntry) : Bool := !e.isDir && e.name == name

def once (m : Mapped) (name : String) : Bool := (m.entries.filter (carries name)).length == 1

/-- The link of one entry of volume `i` into the next volume. -/
def linkOf (i : Nat) (ma mb : Mapped) (ea : FileEntry × Nat) : Option Link :=
  if ea.1.isDir || !ea.1.splitAfter || !once ma ea.1.name then none
  else
    match mb.entries.zipIdx.find? fun x => carries ea.1.name x.1 with
    | none => none
    | some eb =>
      if !eb.1.splitBefore || !once mb ea.1.name then none
      else some ⟨(i, ea.2), (i + 1, eb.2), ea.1.dataLen⟩

/-- The links of the volume at position `i` into the one after it. -/
def linksAt (vols : Vols) (i : Nat) : List Link :=
  match vols[i]?, vols[i + 1]? with
  | some va, some vb =>
    if vb.1 = va.1 + 1 then va.2.entries.zipIdx.filterMap (linkOf i va.2 vb.2) else []
  | _, _ => []

def links (vols : Vols) : List Link := (List.range (vols.length - 1)).flatMap (linksAt vols)

/-! ## Sweeps -/

structure Sweep extends ArchiveMap where
  changed : Bool := false

namespace Sweep

def step (s : Sweep) (source : Option UInt64) (k : Key) : Sweep :=
  match source with
  | none => s
  | some want =>
    match s.bases.lookup k with
    | none => { s with bases := s.bases.insert k want, changed := true }
    | some held => if held = want then s else { s with contradiction := true }

def forward (s : Sweep) (l : Link) : Sweep :=
  s.step ((s.bases.lookup l.a).bind (checkedAdd · l.len)) l.b

def backward (s : Sweep) (l : Link) : Sweep :=
  match s.bases.lookup l.b with
  | none => s
  | some b =>
    match checkedSub b l.len with
    | some want => s.step (some want) l.a
    | none => { s with contradiction := true }

end Sweep

def pass (ls : List Link) (m : ArchiveMap) : Sweep :=
  ls.reverse.foldl Sweep.backward (ls.foldl Sweep.forward { m with changed := false })

/-- At most `n` rounds, until one changes nothing. -/
def propagate (ls : List Link) : Nat → ArchiveMap → ArchiveMap
  | 0, m => m
  | n + 1, m =>
    let s := pass ls m
    if s.changed then propagate ls n s.toArchiveMap else s.toArchiveMap

def resolveIndexed (vols : Vols) : ArchiveMap :=
  propagate (links vols) (max vols.length 1) { bases := seeds vols }

/-! ## What the seeds and the links are -/

def entryAt (vols : Vols) (k : Key) : Option FileEntry :=
  vols[k.1]?.bind fun v => v.2.entries[k.2]?

theorem mem_pieces {vols : Vols} {k : Key} {e : FileEntry} :
    (k, e) ∈ pieces vols ↔ entryAt vols k = some e := by
  obtain ⟨pos, ei⟩ := k
  simp only [pieces, entryAt, mem_flatMap, mem_map, Prod.exists, Prod.mk.injEq,
    mem_zipIdx_iff_getElem?, Option.bind_eq_some_iff]
  constructor
  · rintro ⟨idx, m, p, hv, e', i, he, ⟨rfl, rfl⟩, rfl⟩
    exact ⟨idx, m, hv, he⟩
  · rintro ⟨idx, m, hv, he⟩
    exact ⟨idx, m, pos, hv, e, ei, he, ⟨rfl, rfl⟩, rfl⟩

theorem lookup_plant (t : Table Key UInt64) (p : Key × FileEntry) (k : Key) :
    (plant t p).lookup k = if p.1 = k then (seed p.2).or (t.lookup k) else t.lookup k := by
  unfold plant
  cases hs : seed p.2 with
  | none => simp
  | some b =>
    simp only [Table.lookup_insert_eq_ite, Option.some_or]
    grind

theorem lookup_foldl_plant {f : Key → Option FileEntry} (l : List (Key × FileEntry))
    (hl : ∀ p ∈ l, f p.1 = some p.2) (t : Table Key UInt64) (k : Key) :
    (l.foldl plant t).lookup k =
      ((l.find? (·.1 = k)).bind fun p => seed p.2).or (t.lookup k) := by
  induction l generalizing t with
  | nil => simp
  | cons p l ih =>
    rw [foldl_cons, ih fun q hq => hl q (.tail _ hq), lookup_plant,
      find?_cons]
    by_cases hk : p.1 = k
    · simp only [hk, if_true, decide_true, Option.bind_some]
      cases hfind : l.find? (·.1 = k) with
      | none => simp
      | some q =>
        -- a later entry under the same key is the same entry
        have hq := hl q (.tail _ (mem_of_find?_eq_some hfind))
        have hqk : q.1 = k := by simpa using find?_some hfind
        have hp := hl p (.head _)
        rw [hqk] at hq
        rw [hk, hq, Option.some.injEq] at hp
        rw [Option.bind_some, hp]
        cases seed p.2 <;> simp
    · simp only [hk, if_false, decide_false]

theorem lookup_seeds (vols : Vols) (k : Key) :
    (seeds vols).lookup k = (entryAt vols k).bind seed := by
  have hfun : ∀ p ∈ pieces vols, entryAt vols p.1 = some p.2 := fun p hp => mem_pieces.mp hp
  rw [seeds, lookup_foldl_plant _ hfun, Finmap.lookup_empty, Option.or_none]
  cases hfind : (pieces vols).find? (·.1 = k) with
  | some q =>
    have hq := hfun q (mem_of_find?_eq_some hfind)
    have hqk : q.1 = k := by simpa using find?_some hfind
    rw [← hqk, hq, Option.bind_some, Option.bind_some]
  | none =>
    cases he : entryAt vols k with
    | none => rfl
    | some e =>
      have := find?_eq_none.mp hfind (k, e) (mem_pieces.mpr he)
      simp at this

/-- Two pieces the code takes for neighbours. -/
structure Linked (vols : Vols) (l : Link) (ea eb : FileEntry) : Prop where
  succ : l.b.1 = l.a.1 + 1
  adjacent : ∃ va vb, vols[l.a.1]? = some va ∧ vols[l.b.1]? = some vb ∧ vb.1 = va.1 + 1
  entry_a : entryAt vols l.a = some ea
  entry_b : entryAt vols l.b = some eb
  name : ea.name = eb.name
  file_a : ea.isDir = false
  file_b : eb.isDir = false
  split_after : ea.splitAfter = true
  split_before : eb.splitBefore = true
  len : l.len = ea.dataLen

theorem linkOf_eq_some {i : Nat} {ma mb : Mapped} {ea : FileEntry × Nat} {l : Link}
    (h : linkOf i ma mb ea = some l) : ea.1.isDir = false ∧ ea.1.splitAfter = true ∧
    ∃ eb : FileEntry × Nat, mb.entries[eb.2]? = some eb.1 ∧ carries ea.1.name eb.1 = true ∧
      eb.1.splitBefore = true ∧ l = ⟨(i, ea.2), (i + 1, eb.2), ea.1.dataLen⟩ := by
  unfold linkOf at h
  split at h
  case isTrue => cases h
  case isFalse hea =>
    simp only [Bool.or_eq_true, not_or, Bool.not_eq_true, Bool.not_eq_false_eq_eq_true] at hea
    split at h
    case h_1 => cases h
    case h_2 eb hfind =>
      split at h
      case isTrue => cases h
      case isFalse heb =>
        simp only [Bool.or_eq_true, not_or, Bool.not_eq_true] at heb
        refine ⟨hea.1.1, by simpa using hea.1.2, eb, ?_, by simpa using find?_some hfind, by simpa using heb.1,
          (Option.some.inj h).symm⟩
        exact mem_zipIdx_iff_getElem?.mp (mem_of_find?_eq_some hfind)

theorem mem_linksAt {vols : Vols} {i : Nat} {l : Link} (h : l ∈ linksAt vols i) :
    l.a.1 = i ∧ ∃ ea eb, Linked vols l ea eb := by
  unfold linksAt at h
  split at h
  case h_2 => cases h
  case h_1 va vb ha hb =>
    split at h
    case isFalse => cases h
    case isTrue hadj =>
      rw [mem_filterMap] at h
      obtain ⟨ea, hmem, hl⟩ := h
      obtain ⟨hdir, hafter, eb, heb, hcarries, hbefore, rfl⟩ := linkOf_eq_some hl
      simp only [carries, Bool.and_eq_true, Bool.not_eq_true', beq_iff_eq] at hcarries
      refine ⟨rfl, ea.1, eb.1, ?_⟩
      exact {
        succ := rfl
        adjacent := ⟨va, vb, ha, hb, hadj⟩
        entry_a := by
          rw [entryAt, ha]
          exact mem_zipIdx_iff_getElem?.mp hmem
        entry_b := by rw [entryAt, hb]; exact heb
        name := hcarries.2.symm
        file_a := hdir
        file_b := hcarries.1
        split_after := hafter
        split_before := hbefore
        len := rfl }

theorem linked_of_mem {vols : Vols} {l : Link} (h : l ∈ links vols) :
    ∃ ea eb, Linked vols l ea eb := by
  rw [links, mem_flatMap] at h
  obtain ⟨i, -, hl⟩ := h
  exact (mem_linksAt hl).2

/-- The links come in the order of their volumes. -/
theorem links_sorted (vols : Vols) : (links vols).Pairwise fun l l' => l.a.1 ≤ l'.a.1 := by
  rw [links, pairwise_flatMap]
  constructor
  · intro i _
    refine pairwise_of_forall_mem_list ?_
    intro l hl l' hl'
    rw [(mem_linksAt hl).1, (mem_linksAt hl').1]
  · refine pairwise_lt_range.imp ?_
    intro i j hij l hl l' hl'
    rw [(mem_linksAt hl).1, (mem_linksAt hl').1]
    exact hij.le

/-! ## One visit of a link -/

namespace Sweep

/-- What a later state keeps of an earlier one: every base, and a contradiction once seen. -/
structure Extends (s t : Sweep) : Prop where
  base : ∀ {k b}, s.bases.lookup k = some b → t.bases.lookup k = some b
  clean : t.contradiction = false → s.contradiction = false

theorem Extends.refl (s : Sweep) : Extends s s := ⟨id, id⟩

theorem Extends.trans {s t u : Sweep} (h : Extends s t) (h' : Extends t u) : Extends s u :=
  ⟨fun hk => h'.base (h.base hk), fun hc => h.clean (h'.clean hc)⟩

theorem step_extends (s : Sweep) (source : Option UInt64) (k : Key) :
    Extends s (s.step source k) := by
  unfold step
  split
  case h_1 => exact .refl s
  case h_2 want =>
    split
    case h_1 hk =>
      refine ⟨fun {j b} hj => ?_, id⟩
      have hne : j ≠ k := fun h => by rw [h, hk] at hj; cases hj
      rw [Finmap.lookup_insert_of_ne _ hne, hj]
    case h_2 held hk =>
      split
      case isTrue => exact .refl s
      case isFalse => exact ⟨id, nofun⟩

/-- The other pieces keep what they have, base or none. -/
theorem step_frame (s : Sweep) (source : Option UInt64) {j k : Key} (h : j ≠ k) :
    (s.step source k).bases.lookup j = s.bases.lookup j := by
  unfold step
  split
  case h_1 => rfl
  case h_2 want =>
    split
    case h_1 => exact Finmap.lookup_insert_of_ne _ h
    case h_2 => split <;> rfl

/-- Where the step finds no contradiction, the piece has the base it was given. -/
theorem step_settles {s : Sweep} {want : UInt64} {k : Key}
    (h : (s.step (some want) k).contradiction = false) :
    (s.step (some want) k).bases.lookup k = some want := by
  simp only [step] at h ⊢
  split at h
  case h_1 => exact Finmap.lookup_insert _
  case h_2 held hk =>
    split at h
    case isTrue heq => rw [if_pos heq, hk, heq]
    case isFalse => cases h

theorem forward_extends (s : Sweep) (l : Link) : Extends s (s.forward l) := step_extends s _ _

theorem backward_extends (s : Sweep) (l : Link) : Extends s (s.backward l) := by
  unfold backward
  split
  case h_1 => exact .refl s
  case h_2 b hb =>
    split
    case h_1 want _ => exact step_extends s _ _
    case h_2 => exact ⟨id, nofun⟩

theorem backward_frame (s : Sweep) (l : Link) {j : Key} (h : j ≠ l.a) :
    (s.backward l).bases.lookup j = s.bases.lookup j := by
  unfold backward
  split
  case h_1 => rfl
  case h_2 b hb =>
    split
    case h_1 want _ => exact step_frame s _ h
    case h_2 => rfl

theorem foldl_extends {f : Sweep → Link → Sweep} (hf : ∀ s l, Extends s (f s l)) (ls : List Link)
    (s : Sweep) : Extends s (ls.foldl f s) := by
  induction ls generalizing s with
  | nil => exact .refl s
  | cons l ls ih => exact (hf s l).trans (ih _)

theorem foldl_frame {f : Sweep → Link → Sweep} {end? : Link → Key}
    (hf : ∀ s l j, j ≠ end? l → (f s l).bases.lookup j = s.bases.lookup j) {ls : List Link}
    {j : Key} (hj : ∀ l ∈ ls, j ≠ end? l) (s : Sweep) :
    (ls.foldl f s).bases.lookup j = s.bases.lookup j := by
  induction ls generalizing s with
  | nil => rfl
  | cons l ls ih =>
    rw [foldl_cons, ih fun l' h => hj l' (.tail _ h),
      hf s l j (hj l (.head _))]

end Sweep

/-! ## Whole sweeps -/

open Sweep

/-- After a forward sweep, a piece with a base has passed it on. -/
theorem foldl_forward {ls : List Link} (hord : ls.Pairwise fun l l' => l.a ≠ l'.b)
    (hne : ∀ l ∈ ls, l.a ≠ l.b) {s : Sweep} (hc : (ls.foldl forward s).contradiction = false)
    {l : Link} (hl : l ∈ ls) {x z : UInt64} (hx : (ls.foldl forward s).bases.lookup l.a = some x)
    (hz : checkedAdd x l.len = some z) : (ls.foldl forward s).bases.lookup l.b = some z := by
  induction ls generalizing s with
  | nil => cases hl
  | cons l' ls ih =>
    obtain ⟨hhead, htail⟩ := pairwise_cons.mp hord
    rw [foldl_cons] at hc hx ⊢
    rcases mem_cons.mp hl with rfl | hmem
    · -- no later link ends in `l.a`, so its base is the one this visit read
      have hframe : ∀ t : Sweep, (ls.foldl forward t).bases.lookup l.a = t.bases.lookup l.a :=
        foldl_frame (fun s l j hj => step_frame s _ hj) hhead
      have hread : s.bases.lookup l.a = some x := by
        rw [hframe, forward, step_frame _ _ (hne l (.head _))] at hx
        exact hx
      have hext := foldl_extends forward_extends ls (s.forward l)
      have hstep : s.forward l = s.step (some z) l.b := by
        rw [forward, hread, Option.bind_some, hz]
      rw [hstep] at hext ⊢
      exact hext.base (step_settles (hext.clean (hstep ▸ hc)))
    · exact ih htail (fun m hm => hne m (.tail _ hm)) hc hmem hx

/-- Where a sweep has settled: the earlier end of a link has the base that its later end implies. -/
def Settled (ls : List Link) (m : ArchiveMap) : Prop :=
  ∀ l ∈ ls, ∀ y, m.bases.lookup l.b = some y → ∃ x, m.bases.lookup l.a = some x ∧
    x.toNat + l.len.toNat = y.toNat

theorem settled_foldl_backward {ls : List Link} (hord : ls.Pairwise fun l l' => l.b ≠ l'.a)
    (hne : ∀ l ∈ ls, l.a ≠ l.b) {s : Sweep} (hc : (ls.foldl backward s).contradiction = false) :
    Settled ls (ls.foldl backward s).toArchiveMap := by
  induction ls generalizing s with
  | nil => exact fun l hl => nomatch hl
  | cons l' ls ih =>
    obtain ⟨hhead, htail⟩ := pairwise_cons.mp hord
    rw [foldl_cons] at hc ⊢
    intro l hl y hy
    rcases mem_cons.mp hl with rfl | hmem
    · have hread : s.bases.lookup l.b = some y := by
        rw [foldl_frame backward_frame hhead, backward_frame _ _ (hne l (.head _)).symm] at hy
        exact hy
      have hext := foldl_extends backward_extends ls (s.backward l)
      have hclean := hext.clean hc
      simp only [backward, hread] at hclean hext
      split at hclean
      case h_2 => cases hclean
      case h_1 want hwant =>
        simp only [hwant] at hext
        refine ⟨want, ?_, checkedSub_eq_some.mp hwant⟩
        rw [show s.backward l = s.step (some want) l.a by simp only [backward, hread, hwant]]
        exact hext.base (step_settles hclean)
    · exact ih htail (fun m hm => hne m (.tail _ hm)) hc l hmem y hy

theorem linked_ends_ne {vols : Vols} : ∀ l ∈ links vols, l.a ≠ l.b := by
  intro l hl h
  obtain ⟨_, _, hlinked⟩ := linked_of_mem hl
  have := hlinked.succ
  rw [h] at this
  omega

theorem links_forward_order (vols : Vols) : (links vols).Pairwise fun l l' => l.a ≠ l'.b := by
  refine (links_sorted vols).imp_of_mem ?_
  intro l l' _ hl' hle h
  obtain ⟨_, _, hlinked⟩ := linked_of_mem hl'
  have := hlinked.succ
  rw [← h] at this
  omega

theorem links_backward_order (vols : Vols) :
    (links vols).reverse.Pairwise fun l l' => l.b ≠ l'.a := by
  rw [pairwise_reverse]
  refine (links_sorted vols).imp_of_mem ?_
  intro l l' _ hl' hle h
  obtain ⟨_, _, hlinked⟩ := linked_of_mem hl'
  have := hlinked.succ
  rw [h] at this
  omega

theorem settled_pass (vols : Vols) (m : ArchiveMap)
    (hc : (pass (links vols) m).contradiction = false) :
    Settled (links vols) (pass (links vols) m).toArchiveMap := fun l hl =>
  settled_foldl_backward (links_backward_order vols)
    (fun l hl => linked_ends_ne l (mem_reverse.mp hl)) hc l (mem_reverse.mpr hl)

theorem pass_extends (ls : List Link) (m : ArchiveMap) :
    Extends { m with changed := false } (pass ls m) :=
  (foldl_extends forward_extends ls _).trans (foldl_extends backward_extends ls.reverse _)

theorem propagate_cases (ls : List Link) {n : Nat} (hn : 0 < n) (m : ArchiveMap) :
    ∃ m', Extends { m with changed := false } { m' with changed := false } ∧
      propagate ls n m = (pass ls m').toArchiveMap := by
  induction n generalizing m with
  | zero => omega
  | succ n ih =>
    simp only [propagate]
    split
    case isFalse => exact ⟨m, .refl _, rfl⟩
    case isTrue =>
      have hpass := pass_extends ls m
      rcases Nat.eq_zero_or_pos n with rfl | hpos
      · exact ⟨m, .refl _, rfl⟩
      · obtain ⟨m', hext, heq⟩ := ih hpos (pass ls m).toArchiveMap
        exact ⟨m', ⟨fun hk => hext.base (hpass.base hk), fun hc => hpass.clean (hext.clean hc)⟩, heq⟩

theorem resolveIndexed_cases (vols : Vols) : ∃ m,
    Extends { bases := seeds vols } { m with changed := false } ∧
      resolveIndexed vols = (pass (links vols) m).toArchiveMap :=
  propagate_cases (links vols) (by omega) _

/-! ## Potentials -/

/-- The bases are those of `φ`, and no contradiction shows. -/
def Agrees (φ : Key → Option UInt64) (m : ArchiveMap) : Prop :=
  m.contradiction = false ∧ ∀ k b, m.bases.lookup k = some b → φ k = some b

/-- Along the link `φ` grows by the length of the earlier piece. -/
def Respects (φ : Key → Option UInt64) (l : Link) : Prop :=
  ∃ x y, φ l.a = some x ∧ φ l.b = some y ∧ x.toNat + l.len.toNat = y.toNat

theorem agrees_step {φ : Key → Option UInt64} {s : Sweep} (h : Agrees φ s.toArchiveMap)
    {source : Option UInt64} {k : Key} (hs : ∀ want, source = some want → φ k = some want) :
    Agrees φ (s.step source k).toArchiveMap := by
  unfold step
  split
  case h_1 => exact h
  case h_2 want =>
    have hwant := hs want rfl
    split
    case h_1 =>
      refine ⟨h.1, fun j b hj => ?_⟩
      rw [Table.lookup_insert_eq_ite] at hj
      split at hj
      case isTrue hjk => rw [hjk, hwant, hj]
      case isFalse => exact h.2 j b hj
    case h_2 held hk =>
      have hheld : held = want := Option.some.inj ((h.2 k held hk).symm.trans hwant)
      rw [if_pos hheld]
      exact h

theorem agrees_foldl {φ : Key → Option UInt64} {f : Sweep → Link → Sweep} {ls : List Link}
    (hf : ∀ l ∈ ls, ∀ s : Sweep, Agrees φ s.toArchiveMap → Agrees φ (f s l).toArchiveMap)
    {s : Sweep} (h : Agrees φ s.toArchiveMap) : Agrees φ (ls.foldl f s).toArchiveMap := by
  induction ls generalizing s with
  | nil => exact h
  | cons l ls ih =>
    exact ih (fun m hm => hf m (.tail _ hm)) (hf l (.head _) s h)

section Potential

variable {φ : Key → Option UInt64}

theorem agrees_forward {l : Link} (hl : Respects φ l) (s : Sweep) (h : Agrees φ s.toArchiveMap) :
    Agrees φ (s.forward l).toArchiveMap := by
  obtain ⟨x, y, hx, hy, hsum⟩ := hl
  refine agrees_step h fun want hwant => ?_
  obtain ⟨x', hx', hadd⟩ := Option.bind_eq_some_iff.mp hwant
  have hxx : x = x' := Option.some.inj (hx.symm.trans (h.2 _ _ hx'))
  rw [← hxx, checkedAdd_eq_some.mpr hsum] at hadd
  rw [hy, hadd]

theorem agrees_backward {l : Link} (hl : Respects φ l) (s : Sweep) (h : Agrees φ s.toArchiveMap) :
    Agrees φ (s.backward l).toArchiveMap := by
  obtain ⟨x, y, hx, hy, hsum⟩ := hl
  unfold backward
  split
  case h_1 => exact h
  case h_2 b hb =>
    have hyb : y = b := Option.some.inj (hy.symm.trans (h.2 _ _ hb))
    rw [← hyb, checkedSub_eq_some.mpr hsum]
    refine agrees_step h fun want hwant => ?_
    rw [hx, hwant]

variable {ls : List Link} (hφ : ∀ l ∈ ls, Respects φ l)

include hφ

theorem agrees_pass {m : ArchiveMap} (h : Agrees φ m) : Agrees φ (pass ls m).toArchiveMap :=
  agrees_foldl (fun l hl => agrees_backward (hφ l (mem_reverse.mp hl)))
    (agrees_foldl (fun l hl => agrees_forward (hφ l hl)) h)

theorem agrees_propagate {m : ArchiveMap} (h : Agrees φ m) (n : Nat) :
    Agrees φ (propagate ls n m) := by
  induction n generalizing m with
  | zero => exact h
  | succ n ih =>
    simp only [propagate]
    split
    case isTrue => exact ih (agrees_pass hφ h)
    case isFalse => exact agrees_pass hφ h

end Potential

/-- Where seeds and links agree with a potential, so does every base. -/
theorem agrees_resolveIndexed {φ : Key → Option UInt64} {vols : Vols}
    (hseed : ∀ k e b, entryAt vols k = some e → seed e = some b → φ k = some b)
    (hlink : ∀ l ∈ links vols, Respects φ l) : Agrees φ (resolveIndexed vols) := by
  refine agrees_propagate hlink ⟨rfl, fun k b hb => ?_⟩ _
  rw [lookup_seeds, Option.bind_eq_some_iff] at hb
  obtain ⟨e, he, hb⟩ := hb
  exact hseed k e b he hb

end NzbFast.Rar
