import NzbFast.Live.Containers
import NzbFast.Wire.Crc

/-!
# Fragment CRCs compose to the block's

A block can be held as one CRC32 per run of fragments, and fragments come in any order.
`Digested` says that runs keep apart and carry the CRC32 of their whole ranges over a
content; a fragment joins the runs behind it, then the run in front of it, and the runs
stay digested over the content with the fragment.

* `CrcParts.Inv.insert_eq_none`: which fragments are refused.
* `CrcParts.Inv.insert`: an accepted fragment, whichever neighbours it joins.
* `parts_compose`: any sequence of fragments, and any order of a tiling.

`combine` is a parameter: `crc32_combine` of the vendored code, of which only that it
gives the CRC32 of a concatenation is used.
-/

namespace NzbFast.Live

open Wire Store
open Option hiding or_assoc
open List hiding Disjoint not_le

/-- A fragment of a block with its bytes. -/
structure Fragment where
  start : Nat
  bytes : List UInt8
  deriving DecidableEq

namespace Fragment

def stop (f : Fragment) : Nat := f.start + f.bytes.length

def Has (f : Fragment) (k : Nat) : Prop := f.start ≤ k ∧ k < f.stop

instance (f : Fragment) (k : Nat) : Decidable (f.Has k) := inferInstanceAs (Decidable (_ ∧ _))

/-- The byte at `k` of the first of the fragments that has it. -/
def content (fs : List Fragment) (k : Nat) : UInt8 :=
  match fs.find? fun f => decide (f.Has k) with
  | some f => f.bytes.getD (k - f.start) 0
  | none => 0

def Disjoint (fs : List Fragment) : Prop := fs.Pairwise fun f g => ∀ k, f.Has k → ¬ g.Has k

theorem content_append {fs gs : List Fragment} {k : Nat} (h : ∃ f ∈ fs, f.Has k) :
    content (fs ++ gs) k = content fs k := by
  obtain ⟨f, hf, hk⟩ := h
  unfold content
  have hsome : (fs.find? fun f => decide (f.Has k)).isSome :=
    find?_isSome.mpr ⟨f, hf, decide_eq_true hk⟩
  rw [find?_append, or_of_isSome hsome]

theorem content_of_mem {fs : List Fragment} (h : Disjoint fs) {f : Fragment} (hf : f ∈ fs) {k : Nat}
    (hk : f.Has k) : content fs k = f.bytes.getD (k - f.start) 0 := by
  have hsome : (fs.find? fun f => decide (f.Has k)).isSome :=
    find?_isSome.mpr ⟨f, hf, decide_eq_true hk⟩
  obtain ⟨g, hg⟩ := isSome_iff_exists.mp hsome
  rw [content, hg]
  have hgk : g.Has k := by simpa using find?_some hg
  have hgm := mem_of_find?_eq_some hg
  have hfg : f = g := by
    by_contra hne
    exact @List.Pairwise.forall _ _ _ ⟨fun a b hab j hb ha => hab j ha hb⟩ h f hf g hgm hne k hk hgk
  rw [hfg]

end Fragment

/-- The bytes `s..e`. -/
def sliceOf (content : Nat → UInt8) (s e : Nat) : List UInt8 := (List.range' s (e - s)).map content

@[simp] theorem length_sliceOf (content : Nat → UInt8) (s e : Nat) :
    (sliceOf content s e).length = e - s := by simp [sliceOf]

theorem sliceOf_append (content : Nat → UInt8) {s m e : Nat} (h1 : s ≤ m) (h2 : m ≤ e) :
    sliceOf content s m ++ sliceOf content m e = sliceOf content s e := by
  unfold sliceOf
  rw [← map_append, show e - s = (m - s) + (e - m) by omega, ← range'_append_1,
    show s + (m - s) = m by omega]

theorem sliceOf_congr {f g : Nat → UInt8} {s e : Nat} (h : ∀ k, s ≤ k → k < e → f k = g k) :
    sliceOf f s e = sliceOf g s e := by
  refine map_congr_left fun k hk => ?_
  obtain ⟨hlo, hhi⟩ := mem_range'_1.mp hk
  exact h k hlo (by omega)

/-- A fragment's own bytes are those of its range. -/
theorem Fragment.sliceOf_content {fs : List Fragment} (h : Disjoint fs) {f : Fragment} (hf : f ∈ fs) :
    sliceOf (content fs) f.start f.stop = f.bytes := by
  refine ext_getElem (by simp [stop]) fun i hi hi' => ?_
  simp only [sliceOf, getElem_map, getElem_range', one_mul]
  rw [content_of_mem h hf ⟨by omega, by simp only [stop]; omega⟩, Nat.add_sub_cancel_left,
    getD_eq_getElem?_getD, getElem?_eq_getElem hi', getD_some]

/-! ## Runs with their CRCs -/

def Held (r : Runs (Nat × Nat)) (k : Nat) : Prop := ∃ x ∈ r, x.1 ≤ k ∧ k < x.2.1

theorem held_nil (k : Nat) : ¬ Held [] k := by
  rintro ⟨x, hx, -⟩
  exact not_mem_nil hx

theorem held_cons {x : Nat × Nat × Nat} {r : Runs (Nat × Nat)} {k : Nat} :
    Held (x :: r) k ↔ (x.1 ≤ k ∧ k < x.2.1) ∨ Held r k := by
  simp [Held]

theorem held_append {a b : Runs (Nat × Nat)} {k : Nat} : Held (a ++ b) k ↔ Held a k ∨ Held b k := by
  simp [Held, or_and_right, exists_or]

/-- Runs that keep apart, each with the CRC32 of its range. -/
structure Digested (content : Nat → UInt8) (r : Runs (Nat × Nat)) : Prop where
  pos : ∀ x ∈ r, x.1 < x.2.1
  gap : r.Pairwise fun x y => x.2.1 < y.1
  crc : ∀ x ∈ r, x.2.2 = crc32 (sliceOf content x.1 x.2.1)

namespace Digested

variable {content : Nat → UInt8}

theorem nil : Digested content [] :=
  ⟨fun _ h => absurd h not_mem_nil, .nil, fun _ h => absurd h not_mem_nil⟩

theorem ordered {r : Runs (Nat × Nat)} (h : Digested content r) : r.Ordered := by
  have := h.gap.imp_of_mem (S := fun x y => x.1 < y.1) fun {x y} hx _ hxy =>
    lt_trans (h.pos x hx) hxy
  exact this

variable {a b : Runs (Nat × Nat)}

theorem left (h : Digested content (a ++ b)) : Digested content a :=
  ⟨fun x hx => h.pos x (mem_append_left b hx), (pairwise_append.mp h.gap).1,
    fun x hx => h.crc x (mem_append_left b hx)⟩

theorem right (h : Digested content (a ++ b)) : Digested content b :=
  ⟨fun x hx => h.pos x (mem_append_right a hx), (pairwise_append.mp h.gap).2.1,
    fun x hx => h.crc x (mem_append_right a hx)⟩

theorem append (ha : Digested content a) (hb : Digested content b)
    (hab : ∀ x ∈ a, ∀ y ∈ b, x.2.1 < y.1) : Digested content (a ++ b) where
  pos x hx := (mem_append.mp hx).elim (ha.pos x) (hb.pos x)
  gap := pairwise_append.mpr ⟨ha.gap, hb.gap, hab⟩
  crc x hx := (mem_append.mp hx).elim (ha.crc x) (hb.crc x)

theorem cons {s e c : Nat} {r : Runs (Nat × Nat)} (h : Digested content r) (hse : s < e)
    (hc : c = crc32 (sliceOf content s e)) (hr : ∀ x ∈ r, e < x.1) :
    Digested content ((s, e, c) :: r) where
  pos x hx := by
    rcases mem_cons.mp hx with rfl | hx
    · exact hse
    · exact h.pos x hx
  gap := pairwise_cons.mpr ⟨hr, h.gap⟩
  crc x hx := by
    rcases mem_cons.mp hx with rfl | hx
    · exact hc
    · exact h.crc x hx

/-- The content matters where the runs are. -/
theorem congr {content' : Nat → UInt8} {r : Runs (Nat × Nat)} (h : Digested content r)
    (heq : ∀ k, Held r k → content k = content' k) : Digested content' r where
  pos := h.pos
  gap := h.gap
  crc x hx := by
    rw [h.crc x hx]
    exact congrArg crc32 (sliceOf_congr fun k hlo hhi => heq k ⟨x, hx, hlo, hhi⟩)

end Digested

namespace CrcParts

/-- What is left of the runs from `e` on, the run that ends at `e` having joined the first of them
if it starts there. -/
def growRight (combine : Nat → Nat → Nat → Nat) (back : Runs (Nat × Nat)) (e crc : Nat) :
    Runs (Nat × Nat) × Nat × Nat :=
  match back with
  | [] => ([], e, crc)
  | (ns, ne, nc) :: rest =>
    if ns = e then (rest, ne, combine crc nc (ne - e)) else ((ns, ne, nc) :: rest, e, crc)

variable {combine : Nat → Nat → Nat → Nat} {content : Nat → UInt8}

theorem growRight_join (ne nc : Nat) (rest : Runs (Nat × Nat)) (e crc : Nat) :
    growRight combine ((e, ne, nc) :: rest) e crc = (rest, ne, combine crc nc (ne - e)) := if_pos rfl

theorem growRight_apart {ns e : Nat} (h : ns ≠ e) (ne nc : Nat) (rest : Runs (Nat × Nat))
    (crc : Nat) : growRight combine ((ns, ne, nc) :: rest) e crc = ((ns, ne, nc) :: rest, e, crc) :=
  if_neg h

theorem joinLeft_join (r : Runs (Nat × Nat)) (ps s pc e c : Nat) :
    joinLeft combine r s e c (some (ps, s, pc)) = ⟨r.insert ps (e, combine pc c (e - s))⟩ := if_pos rfl

theorem joinLeft_apart (r : Runs (Nat × Nat)) {pe s : Nat} (h : pe ≠ s) (ps pc e c : Nat) :
    joinLeft combine r s e c (some (ps, pe, pc)) = ⟨r.insert s (e, c)⟩ := if_neg h

theorem joinRight_around {p : CrcParts} {front back : Runs (Nat × Nat)} {e crc : Nat}
    (hs : p.parts = front ++ back) (hf : ∀ x ∈ front, x.1 < e) :
    p.joinRight combine e crc back.head? =
      (front ++ (growRight combine back e crc).1, (growRight combine back e crc).2) := by
  unfold joinRight growRight
  cases back with
  | nil => rw [hs]; rfl
  | cons x back =>
    rw [head?_cons]
    dsimp only
    split
    case isTrue hjoin =>
      subst hjoin
      rw [hs, Runs.remove_around hf]
    case isFalse => rw [hs]

section Compose

variable (hcombine : ∀ a b, combine (crc32 a) (crc32 b) b.length = crc32 (a ++ b))
include hcombine

variable {e s : Nat}

/-- Two ranges that meet, joined. -/
theorem combine_slices {m : Nat} (h1 : s ≤ m) (h2 : m ≤ e) :
    combine (crc32 (sliceOf content s m)) (crc32 (sliceOf content m e)) (e - m) =
      crc32 (sliceOf content s e) := by
  have := hcombine (sliceOf content s m) (sliceOf content m e)
  rwa [length_sliceOf, sliceOf_append content h1 h2] at this

theorem digested_growRight {back : Runs (Nat × Nat)} (h : Digested content back) (hse : s < e)
    (hb : ∀ x ∈ back, e ≤ x.1) : let g := growRight combine back e (crc32 (sliceOf content s e))
    e ≤ g.2.1 ∧ Digested content ((s, g.2) :: g.1) ∧
      ∀ k, Held ((s, g.2) :: g.1) k ↔ (s ≤ k ∧ k < e) ∨ Held back k := by
  cases back with
  | nil => exact ⟨le_refl e, Digested.nil.cons hse rfl nofun, fun k => held_cons⟩
  | cons x back =>
    obtain ⟨ns, ne, nc⟩ := x
    have hlt : ns < ne := h.pos (ns, ne, nc) (.head _)
    have hle : e ≤ ns := hb (ns, ne, nc) (.head _)
    have hgap := (pairwise_cons.mp h.gap).1
    by_cases hjoin : ns = e
    · subst hjoin
      rw [growRight_join]
      have hrest := h.right (a := [(ns, ne, nc)])
      refine ⟨le_of_lt hlt, hrest.cons (hse.trans hlt) ?_ hgap, fun k => ?_⟩
      · have hnc : nc = crc32 (sliceOf content ns ne) := h.crc (ns, ne, nc) (.head _)
        rw [hnc]
        exact combine_slices hcombine hse.le hlt.le
      · rw [held_cons, held_cons, ← or_assoc]
        refine or_congr_left ?_
        dsimp only
        omega
    · rw [growRight_apart hjoin]
      refine ⟨le_refl e, h.cons hse rfl fun x hx => ?_, fun k => held_cons⟩
      rcases mem_cons.mp hx with rfl | hx
      · dsimp only
        omega
      · have := hgap x hx
        dsimp only at this
        omega

theorem digested_joinLeft {front rest : Runs (Nat × Nat)} {c : Nat} (hf : Digested content front)
    (hr : Digested content ((s, e, c) :: rest)) (hends : ∀ x ∈ front, x.2.1 ≤ s) :
    Digested content (joinLeft combine (front ++ rest) s e c front.getLast?).parts ∧
      ∀ k, Held (joinLeft combine (front ++ rest) s e c front.getLast?).parts k ↔
        Held front k ∨ Held ((s, e, c) :: rest) k := by
  have hse : s < e := hr.pos (s, e, c) (.head _)
  have hafter : ∀ x ∈ rest, e < x.1 := (pairwise_cons.mp hr.gap).1
  have hrest : ∀ x ∈ rest, s < x.1 := fun x hx => hse.trans (hafter x hx)
  have hstarts : ∀ x ∈ front, x.1 < s := fun x hx => lt_of_lt_of_le (hf.pos x hx) (hends x hx)
  -- Where the last run in front ends before `s`, the new one stands alone.
  have halone : (∀ x ∈ front, x.2.1 < s) →
      joinLeft combine (front ++ rest) s e c front.getLast? = ⟨front ++ (s, e, c) :: rest⟩ →
      Digested content (joinLeft combine (front ++ rest) s e c front.getLast?).parts ∧
        ∀ k, Held (joinLeft combine (front ++ rest) s e c front.getLast?).parts k ↔
          Held front k ∨ Held ((s, e, c) :: rest) k := by
    intro hapart heq
    rw [heq]
    refine ⟨hf.append hr fun x hx y hy => ?_, fun k => held_append⟩
    rcases mem_cons.mp hy with rfl | hy
    · exact hapart x hx
    · exact lt_trans (hapart x hx) (hrest y hy)
  have hinsert := Runs.insert_around hstarts hrest (e, c)
  rcases eq_nil_or_concat front with rfl | ⟨front', last, rfl⟩
  · exact halone nofun (congrArg CrcParts.mk hinsert)
  · obtain ⟨ps, pe, pc⟩ := last
    rw [concat_eq_append] at *
    have hlast : (front' ++ [(ps, pe, pc)]).getLast? = some (ps, pe, pc) := by
      rw [getLast?_append, getLast?_singleton]
      rfl
    have hpos : ps < pe := hf.pos (ps, pe, pc) (by simp)
    have hbefore : ∀ x ∈ front', x.2.1 < ps := fun x hx =>
      (pairwise_append.mp hf.gap).2.2 x hx _ (mem_singleton_self _)
    by_cases hjoin : pe = s
    · subst hjoin
      have heq : joinLeft combine (front' ++ [(ps, pe, pc)] ++ rest) pe e c
          (front' ++ [(ps, pe, pc)]).getLast? =
            ⟨front' ++ (ps, e, combine pc c (e - pe)) :: rest⟩ := by
        rw [hlast, joinLeft_join, append_assoc, singleton_append,
          Runs.insert_over fun x hx => ?_]
        have := hf.pos x (by simp [hx])
        have := hbefore x hx
        omega
      have hpc : pc = crc32 (sliceOf content ps pe) := hf.crc (ps, pe, pc) (by simp)
      have hc : c = crc32 (sliceOf content pe e) := hr.crc (pe, e, c) (.head _)
      have hgrown : Digested content ((ps, e, combine pc c (e - pe)) :: rest) := by
        refine (hr.right (a := [(pe, e, c)])).cons (hpos.trans hse) ?_ hafter
        rw [hpc, hc]
        exact combine_slices hcombine hpos.le hse.le
      rw [heq]
      refine ⟨hf.left.append hgrown fun x hx y hy => ?_, fun k => ?_⟩
      · have := hbefore x hx
        rcases mem_cons.mp hy with rfl | hy
        · exact this
        · have := hafter y hy
          omega
      · have hsplit : (ps ≤ k ∧ k < e) ↔ (ps ≤ k ∧ k < pe) ∨ (pe ≤ k ∧ k < e) := by omega
        have hnone := iff_false_intro (held_nil k)
        simp only [held_append, held_cons, hnone, hsplit, or_false, or_assoc]
    · refine halone (fun x hx => ?_) ?_
      · have hlt : pe < s := lt_of_le_of_ne (hends (ps, pe, pc) (by simp)) hjoin
        rcases mem_append.mp hx with hx | hx
        · have := hbefore x hx
          omega
        · rw [mem_singleton.mp hx]
          exact hlt
      · rw [hlast, joinLeft_apart _ hjoin, hinsert]

end Compose

/-! ## One fragment -/

/-- The runs stand for the accepted fragments. -/
structure Inv (accepted : List Fragment) (p : CrcParts) : Prop where
  disjoint : Fragment.Disjoint accepted
  digested : Digested (Fragment.content accepted) p.parts
  union : ∀ k, Held p.parts k ↔ ∃ f ∈ accepted, f.Has k

theorem inv_new : Inv [] {} where
  disjoint := .nil
  digested := .nil
  union k := iff_of_false (held_nil k) (by simp)

namespace Inv

variable {accepted : List Fragment} {p : CrcParts}

theorem neighbours_overlap (h : p.Inv accepted) (s e : Nat) :
    (e ≤ s ∨ ((p.parts.before s).any fun x => s < x.2.1) = true ∨
        ((p.parts.atOrAfter s).any fun x => x.1 < e) = true) ↔
      e ≤ s ∨ ∃ k, s ≤ k ∧ k < e ∧ Held p.parts k := by
  obtain ⟨front, back, hs, hf, hb⟩ := Runs.split_at h.digested.ordered s
  have hd := h.digested
  rw [hs] at hd ⊢
  have hgap := (pairwise_append.mp hd.gap).1
  rw [Runs.before_around hf hb, Runs.atOrAfter_around hf hb, Option.any_eq_true, Option.any_eq_true]
  simp only [decide_eq_true_eq]
  constructor
  · rintro (hle | ⟨x, hx, hlt⟩ | ⟨x, hx, hlt⟩)
    · exact .inl hle
    · rcases lt_or_ge s e with hse | hse
      · have hmem := mem_of_getLast? hx
        have := hf x hmem
        exact .inr ⟨s, le_refl s, hse, x, mem_append_left back hmem, by omega, hlt⟩
      · exact .inl hse
    · have hmem := mem_of_head? hx
      have := hb x hmem
      have := hd.right.pos x hmem
      exact .inr ⟨x.1, by omega, hlt, x, mem_append_right front hmem, le_refl _, by omega⟩
  · rintro (hle | ⟨k, hlo, hhi, x, hx, hxlo, hxhi⟩)
    · exact .inl hle
    · refine .inr ?_
      rcases mem_append.mp hx with hx | hx
      · -- The last run in front ends where some run in front does, or later.
        left
        rcases eq_nil_or_concat front with rfl | ⟨front', last, rfl⟩
        · exact absurd hx not_mem_nil
        · rw [concat_eq_append] at *
          refine ⟨last, by rw [getLast?_append, getLast?_singleton]; rfl, ?_⟩
          rcases mem_append.mp hx with hx | hx
          · have h1 := (pairwise_append.mp hgap).2.2 x hx last (mem_singleton_self _)
            have h2 := hf last (by simp)
            omega
          · rw [← mem_singleton.mp hx]
            omega
      · right
        cases hbc : back with
        | nil =>
          rw [hbc] at hx
          exact absurd hx not_mem_nil
        | cons a back' =>
          rw [hbc] at hx
          refine ⟨a, rfl, ?_⟩
          rcases mem_cons.mp hx with rfl | hx
          · omega
          · have hord := hd.ordered
            rw [hbc] at hord
            have := (pairwise_cons.mp (pairwise_append.mp hord).2.1).1 x hx
            omega

/-- A fragment is refused where it is empty or shares an offset with an accepted one. -/
theorem insert_eq_none (h : p.Inv accepted) (s e crc : Nat) :
    p.insert combine s e crc = none ↔
      e ≤ s ∨ ∃ f ∈ accepted, ∃ k, s ≤ k ∧ k < e ∧ f.Has k := by
  have hunion : (∃ f ∈ accepted, ∃ k, s ≤ k ∧ k < e ∧ f.Has k) ↔
      ∃ k, s ≤ k ∧ k < e ∧ Held p.parts k := by
    simp only [h.union]
    exact ⟨fun ⟨f, hf, k, hlo, hhi, hk⟩ => ⟨k, hlo, hhi, f, hf, hk⟩,
      fun ⟨k, hlo, hhi, f, hf, hk⟩ => ⟨f, hf, k, hlo, hhi, hk⟩⟩
  rw [hunion, ← h.neighbours_overlap s e]
  unfold CrcParts.insert
  dsimp only
  split_ifs with h1 h2 h3
  · exact iff_of_true rfl (.inl h1)
  · exact iff_of_true rfl (.inr (.inl h2))
  · exact iff_of_true rfl (.inr (.inr h3))
  · refine iff_of_false not_false ?_
    rintro (h | h | h)
    · exact h1 h
    · exact h2 h
    · exact h3 h

theorem insert (hcombine : ∀ a b, combine (crc32 a) (crc32 b) b.length = crc32 (a ++ b))
    (h : p.Inv accepted) {f : Fragment} {p' : CrcParts}
    (hp : p.insert combine f.start f.stop (crc32 f.bytes) = some p') : p'.Inv (accepted ++ [f]) := by
  obtain ⟨hpos, hfree⟩ : ¬ f.stop ≤ f.start ∧
      ¬ ∃ g ∈ accepted, ∃ k, f.start ≤ k ∧ k < f.stop ∧ g.Has k := by
    rw [← not_or, ← @insert_eq_none combine _ _ h f.start f.stop (crc32 f.bytes), hp]
    exact some_ne_none _
  have hse : f.start < f.stop := not_le.mp hpos
  have hfree' : ∀ k, Held p.parts k → ¬ f.Has k := fun k hk hfk => by
    obtain ⟨g, hg, hgk⟩ := (h.union k).mp hk
    exact hfree ⟨g, hg, k, hfk.1, hfk.2, hgk⟩
  have hdisjoint : Fragment.Disjoint (accepted ++ [f]) := by
    refine pairwise_append.mpr ⟨h.disjoint, pairwise_singleton _ _, fun g hg f' hf' k hgk hfk => ?_⟩
    rw [mem_singleton.mp hf'] at hfk
    exact hfree ⟨g, hg, k, hfk.1, hfk.2, hgk⟩
  have hd : Digested (Fragment.content (accepted ++ [f])) p.parts := h.digested.congr fun k hk =>
    (Fragment.content_append ((h.union k).mp hk)).symm
  have hown : crc32 f.bytes = crc32 (sliceOf (Fragment.content (accepted ++ [f])) f.start f.stop) := by
    rw [Fragment.sliceOf_content hdisjoint (by simp)]
  obtain ⟨front, back, hs, hf, hb⟩ := Runs.split_at hd.ordered f.start
  rw [hs] at hd
  have hends : ∀ x ∈ front, x.2.1 ≤ f.start := fun x hx => by
    by_contra hlt
    have := hf x hx
    exact hfree' f.start ⟨x, by rw [hs]; exact mem_append_left back hx, by omega⟩
      ⟨le_refl _, hse⟩
  have hstarts : ∀ x ∈ back, f.stop ≤ x.1 := fun x hx => by
    by_contra hlt
    have := hd.right.pos x hx
    exact hfree' x.1 ⟨x, by rw [hs]; exact mem_append_right front hx, by omega⟩
      ⟨hb x hx, by omega⟩
  obtain ⟨-, hright, hunionRight⟩ := digested_growRight hcombine hd.right hse hstarts
  rw [← hown] at hright hunionRight
  obtain ⟨hleft, hunionLeft⟩ := digested_joinLeft hcombine hd.left hright hends
  have heq : p' = joinLeft combine (front ++ (growRight combine back f.stop (crc32 f.bytes)).1) f.start
      (growRight combine back f.stop (crc32 f.bytes)).2.1
      (growRight combine back f.stop (crc32 f.bytes)).2.2 front.getLast? := by
    have hbefore : p.parts.before f.start = front.getLast? := by rw [hs, Runs.before_around hf hb]
    have hafter : p.parts.atOrAfter f.start = back.head? := by rw [hs, Runs.atOrAfter_around hf hb]
    unfold CrcParts.insert at hp
    dsimp only at hp
    rw [hbefore, hafter, joinRight_around hs fun x hx => lt_trans (hf x hx) hse] at hp
    split_ifs at hp
    exact (some.inj hp).symm
  rw [heq]
  refine ⟨hdisjoint, hleft, fun k => ?_⟩
  have hold := h.union k
  rw [hs, held_append] at hold
  have hnew : (∃ g ∈ accepted ++ [f], g.Has k) ↔ (∃ g ∈ accepted, g.Has k) ∨ f.Has k := by
    simp [or_and_right, exists_or]
  rw [hunionLeft, hunionRight, hnew, ← hold, or_assoc]
  exact or_congr_right or_comm

theorem complete (h : p.Inv accepted) {blen c : Nat} (hc : p.complete blen = some c) :
    (∀ k < blen, ∃ f ∈ accepted, f.Has k) ∧
      c = crc32 (sliceOf (Fragment.content accepted) 0 blen) := by
  unfold CrcParts.complete at hc
  split at hc
  · rename_i e crc hparts
    split_ifs at hc with he
    cases hc
    subst he
    have hmem : (0, e, c) ∈ p.parts := by rw [hparts]; exact mem_singleton_self _
    exact ⟨fun k hk => (h.union k).mp ⟨_, hmem, Nat.zero_le k, hk⟩, h.digested.crc _ hmem⟩
  · cases hc

theorem complete_of_union (h : p.Inv accepted) {blen : Nat} (hpos : 0 < blen)
    (hall : ∀ k, (∃ f ∈ accepted, f.Has k) ↔ k < blen) :
    p.complete blen = some (crc32 (sliceOf (Fragment.content accepted) 0 blen)) := by
  have hheld : ∀ k, Held p.parts k ↔ k < blen := fun k => (h.union k).trans (hall k)
  cases hp : p.parts with
  | nil =>
    rw [hp] at hheld
    exact absurd ((hheld 0).mpr hpos) (held_nil 0)
  | cons x rest =>
    obtain ⟨s, e, c⟩ := x
    have hd := h.digested
    rw [hp] at hheld hd
    have hse : s < e := hd.pos (s, e, c) (.head _)
    have hgap := (pairwise_cons.mp hd.gap).1
    have hbehind : ∀ k, Held rest k → e < k := fun k ⟨x, hx, hk⟩ =>
      lt_of_lt_of_le (hgap x hx) hk.1
    have hs : s = 0 := by
      rcases held_cons.mp ((hheld 0).mpr hpos) with h0 | h0
      · exact Nat.le_zero.mp h0.1
      · exact absurd (hbehind 0 h0) (Nat.not_lt_zero e)
    subst hs
    have hle : e ≤ blen := by
      have := (hheld (e - 1)).mp (held_cons.mpr (.inl (by dsimp only; omega)))
      omega
    have hge : blen ≤ e := by
      by_contra hlt
      rcases held_cons.mp ((hheld e).mpr (by omega)) with he | he
      · exact lt_irrefl _ he.2
      · exact lt_irrefl _ (hbehind e he)
    obtain rfl : e = blen := le_antisymm hle hge
    cases rest with
    | nil =>
      have hc : c = crc32 (sliceOf (Fragment.content accepted) 0 e) := hd.crc (0, e, c) (.head _)
      unfold CrcParts.complete
      rw [hp, hc]
      exact if_pos rfl
    | cons y rest =>
      -- A second run would have an offset behind the block.
      have hy : y.1 < y.2.1 := hd.pos y (by simp)
      have hmeet := (hheld y.1).mp (held_cons.mpr (.inr ⟨y, .head _, le_refl _, hy⟩))
      have := hgap y (.head _)
      dsimp only at this
      omega

end Inv

end CrcParts

/-! ## The store's CRC partial -/

/-- `CrcParts`, its runs in the store. -/
structure StoredCrcParts where
  parts : Store (Nat × Nat)

namespace StoredCrcParts

variable (combine : Nat → Nat → Nat → Nat) (limit : Nat)

def new : StoredCrcParts := ⟨.new⟩

/-- The merge with the right neighbour: the runs left, the new end and its CRC. -/
def joinRight (p : StoredCrcParts) (e crc : Nat) (succ : Option (Nat × Nat × Nat)) :
    Store (Nat × Nat) × Nat × Nat :=
  match succ with
  | some (ns, ne, nc) =>
    if ns = e then (p.parts.remove ns, ne, combine crc nc (ne - e)) else (p.parts, e, crc)
  | none => (p.parts, e, crc)

/-- The merge with the left neighbour, which grows in place. -/
def joinLeft (r : Store (Nat × Nat)) (s e crc : Nat) (pred : Option (Nat × Nat × Nat)) :
    StoredCrcParts :=
  match pred with
  | some (ps, pe, pc) =>
    if pe = s then ⟨r.insert limit ps (e, combine pc crc (e - s))⟩ else ⟨r.insert limit s (e, crc)⟩
  | none => ⟨r.insert limit s (e, crc)⟩

/-- Merge a fragment; `none` on an empty or an overlapping one. -/
def insert (p : StoredCrcParts) (s e crc : Nat) : Option StoredCrcParts :=
  let pred := p.parts.before s
  let succ := p.parts.atOrAfter s
  if e ≤ s then none
  else if pred.any fun x => s < x.2.1 then none
  else if succ.any fun x => x.1 < e then none
  else
    let (r, e', crc') := p.joinRight combine e crc succ
    some (joinLeft combine limit r s e' crc' pred)

/-- The CRC of the whole block once every fragment landed. -/
def complete (p : StoredCrcParts) (blen : Nat) : Option Nat :=
  match p.parts.first with
  | some (0, e, crc) => if e = blen ∧ p.parts.len = 1 then some crc else none
  | _ => none

def inOrder (p : StoredCrcParts) : CrcParts := ⟨p.parts.inOrder⟩

variable {combine limit} {p : StoredCrcParts}

theorem complete_eq (p : StoredCrcParts) (blen : Nat) : p.complete blen = p.inOrder.complete blen := by
  unfold complete CrcParts.complete inOrder
  rw [first_eq, len_eq]
  cases p.parts.inOrder with
  | nil => rfl
  | cons x rest =>
    obtain ⟨s, e, c⟩ := x
    cases s with
    | succ n => rfl
    | zero =>
      cases rest with
      | nil =>
        refine if_congr ?_ rfl rfl
        exact and_iff_left rfl
      | cons y rest => exact if_neg fun h => by simp at h

theorem inOrder_joinRight (h : p.parts.Sorted) (e crc : Nat) (succ : Option (Nat × Nat × Nat)) :
    (p.joinRight combine e crc succ).1.Sorted ∧
      ((p.joinRight combine e crc succ).1.inOrder, (p.joinRight combine e crc succ).2) =
        p.inOrder.joinRight combine e crc succ := by
  unfold joinRight CrcParts.joinRight inOrder
  cases succ with
  | none => exact ⟨h, rfl⟩
  | some x =>
    dsimp only
    split
    · exact ⟨sorted_remove h _, by rw [inOrder_remove h]⟩
    · exact ⟨h, rfl⟩

theorem inOrder_joinLeft {r : Store (Nat × Nat)} (h : r.Sorted) (s e crc : Nat)
    (pred : Option (Nat × Nat × Nat)) :
    (joinLeft combine limit r s e crc pred).parts.Sorted ∧
      (joinLeft combine limit r s e crc pred).inOrder =
        CrcParts.joinLeft combine r.inOrder s e crc pred := by
  have hput : ∀ k v, (StoredCrcParts.mk (r.insert limit k v)).parts.Sorted ∧
      (StoredCrcParts.mk (r.insert limit k v)).inOrder = ⟨r.inOrder.insert k v⟩ := fun k v =>
    ⟨sorted_insert h limit k v, congrArg CrcParts.mk (inOrder_insert h limit k v)⟩
  unfold joinLeft CrcParts.joinLeft
  cases pred with
  | none => exact hput _ _
  | some x =>
    dsimp only
    split
    · exact hput _ _
    · exact hput _ _

/-- An insert over the store is the insert over the list. -/
theorem inOrder_insert (h : p.parts.Sorted) (s e crc : Nat) :
    (p.insert combine limit s e crc).map inOrder = p.inOrder.insert combine s e crc ∧
      ∀ q, p.insert combine limit s e crc = some q → q.parts.Sorted := by
  have hpred : p.parts.before s = p.inOrder.parts.before s := before_eq h s
  have hsucc : p.parts.atOrAfter s = p.inOrder.parts.atOrAfter s := atOrAfter_eq h s
  unfold insert CrcParts.insert
  dsimp only
  rw [hpred, hsucc]
  split_ifs
  · exact ⟨rfl, nofun⟩
  · exact ⟨rfl, nofun⟩
  · exact ⟨rfl, nofun⟩
  · obtain ⟨hsorted, hright⟩ := @inOrder_joinRight combine p h e crc
      (p.inOrder.parts.atOrAfter s)
    obtain ⟨hleft, heq⟩ := @inOrder_joinLeft combine limit _ hsorted s
      (p.joinRight combine e crc (p.inOrder.parts.atOrAfter s)).2.1
      (p.joinRight combine e crc (p.inOrder.parts.atOrAfter s)).2.2 (p.inOrder.parts.before s)
    refine ⟨?_, fun q hq => some.inj hq ▸ hleft⟩
    rw [← hright]
    exact congrArg some heq

end StoredCrcParts

/-! ## Any sequence -/

def offer (combine : Nat → Nat → Nat → Nat) (acc : StoredCrcParts × List Fragment) (f : Fragment) :
    StoredCrcParts × List Fragment :=
  match acc.1.insert combine RUNS_TREE_AT f.start f.stop (crc32 f.bytes) with
  | some p => (p, acc.2 ++ [f])
  | none => acc

def offerAll (combine : Nat → Nat → Nat → Nat) (fs : List Fragment) : StoredCrcParts × List Fragment :=
  fs.foldl (offer combine) (.new, [])

/-- Fragments in order that are the bytes `s..e`, none of them empty. -/
def Tiled : Nat → List Fragment → Nat → Prop
  | s, [], e => s = e
  | s, f :: fs, e => f.start = s ∧ f.bytes ≠ [] ∧ Tiled f.stop fs e

namespace Tiled

variable {e s : Nat} {fs : List Fragment}

theorem le (h : Tiled s fs e) : s ≤ e := by
  induction fs generalizing s with
  | nil => exact le_of_eq h
  | cons f fs ih =>
    obtain ⟨rfl, -, hrest⟩ := h
    exact Nat.le_trans (Nat.le_add_right _ _) (ih hrest)

theorem union (h : Tiled s fs e) (k : Nat) : (∃ f ∈ fs, f.Has k) ↔ s ≤ k ∧ k < e := by
  induction fs generalizing s with
  | nil =>
    obtain rfl : s = e := h
    refine iff_of_false (by simp) ?_
    omega
  | cons f fs ih =>
    obtain ⟨rfl, -, hrest⟩ := h
    have hmid : f.start ≤ f.stop := Nat.le_add_right _ _
    have hend := hrest.le
    rw [exists_mem_cons_iff, ih hrest, Fragment.Has]
    omega

theorem disjoint (h : Tiled s fs e) : Fragment.Disjoint fs := by
  induction fs generalizing s with
  | nil => exact .nil
  | cons f fs ih =>
    refine pairwise_cons.mpr ⟨fun g hg k hf hgk => ?_, ih h.2.2⟩
    have hk := ((h.2.2.union k).mp ⟨g, hg, hgk⟩).1
    exact absurd hf.2 (not_lt.mpr hk)

theorem nonempty (h : Tiled s fs e) : ∀ f ∈ fs, f.bytes ≠ [] := by
  induction fs generalizing s with
  | nil => exact fun f hf => absurd hf not_mem_nil
  | cons f fs ih =>
    intro g hg
    rcases mem_cons.mp hg with rfl | hg
    · exact h.2.1
    · exact ih h.2.2 g hg

/-- The content of a tiling is the tiles' bytes in order. -/
theorem sliceOf_eq (h : Tiled s fs e) {content : Nat → UInt8}
    (hown : ∀ f ∈ fs, sliceOf content f.start f.stop = f.bytes) :
    sliceOf content s e = fs.flatMap (·.bytes) := by
  induction fs generalizing s with
  | nil =>
    obtain rfl : s = e := h
    simp [sliceOf]
  | cons f fs ih =>
    obtain ⟨rfl, -, hrest⟩ := h
    rw [flatMap_cons, ← ih hrest fun g hg => hown g (mem_cons_of_mem f hg),
      ← hown f (.head _)]
    exact (sliceOf_append content (Nat.le_add_right _ _) hrest.le).symm

end Tiled

section Offers

variable {combine : Nat → Nat → Nat → Nat}
  (hcombine : ∀ a b, combine (crc32 a) (crc32 b) b.length = crc32 (a ++ b))

def Agree (acc : StoredCrcParts × List Fragment) : Prop :=
  acc.1.parts.Sorted ∧ acc.1.inOrder.Inv acc.2

theorem agree_new : Agree (.new, []) := ⟨sorted_new, CrcParts.inv_new⟩

theorem Agree.insert_eq_none {acc : StoredCrcParts × List Fragment} (h : Agree acc) (s e crc : Nat) :
    acc.1.insert combine RUNS_TREE_AT s e crc = none ↔
      e ≤ s ∨ ∃ f ∈ acc.2, ∃ k, s ≤ k ∧ k < e ∧ f.Has k := by
  have hlist := (@StoredCrcParts.inOrder_insert combine RUNS_TREE_AT _ h.1 s e crc).1
  rw [← @CrcParts.Inv.insert_eq_none combine _ _ h.2 s e crc, ← hlist, map_eq_none_iff]

include hcombine in
theorem Agree.offer {acc : StoredCrcParts × List Fragment} (h : Agree acc) (f : Fragment) :
    Agree (offer combine acc f) := by
  obtain ⟨hlist, hsorted⟩ := @StoredCrcParts.inOrder_insert combine
    RUNS_TREE_AT _ h.1 f.start f.stop (crc32 f.bytes)
  unfold Live.offer
  cases hins : acc.1.insert combine RUNS_TREE_AT f.start f.stop (crc32 f.bytes) with
  | none => exact h
  | some q =>
    rw [hins, map_some] at hlist
    exact ⟨hsorted q hins, h.2.insert hcombine hlist.symm⟩

include hcombine in
theorem Agree.foldl {acc : StoredCrcParts × List Fragment} (h : Agree acc) (fs : List Fragment) :
    Agree (fs.foldl (Live.offer combine) acc) := by
  induction fs generalizing acc with
  | nil => exact h
  | cons f fs ih => exact ih (h.offer hcombine f)

theorem accepted_subset (fs : List Fragment) (acc : StoredCrcParts × List Fragment) :
    ∀ f ∈ (fs.foldl (offer combine) acc).2, f ∈ acc.2 ∨ f ∈ fs := by
  induction fs generalizing acc with
  | nil => exact fun f hf => .inl hf
  | cons g fs ih =>
    intro f hf
    rcases ih _ f hf with hf | hf
    · unfold offer at hf
      split at hf
      · rcases mem_append.mp hf with hf | hf
        · exact .inl hf
        · exact .inr (mem_singleton.mp hf ▸ (.head _))
      · exact .inl hf
    · exact .inr (mem_cons_of_mem g hf)

include hcombine in
theorem Agree.all_accepted {acc : StoredCrcParts × List Fragment} (h : Agree acc) {fs : List Fragment}
    (hdisj : Fragment.Disjoint (acc.2 ++ fs)) (hne : ∀ f ∈ fs, f.bytes ≠ []) :
    (fs.foldl (Live.offer combine) acc).2 = acc.2 ++ fs := by
  induction fs generalizing acc with
  | nil => rw [foldl_nil, append_nil]
  | cons f fs ih =>
    have hsome : acc.1.insert combine RUNS_TREE_AT f.start f.stop (crc32 f.bytes) ≠ none := by
      rw [Ne, h.insert_eq_none]
      rintro (hle | ⟨g, hg, k, hlo, hhi, hk⟩)
      · have := length_pos_of_ne_nil (hne f (.head _))
        simp only [Fragment.stop] at hle
        omega
      · exact (pairwise_append.mp hdisj).2.2 g hg f (.head _) k hk ⟨hlo, hhi⟩
    obtain ⟨q, hq⟩ := ne_none_iff_exists'.mp hsome
    have haccept : (Live.offer combine acc f).2 = acc.2 ++ [f] := by
      unfold Live.offer
      rw [hq]
    have := ih (h.offer hcombine f) (by rw [haccept, append_assoc]; exact hdisj)
      fun g hg => hne g (mem_cons_of_mem f hg)
    rw [foldl_cons, this, haccept, append_assoc]
    rfl

end Offers

/-- Of any fragments offered in turn, exactly those are refused that are empty or share an offset
with one accepted before; every run has the CRC32 of the accepted bytes of its whole range; a
complete block has the CRC32 of its bytes; and the fragments of a tiling complete the block in
whatever order they come. -/
theorem parts_compose {combine : Nat → Nat → Nat → Nat}
    (hcombine : ∀ a b, combine (crc32 a) (crc32 b) b.length = crc32 (a ++ b)) (fs : List Fragment) :
    let acc := offerAll combine fs
    (∀ s e crc, acc.1.insert combine RUNS_TREE_AT s e crc = none ↔
      e ≤ s ∨ ∃ f ∈ acc.2, ∃ k, s ≤ k ∧ k < e ∧ f.Has k) ∧
    (∀ f ∈ acc.2, f ∈ fs ∧ sliceOf (Fragment.content acc.2) f.start f.stop = f.bytes) ∧
    (∀ x ∈ acc.1.parts.inOrder, (∀ k, x.1 ≤ k → k < x.2.1 → ∃ f ∈ acc.2, f.Has k) ∧
      x.2.2 = crc32 (sliceOf (Fragment.content acc.2) x.1 x.2.1)) ∧
    (∀ blen c, acc.1.complete blen = some c → (∀ k < blen, ∃ f ∈ acc.2, f.Has k) ∧
      c = crc32 (sliceOf (Fragment.content acc.2) 0 blen)) ∧
    ∀ tiles blen, 0 < blen → Tiled 0 tiles blen → fs.Perm tiles →
      acc.2 = fs ∧ acc.1.complete blen = some (crc32 (tiles.flatMap (·.bytes))) := by
  intro acc
  have h : Agree acc := agree_new.foldl hcombine fs
  have hown : ∀ f ∈ acc.2, sliceOf (Fragment.content acc.2) f.start f.stop = f.bytes := fun f hf =>
    Fragment.sliceOf_content h.2.disjoint hf
  refine ⟨fun s e crc => h.insert_eq_none s e crc, fun f hf => ⟨?_, hown f hf⟩, fun x hx =>
    ⟨fun k hlo hhi => (h.2.union k).mp ⟨x, hx, hlo, hhi⟩, h.2.digested.crc x hx⟩,
    fun blen c hc => h.2.complete ((StoredCrcParts.complete_eq _ _).symm.trans hc),
    fun tiles blen hpos htiles hperm => ?_⟩
  · exact (accepted_subset fs _ f hf).resolve_left not_mem_nil
  · have hdisj : Fragment.Disjoint fs :=
      (hperm.pairwise_iff fun {a b} hab k hb ha => hab k ha hb).mpr htiles.disjoint
    have hall : acc.2 = fs := agree_new.all_accepted hcombine hdisj fun f hf =>
      htiles.nonempty f (hperm.mem_iff.mp hf)
    have hunion : ∀ k, (∃ f ∈ acc.2, f.Has k) ↔ k < blen := fun k => by
      rw [hall]
      have hmem : (∃ f ∈ fs, f.Has k) ↔ ∃ f ∈ tiles, f.Has k :=
        exists_congr fun f => and_congr_left fun _ => hperm.mem_iff
      rw [hmem, htiles.union k]
      exact and_iff_right (Nat.zero_le k)
    refine ⟨hall, ?_⟩
    rw [StoredCrcParts.complete_eq, h.2.complete_of_union hpos hunion,
      htiles.sliceOf_eq fun f hf => hown f (hall ▸ hperm.mem_iff.mpr hf)]

theorem parts_compose_twoTiles :
    (offerAll crc32Combine [⟨2, [3]⟩, ⟨0, [1, 2]⟩]).1.complete 3 = some (crc32 [1, 2, 3]) :=
  ((parts_compose crc32Combine_eq [⟨2, [3]⟩, ⟨0, [1, 2]⟩]).2.2.2.2 [⟨0, [1, 2]⟩, ⟨2, [3]⟩] 3
    (by decide) ⟨rfl, by decide, rfl, by decide, rfl⟩ (.swap _ _ _)).2

end NzbFast.Live
