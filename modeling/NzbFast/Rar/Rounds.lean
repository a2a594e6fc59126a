import NzbFast.Rar.Resolve

/-!
# What the first round leaves

Whatever contradictions show elsewhere, the first round carries a seed along its
own links: the forward sweep from a file's first piece, the backward sweep from
its last where no first piece stands in front. No later round changes a base.
-/

namespace NzbFast.Rar

open NzbFast.Rust Fold Sweep List Option

/-! ## Each piece has one link in and one out -/

theorem once_of_linkOf {i : Nat} {ma mb : Mapped} {ea : FileEntry × Nat} {l : Link}
    (h : linkOf i ma mb ea = some l) : once ma ea.1.name = true := by
  unfold linkOf at h
  split at h
  case isTrue => cases h
  case isFalse hea =>
    simp only [Bool.or_eq_true, not_or, Bool.not_eq_true, Bool.not_eq_false_eq_eq_true] at hea
    simpa using hea.2

/-- Two places of a list pass a filter that leaves one. -/
theorem not_lt_of_filter_one {α : Type} {p : α → Bool} {l : List α}
    (h : (l.filter p).length = 1) {i j : Nat} {x y : α} (hi : l[i]? = some x) (hj : l[j]? = some y)
    (hx : p x = true) (hy : p y = true) : ¬ i < j := by
  intro hlt
  have hsplit : (l.take j).filter p ++ (l.drop j).filter p = l.filter p := by
    rw [← filter_append, take_append_drop]
  have hfront : x ∈ (l.take j).filter p := by
    apply mem_filter.mpr
    refine ⟨mem_of_getElem? (i := i) ?_, hx⟩
    rw [getElem?_take_of_lt hlt, hi]
  have hback : y ∈ (l.drop j).filter p := by
    apply mem_filter.mpr
    refine ⟨mem_of_getElem? (i := 0) ?_, hy⟩
    rw [getElem?_drop, add_zero, hj]
  have hlen := congrArg length hsplit
  rw [length_append, h] at hlen
  have h1 := length_pos_of_mem hfront
  have h2 := length_pos_of_mem hback
  omega

/-- A name that one entry carries once names that entry. -/
theorem index_of_once {m : Mapped} {name : String} (h : once m name = true) {i j : Nat}
    {e e' : FileEntry} (hi : m.entries[i]? = some e) (hj : m.entries[j]? = some e')
    (he : carries name e = true) (he' : carries name e' = true) : i = j := by
  have hlen : (m.entries.filter (carries name)).length = 1 := by
    simpa [once] using h
  have hij := not_lt_of_filter_one hlen hi hj he he'
  have hji := not_lt_of_filter_one hlen hj hi he' he
  omega

/-- The links out of one volume: each entry has one, each entry of the next volume one. -/
theorem linksAt_nodup (vols : Vols) (i : Nat) :
    (linksAt vols i).Pairwise fun l l' => l.a ≠ l'.a ∧ l.b ≠ l'.b := by
  unfold linksAt
  split
  case h_2 => exact List.Pairwise.nil
  case h_1 va vb ha hb =>
    split
    case isFalse => exact List.Pairwise.nil
    case isTrue =>
      rw [pairwise_filterMap]
      have hidx : va.2.entries.zipIdx.Pairwise fun x y => x.2 < y.2 := by
        have := pairwise_lt_range' (s := 0) (n := va.2.entries.length)
        rw [← zipIdx_map_snd 0 va.2.entries, pairwise_map] at this
        exact this
      refine hidx.imp_of_mem ?_
      rintro x y hx hy hlt l hl l' hl'
      obtain ⟨hdir, -, eb, heb, hcarries, -, rfl⟩ := linkOf_eq_some hl
      obtain ⟨hdir', -, eb', heb', hcarries', -, rfl⟩ := linkOf_eq_some hl'
      refine ⟨fun h => ?_, fun h => ?_⟩
      · have := (Prod.mk.inj h).2
        omega
      · -- both entries carry the name of the one they lead to
        have hbe : eb.2 = eb'.2 := (Prod.mk.inj h).2
        rw [hbe, heb', some.injEq] at heb
        simp only [carries, Bool.and_eq_true, Bool.not_eq_true', beq_iff_eq] at hcarries hcarries'
        have hname : y.1.name = x.1.name := by
          rw [← hcarries.2, ← hcarries'.2, heb]
        have hcx : carries x.1.name x.1 = true := by simp [carries, hdir]
        have hcy : carries x.1.name y.1 = true := by simp [carries, hdir', hname]
        have := index_of_once (once_of_linkOf hl) (mem_zipIdx_iff_getElem?.mp hx)
          (mem_zipIdx_iff_getElem?.mp hy) hcx hcy
        omega

theorem links_nodup (vols : Vols) :
    (links vols).Pairwise fun l l' => l.a ≠ l'.a ∧ l.b ≠ l'.b := by
  rw [links, pairwise_flatMap]
  refine ⟨fun i _ => linksAt_nodup vols i, pairwise_lt_range.imp ?_⟩
  intro i j hij l hl l' hl'
  obtain ⟨hi, _, _, hlinked⟩ := mem_linksAt hl
  obtain ⟨hj, _, _, hlinked'⟩ := mem_linksAt hl'
  have hsucc := hlinked.succ
  have hsucc' := hlinked'.succ
  refine ⟨fun h => ?_, fun h => ?_⟩
  · rw [h] at hi
    omega
  · rw [h] at hsucc
    omega

theorem link_in_unique {vols : Vols} {l l' : Link} (hl : l ∈ links vols) (hl' : l' ∈ links vols)
    (h : l.b = l'.b) : l = l' := by
  have hnodup : ((links vols).map Link.b).Nodup :=
    pairwise_map.mpr ((links_nodup vols).imp And.right)
  exact inj_on_of_nodup_map hnodup hl hl' h

/-! ## One sweep along one link -/

/-- A sweep takes a base over a link whose far end has no other. -/
theorem foldl_reaches {f : Sweep → Link → Sweep} {near far : Link → Key}
    (hframe : ∀ s l j, j ≠ far l → (f s l).bases.lookup j = s.bases.lookup j)
    (hext : ∀ s l, Extends s (f s l)) {ls : List Link} (hord : ls.Pairwise fun l l' => near l ≠ far l')
    (hin : ls.Pairwise fun l l' => far l ≠ far l') {s : Sweep} {l : Link} (hne : near l ≠ far l)
    (hl : l ∈ ls) {x z : UInt64} (hx : (ls.foldl f s).bases.lookup (near l) = some x)
    (hstep : ∀ s : Sweep, s.bases.lookup (near l) = some x → f s l = s.step (some z) (far l))
    (hfree : ∀ v, s.bases.lookup (far l) = some v → v = z) :
    (ls.foldl f s).bases.lookup (far l) = some z := by
  induction ls generalizing s with
  | nil => cases hl
  | cons l' ls ih =>
    obtain ⟨hhead, htail⟩ := pairwise_cons.mp hord
    obtain ⟨hhead', htail'⟩ := pairwise_cons.mp hin
    rw [foldl_cons] at hx ⊢
    rcases mem_cons.mp hl with rfl | hmem
    · -- no later link ends at the near end, so its base is the one this visit read
      rw [foldl_frame hframe hhead, hframe _ _ _ hne] at hx
      apply (foldl_extends hext ls (f s l)).base
      rw [hstep s hx]
      unfold step
      split
      case h_1 => cases ‹some z = none›
      case h_2 want hwant =>
        cases hwant
        split
        case h_1 => exact Finmap.lookup_insert _
        case h_2 held hheld =>
          obtain rfl := hfree held hheld
          rw [if_pos rfl, hheld]
    · refine ih htail htail' hmem hx fun v hv => hfree v ?_
      rwa [hframe _ _ _ (hhead' l hmem).symm] at hv

/-! ## The first round -/

def swept (vols : Vols) : Sweep := (links vols).foldl forward { bases := seeds vols }

def firstRound (vols : Vols) : Sweep := pass (links vols) { bases := seeds vols }

/-- What the links put in front of a piece: a seed and the lengths behind it. -/
inductive Fronted (vols : Vols) : Key → UInt64 → Prop
  | seed {k : Key} {e : FileEntry} {b : UInt64} : entryAt vols k = some e → seed e = some b →
      Fronted vols k b
  | link {l : Link} {x z : UInt64} : l ∈ links vols → Fronted vols l.a x →
      x.toNat + l.len.toNat = z.toNat → Fronted vols l.b z

variable {vols : Vols} {k : Key} {b : UInt64}

theorem Fronted.inv (h : Fronted vols k b) :
    (∃ e, entryAt vols k = some e ∧ Rar.seed e = some b) ∨
    ∃ l ∈ links vols, l.b = k ∧ ∃ x, Fronted vols l.a x ∧ x.toNat + l.len.toNat = b.toNat := by
  cases h with
  | seed he hb => exact Or.inl ⟨_, he, hb⟩
  | link hl hx hsum => exact Or.inr ⟨_, hl, rfl, _, hx, hsum⟩

theorem swept_seed {e : FileEntry} (he : entryAt vols k = some e) (hb : seed e = some b) :
    (swept vols).bases.lookup k = some b := by
  apply (foldl_extends forward_extends (links vols) _).base
  rw [lookup_seeds, he, bind_some, hb]

theorem swept_link {l : Link} (hl : l ∈ links vols) {x z : UInt64}
    (hx : (swept vols).bases.lookup l.a = some x) (hz : x.toNat + l.len.toNat = z.toNat)
    (hfree : ∀ e v, entryAt vols l.b = some e → seed e = some v → v = z) :
    (swept vols).bases.lookup l.b = some z := by
  refine foldl_reaches (fun s _ _ hj => step_frame s _ hj) forward_extends (links_forward_order vols)
    ((links_nodup vols).imp And.right) (linked_ends_ne l hl) hl hx (fun s hs => ?_) fun v hv => ?_
  · simp only [hs, bind_some, checkedAdd_eq_some.mpr hz]
  rw [lookup_seeds, bind_eq_some_iff] at hv
  obtain ⟨e, he, hv⟩ := hv
  exact hfree e v he hv

theorem fronted_of_swept (h : (swept vols).bases.lookup k = some b) : Fronted vols k b := by
  have hfold : ∀ (ls : List Link) (s : Sweep), (∀ l ∈ ls, l ∈ links vols) →
      (∀ k b, s.bases.lookup k = some b → Fronted vols k b) →
      ∀ k b, (ls.foldl forward s).bases.lookup k = some b → Fronted vols k b := by
    intro ls
    induction ls with
    | nil => exact fun s _ hs => hs
    | cons l ls ih =>
      intro s hls hs
      refine ih _ (fun m hm => hls m (mem_cons_of_mem _ hm)) fun k b hb => ?_
      by_cases hk : k = l.b
      · subst hk
        unfold forward step at hb
        split at hb
        case h_1 => exact hs _ _ hb
        case h_2 want hwant =>
          obtain ⟨x, hx, hadd⟩ := bind_eq_some_iff.mp hwant
          split at hb
          case h_1 =>
            rw [Finmap.lookup_insert, some.injEq] at hb
            subst hb
            exact .link (hls l mem_cons_self) (hs _ _ hx) (checkedAdd_eq_some.mp hadd)
          case h_2 =>
            split at hb
            · exact hs _ _ hb
            · exact hs _ _ hb
      · rw [forward, step_frame _ _ hk] at hb
        exact hs _ _ hb
  refine hfold (links vols) _ (fun _ hl => hl) (fun k b hb => ?_) k b h
  rw [lookup_seeds, bind_eq_some_iff] at hb
  obtain ⟨e, he, hb⟩ := hb
  exact .seed he hb

theorem firstRound_of_swept (h : (swept vols).bases.lookup k = some b) :
    (firstRound vols).bases.lookup k = some b :=
  (foldl_extends backward_extends (links vols).reverse _).base h

theorem firstRound_link {l : Link} (hl : l ∈ links vols) {x y : UInt64}
    (hy : (firstRound vols).bases.lookup l.b = some y) (hx : x.toNat + l.len.toNat = y.toNat)
    (hfree : ∀ v, Fronted vols l.a v → v = x) : (firstRound vols).bases.lookup l.a = some x := by
  have hout : (links vols).reverse.Pairwise fun l l' => l.a ≠ l'.a := by
    rw [pairwise_reverse]
    exact (links_nodup vols).imp fun h => h.1.symm
  refine foldl_reaches (fun s l _ => backward_frame s l) backward_extends (links_backward_order vols)
    hout (linked_ends_ne l hl).symm (mem_reverse.mpr hl) hy (fun s hs => ?_)
    fun v hv => hfree v (fronted_of_swept hv)
  simp only [backward, hs, checkedSub_eq_some.mpr hx]

theorem propagate_of_pass {ls : List Link} {n : Nat} (hn : 0 < n) {m : ArchiveMap}
    (h : (pass ls m).bases.lookup k = some b) : (propagate ls n m).bases.lookup k = some b := by
  obtain ⟨n, rfl⟩ := Nat.exists_eq_succ_of_ne_zero hn.ne'
  have hext : ∀ (n : Nat) (m : ArchiveMap), m.bases.lookup k = some b →
      (propagate ls n m).bases.lookup k = some b := by
    intro n
    induction n with
    | zero => exact fun m hm => hm
    | succ n ih =>
      intro m hm
      have hpass := (pass_extends ls m).base hm
      simp only [propagate]
      split
      · exact ih _ hpass
      · exact hpass
  simp only [propagate]
  split
  · exact hext n _ h
  · exact h

theorem resolved_of_firstRound (h : (firstRound vols).bases.lookup k = some b) :
    (resolveIndexed vols).bases.lookup k = some b :=
  propagate_of_pass (lt_of_lt_of_le one_pos (le_max_right _ _)) h

end NzbFast.Rar
