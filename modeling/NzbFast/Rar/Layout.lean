import NzbFast.Rar.Resolve

/-!
# True layouts of a split set

A `Layout` says what the archive really holds: inner files cut into pieces over
consecutive volumes, directories anywhere. The volumes handed to
`resolve_indexed` are any of its volumes in index order, each with the prefix of
its entries that has parsed. The true offsets are a potential that seeds and
links respect (`agrees_resolveIndexed`), so every base is true; and the two
sweeps of a round carry a base along a whole chain of parsed pieces.
-/

namespace NzbFast.Rar

open NzbFast.Rust Fold Sweep List Option UInt64

/-- A stored inner file: its pieces lie in the volumes from `first` on, one in each. -/
structure InnerFile where
  name : String
  first : Nat
  lens : List UInt64
  size : UInt64
  nonempty : lens ≠ []
  total : (lens.map UInt64.toNat).sum = size.toNat

namespace InnerFile

/-- Where piece `j` starts in the file. -/
def offset (f : InnerFile) (j : Nat) : Nat := ((f.lens.take j).map UInt64.toNat).sum

theorem offset_succ (f : InnerFile) {j : Nat} {len : UInt64} (h : f.lens[j]? = some len) :
    f.offset (j + 1) = f.offset j + len.toNat := by
  obtain ⟨hj, rfl⟩ := List.getElem?_eq_some_iff.mp h
  rw [offset, take_succ_eq_append_getElem hj, map_append, sum_append, offset]
  simp

theorem offset_length (f : InnerFile) : f.offset f.lens.length = f.size.toNat := by
  rw [offset, take_length, f.total]

theorem offset_le (f : InnerFile) (j : Nat) : f.offset j ≤ f.size.toNat := by
  have hsplit := congrArg (fun l => (l.map toNat).sum) (take_append_drop j f.lens)
  simp only [map_append, sum_append, f.total] at hsplit
  rw [offset]
  omega

end InnerFile

/-- `e` is the header of piece `j` of `f`. -/
structure IsPiece (f : InnerFile) (j : Nat) (e : FileEntry) : Prop where
  name : e.name = f.name
  isDir : e.isDir = false
  method : e.method = .store
  encrypted : e.encrypted = false
  crypt : e.crypt = none
  sizeUnknown : e.sizeUnknown = false
  unpackedSize : e.unpackedSize = f.size
  dataLen : f.lens[j]? = some e.dataLen
  splitBefore : e.splitBefore = decide (0 < j)
  splitAfter : e.splitAfter = decide (j + 1 < f.lens.length)

def SameName (e e' : FileEntry) : Prop := e.isDir = false ∧ e'.isDir = false ∧ e.name = e'.name

/-- What a set holds: the entries of each volume, by volume index. -/
structure Layout where
  files : List InnerFile
  entries : Nat → List FileEntry
  sound : ∀ v, ∀ e ∈ entries v, e.isDir = false →
    ∃ f ∈ files, ∃ j, v = f.first + j ∧ IsPiece f j e
  complete : ∀ f ∈ files, ∀ j < f.lens.length, ∃ e ∈ entries (f.first + j), IsPiece f j e
  one : ∀ v, (entries v).Pairwise fun e e' => ¬ SameName e e'

/-- The volumes are some of the layout's, in index order, each parsed up to some entry. -/
structure Layout.Parses (L : Layout) (vols : Vols) : Prop where
  sorted : vols.Pairwise fun v v' => v.1.toNat < v'.1.toNat
  parsed : ∀ v ∈ vols, v.2.entries <+: L.entries v.1.toNat

/-- The piece `j` of `f` is the parsed one at `k`. -/
def ParsedAt (vols : Vols) (f : InnerFile) (j : Nat) (k : Key) : Prop :=
  ∃ v e, vols[k.1]? = some v ∧ v.1.toNat = f.first + j ∧ v.2.entries[k.2]? = some e ∧ IsPiece f j e

variable {j : Nat} {k : Key} {vols : Vols} {f : InnerFile} {e e' : FileEntry}

theorem ParsedAt.entryAt (h : ParsedAt vols f j k) :
    ∃ e, entryAt vols k = some e ∧ IsPiece f j e := by
  obtain ⟨v, e, hv, -, he, hpiece⟩ := h
  exact ⟨e, by rw [Rar.entryAt, hv, bind_some, he], hpiece⟩

/-! ## One piece of a name in a volume -/

theorem SameName.symm (h : SameName e e') : SameName e' e :=
  ⟨h.2.1, h.1, h.2.2.symm⟩

theorem index_unique {l : List FileEntry} (hl : l.Pairwise fun e e' => ¬ SameName e e') {i i' : Nat}
    (he : l[i]? = some e) (he' : l[i']? = some e') (h : SameName e e') : i = i' := by
  obtain ⟨hi, rfl⟩ := List.getElem?_eq_some_iff.mp he
  obtain ⟨hi', rfl⟩ := List.getElem?_eq_some_iff.mp he'
  rw [pairwise_iff_getElem] at hl
  rcases lt_trichotomy i i' with hlt | heq | hgt
  · exact absurd h (hl i i' hi hi' hlt)
  · exact heq
  · exact absurd h.symm (hl i' i hi' hi hgt)

theorem entry_unique {l : List FileEntry} (hl : l.Pairwise fun e e' => ¬ SameName e e') (he : e ∈ l)
    (he' : e' ∈ l) (h : SameName e e') : e = e' := by
  obtain ⟨i, hi⟩ := getElem?_of_mem he
  obtain ⟨i', hi'⟩ := getElem?_of_mem he'
  rw [index_unique hl hi hi' h, hi'] at hi
  exact (some.inj hi).symm

theorem carries_iff {name : String} : carries name e = true ↔ e.isDir = false ∧ e.name = name := by
  simp [carries]

theorem once_eq_true {m : Mapped} (hm : m.entries.Pairwise fun e e' => ¬ SameName e e')
    (he : e ∈ m.entries) (hdir : e.isDir = false) : once m e.name = true := by
  have hmem := mem_filter.mpr ⟨he, carries_iff.mpr ⟨hdir, rfl⟩⟩
  have hpair := hm.filter (carries e.name)
  have hall : ∀ x ∈ m.entries.filter (carries e.name), x.isDir = false ∧ x.name = e.name :=
    fun x hx => carries_iff.mp (mem_filter.mp hx).2
  unfold once
  match hlist : m.entries.filter (carries e.name) with
  | [] => rw [hlist] at hmem; cases hmem
  | [x] => rfl
  | x :: y :: rest =>
    rw [hlist] at hpair hall
    have hx := hall x (by simp)
    have hy := hall y (by simp)
    exact absurd ⟨hx.1, hy.1, hx.2.trans hy.2.symm⟩ ((pairwise_cons.mp hpair).1 y (by simp))

/-! ## True offsets -/

theorem Layout.offset_unique (L : Layout) {f' : InnerFile} (hf : f ∈ L.files) (hf' : f' ∈ L.files)
    {j' : Nat} (hv : f.first + j = f'.first + j') (h : IsPiece f j e) (h' : IsPiece f' j' e) :
    f.offset j = f'.offset j' := by
  induction j generalizing j' e with
  | zero =>
    have hj' : j' = 0 := by simpa using h.splitBefore.symm.trans h'.splitBefore
    simp [hj', InnerFile.offset]
  | succ j ih =>
    have hpos : 0 < j' := by simpa using h.splitBefore.symm.trans h'.splitBefore
    obtain ⟨j', rfl⟩ := Nat.exists_eq_succ_of_ne_zero hpos.ne'
    have hlt := (List.getElem?_eq_some_iff.mp h.dataLen).1
    have hlt' := (List.getElem?_eq_some_iff.mp h'.dataLen).1
    -- the pieces before it are one entry, since their volume has one of that name
    obtain ⟨x, hx, hpx⟩ := L.complete f hf j (by omega)
    obtain ⟨y, hy, hpy⟩ := L.complete f' hf' j' (by omega)
    have hv' : f.first + j = f'.first + j' := by omega
    rw [← hv'] at hy
    have hname : x.name = y.name := by rw [hpx.name, hpy.name, ← h.name, ← h'.name]
    have hxy : x = y := entry_unique (L.one _) hx hy ⟨hpx.isDir, hpy.isDir, hname⟩
    subst hxy
    rw [f.offset_succ hpx.dataLen, f'.offset_succ hpy.dataLen, ih hv' hpx hpy]

noncomputable def Layout.trueBase (L : Layout) (vols : Vols) (k : Key) : Option UInt64 :=
  haveI := Classical.propDecidable
    (∃ n : UInt64, ∃ f ∈ L.files, ∃ j, ParsedAt vols f j k ∧ n.toNat = f.offset j)
  if h : ∃ n : UInt64, ∃ f ∈ L.files, ∃ j, ParsedAt vols f j k ∧ n.toNat = f.offset j then
    some h.choose
  else none

theorem Layout.of_trueBase_eq {L : Layout} {b : UInt64} (h : L.trueBase vols k = some b) :
    ∃ f ∈ L.files, ∃ j, ParsedAt vols f j k ∧ b.toNat = f.offset j := by
  unfold Layout.trueBase at h
  split at h
  case isTrue hex =>
    rw [← some.inj h]
    exact hex.choose_spec
  case isFalse => cases h

theorem Layout.trueBase_eq (L : Layout) (hf : f ∈ L.files) (h : ParsedAt vols f j k) :
    ∃ b, L.trueBase vols k = some b ∧ b.toNat = f.offset j := by
  have hle := f.offset_le j
  have hlt := f.size.toNat_lt
  have hnat : (UInt64.ofNat (f.offset j)).toNat = f.offset j := by
    rw [toNat_ofNat', Nat.mod_eq_of_lt (by omega)]
  have hex : ∃ n : UInt64, ∃ f ∈ L.files, ∃ j, ParsedAt vols f j k ∧ n.toNat = f.offset j :=
    ⟨_, f, hf, j, h, hnat⟩
  have hbase : L.trueBase vols k = some hex.choose := dif_pos hex
  obtain ⟨f', hf', j', h', heq⟩ := Layout.of_trueBase_eq hbase
  refine ⟨_, hbase, heq.trans ?_⟩
  obtain ⟨v, e, hv, hidx, he, hpiece⟩ := h
  obtain ⟨v', e', hv', hidx', he', hpiece'⟩ := h'
  rw [hv, some.injEq] at hv'
  subst hv'
  rw [he, some.injEq] at he'
  subst he'
  exact L.offset_unique hf' hf (hidx'.symm.trans hidx) hpiece' hpiece

theorem seeded (h : ParsedAt vols f j k) (hend : j = 0 ∨ j + 1 = f.lens.length) :
    ∃ b, (seeds vols).lookup k = some b := by
  obtain ⟨e, he, hpiece⟩ := h.entryAt
  rw [lookup_seeds, he, bind_some, seed, if_neg (by simp [hpiece.isDir])]
  split
  case isTrue => exact ⟨0, rfl⟩
  case isFalse hj =>
    have hj : j ≠ 0 := by simpa [hpiece.splitBefore] using hj
    have hlast : j + 1 = f.lens.length := by omega
    have hsucc := f.offset_succ hpiece.dataLen
    rw [hlast, f.offset_length] at hsucc
    have hle : e.dataLen ≤ e.unpackedSize := by
      rw [le_iff_toNat_le, hpiece.unpackedSize]
      omega
    have htail : tailAnchorable e = true := by
      simp [tailAnchorable, hpiece.method, hpiece.encrypted, hpiece.crypt, hpiece.sizeUnknown,
        hpiece.isDir, hle]
    rw [hpiece.splitAfter, htail, if_pos (by simp [hlast]), checkedSub, if_pos hle]
    exact ⟨_, rfl⟩

section Parses

variable {L : Layout} {vols : Vols} (hL : L.Parses vols)

include hL

variable {v : UInt64 × Mapped} {j p : Nat} {e : FileEntry} {k : Key} {f : InnerFile}

theorem Layout.Parses.one (hv : v ∈ vols) : v.2.entries.Pairwise fun e e' => ¬ SameName e e' :=
  (L.one _).sublist (hL.parsed v hv).sublist

/-- Positions follow the volume indices. -/
theorem Layout.Parses.pos_lt {q : Nat} {w : UInt64 × Mapped} (hv : vols[p]? = some v)
    (hw : vols[q]? = some w) (h : p < q) : v.1.toNat < w.1.toNat := by
  obtain ⟨hp, rfl⟩ := List.getElem?_eq_some_iff.mp hv
  obtain ⟨hq, rfl⟩ := List.getElem?_eq_some_iff.mp hw
  exact pairwise_iff_getElem.mp hL.sorted p q hp hq h

theorem Layout.Parses.pos_succ {q : Nat} {w : UInt64 × Mapped} (hv : vols[p]? = some v)
    (hw : vols[q]? = some w) (h : w.1.toNat = v.1.toNat + 1) : q = p + 1 := by
  rcases lt_trichotomy q (p + 1) with hlt | heq | hgt
  · rcases lt_or_ge q p with hqp | hqp
    · have := hL.pos_lt hw hv hqp
      omega
    · have hqp : q = p := by omega
      rw [hqp, hv, some.injEq] at hw
      rw [hw] at h
      omega
  · exact heq
  · have hq : p + 1 < vols.length := by
      have := (List.getElem?_eq_some_iff.mp hw).1
      omega
    have hmid := getElem?_eq_getElem hq
    have h1 := hL.pos_lt hv hmid (by omega)
    have h2 := hL.pos_lt hmid hw hgt
    omega

/-- The piece before a piece, where its volume has an entry of that name. -/
theorem Layout.Parses.previous (hf : f ∈ L.files) (h : ParsedAt vols f (j + 1) k)
    (hv : vols[p]? = some v) (hidx : v.1.toNat = f.first + j) {i : Nat}
    (he : v.2.entries[i]? = some e) (hdir : e.isDir = false) (hname : e.name = f.name) :
    ParsedAt vols f j (p, i) := by
  obtain ⟨_, e', _, _, _, hpiece'⟩ := h
  have hj : j < f.lens.length := by
    have := (List.getElem?_eq_some_iff.mp hpiece'.dataLen).1
    omega
  obtain ⟨e0, hmem0, hpiece0⟩ := L.complete f hf j hj
  have hmem : e ∈ L.entries (f.first + j) := by
    rw [← hidx]
    exact (hL.parsed v (mem_of_getElem? hv)).mem (mem_of_getElem? he)
  have heq : e = e0 := entry_unique (L.one _) hmem hmem0
    ⟨hdir, hpiece0.isDir, hname.trans hpiece0.name.symm⟩
  exact ⟨v, e, hv, hidx, he, heq ▸ hpiece0⟩

/-- A parsed entry that is no directory is a piece of some file. -/
theorem Layout.Parses.piece (he : Rar.entryAt vols k = some e) (hdir : e.isDir = false) :
    ∃ f ∈ L.files, ∃ j, ParsedAt vols f j k ∧ IsPiece f j e := by
  obtain ⟨v, hv, he⟩ := bind_eq_some_iff.mp he
  have hmem : e ∈ L.entries v.1.toNat :=
    (hL.parsed v (mem_of_getElem? hv)).mem (mem_of_getElem? he)
  obtain ⟨f, hf, j, hidx, hpiece⟩ := L.sound _ e hmem hdir
  exact ⟨f, hf, j, ⟨v, e, hv, hidx, he, hpiece⟩, hpiece⟩

theorem Layout.Parses.seed_true {b : UInt64} (he : Rar.entryAt vols k = some e)
    (hb : seed e = some b) : L.trueBase vols k = some b := by
  have hdir : e.isDir = false := by
    cases hd : e.isDir with
    | false => rfl
    | true => simp [seed, hd] at hb
  obtain ⟨f, hf, j, hat, hpiece⟩ := hL.piece he hdir
  obtain ⟨n, hn, hnat⟩ := L.trueBase_eq hf hat
  rw [hn, some.injEq, ← UInt64.toNat_inj, hnat]
  unfold seed at hb
  rw [if_neg (by simp [hdir])] at hb
  split at hb
  case isTrue hfirst =>
    have hj : j = 0 := by simpa [hpiece.splitBefore] using hfirst
    cases hb
    simp [hj, InnerFile.offset]
  case isFalse =>
    split at hb
    case isFalse => cases hb
    case isTrue htail =>
      -- the last piece ends where the file ends
      rw [hpiece.splitAfter, Bool.and_eq_true, Bool.not_eq_true', decide_eq_false_iff_not] at htail
      have hlt := (List.getElem?_eq_some_iff.mp hpiece.dataLen).1
      have hlast : j + 1 = f.lens.length := by omega
      have hsucc := f.offset_succ hpiece.dataLen
      rw [hlast, f.offset_length] at hsucc
      rw [checkedSub_eq_some, hpiece.unpackedSize] at hb
      omega

theorem Layout.Parses.link_true {l : Link} (hl : l ∈ links vols) :
    Respects (L.trueBase vols) l := by
  obtain ⟨ea, eb, h⟩ := linked_of_mem hl
  obtain ⟨f, hf, j, hat, hpiece⟩ := hL.piece h.entry_b h.file_b
  have hj : 0 < j := by simpa [h.split_before] using hpiece.splitBefore.symm
  obtain ⟨j, rfl⟩ := Nat.exists_eq_succ_of_ne_zero hj.ne'
  obtain ⟨va, vb, ha, hb, hadj⟩ := h.adjacent
  -- the index of the later volume does not wrap
  have hlt := hL.pos_lt ha hb (by have := h.succ; omega)
  have hidx : vb.1.toNat = f.first + (j + 1) := by
    obtain ⟨v, _, hv, hidx, _⟩ := hat
    rw [hb, some.injEq] at hv
    rw [hv, hidx]
  have hmod : vb.1.toNat = (va.1.toNat + 1) % 2 ^ 64 := by rw [hadj, UInt64.toNat_add]; rfl
  have ha' := h.entry_a
  rw [Rar.entryAt, ha, bind_some] at ha'
  have hprev := hL.previous hf hat ha (by omega) ha' h.file_a
    (h.name.trans hpiece.name)
  obtain ⟨e, he, hpe⟩ := hprev.entryAt
  rw [h.entry_a, some.injEq] at he
  obtain ⟨x, hx, hxnat⟩ := L.trueBase_eq hf hprev
  obtain ⟨y, hy, hynat⟩ := L.trueBase_eq hf hat
  refine ⟨x, y, hx, hy, ?_⟩
  rw [hxnat, hynat, h.len, he, f.offset_succ hpe.dataLen]

/-- Every base is the true one, and no two disagree. -/
theorem Layout.Parses.agrees : Agrees (L.trueBase vols) (resolveIndexed vols) :=
  agrees_resolveIndexed (fun _ _ _ he hb => hL.seed_true he hb) fun _ hl => hL.link_true hl

/-! ## Chains of parsed pieces -/

theorem Layout.Parses.link_exists {k' : Key} (h : ParsedAt vols f j k)
    (h' : ParsedAt vols f (j + 1) k') : ∃ l ∈ links vols, l.a = k ∧ l.b = k' := by
  obtain ⟨v, e, hv, hidx, he, hpiece⟩ := h
  obtain ⟨v', e', hv', hidx', he', hpiece'⟩ := h'
  have hpos : k'.1 = k.1 + 1 := hL.pos_succ hv hv' (by omega)
  have hlt := (List.getElem?_eq_some_iff.mp hpiece'.dataLen).1
  have hadj : v'.1 = v.1 + 1 := by
    have := v'.1.toNat_lt
    rw [← UInt64.toNat_inj, UInt64.toNat_add, UInt64.toNat_one, Nat.mod_eq_of_lt (by omega)]
    omega
  have hone := hL.one (mem_of_getElem? hv)
  have hone' := hL.one (mem_of_getElem? hv')
  have hname : e.name = e'.name := hpiece.name.trans hpiece'.name.symm
  have hcarries := carries_iff.mpr ⟨hpiece'.isDir, hname.symm⟩
  -- the search for the name ends at the piece itself
  have hfind : v'.2.entries.zipIdx.find? (fun x => carries e.name x.1) = some (e', k'.2) := by
    cases hfind : v'.2.entries.zipIdx.find? fun x => carries e.name x.1 with
    | none =>
      have := find?_eq_none.mp hfind (e', k'.2) (mem_zipIdx_iff_getElem?.mpr he')
      exact absurd hcarries this
    | some x =>
      have hx := mem_zipIdx_iff_getElem?.mp (mem_of_find?_eq_some hfind)
      have hfound : carries e.name x.1 = true := by simpa using find?_some hfind
      have hcx := carries_iff.mp hfound
      have hi : x.2 = k'.2 := index_unique hone' hx he'
        ⟨hcx.1, hpiece'.isDir, hcx.2.trans hname⟩
      rw [hi, he', some.injEq] at hx
      rw [some.injEq, Prod.ext_iff]
      exact ⟨hx.symm, hi⟩
  have hlink : linkOf k.1 v.2 v'.2 (e, k.2) = some ⟨k, k', e.dataLen⟩ := by
    have ha := once_eq_true hone (mem_of_getElem? he) hpiece.isDir
    have hb : once v'.2 e.name = true := by
      rw [hname]
      exact once_eq_true hone' (mem_of_getElem? he') hpiece'.isDir
    have hk' : (k.1 + 1, k'.2) = k' := by rw [← hpos]
    simp [linkOf, hfind, hpiece.isDir, hpiece.splitAfter, hlt, ha, hpiece'.splitBefore, hb, hk']
  refine ⟨⟨k, k', e.dataLen⟩, ?_, rfl, rfl⟩
  rw [links, mem_flatMap]
  have hk' := (List.getElem?_eq_some_iff.mp hv').1
  refine ⟨k.1, mem_range.mpr (by omega), ?_⟩
  rw [hpos] at hv'
  rw [linksAt, hv, hv']
  simp only [hadj, if_true, mem_filterMap]
  exact ⟨(e, k.2), mem_zipIdx_iff_getElem?.mpr he, hlink⟩

theorem Layout.Parses.chain_first (hfirst : ∀ i ≤ j, ∃ k, ParsedAt vols f i k)
    (h : ParsedAt vols f j k) : ∃ b, (resolveIndexed vols).bases.lookup k = some b := by
  have hagrees := hL.agrees
  obtain ⟨m, hseeds, hres⟩ := resolveIndexed_cases vols
  rw [hres] at hagrees ⊢
  have hback := foldl_extends backward_extends (links vols).reverse
    ((links vols).foldl forward { m with changed := false })
  suffices hfwd : ∀ i ≤ j, ∀ k, ParsedAt vols f i k → ∃ b,
      ((links vols).foldl forward { m with changed := false }).bases.lookup k = some b by
    obtain ⟨b, hb⟩ := hfwd j le_rfl k h
    exact ⟨b, hback.base hb⟩
  intro i hi
  induction i with
  | zero =>
    intro k hk
    obtain ⟨b, hb⟩ := seeded hk (.inl rfl)
    exact ⟨b, (foldl_extends forward_extends (links vols) _).base (hseeds.base hb)⟩
  | succ i ih =>
    intro k hk
    obtain ⟨k0, hk0⟩ := hfirst i (by omega)
    obtain ⟨x, hx⟩ := ih (by omega) k0 hk0
    obtain ⟨l, hl, rfl, rfl⟩ := hL.link_exists hk0 hk
    -- the sum is a true offset, so it does not overflow
    obtain ⟨x', y, hx', hy, hsum⟩ := hL.link_true hl
    have hxx : x' = x := some.inj (hx'.symm.trans (hagrees.2 _ _ (hback.base hx)))
    have hadd : checkedAdd x l.len = some y := by rw [← hxx, checkedAdd_eq_some, hsum]
    exact ⟨_, foldl_forward (links_forward_order vols) linked_ends_ne (hback.clean hagrees.1) hl
      hx hadd⟩

/-- The backward sweep takes a chain from its last piece. -/
theorem Layout.Parses.chain_last (hlast : ∀ i, j ≤ i → i < f.lens.length → ∃ k, ParsedAt vols f i k)
    (h : ParsedAt vols f j k) : ∃ b, (resolveIndexed vols).bases.lookup k = some b := by
  have hclean := hL.agrees.1
  obtain ⟨m, hseeds, hres⟩ := resolveIndexed_cases vols
  rw [hres] at hclean ⊢
  have hsettled := settled_pass vols m hclean
  have hlt : j < f.lens.length := by
    obtain ⟨e, -, hpiece⟩ := h.entryAt
    exact (List.getElem?_eq_some_iff.mp hpiece.dataLen).1
  suffices hbwd : ∀ n i, i + n + 1 = f.lens.length → j ≤ i → ∀ k, ParsedAt vols f i k → ∃ b,
      (pass (links vols) m).bases.lookup k = some b from
    hbwd (f.lens.length - j - 1) j (by omega) le_rfl k h
  intro n
  induction n with
  | zero =>
    intro i hi _ k hk
    obtain ⟨b, hb⟩ := seeded hk (.inr (by omega))
    exact ⟨b, (pass_extends (links vols) m).base (hseeds.base hb)⟩
  | succ n ih =>
    intro i hi hji k hk
    obtain ⟨k1, hk1⟩ := hlast (i + 1) (by omega) (by omega)
    obtain ⟨y, hy⟩ := ih (i + 1) (by omega) (by omega) k1 hk1
    obtain ⟨l, hl, rfl, rfl⟩ := hL.link_exists hk hk1
    obtain ⟨x, hx, -⟩ := hsettled l hl y hy
    exact ⟨x, hx⟩

end Parses

/-- On a true layout every base is true, and every parsed piece has one that parsed pieces of its
file join to the first or the last; on any headers, bases that show no contradiction follow the
links. -/
theorem resolveIndexed_correct (vols : Vols) :
    (∀ L : Layout, L.Parses vols → (resolveIndexed vols).contradiction = false ∧
      (∀ k b, (resolveIndexed vols).bases.lookup k = some b →
        ∃ f ∈ L.files, ∃ j, ParsedAt vols f j k) ∧
      ∀ f ∈ L.files, ∀ j k, ParsedAt vols f j k →
        (∀ b, (resolveIndexed vols).bases.lookup k = some b → b.toNat = f.offset j) ∧
        ((∀ i ≤ j, ∃ k', ParsedAt vols f i k') ∨
            (∀ i, j ≤ i → i < f.lens.length → ∃ k', ParsedAt vols f i k') →
          ∃ b, (resolveIndexed vols).bases.lookup k = some b)) ∧
    ((resolveIndexed vols).contradiction = false → ∀ l ∈ links vols, ∀ x y,
      (resolveIndexed vols).bases.lookup l.a = some x →
      (resolveIndexed vols).bases.lookup l.b = some y → y.toNat = x.toNat + l.len.toNat) := by
  constructor
  · intro L hL
    have hagrees := hL.agrees
    refine ⟨hagrees.1, ?_, ?_⟩
    · intro k b hb
      obtain ⟨f, hf, j, h, -⟩ := Layout.of_trueBase_eq (hagrees.2 k b hb)
      exact ⟨f, hf, j, h⟩
    · intro f hf j k h
      refine ⟨fun b hb => ?_, ?_⟩
      · obtain ⟨b', hb', hnat⟩ := L.trueBase_eq hf h
        rw [hagrees.2 k b hb, some.injEq] at hb'
        rw [hb', hnat]
      · rintro (hfirst | hlast)
        · exact hL.chain_first hfirst h
        · exact hL.chain_last hlast h
  · intro hc l hl x y hx hy
    obtain ⟨m, -, hres⟩ := resolveIndexed_cases vols
    rw [hres] at hc hx hy
    obtain ⟨x', hx', hsum⟩ := settled_pass vols m hc l hl y hy
    rw [hx, some.injEq] at hx'
    rw [← hsum, hx']

/-- Seven bytes in two volumes. -/
def sampleFile : InnerFile where
  name := "a"
  first := 0
  lens := [3, 4]
  size := 7
  nonempty := by decide
  total := by decide

def samplePiece (j : Nat) : FileEntry where
  name := "a"
  unpackedSize := 7
  splitBefore := decide (0 < j)
  splitAfter := decide (j < 1)
  dataOff := 0
  dataLen := if j = 0 then 3 else 4

def sampleLayout : Layout where
  files := [sampleFile]
  entries v := if v < 2 then [samplePiece v] else []
  sound v e he _ := by
    split at he
    case isFalse => cases he
    case isTrue hv =>
      rw [List.mem_singleton.mp he]
      refine ⟨sampleFile, List.mem_singleton.mpr rfl, v, (Nat.zero_add v).symm, ?_⟩
      obtain rfl | rfl : v = 0 ∨ v = 1 := by omega
      · constructor <;> decide
      · constructor <;> decide
  complete f hf j hj := by
    cases List.mem_singleton.mp hf
    have hj : j < 2 := hj
    have hidx : sampleFile.first + j = j := Nat.zero_add j
    refine ⟨samplePiece j, by rw [hidx, if_pos hj]; exact List.mem_singleton.mpr rfl, ?_⟩
    obtain rfl | rfl : j = 0 ∨ j = 1 := by omega
    · constructor <;> decide
    · constructor <;> decide
  one v := by split <;> simp

def sampleVolume (v : UInt64) : UInt64 × Mapped :=
  (v, ⟨some .v5, [samplePiece v.toNat], none, some v, none⟩)

theorem resolveIndexed_sample : sampleLayout.Parses [sampleVolume 0, sampleVolume 1] ∧
    (resolveIndexed [sampleVolume 0, sampleVolume 1]).contradiction = false ∧
    ∃ b, (resolveIndexed [sampleVolume 0, sampleVolume 1]).bases.lookup (1, 0) = some b ∧
      b.toNat = 3 := by
  have hparses : sampleLayout.Parses [sampleVolume 0, sampleVolume 1] := {
    sorted := by decide
    parsed := by
      intro v hv
      rcases mem_pair.mp hv with rfl | rfl
      · exact prefix_rfl
      · exact prefix_rfl }
  have hat : ParsedAt [sampleVolume 0, sampleVolume 1] sampleFile 1 (1, 0) :=
    ⟨sampleVolume 1, samplePiece 1, rfl, rfl, rfl, by constructor <;> decide⟩
  obtain ⟨hclean, -, hbases⟩ := (resolveIndexed_correct _).1 sampleLayout hparses
  obtain ⟨htrue, hgiven⟩ := hbases sampleFile (mem_singleton.mpr rfl) 1 (1, 0) hat
  obtain ⟨b, hb⟩ := hgiven (.inr fun i hi hlt => by
    have hlt : i < 2 := hlt
    obtain rfl : i = 1 := by omega
    exact ⟨_, hat⟩)
  exact ⟨hparses, hclean, b, hb, htrue b hb⟩

end NzbFast.Rar
