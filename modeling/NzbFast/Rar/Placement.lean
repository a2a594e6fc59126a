import NzbFast.Rar.Arith

/-!
# What a placed set satisfies

`Scanned` says what the scan knows of the volumes it has accepted, and
`placed_base` puts every base of a placed set on one line: volume `n` starts at
`n * d` less the field bytes spent before it. Agreement with the chained bases,
the tiling of a closed set and the agreement of two placements are arithmetic on
that line.
-/

namespace NzbFast.Rar

open NzbFast.Rust Fold Finset Option UInt64

/-! ## The scan -/

theorem bind_eq_ok {ε α β : Type} {x : Except ε α} {f : α → Except ε β} {b : β} :
    x.bind f = .ok b ↔ ∃ a, x = .ok a ∧ f a = .ok b := by
  cases x with
  | error e => simp [Except.bind]
  | ok a => simp [Except.bind]

theorem map_eq_ok {ε α β : Type} {x : Except ε α} {f : α → β} {b : β} :
    x.map f = .ok b ↔ ∃ a, x = .ok a ∧ f a = b := by
  cases x with
  | error e => simp [Except.map]
  | ok a => simp [Except.map]

theorem agree_eq_ok {α : Type} [DecidableEq α] {held : Option α} {x y : α} {r : Refusal} :
    agree held x r = .ok y ↔ y = x ∧ ∀ z, held = some z → z = x := by
  unfold agree
  cases held with
  | none => simp [eq_comm]
  | some z =>
    by_cases hz : z = x
    · simp [hz, eq_comm]
    · simp [hz]

/-- What the scan knows of a volume it has accepted. -/
structure Vol (s : Scan) (m : Mapped) (vn : UInt64) (e : FileEntry) (flen : UInt64) : Prop where
  number : m.volumeNumber = some vn
  entries : m.entries = [e]
  field : m.volumeNumberLen = some flen
  plain : plainStored e = true
  name : s.name = some e.name
  total : s.total = some e.unpackedSize
  first : vn = 0 ↔ e.splitBefore = false
  seen : vn ∈ s.seen
  head : vn = 0 → flen ≤ 1 ∧ s.headLen = some flen
  later : vn ≠ 0 → flen = volnumFieldLen vn
  geom : e.splitAfter = true → e.dataLen ≠ 0 ∧ ∃ ob de, s.geom = some (ob, de) ∧
    ob.toNat + flen.toNat = e.dataOff.toNat ∧ e.dataOff.toNat + e.dataLen.toNat = de.toNat
  fin : e.splitAfter = false → s.fin = some (vn, e.dataLen)

/-- What one visit leaves of the scan before it. -/
structure Keeps (s s' : Scan) : Prop where
  name : ∀ x, s.name = some x → s'.name = some x
  total : ∀ x, s.total = some x → s'.total = some x
  seen : s.seen ⊆ s'.seen
  headLen : ∀ x, s.headLen = some x → s'.headLen = some x
  geom : ∀ x, s.geom = some x → s'.geom = some x
  fin : ∀ x, s.fin = some x → s'.fin = some x

variable {e : FileEntry} {d flen h total vn : UInt64} {m : Mapped} {s s' : Scan}
  {vols : List Mapped}

theorem Vol.mono (h : Vol s m vn e flen) (hk : Keeps s s') : Vol s' m vn e flen where
  number := h.number
  entries := h.entries
  field := h.field
  plain := h.plain
  name := hk.name _ h.name
  total := hk.total _ h.total
  first := h.first
  seen := hk.seen h.seen
  head hv := ⟨(h.head hv).1, hk.headLen _ (h.head hv).2⟩
  later := h.later
  geom hs := by
    obtain ⟨hne, ob, de, hg, hrest⟩ := h.geom hs
    exact ⟨hne, ob, de, hk.geom _ hg, hrest⟩
  fin hs := hk.fin _ (h.fin hs)

/-- One accepted volume. -/
structure Visited (s : Scan) (m : Mapped) (s' : Scan) (vn : UInt64) (e : FileEntry)
    (flen : UInt64) : Prop where
  keeps : Keeps s s'
  vol : Vol s' m vn e flen
  fresh : vn ∉ s.seen
  seen : s'.seen = insert vn s.seen
  starts : s'.startsAtZero = (s.startsAtZero || vn == 0)
  headLen : s'.headLen = s.headLen ∨ vn = 0
  geom : s'.geom = s.geom ∨ e.splitAfter = true
  fin : s'.fin = s.fin ∨ e.splitAfter = false

theorem headField_eq_ok {hl : Option UInt64} (h : s.headField vn flen = .ok hl) :
    (vn = 0 ∧ flen ≤ 1 ∧ hl = some flen ∧ ∀ x, s.headLen = some x → x = flen) ∨
      (vn ≠ 0 ∧ flen = volnumFieldLen vn ∧ hl = s.headLen) := by
  unfold Scan.headField at h
  split at h
  case isTrue hv =>
    split at h
    case isTrue => cases h
    case isFalse hle =>
      rw [map_eq_ok] at h
      obtain ⟨x, hx, rfl⟩ := h
      obtain ⟨rfl, hheld⟩ := agree_eq_ok.mp hx
      exact .inl ⟨hv, UInt64.not_lt.mp hle, rfl, hheld⟩
  case isFalse hv =>
    split at h
    case isTrue => cases h
    case isFalse hflen =>
      exact .inr ⟨hv, not_not.mp hflen, (Except.ok.inj h).symm⟩

/-- What `geometry` adds: the geometry of a piece that continues, or the final piece. -/
structure Measured (s s' : Scan) (vn flen : UInt64) (e : FileEntry) : Prop where
  rest : s' = { s with geom := s'.geom, fin := s'.fin }
  geom_keeps : ∀ g, s.geom = some g → s'.geom = some g
  fin_keeps : ∀ f, s.fin = some f → s'.fin = some f
  geom : e.splitAfter = true → e.dataLen ≠ 0 ∧ ∃ ob de, s'.geom = some (ob, de) ∧
    ob.toNat + flen.toNat = e.dataOff.toNat ∧ e.dataOff.toNat + e.dataLen.toNat = de.toNat
  fin : e.splitAfter = false → s'.fin = some (vn, e.dataLen)
  geom_only : s'.geom = s.geom ∨ e.splitAfter = true
  fin_only : s'.fin = s.fin ∨ e.splitAfter = false

theorem measured_of_geometry (h : s.geometry vn flen e = .ok s') : Measured s s' vn flen e := by
  unfold Scan.geometry at h
  split at h
  case h_1 => cases h
  case h_2 ob hob =>
    split at h
    case isTrue hafter =>
      split at h
      case isTrue => cases h
      case isFalse hlen =>
        split at h
        case h_1 => cases h
        case h_2 de hde =>
          obtain ⟨g, hg, rfl⟩ := map_eq_ok.mp h
          obtain ⟨rfl, hheld⟩ := agree_eq_ok.mp hg
          exact {
            rest := rfl
            geom_keeps := fun g hg => by rw [hheld g hg]
            fin_keeps := fun f hf => hf
            geom := fun _ => ⟨hlen, ob, de, rfl, checkedSub_eq_some.mp hob,
              checkedAdd_eq_some.mp hde⟩
            fin := fun hno => by rw [hafter] at hno; cases hno
            geom_only := .inr hafter
            fin_only := .inl rfl }
    case isFalse hafter =>
      split at h
      case isTrue => cases h
      case isFalse hfin =>
        cases h
        have hnone : s.fin = none := by simpa using hfin
        exact {
          rest := rfl
          geom_keeps := fun g hg => hg
          fin_keeps := fun f hf => by rw [hnone] at hf; cases hf
          geom := fun hyes => absurd hyes hafter
          fin := fun _ => rfl
          geom_only := .inl rfl
          fin_only := .inr (by simpa using hafter) }

theorem visited_of_visitEntry (hvn : m.volumeNumber = some vn) (he : m.entries = [e])
    (h : s.visitEntry m vn e = .ok s') : ∃ flen, Visited s m s' vn e flen := by
  unfold Scan.visitEntry at h
  split at h
  case isTrue => cases h
  case isFalse hplain =>
  obtain ⟨_, hagreeName, h⟩ := bind_eq_ok.mp h
  obtain ⟨rfl, hname⟩ := agree_eq_ok.mp hagreeName
  split at h
  case isTrue => cases h
  case isFalse hlater =>
  obtain ⟨_, hagreeTotal, h⟩ := bind_eq_ok.mp h
  obtain ⟨rfl, htotal⟩ := agree_eq_ok.mp hagreeTotal
  split at h
  case isTrue => cases h
  case isFalse hfirst =>
  split at h
  case isTrue => cases h
  case isFalse hfresh =>
  split at h
  case h_1 => cases h
  case h_2 flen hflen =>
  obtain ⟨hl, hhl, h⟩ := bind_eq_ok.mp h
  have hm := measured_of_geometry h
  have hrest := hm.rest
  have hhead := headField_eq_ok hhl
  have hvol : vn = 0 ↔ e.splitBefore = false := by
    constructor
    · intro hv
      by_contra hb
      exact hfirst ⟨hv, by simpa using hb⟩
    · intro hb
      by_contra hv
      exact hlater ⟨UInt64.pos_iff_ne_zero.mpr hv, by simp [hb]⟩
  refine ⟨flen, ?_⟩
  rw [hrest]
  exact {
    keeps := {
      name := fun x hx => by rw [hname x hx]
      total := fun x hx => by rw [htotal x hx]
      seen := subset_insert _ _
      headLen := fun x hx => by
        rcases hhead with ⟨_, _, rfl, hheld⟩ | ⟨_, _, rfl⟩
        · rw [hheld x hx]
        · exact hx
      geom := hm.geom_keeps
      fin := hm.fin_keeps }
    vol := {
      number := hvn
      entries := he
      field := hflen
      plain := by simpa using hplain
      name := rfl
      total := rfl
      first := hvol
      seen := mem_insert_self _ _
      head := fun hv => by
        rcases hhead with ⟨_, hle, rfl, _⟩ | ⟨hne, _, _⟩
        · exact ⟨hle, rfl⟩
        · exact absurd hv hne
      later := fun hv => by
        rcases hhead with ⟨hzero, _⟩ | ⟨_, heq, _⟩
        · exact absurd hzero hv
        · exact heq
      geom := hm.geom
      fin := hm.fin }
    fresh := hfresh
    seen := rfl
    starts := rfl
    headLen := by
      rcases hhead with ⟨hzero, _⟩ | ⟨_, _, rfl⟩
      · exact .inr hzero
      · exact .inl rfl
    geom := hm.geom_only
    fin := hm.fin_only }

theorem visited_of_visit (h : s.visit m = .ok s') : ∃ vn e flen, Visited s m s' vn e flen := by
  unfold Scan.visit at h
  split at h
  case isTrue => cases h
  case isFalse =>
    split at h
    case h_2 => cases h
    case h_1 vn e hvn he =>
      obtain ⟨flen, hv⟩ := visited_of_visitEntry hvn he h
      exact ⟨vn, e, flen, hv⟩

/-- What the whole scan knows. -/
structure Scanned (vols : List Mapped) (s : Scan) : Prop where
  volume : ∀ m ∈ vols, ∃ vn e flen, Vol s m vn e flen
  seen : ∀ vn, vn ∈ s.seen ↔ ∃ m ∈ vols, m.volumeNumber = some vn
  card : s.seen.card = vols.length
  distinct : vols.Pairwise fun m m' => m.volumeNumber ≠ m'.volumeNumber
  starts : s.startsAtZero = true → ∃ m ∈ vols, m.volumeNumber = some 0
  headLen : ∀ h, s.headLen = some h → ∃ m ∈ vols, m.volumeNumber = some 0
  geom : ∀ g, s.geom = some g → ∃ m ∈ vols, ∃ vn e flen, Vol s m vn e flen ∧ e.splitAfter = true
  fin : ∀ f, s.fin = some f → ∃ m ∈ vols, ∃ vn e flen, Vol s m vn e flen ∧ e.splitAfter = false

theorem scanned_nil : Scanned [] {} where
  volume _ hm := nomatch hm
  seen _ := by simp
  card := rfl
  distinct := .nil
  starts h := nomatch h
  headLen _ h := nomatch h
  geom _ h := nomatch h
  fin _ h := nomatch h

theorem Scanned.visit (h : Scanned vols s) (hv : s.visit m = .ok s') :
    Scanned (vols ++ [m]) s' := by
  obtain ⟨vn, e, flen, hv⟩ := visited_of_visit hv
  have hlast : m ∈ vols ++ [m] := by simp
  have hold : ∀ {x}, x ∈ vols → x ∈ vols ++ [m] := fun hx => List.mem_append_left _ hx
  have hfresh : ∀ x ∈ vols, x.volumeNumber ≠ m.volumeNumber := by
    intro x hx heq
    exact hv.fresh ((h.seen vn).mpr ⟨x, hx, by rw [heq, hv.vol.number]⟩)
  exact {
    volume := by
      intro x hx
      rcases List.mem_append.mp hx with hx | hx
      · obtain ⟨n, e', f, hvol⟩ := h.volume x hx
        exact ⟨n, e', f, hvol.mono hv.keeps⟩
      · rw [List.mem_singleton.mp hx]
        exact ⟨vn, e, flen, hv.vol⟩
    seen := by
      intro n
      rw [hv.seen, mem_insert, h.seen]
      constructor
      · rintro (rfl | ⟨x, hx, hn⟩)
        · exact ⟨m, hlast, hv.vol.number⟩
        · exact ⟨x, hold hx, hn⟩
      · rintro ⟨x, hx, hn⟩
        rcases List.mem_append.mp hx with hx | hx
        · exact .inr ⟨x, hx, hn⟩
        · rw [List.mem_singleton.mp hx, hv.vol.number, some.injEq] at hn
          exact .inl hn.symm
    card := by rw [hv.seen, card_insert_of_notMem hv.fresh, h.card, List.length_append]; rfl
    distinct := by
      rw [List.pairwise_append]
      refine ⟨h.distinct, List.pairwise_singleton _ _, fun x hx y hy => ?_⟩
      rw [List.mem_singleton.mp hy]
      exact hfresh x hx
    starts := by
      intro hs
      rw [hv.starts, Bool.or_eq_true, beq_iff_eq] at hs
      rcases hs with hs | rfl
      · obtain ⟨x, hx, hn⟩ := h.starts hs
        exact ⟨x, hold hx, hn⟩
      · exact ⟨m, hlast, hv.vol.number⟩
    headLen := by
      intro l hl
      rcases hv.headLen with hsame | rfl
      · rw [hsame] at hl
        obtain ⟨x, hx, hn⟩ := h.headLen l hl
        exact ⟨x, hold hx, hn⟩
      · exact ⟨m, hlast, hv.vol.number⟩
    geom := by
      intro g hg
      rcases hv.geom with hsame | hafter
      · rw [hsame] at hg
        obtain ⟨x, hx, n, e', f, hvol, hafter⟩ := h.geom g hg
        exact ⟨x, hold hx, n, e', f, hvol.mono hv.keeps, hafter⟩
      · exact ⟨m, hlast, vn, e, flen, hv.vol, hafter⟩
    fin := by
      intro f hf
      rcases hv.fin with hsame | hafter
      · rw [hsame] at hf
        obtain ⟨x, hx, n, e', l, hvol, hafter⟩ := h.fin f hf
        exact ⟨x, hold hx, n, e', l, hvol.mono hv.keeps, hafter⟩
      · exact ⟨m, hlast, vn, e, flen, hv.vol, hafter⟩ }

theorem scanned_of_foldlM {seen : List Mapped} (hs : Scanned seen s)
    (h : vols.foldlM Scan.visit s = .ok s') : Scanned (seen ++ vols) s' := by
  induction vols generalizing seen s with
  | nil =>
    cases h
    simpa using hs
  | cons m vols ih =>
    obtain ⟨t, ht, h⟩ := bind_eq_ok.mp h
    have := ih (hs.visit ht) h
    rwa [List.append_assoc] at this

theorem forall₂_of_mapM {ε α β : Type} {f : α → Except ε β} {l : List α} {bs : List β}
    (h : l.mapM f = .ok bs) : List.Forall₂ (fun a b => f a = .ok b) l bs := by
  induction l generalizing bs with
  | nil =>
    cases h
    exact .nil
  | cons a l ih =>
    rw [List.mapM_cons] at h
    obtain ⟨b, hb, h⟩ := bind_eq_ok.mp h
    obtain ⟨bs', hbs, h⟩ := bind_eq_ok.mp h
    cases h
    exact .cons hb (ih hbs)

/-! ## One line for all bases -/

/-- A set the gate has placed, with what it was placed by. -/
structure Placement (vols : List Mapped) (bases : List UInt64) (s : Scan) (total d h : UInt64) :
    Prop where
  nonempty : vols ≠ []
  scanned : Scanned vols s
  total_eq : s.total = some total
  solved : solve s total = .ok (d, h)
  premise : proven s total d h = true
  based : vols.mapM (pieceBase total d h) = .ok bases

theorem placement_of_place {bases : List UInt64} {closed : Bool}
    (h : resolveArithmetic vols = .place bases closed) :
    ∃ s total d h, Placement vols bases s total d h ∧ closed = closedSet s := by
  unfold resolveArithmetic at h
  split at h
  case isTrue => cases h
  case isFalse hne =>
    split at h
    case h_2 r _ => cases r <;> cases h
    case h_1 g hg =>
      subst h
      obtain ⟨s, hs, hg⟩ := bind_eq_ok.mp hg
      obtain ⟨⟨d, h⟩, hsolve, hg⟩ := bind_eq_ok.mp hg
      split at hg
      case isTrue => cases hg
      case isFalse hproven =>
        obtain ⟨bs, hbs, hplace⟩ := map_eq_ok.mp hg
        cases hplace
        have hscan := scanned_of_foldlM scanned_nil hs
        have htotal : s.total = some (s.total.getD 0) := by
          obtain ⟨m, rest, rfl⟩ := List.exists_cons_of_ne_nil hne
          obtain ⟨vn, e, flen, hvol⟩ := hscan.volume m (.head _)
          rw [hvol.total]
          rfl
        exact ⟨s, s.total.getD 0, d, h, ⟨hne, hscan, htotal, hsolve, by simpa using hproven, hbs⟩, rfl⟩

theorem startOf_of_pieceBase {b : UInt64} (hv : Vol s m vn e flen)
    (hb : pieceBase total d h m = .ok b) : startOf total d h vn e = .ok b := by
  simp only [pieceBase, hv.entries, hv.number] at hb
  obtain ⟨b', hstart, hb⟩ := bind_eq_ok.mp hb
  split at hb
  case h_2 => cases hb
  case h_1 =>
    split at hb
    case isTrue => cases hb
    case isFalse =>
      cases hb
      exact hstart

section Placement

variable {vols : List Mapped} {bases : List UInt64} {s : Scan} {total d h : UInt64}
  (hp : Placement vols bases s total d h)

include hp

variable {e : FileEntry} {b flen vn : UInt64} {m : Mapped}

theorem Placement.total_vol (hv : Vol s m vn e flen) : e.unpackedSize = total :=
  some.inj (hv.total.symm.trans hp.total_eq)

theorem Placement.length : bases.length = vols.length :=
  (forall₂_of_mapM hp.based).length_eq.symm

/-- The base of a volume stands where the volume stands. -/
theorem Placement.base_at {i : Nat} (hm : vols[i]? = some m) :
    ∃ b, bases[i]? = some b ∧ pieceBase total d h m = .ok b := by
  obtain ⟨hi, rfl⟩ := List.getElem?_eq_some_iff.mp hm
  have hi' : i < bases.length := by rw [hp.length]; exact hi
  exact ⟨bases[i], List.getElem?_eq_getElem hi', (forall₂_of_mapM hp.based).get hi hi'⟩

theorem Placement.base_mem (hm : m ∈ vols) : ∃ b, pieceBase total d h m = .ok b := by
  obtain ⟨i, hi⟩ := List.getElem?_of_mem hm
  obtain ⟨b, -, hb⟩ := hp.base_at hi
  exact ⟨b, hb⟩

/-- A piece that continues fills the capacity but for its volume's own field. -/
theorem Placement.capacity (hv : Vol s m vn e flen) (hafter : e.splitAfter = true) :
    e.dataLen.toNat + fieldOf h.toNat vn.toNat = d.toNat := by
  obtain ⟨-, ob, de, hgeom, hob, hde⟩ := hv.geom hafter
  have hsolve := hp.solved
  unfold solve at hsolve
  rw [hgeom] at hsolve
  simp only at hsolve
  split at hsolve
  case h_1 => cases hsolve
  case h_2 d' hd' =>
    obtain ⟨h', hhead, heq⟩ := map_eq_ok.mp hsolve
    cases heq
    have hd := checkedSub_eq_some.mp hd'
    have hfield : flen.toNat = fieldOf h.toNat vn.toNat := by
      unfold fieldOf
      by_cases hvn : vn = 0
      · have hlen := (hv.head hvn).2
        simp only [solveHead, hlen] at hhead
        cases hhead
        simp [hvn]
      · rw [hv.later hvn, volnumFieldLen_toNat, if_neg]
        exact fun h0 => hvn (UInt64.toNat_inj.mp h0)
    omega

/-- The final piece ends where the file ends. -/
theorem Placement.final (hv : Vol s m vn e flen) (hb : pieceBase total d h m = .ok b)
    (hlast : e.splitAfter = false) :
    b.toNat + e.dataLen.toNat = total.toNat ∧ (vn ≠ 0 → arithBase vn d h = some b) := by
  have hpremise := hp.premise
  simp only [proven, hv.fin hlast] at hpremise
  split at hpremise
  case isTrue => cases hpremise
  case isFalse =>
    split at hpremise
    case h_1 => cases hpremise
    case h_2 head hhead =>
      have hsub := checkedSub_eq_some.mp hhead
      have hstart := startOf_of_pieceBase hv hb
      by_cases hvn : vn = 0
      · have hb0 : b = 0 := by
          simp only [startOf, hv.first.mp hvn] at hstart
          exact (Except.ok.inj hstart).symm
        simp only [hvn, if_true, beq_iff_eq] at hpremise
        rw [hpremise] at hsub
        exact ⟨by rw [hb0]; exact hsub, fun hne => absurd hvn hne⟩
      · have hbefore : e.splitBefore = true := by
          rw [← Bool.not_eq_false, ← hv.first]
          exact hvn
        simp only [hvn, if_false, Bool.not_eq_true', Bool.or_eq_false_iff, bne_eq_false_iff_eq]
          at hpremise
        have hbase : b = head := by
          simp only [startOf, hbefore, hlast] at hstart
          have hb := (Except.ok.inj hstart).symm
          rw [hb, ← UInt64.toNat_inj, UInt64.toNat_sub_of_le]
          · omega
          · rw [le_iff_toNat_le]
            omega
        rw [hbase]
        exact ⟨hsub, fun _ => hpremise.1⟩

theorem Placement.line (hv : Vol s m vn e flen) (hb : pieceBase total d h m = .ok b) :
    b.toNat + spent h.toNat vn.toNat = vn.toNat * d.toNat := by
  have hstart := startOf_of_pieceBase hv hb
  by_cases hvn : vn = 0
  · simp only [startOf, hv.first.mp hvn] at hstart
    cases hstart
    simp [hvn, spent]
  · cases hafter : e.splitAfter with
    | false => exact arithBase_eq ((hp.final hv hb hafter).2 hvn)
    | true =>
      have hbefore : e.splitBefore = true := by
        rw [← Bool.not_eq_false, ← hv.first]
        exact hvn
      simp only [startOf, hbefore, hafter, Bool.not_true, Bool.false_eq_true, if_false] at hstart
      split at hstart
      case h_1 b' hb' =>
        cases hstart
        exact arithBase_eq hb'
      case h_2 => cases hstart

/-- A piece starts where the one before it ends. -/
theorem Placement.next {m' : Mapped} {vn' flen' b' : UInt64} {e' : FileEntry}
    (hv : Vol s m vn e flen) (hb : pieceBase total d h m = .ok b) (hv' : Vol s m' vn' e' flen')
    (hb' : pieceBase total d h m' = .ok b') (hafter : e.splitAfter = true)
    (hnext : vn'.toNat = vn.toNat + 1) : b.toNat + e.dataLen.toNat = b'.toNat := by
  have hline := hp.line hv hb
  have hline' := hp.line hv' hb'
  have hcap := hp.capacity hv hafter
  rw [hnext, spent_succ, Nat.succ_mul, ← hline] at hline'
  omega

end Placement

/-! ## The three agreements -/

def number (m : Mapped) : UInt64 := m.volumeNumber.getD 0

def byNumber (vols : List Mapped) : Vols :=
  (vols.map fun m => (number m, m)).mergeSort fun v v' => v.1 ≤ v'.1

def piecesByNumber (vols : List Mapped) (bases : List UInt64) : List (UInt64 × UInt64) :=
  ((vols.zip bases).mergeSort fun p p' => number p.1 ≤ number p'.1).map fun p =>
    (p.2, (p.1.entries.head?.map (·.dataLen)).getD 0)

/-- The pieces follow each other from `start` to `stop`. -/
def Tiles : Nat → List (UInt64 × UInt64) → Nat → Prop
  | start, [], stop => start = stop
  | start, (b, len) :: rest, stop => b.toNat = start ∧ Tiles (start + len.toNat) rest stop

theorem mem_byNumber {v : UInt64 × Mapped} : v ∈ byNumber vols ↔ v.2 ∈ vols ∧ v.1 = number v.2 := by
  rw [byNumber, List.mem_mergeSort, List.mem_map]
  constructor
  · rintro ⟨m, hm, rfl⟩
    exact ⟨hm, rfl⟩
  · rintro ⟨hm, hn⟩
    exact ⟨v.2, hm, by rw [← hn]⟩

theorem byNumber_sorted (vols : List Mapped) :
    (byNumber vols).Pairwise fun v v' => v.1 ≤ v'.1 :=
  List.pairwise_mergeSort' (fun v w : UInt64 × Mapped => v.1 ≤ w.1) _

theorem number_of_vol (hv : Vol s m vn e flen) : number m = vn := by rw [number, hv.number]; rfl

def gateBase (vols : List Mapped) (total d h : UInt64) (k : Key) : Option UInt64 :=
  (entryAt (byNumber vols) k).bind fun _ =>
    (byNumber vols)[k.1]?.bind fun v => (pieceBase total d h v.2).toOption

theorem gateBase_eq {k : Key} {v : UInt64 × Mapped} {b : UInt64}
    (he : entryAt (byNumber vols) k = some e) (hv : (byNumber vols)[k.1]? = some v)
    (hb : pieceBase total d h v.2 = .ok b) : gateBase vols total d h k = some b := by
  rw [gateBase, he, bind_some, hv, bind_some, hb]
  rfl

section Placement

variable {vols : List Mapped} {bases : List UInt64} {s : Scan} {total d h : UInt64}
  (hp : Placement vols bases s total d h)

include hp

variable {e : FileEntry} {m : Mapped} {fdl fvn : UInt64}

/-- An entry of the sorted volumes, with the base that the gate gave it. -/
theorem Placement.entry {k : Key} (he : entryAt (byNumber vols) k = some e) :
    ∃ v flen b, (byNumber vols)[k.1]? = some v ∧ v.2 ∈ vols ∧ k.2 = 0 ∧ Vol s v.2 v.1 e flen ∧
      pieceBase total d h v.2 = .ok b := by
  obtain ⟨v, hv, he⟩ := bind_eq_some_iff.mp he
  obtain ⟨hm, hn⟩ := mem_byNumber.mp (List.mem_of_getElem? hv)
  obtain ⟨vn, e', flen, hvol⟩ := hp.scanned.volume _ hm
  obtain ⟨b, hb⟩ := hp.base_mem hm
  rw [hvol.entries] at he
  have hk : k.2 = 0 := by
    have := (List.getElem?_eq_some_iff.mp he).1
    simpa using this
  rw [hk] at he
  cases he
  rw [number_of_vol hvol] at hn
  exact ⟨v, flen, b, hv, hm, hk, hn ▸ hvol, hb⟩

/-- A piece that seeds itself starts where the gate puts it. -/
theorem Placement.seed_base {vn flen b b' : UInt64} (hvol : Vol s m vn e flen)
    (hb : pieceBase total d h m = .ok b) (hseed : seed e = some b') : b = b' := by
  have hdir : e.isDir = false := by
    have := hvol.plain
    simp only [plainStored, Bool.not_eq_true', Bool.or_eq_false_iff] at this
    exact this.1.1.1.1.1
  rw [seed, if_neg (by simp [hdir])] at hseed
  split at hseed
  case isTrue hfirst =>
    have hstart := startOf_of_pieceBase hvol hb
    simp only [startOf, hfirst, if_true] at hstart
    cases hstart
    exact some.inj hseed
  case isFalse =>
    split at hseed
    case isFalse => cases hseed
    case isTrue htail =>
      simp only [Bool.and_eq_true, Bool.not_eq_true'] at htail
      have hfinal := (hp.final hvol hb htail.1).1
      have hsub := checkedSub_eq_some.mp hseed
      rw [hp.total_vol hvol] at hsub
      rw [← UInt64.toNat_inj]
      omega

/-- The two ends of a link between volumes in the order of their numbers. -/
theorem Placement.link_base {vs : Vols} (hsorted : vs.Pairwise fun v v' => v.1 ≤ v'.1) {l : Link}
    {ea eb : FileEntry} (hlink : Linked vs l ea eb) {va vb : UInt64 × Mapped} {fa fb ba bb : UInt64}
    (hva : vs[l.a.1]? = some va) (hvb : vs[l.b.1]? = some vb) (hvola : Vol s va.2 va.1 ea fa)
    (hvolb : Vol s vb.2 vb.1 eb fb) (hba : pieceBase total d h va.2 = .ok ba)
    (hbb : pieceBase total d h vb.2 = .ok bb) : ba.toNat + l.len.toNat = bb.toNat := by
  rw [hlink.len]
  refine hp.next hvola hba hvolb hbb hlink.split_after ?_
  obtain ⟨va', vb', hva', hvb', hadj⟩ := hlink.adjacent
  rw [hva, some.injEq] at hva'
  rw [hvb, some.injEq] at hvb'
  subst hva' hvb'
  -- the later number does not wrap, since the list is sorted
  have hle : va.1.toNat ≤ vb.1.toNat := by
    obtain ⟨hp1, rfl⟩ := List.getElem?_eq_some_iff.mp hva
    obtain ⟨hp2, rfl⟩ := List.getElem?_eq_some_iff.mp hvb
    exact List.pairwise_iff_getElem.mp hsorted _ _ hp1 hp2 (by have := hlink.succ; omega)
  have hmod : vb.1.toNat = (va.1.toNat + 1) % 2 ^ 64 := by rw [hadj, UInt64.toNat_add]; rfl
  omega

theorem Placement.agrees : Agrees (gateBase vols total d h) (resolveIndexed (byNumber vols)) := by
  refine agrees_resolveIndexed ?_ ?_
  · intro k e b he hseed
    obtain ⟨v, flen, b', hv, hm, -, hvol, hb'⟩ := hp.entry he
    rw [gateBase_eq he hv hb', hp.seed_base hvol hb' hseed]
  · intro l hl
    obtain ⟨ea, eb, hlink⟩ := linked_of_mem hl
    obtain ⟨va, fa, ba, hva, -, -, hvola, hba⟩ := hp.entry hlink.entry_a
    obtain ⟨vb, fb, bb, hvb, -, -, hvolb, hbb⟩ := hp.entry hlink.entry_b
    exact ⟨ba, bb, gateBase_eq hlink.entry_a hva hba, gateBase_eq hlink.entry_b hvb hbb,
      hp.link_base (byNumber_sorted vols) hlink hva hvb hvola hvolb hba hbb⟩

/-! ### Closed sets -/

theorem Placement.numbers_nodup : (vols.map (·.volumeNumber)).Nodup := by
  rw [List.Nodup, List.pairwise_map]
  exact hp.scanned.distinct

theorem Placement.unique {m' : Mapped} (hm : m ∈ vols) (hm' : m' ∈ vols)
    (hn : m.volumeNumber = m'.volumeNumber) : m = m' :=
  List.inj_on_of_nodup_map hp.numbers_nodup hm hm' hn

/-- The final volume has the greatest number, and it is not the last of all numbers. -/
theorem Placement.fin_bound (hfin : s.fin = some (fvn, fdl)) :
    (∀ v ∈ s.seen, v.toNat ≤ fvn.toNat) ∧ fvn.toNat + 1 < 2 ^ 64 := by
  constructor
  · intro v hv
    have hpremise := hp.premise
    simp only [proven, hfin] at hpremise
    split at hpremise
    case isTrue => cases hpremise
    case isFalse hnone =>
      rw [← not_lt]
      exact fun hlt => hnone ⟨v, hv, hlt⟩
  · obtain ⟨m, hm, vn, e, flen, hvol, hlast⟩ := hp.scanned.fin _ hfin
    obtain ⟨b, hb⟩ := hp.base_mem hm
    have heq : vn = fvn := by
      have := (hvol.fin hlast).symm.trans hfin
      simp only [some.injEq, Prod.mk.injEq] at this
      exact this.1
    rw [← heq]
    by_contra hge
    -- the fields before the last of all numbers do not fit
    have hmax : vn = ofNat (2 ^ 64 - 1) := by
      have := vn.toNat_lt
      rw [← UInt64.toNat_inj, UInt64.toNat_ofNat']
      omega
    have hnone : volnumFieldBytesBefore (ofNat (2 ^ 64 - 1)) = none := by decide
    have harith := (hp.final hvol hb hlast).2 (by rw [hmax]; decide)
    rw [arithBase, hmax, hnone] at harith
    cases harith

theorem Placement.closed_numbers (hfin : s.fin = some (fvn, fdl))
    (hcard : ofNat s.seen.card = saturatingAdd fvn 1) (n : Nat) :
    n ∈ s.seen.image toNat ↔ n < fvn.toNat + 1 := by
  obtain ⟨hle, hlt⟩ := hp.fin_bound hfin
  have hsub : s.seen.image toNat ⊆ range (fvn.toNat + 1) := by
    intro n hn
    obtain ⟨v, hv, rfl⟩ := mem_image.mp hn
    rw [mem_range]
    have := hle v hv
    omega
  have himage : (s.seen.image toNat).card = s.seen.card :=
    card_image_of_injective _ fun a b hab => UInt64.toNat_inj.mp hab
  have hcards : s.seen.card = fvn.toNat + 1 := by
    have hbound := card_le_card hsub
    rw [himage, card_range] at hbound
    have hnat := congrArg toNat hcard
    rw [saturatingAdd, if_pos (by simpa using hlt), UInt64.toNat_ofNat', UInt64.toNat_add,
      toNat_one, Nat.mod_eq_of_lt (by omega), Nat.mod_eq_of_lt hlt] at hnat
    exact hnat
  have heq := eq_of_subset_of_card_le hsub (by rw [himage, card_range, hcards])
  rw [heq, mem_range]

theorem Placement.ranked_numbers (hfin : s.fin = some (fvn, fdl))
    (hcard : ofNat s.seen.card = saturatingAdd fvn 1) :
    ((vols.zip bases).mergeSort fun p p' => number p.1 ≤ number p'.1).map
      (fun p => (number p.1).toNat) = List.range (fvn.toNat + 1) := by
  have hzip : (vols.zip bases).map Prod.fst = vols := List.map_fst_zip (by rw [hp.length])
  have hmap : (vols.map fun m => (number m).toNat) =
      (vols.zip bases).map fun p => (number p.1).toNat := by
    conv_lhs => rw [← hzip, List.map_map]
    rfl
  have hperm : (vols.map fun m => (number m).toNat).Perm (List.range (fvn.toNat + 1)) := by
    refine (List.perm_ext_iff_of_nodup ?_ List.nodup_range).mpr fun n => ?_
    · refine hp.numbers_nodup.of_map.map_on ?_
      intro m hm m' hm' heq
      obtain ⟨vn, e, flen, hvol⟩ := hp.scanned.volume m hm
      obtain ⟨vn', e', flen', hvol'⟩ := hp.scanned.volume m' hm'
      rw [number_of_vol hvol, number_of_vol hvol', UInt64.toNat_inj] at heq
      exact hp.unique hm hm' (by rw [hvol.number, hvol'.number, heq])
    · rw [List.mem_range, ← hp.closed_numbers hfin hcard, List.mem_map, mem_image]
      constructor
      · rintro ⟨m, hm, rfl⟩
        obtain ⟨vn, e, flen, hvol⟩ := hp.scanned.volume m hm
        exact ⟨vn, hvol.seen, by rw [number_of_vol hvol]⟩
      · rintro ⟨v, hv, rfl⟩
        obtain ⟨m, hm, hn⟩ := (hp.scanned.seen v).mp hv
        exact ⟨m, hm, by rw [number, hn]; rfl⟩
  rw [hmap] at hperm
  refine List.Perm.eq_of_pairwise (fun a b _ _ => le_antisymm) ?_ List.pairwise_le_range
    (((List.mergeSort_perm _ _).map _).trans hperm)
  rw [List.pairwise_map]
  exact List.pairwise_mergeSort' (fun p q : Mapped × UInt64 => number p.1 ≤ number q.1) _

/-- In a closed set the piece of the last number is the final one, and no other is. -/
theorem Placement.final_iff (hfin : s.fin = some (fvn, fdl)) (hm : m ∈ vols) {vn flen : UInt64}
    (hv : Vol s m vn e flen) : e.splitAfter = false ↔ vn = fvn := by
  constructor
  · intro hlast
    have := (hv.fin hlast).symm.trans hfin
    simp only [some.injEq, Prod.mk.injEq] at this
    exact this.1
  · rintro rfl
    obtain ⟨m', hm', vn', e', flen', hv', hlast⟩ := hp.scanned.fin _ hfin
    have heq : vn' = vn := by
      have := (hv'.fin hlast).symm.trans hfin
      simp only [some.injEq, Prod.mk.injEq] at this
      exact this.1
    have hmm := hp.unique hm hm' (by rw [hv.number, hv'.number, heq])
    subst hmm
    have hee := hv.entries.symm.trans hv'.entries
    simp only [List.cons.injEq, and_true] at hee
    rw [hee, hlast]

/-- Pieces of consecutive numbers up to the last one tile what is left of the file. -/
theorem Placement.tiles_from {fvn fdl : UInt64} (hfin : s.fin = some (fvn, fdl))
    {ps : List (Mapped × UInt64)} (hps : ∀ p ∈ ps, p.1 ∈ vols ∧ pieceBase total d h p.1 = .ok p.2)
    {k n start : Nat} (hnum : ps.map (fun p => (number p.1).toNat) = List.range' k (n + 1))
    (hlast : k + n = fvn.toNat) (hstart : start + spent h.toNat k = k * d.toNat) :
    Tiles start (ps.map fun p => (p.2, (p.1.entries.head?.map (·.dataLen)).getD 0)) total.toNat := by
  induction n generalizing ps k start with
  | zero =>
    obtain ⟨p, rfl⟩ := List.length_eq_one_iff.mp (by simpa using congrArg List.length hnum)
    obtain ⟨hm, hb⟩ := hps p (by simp)
    obtain ⟨vn, e, flen, hv⟩ := hp.scanned.volume _ hm
    have hk : vn.toNat = k := by
      simpa [number_of_vol hv] using hnum
    have hline := hp.line hv hb
    rw [hk] at hline
    have hfinal := hp.final hv hb ((hp.final_iff hfin hm hv).mpr (UInt64.toNat_inj.mp (by omega)))
    have hb0 : p.2.toNat = start := by omega
    simp only [List.map_cons, List.map_nil, hv.entries, Tiles, List.head?_cons, map_some, getD_some]
    exact ⟨hb0, by rw [← hb0]; exact hfinal.1⟩
  | succ n ih =>
    obtain ⟨p, ps, rfl⟩ := List.exists_cons_of_length_pos (l := ps) (by
      have := congrArg List.length hnum
      simp only [List.length_map, List.length_range'] at this
      omega)
    rw [List.map_cons, List.range'_succ, List.cons.injEq] at hnum
    obtain ⟨hm, hb⟩ := hps p (.head _)
    obtain ⟨vn, e, flen, hv⟩ := hp.scanned.volume _ hm
    have hk : vn.toNat = k := by rw [← number_of_vol hv]; exact hnum.1
    have hline := hp.line hv hb
    rw [hk] at hline
    have hafter : e.splitAfter = true := by
      rw [← Bool.not_eq_false, hp.final_iff hfin hm hv]
      intro heq
      rw [heq] at hk
      omega
    have hcap := hp.capacity hv hafter
    rw [hk] at hcap
    have hb0 : p.2.toNat = start := by omega
    simp only [List.map_cons, hv.entries, Tiles, List.head?_cons, map_some, getD_some]
    refine ⟨hb0, ih (fun q hq => hps q (.tail _ hq)) hnum.2 (by omega) ?_⟩
    rw [spent_succ, Nat.succ_mul, ← hstart]
    omega

/-- The pieces of a closed set tile the file. -/
theorem Placement.tiles (hclosed : closedSet s = true) :
    Tiles 0 (piecesByNumber vols bases) total.toNat := by
  unfold closedSet at hclosed
  split at hclosed
  case h_1 => cases hclosed
  case h_2 fvn fdl hfin =>
    rw [beq_iff_eq] at hclosed
    have hnum := hp.ranked_numbers hfin hclosed
    rw [List.range_eq_range'] at hnum
    refine hp.tiles_from hfin ?_ hnum (zero_add _) (by simp [spent])
    intro p hpmem
    rw [List.mem_mergeSort] at hpmem
    obtain ⟨i, hi⟩ := List.getElem?_of_mem hpmem
    obtain ⟨hm, hb⟩ := List.getElem?_zip_eq_some.mp hi
    obtain ⟨b, hb', hbase⟩ := hp.base_at hm
    rw [hb, some.injEq] at hb'
    exact ⟨List.mem_of_getElem? hm, hb' ▸ hbase⟩

end Placement

/-! ### Two placements -/

theorem Vol.same {vn' flen' : UInt64} {e' : FileEntry} (hv : Vol s m vn e flen)
    (hv' : Vol s' m vn' e' flen') : vn' = vn ∧ e' = e := by
  have hn := hv'.number.symm.trans hv.number
  have he := hv'.entries.symm.trans hv.entries
  simp only [some.injEq, List.cons.injEq, and_true] at hn he
  exact ⟨hn, he⟩

/-- What proves the premise: the head, or the final volume. -/
theorem Placement.anchor {bases : List UInt64} (hp : Placement vols bases s total d h) :
    ∃ m ∈ vols, ∃ vn e flen, Vol s m vn e flen ∧ (vn = 0 ∨ e.splitAfter = false) := by
  cases hfin : s.fin with
  | some f =>
    obtain ⟨m, hm, vn, e, flen, hv, hlast⟩ := hp.scanned.fin f hfin
    exact ⟨m, hm, vn, e, flen, hv, .inr hlast⟩
  | none =>
    have hpremise := hp.premise
    simp only [proven, hfin] at hpremise
    obtain ⟨m, hm, hn⟩ := hp.scanned.starts hpremise
    obtain ⟨vn, e, flen, hv⟩ := hp.scanned.volume m hm
    rw [hv.number, some.injEq] at hn
    exact ⟨m, hm, vn, e, flen, hv, .inl hn⟩

section TwoPlacements

variable {vols vols' : List Mapped} {bases bases' : List UInt64} {s s' : Scan}
  {total d h total' d' h' : UInt64} (hp : Placement vols bases s total d h)
  (hp' : Placement vols' bases' s' total' d' h') (hsub : ∀ m ∈ vols, m ∈ vols')

include hp hp' hsub

theorem Placement.head_eq (hd : d = d') (htotal : total = total') {m : Mapped}
    {vn flen : UInt64} {e : FileEntry} (hv : Vol s m vn e flen) (hvn : vn ≠ 0) :
    h.toNat = h'.toNat := by
  obtain ⟨m0, hm0, vn0, e0, flen0, hv0, hanchor⟩ := hp.anchor
  obtain ⟨vn0', e0', flen0', hv0'⟩ := hp'.scanned.volume m0 (hsub m0 hm0)
  obtain ⟨rfl, rfl⟩ := hv0.same hv0'
  cases hafter0 : e0'.splitAfter with
  | true =>
    -- the head itself, whose piece fills the capacity but for the field
    have hzero : vn0' = 0 := by simpa [hafter0] using hanchor
    have hcap := hp.capacity hv0 hafter0
    have hcap' := hp'.capacity hv0' hafter0
    rw [hzero] at hcap hcap'
    simp only [fieldOf, UInt64.toNat_zero, if_true] at hcap hcap'
    rw [← hd] at hcap'
    omega
  | false =>
    -- the final volume, whose base is read off the declared size
    obtain ⟨b0, hb0⟩ := hp.base_mem hm0
    obtain ⟨b0', hb0'⟩ := hp'.base_mem (hsub m0 hm0)
    have hsize := (hp.final hv0 hb0 hafter0).1
    have hsize' := (hp'.final hv0' hb0' hafter0).1
    have hline := hp.line hv0 hb0
    have hline' := hp'.line hv0' hb0'
    have hle := (hp.fin_bound (hv0.fin hafter0)).1 vn hv.seen
    have hpos : vn.toNat ≠ 0 := fun h0 => hvn (UInt64.toNat_inj.mp h0)
    rw [← hd] at hline'
    rw [← htotal] at hsize'
    simp only [spent] at hline hline'
    rw [if_neg (by omega)] at hline hline'
    omega

/-- A volume has one base in every placed set it is part of. -/
theorem Placement.base_eq {m : Mapped} (hm : m ∈ vols) {b b' : UInt64}
    (hb : pieceBase total d h m = .ok b) (hb' : pieceBase total' d' h' m = .ok b') : b = b' := by
  obtain ⟨vn, e, flen, hv⟩ := hp.scanned.volume m hm
  obtain ⟨vn', e', flen', hv'⟩ := hp'.scanned.volume m (hsub m hm)
  obtain ⟨rfl, rfl⟩ := hv.same hv'
  have htotal : total = total' := (hp.total_vol hv).symm.trans (hp'.total_vol hv')
  have hline := hp.line hv hb
  have hline' := hp'.line hv' hb'
  rw [← UInt64.toNat_inj]
  by_cases hvn : vn' = 0
  · simp only [hvn, UInt64.toNat_zero, spent, if_true, Nat.zero_mul] at hline hline'
    omega
  · cases hafter : e'.splitAfter with
    | false =>
      have hsize := (hp.final hv hb hafter).1
      have hsize' := (hp'.final hv' hb' hafter).1
      rw [← htotal] at hsize'
      omega
    | true =>
      have hcap := hp.capacity hv hafter
      have hcap' := hp'.capacity hv' hafter
      have hpos : vn'.toNat ≠ 0 := fun h0 => hvn (UInt64.toNat_inj.mp h0)
      simp only [fieldOf, hpos, if_false] at hcap hcap'
      have hd : d = d' := by rw [← UInt64.toNat_inj]; omega
      have hh := hp.head_eq hp' hsub hd htotal hv hvn
      rw [← hd, ← hh] at hline'
      omega

end TwoPlacements

/-- Arithmetic placement agrees with the chained one, with the tiling of a closed set, and with
itself on a larger list; and the band sum is the sum of the field lengths. -/
theorem resolveArithmetic_correct :
    (∀ vols bases closed, resolveArithmetic vols = .place bases closed →
      bases.length = vols.length ∧
      (resolveIndexed (byNumber vols)).contradiction = false ∧
      (∀ k b, (resolveIndexed (byNumber vols)).bases.lookup k = some b →
        k.2 = 0 ∧ ∃ (i : Nat) (m : Mapped), vols[i]? = some m ∧ bases[i]? = some b ∧
          (byNumber vols)[k.1]? = some (number m, m)) ∧
      (closed = true → ∃ total : UInt64, (∀ m ∈ vols, ∀ e ∈ m.entries, e.unpackedSize = total) ∧
        Tiles 0 (piecesByNumber vols bases) total.toNat)) ∧
    (∀ vols vols' bases bases' closed closed', resolveArithmetic vols = .place bases closed →
      resolveArithmetic vols' = .place bases' closed' → (∀ m ∈ vols, m ∈ vols') →
      ∀ (i j : Nat) (m : Mapped), vols[i]? = some m → vols'[j]? = some m →
        bases[i]? = bases'[j]?) ∧
    ∀ n : UInt64, ∑ k ∈ Finset.Ico 1 n.toNat, (volnumFieldLen (UInt64.ofNat k)).toNat < 2 ^ 64 →
      ∃ c, volnumFieldBytesBefore n = some c ∧
        c.toNat = ∑ k ∈ Finset.Ico 1 n.toNat, (volnumFieldLen (UInt64.ofNat k)).toNat := by
  refine ⟨?_, ?_, ?_⟩
  · intro vols bases closed hplace
    obtain ⟨s, total, d, h, hp, rfl⟩ := placement_of_place hplace
    have hagrees := hp.agrees
    refine ⟨hp.length, hagrees.1, ?_, ?_⟩
    · intro k b hb
      have hgate := hagrees.2 k b hb
      obtain ⟨e, he, hgate⟩ := bind_eq_some_iff.mp hgate
      obtain ⟨v, flen, b', hv, hm, hk, hvol, hb'⟩ := hp.entry he
      rw [hv, bind_some, hb'] at hgate
      obtain ⟨i, hi⟩ := List.getElem?_of_mem hm
      obtain ⟨b'', hb'', hbase⟩ := hp.base_at hi
      rw [hb'] at hbase
      refine ⟨hk, i, v.2, hi, ?_, ?_⟩
      · rw [hb'', ← Except.ok.inj hbase]
        exact hgate
      · rw [hv, number_of_vol hvol]
    · intro hclosed
      refine ⟨total, fun m hm e he => ?_, hp.tiles hclosed⟩
      obtain ⟨vn, e', flen, hv⟩ := hp.scanned.volume m hm
      rw [hv.entries, List.mem_singleton] at he
      rw [he, hp.total_vol hv]
  · intro vols vols' bases bases' closed closed' hplace hplace' hsub i j m hi hj
    obtain ⟨s, total, d, h, hp, -⟩ := placement_of_place hplace
    obtain ⟨s', total', d', h', hp', -⟩ := placement_of_place hplace'
    obtain ⟨b, hb, hbase⟩ := hp.base_at hi
    obtain ⟨b', hb', hbase'⟩ := hp'.base_at hj
    rw [hb, hb', hp.base_eq hp' hsub (List.mem_of_getElem? hi) hbase hbase']
  · intro n hfits
    have hsum : ∑ k ∈ Finset.Ico 1 n.toNat, (volnumFieldLen (UInt64.ofNat k)).toNat =
        fieldSum n.toNat := by
      refine sum_congr rfl fun k hk => ?_
      have hlt := (mem_Ico.mp hk).2
      have := n.toNat_lt
      rw [volnumFieldLen_toNat, UInt64.toNat_ofNat', Nat.mod_eq_of_lt (by omega)]
    rw [hsum] at hfits ⊢
    have hnat : (UInt64.ofNat (fieldSum n.toNat)).toNat = fieldSum n.toNat := by
      rw [UInt64.toNat_ofNat', Nat.mod_eq_of_lt hfits]
    exact ⟨_, volnumFieldBytesBefore_eq_some.mpr hnat.symm, hnat⟩

/-- Eight bytes in two volumes: the head omits its number field. -/
def sampleHalf (vn flen len : UInt64) : Mapped where
  version := some .v5
  entries := [{
    name := "a"
    unpackedSize := 8
    splitBefore := vn != 0
    splitAfter := vn == 0
    dataOff := 10 + flen
    dataLen := len }]
  blocker := none
  volumeNumber := some vn
  volumeNumberLen := some flen

theorem resolveArithmetic_sample :
    resolveArithmetic [sampleHalf 1 1 3, sampleHalf 0 0 5] = .place [5, 0] true ∧
      (resolveIndexed (byNumber [sampleHalf 1 1 3, sampleHalf 0 0 5])).contradiction = false := by
  have hplace : resolveArithmetic [sampleHalf 1 1 3, sampleHalf 0 0 5] = .place [5, 0] true := by
    decide +kernel
  exact ⟨hplace, (resolveArithmetic_correct.1 _ _ _ hplace).2.1⟩

end NzbFast.Rar
