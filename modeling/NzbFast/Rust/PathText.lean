import NzbFast.Rust.Path
import Mathlib.Data.List.TakeWhile

/-!
# Paths as texts

The text of a path buffer, and what reading a text back as a path keeps of its end: a text
that ends in a dash and letters or digits has a component that ends so, whatever stands in
front of it. On Windows that component may be part of the prefix.
-/

namespace NzbFast.Rust

open NzbFast.Rust List

/-! ## The text of a path -/

def Prefix.text : Prefix → Text
  | .verbatim name => "\\\\?\\".toList ++ name
  | .verbatimUNC server share =>
    "\\\\?\\UNC\\".toList ++ server ++ if share = [] then [] else '\\' :: share
  | .verbatimDisk d => "\\\\?\\".toList ++ [d, ':']
  | .deviceNS name => "\\\\.\\".toList ++ name
  | .unc server share => "\\\\".toList ++ server ++ if share = [] then [] else '\\' :: share
  | .disk d => [d, ':']

def MAIN_SEPARATOR (windows : Bool) : Char := if windows then '\\' else '/'

def Component.text (windows : Bool) : Component → Text
  | .pre p => p.text
  | .rootDir => [MAIN_SEPARATOR windows]
  | .curDir => ['.']
  | .parentDir => ['.', '.']
  | .normal name => name

/-- `Path::to_string_lossy`: a separator behind every piece but a prefix, a root and the last. -/
def pathText (windows : Bool) : PathBuf → Text
  | [] => []
  | [c] => c.text windows
  | .pre p :: rest => p.text ++ pathText windows rest
  | .rootDir :: rest => MAIN_SEPARATOR windows :: pathText windows rest
  | c :: rest => c.text windows ++ MAIN_SEPARATOR windows :: pathText windows rest

theorem pathText_snoc (windows : Bool) (p : PathBuf) (name : Text) :
    ∃ front, pathText windows (p ++ [.normal name]) = front ++ name := by
  induction p with
  | nil => exact ⟨[], rfl⟩
  | cons c p ih =>
    obtain ⟨front, h⟩ := ih
    obtain ⟨d, rest, hd⟩ : ∃ d rest, p ++ [Component.normal name] = d :: rest := by
      cases p <;> exact ⟨_, _, rfl⟩
    rw [hd] at h
    rw [cons_append, hd]
    cases c <;> simp only [pathText, h]
    · exact ⟨_, (append_assoc ..).symm⟩
    · exact ⟨MAIN_SEPARATOR windows :: front, rfl⟩
    all_goals exact ⟨_ ++ MAIN_SEPARATOR windows :: front, by rw [append_assoc]; rfl⟩

/-! ## What a text ends in -/

/-- The text ends in a dash and `u`. -/
def EndsIn (u t : Text) : Prop := ∃ z, t = z ++ '-' :: u

section

variable {u t : Text}

theorem EndsIn.append (h : EndsIn u t) (a : Text) : EndsIn u (a ++ t) := by
  obtain ⟨z, rfl⟩ := h
  exact ⟨a ++ z, (append_assoc ..).symm⟩

/-- What stands behind a character that is not part of the end ends so too. -/
theorem EndsIn.behind {a b : Text} {x : Char} (h : EndsIn u (a ++ x :: b)) (hx : x ≠ '-')
    (hu : x ∉ u) : EndsIn u b := by
  obtain ⟨z, h⟩ := h
  rcases append_eq_append_iff.mp h with ⟨c, rfl, hc⟩ | ⟨c, rfl, hc⟩
  · cases c with
    | nil => exact absurd (cons.inj hc).1 hx
    | cons y c =>
      rw [cons_append, cons.injEq] at hc
      exact ⟨c, hc.2⟩
  · cases c with
    | nil => exact absurd (cons.inj hc).1.symm hx
    | cons y c =>
      rw [cons_append, cons.injEq] at hc
      exact absurd (by rw [hc.2]; simp) hu

/-- Texts without a dash are told apart by the texts that end in them. -/
theorem EndsIn.unique {v : Text} (hu : '-' ∉ u) (hv : '-' ∉ v) (h : EndsIn u t) (h' : EndsIn v t) :
    u = v := by
  obtain ⟨z, rfl⟩ := h
  obtain ⟨y, h'⟩ := h'
  rcases append_eq_append_iff.mp h' with ⟨c, rfl, hc⟩ | ⟨c, rfl, hc⟩
  · cases c with
    | nil => exact (cons.inj hc).2
    | cons x c =>
      rw [cons_append, cons.injEq] at hc
      exact absurd (by rw [hc.2]; simp) hu
  · cases c with
    | nil => exact (cons.inj hc).2.symm
    | cons x c =>
      rw [cons_append, cons.injEq] at hc
      exact absurd (by rw [hc.2]; simp) hv

theorem EndsIn.map (h : EndsIn u t) {f : Char → Char} (hdash : f '-' = '-') (hu : ∀ c ∈ u, f c = c) :
    EndsIn u (t.map f) := by
  obtain ⟨z, rfl⟩ := h
  refine ⟨z.map f, ?_⟩
  rw [map_append, map_cons, hdash, map_congr_left hu, map_id']

theorem EndsIn.dropWhile (h : EndsIn u t) {p : Char → Bool} (hp : p '-' = false) :
    EndsIn u (t.dropWhile p) := by
  obtain ⟨z, rfl⟩ := h
  rw [dropWhile_append]
  split
  · exact ⟨[], by rw [dropWhile_cons, hp]; rfl⟩
  · exact ⟨_, rfl⟩

theorem EndsIn.getLast? (h : EndsIn u t) (hne : u ≠ []) : t.getLast? = u.getLast? := by
  obtain ⟨z, rfl⟩ := h
  rw [getLast?_append_of_ne_nil _ (by simp), getLast?_cons_of_ne_nil hne]

theorem EndsIn.ne_nil (h : EndsIn u t) : t ≠ [] := by
  obtain ⟨z, rfl⟩ := h
  simp

theorem getLast?_split_append (sep : Char) (a b : Text) :
    (split sep (a ++ sep :: b)).getLast? = (split sep b).getLast? := by
  have hcons (p : Text) (t : Text) : (p :: split sep t).getLast? = (split sep t).getLast? :=
    getLast?_cons_of_ne_nil (split_ne_nil sep t)
  induction a with
  | nil => rw [nil_append, split, if_pos rfl, hcons]
  | cons c a ih =>
    rw [cons_append, split]
    split
    · rw [hcons, ih]
    · have hlen : 2 ≤ (split sep (a ++ sep :: b)).length := two_le_length_split (by simp)
      rw [← ih]
      cases hs : split sep (a ++ sep :: b) with
      | nil => exact absurd hs (split_ne_nil sep _)
      | cons q qs =>
        cases qs with
        | nil => rw [hs] at hlen; simp at hlen
        | cons r rs => rfl

theorem split_last (sep : Char) (t : Text) :
    ∃ p, (split sep t).getLast? = some p ∧ (t = p ∨ ∃ a, t = a ++ sep :: p) := by
  by_cases h : sep ∈ t
  · obtain ⟨b, a, hba, hb⟩ := eq_append_cons_of_mem (mem_reverse.mpr h)
    have ht : t = a.reverse ++ sep :: b.reverse := by
      rw [← reverse_reverse t, hba]
      simp
    refine ⟨b.reverse, ?_, .inr ⟨_, ht⟩⟩
    rw [ht, getLast?_split_append, split_of_not_mem (by simpa using hb)]
    rfl
  · exact ⟨t, by rw [split_of_not_mem h]; rfl, .inl rfl⟩

/-- The last piece ends as the whole does. -/
theorem EndsIn.split (h : EndsIn u t) {sep : Char} (hsep : sep ≠ '-') (hu : sep ∉ u) :
    ∃ p, (split sep t).getLast? = some p ∧ EndsIn u p := by
  obtain ⟨p, hp, rfl | ⟨a, rfl⟩⟩ := split_last sep t
  · exact ⟨_, hp, h⟩
  · exact ⟨p, hp, h.behind hsep hu⟩

/-! ## What a path read back ends in -/

def Prefix.last : Prefix → Text
  | .verbatim name | .deviceNS name => name
  | .verbatimUNC server share | .unc server share => if share = [] then server else share
  | .verbatimDisk _ | .disk _ => []

def lastText (p : PathBuf) : Text :=
  match p.getLast?, p.head? with
  | some (.normal name), _ => name
  | _, some (.pre p) => p.last
  | _, _ => []

/-- One component taken off the front: all of the text, or up to a separator. -/
theorem parseNextComponent_endsIn (h : EndsIn u t) (hu : Alnum u) :
    (parseNextComponent t).1 = t ∧ (parseNextComponent t).2 = [] ∨
    t.length = (parseNextComponent t).1.length + 1 + (parseNextComponent t).2.length ∧
      EndsIn u (parseNextComponent t).2 := by
  unfold parseNextComponent
  by_cases hmem : '\\' ∈ t
  · obtain ⟨a, b, rfl, ha⟩ := eq_append_cons_of_mem hmem
    have hpos : ∀ c ∈ a, (c != '\\') = true := fun c hc => by
      rw [bne_iff_ne]
      rintro rfl
      exact ha hc
    rw [takeWhile_append_of_pos hpos, dropWhile_append_of_pos hpos]
    refine .inr ⟨?_, ?_⟩
    · simp
      omega
    · simpa using h.behind (by decide) (hu.not_mem (by decide))
  · have hpos : ∀ c ∈ t, (c != '\\') = true := fun c hc => by
      rw [bne_iff_ne]
      rintro rfl
      exact hmem hc
    refine .inl ⟨takeWhile_eq_self_iff.mpr hpos, ?_⟩
    rw [dropWhile_eq_nil_iff.mpr hpos]
    rfl

theorem EndsIn.backslashed (h : EndsIn u t) (hu : Alnum u) : EndsIn u (backslashed t) := by
  obtain ⟨z, rfl⟩ := h
  have htail : backslashed ('-' :: u) = '-' :: u :=
    backslashed_eq_self (by simpa using hu.not_mem (c := '/') (by decide))
  refine ⟨backslashed z, ?_⟩
  calc backslashed (z ++ '-' :: u)
      = backslashed z ++ backslashed ('-' :: u) := map_append
    _ = backslashed z ++ '-' :: u := by rw [htail]

theorem EndsIn.length_lt (h : EndsIn u t) : u.length < t.length := by
  obtain ⟨z, rfl⟩ := h
  simp
  omega

theorem EndsIn.drop (h : EndsIn u t) {k : Nat} (hk : k + u.length < t.length) :
    EndsIn u (t.drop k) := by
  obtain ⟨z, rfl⟩ := h
  simp at hk
  exact ⟨z.drop k, by rw [drop_append_of_le_length (by omega)]⟩

section

variable {b : Text} {k : Nat}

theorem EndsIn.next (h : EndsIn u t) (hb : EndsIn u b) (hu : Alnum u)
    (hk : t.length = k + b.length) :
    EndsIn u (t.drop (k + (parseNextComponent b).1.length)) ∨
      t.length ≤ k + (parseNextComponent b).1.length ∧ EndsIn u (parseNextComponent b).1 := by
  rcases parseNextComponent_endsIn hb hu with ⟨h1, -⟩ | ⟨hlen, h2⟩
  · rw [h1]
    exact .inr ⟨hk.le, hb⟩
  · have := h2.length_lt
    exact .inl (h.drop (by omega))

theorem EndsIn.next_next (h : EndsIn u t) (hb : EndsIn u b) (hu : Alnum u)
    (hk : t.length = k + b.length) :
    let server := (parseNextComponent b).1
    let share := (parseNextComponent (parseNextComponent b).2).1
    EndsIn u (t.drop (k + server.length + if share = [] then 0 else 1 + share.length)) ∨
      t.length ≤ k + server.length + (if share = [] then 0 else 1 + share.length) ∧
        EndsIn u (if share = [] then server else share) := by
  intro server share
  have hserver : server.length = (parseNextComponent b).1.length := rfl
  rcases parseNextComponent_endsIn hb hu with ⟨h1, hrest⟩ | ⟨hlen, h2⟩
  · have hshare : share = [] := by
      simp only [share, hrest]
      rfl
    rw [if_pos hshare, if_pos hshare]
    exact .inr ⟨by rw [hk, ← h1]; exact Nat.le_refl _, by rwa [← h1] at hb⟩
  · have hu2 := h2.length_lt
    rcases parseNextComponent_endsIn h2 hu with ⟨h3, -⟩ | ⟨hlen', h4⟩
    · have hshare : share ≠ [] := by
        rw [show share = _ from h3]
        exact h2.ne_nil
      rw [if_neg hshare, if_neg hshare]
      refine .inr ⟨?_, by rwa [show share = _ from h3]⟩
      rw [hk, hlen, show share = _ from h3]
      omega
    · have hu4 := h4.length_lt
      have hshare : share.length = (parseNextComponent (parseNextComponent b).2).1.length := rfl
      refine .inl (h.drop ?_)
      split <;> omega

end

theorem parseDrive_length (h : EndsIn u t) (hu : Alnum u) {d : Char}
    (hd : parseDrive t = some d) : 2 + u.length < t.length := by
  unfold parseDrive at hd
  split at hd
  · rename_i c rest
    have := (EndsIn.behind (a := [c]) (x := ':') h (by decide) (hu.not_mem (by decide))).length_lt
    simp only [length_cons]
    omega
  · cases hd

theorem parseDriveExact_length (h : EndsIn u t) (hu : Alnum u) {d : Char}
    (hd : parseDriveExact t = some d) : 2 + u.length < t.length := by
  unfold parseDriveExact at hd
  split at hd
  · exact parseDrive_length h hu hd
  · exact parseDrive_length h hu hd
  · exact parseDrive_length h hu hd
  · cases hd

/-- What a prefix leaves of a text ends as the text does, or the prefix itself does. -/
theorem parsePrefix_endsIn (h : EndsIn u t) (hu : Alnum u) {p : Prefix}
    (hp : parsePrefix t = some p) :
    EndsIn u (t.drop p.len) ∨ t.length ≤ p.len ∧ EndsIn u p.last := by
  have hback := h.backslashed hu
  have hlen : (backslashed t).length = t.length := length_map _
  have hsep : '\\' ∉ u := hu.not_mem (by decide)
  unfold parsePrefix at hp
  split at hp
  · rename_i rest hrest
    rw [hrest] at hback hlen
    have hr : EndsIn u rest := EndsIn.behind (a := ['\\']) hback (by decide) hsep
    split at hp
    · rename_i hverb
      have ht : t = '\\' :: '\\' :: '?' :: '\\' :: t.drop 4 := by
        rw [← take_append_drop 4 t, hverb]
        rfl
      have hpath : EndsIn u (t.drop 4) := by
        rw [ht] at h
        exact EndsIn.behind (a := ['\\', '\\', '?']) h (by decide) hsep
      have htlen : t.length = 4 + (t.drop 4).length := by
        have := congrArg length ht
        simp only [length_cons] at this
        omega
      split at hp
      · rename_i q hq
        cases hp
        have hq' : EndsIn u q := by
          rw [← take_append_drop 2 rest, hq] at hr
          refine EndsIn.behind (a := rest.take 2 ++ ['U', 'N', 'C']) (x := '\\') ?_ (by decide) hsep
          simpa using hr
        have hqlen : (t.drop 4).length = 4 + q.length := by
          have := congrArg length hq
          simp only [length_drop, length_cons] at this hlen ⊢
          omega
        have hb : EndsIn u ((t.drop 4).drop 4) := hpath.drop (by have := hq'.length_lt; omega)
        exact h.next_next hb hu (by simp only [length_drop] at hqlen ⊢; omega)
      · split at hp
        · rename_i d hd
          cases hp
          have := parseDriveExact_length hpath hu hd
          exact .inl (h.drop (by simp only [Prefix.len]; omega))
        · cases hp
          exact h.next hpath hu htlen
    · split at hp
      · cases hp
        have hpath := EndsIn.behind (a := ['.']) (x := '\\') hr (by decide) hsep
        exact h.next hpath hu (by simp at hlen; omega)
      · dsimp only at hp
        split at hp <;> cases hp
        exact h.next_next hr hu (by simp at hlen; omega)
  · obtain ⟨d, hd, rfl⟩ := Option.map_eq_some_iff.mp hp
    exact .inl (h.drop (parseDrive_length h hu hd))

theorem lastText_pieces (front : List Component) {pieces : List Text} {verbatim : Bool} {p : Text}
    (hp : pieces.getLast? = some p) (h : EndsIn u p) (hne : u ≠ []) :
    lastText (front ++ pieces.filterMap (parseSingleComponent verbatim)) = p := by
  obtain ⟨init, rfl⟩ := getLast?_eq_some_iff.mp hp
  have hlong : 2 ≤ p.length := by
    have := length_pos_of_ne_nil hne
    have := h.length_lt
    omega
  have hsingle : parseSingleComponent verbatim p = some (.normal p) := by
    unfold parseSingleComponent
    rw [if_neg, if_neg, if_neg]
    · rintro rfl
      simp at hlong
    · rintro rfl
      obtain ⟨z, hz⟩ := h
      have : '-' ∈ z ++ '-' :: u := by simp
      rw [← hz] at this
      simp at this
    · rintro rfl
      simp at hlong
  rw [filterMap_append, filterMap_cons_some hsingle, ← append_assoc]
  unfold lastText
  simp

theorem components_endsIn (windows : Bool) (h : EndsIn u t) (hu : Alnum u) (hne : u ≠ []) :
    EndsIn u (lastText (components windows t)) := by
  have hpieces (body : Text) (verbatim : Bool) (hbody : EndsIn u body) :
      ∃ p, (if verbatim then split '\\' body
        else if windows then split '\\' (backslashed body)
        else split '/' body).getLast? = some p ∧ EndsIn u p := by
    split
    · exact hbody.split (by decide) (hu.not_mem (by decide))
    split
    · exact (hbody.backslashed hu).split (by decide) (hu.not_mem (by decide))
    · exact hbody.split (by decide) (hu.not_mem (by decide))
  unfold components
  generalize hpre : (if windows = true then parsePrefix t else none) = pre
  by_cases hbody : EndsIn u (t.drop ((pre.map Prefix.len).getD 0))
  · obtain ⟨p, hp, hends⟩ := hpieces _ (pre.any Prefix.isVerbatim) hbody
    rw [lastText_pieces _ hp hends hne]
    exact hends
  · cases pre with
    | none => exact absurd h hbody
    | some q =>
      have hparse : parsePrefix t = some q := by
        split at hpre
        · exact hpre
        · cases hpre
      obtain ⟨hlen, hlast⟩ := (parsePrefix_endsIn h hu hparse).resolve_left hbody
      have hnil : t.drop q.len = [] := drop_eq_nil_of_le hlen
      simp only [Option.map_some, Option.getD_some, hnil, Option.any_some]
      have hnone : (if q.isVerbatim = true then split '\\' []
          else if windows = true then split '\\' (backslashed []) else split '/' []) = [[]] := by
        split
        · rfl
        · split <;> rfl
      rw [hnone]
      by_cases hroot : (q.hasImplicitRoot && !q.isVerbatim) = true
      · simpa [hroot, parseSingleComponent, lastText] using hlast
      · simpa [hroot, parseSingleComponent, lastText] using hlast

end

end NzbFast.Rust
