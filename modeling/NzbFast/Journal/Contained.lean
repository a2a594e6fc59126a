import NzbFast.Journal.Names
import NzbFast.Rust.Path

/-!
# Containment of output names

What `sanitize_out_name` guarantees of every name it returns, and what that
gives `join_out_name` (`crates/nzbkit-base/src/disk/relpath.rs`): each piece is
one ordinary component of a path on its platform, so the join only ever appends
below the root it is given.
-/

namespace NzbFast.Journal

open NzbFast.Rust

/-- A component that is safe to create on the platform. -/
structure SafeComponent (windows : Bool) (c : Text) : Prop where
  ne : c ≠ []
  len : utf8Len c ≤ 255
  ne_cur : c ≠ ['.']
  ne_parent : c ≠ ['.', '.']
  separator : '/' ∉ c ∧ '\\' ∉ c
  control : ∀ x ∈ c, isControl x = false
  format : ∀ x ∈ c, isFormatChar x = false
  line : ∀ x ∈ c, x.toNat ≠ 0x2028 ∧ x.toNat ≠ 0x2029
  illegal : windows = true → ∀ x ∈ c, x ∉ [':', '<', '>', '"', '|', '?', '*']
  head : c.head? ≠ some '.'
  last : ∀ x, c.getLast? = some x → x ≠ '.' ∧ isWhitespace x = false
  device : isReserved (deviceStem c) = false

def joinOutName (windows : Bool) (root : PathBuf) (outName : Text) : PathBuf :=
  (split '/' outName).foldl (PathBuf.push windows) root

section Contained

variable {sha256 : List UInt8 → List.Vector UInt8 32} {windows : Bool}

theorem Settled.safe {c : Text} (h : Settled windows c) (hlen : utf8Len c ≤ 255) :
    SafeComponent windows c := by
  have hend : ∀ s : Text, c ≠ s ++ ['.'] := by
    rintro s rfl
    exact (isWhitespace_of_isDotOrSpace (h.last '.' (by simp))).2 rfl
  have hfit : ∀ x ∈ c, isControl x = false ∧ isFormatChar x = false ∧
      (x.toNat ≠ 0x2028 ∧ x.toNat ≠ 0x2029) := by
    intro x hx
    have hx := h.fit x hx
    simp only [unfitChar, Bool.or_eq_false_iff, beq_eq_false_iff_ne] at hx
    exact ⟨hx.1.1.1.2, hx.1.1.2, hx.1.2, hx.2⟩
  exact {
    ne := h.ne
    len := hlen
    ne_cur := hend []
    ne_parent := hend ['.']
    separator := h.no_separator
    control := fun x hx => (hfit x hx).1
    format := fun x hx => (hfit x hx).2.1
    line := fun x hx => (hfit x hx).2.2
    illegal := by
      rintro rfl x hx hmem
      have hx := h.fit x hx
      simp only [List.mem_cons, List.not_mem_nil, or_false] at hmem
      rcases hmem with rfl | rfl | rfl | rfl | rfl | rfl | rfl <;> exact absurd hx (by decide)
    head := fun hh => (isWhitespace_of_isDotOrSpace (h.head _ hh)).2 rfl
    last := fun x hx => (isWhitespace_of_isDotOrSpace (h.last x hx)).symm
    device := h.device }

theorem SafeComponent.plain {c : Text} (h : SafeComponent windows c) : PlainName windows c where
  ne := h.ne
  ne_cur := h.ne_cur
  ne_parent := h.ne_parent
  slash := h.separator.1
  backslash _ := h.separator.2
  colon hw hm := h.illegal hw _ hm (by simp)

theorem safe_component (c : Text) : SafeComponent windows (component sha256 windows c) :=
  (settled_component c).safe (utf8Len_capComponent sha256 _)

theorem split_sanitizeOutName (sha256 : List UInt8 → List.Vector UInt8 32) (windows : Bool)
    (name : Text) : ∃ cs : List Text, split '/' (sanitizeOutName sha256 windows name) = cs ∧
      1 ≤ cs.length ∧ cs.length ≤ MAX_DEPTH ∧ (∀ c ∈ cs, SafeComponent windows c) ∧
      utf8Len (sanitizeOutName sha256 windows name) ≤ MAX_TOTAL := by
  unfold sanitizeOutName
  cases h : sanitizeRelpathFor sha256 windows name with
  | none =>
    have hsafe : SafeComponent windows (component sha256 windows name) := safe_component name
    refine ⟨[component sha256 windows name], split_of_not_mem hsafe.separator.1, le_refl 1,
      (by decide : 1 ≤ MAX_DEPTH), fun c hc => ?_, hsafe.len.trans (by decide)⟩
    rw [List.mem_singleton.mp hc]
    exact hsafe
  | some joined =>
    obtain ⟨comps, h2, hdepth, -, hj, htotal⟩ := sanitizeRelpathFor_eq h
    have hlen : (comps.map (component sha256 windows)).length = comps.length := List.length_map _
    have hsafe : ∀ c ∈ comps.map (component sha256 windows), SafeComponent windows c := by
      intro c hc
      obtain ⟨c', -, rfl⟩ := List.mem_map.mp hc
      exact safe_component c'
    have hne : comps.map (component sha256 windows) ≠ [] := by
      intro hnil
      rw [hnil] at hlen
      exact absurd (hlen ▸ h2) (by decide)
    refine ⟨comps.map (component sha256 windows), ?_, by omega, by omega, hsafe, htotal⟩
    rw [Option.getD_some, hj]
    exact split_intercalate hne fun c hc => (hsafe c hc).separator.1

/-- Every output name is a handful of safe components, and a join puts it strictly below its
root. -/
theorem sanitizeOutName_contained (sha256 : List UInt8 → List.Vector UInt8 32) (windows : Bool)
    (name : Text) :
    let out := sanitizeOutName sha256 windows name
    (1 ≤ (split '/' out).length ∧ (split '/' out).length ≤ 16) ∧
      (∀ c ∈ split '/' out, SafeComponent windows c) ∧ utf8Len out ≤ 511 ∧
      ∀ root : PathBuf, ∃ names : List Text, names ≠ [] ∧ (∀ c ∈ names, SafeComponent windows c) ∧
        joinOutName windows root out = root ++ names.map .normal := by
  obtain ⟨cs, hcs, h1, hdepth, hsafe, htotal⟩ := split_sanitizeOutName sha256 windows name
  dsimp only
  rw [hcs]
  refine ⟨⟨h1, hdepth⟩, hsafe, htotal, fun root => ⟨cs, List.ne_nil_of_length_pos h1, hsafe, ?_⟩⟩
  unfold joinOutName
  rw [hcs]
  exact foldl_push_plain (fun c hc => (hsafe c hc).plain) root

end Contained

end NzbFast.Journal
