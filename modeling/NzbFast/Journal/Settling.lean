import NzbFast.Journal.Names

/-!
# Names that settle

The journal records output names and runs `sanitize_out_name` over them again when it is
read back, so a name should come out of a second pass as it came out of the first. Every
component does (`component_component`), and a tree does unless its first component turns
into a drive: a drive is looked for before the component is trimmed.

* `hasDrive_component`: when a component comes out as a drive.
* `sanitizeOutName_settles_iff`: which names settle in one pass.
-/

namespace NzbFast.Journal

open NzbFast.Rust List

variable {sha256 : List UInt8 → List.Vector UInt8 32} {windows : Bool}

theorem hasDrive_iff {t : Text} : hasDrive t = true ↔ ∃ a r, t = a :: ':' :: r ∧ a.isAlpha = true := by
  constructor
  · intro h
    unfold hasDrive at h
    split at h
    · exact ⟨_, _, rfl, h⟩
    · cases h
  · rintro ⟨a, r, rfl, ha⟩
    exact ha

/-! ## Drives -/

theorem hasDrive_capComponent (s : Text) : hasDrive (capComponent sha256 s) = hasDrive s := by
  have hbudget := eight_le_budget sha256 s
  unfold capComponent
  split
  · rfl
  case isFalse hlong =>
    dsimp only
    -- The two characters in front are within the budget.
    cases s with
    | nil => exact absurd (Nat.zero_le _) hlong
    | cons a s =>
      have ha := a.utf8Size_le_four
      cases s with
      | nil =>
        refine absurd ?_ hlong
        exact le_trans ha (by decide)
      | cons b s =>
        have hb := b.utf8Size_le_four
        rw [takeBytes, if_pos (by omega), takeBytes, if_pos (by omega)]
        refine Bool.eq_iff_iff.mpr ?_
        rw [hasDrive_iff, hasDrive_iff]
        simp

theorem hasDrive_trimEnd (t : Text) : hasDrive (trimEnd isDotOrSpace t) = hasDrive t := by
  obtain ⟨rest, hrest⟩ := trimEnd_append (p := isDotOrSpace) t
  refine Bool.eq_iff_iff.mpr ?_
  rw [hasDrive_iff, hasDrive_iff]
  constructor
  · rintro ⟨a, r, ht, ha⟩
    exact ⟨a, r ++ rest, by rw [hrest, ht]; rfl, ha⟩
  · rintro ⟨a, r, rfl, ha⟩
    have hcolon : ':' ∈ trimEnd isDotOrSpace (a :: ':' :: r) := mem_trimEnd (by simp) (by decide)
    generalize trimEnd isDotOrSpace (a :: ':' :: r) = s at hrest hcolon
    cases s with
    | nil => cases hcolon
    | cons b s =>
      obtain ⟨rfl, hs⟩ := cons.inj hrest
      cases s with
      | nil =>
        rw [← mem_singleton.mp hcolon] at ha
        exact absurd ha (by decide)
      | cons c s =>
        obtain ⟨rfl, -⟩ := cons.inj hs
        exact ⟨a, s, rfl, ha⟩

theorem hasDrive_sanitizeFilenameFor (c : Text) : hasDrive (sanitizeFilenameFor windows c) =
    hasDrive ((c.map (sanitizeChar windows)).dropWhile isWhitespace) := by
  rw [← hasDrive_trimEnd ((c.map (sanitizeChar windows)).dropWhile isWhitespace)]
  unfold sanitizeFilenameFor
  dsimp only
  generalize trimEnd isDotOrSpace ((c.map (sanitizeChar windows)).dropWhile isWhitespace) = t
  cases hd : hasDrive t with
  | true =>
    obtain ⟨a, r, rfl, ha⟩ := hasDrive_iff.mp hd
    have hdot : (a == '.') = false := by
      rw [beq_eq_false_iff_ne]
      rintro rfl
      exact absurd ha (by decide)
    have hstem : ':' ∈ deviceStem (a :: ':' :: r) := by
      refine mem_map.mpr ⟨':', mem_trimEnd (mem_trim ?_ (by decide)) (by decide), by decide⟩
      simp [beq_eq_false_iff_ne.mp hdot]
    rw [if_neg (by simp [hdot])]
    have hdots : (a :: ':' :: r).takeWhile (· == '.') = [] := by simp [hdot]
    rw [hdots]
    rw [length_nil, replicate_zero, drop_zero, nil_append,
      if_neg (by rw [not_reserved_of_mem hstem (by decide)]; decide)]
    exact hd
  | false =>
    have hunderscore : ∀ s : Text, hasDrive ('_' :: s) = false := fun s => by
      cases s with
      | nil => rfl
      | cons b s =>
        rw [← Bool.not_eq_true, hasDrive_iff]
        rintro ⟨a, r, h, ha⟩
        rw [← (cons.inj h).1] at ha
        exact absurd ha (by decide)
    split
    · decide
    · cases hdots : (t.takeWhile (· == '.')).length with
      | zero =>
        split
        · exact hunderscore t
        · exact hd
      | succ n =>
        split
        · exact hunderscore _
        · exact hunderscore _

/-- A component comes out as a drive where one shows once it is cleaned and trimmed in front. -/
theorem hasDrive_component (c : Text) : hasDrive (component sha256 windows c) =
    hasDrive ((c.map (sanitizeChar windows)).dropWhile isWhitespace) := by
  rw [component, hasDrive_capComponent, hasDrive_sanitizeFilenameFor]

/-! ## Second passes -/

/-- A name kept as a tree whose first component shows a drive once it is trimmed. -/
def TrimsToDrive (sha256 : List UInt8 → List.Vector UInt8 32) (windows : Bool) (name : Text) : Prop :=
  (sanitizeRelpathFor sha256 windows name).isSome = true ∧
    hasDrive (((firstComponent name).map (sanitizeChar windows)).dropWhile isWhitespace) = true

theorem firstComponent_of_isSome {name : Text}
    (h : (sanitizeRelpathFor sha256 windows name).isSome = true) :
    hasDrive (firstComponent name) = false := by
  unfold sanitizeRelpathFor at h
  split at h
  · cases h
  dsimp only at h
  split at h
  · cases h
  split at h
  · cases h
  split at h
  · cases h
  case isFalse hdrive => exact Bool.eq_false_iff.mpr hdrive

/-- A name comes out of a second pass unchanged exactly if it does not trim to a drive. -/
theorem sanitizeOutName_settles_iff (sha256 : List UInt8 → List.Vector UInt8 32) (windows : Bool)
    (name : Text) :
    sanitizeOutName sha256 windows (sanitizeOutName sha256 windows name) =
        sanitizeOutName sha256 windows name ↔
      ¬ TrimsToDrive sha256 windows name := by
  constructor
  · rintro hsettled ⟨hsome, hdrive⟩
    obtain ⟨joined, h⟩ := Option.isSome_iff_exists.mp hsome
    have he : sanitizeOutName sha256 windows name = joined := by
      rw [sanitizeOutName, h, Option.getD_some]
    obtain ⟨comps, h2, -, hcomps, hj, -⟩ := sanitizeRelpathFor_eq h
    have hset : ∀ c ∈ comps.map (component sha256 windows), Settled windows c := by
      intro c hc
      obtain ⟨c', -, rfl⟩ := mem_map.mp hc
      exact settled_component c'
    cases comps with
    | nil => cases h2
    | cons p ps =>
      have hp : firstComponent name = p := by rw [firstComponent, ← hcomps, headD_cons]
      have hsplit : split '/' joined = (p :: ps).map (component sha256 windows) := by
        rw [hj]
        exact split_intercalate (by simp) fun o ho => (hset o ho).no_separator.1
      have hfirst : firstComponent joined = component sha256 windows p := by
        rw [firstComponent, hj, norm_joined hset, ← hj, hsplit, map_cons, headD_cons]
      rw [he, sanitizeOutName] at hsettled
      cases hagain : sanitizeRelpathFor sha256 windows joined with
      | some again =>
        have hno := firstComponent_of_isSome (by rw [hagain]; rfl)
        rw [hfirst, hasDrive_component, ← hp, hdrive] at hno
        cases hno
      | none =>
        -- The flat form has no separator, the tree has one.
        rw [hagain, Option.getD_none] at hsettled
        have hflat : '/' ∉ component sha256 windows joined := (settled_component joined).no_separator.1
        rw [hsettled] at hflat
        rw [split_of_not_mem hflat] at hsplit
        have hlen := congrArg length hsplit
        rw [length_map, length_singleton] at hlen
        omega
  · intro hno
    refine sanitizeOutName_settles fun hsome => ?_
    rw [hasDrive_component, ← Bool.not_eq_true]
    exact fun hdrive => hno ⟨hsome, hdrive⟩

/-- A space in front hides the drive from the first pass. -/
theorem sanitizeOutName_moves :
    let once := sanitizeOutName (fun _ => .replicate 32 0) false " C:/x".toList
    let twice := sanitizeOutName (fun _ => .replicate 32 0) false once
    once = "C:/x".toList ∧ twice = "C:_x".toList ∧ twice ≠ once := by
  decide

end NzbFast.Journal
