import NzbFast.Rust.Text

/-!
# Paths

`std::path`: the components of a path text on either platform, and
`PathBuf::push`. A path buffer is the sequence of its components, by which paths
compare. What a push may do to its base (replace it, cut it back to its prefix,
pop from it) is decided by the components of the pushed text; a plain name does
none of it.
-/

namespace NzbFast.Rust

/-- The prefix of a Windows path. -/
inductive Prefix where
  | verbatim (name : Text)
  | verbatimUNC (server share : Text)
  | verbatimDisk (drive : Char)
  | deviceNS (name : Text)
  | unc (server share : Text)
  | disk (drive : Char)
  deriving DecidableEq, Repr

namespace Prefix

def isVerbatim : Prefix → Bool
  | verbatim _ | verbatimUNC _ _ | verbatimDisk _ => true
  | _ => false

/-- Every prefix but a drive letter implies a root. -/
def hasImplicitRoot : Prefix → Bool
  | disk _ => false
  | _ => true

/-- `Prefix::len`. -/
def len : Prefix → Nat
  | verbatim name => 4 + name.length
  | verbatimUNC server share =>
    8 + server.length + if share = [] then 0 else 1 + share.length
  | verbatimDisk _ => 6
  | deviceNS name => 4 + name.length
  | unc server share => 2 + server.length + if share = [] then 0 else 1 + share.length
  | disk _ => 2

end Prefix

/-- `path::Component`. -/
inductive Component where
  | pre (p : Prefix)
  | rootDir
  | curDir
  | parentDir
  | normal (name : Text)
  deriving DecidableEq, Repr

/-- Separators as one character; in a verbatim path `/` is an ordinary one. -/
def backslashed (t : Text) : Text := t.map fun c => if c = '/' then '\\' else c

def parseDrive : Text → Option Char
  | d :: ':' :: _ => if d.isAlpha then some d.toUpper else none
  | _ => none

/-- A drive letter that ends the text or is followed by a separator. -/
def parseDriveExact (t : Text) : Option Char :=
  match t with
  | [_, _] | _ :: _ :: '\\' :: _ | _ :: _ :: '/' :: _ => parseDrive t
  | _ => none

def parseNextComponent (t : Text) : Text × Text :=
  (t.takeWhile (· != '\\'), (t.dropWhile (· != '\\')).drop 1)

/-- `sys::path::parse_prefix` on Windows. -/
def parsePrefix (t : Text) : Option Prefix :=
  match backslashed t with
  | '\\' :: '\\' :: rest =>
    if t.take 4 = ['\\', '\\', '?', '\\'] then
      match rest.drop 2, t.drop 4 with
      | 'U' :: 'N' :: 'C' :: '\\' :: _, path =>
        let (server, path) := parseNextComponent (path.drop 4)
        some (.verbatimUNC server (parseNextComponent path).1)
      | _, path =>
        match parseDriveExact path with
        | some d => some (.verbatimDisk d)
        | none => some (.verbatim (parseNextComponent path).1)
    else
      match rest with
      | '.' :: '\\' :: path => some (.deviceNS (parseNextComponent path).1)
      | _ =>
        let (server, path) := parseNextComponent rest
        let share := (parseNextComponent path).1
        if server ≠ [] ∧ share ≠ [] then some (.unc server share) else none
  | _ => (parseDrive t).map .disk

def parseSingleComponent (verbatim : Bool) (piece : Text) : Option Component :=
  if piece = ['.'] then if verbatim then some .curDir else none
  else if piece = ['.', '.'] then some .parentDir
  else if piece = [] then none
  else some (.normal piece)

/-- `Path::components`. -/
def components (windows : Bool) (t : Text) : List Component :=
  let pre := if windows then parsePrefix t else none
  let verbatim := pre.any Prefix.isVerbatim
  let body := t.drop ((pre.map Prefix.len).getD 0)
  let physicalRoot := body.head? = some '/' ∨ (windows ∧ body.head? = some '\\')
  let pieces :=
    if verbatim then split '\\' body
    else if windows then split '\\' (backslashed body)
    else split '/' body
  let start :=
    if physicalRoot then [Component.rootDir]
    else match pre with
      | some p => if p.hasImplicitRoot && !p.isVerbatim then [.rootDir] else []
      | none => if pieces.head? = some ['.'] then [.curDir] else []
  (pre.map Component.pre).toList ++ start ++ pieces.filterMap (parseSingleComponent verbatim)

abbrev PathBuf := List Component

/-- One component of a text pushed to a verbatim path. -/
def PathBuf.normalized (buf : PathBuf) : Component → PathBuf
  | .rootDir => buf.take 1 ++ [.rootDir]
  | .curDir => buf
  | .parentDir =>
    match buf.getLast? with
    | some (.normal _) => buf.dropLast
    | _ => buf
  | c => buf ++ [c]

def PathBuf.push (windows : Bool) (p : PathBuf) (t : Text) : PathBuf :=
  let comps := components windows t
  match comps, p with
  | .pre _ :: _, _ => comps
  | .rootDir :: _, .pre q :: _ =>
    if q.isVerbatim then comps.foldl PathBuf.normalized p else .pre q :: comps
  | .rootDir :: _, _ => comps
  | _, [] => comps
  | _, .pre q :: _ =>
    if q.isVerbatim then comps.foldl PathBuf.normalized p else p ++ comps.filter (· ≠ .curDir)
  | _, _ => p ++ comps.filter (· ≠ .curDir)

/-! ## A plain name -/

/-- A text that is one ordinary component on the platform. -/
structure PlainName (windows : Bool) (t : Text) : Prop where
  ne : t ≠ []
  ne_cur : t ≠ ['.']
  ne_parent : t ≠ ['.', '.']
  slash : '/' ∉ t
  backslash : windows = true → '\\' ∉ t
  colon : windows = true → ':' ∉ t

theorem backslashed_eq_self {t : Text} (h : '/' ∉ t) : backslashed t = t := by
  refine (List.map_congr_left fun c hc => ?_).trans (List.map_id t)
  rw [if_neg]
  · rfl
  · rintro rfl
    exact h hc

theorem parseDrive_eq_none {t : Text} (h : ':' ∉ t) : parseDrive t = none := by
  unfold parseDrive
  split
  · simp at h
  · rfl

theorem parsePrefix_eq_none {t : Text} (hslash : '/' ∉ t) (hback : '\\' ∉ t) (hcolon : ':' ∉ t) :
    parsePrefix t = none := by
  unfold parsePrefix
  rw [backslashed_eq_self hslash]
  split
  · simp at hback
  · rw [parseDrive_eq_none hcolon, Option.map_none]

theorem components_plain {windows : Bool} {t : Text} (h : PlainName windows t) :
    components windows t = [.normal t] := by
  have hpre : (if windows then parsePrefix t else none) = none := by
    split
    case isTrue hw => exact parsePrefix_eq_none h.slash (h.backslash hw) (h.colon hw)
    case isFalse => rfl
  have hpieces : (if windows then split '\\' (backslashed t) else split '/' t) = [t] := by
    split
    case isTrue hw =>
      rw [backslashed_eq_self h.slash]
      exact split_of_not_mem (h.backslash hw)
    case isFalse => exact split_of_not_mem h.slash
  have hroot : ¬(t.head? = some '/' ∨ (windows = true ∧ t.head? = some '\\')) := by
    rintro (hh | ⟨hw, hh⟩)
    · exact h.slash (List.mem_of_head? hh)
    · exact h.backslash hw (List.mem_of_head? hh)
  have hsingle : parseSingleComponent false t = some (.normal t) := by
    unfold parseSingleComponent
    rw [if_neg h.ne_cur, if_neg h.ne_parent, if_neg h.ne]
  unfold components
  simp only [hpre, Option.any_none, Option.map_none, Option.getD_none, List.drop_zero, hroot,
    Bool.false_eq_true, if_false, hpieces]
  simp [h.ne_cur, hsingle]

theorem push_plain {windows : Bool} {t : Text} (h : PlainName windows t) (p : PathBuf) :
    p.push windows t = p ++ [.normal t] := by
  unfold PathBuf.push
  rw [components_plain h]
  cases p with
  | nil => rfl
  | cons c p =>
    cases c with
    | pre q => cases hq : q.isVerbatim <;> simp [PathBuf.normalized, hq]
    | _ => simp

theorem foldl_push_plain {windows : Bool} {ts : List Text} (h : ∀ t ∈ ts, PlainName windows t)
    (p : PathBuf) :
    ts.foldl (PathBuf.push windows) p = p ++ ts.map .normal := by
  induction ts generalizing p with
  | nil => simp
  | cons t ts ih =>
    rw [List.foldl_cons, push_plain (h t (by simp)), ih fun u hu => h u (by simp [hu])]
    simp

end NzbFast.Rust
