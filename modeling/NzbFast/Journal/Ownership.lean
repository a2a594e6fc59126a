import NzbFast.Journal.Torn

/-!
# Who owns the journal

Runs on one journal path: each opens the leaf, claims it with a generation line,
appends, and at its end reads the file back and unlinks the path if the last
generation line is its own. The runs are processes that nothing orders, so an
open is two steps, the descriptor and the claim on it, and a remove is two, the
scan and the unlink. A claim and an append may land only in part.

The claims that stand in a file are a sublist of its generation lines. That
leaves two ways to unlink a file that another run owns: a generation line lands
between the scan and the unlink, or a line that no open has written spells the
generation of the run.
-/

namespace NzbFast.Journal

open List

open Function

open NzbFast.Rust

def Generation.text (g : Generation) : Text :=
  List.intercalate ['-'] [hexPadded 0 g.pid, hexPadded 0 g.clock, hexPadded 0 g.seq]

/-- `strip_prefix("G ")`. -/
def stripG : Text → Option Text
  | 'G' :: ' ' :: g => some g
  | _ => none

/-- The generation lines of a file as a scan reads them, a torn last line included. -/
def generationLines (file : List UInt8) : List Text := (utf8Lines file).filterMap stripG

def kept (fp : Bytes 16) (file : List UInt8) : List UInt8 := if headed fp file then file else []

def claimBytes (fp : Bytes 16) (g : Generation) (file : List UInt8) : List UInt8 :=
  (openFile fp g file).drop (kept fp file).length

/-! ## Runs on one path -/

inductive Phase
  | opening
  | live (generation : Text)
  | checked (generation : Text) (seen : List Text)

/-- A descriptor and what its run has done with it. -/
structure Handle where
  inode : Nat
  phase : Phase

/-- The files, the one that the path names, and the handles. `claims` are the
generations whose lines opens have written to a file since it was last cut to
nothing, `opened` all generations that have opened it. -/
structure World where
  content : Nat → List UInt8 := fun _ => []
  fresh : Nat := 0
  leaf : Option Nat := none
  handles : Nat → Option Handle := fun _ => none
  claims : Nat → List Text := fun _ => []
  opened : Nat → List Text := fun _ => []

inductive Event
  | attach (run : Nat)
  | claim (run : Nat) (fp : Bytes 16) (g : Generation)
  | claimTorn (run : Nat) (fp : Bytes 16) (g : Generation) (cut : Nat)
  | append (run : Nat) (bytes : List UInt8)
  | scan (run : Nat)
  | unlink (run : Nat)

namespace World

def hold (w : World) (r : Nat) (h : Option Handle) : World :=
  { w with handles := Function.update w.handles r h }

/-- `open_private_leaf`. -/
def attach (w : World) (r : Nat) : World :=
  match w.leaf with
  | some i => w.hold r (some ⟨i, .opening⟩)
  | none =>
    { w with
      content := Function.update w.content w.fresh []
      claims := Function.update w.claims w.fresh []
      opened := Function.update w.opened w.fresh []
      fresh := w.fresh + 1
      leaf := some w.fresh
      handles := Function.update w.handles r (some ⟨w.fresh, .opening⟩) }

def keptClaims (w : World) (fp : Bytes 16) (i : Nat) : List Text :=
  if headed fp (w.content i) then w.claims i else []

/-- The rest of `open`. -/
def claim (w : World) (r i : Nat) (fp : Bytes 16) (g : Generation) : World :=
  { w with
    content := Function.update w.content i (openFile fp g (w.content i))
    claims := Function.update w.claims i (w.keptClaims fp i ++ [g.text])
    opened := Function.update w.opened i (w.opened i ++ [g.text])
    handles := Function.update w.handles r (some ⟨i, .live g.text⟩) }

/-- An open that dies in the middle of its writes. -/
def claimTorn (w : World) (r i : Nat) (fp : Bytes 16) (g : Generation) (cut : Nat) : World :=
  { w with
    content := Function.update w.content i
      (kept fp (w.content i) ++ (claimBytes fp g (w.content i)).take cut)
    claims := Function.update w.claims i (w.keptClaims fp i)
    handles := Function.update w.handles r none }

/-- `is_current_generation`; off Unix the path is not compared. -/
def isCurrentGeneration (unix : Bool) (w : World) (i : Nat) (generation : Text) : Bool :=
  (!unix || w.leaf == some i) && (generationLines (w.content i)).getLast? == some generation

def step (unix : Bool) (w : World) : Event → World
  | .attach r => w.attach r
  | .claim r fp g =>
    match w.handles r with
    | some ⟨i, .opening⟩ => w.claim r i fp g
    | _ => w
  | .claimTorn r fp g cut =>
    match w.handles r with
    | some ⟨i, .opening⟩ => w.claimTorn r i fp g cut
    | _ => w
  | .append r bytes =>
    match w.handles r with
    | some ⟨i, .live _⟩ => { w with content := Function.update w.content i (w.content i ++ bytes) }
    | _ => w
  | .scan r =>
    match w.handles r with
    | some ⟨i, .live t⟩ =>
      if w.isCurrentGeneration unix i t then
        w.hold r (some ⟨i, .checked t (generationLines (w.content i))⟩)
      else w.hold r none
    | _ => w
  | .unlink r =>
    match w.handles r with
    | some ⟨_, .checked _ _⟩ => { w.hold r none with leaf := none }
    | _ => w

def run (unix : Bool) (events : List Event) : World := events.foldl (step unix) {}

end World

/-! ## Generation lines of a growing file -/

theorem stripG_generationLine (g : Generation) : stripG (generationLine g) = some g.text := by
  simp [generationLine, lineOf, stripG, Generation.text, intercalate]

theorem wholeLines_wholeLines_append (b rest : List UInt8) :
    wholeLines (wholeLines b ++ rest) = wholeLines b ++ wholeLines rest := by
  unfold wholeLines
  simp only [rdropWhile, reverse_append, reverse_reverse]
  rw [dropWhile_append]
  split
  case isTrue h =>
    rw [isEmpty_iff.mp h, reverse_nil, append_nil, dropWhile_idempotent]
  case isFalse => rw [reverse_append]

theorem wholeLines_ended (u : List UInt8) : wholeLines (u ++ [0x0A]) = u ++ [0x0A] :=
  rdropWhile_concat_neg _ _ _ (by simp)

theorem generationLines_append (b rest : List UInt8) : generationLines (wholeLines b ++ rest) =
    generationLines (wholeLines b) ++ generationLines rest := by
  unfold generationLines
  rw [utf8Lines_wholeLines, filterMap_append]

/-- The complete lines stay when bytes are appended. -/
theorem generationLines_grow (b x : List UInt8) :
    generationLines (wholeLines b) <+: generationLines (wholeLines (b ++ x)) := by
  have hsplit : b ++ x = wholeLines b ++ (tornTail b ++ x) := by
    rw [← append_assoc, wholeLines_append_tornTail]
  rw [hsplit, wholeLines_wholeLines_append, generationLines_append]
  exact prefix_append _ _

theorem generationLines_openFile (fp : Bytes 16) (g : Generation) (file : List UInt8) :
    ∃ more, generationLines (wholeLines (openFile fp g file)) =
      generationLines (wholeLines (kept fp file)) ++ more ++ [g.text] := by
  have hwhole : wholeLines (openFile fp g file) = openFile fp g file := by
    have hlast : image [generationLine g] = encode (generationLine g) ++ [0x0A] := by simp [image]
    rw [openFile, hlast, ← append_assoc, wholeLines_ended]
  rw [hwhole, openFile, generationLines, utf8Lines_endLine, filterMap_append,
    filterMap_append, filterMap_cons, stripG_generationLine]
  unfold kept
  split
  · exact ⟨_, rfl⟩
  · exact ⟨_, rfl⟩

/-! ## What holds of every file -/

/-- The claims that stand in a file are among its complete generation lines, and are
the last that opened it. -/
structure World.Owned (w : World) (i : Nat) : Prop where
  lines : List.Sublist (w.claims i) (generationLines (wholeLines (w.content i)))
  last : w.claims i <:+ w.opened i

structure World.Inv (w : World) : Prop where
  owned : ∀ i, w.Owned i
  seen : ∀ r i t seen, w.handles r = some ⟨i, .checked t seen⟩ → seen.getLast? = some t

theorem sublist_kept {w : World} {i : Nat} (h : w.Owned i) (fp : Bytes 16) :
    List.Sublist (w.keptClaims fp i) (generationLines (wholeLines (kept fp (w.content i)))) := by
  unfold World.keptClaims kept
  split
  · exact h.lines
  · exact nil_sublist _

theorem keptClaims_suffix {w : World} {i : Nat} (h : w.Owned i) (fp : Bytes 16) :
    w.keptClaims fp i <:+ w.opened i := by
  unfold World.keptClaims
  split
  · exact h.last
  · exact nil_suffix

section Update

variable {w : World} (h : w.Inv)

include h

/-- Dropping a handle, or a handle that has not been checked. -/
theorem seen_update {r : Nat} {new : Option Handle}
    (hnew : ∀ i t seen, new = some ⟨i, .checked t seen⟩ → seen.getLast? = some t) :
    ∀ r' i t seen, Function.update w.handles r new r' = some ⟨i, .checked t seen⟩ →
      seen.getLast? = some t := by
  intro r' i t seen hr
  by_cases hrr : r' = r
  · subst hrr
    rw [update_self] at hr
    exact hnew i t seen hr
  · rw [update_of_ne hrr] at hr
    exact h.seen r' i t seen hr

theorem inv_hold {r : Nat} {new : Option Handle}
    (hnew : ∀ i t seen, new = some ⟨i, .checked t seen⟩ → seen.getLast? = some t) :
    (w.hold r new).Inv where
  owned := fun i => ⟨(h.owned i).lines, (h.owned i).last⟩
  seen := seen_update h hnew

theorem inv_attach (r : Nat) : (w.attach r).Inv := by
  unfold World.attach
  split
  case h_1 i _ => exact inv_hold h fun _ _ _ heq => nomatch heq
  case h_2 =>
    refine ⟨fun i => ?_, seen_update h fun _ _ _ heq => nomatch heq⟩
    by_cases hi : i = w.fresh
    · subst hi
      constructor
      · simp only [update_self]
        exact nil_sublist _
      · simp only [update_self]
        exact nil_suffix
    · constructor
      · simp only [update_of_ne hi]
        exact (h.owned i).lines
      · simp only [update_of_ne hi]
        exact (h.owned i).last

theorem inv_claim (r i : Nat) (fp : Bytes 16) (g : Generation) : (w.claim r i fp g).Inv := by
  refine ⟨fun j => ?_, seen_update h fun _ _ _ heq => nomatch heq⟩
  unfold World.claim
  by_cases hj : j = i
  · subst hj
    constructor
    · simp only [update_self]
      obtain ⟨more, hlines⟩ := generationLines_openFile fp g (w.content j)
      rw [hlines]
      refine List.Sublist.append ?_ (List.Sublist.refl _)
      exact (sublist_kept (h.owned j) fp).trans (sublist_append_left _ _)
    · simp only [update_self]
      obtain ⟨earlier, heq⟩ := keptClaims_suffix (h.owned j) fp
      exact ⟨earlier, by rw [← append_assoc, heq]⟩
  · constructor
    · simp only [update_of_ne hj]
      exact (h.owned j).lines
    · simp only [update_of_ne hj]
      exact (h.owned j).last

theorem inv_claimTorn (r i : Nat) (fp : Bytes 16) (g : Generation) (cut : Nat) :
    (w.claimTorn r i fp g cut).Inv := by
  refine ⟨fun j => ?_, seen_update h fun _ _ _ heq => nomatch heq⟩
  unfold World.claimTorn
  by_cases hj : j = i
  · subst hj
    constructor
    · simp only [update_self]
      exact (sublist_kept (h.owned j) fp).trans (generationLines_grow _ _).sublist
    · simp only [update_self]
      exact keptClaims_suffix (h.owned j) fp
  · constructor
    · simp only [update_of_ne hj]
      exact (h.owned j).lines
    · simp only [update_of_ne hj]
      exact (h.owned j).last

theorem inv_append (i : Nat) (bytes : List UInt8) :
    { w with content := update w.content i (w.content i ++ bytes) }.Inv := by
  refine ⟨fun j => ⟨?_, (h.owned j).last⟩, h.seen⟩
  by_cases hj : j = i
  · subst hj
    simp only [update_self]
    exact (h.owned j).lines.trans (generationLines_grow _ _).sublist
  · simp only [update_of_ne hj]
    exact (h.owned j).lines

theorem inv_step (unix : Bool) (e : Event) : (w.step unix e).Inv := by
  cases e with
  | attach r => exact inv_attach h r
  | claim r fp g =>
    simp only [World.step]
    split
    · exact inv_claim h r _ fp g
    · exact h
  | claimTorn r fp g cut =>
    simp only [World.step]
    split
    · exact inv_claimTorn h r _ fp g cut
    · exact h
  | append r bytes =>
    simp only [World.step]
    split
    · exact inv_append h _ bytes
    · exact h
  | scan r =>
    simp only [World.step]
    split
    case h_1 i t _ =>
      split
      case isTrue hcur =>
        refine inv_hold h fun j t' seen heq => ?_
        cases heq
        simp only [World.isCurrentGeneration, Bool.and_eq_true, beq_iff_eq] at hcur
        exact hcur.2
      case isFalse => exact inv_hold h fun _ _ _ heq => nomatch heq
    case h_2 => exact h
  | unlink r =>
    simp only [World.step]
    split
    · have hhold : (w.hold r none).Inv := inv_hold h fun _ _ _ heq => nomatch heq
      exact ⟨fun i => ⟨(h.owned i).lines, (h.owned i).last⟩, hhold.seen⟩
    · exact h

end Update

theorem inv_start : World.Inv {} where
  owned _ := ⟨nil_sublist _, nil_suffix⟩
  seen _ _ _ _ h := nomatch h

theorem inv_run (unix : Bool) (events : List Event) : (World.run unix events).Inv := by
  unfold World.run
  induction events using reverseRecOn with
  | nil => exact inv_start
  | append_singleton events e ih =>
    rw [foldl_append]
    exact inv_step ih unix e

/-! ## The unlink -/

/-- Since the scan of the run no generation line has come or gone, the path still
names its file, and only claims of opens spell its generation. -/
def World.Undisturbed (w : World) (r : Nat) : Prop :=
  ∀ i t seen, w.handles r = some ⟨i, .checked t seen⟩ →
    (∀ j, w.leaf = some j → j = i) ∧ generationLines (w.content i) = seen ∧
      (generationLines (w.content i)).count t ≤ (w.claims i).count t

/-- The file that an unlink of the run takes away is its own: its generation has the
last complete generation line, and no run has opened the file after it. -/
def World.Owns (w : World) (r : Nat) : Prop :=
  ∀ i t seen, w.handles r = some ⟨i, .checked t seen⟩ → ∀ j, w.leaf = some j →
    (generationLines (wholeLines (w.content j))).getLast? = some t ∧ (w.opened j).getLast? = some t

/-- Where the claims account for every line of a generation, the last line is the last claim. -/
theorem last_of_count {t : Text} {claims whole tail : List Text} (hsub : List.Sublist claims whole)
    (hlast : (whole ++ tail).getLast? = some t)
    (hcount : (whole ++ tail).count t ≤ claims.count t) :
    whole.getLast? = some t ∧ claims.getLast? = some t := by
  have hle := hsub.count_le t
  rw [count_append] at hcount
  have htail : t ∉ tail := count_eq_zero.mp (by omega)
  obtain rfl : tail = [] := by
    by_contra hne
    rw [getLast?_append_of_ne_nil _ hne] at hlast
    exact htail (mem_of_getLast? hlast)
  rw [append_nil] at hlast
  obtain ⟨xs, rfl⟩ := getLast?_eq_some_iff.mp hlast
  obtain ⟨cs, last, rfl, hcs, hl⟩ := sublist_append_iff.mp hsub
  rcases sublist_singleton.mp hl with rfl | rfl
  · have := hcs.count_le t
    simp only [count_append, append_nil, count_singleton_self, count_nil] at *
    omega
  · simp

/-- In every run, an unlink that nothing has disturbed takes away the file of the run
that opened it last. -/
theorem unlink_owns (unix : Bool) (events : List Event) (r : Nat)
    (h : (World.run unix events).Undisturbed r) : (World.run unix events).Owns r := by
  have hinv := inv_run unix events
  intro i t seen hr j hj
  obtain ⟨hpath, hseen, hcount⟩ := h i t seen hr
  obtain rfl := hpath j hj
  have hlast := hinv.seen r j t seen hr
  have hsplit : generationLines ((World.run unix events).content j) =
      generationLines (wholeLines ((World.run unix events).content j)) ++
        generationLines (tornTail ((World.run unix events).content j)) := by
    rw [← generationLines_append, wholeLines_append_tornTail]
  rw [← hseen, hsplit] at hlast
  rw [hsplit] at hcount
  obtain ⟨hwhole, hclaims⟩ := last_of_count (hinv.owned j).lines hlast hcount
  refine ⟨hwhole, ?_⟩
  obtain ⟨earlier, hopened⟩ := (hinv.owned j).last
  obtain ⟨cs, hcs⟩ := getLast?_eq_some_iff.mp hclaims
  rw [← hopened, hcs]
  simp

def sampleHeader : Bytes 16 := List.Vector.replicate 16 0

theorem unlink_owns_sample :
    (World.run true [.attach 0, .claim 0 sampleHeader ⟨1, 5, 0⟩, .append 0 [120, 10], .scan 0]).Owns
      0 := by
  apply unlink_owns true _ 0
  intro i t seen hr
  cases hr
  exact ⟨fun j hj => by cases hj; rfl, rfl, by decide⟩

/-- A second run opens the journal between the scan and the unlink of the first. -/
def overtaken : List Event :=
  [.attach 0, .claim 0 sampleHeader ⟨1, 5, 0⟩, .scan 0, .attach 1, .claim 1 sampleHeader ⟨2, 6, 0⟩]

theorem unlinks_later_run :
    (World.run true overtaken).leaf = some 0 ∧
      (generationLines (wholeLines ((World.run true overtaken).content 0))).getLast? =
        some (Generation.text ⟨2, 6, 0⟩) ∧
      ((World.run true overtaken).handles 1).map Handle.inode = some 0 ∧
      (World.run true (overtaken ++ [.unlink 0])).leaf = none ∧
      ¬ (World.run true overtaken).Owns 0 := by
  refine ⟨by decide, by decide, by decide, by decide, fun h => ?_⟩
  have hlast := (h 0 (Generation.text ⟨1, 5, 0⟩) _ rfl 0 rfl).2
  revert hlast
  decide

end NzbFast.Journal
