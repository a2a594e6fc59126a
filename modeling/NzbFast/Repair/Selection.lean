import NzbFast.Fold.Table
import NzbFast.Loop.Passes
import Mathlib.Data.Finset.Sort
import Mathlib.Data.List.GetD
import Mathlib.Data.List.TakeWhile

/-!
# Selecting recovery slices

`load_selected_recovery_span` (`crates/nzbkit-base/src/par2repair/catalog.rs`): pick as many
recovery slices as blocks are missing, read them file by file, drop the slices whose bytes no
longer hash to their packet and pick again. The pick (`selectConsecutiveRun`) reads no more of
the candidates than it keeps, so dropping bad slices until a pick is clean ends at the pick
over the good ones, however the slices are spread over files.
-/

namespace NzbFast.Repair

open Fold Loop Finmap Finset

/-! ## The pick -/

abbrev Exponent := Fin (2 ^ 32)

/-- The window of `needed` exponents from place `i` spans `needed - 1`. -/
def runAt (sortedExps : List Exponent) (needed i : Nat) : Bool :=
  decide ((sortedExps.getD (i + needed - 1) 0).val - (sortedExps.getD i 0).val =
    (needed - 1) % 2 ^ 32)

/-- The lowest window of `needed` exponents in a row, else the smallest ones. -/
def selectConsecutiveRun (sortedExps : List Exponent) (needed : Nat) : List Exponent :=
  if needed = 0 then []
  else if needed ≤ sortedExps.length then
    match (List.range (sortedExps.length - needed + 1)).find? (runAt sortedExps needed) with
    | some i => (sortedExps.drop i).take needed
    | none => sortedExps.take needed
  else sortedExps.take needed

/-- The exponents `a`, `a + 1`, … are in the list, `n` of them. -/
def RunFrom (exps : List Exponent) (a n : Nat) : Prop := ∀ k < n, ∃ e ∈ exps, e.val = a + k

variable {exps : List Exponent} {needed : Nat}

theorem length_le_of_sorted (hs : exps.Pairwise (· < ·)) : exps.length ≤ 2 ^ 32 := by
  have hnodup : exps.Nodup := hs.imp fun h => h.ne
  simpa using hnodup.length_le_card

variable {i : Nat}

/-- The values of a strictly sorted list grow at least by one a place. -/
theorem sorted_gap (hs : exps.Pairwise (· < ·)) {j : Nat} (hij : i ≤ j) (hj : j < exps.length) :
    (exps.getD i 0).val + (j - i) ≤ (exps.getD j 0).val := by
  induction j, hij using Nat.le_induction with
  | base => simp
  | succ j hij ih =>
    have hlt : exps[j] < exps[j + 1] := List.pairwise_iff_getElem.mp hs j (j + 1) _ _ (by omega)
    have := ih (by omega)
    rw [List.getD_eq_getElem _ _ hj]
    rw [List.getD_eq_getElem _ _ (by omega : j < exps.length)] at this
    have : exps[j].val < exps[j + 1].val := hlt
    omega

/-- A window whose ends are `needed - 1` apart is a run. -/
theorem window_eq_range (hs : exps.Pairwise (· < ·)) (hi : i + needed ≤ exps.length)
    (hspan : (exps.getD (i + needed - 1) 0).val - (exps.getD i 0).val = needed - 1) :
    ((exps.drop i).take needed).map Fin.val = List.range' (exps.getD i 0).val needed := by
  refine List.ext_getElem (by simp; omega) fun k hk _ => ?_
  have hk : k < needed := by simpa using hk.trans_le (by simp)
  have hlow := sorted_gap hs (Nat.le_add_right i k) (by omega)
  have hhigh := sorted_gap hs (show i + k ≤ i + needed - 1 by omega) (by omega)
  rw [List.getD_eq_getElem _ _ (by omega : i + k < exps.length)] at hlow hhigh
  simp only [List.getElem_map, List.getElem_take, List.getElem_drop, List.getElem_range']
  omega

theorem RunFrom.of_window (hs : exps.Pairwise (· < ·)) (hi : i + needed ≤ exps.length)
    (hspan : (exps.getD (i + needed - 1) 0).val - (exps.getD i 0).val = needed - 1) :
    RunFrom exps (exps.getD i 0).val needed := by
  intro k hk
  have hmem : (exps.getD i 0).val + k ∈ ((exps.drop i).take needed).map Fin.val := by
    rw [window_eq_range hs hi hspan, List.mem_range'_1]
    omega
  obtain ⟨e, he, hval⟩ := List.mem_map.mp hmem
  exact ⟨e, List.mem_of_mem_drop (List.mem_of_mem_take he), hval⟩

theorem RunFrom.window (hs : exps.Pairwise (· < ·)) {a : Nat} (hr : RunFrom exps a (needed + 1)) :
    ∃ i, i + (needed + 1) ≤ exps.length ∧ (exps.getD i 0).val = a ∧
      (exps.getD (i + needed) 0).val = a + needed := by
  have hplace : ∀ k, k < needed + 1 → ∃ i, i < exps.length ∧ (exps.getD i 0).val = a + k := by
    intro k hk
    obtain ⟨e, he, hval⟩ := hr k hk
    obtain ⟨i, hi, rfl⟩ := List.getElem_of_mem he
    exact ⟨i, hi, by rw [List.getD_eq_getElem _ _ hi, hval]⟩
  obtain ⟨i, hi, hia⟩ := hplace 0 (Nat.succ_pos _)
  -- each further exponent of the run stands one place on
  have hstep : ∀ k, k < needed + 1 → i + k < exps.length ∧ (exps.getD (i + k) 0).val = a + k := by
    intro k
    induction k with
    | zero => exact fun _ => ⟨hi, hia⟩
    | succ k ih =>
      intro hk
      obtain ⟨hik, hval⟩ := ih (by omega)
      obtain ⟨j, hj, hjval⟩ := hplace (k + 1) hk
      have hgt : i + k < j := by
        by_contra hle
        have := sorted_gap hs (not_lt.mp hle) hik
        omega
      have hfirst := sorted_gap hs (show i + k ≤ i + k + 1 by omega) (by omega)
      have hrest := sorted_gap hs (show i + k + 1 ≤ j by omega) hj
      have : j = i + k + 1 := by omega
      subst this
      exact ⟨hj, hjval⟩
  obtain ⟨hlast, hval⟩ := hstep needed (Nat.lt_succ_self _)
  exact ⟨i, by omega, hia, hval⟩

theorem runAt_iff (hs : exps.Pairwise (· < ·)) (hn : 0 < needed) (hle : needed ≤ exps.length) :
    runAt exps needed i = true ↔
      (exps.getD (i + needed - 1) 0).val - (exps.getD i 0).val = needed - 1 := by
  have := length_le_of_sorted hs
  rw [runAt, Nat.mod_eq_of_lt (by omega), decide_eq_true_iff]

/-- The windows tried are those inside the list, and the first that is a run is kept. -/
theorem selectConsecutiveRun_cases (hs : exps.Pairwise (· < ·)) (hn : 0 < needed) :
    (∃ i, i + needed ≤ exps.length ∧
      (exps.getD (i + needed - 1) 0).val - (exps.getD i 0).val = needed - 1 ∧
      (∀ j < i, (exps.getD (j + needed - 1) 0).val - (exps.getD j 0).val ≠ needed - 1) ∧
      selectConsecutiveRun exps needed = (exps.drop i).take needed) ∨
    (∀ i, i + needed ≤ exps.length →
      (exps.getD (i + needed - 1) 0).val - (exps.getD i 0).val ≠ needed - 1) ∧
      selectConsecutiveRun exps needed = exps.take needed := by
  rw [selectConsecutiveRun, if_neg hn.ne']
  split
  case isFalse hlen => exact .inr ⟨fun i hi => by omega, rfl⟩
  rename_i hle
  cases hf : (List.range (exps.length - needed + 1)).find? (runAt exps needed) with
  | some i =>
    obtain ⟨hrun, hmem, hfirst⟩ := List.find?_range_eq_some.mp hf
    rw [List.mem_range] at hmem
    refine .inl ⟨i, by omega, (runAt_iff hs hn hle).mp hrun, fun j hj hbad => ?_, rfl⟩
    simpa [(runAt_iff hs hn hle).mpr hbad] using hfirst j hj
  | none =>
    refine .inr ⟨fun i hi hbad => ?_, rfl⟩
    exact List.find?_eq_none.mp hf i (List.mem_range.mpr (by omega))
      ((runAt_iff hs hn hle).mpr hbad)

/-- The pick is the lowest run, where there is one. -/
theorem selectConsecutiveRun_run (hs : exps.Pairwise (· < ·)) {a : Nat}
    (hr : RunFrom exps a needed) (hlow : ∀ b, RunFrom exps b needed → a ≤ b) :
    (selectConsecutiveRun exps needed).map Fin.val = List.range' a needed := by
  obtain - | n := needed
  · simp [selectConsecutiveRun]
  obtain ⟨j, hj, hja, hjb⟩ := hr.window hs
  rcases selectConsecutiveRun_cases hs n.succ_pos with ⟨i, hi, hspan, hfirst, heq⟩ | ⟨hnone, -⟩
  · rw [heq, window_eq_range hs hi hspan]
    -- the window is a run, and no later than the lowest one
    have hge := hlow _ (RunFrom.of_window hs hi hspan)
    have hij : i ≤ j := by
      by_contra hlt
      exact hfirst j (not_le.mp hlt) (by simp only [Nat.add_succ_sub_one, hja, hjb]; omega)
    have := sorted_gap hs hij (by omega)
    rw [show a = (exps.getD i 0).val by omega]
  · exact absurd (by simp only [Nat.add_succ_sub_one, hja, hjb]; omega) (hnone j hj)

theorem selectConsecutiveRun_smallest (hs : exps.Pairwise (· < ·))
    (hno : ∀ a, ¬ RunFrom exps a needed) : selectConsecutiveRun exps needed = exps.take needed := by
  obtain - | n := needed
  · exact absurd (fun k hk => absurd hk (Nat.not_lt_zero k)) (hno 0)
  rcases selectConsecutiveRun_cases hs n.succ_pos with ⟨i, hi, hspan, -, -⟩ | ⟨-, heq⟩
  · exact absurd (RunFrom.of_window hs hi hspan) (hno _)
  · exact heq

theorem selectConsecutiveRun_sublist (exps : List Exponent) (needed : Nat) :
    (selectConsecutiveRun exps needed).Sublist exps := by
  unfold selectConsecutiveRun
  split
  · exact List.nil_sublist _
  split
  case isFalse => exact List.take_sublist _ _
  split
  · exact (List.take_sublist _ _).trans (List.drop_sublist _ _)
  · exact List.take_sublist _ _

theorem length_selectConsecutiveRun (hs : exps.Pairwise (· < ·)) (hle : needed ≤ exps.length) :
    (selectConsecutiveRun exps needed).length = needed := by
  rcases needed.eq_zero_or_pos with rfl | hn
  · simp [selectConsecutiveRun]
  rcases selectConsecutiveRun_cases hs hn with ⟨i, hi, -, -, heq⟩ | ⟨-, heq⟩
  · simp [heq, Nat.le_sub_of_add_le' hi]
  · simp [heq, hle]

theorem take_filter {α : Type} {l : List α} {p : α → Bool} {n : Nat} (hn : n ≤ l.length)
    (hp : ∀ x ∈ l.take n, p x = true) : (l.filter p).take n = l.take n := by
  have hkeep : l.filter p = l.take n ++ (l.drop n).filter p := by
    conv_lhs => rw [← List.take_append_drop n l, List.filter_append, List.filter_eq_self.mpr hp]
  rw [hkeep, List.take_append_of_le_length (by simp [hn]), List.take_take, min_self]

/-- The pick reads no candidate it does not keep: without some of the others it is the same. -/
theorem selectConsecutiveRun_filter (hs : exps.Pairwise (· < ·)) {p : Exponent → Bool}
    (hle : needed ≤ exps.length) (hp : ∀ e ∈ selectConsecutiveRun exps needed, p e = true) :
    selectConsecutiveRun (exps.filter p) needed = selectConsecutiveRun exps needed := by
  classical
  have hs' := hs.filter p
  have hfewer : ∀ {b}, RunFrom (exps.filter p) b needed → RunFrom exps b needed := by
    intro b hb k hk
    obtain ⟨e, he, hval⟩ := hb k hk
    exact ⟨e, List.mem_of_mem_filter he, hval⟩
  by_cases hrun : ∃ a, RunFrom exps a needed
  · have hlow : ∀ b, RunFrom exps b needed → Nat.find hrun ≤ b := fun b hb => Nat.find_min' hrun hb
    have hpick := selectConsecutiveRun_run hs (Nat.find_spec hrun) hlow
    -- the lowest run is what was picked, so the filter keeps it
    have hkept : RunFrom (exps.filter p) (Nat.find hrun) needed := by
      intro k hk
      have hmem : Nat.find hrun + k ∈ (selectConsecutiveRun exps needed).map Fin.val := by
        rw [hpick, List.mem_range'_1]
        omega
      obtain ⟨e, he, hval⟩ := List.mem_map.mp hmem
      have hin := (selectConsecutiveRun_sublist exps needed).mem he
      exact ⟨e, List.mem_filter.mpr ⟨hin, hp e he⟩, hval⟩
    have hpick' := selectConsecutiveRun_run hs' hkept fun b hb => hlow b (hfewer hb)
    exact List.map_injective_iff.mpr Fin.val_injective (hpick'.trans hpick.symm)
  · have hno : ∀ a, ¬ RunFrom exps a needed := fun a ha => hrun ⟨a, ha⟩
    have hpick := selectConsecutiveRun_smallest hs hno
    rw [hpick, selectConsecutiveRun_smallest hs' fun a ha => hno a (hfewer ha)]
    exact take_filter hle (hpick ▸ hp)

/-! ## Slices on disk -/

inductive SliceSrc where
  | own
  | donor
  deriving DecidableEq

/-- Where a recovery slice lies: a locator, never the bytes. -/
structure RecLoc where
  file : Nat
  exp : Exponent
  off : Nat
  len : Nat
  md5 : List UInt8
  src : SliceSrc

def RecLoc.mustRevalidate (loc : RecLoc) (caller : Bool) : Bool :=
  caller || decide (loc.src = .donor)

/-- What a repair fails with: a file that does not open, or one that ends early. -/
inductive IoError where
  | unopened
  | unexpectedEof

/-- The packet files a selection may read, and how each opens. -/
structure SlicePool where
  cat : Nat → Except IoError (List UInt8)
  donor : Nat → Except IoError (List UInt8)

def SlicePool.openFile (pool : SlicePool) (loc : RecLoc) : Except IoError (List UInt8) :=
  match loc.src with
  | .own => pool.cat loc.file
  | .donor => pool.donor loc.file

/-- `read_exact_at`; nothing where the file ends early. -/
def readExactAt (f : List UInt8) (len off : Nat) : Option (List UInt8) :=
  if off + len ≤ f.length then some ((f.drop off).take len) else none

section

variable (md5 : List UInt8 → List UInt8)

/-- The bytes read, where they still hash to the packet. The digest starts at the set id, 36 bytes
before the payload. -/
def readValidatedSlice (f : List UInt8) (loc : RecLoc) (size : Nat) : Option (List UInt8) :=
  (readExactAt f 36 (loc.off - 36)).bind fun head =>
    (readExactAt f size loc.off).bind fun data =>
      if md5 (head ++ data) = loc.md5 then some data else none

/-- The columns of the blocks one sweep loads. -/
structure Span where
  start : Nat
  stop : Nat

/-- What is kept of a slice: the span, or where that is the whole block the slice cut to it. -/
def kept (bs : Nat) (span : Span) (data : List UInt8) : List UInt8 :=
  let stop := min span.stop bs
  if 0 < span.start ∨ span.stop < bs then (data.take stop).drop (min span.start stop)
  else data.take stop

abbrev Slot := Except IoError (Option (Exponent × List UInt8))

def readSlice (bs : Nat) (span : Span) (revalidate : Bool) (f : List UInt8) (e : Exponent)
    (loc : RecLoc) : Slot :=
  let full := max loc.len bs
  if loc.mustRevalidate revalidate then
    .ok ((readValidatedSlice md5 f loc full).map fun data => (e, kept bs span data))
  else
    match readExactAt f full loc.off with
    | some data => .ok (some (e, kept bs span data))
    | none => .error .unexpectedEof

/-- One reader: the slices of a file in order, up to the first that does not load. -/
def readSlices (bs : Nat) (span : Span) (revalidate : Bool) (f : List UInt8) :
    List (Exponent × RecLoc) → List Slot
  | [] => []
  | (e, loc) :: rest =>
    match readSlice md5 bs span revalidate f e loc with
    | .ok (some pair) => .ok (some pair) :: readSlices bs span revalidate f rest
    | slot => [slot]

def readGroup (pool : SlicePool) (bs : Nat) (span : Span) (revalidate : Bool)
    (group : List (Exponent × RecLoc)) : List Slot :=
  match group with
  | [] => []
  | (_, loc) :: _ =>
    match pool.openFile loc with
    | .ok f => readSlices md5 bs span revalidate f group
    | .error err => [.error err]

/-! ## The loop -/

/-- The slices loaded so far, and whether one was dropped. -/
structure Gathered where
  loaded : List (Exponent × List UInt8)
  anyDropped : Bool

def gather (g : Gathered) : Slot → Except IoError Gathered
  | .ok (some pair) => .ok { g with loaded := g.loaded ++ [pair] }
  | .ok none => .ok { g with anyDropped := true }
  | .error err => .error err

def sortedKeys {V : Type} (byExp : Table Exponent V) : List Exponent := byExp.keys.sort

def selectedExponents {V : Type} (byExp : Table Exponent V) (needed : Nat) : List Exponent :=
  selectConsecutiveRun (sortedKeys byExp) needed

def located (byExp : Table Exponent RecLoc) (exps : List Exponent) : List (Exponent × RecLoc) :=
  exps.filterMap fun e => (byExp.lookup e).map (e, ·)

def fileKey (x : Exponent × RecLoc) : SliceSrc × Nat := (x.2.src, x.2.file)

/-- The selected slices by the file they lie in, each file's in exponent order. -/
def groupTable (byExp : Table Exponent RecLoc) (exps : List Exponent) :
    Table (SliceSrc × Nat) (List (Exponent × RecLoc)) :=
  (located byExp exps).foldl (fun t x => t.step (fileKey x) [] (· ++ [x])) ∅

def fileGroups (o : HashOrder (SliceSrc × Nat)) (byExp : Table Exponent RecLoc)
    (exps : List Exponent) : List (List (Exponent × RecLoc)) :=
  (o.order (groupTable byExp exps).keys).map fun k => ((groupTable byExp exps).lookup k).getD []

def firstFailed (got : List Exponent) (group : List (Exponent × RecLoc)) : Option Exponent :=
  (group.map Prod.fst).find? fun e => !got.contains e

/-- What a load gives: the slices, or nothing where dropping left too few. -/
abbrev Loaded := Except IoError (Option (List (Exponent × List UInt8)))

def loadPass (o : HashOrder (SliceSrc × Nat)) (pool : SlicePool) (needed bs : Nat) (span : Span)
    (revalidate : Bool) (byExp : Table Exponent RecLoc) : Pass (Table Exponent RecLoc) Loaded :=
  if byExp.keys.card < needed then .leave (.ok none)
  else
    let groups := fileGroups o byExp (selectedExponents byExp needed)
    let slots := groups.flatMap (readGroup md5 pool bs span revalidate)
    match slots.foldlM gather ⟨[], false⟩ with
    | .error err => .leave (.error err)
    | .ok g =>
      if g.anyDropped then
        let failed := groups.filterMap (firstFailed (g.loaded.map Prod.fst))
        .again (failed.foldl (fun t e => t.erase e) byExp)
      else .leave (.ok (some (g.loaded.mergeSort fun a b => decide (a.1 ≤ b.1))))

def loadSelectedRecoverySpan (o : HashOrder (SliceSrc × Nat)) (pool : SlicePool)
    (byExp : Table Exponent RecLoc) (needed bs : Nat) (span : Span) (revalidate : Bool) :
    Option Loaded :=
  run (loadPass md5 o pool needed bs span revalidate) (byExp.keys.card + 1) byExp

end

/-! ## What the slices hold -/

section

variable {md5 : List UInt8 → List UInt8} {pool : SlicePool} {bs : Nat} {span : Span}

/-- The bytes of the packet, from its set id on, still hash to what was cataloged. -/
def SlicePool.proves (md5 : List UInt8 → List UInt8) (pool : SlicePool) (loc : RecLoc) : Bool :=
  match pool.openFile loc with
  | .ok f => decide (loc.off + loc.len ≤ f.length ∧
      md5 ((f.drop (loc.off - 36)).take (36 + loc.len)) = loc.md5)
  | .error _ => false

def SlicePool.spanOf (pool : SlicePool) (bs : Nat) (span : Span) (loc : RecLoc) : List UInt8 :=
  match pool.openFile loc with
  | .ok f => ((f.drop loc.off).take (min span.stop bs)).drop span.start
  | .error _ => []

def SlicePool.good (md5 : List UInt8 → List UInt8) (pool : SlicePool) (x : Exponent × RecLoc) : Bool :=
  pool.proves md5 x.2

def SlicePool.pair (pool : SlicePool) (bs : Nat) (span : Span) (x : Exponent × RecLoc) :
    Exponent × List UInt8 :=
  (x.1, pool.spanOf bs span x.2)

/-- A locator as a scan makes it: in a file that opens, past a packet header and no shorter than a
block. -/
structure Located (pool : SlicePool) (bs : Nat) (loc : RecLoc) : Prop where
  opens : ∃ f, pool.openFile loc = .ok f
  header : 36 ≤ loc.off
  fits : bs ≤ loc.len

theorem kept_eq {data : List UInt8} :
    kept bs span data = (data.take (min span.stop bs)).drop span.start := by
  simp only [kept]
  split
  · rcases le_total span.start (min span.stop bs) with h | h
    · rw [min_eq_left h]
    · rw [min_eq_right h, List.drop_eq_nil_of_le (by simp),
        List.drop_eq_nil_of_le ((List.length_take_le _ _).trans h)]
  · rename_i h
    rw [show span.start = 0 by omega, List.drop_zero]

theorem take_append_take (f : List UInt8) (a b off : Nat) :
    (f.drop off).take a ++ (f.drop (off + a)).take b = (f.drop off).take (a + b) := by
  rw [List.take_add, List.drop_drop]

/-- A revalidated read gives the span of a slice that proves, and nothing of one that does not. -/
theorem readSlice_eq {f : List UInt8} {loc : RecLoc} (h : Located pool bs loc)
    (hf : pool.openFile loc = .ok f) (e : Exponent) :
    readSlice md5 bs span true f e loc =
      .ok (if pool.proves md5 loc then some (e, pool.spanOf bs span loc) else none) := by
  have hfull := max_eq_left h.fits
  have hhead : loc.off - 36 + 36 = loc.off := Nat.sub_add_cancel h.header
  simp only [readSlice, RecLoc.mustRevalidate, Bool.true_or, ↓reduceIte, hfull, readValidatedSlice,
    readExactAt, hhead, SlicePool.proves, SlicePool.spanOf, hf]
  by_cases hin : loc.off + loc.len ≤ f.length
  · have happ := take_append_take f 36 loc.len (loc.off - 36)
    rw [hhead] at happ
    have hstop : min (min span.stop bs) loc.len = min span.stop bs :=
      min_eq_left ((min_le_right _ _).trans h.fits)
    by_cases hmd : md5 ((f.drop (loc.off - 36)).take (36 + loc.len)) = loc.md5
    · simp [hin, happ, hmd, Nat.le_of_add_right_le hin, kept_eq, List.take_take, hstop]
    · simp [hin, happ, hmd, Nat.le_of_add_right_le hin]
  · by_cases hoff : loc.off ≤ f.length <;> simp [hin, hoff]

/-- A reader loads the slices of its file up to the first that does not prove. -/
theorem readSlices_eq {f : List UInt8} (group : List (Exponent × RecLoc))
    (h : ∀ x ∈ group, Located pool bs x.2 ∧ pool.openFile x.2 = .ok f) :
    readSlices md5 bs span true f group =
      (((group.takeWhile (pool.good md5)).map fun x => some (pool.pair bs span x)) ++
        if group.all (pool.good md5) then [] else [none]).map .ok := by
  induction group with
  | nil => rfl
  | cons x rest ih =>
    obtain ⟨hloc, hf⟩ := h x ((.head _) ..)
    have ih := ih fun y hy => h y (.tail _ hy)
    rw [readSlices, readSlice_eq hloc hf]
    by_cases hg : pool.good md5 x = true
    · have hp : pool.proves md5 x.2 = true := hg
      rw [List.takeWhile_cons_of_pos hg, List.all_cons, hg, Bool.true_and, if_pos hp, ih]
      rfl
    · have hp : ¬ pool.proves md5 x.2 = true := hg
      rw [List.takeWhile_cons_of_neg hg, List.all_cons, Bool.eq_false_of_not_eq_true hg, if_neg hp]
      rfl

theorem gather_ok (slots : List (Option (Exponent × List UInt8))) (g : Gathered) :
    (slots.map Except.ok).foldlM gather g =
      .ok ⟨g.loaded ++ slots.filterMap id, g.anyDropped || slots.any Option.isNone⟩ := by
  induction slots generalizing g with
  | nil => simp [pure, Except.pure]
  | cons slot slots ih =>
    cases slot with
    | none =>
      have := ih { g with anyDropped := true }
      simpa [gather, bind, Except.bind] using this
    | some pair =>
      have := ih { g with loaded := g.loaded ++ [pair] }
      simpa [gather, bind, Except.bind] using this

def SlicePool.slots (md5 : List UInt8 → List UInt8) (pool : SlicePool) (bs : Nat) (span : Span)
    (group : List (Exponent × RecLoc)) : List (Option (Exponent × List UInt8)) :=
  ((group.takeWhile (pool.good md5)).map fun x => some (pool.pair bs span x)) ++
    if group.all (pool.good md5) then [] else [none]

variable {x : Exponent × RecLoc} {group : List (Exponent × RecLoc)} {e : Exponent}

theorem SlicePool.openFile_congr (pool : SlicePool) {y : Exponent × RecLoc}
    (h : fileKey x = fileKey y) : pool.openFile x.2 = pool.openFile y.2 := by
  obtain ⟨hsrc, hfile⟩ := Prod.mk.inj h
  rw [openFile, openFile, hsrc, hfile]

theorem readGroup_eq {k : SliceSrc × Nat} (hloc : ∀ x ∈ group, Located pool bs x.2)
    (hkey : ∀ x ∈ group, fileKey x = k) :
    readGroup md5 pool bs span true group = (pool.slots md5 bs span group).map .ok := by
  cases group with
  | nil => rfl
  | cons x rest =>
    obtain ⟨f, hf⟩ := (hloc x ((.head _) ..)).opens
    simp only [readGroup, hf]
    refine readSlices_eq _ fun y hy => ⟨hloc y hy, ?_⟩
    rw [← hf]
    exact pool.openFile_congr ((hkey y hy).trans (hkey x ((.head _) ..)).symm)

/-! ## Groups -/

variable {byExp : Table Exponent RecLoc} {o : HashOrder (SliceSrc × Nat)}

theorem mem_located : x ∈ located byExp exps ↔ x.1 ∈ exps ∧ byExp.lookup x.1 = some x.2 := by
  obtain ⟨e, loc⟩ := x
  simp only [located, List.mem_filterMap, Option.map_eq_some_iff, Prod.mk.injEq]
  constructor
  · rintro ⟨_, he, _, hl, rfl, rfl⟩
    exact ⟨he, hl⟩
  · rintro ⟨he, hl⟩
    exact ⟨e, he, loc, hl, rfl, rfl⟩

theorem map_fst_located (byExp : Table Exponent RecLoc) (h : ∀ e ∈ exps, e ∈ byExp) :
    (located byExp exps).map Prod.fst = exps := by
  induction exps with
  | nil => rfl
  | cons e exps ih =>
    obtain ⟨loc, hl⟩ := Option.isSome_iff_exists.mp
      (lookup_isSome.mpr (h e ((.head _) ..)))
    have ih := ih fun y hy => h y (.tail _ hy)
    rw [located, List.filterMap_cons_some (by rw [hl]; rfl), List.map_cons]
    exact congrArg _ ih

theorem fileGroups_eq (o : HashOrder (SliceSrc × Nat)) (byExp : Table Exponent RecLoc)
    (exps : List Exponent) : ∃ ks : List (SliceSrc × Nat), ks.Nodup ∧
    (∀ x ∈ located byExp exps, fileKey x ∈ ks) ∧
    fileGroups o byExp exps =
      ks.map fun k => (located byExp exps).filter (fileKey · = k) := by
  refine ⟨o.order (groupTable byExp exps).keys, o.nodup _, fun x hx => ?_, ?_⟩
  · rw [o.mem, mem_keys, groupTable, Table.mem_foldl_step]
    exact .inr ⟨x, hx, rfl⟩
  · refine List.map_congr_left fun k _ => ?_
    rw [groupTable, Table.getD_foldl_push fileKey (fun x => x)]
    simp

theorem flatten_filter_perm {A K : Type} [DecidableEq K] (key : A → K) (l : List A) {ks : List K}
    (hks : ks.Nodup) (hl : ∀ x ∈ l, key x ∈ ks) :
    (ks.map fun k => l.filter (key · = k)).flatten.Perm l := by
  induction ks generalizing l with
  | nil =>
    rw [List.eq_nil_iff_forall_not_mem.mpr fun x hx => absurd (hl x hx) List.not_mem_nil]
    rfl
  | cons k ks ih =>
    obtain ⟨hk, hks⟩ := List.nodup_cons.mp hks
    -- the elements of the first key, then those of the others
    have hrest : ks.map (fun j => l.filter (key · = j)) =
        ks.map fun j => (l.filter (key · ≠ k)).filter (key · = j) := by
      refine List.map_congr_left fun j hj => ?_
      rw [List.filter_filter]
      refine List.filter_congr fun x _ => ?_
      by_cases hx : key x = j
      · simp [hx, show j ≠ k from fun h => hk (h ▸ hj)]
      · simp [hx]
    have hin : ∀ x ∈ l.filter (key · ≠ k), key x ∈ ks := by
      intro x hx
      obtain ⟨hmem, hne⟩ := List.mem_filter.mp hx
      exact (List.mem_cons.mp (hl x hmem)).resolve_left (by simpa using hne)
    rw [List.map_cons, List.flatten_cons, hrest]
    refine ((ih _ hks hin).append_left _).trans ?_
    have := List.filter_append_perm (fun x => decide (key x = k)) l
    simpa using this

/-! ## One pass -/

/-- Lists read up to their first bad element: what a list holds first beyond what was read is bad,
and a list with a bad element holds something beyond. -/
theorem first_unread {A : Type} [DecidableEq A] (V : A → Bool) {lists : List (List A)} {l : List A}
    (hl : l ∈ lists) :
    let got := lists.flatMap fun l => l.takeWhile V
    (∀ e, (l.find? fun e => !got.contains e) = some e → V e = false) ∧
      ((∃ e ∈ l, V e = false) → (l.find? fun e => !got.contains e).isSome) := by
  intro got
  have hgot : ∀ e ∈ got, V e = true := by
    intro e he
    obtain ⟨g, -, hg⟩ := List.mem_flatMap.mp he
    exact List.mem_takeWhile_imp hg
  refine ⟨fun e he => ?_, fun ⟨e, he, hbad⟩ => ?_⟩
  · obtain ⟨hnot, before, after, rfl, hbefore⟩ := List.find?_eq_some_iff_append.mp he
    -- everything before was read, so a good `e` would have been read too
    by_contra hgood
    have hread : e ∈ got := by
      refine List.mem_flatMap.mpr ⟨_, hl, ?_⟩
      rw [List.takeWhile_append_of_pos fun a ha => hgot a (by simpa using hbefore a ha),
        List.takeWhile_cons_of_pos (by simpa using hgood)]
      simp
    simp [hread] at hnot
  · rw [List.find?_isSome]
    refine ⟨e, he, ?_⟩
    have : e ∉ got := fun hin => by simp [hgot e hin] at hbad
    simpa using this

theorem lookup_foldl_erase {V : Type} (l : List Exponent) (t : Table Exponent V) (e : Exponent) :
    (l.foldl (fun t e => t.erase e) t).lookup e = if e ∈ l then none else t.lookup e := by
  induction l generalizing t with
  | nil => simp
  | cons a l ih =>
    rw [List.foldl_cons, ih]
    by_cases ha : e = a
    · subst ha
      simp
    · simp [ha, lookup_erase_ne]

def validates (md5 : List UInt8 → List UInt8) (pool : SlicePool) (byExp : Table Exponent RecLoc)
    (e : Exponent) : Bool :=
  (byExp.lookup e).any (pool.proves md5)

def loadedSpan (pool : SlicePool) (bs : Nat) (span : Span) (byExp : Table Exponent RecLoc)
    (e : Exponent) : List UInt8 :=
  (byExp.lookup e).elim [] (pool.spanOf bs span)

theorem sorted_sortedKeys {V : Type} (t : Table Exponent V) : (sortedKeys t).Pairwise (· < ·) :=
  (sortedLT_sort _).pairwise

theorem mem_sortedKeys {V : Type} {t : Table Exponent V} : e ∈ sortedKeys t ↔ e ∈ t := by
  rw [sortedKeys, mem_sort, mem_keys]

theorem good_iff (md5 : List UInt8 → List UInt8) (pool : SlicePool) (hx : x ∈ located byExp exps) :
    pool.good md5 x = validates md5 pool byExp x.1 := by
  rw [validates, (mem_located.mp hx).2]
  rfl

theorem mem_group (hg : group ∈ fileGroups o byExp exps) :
    ∃ k, group = (located byExp exps).filter (fileKey · = k) := by
  obtain ⟨ks, -, -, heq⟩ := fileGroups_eq o byExp exps
  rw [heq] at hg
  obtain ⟨k, -, rfl⟩ := List.mem_map.mp hg
  exact ⟨k, rfl⟩

theorem slots_eq (hloc : ∀ e loc, byExp.lookup e = some loc → Located pool bs loc) :
    (fileGroups o byExp exps).flatMap (readGroup md5 pool bs span true) =
      ((fileGroups o byExp exps).flatMap (pool.slots md5 bs span)).map .ok := by
  rw [List.map_flatMap]
  refine List.flatMap_congr fun group hg => ?_
  obtain ⟨k, rfl⟩ := mem_group hg
  refine readGroup_eq (fun x hx => ?_) fun x hx => by simpa using (List.mem_filter.mp hx).2
  exact hloc _ _ (mem_located.mp (List.mem_of_mem_filter hx)).2

theorem filterMap_slots (group : List (Exponent × RecLoc)) :
    (pool.slots md5 bs span group).filterMap id =
      (group.takeWhile (pool.good md5)).map (pool.pair bs span) := by
  unfold SlicePool.slots
  split <;> simp

theorem any_slots (group : List (Exponent × RecLoc)) :
    (pool.slots md5 bs span group).any Option.isNone = !group.all (pool.good md5) := by
  unfold SlicePool.slots
  split
  · rename_i h
    simp [h]
  · rename_i h
    simp [Bool.eq_false_of_not_eq_true h]

theorem selected_mem (h : e ∈ selectedExponents byExp needed) : e ∈ byExp :=
  mem_sortedKeys.mp ((selectConsecutiveRun_sublist _ _).mem h)

theorem selected_sorted : (selectedExponents byExp needed).Pairwise (· < ·) :=
  (sorted_sortedKeys byExp).sublist (selectConsecutiveRun_sublist _ _)

theorem read_exponents (h : ∀ x ∈ group, x ∈ located byExp exps) :
    ((group.takeWhile (pool.good md5)).map (pool.pair bs span)).map Prod.fst =
      (group.map Prod.fst).takeWhile (validates md5 pool byExp) := by
  induction group with
  | nil => rfl
  | cons x group ih =>
    have hx := good_iff md5 pool (h x ((.head _) ..))
    have ih := ih fun y hy => h y (.tail _ hy)
    by_cases hg : pool.good md5 x = true
    · simp only [List.map_cons]
      rw [List.takeWhile_cons_of_pos hg, List.takeWhile_cons_of_pos (hx ▸ hg), ← ih]
      rfl
    · simp only [List.map_cons]
      rw [List.takeWhile_cons_of_neg hg, List.takeWhile_cons_of_neg (hx ▸ hg)]
      rfl

theorem sort_loaded (hs : exps.Pairwise (· < ·)) (f : Exponent → List UInt8)
    {l : List (Exponent × List UInt8)} (hl : l.Perm (exps.map fun e => (e, f e))) :
    (l.mergeSort fun a b => decide (a.1 ≤ b.1)) = exps.map fun e => (e, f e) := by
  set le : Exponent × List UInt8 → Exponent × List UInt8 → Bool := fun a b => decide (a.1 ≤ b.1)
  have hperm := (List.mergeSort_perm l le).trans hl
  have hanti : ∀ a b, a ∈ l.mergeSort le → b ∈ exps.map (fun e => (e, f e)) → le a b = true →
      le b a = true → a = b := by
    intro a b ha hb hab hba
    obtain ⟨x, -, rfl⟩ := List.mem_map.mp (hperm.mem_iff.mp ha)
    obtain ⟨y, -, rfl⟩ := List.mem_map.mp hb
    rw [show x = y from (of_decide_eq_true hab).antisymm (of_decide_eq_true hba)]
  have hsorted : (l.mergeSort le).Pairwise fun a b => le a b = true :=
    List.pairwise_mergeSort
      (fun a b c hab hbc => decide_eq_true ((of_decide_eq_true hab).trans (of_decide_eq_true hbc)))
      (fun a b => by simpa [le] using le_total a.1 b.1) l
  have hgoal : (exps.map fun e => (e, f e)).Pairwise fun a b => le a b = true := by
    rw [List.pairwise_map]
    exact hs.imp fun h => decide_eq_true h.le
  exact hperm.eq_of_pairwise hanti hsorted hgoal

/-- What a pass does: too few candidates end it, a clean pick ends it with the spans, and otherwise
it goes round without some slices that do not prove. -/
theorem loadPass_cases (md5 : List UInt8 → List UInt8) (o : HashOrder (SliceSrc × Nat)) (needed : Nat)
    (span : Span) (hloc : ∀ e loc, byExp.lookup e = some loc → Located pool bs loc) :
    (byExp.keys.card < needed ∧ loadPass md5 o pool needed bs span true byExp = .leave (.ok none)) ∨
    (needed ≤ byExp.keys.card ∧
      (∀ e ∈ selectedExponents byExp needed, validates md5 pool byExp e = true) ∧
      loadPass md5 o pool needed bs span true byExp = .leave (.ok (some
        ((selectedExponents byExp needed).map fun e => (e, loadedSpan pool bs span byExp e))))) ∨
    ∃ failed : List Exponent,
      loadPass md5 o pool needed bs span true byExp =
        .again (failed.foldl (fun t e => t.erase e) byExp) ∧
      (∀ e ∈ failed, validates md5 pool byExp e = false) ∧ ∃ e ∈ failed, e ∈ byExp := by
  by_cases hcard : byExp.keys.card < needed
  · exact .inl ⟨hcard, if_pos hcard⟩
  refine .inr ?_
  set exps := selectedExponents byExp needed with hexps
  obtain ⟨ks, hks, hin, hgroups⟩ := fileGroups_eq o byExp exps
  have hflat : (fileGroups o byExp exps).flatten.Perm (located byExp exps) := by
    rw [hgroups]
    exact flatten_filter_perm fileKey _ hks hin
  have hfst := map_fst_located byExp fun e (he : e ∈ exps) => selected_mem he
  have hsub : ∀ group ∈ fileGroups o byExp exps, ∀ x ∈ group, x ∈ located byExp exps :=
    fun group hg x hx => hflat.mem_iff.mp (List.mem_flatten.mpr ⟨group, hg, hx⟩)
  simp only [loadPass, if_neg hcard, ← hexps, slots_eq hloc, gather_ok, Bool.false_or,
    List.nil_append, List.filterMap_flatMap, filterMap_slots, List.any_flatMap, any_slots]
  by_cases hall : ∀ e ∈ exps, validates md5 pool byExp e = true
  · left
    have hgood : ∀ group ∈ fileGroups o byExp exps, group.all (pool.good md5) = true := by
      intro group hg
      rw [List.all_eq_true]
      intro x hx
      have hmem := hsub group hg x hx
      rw [good_iff md5 pool hmem]
      exact hall _ (mem_located.mp hmem).1
    have hload : ((fileGroups o byExp exps).flatMap fun group =>
        (group.takeWhile (pool.good md5)).map (pool.pair bs span)) =
          (fileGroups o byExp exps).flatten.map (pool.pair bs span) := by
      rw [List.map_flatten, ← List.flatMap_def]
      refine List.flatMap_congr fun group hg => ?_
      rw [List.takeWhile_eq_self_iff.mpr fun x hx => List.all_eq_true.mp (hgood group hg) x hx]
    have hany : ((fileGroups o byExp exps).any fun group => !group.all (pool.good md5)) = false := by
      simpa using hgood
    have hpair : (located byExp exps).map (pool.pair bs span) =
        exps.map fun e => (e, loadedSpan pool bs span byExp e) := by
      conv_rhs => rw [← hfst, List.map_map]
      refine List.map_congr_left fun x hx => ?_
      simp [SlicePool.pair, loadedSpan, (mem_located.mp hx).2]
    refine ⟨not_lt.mp hcard, hall, ?_⟩
    rw [hload, hany, if_neg (by simp), sort_loaded selected_sorted _ (hpair ▸ hflat.map _)]
  · right
    push Not at hall
    obtain ⟨bad, hbad, hinvalid⟩ := hall
    set lists := (fileGroups o byExp exps).map (List.map Prod.fst) with hlists
    have hgot : ((fileGroups o byExp exps).flatMap fun group =>
        (group.takeWhile (pool.good md5)).map (pool.pair bs span)).map Prod.fst =
          lists.flatMap fun l => l.takeWhile (validates md5 pool byExp) := by
      rw [List.map_flatMap, hlists, List.flatMap_map]
      exact List.flatMap_congr fun group hg => read_exponents (hsub group hg)
    -- the bad slice lies in some group
    obtain ⟨x, hx, rfl⟩ : ∃ x ∈ located byExp exps, x.1 = bad := by
      rw [← hfst] at hbad
      exact List.mem_map.mp hbad
    obtain ⟨group, hg, hxg⟩ := List.mem_flatten.mp (hflat.mem_iff.mpr hx)
    have hany : ((fileGroups o byExp exps).any fun group => !group.all (pool.good md5)) = true := by
      simp only [List.any_eq_true, Bool.not_eq_true', List.all_eq_false]
      exact ⟨group, hg, x, hxg, by rw [good_iff md5 pool hx]; exact hinvalid⟩
    rw [hany, if_pos rfl]
    refine ⟨_, rfl, fun e he => ?_, ?_⟩
    · obtain ⟨group, hg, hfail⟩ := List.mem_filterMap.mp he
      rw [firstFailed, hgot] at hfail
      exact (first_unread _ (List.mem_map.mpr ⟨group, hg, rfl⟩)).1 e hfail
    · have hsome := (first_unread (validates md5 pool byExp) (List.mem_map.mpr ⟨group, hg, rfl⟩)).2
        ⟨x.1, List.mem_map.mpr ⟨x, hxg, rfl⟩, Bool.eq_false_of_not_eq_true hinvalid⟩
      obtain ⟨e, hfail⟩ := Option.isSome_iff_exists.mp hsome
      refine ⟨e, List.mem_filterMap.mpr ⟨group, hg, ?_⟩, ?_⟩
      · rw [firstFailed, hgot]
        exact hfail
      · obtain ⟨y, hy, rfl⟩ := List.mem_map.mp (List.mem_of_find?_eq_some hfail)
        exact selected_mem (mem_located.mp (hsub group hg y hy)).1

/-! ## The whole run -/

def validExponents (md5 : List UInt8 → List UInt8) (pool : SlicePool)
    (byExp : Table Exponent RecLoc) : Finset Exponent :=
  byExp.keys.filter fun e => validates md5 pool byExp e = true

/-- What is left of the map: only slices that do not prove are gone. -/
def Left (md5 : List UInt8 → List UInt8) (pool : SlicePool) (byExp t : Table Exponent RecLoc) :
    Prop :=
  ∀ e, t.lookup e = byExp.lookup e ∨ t.lookup e = none ∧ validates md5 pool byExp e = false

variable {t : Table Exponent RecLoc}

theorem Left.lookup (h : Left md5 pool byExp t) {loc : RecLoc} (ht : t.lookup e = some loc) :
    byExp.lookup e = some loc := by
  rcases h e with heq | ⟨hnone, -⟩
  · rw [← heq, ht]
  · rw [hnone] at ht
    cases ht

/-- Dropping slices that do not prove leaves the valid ones as they were. -/
theorem Left.drop (h : Left md5 pool byExp t) {failed : List Exponent}
    (hf : ∀ e ∈ failed, validates md5 pool t e = false) :
    Left md5 pool byExp (failed.foldl (fun t e => t.erase e) t) := by
  intro e
  rw [lookup_foldl_erase]
  split
  · rename_i he
    rcases h e with heq | hgone
    · exact .inr ⟨rfl, by rw [validates, ← heq]; exact hf e he⟩
    · exact .inr ⟨rfl, hgone.2⟩
  · exact h e

theorem Left.validates (h : Left md5 pool byExp t) (he : e ∈ t) :
    validates md5 pool t e = NzbFast.Repair.validates md5 pool byExp e := by
  obtain ⟨loc, hloc⟩ := Option.isSome_iff_exists.mp (lookup_isSome.mpr he)
  rw [NzbFast.Repair.validates, NzbFast.Repair.validates, hloc, h.lookup hloc]

/-- The valid exponents in order are what the filter keeps of the keys left. -/
theorem Left.sort_valid (h : Left md5 pool byExp t) :
    (validExponents md5 pool byExp).sort =
      (sortedKeys t).filter (NzbFast.Repair.validates md5 pool byExp) := by
  have hl : (validExponents md5 pool byExp).sort.Pairwise (· < ·) :=
    (sortedLT_sort _).pairwise
  have hr := (sorted_sortedKeys t).filter (NzbFast.Repair.validates md5 pool byExp)
  refine List.Perm.eq_of_pairwise (fun a b _ _ hab hba => absurd hba hab.not_gt) hl hr ?_
  refine (List.perm_ext_iff_of_nodup (hl.imp ne_of_lt) (hr.imp ne_of_lt)).mpr fun e => ?_
  simp only [mem_sort, validExponents, mem_filter, mem_keys, List.mem_filter, mem_sortedKeys]
  refine and_congr_left fun hv => ?_
  rcases h e with heq | hgone
  · rw [← lookup_isSome, ← lookup_isSome, heq]
  · simp [hgone.2] at hv

theorem card_erase_lt {failed : List Exponent} (h : ∃ e ∈ failed, e ∈ t) :
    (failed.foldl (fun t e => t.erase e) t).keys.card < t.keys.card := by
  obtain ⟨e, he, hmem⟩ := h
  refine card_lt_card (ssubset_iff_of_subset (fun a ha => ?_) |>.mpr ⟨e, ?_, ?_⟩)
  · rw [mem_keys, ← lookup_isSome, lookup_foldl_erase] at ha
    rw [mem_keys, ← lookup_isSome]
    split at ha
    · cases ha
    · exact ha
  · exact mem_keys.mpr hmem
  · rw [mem_keys, ← lookup_isSome, lookup_foldl_erase, if_pos he]
    simp

/-- The spans of the pick over the slices that prove, where they are enough. -/
def validSelection (md5 : List UInt8 → List UInt8) (pool : SlicePool) (bs : Nat) (span : Span)
    (byExp : Table Exponent RecLoc) (needed : Nat) : Option (List (Exponent × List UInt8)) :=
  if needed ≤ (validExponents md5 pool byExp).card then
    some ((selectConsecutiveRun (validExponents md5 pool byExp).sort needed).map fun e =>
      (e, loadedSpan pool bs span byExp e))
  else none

/-- Too few candidates left are too few that prove. -/
theorem Left.few (h : Left md5 pool byExp t) (hfew : t.keys.card < needed) :
    validSelection md5 pool bs span byExp needed = none := by
  have hle : (validExponents md5 pool byExp).card ≤ t.keys.card := by
    calc (validExponents md5 pool byExp).card = (validExponents md5 pool byExp).sort.length :=
          (length_sort _).symm
      _ ≤ (sortedKeys t).length := h.sort_valid ▸ List.length_filter_le _ _
      _ = t.keys.card := length_sort _
  exact if_neg (by omega)

/-- A clean pick is the pick over the slices that prove. -/
theorem Left.clean (h : Left md5 pool byExp t) (hmany : needed ≤ t.keys.card)
    (hall : ∀ e ∈ selectedExponents t needed, NzbFast.Repair.validates md5 pool t e = true) :
    validSelection md5 pool bs span byExp needed =
      some ((selectedExponents t needed).map fun e => (e, loadedSpan pool bs span t e)) := by
  have hle : needed ≤ (sortedKeys t).length := by rwa [sortedKeys, length_sort]
  have hpick : selectConsecutiveRun (validExponents md5 pool byExp).sort needed =
      selectedExponents t needed := by
    rw [h.sort_valid]
    refine selectConsecutiveRun_filter (sorted_sortedKeys t) hle fun e he => ?_
    rw [← h.validates (selected_mem he)]
    exact hall e he
  have hge : needed ≤ (validExponents md5 pool byExp).card := by
    calc needed = (selectedExponents t needed).length :=
          (length_selectConsecutiveRun (sorted_sortedKeys t) hle).symm
      _ ≤ (validExponents md5 pool byExp).sort.length :=
          hpick ▸ (selectConsecutiveRun_sublist _ _).length_le
      _ = (validExponents md5 pool byExp).card := length_sort _
  rw [validSelection, if_pos hge, hpick]
  refine congrArg some (List.map_congr_left fun e he => ?_)
  obtain ⟨loc, hl⟩ := Option.isSome_iff_exists.mp (lookup_isSome.mpr (selected_mem he))
  rw [loadedSpan, loadedSpan, hl, h.lookup hl]

/-- Selecting, reading and dropping ends at the pick over the slices that still prove. -/
theorem load_selected_valid (o : HashOrder (SliceSrc × Nat)) (needed : Nat)
    (hloc : ∀ e loc, byExp.lookup e = some loc → Located pool bs loc) :
    loadSelectedRecoverySpan md5 o pool byExp needed bs span true =
      some (.ok (validSelection md5 pool bs span byExp needed)) := by
  have hcases := fun (t : Table Exponent RecLoc) (ht : Left md5 pool byExp t) =>
    loadPass_cases md5 o needed span fun e loc h => hloc e loc (ht.lookup h)
  have hagain : ∀ t t', Left md5 pool byExp t →
      loadPass md5 o pool needed bs span true t = .again t' →
      Left md5 pool byExp t' ∧ t'.keys.card < t.keys.card := by
    intro t t' ht hpass
    rcases hcases t ht with ⟨-, heq⟩ | ⟨-, -, heq⟩ | ⟨failed, heq, hbad, hin⟩
    · cases heq.symm.trans hpass
    · cases heq.symm.trans hpass
    · cases heq.symm.trans hpass
      exact ⟨ht.drop hbad, card_erase_lt hin⟩
  have hleave : ∀ t r, Left md5 pool byExp t →
      loadPass md5 o pool needed bs span true t = .leave r →
      r = .ok (validSelection md5 pool bs span byExp needed) := by
    intro t r ht hpass
    rcases hcases t ht with ⟨hfew, heq⟩ | ⟨hmany, hall, heq⟩ | ⟨failed, heq, -⟩
    · cases heq.symm.trans hpass
      rw [ht.few hfew]
    · cases heq.symm.trans hpass
      rw [ht.clean hmany hall]
    · cases heq.symm.trans hpass
  obtain ⟨r, hrun, hr⟩ := run_total hagain hleave (fun e => .inl rfl) (Nat.lt_succ_self _)
  rw [loadSelectedRecoverySpan, hrun, hr]

/-- However the slices lie in files and in whatever order their readers end, loading a selection ends
with the spans of the pick over the slices that still prove, where `needed` of them do, and with nothing
otherwise; and the pick is the lowest run of `needed` exponents, where there is one, else the smallest. -/
theorem load_selected_exact (md5 : List UInt8 → List UInt8) (o : HashOrder (SliceSrc × Nat))
    (pool : SlicePool) (byExp : Table Exponent RecLoc) (needed bs : Nat) (span : Span)
    (hloc : ∀ e loc, byExp.lookup e = some loc → Located pool bs loc) :
    loadSelectedRecoverySpan md5 o pool byExp needed bs span true =
        some (.ok (validSelection md5 pool bs span byExp needed)) ∧
      ∀ exps : List Exponent, exps.Pairwise (· < ·) →
        (∀ a, RunFrom exps a needed → (∀ b, RunFrom exps b needed → a ≤ b) →
          (selectConsecutiveRun exps needed).map Fin.val = List.range' a needed) ∧
        ((∀ a, ¬ RunFrom exps a needed) → selectConsecutiveRun exps needed = exps.take needed) :=
  ⟨load_selected_valid o needed hloc, fun _ hs =>
    ⟨fun _ hr hlow => selectConsecutiveRun_run hs hr hlow, selectConsecutiveRun_smallest hs⟩⟩

/-- Of two slices the first no longer proves. -/
theorem load_selected_exact_two :
    let pool : SlicePool := ⟨fun _ => .ok (List.replicate 36 0 ++ [1, 2, 3, 4]), fun _ => .error .unopened⟩
    let byExp : Table Exponent RecLoc :=
      ((∅ : Table Exponent RecLoc).insert 0 ⟨0, 0, 36, 2, [9, 9], .own⟩).insert 1
        ⟨0, 1, 38, 2, [3, 4], .own⟩
    let o : HashOrder (SliceSrc × Nat) :=
      ⟨toList, nodup_toList, fun _ _ => mem_toList⟩
    loadSelectedRecoverySpan (List.drop 36) o pool byExp 1 2 ⟨0, 2⟩ true =
      some (.ok (validSelection (List.drop 36) pool 2 ⟨0, 2⟩ byExp 1)) ∧
      validSelection (List.drop 36) pool 2 ⟨0, 2⟩ byExp 1 = some [(1, [3, 4])] := by
  intro pool byExp o
  refine ⟨(load_selected_exact _ o pool byExp 1 2 ⟨0, 2⟩ fun e loc h => ?_).1, by decide +kernel⟩
  rw [Table.lookup_insert_eq_ite, Table.lookup_insert_eq_ite] at h
  split at h
  · cases h
    exact ⟨⟨_, rfl⟩, by decide, by decide⟩
  · split at h
    · cases h
      exact ⟨⟨_, rfl⟩, by decide, by decide⟩
    · cases h

end

end NzbFast.Repair
