import Mathlib.Tactic

/-!
# The end of a multiline response

`find_terminator` (`crates/nzbkit-base/src/nntp/multiline.rs`) looks for the lone
dot that ends a response over the bytes just arrived and the last two before
them. Where no earlier byte ends the response, it finds the first terminator of
the whole, wherever the bytes were cut.
-/

namespace NzbFast.Nntp

open List hiding le_antisymm le_refl

abbrev CR : UInt8 := 0x0D

abbrev LF : UInt8 := 0x0A

abbrev DOT : UInt8 := 0x2E

/-- A dot at `d` that begins a line, with the `k` bytes of a line end after it. -/
def Terminator (s : List UInt8) (d k : Nat) : Prop :=
  (d = 0 ∨ ∃ n, d = n + 1 ∧ s[n]? = some LF) ∧ s[d]? = some DOT ∧
    ((k = 2 ∧ s[d + 1]? = some CR ∧ s[d + 2]? = some LF) ∨ (k = 1 ∧ s[d + 1]? = some LF))

structure FirstTerminator (s : List UInt8) (d k : Nat) : Prop where
  here : Terminator s d k
  first : ∀ d' k', Terminator s d' k' → d ≤ d'

/-- Nothing in `s` ends a response. -/
def Unterminated (s : List UInt8) : Prop := ∀ d k, ¬ Terminator s d k

/-! ## The scan -/

/-- The line end after a dot at `d`. -/
def confirm (s : List UInt8) (d : Nat) : Option (Nat × Nat) :=
  if s[d + 1]? = some CR ∧ s[d + 2]? = some LF then some (d, 2)
  else if s[d + 1]? = some LF then some (d, 1)
  else none

def memchrIter (b : UInt8) (s : List UInt8) : List Nat :=
  (List.range s.length).filter fun i => s[i]? = some b

def findTerminator (block chunk : List UInt8) : Option (Nat × Nat) :=
  let t := block.length
  let all := block ++ chunk
  let lo := t - 2
  let first := if lo = 0 ∧ all[0]? = some DOT then confirm all 0 else none
  let inBlock := (List.range' (lo - 1) (t - (lo - 1))).findSome? fun nl =>
    if block[nl]? = some LF ∧ all[nl + 1]? = some DOT then confirm all (nl + 1) else none
  let inChunk := (memchrIter LF chunk).findSome? fun nl =>
    let d := t + nl + 1
    if all[d]? = some DOT then confirm all d else none
  (first.or inBlock).or inChunk

/-! ## Terminators and appends -/

variable {d k : Nat} {s : List UInt8}

theorem Terminator.append (h : Terminator s d k) (t : List UInt8) : Terminator (s ++ t) d k := by
  have hget : ∀ {i : Nat} {b : UInt8}, s[i]? = some b → (s ++ t)[i]? = some b := by
    intro i b hi
    rw [getElem?_append_left (List.getElem?_eq_some_iff.mp hi).1, hi]
  obtain ⟨hstart, hdot, hend⟩ := h
  refine ⟨hstart.imp id ?_, hget hdot, hend.imp ?_ ?_⟩
  · exact fun ⟨n, hn, hlf⟩ => ⟨n, hn, hget hlf⟩
  · exact fun ⟨hk, hcr, hlf⟩ => ⟨hk, hget hcr, hget hlf⟩
  · exact fun ⟨hk, hlf⟩ => ⟨hk, hget hlf⟩

theorem Terminator.width (h : Terminator s d k) : (k = 1 ∨ k = 2) ∧ d + k < s.length := by
  obtain ⟨-, -, ⟨rfl, -, hlf⟩ | ⟨rfl, hlf⟩⟩ := h
  · exact ⟨Or.inr rfl, (List.getElem?_eq_some_iff.mp hlf).1⟩
  · exact ⟨Or.inl rfl, (List.getElem?_eq_some_iff.mp hlf).1⟩

/-- A terminator that ends within the first part is one of the first part. -/
theorem Terminator.of_append {s t : List UInt8} {d k : Nat} (h : Terminator (s ++ t) d k)
    (hlt : d + k < s.length) : Terminator s d k := by
  have hget : ∀ {i : Nat} {b : UInt8}, (s ++ t)[i]? = some b → i < s.length → s[i]? = some b := by
    intro i b hi hlen
    rwa [getElem?_append_left hlen] at hi
  obtain ⟨hstart, hdot, hend⟩ := h
  refine ⟨hstart.imp id ?_, hget hdot (by omega), ?_⟩
  · rintro ⟨n, rfl, hlf⟩
    exact ⟨n, rfl, hget hlf (by omega)⟩
  · rcases hend with ⟨rfl, hcr, hlf⟩ | ⟨rfl, hlf⟩
    · exact Or.inl ⟨rfl, hget hcr (by omega), hget hlf hlt⟩
    · exact Or.inr ⟨rfl, hget hlf hlt⟩

theorem Terminator.unique {k' : Nat} (h : Terminator s d k) (h' : Terminator s d k') : k = k' := by
  obtain ⟨-, -, ⟨rfl, hcr, -⟩ | ⟨rfl, hlf⟩⟩ := h <;>
    obtain ⟨-, -, ⟨rfl, hcr', -⟩ | ⟨rfl, hlf'⟩⟩ := h'
  · rfl
  · rw [hcr] at hlf'
    exact absurd hlf' (by decide)
  · rw [hlf] at hcr'
    exact absurd hcr' (by decide)
  · rfl

theorem FirstTerminator.append (h : FirstTerminator s d k) (t : List UInt8) :
    FirstTerminator (s ++ t) d k := by
  refine ⟨h.here.append t, fun d' k' h' => ?_⟩
  by_contra hlt
  -- an earlier one ends before the first does, so within `s`
  have hwidth := h.here.width
  by_cases hin : d' + k' < s.length
  · exact hlt (h.first d' k' (h'.of_append hin))
  · have := h'.width.1
    omega

theorem FirstTerminator.unique {s : List UInt8} {d d' k k' : Nat} (h : FirstTerminator s d k)
    (h' : FirstTerminator s d' k') : d = d' ∧ k = k' := by
  have hd : d = d' := le_antisymm (h.first _ _ h'.here) (h'.first _ _ h.here)
  subst hd
  exact ⟨rfl, h.here.unique h'.here⟩

/-! ## The scan finds the first -/

theorem confirm_eq_some {d' : Nat} : confirm s d = some (d', k) ↔
    d' = d ∧ ((k = 2 ∧ s[d + 1]? = some CR ∧ s[d + 2]? = some LF) ∨
      (k = 1 ∧ s[d + 1]? = some LF)) := by
  have hlc : LF ≠ CR := by decide
  unfold confirm
  split
  case isTrue h => simp [h, hlc, eq_comm]
  case isFalse h =>
    split
    case isTrue hlf => simp [hlf, hlc, eq_comm]
    case isFalse hlf => simp [hlf, h]

/-- The dots a scan looks at, in order. -/
def candidates (block chunk : List UInt8) : List Nat :=
  (if block.length - 2 = 0 then [0] else []) ++
    (List.range' (block.length - 2 - 1) (block.length - (block.length - 2 - 1))).map (· + 1) ++
    (memchrIter LF chunk).map fun nl => block.length + nl + 1

/-- The terminator at `d`, if one is there. -/
def terminatorAt (s : List UInt8) (d : Nat) : Option (Nat × Nat) :=
  if (d = 0 ∨ s[d - 1]? = some LF) ∧ s[d]? = some DOT then confirm s d else none

theorem terminatorAt_eq_some {d' : Nat} :
    terminatorAt s d = some (d', k) ↔ d' = d ∧ Terminator s d k := by
  have hstart : (d = 0 ∨ s[d - 1]? = some LF) ↔ (d = 0 ∨ ∃ n, d = n + 1 ∧ s[n]? = some LF) := by
    cases d with
    | zero => simp
    | succ n => simp
  unfold terminatorAt Terminator
  rw [← hstart]
  split
  case isTrue h => rw [confirm_eq_some]; simp [h]
  case isFalse h =>
    constructor
    · intro hn; cases hn
    · rintro ⟨-, h1, h2, -⟩
      exact absurd ⟨h1, h2⟩ h

theorem mem_memchrIter {b : UInt8} {i : Nat} : i ∈ memchrIter b s ↔ s[i]? = some b := by
  unfold memchrIter
  rw [mem_filter, mem_range, decide_eq_true_eq, and_iff_right_iff_imp]
  exact fun h => (List.getElem?_eq_some_iff.mp h).1

theorem findSome?_congr {α β : Type} {f g : α → Option β} {l : List α}
    (h : ∀ a ∈ l, f a = g a) : l.findSome? f = l.findSome? g := by
  induction l with
  | nil => rfl
  | cons a l ih =>
    rw [findSome?_cons, findSome?_cons, h a (by simp), ih fun b hb => h b (by simp [hb])]

theorem findTerminator_eq (block chunk : List UInt8) :
    findTerminator block chunk =
      (candidates block chunk).findSome? (terminatorAt (block ++ chunk)) := by
  unfold findTerminator candidates
  dsimp only
  rw [findSome?_append, findSome?_append, findSome?_map, findSome?_map]
  congr 1
  · congr 1
    · by_cases hlo : block.length - 2 = 0
      · simp [hlo, terminatorAt]
      · simp [hlo]
    · refine findSome?_congr fun nl hnl => ?_
      have hlt : nl < block.length := by
        rw [mem_range'_1] at hnl
        omega
      simp [terminatorAt, getElem?_append_left hlt]
  · refine findSome?_congr fun nl hnl => ?_
    have hget : (block ++ chunk)[block.length + nl]? = some LF := by
      rw [getElem?_append_right (by omega), Nat.add_sub_cancel_left]
      exact mem_memchrIter.mp hnl
    simp [terminatorAt, hget]

theorem candidates_pairwise (block chunk : List UInt8) :
    (candidates block chunk).Pairwise (· < ·) := by
  unfold candidates
  rw [pairwise_append, pairwise_append]
  refine ⟨⟨?_, ?_, ?_⟩, ?_, ?_⟩
  · split <;> simp
  · rw [pairwise_map]
    exact (pairwise_lt_range' 1 one_pos).imp fun h => by omega
  · intro a ha b hb
    obtain ⟨nl, -, rfl⟩ := mem_map.mp hb
    split at ha
    · rw [mem_singleton.mp ha]
      omega
    · cases ha
  · rw [pairwise_map]
    exact (pairwise_lt_range.filter _).imp fun h => by omega
  · intro a ha b hb
    obtain ⟨nl, -, rfl⟩ := mem_map.mp hb
    rcases mem_append.mp ha with ha | ha
    · split at ha
      · rw [mem_singleton.mp ha]
        omega
      · cases ha
    · obtain ⟨nl', hnl', rfl⟩ := mem_map.mp ha
      rw [mem_range'_1] at hnl'
      omega

/-- With none in the block, every terminator is a candidate: an earlier dot could be decided
when its bytes arrived. -/
theorem mem_candidates {block chunk : List UInt8} (hblock : Unterminated block)
    (h : Terminator (block ++ chunk) d k) : d ∈ candidates block chunk := by
  have hlate : ¬ d + k < block.length := fun hlt => hblock d k (h.of_append hlt)
  have hk := h.width.1
  unfold candidates
  obtain rfl | ⟨n, rfl, hlf⟩ := h.1
  · rw [if_pos (by omega)]
    simp
  · by_cases hn : n < block.length
    · refine mem_append_left _ (mem_append_right _ (mem_map.mpr ⟨n, ?_, rfl⟩))
      rw [mem_range'_1]
      omega
    · refine mem_append_right _ (mem_map.mpr ⟨n - block.length, ?_, by omega⟩)
      rw [mem_memchrIter]
      rwa [getElem?_append_right (by omega)] at hlf

theorem findTerminator_eq_some {block chunk : List UInt8} (hblock : Unterminated block)
    (h : findTerminator block chunk = some (d, k)) : FirstTerminator (block ++ chunk) d k := by
  rw [findTerminator_eq, findSome?_eq_some_iff] at h
  obtain ⟨before, a, after, hsplit, ha, hbefore⟩ := h
  obtain ⟨rfl, hterm⟩ := terminatorAt_eq_some.mp ha
  refine ⟨hterm, fun d' k' h' => ?_⟩
  have hmem := mem_candidates hblock h'
  have hpair := candidates_pairwise block chunk
  rw [hsplit] at hmem hpair
  rcases mem_append.mp hmem with hmem | hmem
  · have hnone := hbefore d' hmem
    rw [terminatorAt_eq_some.mpr ⟨rfl, h'⟩] at hnone
    cases hnone
  · rcases mem_cons.mp hmem with rfl | hmem
    · exact le_refl _
    · exact ((pairwise_cons.mp (pairwise_append.mp hpair).2.1).1 d' hmem).le

theorem findTerminator_eq_none {block chunk : List UInt8} (hblock : Unterminated block)
    (h : findTerminator block chunk = none) : Unterminated (block ++ chunk) := by
  intro d k hterm
  rw [findTerminator_eq, findSome?_eq_none_iff] at h
  have hnone := h d (mem_candidates hblock hterm)
  rw [terminatorAt_eq_some.mpr ⟨rfl, hterm⟩] at hnone
  cases hnone

theorem unterminated_nil : Unterminated [] := by
  rintro d k ⟨-, hdot, -⟩
  simp at hdot

end NzbFast.Nntp
