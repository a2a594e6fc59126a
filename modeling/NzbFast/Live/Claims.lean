import NzbFast.Live.Binding

/-!
# What a feed claims

The claim loop of `on_data_inner` over one span. `ClaimOk D F` says, of the
loop's accumulators, that every byte held or handed over for hashing is one
that `D` delivers at its file offset, that every CRC held is composed from
fragments of `F`, and that the work names blocks inside the descriptor's grid
with the ranges the span really covers.
-/

namespace NzbFast.Live

open NzbFast.Par2 Fold Claiming List

theorem getElem?_slice {l : List UInt8} {a b i : Nat} :
    (slice l a b)[i]? = if a + i < b then l[a + i]? else none := by
  unfold slice
  rw [getElem?_drop, getElem?_take]

/-- The bytes of a span between two file offsets inside it. -/
theorem Span.length_bytes {sp : Span} {os oe : Nat} (h1 : sp.start ≤ os) (h2 : oe ≤ sp.stop) :
    (sp.bytes os oe).length = oe - os := by
  simp only [Span.bytes, slice, length_drop, length_take, Span.stop] at *
  omega

/-- The byte at file offset `k` is `b`. -/
def Span.At (sp : Span) (k : Nat) (b : UInt8) : Prop := sp.start ≤ k ∧ sp.data[k - sp.start]? = some b

theorem Span.at_of_bytes {sp : Span} {os oe i : Nat} {b : UInt8} (h1 : sp.start ≤ os)
    (h : (sp.bytes os oe)[i]? = some b) : sp.At (os + i) b := by
  rw [Span.bytes, getElem?_slice] at h
  split at h
  · refine ⟨by omega, ?_⟩
    rwa [show os + i - sp.start = os - sp.start + i by omega]
  · cases h

/-- What a boundary block holds: bytes that `D` delivers at their file offsets, or CRCs composed
from fragments of `F`. -/
def PartialOk (combine : Nat → Nat → Nat → Nat) (D : Nat → UInt8 → Prop) (F : Nat → Frag → Prop)
    (length bs bi : Nat) : PartialBuf → Prop
  | .bytes p => p.buf.length = blockLen length bs bi ∧
      ∀ k b, Partial.Covers p.filled k → p.buf[k]? = some b → D (bi * bs + k) b
  | .crc parts => parts.Composed combine (F bi)

/-- A whole block of bytes that `D` delivers. -/
def AssembledBy (D : Nat → UInt8 → Prop) (length bs bi : Nat) (bytes : List UInt8) : Prop :=
  bytes.length = blockLen length bs bi ∧ ∀ k b, bytes[k]? = some b → D (bi * bs + k) b

section Mono

variable {combine : Nat → Nat → Nat → Nat} {D D' : Nat → UInt8 → Prop} {F F' : Nat → Frag → Prop}
  {length bs bi : Nat}

theorem PartialOk.mono (hD : ∀ k b, D k b → D' k b) (hF : ∀ bi f, F bi f → F' bi f)
    {p : PartialBuf} (h : PartialOk combine D F length bs bi p) :
    PartialOk combine D' F' length bs bi p := by
  cases p with
  | bytes p => exact ⟨h.1, fun k b hk hb => hD _ _ (h.2 k b hk hb)⟩
  | crc parts =>
    intro x hx
    obtain ⟨frags, hc, hf⟩ := h x hx
    exact ⟨frags, hc, fun f hm => hF _ _ (hf f hm)⟩

theorem AssembledBy.mono (hD : ∀ k b, D k b → D' k b) {bytes : List UInt8}
    (h : AssembledBy D length bs bi bytes) : AssembledBy D' length bs bi bytes :=
  ⟨h.1, fun k b hb => hD _ _ (h.2 k b hb)⟩

end Mono

/-! ## Blocks a span touches -/

section Touched

variable {file : Par2File} {bs : Nat} {sp : Span}

theorem mem_touched {bi : Nat} (hbs : bs ≠ 0) (hn : file.blocks ≠ []) (hne : sp.data ≠ [])
    (hlen : sp.stop ≤ file.length) (h : bi ∈ touched file bs sp) :
    bi < file.blocks.length ∧
    max sp.start (bi * bs) < min sp.stop (bi * bs + blockLen file.length bs bi) := by
  have hpos : 0 < file.blocks.length := length_pos_iff.mpr hn
  have hd : 0 < sp.data.length := length_pos_iff.mpr hne
  simp only [touched, mem_range'_1] at h
  have h3 : bi ≤ (sp.stop - 1) / bs := by omega
  have h4 : sp.start < (bi + 1) * bs := (Nat.div_lt_iff_lt_mul (by omega)).1 (by omega)
  have h5 : bi * bs ≤ sp.stop - 1 := (Nat.le_div_iff_mul_le (by omega)).1 h3
  rw [add_mul, one_mul] at h4
  simp only [Span.stop, blockLen] at *
  exact ⟨by omega, by omega⟩

end Touched

/-! ## The loop -/

/-- What claiming never moves: the binding, its verdicts, its generation, what the gate was told of
it, and the marks against pre-activation spans. -/
structure Claiming.Same (s s' : SlotState) : Prop where
  file : s'.file = s.file
  blocks : s'.blocks = s.blocks
  bindGen : s'.bindGen = s.bindGen
  okPrefix : s'.okPrefix = s.okPrefix
  vouch : s'.vouch = s.vouch
  pre : PreLe s s'

theorem Claiming.same_block (cap : Nat) (file : Par2File) (bs : Nat) (sp : Span) (cc : Bool)
    (c : Claiming) (bi : Nat) : Same c.s (c.block cap file bs sp cc bi).s := by
  unfold block boundary fillBytes openBytes pushCrc
  dsimp only
  repeat' split
  all_goals exact ⟨rfl, rfl, rfl, rfl, rfl, .same rfl rfl⟩

theorem Claiming.same_foldl (cap : Nat) (file : Par2File) (bs : Nat) (sp : Span) (cc : Bool)
    (bis : List Nat) (c : Claiming) :
    Same c.s (bis.foldl (Claiming.block cap file bs sp cc) c).s := by
  induction bis generalizing c with
  | nil => exact ⟨rfl, rfl, rfl, rfl, rfl, .refl _⟩
  | cons bi bis ih =>
    have h := same_block cap file bs sp cc c bi
    have h' := ih (c.block cap file bs sp cc bi)
    exact ⟨h'.file.trans h.file, h'.blocks.trans h.blocks, h'.bindGen.trans h.bindGen,
      h'.okPrefix.trans h.okPrefix, h'.vouch.trans h.vouch, h.pre.trans h'.pre⟩

/-- The claim loop's invariant over the slot state `s₀` it started from. -/
structure ClaimOk (combine : Nat → Nat → Nat → Nat) (D : Nat → UInt8 → Prop) (F : Nat → Frag → Prop)
    (file : Par2File) (bs : Nat) (sp : Span) (cc : Bool) (s₀ : SlotState) (c : Claiming) : Prop where
  sameFile : c.s.file = s₀.file
  partials : ∀ bi p, c.s.partials.lookup bi = some p → PartialOk combine D F file.length bs bi p
  full : ∀ bi ∈ c.work.full, bi < file.blocks.length ∧ sp.start ≤ bi * bs ∧
    bi * bs + blockLen file.length bs bi ≤ sp.stop
  ready : ∀ x ∈ c.work.ready, x.1 < file.blocks.length ∧ AssembledBy D file.length bs x.1 x.2
  crcJobs : ∀ x ∈ c.work.crcJobs, x.1 < file.blocks.length ∧ cc = true ∧
    x.2.1 = max sp.start (x.1 * bs) ∧ x.2.2 = min sp.stop (x.1 * bs + blockLen file.length bs x.1)

section Loop

variable {combine : Nat → Nat → Nat → Nat} {D : Nat → UInt8 → Prop} {F : Nat → Frag → Prop}
  {cap : Nat} {file : Par2File} {bs : Nat} {sp : Span} {cc : Bool} {s₀ : SlotState} {c : Claiming}

/-- A partial put at `bi`, the others kept. -/
theorem lookup_insert_cases {t : Table Nat PartialBuf} {bi bi' : Nat} {p p' : PartialBuf}
    (h : (t.insert bi p).lookup bi' = some p') : (bi' = bi ∧ p' = p) ∨ t.lookup bi' = some p' := by
  by_cases hb : bi' = bi
  · subst hb
    rw [Finmap.lookup_insert] at h
    exact Or.inl ⟨rfl, (Option.some.inj h).symm⟩
  · rw [Finmap.lookup_insert_of_ne _ hb] at h
    exact Or.inr h

theorem lookup_of_erase {t : Table Nat PartialBuf} {bi bi' : Nat} {p : PartialBuf}
    (h : (t.erase bi).lookup bi' = some p) : t.lookup bi' = some p := by
  by_cases hb : bi' = bi
  · subst hb
    rw [Finmap.lookup_erase] at h
    cases h
  · rwa [Finmap.lookup_erase_ne hb] at h

/-- Filling a partial of delivered bytes with bytes of a delivered span. -/
theorem partialOk_fill (hD : ∀ k b, sp.At k b → D k b) {bi os oe : Nat} {p : Partial}
    (hp : PartialOk combine D F file.length bs bi (.bytes p)) (h1 : sp.start ≤ os)
    (h2 : bi * bs ≤ os) (h3 : oe ≤ sp.stop) (h4 : oe ≤ bi * bs + blockLen file.length bs bi)
    (h5 : os ≤ oe) :
    PartialOk combine D F file.length bs bi (.bytes (p.fill (os - bi * bs) (sp.bytes os oe))) := by
  have hl : (sp.bytes os oe).length = oe - os := Span.length_bytes h1 h3
  have hin : os - bi * bs + (sp.bytes os oe).length ≤ p.buf.length := by
    rw [hl, hp.1]; omega
  refine ⟨(Partial.length_fill hin).trans hp.1, fun k b hk hb => ?_⟩
  rw [show (p.fill (os - bi * bs) (sp.bytes os oe)).buf =
    Partial.copyInto p.buf (os - bi * bs) (sp.bytes os oe) from rfl,
    Partial.getElem?_copyInto hin] at hb
  split at hb
  case isTrue hr =>
    have := hD _ _ (Span.at_of_bytes h1 hb)
    rwa [show os + (k - (os - bi * bs)) = bi * bs + k by omega] at this
  case isFalse hr =>
    rcases Partial.covers_fill hk with h | h
    · exact hp.2 k b h hb
    · exact absurd h hr

theorem partialOk_new {bi : Nat} :
    PartialOk combine D F file.length bs bi (.bytes (Partial.new (blockLen file.length bs bi))) :=
  ⟨by simp [Partial.new], fun k b ⟨x, hx, _⟩ _ => by cases hx⟩

variable (hD : ∀ k b, sp.At k b → D k b)
include hD

theorem ClaimOk.fillBytes (hc : ClaimOk combine D F file bs sp cc s₀ c) {bi os oe : Nat}
    {p : Partial} (hbi : bi < file.blocks.length) (hp : c.s.partials.lookup bi = some (.bytes p))
    (h1 : sp.start ≤ os) (h2 : bi * bs ≤ os) (h3 : oe ≤ sp.stop)
    (h4 : oe ≤ bi * bs + blockLen file.length bs bi) (h5 : os ≤ oe) :
    ClaimOk combine D F file bs sp cc s₀ (c.fillBytes bs sp bi os oe p) := by
  have hfill := partialOk_fill (F := F) hD (hc.partials bi _ hp) h1 h2 h3 h4 h5
  unfold Claiming.fillBytes
  dsimp only
  split
  case isTrue hcomp =>
    refine ⟨hc.sameFile,
      fun bi' p' h => hc.partials bi' p' (lookup_of_erase h), hc.full, fun x hx => ?_, hc.crcJobs⟩
    rcases mem_append.mp hx with hx | hx
    · exact hc.ready x hx
    · rw [mem_singleton] at hx
      subst hx
      refine ⟨hbi, hfill.1, fun k b hb => hfill.2 k b ?_ hb⟩
      exact Partial.covers_of_complete hcomp (List.getElem?_eq_some_iff.mp hb).1
  case isFalse =>
    refine ⟨hc.sameFile, fun bi' p' h => ?_, hc.full, hc.ready, hc.crcJobs⟩
    rcases lookup_insert_cases h with ⟨rfl, rfl⟩ | h
    · exact hfill
    · exact hc.partials bi' p' h

theorem ClaimOk.openBytes (hc : ClaimOk combine D F file bs sp cc s₀ c) {bi os oe : Nat}
    (h1 : sp.start ≤ os) (h2 : bi * bs ≤ os) (h3 : oe ≤ sp.stop)
    (h4 : oe ≤ bi * bs + blockLen file.length bs bi) (h5 : os ≤ oe) :
    ClaimOk combine D F file bs sp cc s₀ (c.openBytes cap file bs sp bi os oe) := by
  unfold Claiming.openBytes
  dsimp only
  split
  · exact hc
  · refine ⟨hc.sameFile, fun bi' p' h => ?_, hc.full, hc.ready, hc.crcJobs⟩
    rcases lookup_insert_cases h with ⟨rfl, rfl⟩ | h
    · exact partialOk_fill hD partialOk_new h1 h2 h3 h4 h5
    · exact hc.partials bi' p' h

omit hD in
theorem ClaimOk.pushCrc (hc : ClaimOk combine D F file bs sp cc s₀ c) {bi : Nat}
    (hbi : bi < file.blocks.length) (hcc : cc = true) :
    ClaimOk combine D F file bs sp cc s₀ (c.pushCrc bi (max sp.start (bi * bs))
      (min sp.stop (bi * bs + blockLen file.length bs bi))) := by
  refine ⟨hc.sameFile, hc.partials, hc.full, hc.ready, fun x hx => ?_⟩
  rcases mem_append.mp hx with hx | hx
  · exact hc.crcJobs x hx
  · rw [mem_singleton] at hx
    subst hx
    exact ⟨hbi, hcc, rfl, rfl⟩

theorem ClaimOk.boundary (hc : ClaimOk combine D F file bs sp cc s₀ c) {bi : Nat}
    (hbi : bi < file.blocks.length)
    (hov : max sp.start (bi * bs) < min sp.stop (bi * bs + blockLen file.length bs bi)) :
    ClaimOk combine D F file bs sp cc s₀ (c.boundary cap file bs sp cc bi
      (max sp.start (bi * bs)) (min sp.stop (bi * bs + blockLen file.length bs bi))) := by
  unfold Claiming.boundary
  cases hp : c.s.partials.lookup bi with
  | none =>
    dsimp only
    split
    case isTrue hcc =>
      refine ClaimOk.pushCrc ?_ hbi hcc
      refine ⟨hc.sameFile, fun bi' p' h => ?_, hc.full, hc.ready,
        hc.crcJobs⟩
      rcases lookup_insert_cases h with ⟨rfl, rfl⟩ | h
      · exact CrcParts.composed_new
      · exact hc.partials bi' p' h
    case isFalse =>
      exact hc.openBytes hD (by omega) (by omega) (by omega) (by omega) (by omega)
  | some p =>
    cases p with
    | crc parts =>
      dsimp only
      split
      case isTrue hcc => exact hc.pushCrc hbi hcc
      case isFalse =>
        exact ⟨hc.sameFile, fun bi' p' h => hc.partials bi' p' (lookup_of_erase h),
          hc.full, hc.ready, hc.crcJobs⟩
    | bytes p =>
      exact hc.fillBytes hD hbi hp (by omega) (by omega) (by omega) (by omega) (by omega)

theorem ClaimOk.block (hc : ClaimOk combine D F file bs sp cc s₀ c) {bi : Nat}
    (hbi : bi < file.blocks.length)
    (hov : max sp.start (bi * bs) < min sp.stop (bi * bs + blockLen file.length bs bi)) :
    ClaimOk combine D F file bs sp cc s₀ (c.block cap file bs sp cc bi) := by
  unfold Claiming.block
  split
  · exact hc
  dsimp only
  split
  case isTrue hin =>
    refine ⟨hc.sameFile, hc.partials, fun x hx => ?_, hc.ready, hc.crcJobs⟩
    rcases mem_append.mp hx with hx | hx
    · exact hc.full x hx
    · rw [mem_singleton] at hx
      subst hx
      exact ⟨hbi, hin.1, hin.2⟩
  case isFalse => exact hc.boundary hD hbi hov

/-- The whole loop, by induction on the blocks touched. -/
theorem ClaimOk.loop (bis : List Nat)
    (hbis : ∀ bi ∈ bis, bi < file.blocks.length ∧
      max sp.start (bi * bs) < min sp.stop (bi * bs + blockLen file.length bs bi))
    (hc : ClaimOk combine D F file bs sp cc s₀ c) :
    ClaimOk combine D F file bs sp cc s₀ (bis.foldl (Claiming.block cap file bs sp cc) c) := by
  induction bis generalizing c with
  | nil => exact hc
  | cons bi bis ih =>
    obtain ⟨h1, h2⟩ := hbis bi (by simp)
    exact ih (fun b hb => hbis b (by simp [hb])) (hc.block hD h1 h2)

end Loop

end NzbFast.Live
