import NzbFast.Live.Composing
import NzbFast.Live.Filling
import NzbFast.Live.NameTiers

/-!
# What a head captures

A slot's head is the first bytes of its file, filled from whatever article brings them.
How long it is follows the declared size, which is unknown until an article declares one
and from then on only rises.

* `SameHead`: the tiers that run after a capture leave the head alone.
* `capturedHead_spec`: one article's capture, window moved first.
* `head_captured`: when every order and every declared size gives the file's head.
-/

namespace NzbFast.Live

open NzbFast.Rust NzbFast.Par2 Fold Sync Partial Option
open List hiding not_lt

/-- An article as it reaches the verifier. `size` is zero where it declares none. -/
structure Article where
  name : Text
  size : Nat
  part : Fragment

namespace NamedSlot

variable {h : Host} {s t u : NamedSlot h}

/-! ## What the tiers leave alone -/

/-- The head and the size it is measured by. -/
structure SameHead (s t : NamedSlot h) : Prop where
  size : t.fileSize = s.fileSize
  head : t.head = s.head

namespace SameHead

theorem refl (s : NamedSlot h) : SameHead s s := ⟨rfl, rfl⟩

theorem trans (h₁ : SameHead s t) (h₂ : SameHead t u) : SameHead s u :=
  ⟨h₂.size.trans h₁.size, h₂.head.trans h₁.head⟩

end SameHead

theorem sameHead_bindNominee (s : NamedSlot h) (a : Adopted h) (tentative : Bool)
    (nominee : Option Nat) : SameHead s (s.bindNominee a tentative nominee).slot := by
  unfold bindNominee
  split
  · exact ⟨rfl, rfl⟩
  · exact .refl s

theorem sameHead_matchHead (s : NamedSlot h) (a : Adopted h) (slot : Nat)
    (tentative nameAmbiguous : Bool) (nominee : Option Nat) :
    SameHead s (s.matchHead a slot tentative nameAmbiguous nominee).slot := by
  have hrefuse : SameHead s (s.refuse a) := ⟨rfl, rfl⟩
  unfold matchHead
  cases s.completeHead with
  | none => exact sameHead_bindNominee s a tentative nominee
  | some head =>
    dsimp only
    split
    · exact ⟨rfl, rfl⟩
    · split
      · exact hrefuse.trans (sameHead_bindNominee (s.refuse a) a tentative nominee)
      · exact sameHead_bindNominee s a tentative nominee

theorem sameHead_tryMatch (s : NamedSlot h) (a : Adopted h) (slot : Nat) (tentative : Bool) :
    SameHead s (s.tryMatch a slot tentative).slot := by
  have hcached : SameHead s s.cacheKeys.cacheHead := ⟨rfl, rfl⟩
  unfold tryMatch
  unfold matchBy
  dsimp only
  refine hcached.trans ?_
  cases s.cacheKeys.cacheHead.name with
  | none => exact sameHead_matchHead _ a slot tentative false none
  | some name =>
    dsimp only
    split
    · exact ⟨rfl, rfl⟩
    · split
      · exact sameHead_matchHead _ a slot tentative _ none
      · exact sameHead_matchHead _ a slot tentative true _

/-- Whatever its sections find, the program ends with the head of `s`. -/
def Saves (s : NamedSlot h) (p : Prog h) : Prop := ∀ t, p.Leaves t → SameHead s t

theorem saves_free (ht : SameHead s t) : Saves s (.free t) := fun u hu => by
  rwa [Prog.leaves_free.mp hu]

theorem saves_onTable {o : Adopted h → Adopted h} {k : Adopted h → Prog h} (ht : SameHead s t)
    (hk : ∀ a, Saves s (k a)) : Saves s (t.onTable o k) := by
  intro u hu
  obtain ⟨w, hw⟩ := Prog.leaves_act.mp hu
  cases w with
  | active a => exact hk a u hw
  | waiting => exact saves_free ht u hw
  | off => exact saves_free ht u hw

variable {slot : Nat}

theorem saves_tryMatchIn {tentative : Bool} {k : Bool → NamedSlot h → Prog h} (ht : SameHead s t)
    (hk : ∀ b u, SameHead s u → Saves s (k b u)) : Saves s (t.tryMatchIn slot tentative k) :=
  saves_onTable ht fun a => hk _ _ (ht.trans (sameHead_tryMatch t a slot tentative))

theorem saves_forgetBinding {k : NamedSlot h → Prog h} (ht : SameHead s t)
    (hk : ∀ u, SameHead s u → Saves s (k u)) : Saves s (t.forgetBinding slot k) := by
  have hunbind : SameHead s t.unbind := ht.trans ⟨rfl, rfl⟩
  unfold forgetBinding
  split
  · split
    · exact hk _ hunbind
    · exact saves_onTable ht fun _ => hk _ hunbind
  · exact hk _ hunbind

theorem saves_rejudgeBinding {k : NamedSlot h → Prog h} (ht : SameHead s t)
    (hk : ∀ u, SameHead s u → Saves s (k u)) : Saves s (t.rejudgeBinding slot k) := by
  have hcached : SameHead s t.cacheHead := ht.trans ⟨rfl, rfl⟩
  unfold rejudgeBinding
  split
  · exact hk t ht
  · split
    · exact hk t ht
    · split
      · exact hk t ht
      · refine saves_onTable hcached fun a => ?_
        dsimp only
        split
        · exact hk _ hcached
        · split
          · exact saves_forgetBinding hcached fun u hu =>
              saves_tryMatchIn hu fun _ v hv => hk v hv
          · exact hk _ (hcached.trans ⟨rfl, rfl⟩)

def capture (s : NamedSlot h) (a : Article) : NamedSlot h :=
  (s.declare a.name a.size a.part.start a.part.bytes.length).captureHead a.part.start a.part.bytes

/-- `t` is what `on_data_inner` may make of `s` and an article, while a set is awaited or active. -/
def Took (slot : Nat) (s : NamedSlot h) (a : Article) (t : NamedSlot h) : Prop :=
  match s.onData slot a.name a.size a.part.start a.part.bytes with
  | .act _ _ next => ∃ plan, plan ≠ .off ∧ (next plan).Leaves t
  | .free _ => False

/-- A slot the articles were fed to in turn. -/
inductive Fed (slot : Nat) (s : NamedSlot h) : List Article → NamedSlot h → Prop
  | nil : Fed slot s [] s
  | snoc {as : List Article} {a : Article} {t u : NamedSlot h} : Fed slot s as t → Took slot t a u →
      Fed slot s (as ++ [a]) u

theorem Took.sameHead {a : Article} (ht : Took slot s a t) : SameHead (s.capture a) t := by
  obtain ⟨plan, hplan, hleaves⟩ := ht
  cases plan with
  | off => exact absurd rfl hplan
  | waiting => exact saves_free (.refl _) t hleaves
  | active b =>
    refine (?_ : Saves (s.capture a) _) t hleaves
    have hrest : ∀ u, SameHead (s.capture a) u → Saves (s.capture a)
        (if (u.file.isNone && !u.refused b) = true then u.tryMatchIn slot true fun _ u => .free u
          else .free u) := by
      intro u hu
      split
      · exact saves_tryMatchIn hu fun _ v hv => saves_free hv
      · exact saves_free hu
    dsimp only
    split
    · exact saves_rejudgeBinding (.refl _) hrest
    · exact hrest _ (.refl _)

/-- While a set is awaited an article is captured and that is all. -/
theorem took_waiting (slot : Nat) (s : NamedSlot h) (a : Article) : Took slot s a (s.capture a) :=
  ⟨.waiting, nofun, .free _⟩

end NamedSlot

/-! ## One capture -/

/-- The head with its window moved to `want`. -/
def resizedHead (want : Nat) (p : Partial) : Partial :=
  if p.buf.length < want then { p with buf := p.buf ++ List.replicate (want - p.buf.length) 0 }
  else if want < p.buf.length then p.truncate want
  else p

/-- The head after an article, under a window of `want` bytes. -/
def capturedHead (want : Nat) (head : Option Partial) (offset : Nat) (data : List UInt8) :
    Option Partial :=
  if want = 0 ∨ want ≤ offset then head
  else
    let p := resizedHead want (head.getD (Partial.new want))
    if p.complete then some p
    else
      let stop := min (offset + data.length) want
      some (if offset < stop then p.fill offset (data.take (stop - offset)) else p)

theorem NamedSlot.captureHead_eq {h : Host} (s : NamedSlot h) (offset : Nat) (data : List UInt8) :
    (s.captureHead offset data).fileSize = s.fileSize ∧
      (s.captureHead offset data).head = capturedHead s.headWant s.head offset data := by
  -- The slot a capture writes back, whichever way the window moved.
  have hput : ∀ (t : NamedSlot h) (p q : Partial),
      (if p.complete then { t with head := some p } else { t with head := some q }).fileSize =
          t.fileSize ∧
        (if p.complete then { t with head := some p } else { t with head := some q }).head =
          if p.complete then some p else some q := by
    intro t p q
    split
    · exact ⟨rfl, rfl⟩
    · exact ⟨rfl, rfl⟩
  unfold captureHead capturedHead
  by_cases hwant : s.headWant = 0 ∨ s.headWant ≤ offset
  · rw [if_pos hwant, if_pos hwant]
    exact ⟨rfl, rfl⟩
  rw [if_neg hwant, if_neg hwant]
  by_cases hmoved : (s.head.getD (new s.headWant)).buf.length ≠ s.headWant
  · simp only [if_pos hmoved]
    exact hput { s with headMd5 := none, headRivalRuledOut := false, unmatchable := none } _ _
  · simp only [if_neg hmoved]
    exact hput s _ _

def HeadOf (content : List UInt8) (p : Partial) : Prop :=
  ∃ last, Partial.Exact p.buf.length last p ∧ ∀ k b, last k = some b → content[k]? = some b

variable {content : List UInt8}

theorem Partial.Exact.headOf {len : Nat} {last : Nat → Option UInt8} {p : Partial}
    (h : Partial.Exact len last p) (hright : ∀ k b, last k = some b → content[k]? = some b) :
    HeadOf content p := by
  obtain rfl := h.length
  exact ⟨last, h, hright⟩

theorem headOf_new (content : List UInt8) (want : Nat) : HeadOf content (.new want) :=
  (exact_new want).headOf nofun

/-- Moving the window keeps what lies inside it. -/
theorem resizedHead_spec {p : Partial} (hp : HeadOf content p) (want : Nat) :
    HeadOf content (resizedHead want p) ∧ (resizedHead want p).buf.length = want ∧
      ∀ k, Partial.Covers (resizedHead want p).filled k ↔ Partial.Covers p.filled k ∧ k < want := by
  obtain ⟨last, hexact, hright⟩ := hp
  unfold resizedHead
  split_ifs with hgrow hshrink
  · have hgrown := hexact.grow hgrow.le
    exact ⟨hgrown.headOf hright, hgrown.length,
      fun k => (and_iff_left_of_imp fun hk => lt_trans (hexact.lt hk) hgrow).symm⟩
  · have hcut := @Partial.Exact.apply _ _ _ hexact (.truncate want) trivial
    refine ⟨hcut.headOf fun k b hk => ?_, hcut.length.trans (min_eq_left hshrink.le),
      covers_truncate want⟩
    dsimp only [received] at hk
    split at hk
    · exact hright k b hk
    · cases hk
  · obtain rfl : want = p.buf.length := by omega
    exact ⟨⟨last, hexact, hright⟩, rfl, fun k => (and_iff_left_of_imp hexact.lt).symm⟩

/-- An article's capture takes what the article has of the window, and nothing of the window is lost. -/
theorem capturedHead_spec {want offset : Nat} {head : Option Partial} {data : List UInt8}
    (hhead : ∀ p, head = some p → HeadOf content p) (hin : offset < want)
    (hdata : ∀ k, offset ≤ k → k < offset + data.length → content[k]? = data[k - offset]?) :
    ∃ p, capturedHead want head offset data = some p ∧ HeadOf content p ∧ p.buf.length = want ∧
      ∀ k, Partial.Covers p.filled k ↔
        ((∃ q, head = some q ∧ Partial.Covers q.filled k) ∨ (offset ≤ k ∧ k < offset + data.length)) ∧
          k < want := by
  have hstart : HeadOf content (head.getD (new want)) := by
    cases head with
    | none => exact headOf_new content want
    | some q => exact hhead q rfl
  have hold : ∀ k, Partial.Covers (head.getD (new want)).filled k ↔
      ∃ q, head = some q ∧ Partial.Covers q.filled k := fun k => by
    cases head with
    | none => exact iff_of_false (not_covers_nil k) (by simp)
    | some q => simp
  obtain ⟨⟨last, hexact, hright⟩, hlen, hcov⟩ := resizedHead_spec hstart want
  rw [hlen] at hexact
  unfold capturedHead
  rw [if_neg (by omega)]
  dsimp only
  by_cases hdone : (resizedHead want (head.getD (new want))).complete = true
  · -- A complete head has the whole window already.
    rw [if_pos hdone]
    refine ⟨_, rfl, hexact.headOf hright, hlen, fun k => ?_⟩
    have hall := (hexact.complete_iff (by omega)).mp hdone
    rw [hcov, hold]
    refine ⟨fun hk => ⟨.inl hk.1, hk.2⟩, fun hk => ?_⟩
    have := (hexact.covers k).mpr (hall k hk.2)
    rwa [hcov, hold] at this
  rw [if_neg hdone]
  by_cases hsome : offset < min (offset + data.length) want
  · rw [if_pos hsome]
    have htake : (data.take (min (offset + data.length) want - offset)).length =
        min (offset + data.length) want - offset := by
      rw [length_take]
      omega
    have hfill := @Partial.Exact.apply _ _ _ hexact (.fill offset
      (data.take (min (offset + data.length) want - offset))) (by
        show offset + _ ≤ want
        omega)
    refine ⟨_, rfl, hfill.headOf fun k b hk => ?_, hfill.length, fun k => ?_⟩
    · dsimp only [received] at hk
      split at hk
      case isTrue hrange =>
        rw [getElem?_take_of_lt (by omega)] at hk
        rw [hdata k hrange.1 (by omega), hk]
      case isFalse => exact hright k b hk
    · rw [covers_fill_iff hexact.tidy, htake, hcov, hold]
      constructor
      · rintro (hk | hk)
        · exact ⟨.inl hk.1, hk.2⟩
        · exact ⟨.inr (by omega), by omega⟩
      · rintro ⟨hk | hk, hw⟩
        · exact .inl ⟨hk, hw⟩
        · exact .inr (by omega)
  · rw [if_neg hsome]
    refine ⟨_, rfl, hexact.headOf hright, hlen, fun k => ?_⟩
    rw [hcov, hold]
    constructor
    · exact fun hk => ⟨.inl hk.1, hk.2⟩
    · rintro ⟨hk | hk, hw⟩
      · exact ⟨hk, hw⟩
      · omega

/-! ## A file's articles -/

/-- How much of its file a head covers, by the size the slot goes by. -/
def window (size : Nat) : Nat := if 0 < size then min size HEAD_LEN else HEAD_LEN

theorem window_le (size : Nat) : window size ≤ HEAD_LEN := by
  unfold window
  split
  · exact min_le_right _ _
  · exact le_refl _

/-- What the articles leave of a size: none while none is declared, and from the first that declares
one on, no less than it and than any article reaches. -/
def Sized (as : List Article) (size : Nat) : Prop :=
  (size = 0 ∧ ∀ b ∈ as, b.size = 0) ∨
    ∃ pre a post, as = pre ++ a :: post ∧ (∀ b ∈ pre, b.size = 0) ∧ a.size ≠ 0 ∧ a.size ≤ size ∧
      ∀ b ∈ a :: post, min b.part.stop U64_MAX ≤ size

/-- What came of the head before the first article that declares a size lies within what that article
declares or within what it brings. -/
def Kept (as : List Article) : Prop :=
  ∀ pre a post, as = pre ++ a :: post → (∀ b ∈ pre, b.size = 0) → a.size ≠ 0 →
    ∀ b ∈ pre, b.part.start < HEAD_LEN → min b.part.stop HEAD_LEN ≤ max a.size a.part.stop

variable {as : List Article}

theorem Kept.front {bs : List Article} (h : Kept (as ++ bs)) : Kept as :=
  fun pre b post heq => h pre b (post ++ bs) (by rw [heq, append_assoc, cons_append])

/-- Every byte of the head that an article brought is inside the window. -/
theorem Kept.inside (h : Kept as) {size : Nat} (hs : Sized as size) {b : Article} (hb : b ∈ as)
    {k : Nat} (hk : b.part.Has k) (hhead : k < HEAD_LEN) : k < window size := by
  have hu64 : HEAD_LEN ≤ U64_MAX := by decide
  rcases hs with ⟨rfl, -⟩ | ⟨pre, a, post, rfl, hnone, hsome, hle, hrest⟩
  · exact hhead
  rw [window, if_pos (by omega)]
  have ha := hrest a (.head _)
  obtain ⟨hlo, hhi⟩ := hk
  rcases mem_append.mp hb with hb | hb
  · have := h pre a post rfl hnone hsome b hb (by omega)
    omega
  · have := hrest b hb
    omega

def Article.Of (content : List UInt8) (a : Article) : Prop :=
  ∀ k, a.part.Has k → content[k]? = a.part.bytes[k - a.part.start]?

namespace NamedSlot

variable {h : Host} {s : NamedSlot h}

/-- The head has the byte at `k`. -/
def Holds (s : NamedSlot h) (k : Nat) : Prop := ∃ p, s.head = some p ∧ Partial.Covers p.filled k

variable {t : NamedSlot h} {as : List Article} {k : Nat}

theorem SameHead.holds (hst : SameHead s t) (k : Nat) : t.Holds k ↔ s.Holds k := by
  unfold Holds
  rw [hst.head]

theorem SameHead.completeHead (hst : SameHead s t) : t.completeHead = s.completeHead := by
  unfold NamedSlot.completeHead headWant
  rw [hst.head, hst.size]

/-- The size after an article: the first one declared, raised to what the article reaches. -/
theorem capture_fileSize (s : NamedSlot h) (a : Article) :
    (s.capture a).fileSize = if s.fileSize = 0 ∧ a.size = 0 then 0 else
      max (if s.fileSize = 0 then a.size else s.fileSize) (min a.part.stop U64_MAX) := by
  have hdeclare : (s.capture a).fileSize = (if (if s.fileSize = 0 then a.size else s.fileSize) ≠ 0 ∧
      (if s.fileSize = 0 then a.size else s.fileSize) < min a.part.stop U64_MAX then
        min a.part.stop U64_MAX else if s.fileSize = 0 then a.size else s.fileSize) :=
    (captureHead_eq _ _ _).1
  rw [hdeclare]
  split_ifs <;> omega

theorem capture_head (s : NamedSlot h) (a : Article) : (s.capture a).head =
    capturedHead (window (s.capture a).fileSize) s.head a.part.start a.part.bytes := by
  obtain ⟨hsize, hhead⟩ := captureHead_eq
    (s.declare a.name a.size a.part.start a.part.bytes.length) a.part.start a.part.bytes
  rw [capture, hhead, hsize]
  rfl

/-- What is true of a slot after the articles. -/
structure Captured (content : List UInt8) (as : List Article) (s : NamedSlot h) : Prop where
  head : ∀ p, s.head = some p → HeadOf content p ∧ p.buf.length ≤ HEAD_LEN
  size : Sized as s.fileSize

theorem captured_nil (content : List UInt8) : Captured content [] ({} : NamedSlot h) :=
  ⟨nofun, .inl ⟨rfl, nofun⟩⟩

theorem Sized.snoc {as : List Article} (hs : Sized as s.fileSize) (a : Article) :
    Sized (as ++ [a]) (s.capture a).fileSize := by
  rw [capture_fileSize]
  rcases hs with ⟨hzero, hnone⟩ | ⟨pre, b, post, rfl, hnone, hsome, hle, hrest⟩
  · rw [if_pos hzero]
    by_cases ha : a.size = 0
    · refine .inl ⟨if_pos ⟨hzero, ha⟩, fun b hb => ?_⟩
      rcases mem_append.mp hb with hb | hb
      · exact hnone b hb
      · rwa [mem_singleton.mp hb]
    · rw [if_neg fun hboth => ha hboth.2]
      refine .inr ⟨as, a, [], rfl, hnone, ha, le_max_left _ _, fun b hb => ?_⟩
      rw [mem_singleton.mp hb]
      exact le_max_right _ _
  · have hpos : s.fileSize ≠ 0 := by omega
    rw [if_neg fun hboth => hpos hboth.1, if_neg hpos]
    refine .inr ⟨pre, b, post ++ [a], by rw [append_assoc, cons_append], hnone, hsome,
      hle.trans (le_max_left _ _), fun c hc => ?_⟩
    rw [← cons_append] at hc
    rcases mem_append.mp hc with hc | hc
    · exact le_trans (hrest c hc) (le_max_left _ _)
    · rw [mem_singleton.mp hc]
      exact le_max_right _ _

/-- One article: what the head has is the file's, and what it has of the window stays. -/
theorem Captured.step {as : List Article} (hs : Captured content as s) {a : Article}
    (ha : a.Of content) :
    Captured content (as ++ [a]) (s.capture a) ∧ ∀ k, (s.capture a).Holds k ↔
      (s.Holds k ∧ (a.part.start < window (s.capture a).fileSize → k < window (s.capture a).fileSize)) ∨
        (a.part.Has k ∧ k < window (s.capture a).fileSize) := by
  have hsize := Sized.snoc hs.size a
  have hhead := s.capture_head a
  have hle := window_le (s.capture a).fileSize
  by_cases hin : a.part.start < window (s.capture a).fileSize
  · obtain ⟨p, hp, hof, hlen, hcov⟩ := capturedHead_spec (fun p hp => (hs.head p hp).1) hin
      fun k hlo hhi => ha k ⟨hlo, hhi⟩
    rw [hp] at hhead
    refine ⟨⟨fun q hq => ?_, hsize⟩, fun k => ?_⟩
    · obtain rfl := some.inj (hhead.symm.trans hq)
      exact ⟨hof, by rw [hlen]; exact hle⟩
    · have hholds : (s.capture a).Holds k ↔ Partial.Covers p.filled k := by
        unfold Holds
        rw [hhead]
        simp
      rw [hholds, hcov, or_and_right]
      exact or_congr (and_congr_right fun _ => ⟨fun hk _ => hk, fun hk => hk hin⟩) Iff.rfl
  · have hskip : (s.capture a).head = s.head := by
      rw [hhead, capturedHead, if_pos (.inr (not_lt.mp hin))]
    refine ⟨⟨fun q hq => hs.head q (hskip ▸ hq), hsize⟩, fun k => ?_⟩
    have hholds : (s.capture a).Holds k ↔ s.Holds k := by
      unfold Holds
      rw [hskip]
    rw [hholds]
    refine ⟨fun hk => .inl ⟨hk, fun hlt => absurd hlt hin⟩, ?_⟩
    rintro (hk | ⟨⟨hlo, -⟩, hk⟩)
    · exact hk.1
    · omega

theorem keys_of_unnamed (h : Host) (k : Text × Text) (hk : none = some k) :
    ∃ n, (none : Option Text) = some n ∧ k = h.nameKeys n := by
  cases hk

/-- The slot after the articles, none of them looked at by a tier. -/
def captureAll (h : Host) (as : List Article) : NamedSlot h :=
  as.foldl capture { keys_of_name := keys_of_unnamed h }

theorem captureAll_snoc (as : List Article) (a : Article) :
    captureAll h (as ++ [a]) = (captureAll h as).capture a := foldl_append

theorem captured (as : List Article) (has : ∀ a ∈ as, a.Of content) :
    Captured content as (captureAll h as) := by
  induction as using reverseRecOn with
  | nil => exact captured_nil content
  | append_singleton as a ih =>
    rw [captureAll_snoc]
    exact ((ih fun b hb => has b (mem_append_left _ hb)).step
      (has a (mem_append_right _ (.head _)))).1

/-- While nothing reaches past the window, the head has all that came of it. -/
theorem holds_captureAll (has : ∀ a ∈ as, a.Of content) (hkept : Kept as) (k : Nat) :
    (captureAll h as).Holds k ↔ k < HEAD_LEN ∧ ∃ b ∈ as, b.part.Has k := by
  induction as using reverseRecOn with
  | nil => exact iff_of_false (by rintro ⟨p, hp, -⟩; cases hp) (by simp)
  | append_singleton as a ih =>
    have hof : ∀ b ∈ as, b.Of content := fun b hb => has b (mem_append_left _ hb)
    obtain ⟨hall, hstep⟩ := (captured (h := h) as hof).step
      (has a (mem_append_right _ (.head _)))
    have hin : ∀ b ∈ as ++ [a], b.part.Has k → k < HEAD_LEN →
        k < window ((captureAll h as).capture a).fileSize := fun b hb hk hhead =>
      hkept.inside hall.size hb hk hhead
    have hle := window_le ((captureAll h as).capture a).fileSize
    rw [captureAll_snoc, hstep, ih hof hkept.front]
    constructor
    · rintro (⟨⟨hk, b, hb, hbk⟩, -⟩ | ⟨hak, hk⟩)
      · exact ⟨hk, b, mem_append_left _ hb, hbk⟩
      · exact ⟨hk.trans_le hle, a, mem_append_right _ (.head _), hak⟩
    · rintro ⟨hk, b, hb, hbk⟩
      have hlt := hin b hb hbk hk
      rcases mem_append.mp hb with hmem | hmem
      · exact .inl ⟨⟨hk, b, hmem, hbk⟩, fun _ => hlt⟩
      · rw [mem_singleton.mp hmem] at hbk
        exact .inr ⟨hbk, hlt⟩

/-- A byte the head has came from an article. -/
theorem holds_snoc {a : Article} (has : ∀ b ∈ as, b.Of content) (ha : a.Of content)
    (hk : (captureAll h (as ++ [a])).Holds k) : (captureAll h as).Holds k ∨ a.part.Has k := by
  rw [captureAll_snoc, ((captured as has).step ha).2] at hk
  exact hk.imp And.left And.left

theorem not_holds_append {bs : List Article} (has : ∀ a ∈ as ++ bs, a.Of content)
    (hk : ¬ (captureAll h as).Holds k) (hbs : ∀ b ∈ bs, ¬ b.part.Has k) :
    ¬ (captureAll h (as ++ bs)).Holds k := by
  induction bs generalizing as with
  | nil => rwa [append_nil]
  | cons b bs ih =>
    rw [append_cons] at has ⊢
    refine ih has (fun hheld => ?_) fun c hc => hbs c (mem_cons_of_mem b hc)
    have hof : ∀ a ∈ as ++ [b], a.Of content := fun a ha => has a (mem_append_left bs ha)
    rcases holds_snoc (fun a ha => hof a (mem_append_left _ ha))
      (hof b (mem_append_right _ (.head _))) hheld with hheld | hb
    · exact hk hheld
    · exact hbs b (.head _) hb

/-- Where an article cuts the window below what came before it, a byte is lost. -/
theorem captureAll_lost (has : ∀ a ∈ as, a.Of content) (hfull : ∀ a ∈ as, a.part.bytes ≠ [])
    (hkept : ¬ Kept as) :
    ∃ pre a post k, as = pre ++ a :: post ∧ k < HEAD_LEN ∧ (∃ b ∈ pre, b.part.Has k) ∧
      (captureAll h pre).Holds k ∧ ¬ (captureAll h (pre ++ [a])).Holds k := by
  have hu64 : HEAD_LEN ≤ U64_MAX := by decide
  unfold Kept at hkept
  push Not at hkept
  obtain ⟨pre, a, post, rfl, hnone, hsome, b, hb, hhead, hlt⟩ := hkept
  have hpre : ∀ c ∈ pre, c.Of content := fun c hc => has c (mem_append_left _ hc)
  have ha := length_pos_iff.mpr (hfull a (mem_append_right _ (.head _)))
  have hblen := length_pos_iff.mpr (hfull b (mem_append_left _ hb))
  have hastop : a.part.stop = a.part.start + a.part.bytes.length := rfl
  have hbstop : b.part.stop = b.part.start + b.part.bytes.length := rfl
  have hbk : b.part.Has (min b.part.stop HEAD_LEN - 1) := ⟨by omega, by omega⟩
  -- Nothing before it declared a size, so all that came is there.
  have hkeptPre : Kept pre := by
    rintro pre' c post' rfl - hc
    exact absurd (hnone c (mem_append_right _ (.head _))) hc
  have hzero : (captureAll h pre).fileSize = 0 := by
    rcases (captured (h := h) pre hpre).size with ⟨hzero, -⟩ | ⟨pre', c, post', rfl, -, hc, -⟩
    · exact hzero
    · exact absurd (hnone c (mem_append_right _ (.head _))) hc
  have hwindow : window ((captureAll h pre).capture a).fileSize = max a.size a.part.stop := by
    rw [capture_fileSize, if_neg fun hboth => hsome hboth.2, if_pos hzero, window,
      if_pos (by omega)]
    omega
  refine ⟨pre, a, post, min b.part.stop HEAD_LEN - 1, rfl, by omega, ⟨b, hb, hbk⟩,
    (holds_captureAll hpre hkeptPre _).mpr ⟨by omega, b, hb, hbk⟩, fun hk => ?_⟩
  rw [captureAll_snoc, ((captured pre hpre).step
    (has a (mem_append_right _ (.head _)))).2, hwindow] at hk
  rcases hk with ⟨-, hk⟩ | ⟨-, hk⟩
  · have := hk (by omega)
    omega
  · omega

theorem holds_of_completeHead {bytes : List UInt8} (hc : s.completeHead = some bytes)
    (hk : k < bytes.length) : s.Holds k := by
  unfold completeHead at hc
  split at hc
  · cases hc
  · obtain ⟨p, hp, rfl⟩ := map_eq_some_iff.mp hc
    obtain ⟨hhead, hall⟩ := filter_eq_some_iff.mp hp
    rw [Bool.and_eq_true] at hall
    exact ⟨p, hhead, covers_of_complete hall.2 hk⟩

theorem Captured.completeHead_eq (hs : Captured content as s)
    (hwindow : window s.fileSize = HEAD_LEN) (hall : ∀ k < HEAD_LEN, s.Holds k) :
    s.completeHead = some (content.take HEAD_LEN) := by
  have hpos : 0 < HEAD_LEN := by decide
  obtain ⟨p, hp, -⟩ := hall 0 hpos
  obtain ⟨⟨last, hexact, hright⟩, hle⟩ := hs.head p hp
  have hcov : ∀ k < HEAD_LEN, Partial.Covers p.filled k := fun k hk => by
    obtain ⟨q, hq, hqk⟩ := hall k hk
    rwa [some.inj (hp.symm.trans hq)]
  have hlen : p.buf.length = HEAD_LEN := by
    have := hexact.lt (hcov (HEAD_LEN - 1) (Nat.sub_lt hpos one_pos))
    omega
  rw [hlen] at hexact
  have hdone : p.complete = true :=
    (hexact.complete_iff hpos).mpr fun k hk => (hexact.covers k).mp (hcov k hk)
  have hbytes : p.buf = content.take HEAD_LEN := by
    refine ext_getElem? fun k => ?_
    by_cases hk : k < HEAD_LEN
    · obtain ⟨b, hb⟩ := isSome_iff_exists.mp ((hexact.covers k).mp (hcov k hk))
      rw [hexact.holds k hk, hb, getElem?_take_of_lt hk, hright k b hb]
      rfl
    · rw [getElem?_eq_none (by omega), getElem?_eq_none (by rw [length_take]; omega)]
  have hwant : s.headWant = HEAD_LEN := hwindow
  unfold completeHead
  rw [hwant, if_neg (by decide), hp, filter_some, hlen, hdone, if_pos (by decide),
    map_some, hbytes]

/-! ## Runs -/

theorem SameHead.capture (hst : SameHead s t) (a : Article) :
    SameHead (s.capture a) (t.capture a) := by
  have hsize : (t.capture a).fileSize = (s.capture a).fileSize := by
    rw [capture_fileSize, capture_fileSize, hst.size]
  refine ⟨hsize, ?_⟩
  rw [capture_head, capture_head, hsize, hst.head]

theorem Fed.sameHead {slot : Nat} (hf : Fed slot ({} : NamedSlot h) as s) :
    SameHead (captureAll h as) s := by
  induction hf with
  | nil => exact .refl _
  | snoc _ htook ih =>
    rw [captureAll_snoc]
    exact (ih.capture _).trans htook.sameHead

theorem fed_captureAll (slot : Nat) (as : List Article) :
    Fed slot ({} : NamedSlot h) as (captureAll h as) := by
  induction as using reverseRecOn with
  | nil => exact .nil
  | append_singleton as a ih =>
    rw [captureAll_snoc]
    exact .snoc ih (took_waiting slot _ a)

end NamedSlot

theorem Tiled.getElem? {s e : Nat} {fs : List Fragment} (h : Tiled s fs e) {f : Fragment} (hf : f ∈ fs)
    {k : Nat} (hk : f.Has k) : (fs.flatMap (·.bytes))[k - s]? = f.bytes[k - f.start]? := by
  induction fs generalizing s with
  | nil => cases hf
  | cons g fs ih =>
    obtain ⟨rfl, -, hrest⟩ := h
    have hstop : g.stop = g.start + g.bytes.length := rfl
    rw [flatMap_cons]
    rcases mem_cons.mp hf with rfl | hf
    · obtain ⟨hlo, hhi⟩ := hk
      rw [getElem?_append_left (by omega)]
    · have hlo := ((hrest.union k).mp ⟨f, hf, hk⟩).1
      rw [getElem?_append_right (by omega), ← ih hrest hf]
      congr 1
      omega

namespace NamedSlot

/-- Articles that are the file, in any order. -/
structure Whole (content : List UInt8) (as : List Article) : Prop where
  length : HEAD_LEN ≤ content.length
  cut : ∃ tiles, Tiled 0 tiles content.length ∧ tiles.flatMap (·.bytes) = content ∧
    (as.map (·.part)).Perm tiles

namespace Whole

variable {as : List Article}

theorem of (hw : Whole content as) : ∀ a ∈ as, a.Of content := fun a ha k hk => by
  obtain ⟨tiles, hcut, hcontent, horder⟩ := hw.cut
  rw [← hcontent, ← hcut.getElem? (horder.mem_iff.mp (mem_map_of_mem ha)) hk, Nat.sub_zero]

theorem full (hw : Whole content as) : ∀ a ∈ as, a.part.bytes ≠ [] := fun a ha => by
  obtain ⟨tiles, hcut, -, horder⟩ := hw.cut
  exact hcut.nonempty _ (horder.mem_iff.mp (mem_map_of_mem ha))

theorem disjoint (hw : Whole content as) : Fragment.Disjoint (as.map (·.part)) := by
  obtain ⟨tiles, hcut, -, horder⟩ := hw.cut
  exact (horder.pairwise_iff fun {x y} hxy j hy hx => hxy j hx hy).mpr hcut.disjoint

theorem covered (hw : Whole content as) {k : Nat} (hk : k < HEAD_LEN) : ∃ a ∈ as, a.part.Has k := by
  obtain ⟨tiles, hcut, -, horder⟩ := hw.cut
  obtain ⟨f, hf, hfk⟩ := (hcut.union k).mpr ⟨Nat.zero_le k, hk.trans_le hw.length⟩
  obtain ⟨a, ha, rfl⟩ := mem_map.mp (horder.mem_iff.mpr hf)
  exact ⟨a, ha, hfk⟩

/-- A head that is right at the end lost nothing: a byte lost on the way is in no later article. -/
theorem kept (hw : Whole content as)
    (hc : (captureAll h as).completeHead = some (content.take HEAD_LEN)) : Kept as := by
  by_contra hkept
  have hof := hw.of
  obtain ⟨pre, a, post, k, rfl, hk, ⟨b, hb, hbk⟩, -, hlost⟩ :=
    captureAll_lost (h := h) hof hw.full hkept
  have hlater : ∀ c ∈ post, ¬ c.part.Has k := fun c hc => by
    have hdisj := hw.disjoint
    unfold Fragment.Disjoint at hdisj
    rw [pairwise_map, pairwise_append] at hdisj
    exact hdisj.2.2 b hb c (mem_cons_of_mem a hc) k hbk
  have hheld := holds_of_completeHead hc (by rw [length_take_of_le hw.length]; exact hk)
  rw [append_cons] at hheld hof
  exact not_holds_append hof hlost hlater hheld

theorem completeHead (hw : Whole content as) (hkept : Kept as) :
    (captureAll h as).completeHead = some (content.take HEAD_LEN) := by
  have hlast : HEAD_LEN - 1 < HEAD_LEN := by decide
  have hcap := captured (h := h) as hw.of
  have hall : ∀ k < HEAD_LEN, (captureAll h as).Holds k := fun k hk =>
    (holds_captureAll hw.of hkept k).mpr ⟨hk, hw.covered hk⟩
  obtain ⟨a, ha, hak⟩ := hw.covered hlast
  have hwindow := hkept.inside hcap.size ha hak hlast
  have := window_le (captureAll h as).fileSize
  exact hcap.completeHead_eq (by omega) hall

end Whole

end NamedSlot

open NamedSlot in
/-- For a file cut into articles, in every order and under every declared size: once all have been fed,
the head is complete with the file's first bytes, and no byte it had was lost on the way, exactly if
nothing captured before the first declared size reaches past what that article declares and brings. -/
theorem head_captured {h : Host} {content : List UInt8} {as : List Article} (hw : Whole content as)
    (slot : Nat) {s : NamedSlot h} (hs : Fed slot {} as s) :
    (s.completeHead = some (content.take HEAD_LEN) ↔ Kept as) ∧
      ((∀ pre a post, as = pre ++ a :: post → ∀ t u : NamedSlot h, Fed slot {} pre t →
        Took slot t a u → ∀ k, t.Holds k → u.Holds k) ↔ Kept as) := by
  rw [hs.sameHead.completeHead]
  refine ⟨⟨hw.kept, hw.completeHead⟩, ⟨fun hno => ?_, fun hkept => ?_⟩⟩
  · by_contra hkept
    obtain ⟨pre, a, post, k, rfl, -, -, hheld, hlost⟩ := captureAll_lost (h := h) hw.of hw.full hkept
    refine hlost (hno pre a post rfl _ _ (fed_captureAll slot pre) ?_ k hheld)
    rw [captureAll_snoc]
    exact took_waiting slot _ a
  · rintro pre a post rfl t u ht hu k hk
    have hof := hw.of
    rw [append_cons] at hof hkept
    have hpre : ∀ c ∈ pre ++ [a], c.Of content := fun c hc => hof c (mem_append_left _ hc)
    obtain ⟨hlt, b, hb, hbk⟩ := (holds_captureAll (fun c hc => hpre c (mem_append_left _ hc))
      hkept.front.front k).mp ((ht.sameHead.holds k).mp hk)
    exact ((ht.snoc hu).sameHead.holds k).mpr ((holds_captureAll hpre hkept.front k).mpr
      ⟨hlt, b, mem_append_left _ hb, hbk⟩)

/-! ### 20000 bytes in two articles -/

def frontPart : Fragment := ⟨0, List.replicate 100 7⟩

def backPart : Fragment := ⟨100, List.replicate 19900 7⟩

def plainHost : Host where
  md5 _ := []
  sha256 _ := .replicate 32 0
  windows := false

theorem frontPart_stop : frontPart.stop = 100 := by
  rw [Fragment.stop, frontPart, length_replicate]

theorem backPart_stop : backPart.stop = 20000 := by
  rw [Fragment.stop, backPart, length_replicate]

theorem whole_twoParts (h : (as.map (·.part)).Perm [frontPart, backPart]) :
    NamedSlot.Whole (List.replicate 20000 7) as where
  length := by
    rw [length_replicate]
    decide
  cut := by
    have hfull : ∀ n, 0 < n → replicate n (7 : UInt8) ≠ [] := fun n hn =>
      length_pos_iff.mp (by rwa [length_replicate])
    refine ⟨[frontPart, backPart], ⟨rfl, hfull 100 (by decide), ?_, hfull 19900 (by decide), ?_⟩, ?_, h⟩
    · exact frontPart_stop.symm
    · rw [length_replicate]
      exact backPart_stop
    · rw [flatMap_cons, flatMap_cons, flatMap_nil, append_nil]
      exact replicate_append_replicate

open NamedSlot in
theorem head_captured_inOrder :
    (captureAll plainHost [⟨[], 20000, frontPart⟩, ⟨[], 0, backPart⟩]).completeHead =
      some ((List.replicate 20000 7).take HEAD_LEN) :=
  (head_captured (whole_twoParts (.refl _)) 0 (fed_captureAll 0 _)).1.mpr fun pre a post heq hnone hsome => by
    cases pre with
    | nil => exact fun b hb => absurd hb not_mem_nil
    | cons b pre =>
      have hb := hnone b (.head _)
      rw [← (cons.inj heq).1] at hb
      exact absurd hb (by decide)

open NamedSlot in
/-- The back comes first and declares nothing; then the front declares its own end. -/
theorem head_captured_lost :
    Whole (List.replicate 20000 7) [⟨[], 0, backPart⟩, ⟨[], 100, frontPart⟩] ∧
      ∃ s : NamedSlot plainHost, Fed 0 {} [⟨[], 0, backPart⟩, ⟨[], 100, frontPart⟩] s ∧
        s.completeHead ≠ some ((List.replicate 20000 7).take HEAD_LEN) := by
  have hw : Whole (replicate 20000 7) [⟨[], 0, backPart⟩, ⟨[], 100, frontPart⟩] :=
    whole_twoParts (.swap _ _ _)
  refine ⟨hw, _, fed_captureAll 0 _, fun hc => ?_⟩
  have hkept := hw.kept hc [⟨[], 0, backPart⟩] ⟨[], 100, frontPart⟩ [] rfl (by simp) (by simp)
    ⟨[], 0, backPart⟩ (.head _) (by decide)
  rw [frontPart_stop, backPart_stop] at hkept
  exact absurd hkept (by decide)

end NzbFast.Live
