import Mathlib.Data.List.Basic

/-!
# Programs that may panic

`Ask δ α` is a program that puts questions to a surrounding with a state of
its own (a disk, a clock) and answers with an `α`; `none` is a panic. Slices,
subtractions and copies panic where Rust's do.

`Total m Q` says that `m` never panics, whatever the surrounding does, and that
its answers satisfy `Q`; `Ends m s Q` says it of the answers only, from one
state of the surrounding. Both come with a rule for each way programs compose.
-/

namespace NzbFast.Rust

open List Option

abbrev Ask (δ : Type) := StateT δ Option

variable {δ α β : Type}

def ask (f : δ → α × δ) : Ask δ α := fun s => some (f s)

def orPanic (o : Option α) : Ask δ α := fun s => o.map (·, s)

/-! ## Slices and subtractions -/

/-- `a - b` of unsigned numbers. -/
def usizeSub (a b : Nat) : Option Nat := if b ≤ a then some (a - b) else none

/-- `data[a..b]`. -/
def sliceRange (data : List UInt8) (a b : Nat) : Option (List UInt8) :=
  if a ≤ b ∧ b ≤ data.length then some ((data.drop a).take (b - a)) else none

/-- `data[a..].copy_from_slice(src)`. -/
def copyTail (data : List UInt8) (a : Nat) (src : List UInt8) : Option (List UInt8) :=
  if a ≤ data.length ∧ data.length - a = src.length then some (data.take a ++ src) else none

/-- `xs[i] = x`. -/
def setAt (xs : List α) (i : Nat) (x : α) : Option (List α) :=
  if i < xs.length then some (xs.set i x) else none

/-- `data[n - 16..n]`. -/
def lastBlock (data : List UInt8) (n : Nat) : Option (List UInt8) :=
  (usizeSub n 16).bind fun a => sliceRange data a n

theorem sliceRange_eq {data : List UInt8} {a b : Nat} (hab : a ≤ b) (hb : b ≤ data.length) :
    sliceRange data a b = some ((data.drop a).take (b - a)) := if_pos ⟨hab, hb⟩

theorem usizeSub_eq {a b : Nat} (h : b ≤ a) : usizeSub a b = some (a - b) := if_pos h

theorem lastBlock_eq {data : List UInt8} {n : Nat} (h16 : 16 ≤ n) (hn : n ≤ data.length) :
    lastBlock data n = some ((data.drop (n - 16)).take 16) := by
  rw [lastBlock, usizeSub_eq h16, bind_some, sliceRange_eq (by omega) hn,
    Nat.sub_sub_self h16]

theorem lastBlock_short {data : List UInt8} {n : Nat} (h : n < 16) : lastBlock data n = none := by
  rw [lastBlock, usizeSub, if_neg (by omega), bind_none]

/-- Writes at indices that are all in range. -/
theorem foldlM_setAt {is : List Nat} {xs : List α} (x : α) (h : ∀ i ∈ is, i < xs.length) :
    ∃ ys, is.foldlM (fun xs i => setAt xs i x) xs = some ys ∧ ys.length = xs.length := by
  induction is generalizing xs with
  | nil => exact ⟨xs, rfl, rfl⟩
  | cons i is ih =>
    have hset : setAt xs i x = some (xs.set i x) := if_pos (h i mem_cons_self)
    have hrest : ∀ j ∈ is, j < (xs.set i x).length := fun j hj => by
      rw [length_set]
      exact h j (mem_cons_of_mem _ hj)
    obtain ⟨ys, heq, hlen⟩ := ih hrest
    refine ⟨ys, ?_, by rw [hlen, length_set]⟩
    rw [foldlM_cons, hset]
    exact heq

/-! ## Programs that never panic -/

def Total (m : Ask δ α) (Q : α → Prop) : Prop := ∀ s, ∃ a s', m s = some (a, s') ∧ Q a

namespace Total

variable {m : Ask δ α} {Q Q' : α → Prop} {R : β → Prop}

theorem pure {a : α} (h : Q a) : Total (pure a : Ask δ α) Q := fun s => ⟨a, s, rfl, h⟩

theorem ask {f : δ → α × δ} (h : ∀ s, Q (f s).1) : Total (ask f) Q :=
  fun s => ⟨(f s).1, (f s).2, rfl, h s⟩

theorem orPanic {o : Option α} {a : α} (ho : o = some a) (h : Q a) :
    Total (orPanic o : Ask δ α) Q := by
  subst ho
  exact fun s => ⟨a, s, rfl, h⟩

theorem bind (hm : Total m Q) {f : α → Ask δ β} (hf : ∀ a, Q a → Total (f a) R) :
    Total (m >>= f) R := by
  intro s
  obtain ⟨a, s1, hms, ha⟩ := hm s
  obtain ⟨b, s2, hfs, hb⟩ := hf a ha s1
  refine ⟨b, s2, ?_, hb⟩
  show (m s).bind (fun x => f x.1 x.2) = some (b, s2)
  rw [hms, bind_some, hfs]

/-- Where the answer of the first half does not matter. -/
theorem andThen (hm : Total m Q) {f : α → Ask δ β} (hf : ∀ a, Total (f a) R) : Total (m >>= f) R :=
  hm.bind fun a _ => hf a

theorem ask_any {f : δ → α × δ} : Total (Rust.ask f) fun _ => True := ask fun _ => trivial

theorem mono (hm : Total m Q) (h : ∀ a, Q a → Q' a) : Total m Q' := fun s => by
  obtain ⟨a, s', hs, ha⟩ := hm s
  exact ⟨a, s', hs, h a ha⟩

/-- What every round keeps holds after the loop. -/
theorem foldlM {I : β → Prop} {f : β → α → Ask δ β} {l : List α}
    (h : ∀ x ∈ l, ∀ b, I b → Total (f b x) I) {b : β} (hb : I b) : Total (l.foldlM f b) I := by
  induction l generalizing b with
  | nil => exact .pure hb
  | cons x l ih =>
    exact (h x mem_cons_self b hb).bind fun b' hb' =>
      ih (fun y hy => h y (mem_cons_of_mem _ hy)) hb'

theorem mapM {f : α → Ask δ β} {l : List α} (h : ∀ x ∈ l, Total (f x) R) :
    Total (l.mapM f) fun ys => ∀ y ∈ ys, R y := by
  induction l with
  | nil => exact .pure fun y hy => absurd hy not_mem_nil
  | cons x l ih =>
    rw [mapM_cons]
    refine (h x mem_cons_self).bind fun y hy => ?_
    refine (ih fun z hz => h z (mem_cons_of_mem _ hz)).bind fun ys hys => .pure ?_
    intro z hz
    rcases mem_cons.mp hz with rfl | hz
    · exact hy
    · exact hys z hz

theorem ne_none (hm : Total m Q) (s : δ) : m s ≠ none := by
  obtain ⟨a, s', hs, -⟩ := hm s
  rw [hs]
  exact some_ne_none _

end Total

/-! ## The answers from one state -/

def Ends (m : Ask δ α) (s : δ) (Q : α → δ → Prop) : Prop := ∀ a s', m s = some (a, s') → Q a s'

namespace Ends

variable {m : Ask δ α} {s : δ} {Q Q' : α → δ → Prop} {R : β → δ → Prop}

theorem pure {a : α} (h : Q a s) : Ends (pure a : Ask δ α) s Q := by
  intro b s' hb
  cases hb
  exact h

theorem ask {f : δ → α × δ} (h : Q (f s).1 (f s).2) : Ends (ask f) s Q := by
  intro b s' hb
  have he : f s = (b, s') := some.inj hb
  rw [he] at h
  exact h

theorem orPanic {o : Option α} (h : ∀ a, o = some a → Q a s) : Ends (orPanic o) s Q := by
  intro b s' hb
  obtain ⟨a, ho, he⟩ := map_eq_some_iff.mp hb
  cases he
  exact h _ ho

theorem bind (hm : Ends m s Q) {f : α → Ask δ β} (hf : ∀ a s', Q a s' → Ends (f a) s' R) :
    Ends (m >>= f) s R := by
  intro b s2 hb
  obtain ⟨⟨a, s1⟩, hms, hfs⟩ := bind_eq_some_iff.mp hb
  exact hf a s1 (hm a s1 hms) b s2 hfs

theorem foldlM {I : β → δ → Prop} {f : β → α → Ask δ β} {l : List α}
    (h : ∀ x ∈ l, ∀ b s, I b s → Ends (f b x) s I) {b : β} (hb : I b s) :
    Ends (l.foldlM f b) s I := by
  induction l generalizing b s with
  | nil => exact .pure hb
  | cons x l ih =>
    exact (h x mem_cons_self b s hb).bind fun b' s' hb' =>
      ih (fun y hy => h y (mem_cons_of_mem _ hy)) hb'

end Ends

/-- A panic in the second half, whatever the first half answers. -/
theorem bind_panics {m : Ask δ α} {s : δ} {Q : α → δ → Prop} (hm : Ends m s Q) {f : α → Ask δ β}
    (hf : ∀ a s', Q a s' → f a s' = none) : (m >>= f) s = none := by
  show (m s).bind (fun x => f x.1 x.2) = none
  cases hms : m s with
  | none => rfl
  | some x => exact hf x.1 x.2 (hm x.1 x.2 hms)

theorem bind_panics_left {m : Ask δ α} {s : δ} (hm : m s = none) (f : α → Ask δ β) :
    (m >>= f) s = none := by
  show (m s).bind (fun x => f x.1 x.2) = none
  rw [hm, bind_none]

/-- A loop panics if a round does that is reached in a state where it must. -/
theorem foldlM_panics {I : β → δ → Prop} {f : β → α → Ask δ β} {pre post : List α} {x : α}
    {b : β} {s : δ} (hpre : Ends (pre.foldlM f b) s I) (hx : ∀ b s, I b s → f b x s = none) :
    (pre ++ x :: post).foldlM f b s = none := by
  rw [foldlM_append]
  refine bind_panics hpre fun b s hb => ?_
  exact bind_panics_left (hx b s hb) _

end NzbFast.Rust
