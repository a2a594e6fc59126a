import Mathlib.Data.Finmap

/-!
# Folds that read only the set of their inputs

A step that commutes with itself and absorbs a repeat (`SetLike`) folds a list
to a value that depends only on which elements the list has: neither their
order nor how often each repeats. `Table` is a finite map whose entries are
made on first use and stepped in place; stepping entries keeps the two laws.
-/

namespace Fold

open List

variable {S A B : Type}

/-- A step whose order and repetition do not matter. -/
structure SetLike (op : S → A → S) : Prop where
  comm : ∀ s a b, op (op s a) b = op (op s b) a
  idem : ∀ s a, op (op s a) a = op s a

namespace SetLike

variable {op : S → A → S}

theorem foldl_absorb (h : SetLike op) {a : A} {l : List A} (ha : a ∈ l) (s : S) :
    op (l.foldl op s) a = l.foldl op s := by
  induction l generalizing s with
  | nil => simp at ha
  | cons b l ih =>
    rcases mem_cons.mp ha with rfl | ha
    · -- The repeat is moved to the front of the fold, where the first copy absorbs it.
      have hpush : ∀ (l : List A) (t : S), op (l.foldl op t) a = l.foldl op (op t a) := by
        intro l
        induction l with
        | nil => intro t; rfl
        | cons c l ihl =>
          intro t
          rw [foldl_cons, ihl, h.comm, foldl_cons]
      rw [foldl_cons, hpush, h.idem]
    · exact ih ha (op s b)

/-- A fold absorbs a second pass over some of its elements. -/
theorem foldl_append_subset (h : SetLike op) {l l' : List A} (hsub : ∀ a ∈ l', a ∈ l) (s : S) :
    (l ++ l').foldl op s = l.foldl op s := by
  induction l' using reverseRecOn with
  | nil => rw [append_nil]
  | append_singleton l' a ih =>
    rw [← append_assoc, foldl_append, ih (fun b hb => hsub b (by simp [hb]))]
    exact h.foldl_absorb (hsub a (by simp)) s

theorem foldl_comm_append (h : SetLike op) (l l' : List A) (s : S) :
    (l ++ l').foldl op s = (l' ++ l).foldl op s := by
  apply List.Perm.foldl_eq' perm_append_comm
  intro a _ b _ t
  exact h.comm t a b

/-- The fold depends only on the set of elements. -/
theorem foldl_congr (h : SetLike op) {l l' : List A} (hset : ∀ a, a ∈ l ↔ a ∈ l') (s : S) :
    l.foldl op s = l'.foldl op s := by
  rw [← h.foldl_append_subset (fun a ha => (hset a).mpr ha) s, h.foldl_comm_append,
    h.foldl_append_subset (fun a ha => (hset a).mp ha) s]

/-- Stepping only where the argument has a reading. -/
theorem option (h : SetLike op) (f : B → Option A) :
    SetLike fun s b => (f b).elim s (op s) := by
  refine ⟨fun s a b => ?_, fun s a => ?_⟩
  · cases f a <;> cases f b <;> simp [h.comm]
  · cases f a <;> simp [h.idem]

end SetLike

/-! ## Tables -/

/-- A finite map from keys to entries. -/
abbrev Table (K V : Type) := Finmap fun _ : K => V

variable {K V : Type} [DecidableEq K]

/-- Step the entry of `k`, made from `d` on first use. -/
def Table.step (m : Table K V) (k : K) (d : V) (f : V → V) : Table K V :=
  m.insert k (f ((m.lookup k).getD d))

theorem Table.lookup_step (m : Table K V) (k : K) (d : V) (f : V → V) (j : K) :
    (m.step k d f).lookup j = if j = k then some (f ((m.lookup k).getD d)) else m.lookup j := by
  unfold Table.step
  by_cases h : j = k
  · subst h
    rw [Finmap.lookup_insert, if_pos rfl]
  · rw [Finmap.lookup_insert_of_ne _ h, if_neg h]

/-- Entry steps commute and absorb repeats when the steps on one entry do. -/
theorem SetLike.table {op : K → V → A → V} (h : ∀ k, SetLike (op k)) (d : V) :
    SetLike fun (m : Table K V) (p : K × A) => m.step p.1 d fun v => op p.1 v p.2 := by
  refine ⟨fun m p q => ?_, fun m p => ?_⟩
  · apply Finmap.ext_lookup
    intro j
    by_cases hpq : p.1 = q.1
    · simp only [Table.lookup_step, hpq, ↓reduceIte, Option.getD_some, (h _).comm]
      split <;> rfl
    · have hqp : ¬ q.1 = p.1 := fun e => hpq e.symm
      simp only [Table.lookup_step, hpq, hqp, ↓reduceIte]
      by_cases hj : j = p.1
      · simp [hj, hpq]
      · simp [hj]
  · apply Finmap.ext_lookup
    intro j
    simp only [Table.lookup_step, ↓reduceIte, Option.getD_some, (h _).idem]
    split <;> rfl

/-- The entry of one key after a run of steps: the fold of the steps made at it. -/
theorem Table.getD_foldl_step (op : K → V → A → V) (d : V) (l : List (K × A)) (m : Table K V)
    (k : K) :
    ((l.foldl (fun (m : Table K V) (p : K × A) => m.step p.1 d fun v => op p.1 v p.2) m).lookup
      k).getD d = ((l.filter (·.1 = k)).map Prod.snd).foldl (op k) ((m.lookup k).getD d) := by
  induction l generalizing m with
  | nil => rfl
  | cons p l ih =>
    rw [foldl_cons, ih, Table.lookup_step]
    by_cases hk : k = p.1
    · subst hk
      rw [if_pos rfl, filter_cons_of_pos (by simp)]
      rfl
    · rw [if_neg hk, filter_cons_of_neg (by simpa using fun e => hk e.symm)]

/-- The entry of one key after a run that pushes every element to the list of its key. -/
theorem Table.getD_foldl_push {W : Type} (key : A → K) (val : A → W) (l : List A)
    (t : Table K (List W)) (k : K) :
    ((l.foldl (fun t x => t.step (key x) [] (· ++ [val x])) t).lookup k).getD [] =
      (t.lookup k).getD [] ++ (l.filter (key · = k)).map val := by
  induction l generalizing t with
  | nil => rw [foldl_nil, filter_nil, map_nil, append_nil]
  | cons x l ih =>
    rw [foldl_cons, ih, Table.lookup_step]
    by_cases hk : k = key x
    · subst hk
      rw [if_pos rfl, filter_cons_of_pos (by simp), map_cons, Option.getD_some,
        append_assoc, singleton_append]
    · rw [if_neg hk, filter_cons_of_neg (by simpa using fun e => hk e.symm)]

theorem Table.mem_foldl_step (key : A → K) (d : V) (f : A → V → V) (l : List A) (t : Table K V)
    (k : K) : k ∈ l.foldl (fun t x => t.step (key x) d (f x)) t ↔ k ∈ t ∨ ∃ x ∈ l, key x = k := by
  induction l generalizing t with
  | nil => simp
  | cons x l ih =>
    rw [foldl_cons, ih]
    unfold Table.step
    simp only [Finmap.mem_insert, mem_cons, exists_eq_or_imp]
    constructor
    · rintro ((h | h) | h)
      · exact .inr (.inl h.symm)
      · exact .inl h
      · exact .inr (.inr h)
    · rintro (h | h | h)
      · exact .inl (.inr h)
      · exact .inl (.inl h.symm)
      · exact .inr h

end Fold
