import NzbFast.Gf.Blocks
import NzbFast.Gf.Cantor
import Mathlib.Algebra.Module.BigOperators
import Mathlib.Tactic.Module

/-!
# The additive transform

One level of the transform divides every block by its level's subspace polynomial and
then combines the halves by the polynomial's value at the block. All levels together
evaluate a polynomial at the points of the basis, and backwards they interpolate it.
Coefficients are taken from a module, so that one transform carries a row of words for
each.
-/

namespace NzbFast.Gf

open Function Finset Nat

/-! ## Spreading an entry -/

section Spread

variable {V : Type*} [AddCommGroup V]

/-- Adds entry `t` of a block to the entries its term set sends it to. -/
def spread (ts : List Nat) (half base t : Nat) (a : Nat → V) : Nat → V :=
  let q := a (base + t)
  ts.foldl (fun a j =>
    update a (base + t - half + 1 <<< j) (a (base + t - half + 1 <<< j) + q)) a

theorem foldl_add (idx : Nat → Nat) (q : V) (ts : List Nat) (a : Nat → V) (k : Nat) :
    ts.foldl (fun a j => update a (idx j) (a (idx j) + q)) a k =
      a k + (ts.map fun j => if idx j = k then q else 0).sum := by
  induction ts generalizing a with
  | nil => simp
  | cons j ts ih =>
    rw [List.foldl_cons, ih, List.map_cons, List.sum_cons, ← add_assoc]
    by_cases h : idx j = k
    · rw [if_pos h, h, update_self]
    · rw [if_neg h, update_of_ne (Ne.symm h), add_zero]

theorem spread_apply (ts : List Nat) (half base t : Nat) (a : Nat → V) (k : Nat) :
    spread ts half base t a k =
      a k + (ts.map fun j => if base + t - half + 1 <<< j = k then a (base + t) else 0).sum :=
  foldl_add (fun j => base + t - half + 1 <<< j) (a (base + t)) ts a k

variable {base t : Nat} {ts : List Nat}

/-- Entries the term set does not reach are left alone. -/
theorem spread_of_ne {half k : Nat} (a : Nat → V) (h : ∀ j ∈ ts, base + t - half + 1 <<< j ≠ k) :
    spread ts half base t a k = a k := by
  have hzero : (ts.map fun j => if base + t - half + 1 <<< j = k then a (base + t) else 0) =
      ts.map fun _ => 0 := List.map_congr_left fun j hj => if_neg (h j hj)
  rw [spread_apply, hzero, List.map_const', List.sum_replicate, smul_zero, add_zero]

/-- The entries reached lie below the one that is spread. -/
theorem target_lt {ts : List Nat} {i base t : Nat} (hts : ∀ j ∈ ts, j < i) (ht : 2 ^ i ≤ t) :
    ∀ j ∈ ts, base ≤ base + t - 2 ^ i + 1 <<< j ∧ base + t - 2 ^ i + 1 <<< j < base + t := by
  intro j hj
  have hlt := Nat.pow_lt_pow_right one_lt_two (hts j hj)
  have hpos := Nat.two_pow_pos j
  omega

theorem local_spread {i : Nat} (hts : ∀ j ∈ ts, j < i) (ht : 2 ^ i ≤ t) (ht' : t < 2 * 2 ^ i) :
    Local (V := V) base (2 * 2 ^ i) (spread ts (2 ^ i) base t) where
  outside a k hk := spread_of_ne a fun j hj => by
    have := @target_lt _ _ base _ hts ht j hj
    omega
  inside {a a'} haa k hk hk' := by
    rw [spread_apply, spread_apply, haa k hk hk', haa (base + t) (by omega) (by omega)]

variable (F : Type*) [Field F] [CharP F 2] [Module F V]

include F in
theorem add_self (v : V) : v + v = 0 := by
  have htwo : (1 + 1 : F) = 0 := CharTwo.add_self_eq_zero 1
  rw [← one_smul F v, ← add_smul, htwo, zero_smul]

include F in
theorem spread_spread {i : Nat} (hts : ∀ j ∈ ts, j < i) (ht : 2 ^ i ≤ t) (a : Nat → V) :
    spread ts (2 ^ i) base t (spread ts (2 ^ i) base t a) = a := by
  have hq : spread ts (2 ^ i) base t a (base + t) = a (base + t) :=
    spread_of_ne a fun j hj => (target_lt hts ht j hj).2.ne
  funext k
  rw [spread_apply, hq, spread_apply, add_assoc, add_self F, add_zero]

end Spread

variable {F : Type*} [Field F] [CharP F 2] {V : Type*} [AddCommGroup V] [Module F V]

/-! ## One division -/

/-- The lower terms of a level's subspace polynomial. -/
structure Terms (F : Type*) [Field F] (ts : List Nat) (i : Nat) : Prop where
  lt : ∀ j ∈ ts, j < i
  eq : ∀ x : F, subspace i x = x ^ 2 ^ i + (ts.map fun j => x ^ 2 ^ j).sum

/-- The polynomial whose coefficients are the `2 ^ i` entries from `base`, at `x`. -/
def value (i : Nat) (a : Nat → V) (base : Nat) (x : F) : V :=
  ∑ t ∈ range (2 ^ i), x ^ t • a (base + t)

/-- Divides a block by its level's polynomial: remainder in the low half, quotient in the high. -/
def divide (ts : List Nat) (half base : Nat) (a : Nat → V) : Nat → V :=
  (List.range' half half).reverse.foldl (fun a t => spread ts half base t a) a

/-- Multiplies the high half out again. -/
def undivide (ts : List Nat) (half base : Nat) (a : Nat → V) : Nat → V :=
  (List.range' half half).foldl (fun a t => spread ts half base t a) a

omit [CharP F 2] in
theorem sum_smul_reached {N : Nat} (g : Nat → F) (p : Nat → Nat) (q : V) (base : Nat) {ts : List Nat}
    (hp : ∀ j ∈ ts, p j < N) :
    ∑ t ∈ range N, g t • (ts.map fun j => if base + p j = base + t then q else 0).sum =
      (ts.map fun j => g (p j)).sum • q := by
  induction ts with
  | nil => simp
  | cons j ts ih =>
    have hmem : p j ∈ range N := Finset.mem_range.mpr (hp j (.head _))
    have hj : ∑ t ∈ range N, g t • (if base + p j = base + t then q else 0) = g (p j) • q := by
      rw [Finset.sum_eq_single_of_mem _ hmem fun t _ ht => ?_, if_pos rfl]
      rw [if_neg (by omega), smul_zero]
    simp only [List.map_cons, List.sum_cons, smul_add, Finset.sum_add_distrib, add_smul]
    rw [hj, ih fun j' hj' => hp j' (List.mem_cons_of_mem j hj')]

/-- The powers of `x` that stand at the entries of a block divided down to entry `T`. -/
def weight (i : Nat) (x : F) (T t : Nat) : F :=
  if t < T then x ^ t else x ^ (t - 2 ^ i) * subspace i x

theorem sum_weight_spread {ts : List Nat} {i T : Nat} (hts : Terms F ts i) (hT : 2 ^ i ≤ T)
    (hT' : T < 2 * 2 ^ i) (a : Nat → V) (base : Nat) (x : F) :
    ∑ t ∈ range (2 * 2 ^ i), weight i x T t • spread ts (2 ^ i) base T a (base + t) =
      ∑ t ∈ range (2 * 2 ^ i), weight i x (T + 1) t • a (base + t) := by
  have hreached : ∀ j ∈ ts, T - 2 ^ i + 1 <<< j < T := fun j hj => by
    have := @target_lt _ _ 0 _ hts.lt hT j hj
    omega
  have hindex : ∀ j, base + T - 2 ^ i + 1 <<< j = base + (T - 2 ^ i + 1 <<< j) := fun j => by omega
  -- what the spread adds
  have hadded : ∑ t ∈ range (2 * 2 ^ i), weight i x T t •
      (ts.map fun j => if base + T - 2 ^ i + 1 <<< j = base + t then a (base + T) else 0).sum =
        (x ^ (T - 2 ^ i) * (ts.map fun j => x ^ 2 ^ j).sum) • a (base + T) := by
    simp only [hindex]
    rw [sum_smul_reached _ (fun j => T - 2 ^ i + 1 <<< j) _ _ fun j hj => (hreached j hj).trans hT',
      ← List.sum_map_mul_left]
    congr 2
    refine List.map_congr_left fun j hj => ?_
    rw [weight, if_pos (hreached j hj), pow_add, one_shiftLeft]
  -- what the weight of entry `T` changes by
  have hchanged : ∀ t, weight i x T t = weight i x (T + 1) t +
      if t = T then x ^ (T - 2 ^ i) * (ts.map fun j => x ^ 2 ^ j).sum else 0 := by
    intro t
    unfold weight
    by_cases h : t = T
    · have hpow : x ^ T = x ^ (T - 2 ^ i) * x ^ 2 ^ i := by rw [← pow_add, Nat.sub_add_cancel hT]
      rw [h, if_neg (lt_irrefl T), if_pos (lt_succ_self T), if_pos rfl, hts.eq, hpow, mul_add]
    · rw [if_neg h, add_zero]
      exact if_congr (by omega) rfl rfl
  have hmem := mem_range.mpr hT'
  simp only [spread_apply, smul_add, sum_add_distrib, hadded]
  simp only [hchanged, add_smul, ite_smul, zero_smul, sum_add_distrib]
  rw [sum_ite_eq', if_pos hmem, add_assoc, add_self F, add_zero]

variable {i k p : Nat} {ts : List Nat} {a : Nat → V} {c : Nat → F}

theorem value_divide (hts : Terms F ts i) (a : Nat → V) (base : Nat) (x : F) :
    value (i + 1) a base x = value i (divide ts (2 ^ i) base a) base x +
      subspace i x • value i (divide ts (2 ^ i) base a) (base + 2 ^ i) x := by
  have hloop : ∀ m ≤ 2 ^ i, ∀ a : Nat → V,
      ∑ t ∈ range (2 * 2 ^ i), weight i x (2 ^ i) t •
        ((List.range' (2 ^ i) m).reverse.foldl (fun a t => spread ts (2 ^ i) base t a) a) (base + t) =
      ∑ t ∈ range (2 * 2 ^ i), weight i x (2 ^ i + m) t • a (base + t) := by
    intro m
    induction m with
    | zero => exact fun _ _ => rfl
    | succ m ih =>
      intro hm a
      rw [List.range'_1_concat, List.reverse_append, List.reverse_singleton, List.singleton_append,
        List.foldl_cons, ih (by omega), sum_weight_spread hts (by omega) (by omega), add_assoc]
  have hall := hloop (2 ^ i) le_rfl a
  rw [← two_mul] at hall
  have hstart : value (i + 1) a base x =
      ∑ t ∈ range (2 * 2 ^ i), weight i x (2 * 2 ^ i) t • a (base + t) := by
    rw [value, pow_succ']
    refine sum_congr rfl fun t ht => ?_
    rw [weight, if_pos (mem_range.mp ht)]
  rw [hstart, ← hall, two_mul, sum_range_add, value, value, smul_sum]
  congr 1
  · refine sum_congr rfl fun t ht => ?_
    rw [weight, if_pos (mem_range.mp ht)]
    rfl
  · refine sum_congr rfl fun t _ => ?_
    rw [weight, if_neg (by omega), Nat.add_sub_cancel_left, smul_smul, mul_comm, Nat.add_assoc]
    rfl

theorem local_divide (hts : ∀ j ∈ ts, j < i) (base : Nat) :
    Local (V := V) base (2 * 2 ^ i) (divide ts (2 ^ i) base) :=
  .foldl fun t ht => by
    rw [List.mem_reverse, List.mem_range'_1] at ht
    exact local_spread hts ht.1 (by omega)

theorem local_undivide (hts : ∀ j ∈ ts, j < i) (base : Nat) :
    Local (V := V) base (2 * 2 ^ i) (undivide ts (2 ^ i) base) :=
  .foldl fun t ht => by
    rw [List.mem_range'_1] at ht
    exact local_spread hts ht.1 (by omega)

variable (F) in
include F in
theorem undivide_divide (hts : ∀ j ∈ ts, j < i) (base : Nat) (a : Nat → V) :
    undivide ts (2 ^ i) base (divide ts (2 ^ i) base a) = a :=
  foldl_undo (fun _ ht => spread_spread F hts (List.mem_range'_1.mp ht).1) a

theorem divide_eq_zero {ts : List Nat} {i : Nat} (hts : ∀ j ∈ ts, j < i) {base m : Nat} {a : Nat → V}
    (h : ∀ r, m ≤ r → a r = 0) : ∀ r, m ≤ r → divide ts (2 ^ i) base a r = 0 := by
  refine List.foldlRecOn (motive := fun a : Nat → V => ∀ r, m ≤ r → a r = 0) _ _ h fun a ha t ht r hr => ?_
  rw [List.mem_reverse, List.mem_range'_1] at ht
  rcases lt_or_ge (base + t) m with hlt | hge
  · rw [spread_of_ne a fun j hj => by have := @target_lt _ _ base _ hts ht.1 j hj; omega]
    exact ha r hr
  · rw [spread_apply, ha _ hge, ha r hr]
    simp

/-! ## One level -/

def divideLevel (n i : Nat) (ts : List Nat) : (Nat → V) → Nat → V :=
  blocks n (2 * 2 ^ i) fun _ base => divide ts (2 ^ i) base

def undivideLevel (n i : Nat) (ts : List Nat) : (Nat → V) → Nat → V :=
  blocks n (2 * 2 ^ i) fun _ base => undivide ts (2 ^ i) base

/-- The halves combined by the value `c` of the level's polynomial. -/
def butterfly (c : F) (u v : V) : V × V := (u + c • v, u + c • v + v)

def unbutterfly (c : F) (u v : V) : V × V := (u + c • (u + v), u + v)

def combineLevel (n i : Nat) (tw : Nat → F) : (Nat → V) → Nat → V :=
  blocks n (2 * 2 ^ i) fun b base => pairs (2 ^ i) base fun _ => butterfly (tw b)

def uncombineLevel (n i : Nat) (tw : Nat → F) : (Nat → V) → Nat → V :=
  blocks n (2 * 2 ^ i) fun b base => pairs (2 ^ i) base fun _ => unbutterfly (tw b)

theorem unbutterfly_butterfly (c : F) (u v : V) :
    unbutterfly c (butterfly c u v).1 (butterfly c u v).2 = (u, v) := by
  unfold unbutterfly butterfly
  have hhigh : u + c • v + (u + c • v + v) = v := by
    rw [← add_assoc, add_self F, zero_add]
  rw [hhigh, add_assoc, add_self F, add_zero]

theorem block_count (hi : i < k) : 2 ^ k = 2 ^ (k - i - 1) * (2 * 2 ^ i) := by
  rw [← pow_succ', ← pow_add]
  congr 1
  omega

section Levels

variable {k i : Nat} (hi : i < k)

include hi

variable (F) in
include F in
theorem undivideLevel_divideLevel {ts : List Nat} (hts : ∀ j ∈ ts, j < i) (a : Nat → V) :
    undivideLevel (2 ^ k) i ts (divideLevel (2 ^ k) i ts a) = a :=
  blocks_undo (Nat.mul_pos (by decide) (Nat.two_pow_pos i)) (block_count hi)
    (fun _ _ => local_divide hts _) (fun _ _ => local_undivide hts _)
    (fun _ _ a => undivide_divide F hts _ a) a

theorem uncombineLevel_combineLevel (tw : Nat → F) (a : Nat → V) :
    uncombineLevel (2 ^ k) i tw (combineLevel (2 ^ k) i tw a) = a :=
  blocks_undo (mul_pos (by decide) (Nat.two_pow_pos i)) (block_count hi)
    (fun _ _ => local_pairs _) (fun _ _ => local_pairs _)
    (fun b _ a => pairs_undo _ (fun _ => unbutterfly_butterfly (tw b)) a) a

omit [CharP F 2] in
theorem uncombineLevel_congr (tw : Nat → F) {a a' : Nat → V} (h : ∀ r < 2 ^ k, a r = a' r) :
    ∀ r < 2 ^ k, uncombineLevel (2 ^ k) i tw a r = uncombineLevel (2 ^ k) i tw a' r :=
  blocks_congr (Nat.mul_pos (by decide) (Nat.two_pow_pos i)) (block_count hi)
    (fun _ _ => local_pairs _) h

theorem block_of {b t : Nat} (hb : b < 2 ^ (k - i - 1)) (ht : t < 2 * 2 ^ i) :
    (b * (2 * 2 ^ i) + t) / (2 * 2 ^ i) = b ∧ b * (2 * 2 ^ i) + t < 2 ^ k := by
  have hsize : 0 < 2 * 2 ^ i := mul_pos (by decide) (Nat.two_pow_pos i)
  have hdiv : (b * (2 * 2 ^ i) + t) / (2 * 2 ^ i) = b :=
    (div_eq_iff_mem hsize).mpr ⟨le_add_right _ _, by omega⟩
  exact ⟨hdiv, by rwa [block_count hi, ← div_lt_iff_lt_mul hsize, hdiv]⟩

theorem divideLevel_block {ts : List Nat} (hts : ∀ j ∈ ts, j < i) (a : Nat → V) {b t : Nat}
    (hb : b < 2 ^ (k - i - 1)) (ht : t < 2 * 2 ^ i) :
    divideLevel (2 ^ k) i ts a (b * (2 * 2 ^ i) + t) =
      divide ts (2 ^ i) (b * (2 * 2 ^ i)) a (b * (2 * 2 ^ i) + t) := by
  obtain ⟨hdiv, hin⟩ := block_of hi hb ht
  rw [divideLevel, blocks_apply (by omega) (block_count hi) fun _ _ => local_divide hts _, if_pos hin, hdiv]

omit [CharP F 2] in
theorem combineLevel_block (tw : Nat → F) (a : Nat → V) {b t : Nat}
    (hb : b < 2 ^ (k - i - 1)) (ht : t < 2 * 2 ^ i) :
    combineLevel (2 ^ k) i tw a (b * (2 * 2 ^ i) + t) =
      pairs (2 ^ i) (b * (2 * 2 ^ i)) (fun _ => butterfly (tw b)) a (b * (2 * 2 ^ i) + t) := by
  obtain ⟨hdiv, hin⟩ := block_of hi hb ht
  rw [combineLevel, blocks_apply (by omega) (block_count hi) fun _ _ => local_pairs _, if_pos hin, hdiv]

end Levels

/-! ## All levels -/

/-- A block in the basis of products of subspace polynomials from level `lo` up, and of powers
below it, at `x`. -/
def mixed (lo : Nat) : Nat → (Nat → V) → Nat → F → V
  | 0, a, base, x => value lo a base x
  | d + 1, a, base, x =>
    mixed lo d a base x + subspace (lo + d) x • mixed lo d a (base + 2 ^ (lo + d)) x

omit [CharP F 2] in
theorem mixed_combine {lo : Nat} {a₁ a₂ : Nat → V} {s x : F} (d : Nat) {base b₁ b₂ : Nat}
    (h : ∀ r < 2 ^ (lo + d), a (base + r) = a₁ (b₁ + r) + s • a₂ (b₂ + r)) :
    mixed lo d a base x = mixed lo d a₁ b₁ x + s • mixed lo d a₂ b₂ x := by
  induction d generalizing base b₁ b₂ with
  | zero =>
    unfold mixed value
    rw [Finset.smul_sum, ← Finset.sum_add_distrib]
    refine Finset.sum_congr rfl fun r hr => ?_
    rw [h r (Finset.mem_range.mp hr), smul_add, smul_comm]
  | succ d ih =>
    have hpow : 2 ^ (lo + (d + 1)) = 2 ^ (lo + d) + 2 ^ (lo + d) := by
      rw [← add_assoc, pow_succ, mul_two]
    have hlow := ih fun r hr => h r (by omega)
    have hhigh := @ih (base + 2 ^ (lo + d)) (b₁ + 2 ^ (lo + d)) (b₂ + 2 ^ (lo + d)) fun r hr => by
      rw [add_assoc, add_assoc, add_assoc]
      exact h _ (by omega)
    unfold mixed
    rw [hlow, hhigh]
    module

omit [CharP F 2] in
theorem mixed_congr {lo : Nat} {a' : Nat → V} (d : Nat) {base : Nat} {x : F}
    (h : ∀ r < 2 ^ (lo + d), a (base + r) = a' (base + r)) :
    mixed lo d a base x = mixed lo d a' base x := by
  have hcombine : mixed lo d a base x = mixed lo d a' base x + (0 : F) • mixed lo d a' base x :=
    mixed_combine d fun r hr => by rw [h r hr, zero_smul, add_zero]
  rw [hcombine, zero_smul, add_zero]

theorem mixed_divideLevel (hi : i < k) (hts : Terms F ts i) (a : Nat → V) (x : F) :
    ∀ d b, i + 1 + d ≤ k → b < 2 ^ (k - (i + 1 + d)) →
      mixed i (d + 1) (divideLevel (2 ^ k) i ts a) (b * 2 ^ (i + 1 + d)) x =
        mixed (i + 1) d a (b * 2 ^ (i + 1 + d)) x := by
  intro d
  induction d with
  | zero =>
    intro b _ hb
    have hblock : ∀ t < 2 * 2 ^ i, divideLevel (2 ^ k) i ts a (b * (2 * 2 ^ i) + t) =
        divide ts (2 ^ i) (b * (2 * 2 ^ i)) a (b * (2 * 2 ^ i) + t) := fun t ht =>
      divideLevel_block hi hts.lt a hb ht
    have hpow : 2 ^ (i + 1) = 2 * 2 ^ i := pow_succ'
    rw [add_zero, hpow]
    calc mixed i 1 (divideLevel (2 ^ k) i ts a) (b * (2 * 2 ^ i)) x
        = mixed i 1 (divide ts (2 ^ i) (b * (2 * 2 ^ i)) a) (b * (2 * 2 ^ i)) x :=
          mixed_congr 1 fun r hr => hblock r (hpow ▸ hr)
      _ = value (i + 1) a (b * (2 * 2 ^ i)) x := (value_divide hts a _ x).symm
  | succ d ih =>
    intro b hk hb
    have hpow : 2 ^ (i + 1 + (d + 1)) = 2 * 2 ^ (i + 1 + d) := pow_succ'
    have hcount : 2 ^ (k - (i + 1 + d)) = 2 * 2 ^ (k - (i + 1 + (d + 1))) := by
      rw [← pow_succ']
      congr 1
      omega
    have hbase : b * 2 ^ (i + 1 + (d + 1)) = 2 * b * 2 ^ (i + 1 + d) := by rw [hpow]; ring
    have hnext : 2 * b * 2 ^ (i + 1 + d) + 2 ^ (i + 1 + d) = (2 * b + 1) * 2 ^ (i + 1 + d) := by ring
    have hlevel : i + (d + 1) = i + 1 + d := by omega
    have hlow := ih (2 * b) (by omega) (by omega)
    have hhigh := ih (2 * b + 1) (by omega) (by omega)
    rw [hbase]
    show mixed i (d + 1) _ _ x + subspace (i + (d + 1)) x • mixed i (d + 1) _ _ x =
      mixed (i + 1) d a _ x + subspace (i + 1 + d) x • mixed (i + 1) d a _ x
    rw [hlevel, hnext, hlow, hhigh]

/-- Combining a level evaluates its polynomial at every point of every block. -/
theorem mixed_combineLevel (hc : Cantor c k) (hi : i < k) (hp : p < 2 ^ k) {tw : Nat → F}
    (htw : ∀ b < 2 ^ (k - i - 1), tw b = subspace i (point c k (b * (2 * 2 ^ i)))) (a : Nat → V) :
    mixed 0 i (combineLevel (2 ^ k) i tw a) (p - p % 2 ^ i) (point c k p) =
      mixed 0 (i + 1) a (p - p % (2 * 2 ^ i)) (point c k p) := by
  have hsize : 0 < 2 * 2 ^ i := mul_pos (by decide) (Nat.two_pow_pos i)
  obtain ⟨b, r, hr, rfl⟩ : ∃ b r, r < 2 * 2 ^ i ∧ p = b * (2 * 2 ^ i) + r :=
    ⟨p / (2 * 2 ^ i), p % (2 * 2 ^ i), mod_lt _ hsize, by rw [mul_comm, div_add_mod]⟩
  have hb : b < 2 ^ (k - i - 1) := by
    have hlt : b * (2 * 2 ^ i) < 2 ^ (k - i - 1) * (2 * 2 ^ i) := by
      rw [← block_count hi]
      omega
    exact Nat.lt_of_mul_lt_mul_right hlt
  have hmod : (b * (2 * 2 ^ i) + r) % (2 * 2 ^ i) = r := by
    rw [mul_comm, mul_add_mod, mod_eq_of_lt hr]
  have hmod' : (b * (2 * 2 ^ i) + r) % 2 ^ i = r % 2 ^ i := by
    rw [show b * (2 * 2 ^ i) + r = 2 ^ i * (b * 2) + r by ring, mul_add_mod]
  have hblock : ∀ t < 2 * 2 ^ i, combineLevel (2 ^ k) i tw a (b * (2 * 2 ^ i) + t) =
      pairs (2 ^ i) (b * (2 * 2 ^ i)) (fun _ => butterfly (tw b)) a (b * (2 * 2 ^ i) + t) := fun t ht =>
    combineLevel_block hi tw a hb ht
  have hdvd : 2 ^ (i + 1) ∣ b * (2 * 2 ^ i) := ⟨b, by rw [pow_succ]; ring⟩
  have hpoint : point c k (b * (2 * 2 ^ i) + r) = point c k (b * (2 * 2 ^ i)) + point c k r :=
    point_add hdvd (by rw [pow_succ]; omega)
  rw [hmod, hmod', Nat.add_sub_cancel]
  show _ = mixed 0 i a (b * (2 * 2 ^ i)) _ + subspace (0 + i) _ •
    mixed 0 i a (b * (2 * 2 ^ i) + 2 ^ (0 + i)) _
  rw [zero_add, hpoint, subspace_add, ← htw b hb]
  by_cases hlow : r < 2 ^ i
  · rw [Nat.mod_eq_of_lt hlow, Nat.add_sub_cancel, subspace_point hc hi.le hlow, add_zero]
    refine mixed_combine i fun t ht => ?_
    rw [zero_add] at ht
    rw [hblock t (by omega), pairs_low _ _ ht, butterfly]
  · obtain ⟨s, rfl⟩ := Nat.exists_eq_add_of_le (not_lt.mp hlow)
    have hs : s < 2 ^ i := by omega
    have hbase : b * (2 * 2 ^ i) + (2 ^ i + s) - (2 ^ i + s) % 2 ^ i = b * (2 * 2 ^ i) + 2 ^ i := by
      rw [add_mod_left, mod_eq_of_lt hs]
      omega
    have hone : subspace i (point c k (2 ^ i + s)) = 1 := by
      rw [point_add (dvd_refl _) hs, point_two_pow hi, subspace_add, hc.subspace_self hi,
        subspace_point hc hi.le hs, add_zero]
    rw [hbase, hone]
    refine mixed_combine i fun t ht => ?_
    rw [zero_add] at ht
    rw [add_assoc, hblock _ (by omega), ← add_assoc, pairs_high _ _ ht, butterfly, add_smul,
      one_smul]
    exact add_assoc _ _ _

/-! ## The transform -/

/-- Evaluates `2 ^ k` coefficients at the points of a basis of `k` vectors. -/
def forward (k : Nat) (ts : Nat → List Nat) (tw : Nat → Nat → F) (a : Nat → V) : Nat → V :=
  let a := (List.range k).reverse.foldl (fun a i => divideLevel (2 ^ k) i (ts i) a) a
  (List.range k).reverse.foldl (fun a i => combineLevel (2 ^ k) i (tw i) a) a

def backward (k : Nat) (ts : Nat → List Nat) (tw : Nat → Nat → F) (a : Nat → V) : Nat → V :=
  let a := (List.range k).foldl (fun a i => uncombineLevel (2 ^ k) i (tw i) a) a
  (List.range k).foldl (fun a i => undivideLevel (2 ^ k) i (ts i) a) a

theorem divideLevels_eq_zero {n k m : Nat} {ts : Nat → List Nat} (hts : ∀ i < k, ∀ j ∈ ts i, j < i)
    {a : Nat → V} (h : ∀ r, m ≤ r → a r = 0) : ∀ r, m ≤ r →
      (List.range k).reverse.foldl (fun a i => divideLevel n i (ts i) a) a r = 0 := by
  refine List.foldlRecOn (motive := fun a : Nat → V => ∀ r, m ≤ r → a r = 0) _ _ h fun a ha i hi => ?_
  have hik := List.mem_range.mp (List.mem_reverse.mp hi)
  exact List.foldlRecOn (motive := fun a : Nat → V => ∀ r, m ≤ r → a r = 0) _ _ ha fun a ha b _ =>
    divide_eq_zero (hts i hik) ha

theorem mixed_divideLevels {ts : Nat → List Nat} (hts : ∀ i < k, Terms F (ts i) i) (x : F) :
    ∀ m ≤ k, ∀ a : Nat → V, mixed 0 k
      ((List.range m).reverse.foldl (fun a i => divideLevel (2 ^ k) i (ts i) a) a) 0 x =
        mixed m (k - m) a 0 x := by
  intro m
  induction m with
  | zero => exact fun _ _ => rfl
  | succ m ih =>
    intro hm a
    rw [range_reverse_succ, List.foldl_cons, ih (by omega)]
    have hstep := mixed_divideLevel hm (hts m hm) a x (k - (m + 1)) 0 (by omega) (by simp)
    have hcount : k - (m + 1) + 1 = k - m := by omega
    rwa [hcount, zero_mul] at hstep

theorem combineLevels_apply (hc : Cantor c k) (hp : p < 2 ^ k) {tw : Nat → Nat → F}
    (htw : ∀ i < k, ∀ b < 2 ^ (k - i - 1), tw i b = subspace i (point c k (b * (2 * 2 ^ i)))) :
    ∀ m ≤ k, ∀ a : Nat → V,
      (List.range m).reverse.foldl (fun a i => combineLevel (2 ^ k) i (tw i) a) a p =
        mixed 0 m a (p - p % 2 ^ m) (point c k p) := by
  intro m
  induction m with
  | zero =>
    intro _ a
    simp [mixed, value, mod_one]
  | succ m ih =>
    intro hm a
    rw [range_reverse_succ, List.foldl_cons, ih (by omega), mixed_combineLevel hc hm hp (htw m hm),
      pow_succ']

theorem forward_apply (hc : Cantor c k) (hp : p < 2 ^ k) {ts : Nat → List Nat}
    (hts : ∀ i < k, Terms F (ts i) i) {tw : Nat → Nat → F}
    (htw : ∀ i < k, ∀ b < 2 ^ (k - i - 1), tw i b = subspace i (point c k (b * (2 * 2 ^ i))))
    (a : Nat → V) : forward k ts tw a p = value k a 0 (point c k p) := by
  unfold forward
  rw [combineLevels_apply hc hp htw k (Nat.le_refl k), Nat.mod_eq_of_lt hp, Nat.sub_self,
    mixed_divideLevels hts _ k (Nat.le_refl k), Nat.sub_self]
  rfl

omit [CharP F 2] in
/-- Entries past the transform's size are left alone. -/
theorem forward_outside (hp : 2 ^ k ≤ p) {ts : Nat → List Nat} (hts : ∀ i < k, ∀ j ∈ ts i, j < i)
    (tw : Nat → Nat → F) (a : Nat → V) : forward k ts tw a p = a p := by
  have hloop : ∀ (f : Nat → (Nat → V) → Nat → V), (∀ i < k, ∀ a, f i a p = a p) →
      ∀ (l : List Nat), (∀ i ∈ l, i < k) → ∀ a, l.foldl (fun a i => f i a) a p = a p := by
    intro f hf l
    induction l with
    | nil => exact fun _ _ => rfl
    | cons i l ih =>
      intro hl a
      rw [List.foldl_cons, ih (fun j hj => hl j (List.mem_cons_of_mem i hj)), hf i (hl i (.head _))]
  have hsize : ∀ i, 0 < 2 * 2 ^ i := fun i => Nat.mul_pos (by decide) (Nat.two_pow_pos i)
  have hmem : ∀ i ∈ (List.range k).reverse, i < k := fun i hi =>
    List.mem_range.mp (List.mem_reverse.mp hi)
  unfold forward
  rw [hloop (fun i => combineLevel (2 ^ k) i (tw i)) (fun i hi a => ?_) _ hmem,
    hloop (fun i => divideLevel (2 ^ k) i (ts i)) (fun i hi a => ?_) _ hmem]
  · rw [divideLevel, blocks_apply (hsize i) (block_count hi) fun _ _ => local_divide (hts i hi) _,
      if_neg (not_lt.mpr hp)]
  · rw [combineLevel, blocks_apply (hsize i) (block_count hi) fun _ _ => local_pairs _,
      if_neg (not_lt.mpr hp)]

/-- The two transforms are inverse, level by level. -/
theorem backward_forward {ts : Nat → List Nat} (hts : ∀ i < k, ∀ j ∈ ts i, j < i)
    (tw : Nat → Nat → F) (a : Nat → V) : backward k ts tw (forward k ts tw a) = a := by
  unfold backward forward
  rw [foldl_undo fun i hi a => uncombineLevel_combineLevel (List.mem_range.mp hi) (tw i) a,
    foldl_undo fun i hi a => undivideLevel_divideLevel F (List.mem_range.mp hi) (hts i (List.mem_range.mp hi)) a]

theorem uncombineLevels_forward (ts : Nat → List Nat) (tw : Nat → Nat → F) {P : Nat → V}
    (h : ∀ p < 2 ^ k, a p = forward k ts tw P p) : ∀ p < 2 ^ k,
      (List.range k).foldl (fun a i => uncombineLevel (2 ^ k) i (tw i) a) a p =
        (List.range k).reverse.foldl (fun a i => divideLevel (2 ^ k) i (ts i) a) P p := by
  have hundo : (List.range k).foldl (fun a i => uncombineLevel (2 ^ k) i (tw i) a) (forward k ts tw P) =
      (List.range k).reverse.foldl (fun a i => divideLevel (2 ^ k) i (ts i) a) P :=
    foldl_undo (fun i hi a => uncombineLevel_combineLevel (List.mem_range.mp hi) (tw i) a) _
  rw [← hundo]
  have hloop : ∀ (l : List Nat), (∀ i ∈ l, i < k) → ∀ (a a' : Nat → V), (∀ p < 2 ^ k, a p = a' p) →
      ∀ p < 2 ^ k, l.foldl (fun a i => uncombineLevel (2 ^ k) i (tw i) a) a p =
        l.foldl (fun a i => uncombineLevel (2 ^ k) i (tw i) a) a' p := by
    intro l
    induction l with
    | nil => exact fun _ _ _ h => h
    | cons i l ih =>
      intro hl a a' h
      exact ih (fun j hj => hl j (List.mem_cons_of_mem i hj)) _ _
        (uncombineLevel_congr (hl i (.head _)) (tw i) h)
  exact hloop _ (fun i hi => List.mem_range.mp hi) _ _ h

end NzbFast.Gf
