import Mathlib.Data.Nat.Size
import Mathlib.Tactic

/-!
# How recovery slices are dealt to volumes

`volume_layout` and `interleave_schedule` (`crates/nzbkit-base/src/par2gen.rs`). A layout tiles
the recovery exponents with ranges that are not empty and stay under the cap; a schedule hands
out whole copies of the cycle, by the floors of a running share.
-/

namespace NzbFast.Par2

open List

inductive VolumePlan where
  | Variable
  | Even (k : Nat)

/-- `saturating_mul(2)`. -/
def saturatingDouble (want : ℕ+) : ℕ+ := ⟨min (2 * want) (2 ^ 64 - 1), by have := want.pos; omega⟩

/-- The `Variable` loop. -/
def variableVolumes (n : Nat) (cap : ℕ+) (first : Nat) (want : ℕ+) (out : List (Nat × Nat)) :
    List (Nat × Nat) :=
  if first < n then
    let count := min (min want.val cap.val) (n - first)
    variableVolumes n cap (first + count) (saturatingDouble want) (out ++ [(first, count)])
  else out
termination_by n - first
decreasing_by
  have := want.pos
  have := cap.pos
  omega

/-- The inner `Even` loop: one share, split where it is above the cap. -/
def splitShare (cap : ℕ+) (want first : Nat) (out : List (Nat × Nat)) : List (Nat × Nat) × Nat :=
  if 0 < want then
    let count := min want cap.val
    splitShare cap (want - count) (first + count) (out ++ [(first, count)])
  else (out, first)
termination_by want
decreasing_by
  have := cap.pos
  omega

def evenVolumes (n : Nat) (cap : ℕ+) (k : Nat) : List (Nat × Nat) :=
  let k := min (max k 1) (max n 1)
  let base := n / k
  let rem := n % k
  ((List.range k).foldl
    (fun s i => splitShare cap (base + if i < rem then 1 else 0) s.2 s.1) ([], 0)).1

def volumeLayout (n : Nat) (cap : ℕ+) (plan : VolumePlan) (firstExponent : Nat) :
    List (Nat × Nat) :=
  let out :=
    match plan with
    | .Variable => variableVolumes n cap 0 ⟨1, Nat.one_pos⟩ []
    | .Even k => evenVolumes n cap k
  if 0 < firstExponent then out.map fun v => ((v.1 + firstExponent) % 2 ^ 64, v.2) else out

def interleaveSchedule (count nCycle : Nat) : List Nat :=
  -- the bit length is what `leading_zeros` leaves of the word
  let total := min (count.size * nCycle) (2 ^ 64 - 1)
  ((List.range count).foldl
    (fun (s : List Nat × Nat) i =>
      let target := (i + 1) * total / count
      (s.1 ++ [target - s.2], target))
    ([], 0)).1

/-! ## Tilings -/

/-- Consecutive ranges from `a` to `b`, none empty and none above the cap. -/
def Tiles (cap : Nat) (a b : Nat) : List (Nat × Nat) → Prop
  | [] => a = b
  | v :: vs => v.1 = a ∧ 0 < v.2 ∧ v.2 ≤ cap ∧ Tiles cap (a + v.2) b vs

variable {cap : Nat}

theorem Tiles.snoc {a b count : Nat} {out : List (Nat × Nat)} (h : Tiles cap a b out)
    (hpos : 0 < count) (hcap : count ≤ cap) : Tiles cap a (b + count) (out ++ [(b, count)]) := by
  induction out generalizing a with
  | nil =>
    obtain rfl : a = b := h
    exact ⟨rfl, hpos, hcap, rfl⟩
  | cons v vs ih =>
    obtain ⟨hfirst, hv, hvcap, hrest⟩ := h
    exact ⟨hfirst, hv, hvcap, ih hrest⟩

theorem Tiles.le {a b : Nat} {out : List (Nat × Nat)} (h : Tiles cap a b out) : a ≤ b := by
  induction out generalizing a with
  | nil => exact le_of_eq h
  | cons v vs ih =>
    have := ih h.2.2.2
    omega

/-- A tiling moved along whole; no first exponent wraps while the end fits. -/
theorem Tiles.shift {a b : Nat} {out : List (Nat × Nat)} (h : Tiles cap a b out) {f : Nat}
    (hend : b + f ≤ 2 ^ 64) :
    Tiles cap (a + f) (b + f) (out.map fun v => ((v.1 + f) % 2 ^ 64, v.2)) := by
  induction out generalizing a with
  | nil => exact congrArg (· + f) h
  | cons v vs ih =>
    obtain ⟨hfirst, hpos, hcap, hrest⟩ := h
    have hle := hrest.le
    refine ⟨?_, hpos, hcap, ?_⟩
    · show (v.1 + f) % 2 ^ 64 = a + f
      rw [hfirst, Nat.mod_eq_of_lt (by omega)]
    · have hnext := ih hrest
      rwa [add_right_comm] at hnext

theorem variableVolumes_tiles (n : Nat) (cap : ℕ+) (first : Nat) (want : ℕ+)
    (out : List (Nat × Nat)) (h : Tiles cap 0 first out) (hle : first ≤ n) :
    Tiles cap 0 n (variableVolumes n cap first want out) := by
  fun_induction variableVolumes n cap first want out with
  | case1 first want out hlt count ih =>
    have hwant := want.pos
    have hcap := cap.pos
    exact ih (h.snoc (by omega) (by omega)) (by omega)
  | case2 first want out hge =>
    obtain rfl : first = n := by omega
    exact h

theorem splitShare_tiles (cap : ℕ+) (want first : Nat) (out : List (Nat × Nat))
    (h : Tiles cap 0 first out) :
    (splitShare cap want first out).2 = first + want ∧
      Tiles cap 0 (first + want) (splitShare cap want first out).1 := by
  fun_induction splitShare cap want first out with
  | case1 want first out hpos count ih =>
    have hcap := cap.pos
    have hend : first + count + (want - count) = first + want := by omega
    have hnext := ih (h.snoc (by omega) (by omega))
    rwa [hend] at hnext
  | case2 want first out hzero =>
    obtain rfl : want = 0 := by omega
    exact ⟨rfl, h⟩

/-- After `i` shares the volumes reach to the `i` shares' sum. -/
theorem evenShares_tiles (cap : ℕ+) (base rem : Nat) (i : Nat) :
    let s := (range i).foldl
      (fun s i => splitShare cap (base + if i < rem then 1 else 0) s.2 s.1) ([], 0)
    s.2 = i * base + min i rem ∧ Tiles cap 0 s.2 s.1 := by
  induction i with
  | zero => exact ⟨by simp, rfl⟩
  | succ i ih =>
    obtain ⟨hfirst, htiles⟩ := ih
    have hstep := splitShare_tiles cap (base + if i < rem then 1 else 0) _ _ htiles
    simp only [range_succ, foldl_append, foldl_cons, foldl_nil]
    rw [hstep.1]
    refine ⟨?_, hstep.2⟩
    rw [hfirst, Nat.succ_mul]
    split <;> omega

theorem evenVolumes_tiles (n : Nat) (cap : ℕ+) (k : Nat) :
    Tiles cap 0 n (evenVolumes n cap k) := by
  unfold evenVolumes
  generalize hk : min (max k 1) (max n 1) = k'
  have hpos : 0 < k' := by omega
  obtain ⟨hend, htiles⟩ := evenShares_tiles cap (n / k') (n % k') k'
  have hrem : n % k' < k' := Nat.mod_lt _ hpos
  rw [hend, min_eq_right hrem.le, Nat.div_add_mod] at htiles
  exact htiles

theorem volumeLayout_tiles (n : Nat) (cap : ℕ+) (plan : VolumePlan) {f : Nat}
    (hend : f + n ≤ 2 ^ 64) : Tiles cap f (f + n) (volumeLayout n cap plan f) := by
  have hshape : Tiles cap 0 n (match plan with
      | .Variable => variableVolumes n cap 0 ⟨1, one_pos⟩ []
      | .Even k => evenVolumes n cap k) := by
    cases plan with
    | Variable => exact variableVolumes_tiles n cap 0 1 [] rfl (Nat.zero_le n)
    | Even k => exact evenVolumes_tiles n cap k
  unfold volumeLayout
  dsimp only
  split
  · have hmoved := hshape.shift (f := f) (by omega)
    rwa [zero_add, add_comm n] at hmoved
  · obtain rfl : f = 0 := by omega
    rwa [zero_add]

/-- No two ranges of a tiling begin at one exponent. -/
theorem Tiles.nodup {a b : Nat} {out : List (Nat × Nat)} (h : Tiles cap a b out) :
    (out.map Prod.fst).Nodup ∧ ∀ v ∈ out, a ≤ v.1 ∧ v.1 + v.2 ≤ b ∧ 0 < v.2 := by
  induction out generalizing a with
  | nil => exact ⟨nodup_nil, by simp⟩
  | cons v vs ih =>
    obtain ⟨hfirst, hpos, -, hrest⟩ := h
    obtain ⟨hnodup, hin⟩ := ih hrest
    have hle := hrest.le
    refine ⟨nodup_cons.mpr ⟨fun hmem => ?_, hnodup⟩, fun w hw => ?_⟩
    · obtain ⟨w, hw, heq⟩ := mem_map.mp hmem
      have := (hin w hw).1
      omega
    · rcases mem_cons.mp hw with rfl | hw
      · exact ⟨hfirst.ge, by omega, hpos⟩
      · have := hin w hw
        exact ⟨by omega, this.2⟩

/-! ## The schedule -/

/-- What the first `i` slices are owed adds up to the running share. -/
theorem schedule_upto (count total i : Nat) :
    let s := (range i).foldl
      (fun (s : List Nat × Nat) i =>
        (s.1 ++ [(i + 1) * total / count - s.2], (i + 1) * total / count)) ([], 0)
    s.1.length = i ∧ s.2 = i * total / count ∧ s.1.sum = s.2 := by
  induction i with
  | zero => simp
  | succ i ih =>
    obtain ⟨hlen, hdone, hsum⟩ := ih
    simp only [range_succ, foldl_append, foldl_cons, foldl_nil]
    refine ⟨by simp [hlen], trivial, ?_⟩
    rw [sum_append, hsum, sum_singleton, hdone]
    exact Nat.add_sub_cancel' (Nat.div_le_div_right (Nat.mul_le_mul_right _ (Nat.le_succ i)))

theorem length_interleaveSchedule (count nCycle : Nat) :
    (interleaveSchedule count nCycle).length = count :=
  (schedule_upto count (min (count.size * nCycle) (2 ^ 64 - 1)) count).1

/-- The schedule hands out as many copies of the cycle as the count has bits. -/
theorem sum_interleaveSchedule {count nCycle : Nat} (hfit : count.size * nCycle < 2 ^ 64) :
    (interleaveSchedule count nCycle).sum = count.size * nCycle := by
  obtain ⟨-, hdone, hsum⟩ := schedule_upto count (min (count.size * nCycle) (2 ^ 64 - 1)) count
  refine hsum.trans (hdone.trans ?_)
  rw [min_eq_left (by omega)]
  rcases eq_zero_or_pos count with rfl | hpos
  · simp
  · exact Nat.mul_div_cancel_left _ hpos

end NzbFast.Par2
