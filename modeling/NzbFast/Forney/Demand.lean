import NzbFast.Gf.Additive
import NzbFast.Gf.Field

/-!
# The demand plan

`crates/nzbkit-base/src/par2repair/forney/whole/demand.rs`: the inverse transform
pruned to the rows that will be read. The plan walks the levels backward from the
wanted rows, keeps for each pair of rows the operation its demanded outputs need, and
joins neighbouring pairs with one operation into runs. What a level leaves agrees with
the full level on the rows demanded of it.
-/

namespace NzbFast.Forney

open Function Gf16 Gf
open List hiding not_lt

/-- A row of `w` words. -/
abbrev Row (w : Nat) := Fin w → Gf16

variable {w : Nat}

/-- `gf16::butterfly` on a pair of rows. -/
def butterfly (c : Gf16) (inverse : Bool) (u v : Row w) : Row w × Row w :=
  if c = 0 then (u, v + u)
  else if c = 1 then
    if inverse then
      let v := v + u
      (u + v, v)
    else
      let u := u + v
      (u, v + u)
  else if inverse then
    let v := v + u
    (u + c • v, v)
  else
    let u := u + c • v
    (u, v + u)

theorem butterfly_forward (c : Gf16) : @butterfly w c false = Gf.butterfly c := by
  funext u v
  unfold butterfly Gf.butterfly
  split
  case isTrue h => rw [h, zero_smul, add_zero, add_comm v]
  case isFalse =>
    split
    case isTrue h =>
      rw [h, one_smul, if_neg Bool.false_ne_true]
      dsimp only
      rw [add_comm v]
    case isFalse =>
      rw [if_neg Bool.false_ne_true]
      dsimp only
      rw [add_comm v]

theorem butterfly_inverse (c : Gf16) : @butterfly w c true = Gf.unbutterfly c := by
  funext u v
  unfold butterfly unbutterfly
  rw [add_comm u v]
  split
  case isTrue h => rw [h, zero_smul, add_zero]
  case isFalse =>
    split
    case isTrue h => rw [h, one_smul, if_pos rfl]
    case isFalse => rw [if_pos rfl]

namespace Demand

inductive Op where
  | xorHigh
  | copyLow
  | butterfly
  deriving DecidableEq

structure Run where
  start : Nat
  len : Nat
  op : Op

/-! ## The plan -/

/-- The operation of a pair, from what is demanded of it and the twiddle of its block. -/
def opFor (low high : Bool) (c : Gf16) : Option Op :=
  if low = false ∧ high = false ∨ low = true ∧ high = false ∧ c = 0 then none
  else if high = true ∧ c = 0 ∨ low = false ∧ high = true then some .xorHigh
  else if low = true ∧ high = false ∧ c = 1 then some .copyLow
  else some .butterfly

/-- Position `u`, the `j`-th of its block, joins the last run or starts one. -/
def push (runs : List Run) (u j : Nat) (op : Op) : List Run :=
  match runs.getLast? with
  | some last =>
    if j ≠ 0 ∧ last.start + last.len = u ∧ last.op = op then
      runs.dropLast ++ [{ last with len := last.len + 1 }]
    else runs ++ [⟨u, 1, op⟩]
  | none => runs ++ [⟨u, 1, op⟩]

/-- One pair: what it demands of the level before, and its operation. -/
def stagePair (half : Nat) (need : Nat → Bool) (c : Gf16) (base : Nat)
    (s : (Nat → Bool) × List Run) (j : Nat) : (Nat → Bool) × List Run :=
  let (prev, runs) := s
  let u := base + j
  let v := u + half
  let low := need u
  let high := need v
  let prev := update prev u (high || (low && c != 1))
  let prev := update prev v (high || (low && c != 0))
  (prev, match opFor low high c with
    | some op => push runs u j op
    | none => runs)

/-- One level: the demand it passes on and its runs. -/
def stage (n half : Nat) (tw : List Gf16) (need : Nat → Bool) : (Nat → Bool) × List Run :=
  (List.range ((n + 2 * half - 1) / (2 * half))).foldl (fun s b =>
    (List.range half).foldl (stagePair half need (tw.getD b 0) (b * (2 * half))) s)
    ((fun _ => false), [])

/-- The levels below `i`, the last of them first; `none` where everything is demanded. -/
def stages (n : Nat) (tw : List (List Gf16)) : Nat → (Nat → Bool) → List (Option (List Run))
  | 0, _ => []
  | i + 1, need =>
    if (List.range n).all need then List.replicate (i + 1) none
    else
      let (prev, runs) := stage n (1 <<< i) (tw.getD i []) need
      stages n tw i prev ++ [some runs]

/-- `Plan::new`. -/
def plan (n : Nat) (tw : List (List Gf16)) (count : Nat) : List (Option (List Run)) :=
  stages n tw tw.length fun r => decide (count - 1 ≤ r ∧ r < 2 * count - 1)

/-! ## Its application -/

def Op.apply (op : Op) (c : Gf16) (lo hi : Row w) : Row w × Row w :=
  match op with
  | .xorHigh => (lo, hi + lo)
  | .copyLow => (hi, hi)
  | .butterfly => Forney.butterfly c true lo hi

def Run.apply (half : Nat) (tw : List Gf16) (buf : Nat → Row w) (r : Run) : Nat → Row w :=
  let b := r.start / (2 * half)
  (List.range r.len).foldl (fun buf x =>
    let p := r.op.apply (tw.getD b 0) (buf (r.start + x)) (buf (r.start + half + x))
    update (update buf (r.start + x) p.1) (r.start + half + x) p.2) buf

/-- One level of `apply`. -/
def applyStage (n : Nat) (tw : List (List Gf16)) (buf : Nat → Row w)
    (x : Option (List Run) × Nat) : Nat → Row w :=
  let (stage, i) := x
  let half := 1 <<< i
  match stage with
  | some runs => runs.foldl (Run.apply half (tw.getD i [])) buf
  | none =>
    Gf.blocks n (2 * half) (fun b base =>
      Gf.pairs half base fun _ => Forney.butterfly ((tw.getD i []).getD b 0) true) buf

/-- `Plan::apply`. -/
def apply (n : Nat) (tw : List (List Gf16)) (plan : List (Option (List Run))) (buf : Nat → Row w) :
    Nat → Row w :=
  plan.zipIdx.foldl (applyStage n tw) buf

/-! ## Runs -/

def Run.Inside (half : Nat) (r : Run) : Prop :=
  0 < r.len ∧ ∃ b, b * (2 * half) ≤ r.start ∧ r.start + r.len ≤ b * (2 * half) + half

def applyAt (half : Nat) (c : Gf16) (op : Op) (u : Nat) (buf : Nat → Row w) : Nat → Row w :=
  let p := op.apply c (buf u) (buf (u + half))
  update (update buf u p.1) (u + half) p.2

theorem Run.apply_succ (half : Nat) (tw : List Gf16) (buf : Nat → Row w) (start len : Nat) (op : Op) :
    Run.apply half tw buf ⟨start, len + 1, op⟩ =
      applyAt half (tw.getD (start / (2 * half)) 0) op (start + len)
        (Run.apply half tw buf ⟨start, len, op⟩) := by
  unfold Run.apply applyAt
  rw [range_succ, foldl_append, foldl_cons, foldl_nil, add_right_comm]

theorem foldl_push {half base j b : Nat} (hj : j < half) (hbase : base = b * (2 * half)) (tw : List Gf16)
    (op : Op) {runs : List Run} (hruns : ∀ r ∈ runs, r.Inside half) (buf : Nat → Row w) :
    (push runs (base + j) j op).foldl (Run.apply half tw) buf =
        applyAt half (tw.getD b 0) op (base + j) (runs.foldl (Run.apply half tw) buf) ∧
      ∀ r ∈ push runs (base + j) j op, r.Inside half := by
  have hsize : 0 < 2 * half := by omega
  have hfresh : (runs ++ [Run.mk (base + j) 1 op]).foldl (Run.apply half tw) buf =
      applyAt half (tw.getD b 0) op (base + j) (runs.foldl (Run.apply half tw) buf) ∧
      ∀ r ∈ runs ++ [Run.mk (base + j) 1 op], r.Inside half := by
    have hdiv : (base + j) / (2 * half) = b := (div_eq_iff_mem hsize).mpr (by omega)
    refine ⟨?_, fun r hr => ?_⟩
    · rw [foldl_append, foldl_cons, foldl_nil, Run.apply_succ, hdiv, add_zero]
      rfl
    · rcases mem_append.mp hr with hr | hr
      · exact hruns r hr
      · rw [mem_singleton.mp hr]
        exact ⟨one_pos, b, by dsimp only; omega, by dsimp only; omega⟩
  unfold push
  split
  case h_2 => exact hfresh
  case h_1 last hlast =>
    split
    case isFalse => exact hfresh
    case isTrue hjoin =>
      obtain ⟨hj0, hend, rfl⟩ := hjoin
      obtain ⟨init, rfl⟩ := getLast?_eq_some_iff.mp hlast
      obtain ⟨hpos, b', hlow, hhigh⟩ := hruns last (by simp)
      -- the last run ends in this block, since this is not its first position
      have hb : b' = b := by
        have h1 : (base + j - 1) / (2 * half) = b := (div_eq_iff_mem hsize).mpr (by omega)
        have h2 : (base + j - 1) / (2 * half) = b' := (div_eq_iff_mem hsize).mpr (by omega)
        omega
      have hdiv : last.start / (2 * half) = b := (div_eq_iff_mem hsize).mpr (by rw [← hb]; omega)
      rw [dropLast_concat]
      refine ⟨?_, fun r hr => ?_⟩
      · rw [foldl_append, foldl_append, foldl_cons, foldl_nil, foldl_cons,
          foldl_nil, Run.apply_succ, hdiv, hend]
      · rcases mem_append.mp hr with hr | hr
        · exact hruns r (by simp [hr])
        · rw [mem_singleton.mp hr]
          exact ⟨Nat.succ_pos _, b, by dsimp only; rw [← hb]; omega, by dsimp only; omega⟩

def pairOp (half : Nat) (need : Nat → Bool) (c : Gf16) (base j : Nat) (lo hi : Row w) : Row w × Row w :=
  match opFor (need (base + j)) (need (base + j + half)) c with
  | some op => op.apply c lo hi
  | none => (lo, hi)

def pairNeed (half : Nat) (need : Nat → Bool) (c : Gf16) (base j : Nat) (_ _ : Bool) : Bool × Bool :=
  let low := need (base + j)
  let high := need (base + j + half)
  (high || (low && c != 1), high || (low && c != 0))

/-- The runs of one block, applied, are its pairs one after the other. -/
theorem foldl_stagePair {half base b : Nat} (hbase : base = b * (2 * half)) (tw : List Gf16)
    (need : Nat → Bool) (buf : Nat → Row w) {prev : Nat → Bool} {runs : List Run}
    (hruns : ∀ r ∈ runs, r.Inside half) :
    let s := (range half).foldl (stagePair half need (tw.getD b 0) base) (prev, runs)
    s.1 = pairs half base (pairNeed half need (tw.getD b 0) base) prev ∧
      (∀ r ∈ s.2, r.Inside half) ∧
      s.2.foldl (Run.apply half tw) buf = pairs half base (pairOp half need (tw.getD b 0) base)
        (runs.foldl (Run.apply half tw) buf) := by
  have hloop : ∀ m ≤ half,
      let s := (range m).foldl (stagePair half need (tw.getD b 0) base) (prev, runs)
      s.1 = (range m).foldl (fun a j =>
          let p := pairNeed half need (tw.getD b 0) base j (a (base + j)) (a (base + half + j))
          update (update a (base + j) p.1) (base + half + j) p.2) prev ∧
        (∀ r ∈ s.2, r.Inside half) ∧
        s.2.foldl (Run.apply half tw) buf = (range m).foldl (fun (a : Nat → Row w) j =>
          let p := pairOp half need (tw.getD b 0) base j (a (base + j)) (a (base + half + j))
          update (update a (base + j) p.1) (base + half + j) p.2)
            (runs.foldl (Run.apply half tw) buf) := by
    intro m
    induction m with
    | zero => exact fun _ => ⟨rfl, hruns, rfl⟩
    | succ m ih =>
      intro hm
      obtain ⟨hprev, hinside, happly⟩ := ih (by omega)
      rw [range_succ, foldl_append, foldl_append, foldl_append, foldl_cons,
        foldl_nil, foldl_cons, foldl_nil, foldl_cons, foldl_nil]
      generalize (range m).foldl (stagePair half need (tw.getD b 0) base) (prev, runs) = s at hprev hinside happly ⊢
      rw [← hprev, ← happly]
      unfold stagePair pairNeed pairOp
      dsimp only
      rw [add_right_comm base m half]
      refine ⟨rfl, ?_⟩
      cases opFor (need (base + m)) (need (base + half + m)) (tw.getD b 0) with
      | none =>
        refine ⟨hinside, ?_⟩
        rw [update_eq_self, update_eq_self]
      | some op =>
        obtain ⟨hfold, hin⟩ := foldl_push (j := m) (by omega) hbase tw op hinside buf
        refine ⟨hin, ?_⟩
        rw [hfold, applyAt, add_right_comm base m half]
  exact hloop half (le_refl half)

/-- The runs of a level, applied, are its pairs block by block. -/
theorem foldl_stage (n half : Nat) (tw : List Gf16) (need : Nat → Bool) (buf : Nat → Row w) :
    (stage n half tw need).1 = Gf.blocks n (2 * half)
        (fun b base => Gf.pairs half base (pairNeed half need (tw.getD b 0) base)) (fun _ => false) ∧
      (stage n half tw need).2.foldl (Run.apply half tw) buf = Gf.blocks n (2 * half)
        (fun b base => Gf.pairs half base (pairOp half need (tw.getD b 0) base)) buf := by
  unfold stage blocks
  generalize (n + 2 * half - 1) / (2 * half) = count
  have hloop : ∀ m,
      let s := (range m).foldl (fun s b =>
        (range half).foldl (stagePair half need (tw.getD b 0) (b * (2 * half))) s)
        ((fun _ => false), ([] : List Run))
      s.1 = (range m).foldl (fun a b => pairs half (b * (2 * half))
          (pairNeed half need (tw.getD b 0) (b * (2 * half))) a) (fun _ => false) ∧
        (∀ r ∈ s.2, r.Inside half) ∧
        s.2.foldl (Run.apply half tw) buf = (range m).foldl (fun a b =>
          pairs half (b * (2 * half)) (pairOp half need (tw.getD b 0) (b * (2 * half))) a) buf := by
    intro m
    induction m with
    | zero => exact ⟨rfl, fun _ hr => (by cases hr), rfl⟩
    | succ m ih =>
      obtain ⟨hprev, hinside, happly⟩ := ih
      rw [range_succ, foldl_append, foldl_append, foldl_append, foldl_cons,
        foldl_nil, foldl_cons, foldl_nil, foldl_cons, foldl_nil]
      obtain ⟨hprev', hinside', happly'⟩ := foldl_stagePair (b := m) rfl tw need buf hinside
      exact ⟨by rw [hprev', hprev], hinside', by rw [happly', happly]⟩
  exact ⟨(hloop count).1, (hloop count).2.2⟩

/-! ## Agreement on what is demanded -/

/-- One pair: the outputs demanded of it need no more than it demands of its inputs. -/
theorem pairOp_agrees (half : Nat) (need : Nat → Bool) (c : Gf16) (base j : Nat) {lo hi lo' hi' : Row w}
    (hlo : (pairNeed half need c base j false false).1 = true → lo = lo')
    (hhi : (pairNeed half need c base j false false).2 = true → hi = hi') :
    (need (base + j) = true →
      (pairOp half need c base j lo hi).1 = (Gf.unbutterfly c lo' hi').1) ∧
    (need (base + j + half) = true →
      (pairOp half need c base j lo hi).2 = (Gf.unbutterfly c lo' hi').2) := by
  have hzero : (unbutterfly (0 : Gf16) lo' hi').1 = lo' := by
    rw [unbutterfly, zero_smul, add_zero]
  have hone : (unbutterfly (1 : Gf16) lo' hi').1 = hi' := by
    rw [unbutterfly, one_smul, ← add_assoc, add_self Gf16, zero_add]
  unfold pairNeed at hlo hhi
  unfold pairOp opFor
  cases hlow : need (base + j) <;> cases hhigh : need (base + j + half)
  · exact ⟨fun h => absurd h Bool.false_ne_true, fun h => absurd h Bool.false_ne_true⟩
  · -- only the high output
    rw [hlow, hhigh] at hlo hhi
    refine ⟨fun h => absurd h Bool.false_ne_true, fun _ => ?_⟩
    rw [if_neg (by simp), if_pos (by simp), hlo rfl, hhi rfl]
    exact add_comm _ _
  · -- only the low output
    rw [hlow, hhigh] at hlo hhi
    refine ⟨fun _ => ?_, fun h => absurd h Bool.false_ne_true⟩
    by_cases h0 : c = 0
    · rw [if_pos (by simp [h0]), h0, hzero]
      exact hlo (by rw [h0]; rfl)
    · by_cases h1 : c = 1
      · rw [if_neg (by simp [h0]), if_neg (by simp), if_pos (by simp [h1]), h1, hone]
        exact hhi (by rw [h1]; rfl)
      · rw [if_neg (by simp [h0]), if_neg (by simp), if_neg (by simp [h1]), hlo (by simp [h1]),
          hhi (by simp [h0])]
        exact congrArg Prod.fst (congrFun₂ (butterfly_inverse c) lo' hi')
  · -- both outputs
    rw [hlow, hhigh] at hlo hhi
    rw [hlo rfl, hhi rfl]
    by_cases h0 : c = 0
    · rw [if_neg (by simp), if_pos (by simp [h0]), h0]
      exact ⟨fun _ => hzero.symm, fun _ => add_comm _ _⟩
    · rw [if_neg (by simp), if_neg (by simp [h0]), if_neg (by simp)]
      exact ⟨fun _ => congrArg Prod.fst (congrFun₂ (butterfly_inverse c) lo' hi'),
        fun _ => congrArg Prod.snd (congrFun₂ (butterfly_inverse c) lo' hi')⟩

theorem stage_agrees {k i : Nat} (hi : i < k) (tw : List Gf16) (need : Nat → Bool) {a a' : Nat → Row w}
    (h : ∀ r < 2 ^ k, (stage (2 ^ k) (2 ^ i) tw need).1 r = true → a r = a' r) :
    ∀ r < 2 ^ k, need r = true →
      (stage (2 ^ k) (2 ^ i) tw need).2.foldl (Run.apply (2 ^ i) tw) a r =
        Gf.uncombineLevel (2 ^ k) i (tw.getD · 0) a' r := by
  intro r hr hneed
  have hsize : 0 < 2 * 2 ^ i := mul_pos (by decide) (Nat.two_pow_pos i)
  have hcount := block_count hi
  rw [(foldl_stage (2 ^ k) (2 ^ i) tw need a).2]
  have hprev : ∀ r < 2 ^ k, pairs (2 ^ i) (r / (2 * 2 ^ i) * (2 * 2 ^ i))
      (pairNeed (2 ^ i) need (tw.getD (r / (2 * 2 ^ i)) 0) (r / (2 * 2 ^ i) * (2 * 2 ^ i)))
      (fun _ => false) r = true → a r = a' r := fun r hr hp => h r hr (by
    rw [(foldl_stage (w := w) (2 ^ k) (2 ^ i) tw need a).1,
      blocks_apply hsize hcount (fun _ _ => local_pairs _), if_pos hr, hp])
  rw [uncombineLevel, blocks_apply hsize hcount fun _ _ => local_pairs _,
    blocks_apply hsize hcount fun _ _ => local_pairs _, if_pos hr, if_pos hr]
  obtain ⟨hlow, hhigh⟩ := (div_eq_iff_mem hsize).mp (Eq.refl (r / (2 * 2 ^ i)))
  have hblock : r / (2 * 2 ^ i) * (2 * 2 ^ i) + 2 * 2 ^ i ≤ 2 ^ k := by
    have hlt : r / (2 * 2 ^ i) < 2 ^ (k - i - 1) := by
      rwa [Nat.div_lt_iff_lt_mul hsize, ← hcount]
    calc r / (2 * 2 ^ i) * (2 * 2 ^ i) + 2 * 2 ^ i = (r / (2 * 2 ^ i) + 1) * (2 * 2 ^ i) := by ring
      _ ≤ 2 ^ (k - i - 1) * (2 * 2 ^ i) := Nat.mul_le_mul_right _ hlt
      _ = 2 ^ k := hcount.symm
  have hdiv : ∀ t < 2 * 2 ^ i, (r / (2 * 2 ^ i) * (2 * 2 ^ i) + t) / (2 * 2 ^ i) = r / (2 * 2 ^ i) :=
    fun t ht => (div_eq_iff_mem hsize).mpr ⟨Nat.le_add_right _ _, by omega⟩
  generalize r / (2 * 2 ^ i) = b at hlow hhigh hblock hdiv ⊢
  obtain ⟨t, rfl⟩ := Nat.exists_eq_add_of_le hlow
  have hpair : ∀ j < 2 ^ i,
      (need (b * (2 * 2 ^ i) + j) = true →
        (pairOp (2 ^ i) need (tw.getD b 0) (b * (2 * 2 ^ i)) j (a (b * (2 * 2 ^ i) + j))
          (a (b * (2 * 2 ^ i) + 2 ^ i + j))).1 =
        (unbutterfly (tw.getD b 0) (a' (b * (2 * 2 ^ i) + j)) (a' (b * (2 * 2 ^ i) + 2 ^ i + j))).1) ∧
      (need (b * (2 * 2 ^ i) + j + 2 ^ i) = true →
        (pairOp (2 ^ i) need (tw.getD b 0) (b * (2 * 2 ^ i)) j (a (b * (2 * 2 ^ i) + j))
          (a (b * (2 * 2 ^ i) + 2 ^ i + j))).2 =
        (unbutterfly (tw.getD b 0) (a' (b * (2 * 2 ^ i) + j)) (a' (b * (2 * 2 ^ i) + 2 ^ i + j))).2) := by
    intro j hj
    refine pairOp_agrees _ _ _ _ _ (fun hp => hprev _ (by omega) ?_) (fun hp => hprev _ (by omega) ?_)
    · rw [hdiv j (by omega), pairs_low _ _ hj]
      exact hp
    · rw [add_assoc, hdiv (2 ^ i + j) (by omega), ← add_assoc, pairs_high _ _ hj]
      exact hp
  by_cases ht : t < 2 ^ i
  · rw [pairs_low _ _ ht, pairs_low _ _ ht]
    exact (hpair t ht).1 hneed
  · obtain ⟨j, rfl⟩ := Nat.exists_eq_add_of_le (not_lt.mp ht)
    rw [← add_assoc, pairs_high _ _ (by omega), pairs_high _ _ (by omega)]
    refine (hpair j (by omega)).2 ?_
    rwa [add_right_comm, add_assoc]

theorem length_stages (n : Nat) (tw : List (List Gf16)) : ∀ i need, (stages n tw i need).length = i
  | 0, _ => rfl
  | i + 1, need => by
    unfold stages
    split
    · exact length_replicate
    · rw [length_append, length_stages n tw i]
      rfl

theorem applyStage_some (n : Nat) (tw : List (List Gf16)) (a : Nat → Row w) (i : Nat) (runs : List Run) :
    applyStage n tw a (some runs, i) = runs.foldl (Run.apply (2 ^ i) (tw.getD i [])) a := by
  rw [← Nat.one_shiftLeft]
  rfl

/-- Levels left whole are the full ones. -/
theorem applyStage_none (n : Nat) (tw : List (List Gf16)) (a : Nat → Row w) (i : Nat) :
    applyStage n tw a (none, i) =
      Gf.uncombineLevel n i (fun b => (tw.getD i []).getD b 0) a := by
  unfold applyStage uncombineLevel
  simp only [Nat.one_shiftLeft, butterfly_inverse]

theorem apply_replicate (n : Nat) (tw : List (List Gf16)) (a : Nat → Row w) (i : Nat) :
    apply n tw (List.replicate i none) a =
      (List.range i).foldl (fun a i => Gf.uncombineLevel n i (fun b => (tw.getD i []).getD b 0) a) a := by
  induction i with
  | zero => rfl
  | succ i ih =>
    rw [replicate_succ', apply, zipIdx_append, foldl_append, length_replicate,
      range_succ, foldl_append, ← ih, zipIdx_singleton, foldl_cons, foldl_nil,
      foldl_cons, foldl_nil, zero_add, applyStage_none]
    rfl

theorem stages_agree {k : Nat} (tw : List (List Gf16)) (a : Nat → Row w) : ∀ i ≤ k, ∀ need,
    ∀ r < 2 ^ k, need r = true → apply (2 ^ k) tw (stages (2 ^ k) tw i need) a r =
      (List.range i).foldl
        (fun a i => Gf.uncombineLevel (2 ^ k) i (fun b => (tw.getD i []).getD b 0) a) a r := by
  intro i
  induction i with
  | zero => exact fun _ _ _ _ _ => rfl
  | succ i ih =>
    intro hi need r hr hneed
    unfold stages
    split
    case isTrue => rw [apply_replicate]
    case isFalse =>
      rw [apply, zipIdx_append, foldl_append, length_stages, range_succ,
        foldl_append, zipIdx_singleton, foldl_cons, foldl_nil, foldl_cons,
        foldl_nil, zero_add, applyStage_some, Nat.one_shiftLeft]
      exact stage_agrees hi (tw.getD i []) need (fun r hr hp => ih (by omega) _ r hr hp) r hr hneed

end Demand

end NzbFast.Forney
