import NzbFast.Forney.Demand
import NzbFast.Forney.Product

/-!
# The whole kernel

`crates/nzbkit-base/src/par2repair/forney/whole.rs`: the product of a block of rows with
one fixed polynomial through the additive transform. The forward pass keeps a live map
and skips rows still zero, the inverse is full or pruned by the demand plan, and the
conversion back to monomials is clipped to the wanted band.
-/

namespace NzbFast.Forney

open Function Gf16 Gf List

variable {w : Nat}

/-! ## The kernel -/

/-- The module's own copy of the Cantor basis. -/
def CANTOR : List Gf16 :=
  [1, 350, 26, 7410, 5786, 48044, 64994, 18058, 1810, 7030, 44396, 17984, 42910, 62132, 63354,
    32738].map ofNat

/-- The level's subspace polynomial at `x`, by the loop of `linear`. -/
def linEval (terms : List Nat) (lead : Nat) (x : Gf16) : Gf16 := linear terms lead x

/-- One round of `terms`: the level's set, and the squared polynomial of the next level. -/
def termsStep (s : (Nat → Gf16) × List (List Nat)) (i : Nat) :
    Option ((Nat → Gf16) × List (List Nat)) :=
  let (coeff, out) := s
  let v := CANTOR.getD i 0
  let ts := (List.range i).filter fun j => coeff j = 1
  if (i = 0 ∨ Gf16.mul v v + v = CANTOR.getD (i - 1) 0) ∧
      ((List.range (i + 1)).all fun j => (coeff j).bits.toNat ≤ 1) ∧ coeff i = 1 ∧
      linEval ts i v = 1 then
    some ((List.range (i + 1)).foldl (fun next j =>
      let c := coeff j
      let next := update next (j + 1) (next (j + 1) + Gf16.mul c c)
      update next j (next j + c)) (fun _ => 0), out ++ [ts])
  else none

def terms (levels : Nat) : Option (List (List Nat)) :=
  if ¬ (1 ≤ levels ∧ levels ≤ 16) then none
  else ((List.range levels).foldlM termsStep (update (fun _ => 0) 0 1, [])).map (·.2)

def twiddle (terms : List (List Nat)) (levels i b : Nat) : Gf16 :=
  linEval (terms.getD i []) i (((CANTOR.zipIdx.take levels).drop (i + 1)).foldl (fun beta x =>
    let (v, t) := x
    if (b >>> (t - i - 1)) &&& 1 ≠ 0 then beta + v else beta) 0)

def scalarConvert (terms : List (List Nat)) (a : Nat → Gf16) (len levels : Nat) : Nat → Gf16 :=
  (List.range levels).reverse.foldl (fun a i =>
    let half := 1 <<< i
    Gf.blocks len (2 * half) (fun _ base a =>
      (List.range' half half).reverse.foldl (fun a t =>
        let q := a (base + t)
        (terms.getD i []).foldl (fun a j =>
          update a (base + t - half + 1 <<< j) (a (base + t - half + 1 <<< j) + q)) a) a) a) a

structure Kernel where
  n : Nat
  levels : Nat
  terms : List (List Nat)
  tw : List (List Gf16)
  bhat : List Gf16
  demand : List (Option (List Demand.Run))

/-- `Kernel::new`; nothing when an assertion fails. -/
def Kernel.new (b : List Gf16) : Option Kernel :=
  if b.isEmpty || 32768 < b.length then none
  else
    let n := sizeOf (2 * b.length - 1)
    let levels := trailingZeros n
    (Forney.terms levels).map fun terms =>
      let tw := (List.range levels).map fun i =>
        (List.range (n >>> (i + 1))).map fun b => twiddle terms levels i b
      let a := scalarConvert terms (b.getD · 0) n levels
      let a := (List.range levels).reverse.foldl (fun a i =>
        let half := 1 <<< i
        Gf.blocks n (2 * half) (fun b base a =>
          let c := (tw.getD i []).getD b 0
          (List.range half).foldl (fun a j =>
            let v := a (base + half + j)
            let u := a (base + j) + Gf16.mul c v
            update (update a (base + j) u) (base + half + j) (u + v)) a) a) a
      { n, levels, terms, tw
        bhat := (List.range n).map a
        demand := Demand.plan n tw b.length }

/-! ## The product -/

/-- `gf16::scale`. -/
def scale (c : Gf16) (row : Row w) : Row w := if c = 1 then row else if c = 0 then 0 else c • row

def forwardRows (k : Kernel) (buf : Nat → Row w) (live : Nat → Bool) : (Nat → Row w) × (Nat → Bool) :=
  let halfn := k.n / 2
  (List.range (k.levels - 1)).reverse.foldl (fun s i =>
    let half := 1 <<< i
    let blk := 2 * half
    (List.range ((halfn + blk - 1) / blk)).foldl (fun s b =>
      let base := b * blk
      (List.range' half half).reverse.foldl (fun s t =>
        let (buf, live) := s
        let src := base + t
        if !live src then (buf, live)
        else
          (k.terms.getD i []).foldl (fun s j =>
            let (buf, live) := s
            let dst := base + t - half + 1 <<< j
            (update buf dst (buf dst + buf src), update live dst true)) (buf, live)) s) s) (buf, live)

def backwardBand (k : Kernel) (buf : Nat → Row w) (lower upper : Nat) : Nat → Row w :=
  (List.range k.levels).foldl (fun buf i =>
    let half := 1 <<< i
    let blk := 2 * half
    match (k.terms.getD i []).getLast? with
    | none => buf
    | some last =>
      (List.range (upper / blk + 1)).foldl (fun buf b =>
        let base := b * blk
        let start := max half (lower + half - (base + 1 <<< last))
        let stop := min blk (upper + 1 - base)
        (List.range' start (stop - start)).foldl (fun buf t =>
          (k.terms.getD i []).foldl (fun buf j =>
            let dst := base + t - half + 1 <<< j
            if lower ≤ dst then update buf dst (buf dst + buf (base + t)) else buf) buf) buf) buf) buf

def inverseFull (k : Kernel) (buf : Nat → Row w) : Nat → Row w :=
  (List.range k.levels).foldl (fun buf i =>
    let half := 1 <<< i
    Gf.blocks k.n (2 * half) (fun b base =>
      Gf.pairs half base fun _ => butterfly ((k.tw.getD i []).getD b 0) true) buf) buf

/-- `linear_impl` on `k.n` rows of `w` words, where `available` is `scale_available()`; nothing
when an assertion fails. -/
def linearImpl (available : Bool) (k : Kernel) (buf : Nat → Row w) (count : Nat) (demand : Bool) :
    Option (Nat → Row w) :=
  if ¬ (0 < w ∧ 16 ∣ w ∧ count ≤ k.n / 2 ∧ 0 < count ∧ available) then none
  else
    let halfn := k.n / 2
    let buf := (forwardRows k buf fun r => decide (r < count)).1
    -- `hi.copy_from_slice(lo)`
    let buf := fun r => if halfn ≤ r ∧ r < k.n then buf (r - halfn) else buf r
    let buf := (List.range (k.levels - 1)).reverse.foldl (fun buf i =>
      let half := 1 <<< i
      Gf.blocks k.n (2 * half) (fun b base =>
        Gf.pairs half base fun _ => butterfly ((k.tw.getD i []).getD b 0) false) buf) buf
    let buf := fun r => if r < k.n then scale (k.bhat.getD r 0) (buf r) else buf r
    let buf := if demand then Demand.apply k.n k.tw k.demand buf else inverseFull k buf
    some (backwardBand k buf (count - 1) (2 * count - 2))

/-! ## The kernel's parts -/

theorem foldl_square (coeff : Nat → Gf16) (m k : Nat) :
    (List.range m).foldl (fun next j =>
      let c := coeff j
      let next := update next (j + 1) (next (j + 1) + Gf16.mul c c)
      update next j (next j + c)) (fun _ => 0) k =
    (if 1 ≤ k ∧ k ≤ m then coeff (k - 1) * coeff (k - 1) else 0) + if k < m then coeff k else 0 := by
  induction m generalizing k with
  | zero => rw [if_neg (by omega), if_neg (Nat.not_lt_zero k), add_zero]; rfl
  | succ m ih =>
    rw [range_succ, foldl_append, foldl_cons, foldl_nil]
    rw [← mul_eq]
    by_cases hm : k = m
    · rw [hm, update_self, update_of_ne (by omega), ih, if_neg (lt_irrefl m), add_zero,
        if_pos (Nat.lt_succ_self m)]
      congr 1
      exact if_congr (by omega) rfl rfl
    · rw [update_of_ne hm]
      by_cases hm' : k = m + 1
      · rw [hm', update_self, ih, if_neg (by omega), if_neg (by omega), if_pos (by omega),
          if_neg (by omega), zero_add, zero_add, add_zero, Nat.add_sub_cancel]
      · rw [update_of_ne hm', ih]
        congr 1
        · exact if_congr (by omega) rfl rfl
        · exact if_congr (by omega) rfl rfl

theorem cast_le_one (n : Nat) : ((n : Gf16)).bits.toNat ≤ 1 := by
  rcases CharTwo.natCast_cases (R := Gf16) n with h | h <;> rw [h] <;> decide

variable {i : Nat}

/-- A round of `terms` from the binomial coefficients of a level. -/
theorem termsStep_eq (hi : i < 16) (out : List (List Nat)) :
    termsStep (fun j => (i.choose j : Gf16), out) i =
      some (fun j => ((i + 1).choose j : Gf16), out ++ [submasks i]) := by
  have hts : (range i).filter (fun j => (i.choose j : Gf16) = 1) = submasks i := by
    refine filter_congr fun j hj => ?_
    rw [choose_cast hi (mem_range.mp hj)]
    by_cases h : j &&& i = j
    · simp [h]
    · simp [h]
  have hstep : i = 0 ∨ Gf16.mul (CANTOR.getD i 0) (CANTOR.getD i 0) + CANTOR.getD i 0 =
      CANTOR.getD (i - 1) 0 := by
    cases i with
    | zero => exact .inl rfl
    | succ i => exact .inr (cantor_step i (by omega))
  have hone : linEval (submasks i) i (CANTOR.getD i 0) = 1 := by
    rw [linEval, linear_submasks hi]
    exact (cantor (le_refl 16)).subspace_self hi
  unfold termsStep
  dsimp only
  rw [hts, if_pos ⟨hstep, all_eq_true.mpr fun j _ => decide_eq_true (cast_le_one _),
    by rw [Nat.choose_self, Nat.cast_one], hone⟩]
  refine congrArg (fun f => some (f, out ++ [submasks i])) (funext fun k => ?_)
  rw [foldl_square]
  cases k with
  | zero =>
    rw [if_neg (by omega), if_pos (Nat.succ_pos i), zero_add, Nat.choose_zero_right,
      Nat.choose_zero_right]
  | succ k =>
    rw [Nat.add_sub_cancel, cast_mul_self, Nat.choose_succ_succ, Nat.cast_add]
    congr 1
    · split
      · rfl
      · rw [Nat.choose_eq_zero_of_lt (by omega), Nat.cast_zero]
    · split
      · rfl
      · rw [Nat.choose_eq_zero_of_lt (by omega), Nat.cast_zero]

theorem terms_eq {levels : Nat} (hpos : 1 ≤ levels) (hle : levels ≤ 16) :
    terms levels = some ((List.range levels).map submasks) := by
  have hloop : ∀ m ≤ 16, (range m).foldlM termsStep (update (fun _ => 0) 0 1, []) =
      some (fun j => (m.choose j : Gf16), (range m).map submasks) := by
    intro m
    induction m with
    | zero =>
      intro _
      refine congrArg (fun f => some (f, [])) (funext fun j => ?_)
      cases j with
      | zero => rw [update_self, Nat.choose_self, Nat.cast_one]
      | succ j => rw [update_of_ne (Nat.succ_ne_zero j), Nat.choose_zero_succ, Nat.cast_zero]
    | succ m ih =>
      intro hm
      rw [range_succ, foldlM_append, ih (by omega), Option.bind_eq_bind, Option.bind_some,
        foldlM_cons, termsStep_eq (by omega), map_append]
      rfl
  unfold terms
  rw [if_neg (not_not.mpr ⟨hpos, hle⟩), hloop levels hle]
  rfl

/-- What a kernel for `b` holds, its size being `2 ^ k`. -/
structure Kernel.For (K : Kernel) (b : List Gf16) (k : Nat) : Prop where
  pos : 1 ≤ k
  le : k ≤ 16
  half : b.length ≤ 2 ^ (k - 1)
  n : K.n = 2 ^ k
  levels : K.levels = k
  terms : ∀ i < k, K.terms.getD i [] = submasks i
  length_tw : K.tw.length = k
  tw : ∀ i < k, ∀ b < 2 ^ (k - i - 1), (K.tw.getD i []).getD b 0 =
    Gf.subspace i (Gf.point (C.getD · 0) k (b * (2 * 2 ^ i)))
  bhat : ∀ p < 2 ^ k, K.bhat.getD p 0 = (Gf.ofCoeffs b).eval (domain p)
  demand : K.demand = Demand.plan (2 ^ k) K.tw b.length

theorem getD_map_range {α : Type} (f : Nat → α) (d : α) {n : Nat} (hi : i < n) :
    ((List.range n).map f).getD i d = f i := by
  rw [getD_eq_getElem?_getD, getElem?_map, getElem?_range hi]
  rfl

theorem twiddle_eq {k b : Nat} (hk : k ≤ 16) (hi : i < k) :
    twiddle ((List.range k).map submasks) k i b =
      Gf.subspace i (Gf.point (C.getD · 0) k (b * (2 * 2 ^ i))) := by
  show linear (((range k).map submasks).getD i []) i (Transform.beta k i b) = _
  rw [getD_map_range _ _ hi, linear_submasks (by omega), Transform.beta_eq hk hi]

theorem Kernel.new_eq {b : List Gf16} (hpos : 1 ≤ b.length) (hle : b.length ≤ 32768) :
    ∃ K k, Kernel.new b = some K ∧ K.For b k := by
  have hsize : 2 * b.length - 1 ≤ 2 ^ max (Nat.clog 2 (2 * b.length - 1)) 1 :=
    (Nat.le_pow_clog (by decide) _).trans (Nat.pow_le_pow_right (by decide) (le_max_left _ _))
  have hk : max (Nat.clog 2 (2 * b.length - 1)) 1 ≤ 16 :=
    Nat.max_le.mpr ⟨Nat.clog_le_of_le_pow (by omega), by decide⟩
  have hpos' : 1 ≤ max (Nat.clog 2 (2 * b.length - 1)) 1 := le_max_right _ _
  have hempty : (b.isEmpty || decide (32768 < b.length)) = false := by
    rw [Bool.or_eq_false_iff, isEmpty_eq_false_iff, decide_eq_false_iff_not]
    exact ⟨length_pos_iff.mp hpos, by omega⟩
  unfold Kernel.new
  rw [hempty, if_neg Bool.false_ne_true]
  dsimp only
  rw [trailingZeros_sizeOf, sizeOf_eq]
  generalize max (Nat.clog 2 (2 * b.length - 1)) 1 = k at hsize hk hpos' ⊢
  have hhalf : 2 ^ k = 2 * 2 ^ (k - 1) := by
    rw [← pow_succ']
    congr 1
    omega
  rw [terms_eq hpos' hk, Option.map_some]
  refine ⟨_, k, rfl, ?_⟩
  have hterms : ∀ i < k, ((range k).map submasks).getD i [] = submasks i := fun i hi =>
    getD_map_range _ _ hi
  have htw : ∀ i < k, ∀ b < 2 ^ (k - i - 1),
      (((range k).map fun i => (range (2 ^ k >>> (i + 1))).map fun b =>
        twiddle ((range k).map submasks) k i b).getD i []).getD b 0 =
        subspace i (point (C.getD · 0) k (b * (2 * 2 ^ i))) := by
    intro i hi b hb
    have hcount : 2 ^ k >>> (i + 1) = 2 ^ (k - i - 1) := by
      rw [Nat.shiftRight_eq_div_pow, Nat.pow_div (by omega) (by decide), Nat.sub_add_eq]
    rw [getD_map_range _ _ hi, hcount, getD_map_range _ _ hb, twiddle_eq hk hi]
  refine ⟨hpos', hk, by omega, rfl, rfl, hterms, by rw [length_map, length_range], htw,
    fun p hp => ?_, rfl⟩
  rw [getD_map_range _ _ hp]
  have hforward := forward_apply (cantor hk) hp
    (fun i hi => hterms i hi ▸ terms_submasks (by omega)) htw (b.getD · 0)
  have hvalue : value k (b.getD · 0) 0 (point (C.getD · 0) k p) =
      (ofCoeffs b).eval (domain p) := by
    rw [eval_ofCoeffs (n := 2 ^ k) (by omega), domain, point_levels hk hp, value]
    exact Finset.sum_congr rfl fun t _ => by rw [smul_eq_mul, mul_comm, zero_add]
  rw [← hvalue, ← hforward]
  unfold scalarConvert forward divideLevel combineLevel divide spread pairs
    Gf.butterfly
  simp only [Nat.one_shiftLeft, smul_eq_mul, mul_eq]

/-! ## The live map -/

/-- A fold whose first component follows another fold under an invariant. -/
theorem foldl_follows {α β ι : Type} (Inv : α × β → Prop) {f : α × β → ι → α × β} {g : α → ι → α}
    {l : List ι} (h : ∀ s, Inv s → ∀ x ∈ l, (f s x).1 = g s.1 x ∧ Inv (f s x)) {s : α × β}
    (hs : Inv s) : (l.foldl f s).1 = l.foldl g s.1 ∧ Inv (l.foldl f s) := by
  induction l generalizing s with
  | nil => exact ⟨rfl, hs⟩
  | cons x l ih =>
    obtain ⟨hfst, hinv⟩ := h s hs x (.head _)
    obtain ⟨hfst', hinv'⟩ := ih (fun s hs y hy => h s hs y (mem_cons_of_mem x hy)) hinv
    exact ⟨by rw [foldl_cons, hfst', hfst, foldl_cons], hinv'⟩

def Dead (s : (Nat → Row w) × (Nat → Bool)) : Prop := ∀ r, s.2 r = false → s.1 r = 0

/-- The row that is spread stays as it is, so it may be read again for each target. -/
theorem foldl_live {ts : List Nat} {idx : Nat → Nat} {src : Nat} (hsrc : ∀ j ∈ ts, idx j ≠ src)
    (s : (Nat → Row w) × (Nat → Bool)) (hdead : Dead s) :
    (ts.foldl (fun s j =>
      let (buf, live) := s
      (update buf (idx j) (buf (idx j) + buf src), update live (idx j) true)) s).1 =
        ts.foldl (fun a j => update a (idx j) (a (idx j) + s.1 src)) s.1 ∧
      Dead (ts.foldl (fun s j =>
        let (buf, live) := s
        (update buf (idx j) (buf (idx j) + buf src), update live (idx j) true)) s) := by
  have hfollow := foldl_follows (fun t : (Nat → Row w) × (Nat → Bool) => Dead t ∧ t.1 src = s.1 src)
    (g := fun a j => update a (idx j) (a (idx j) + s.1 src)) (l := ts)
    (f := fun s j =>
      let (buf, live) := s
      (update buf (idx j) (buf (idx j) + buf src), update live (idx j) true))
    (fun t ht j hj => by
      refine ⟨?_, fun r hr => ?_, ?_⟩
      · dsimp only at ht ⊢
        rw [ht.2]
      · dsimp only at hr ⊢
        by_cases h : r = idx j
        · rw [h, update_self] at hr
          cases hr
        · rw [update_of_ne h] at hr ⊢
          exact ht.1 r hr
      · dsimp only at ht ⊢
        rw [update_of_ne (hsrc j hj).symm, ht.2])
    ⟨hdead, rfl⟩
  exact ⟨hfollow.1, hfollow.2.1⟩

/-- The live map skips only what would add zeros. -/
theorem forwardRows_eq {K : Kernel} {b : List Gf16} {k : Nat} (hK : K.For b k) (buf : Nat → Row w)
    (live : Nat → Bool) (hdead : Dead (buf, live)) :
    (forwardRows K buf live).1 = (List.range (k - 1)).reverse.foldl
      (fun a i => Gf.divideLevel (2 ^ (k - 1)) i (submasks i) a) buf := by
  have hhalfn : K.n / 2 = 2 ^ (k - 1) := by
    have hpow : 2 ^ k = 2 ^ (k - 1) * 2 := by
      rw [← pow_succ]
      congr 1
      have := hK.pos
      omega
    rw [hK.n, hpow, Nat.mul_div_cancel _ (by decide)]
  unfold forwardRows
  rw [hhalfn, hK.levels]
  refine (foldl_follows Dead (fun s hs i hi => ?_) hdead).1
  have hik : i < k := by
    have := mem_range.mp (mem_reverse.mp hi)
    omega
  rw [hK.terms i hik, Nat.one_shiftLeft]
  refine foldl_follows Dead (fun s hs b _ => ?_) hs
  refine foldl_follows Dead (fun s hs t ht => ?_) hs
  obtain ⟨buf, live⟩ := s
  rw [mem_reverse, mem_range'_1] at ht
  have hi16 : i < 16 := hik.trans_le hK.le
  have htarget : ∀ j ∈ submasks i, _ ∧ _ < b * (2 * 2 ^ i) + t :=
    target_lt (terms_submasks hi16).lt ht.1
  dsimp only
  by_cases hlive : live (b * (2 * 2 ^ i) + t) = true
  · rw [if_neg (by simp [hlive])]
    exact foldl_live (fun j hj => (htarget j hj).2.ne) (buf, live) hs
  · rw [if_pos (by simpa using hlive)]
    refine ⟨funext fun r => ?_, hs⟩
    have hzero : buf (b * (2 * 2 ^ i) + t) = 0 := hs _ (Bool.eq_false_of_not_eq_true hlive)
    rw [spread_apply, hzero]
    simp

/-! ## The band -/

/-- The two arrays agree on the band, and the first is zero above it. -/
structure Band (lower upper : Nat) (full clipped : Nat → Row w) : Prop where
  agree : ∀ r, lower ≤ r → r ≤ upper → full r = clipped r
  zero : ∀ r, upper < r → full r = 0

def clippedSpread (lower : Nat) (ts : List Nat) (half base t : Nat) (buf : Nat → Row w) : Nat → Row w :=
  ts.foldl (fun buf j =>
    let dst := base + t - half + 1 <<< j
    if lower ≤ dst then update buf dst (buf dst + buf (base + t)) else buf) buf

section Band

variable {lower upper : Nat} {full clipped : Nat → Row w}

variable {base half : Nat} {ts : List Nat}

theorem Band.above (h : Band lower upper full clipped) {t : Nat} (ht : upper < base + t) :
    Gf.spread ts half base t full = full := by
  funext r
  rw [spread_apply, h.zero _ ht]
  simp

/-- A source row whose targets lie below the band. -/
theorem Band.below (h : Band lower upper full clipped) (hband : lower ≤ upper + 1) {t : Nat}
    (ht : ∀ j ∈ ts, base + t - half + 1 <<< j < lower) :
    Band lower upper (Gf.spread ts half base t full) clipped where
  agree r hr hr' := by
    rw [spread_of_ne full fun j hj => (lt_of_lt_of_le (ht j hj) hr).ne]
    exact h.agree r hr hr'
  zero r hr := by
    rw [spread_of_ne full fun j hj => by have := ht j hj; omega]
    exact h.zero r hr

/-- A source row that both conversions spread. -/
theorem Band.both (h : Band lower upper full clipped) {ts : List Nat} {half base t : Nat}
    (ht : base + t ≤ upper) (hts : ∀ j ∈ ts, base + t - half + 1 <<< j < base + t) :
    Band lower upper (Gf.spread ts half base t full) (clippedSpread lower ts half base t clipped) := by
  have hloop : ∀ (q : Row w) (ts : List Nat) (full clipped : Nat → Row w),
      (∀ j ∈ ts, base + t - half + 1 <<< j < base + t) → Band lower upper full clipped →
      full (base + t) = q → Band lower upper
        (ts.foldl (fun a j => update a (base + t - half + 1 <<< j)
          (a (base + t - half + 1 <<< j) + q)) full)
        (ts.foldl (fun buf j => if lower ≤ base + t - half + 1 <<< j then
          update buf (base + t - half + 1 <<< j)
            (buf (base + t - half + 1 <<< j) + buf (base + t)) else buf) clipped) := by
    intro q ts
    induction ts with
    | nil => exact fun _ _ _ h _ => h
    | cons j ts ih =>
      intro full clipped hts h hq
      have hlt := hts j (.head _)
      rw [foldl_cons, foldl_cons]
      generalize base + t - half + 1 <<< j = dst at hlt ⊢
      refine ih _ _ (fun j' hj' => hts j' (mem_cons_of_mem j hj')) ?_ ?_
      · refine ⟨fun r hr hr' => ?_, fun r hr => ?_⟩
        · by_cases hdst : r = dst
          · rw [← hdst, if_pos hr, update_self, update_self, h.agree r hr hr', ← hq,
              h.agree (base + t) (by omega) ht]
          · rw [update_of_ne hdst, h.agree r hr hr']
            split
            · rw [update_of_ne hdst]
            · rfl
        · rw [update_of_ne (by omega)]
          exact h.zero r hr
      · rw [update_of_ne hlt.ne', hq]
  exact hloop _ ts full clipped hts h rfl

/-- A range of sources that leaves the clipped array alone. -/
theorem Band.skip (h : Band lower upper full clipped) (hband : lower ≤ upper + 1) {l : List Nat}
    (hl : ∀ t ∈ l, upper < base + t ∨ ∀ j ∈ ts, base + t - half + 1 <<< j < lower) :
    Band lower upper (l.foldl (fun a t => Gf.spread ts half base t a) full) clipped := by
  induction l generalizing full with
  | nil => exact h
  | cons t l ih =>
    rw [foldl_cons]
    refine ih ?_ fun t' ht' => hl t' (mem_cons_of_mem t ht')
    rcases hl t (.head _) with ht | ht
    · rwa [h.above ht]
    · exact h.below hband ht

theorem Band.range (h : Band lower upper full clipped) {l : List Nat}
    (hl : ∀ t ∈ l, base + t ≤ upper ∧ ∀ j ∈ ts, base + t - half + 1 <<< j < base + t) :
    Band lower upper (l.foldl (fun a t => Gf.spread ts half base t a) full)
      (l.foldl (fun a t => clippedSpread lower ts half base t a) clipped) := by
  exact foldl_rel h fun t ht _ _ h => h.both (hl t ht).1 (hl t ht).2

theorem Band.block (h : Band lower upper full clipped) (hband : lower ≤ upper + 1) {i last : Nat}
    (hts : ∀ j ∈ ts, j < i) (hlast : ∀ j ∈ ts, j ≤ last) (hbase : base ≤ upper) :
    let start := max (2 ^ i) (lower + 2 ^ i - (base + 1 <<< last))
    let stop := min (2 * 2 ^ i) (upper + 1 - base)
    Band lower upper (undivide ts (2 ^ i) base full)
      ((range' start (stop - start)).foldl
        (fun a t => clippedSpread lower ts (2 ^ i) base t a) clipped) := by
  intro start stop
  have hrange : ∀ j ∈ ts, 1 <<< j ≤ 1 <<< last := fun j hj => by
    rw [Nat.one_shiftLeft, Nat.one_shiftLeft]
    exact Nat.pow_le_pow_right (by decide) (hlast j hj)
  generalize hs : min start (2 * 2 ^ i) = s
  generalize he : max s stop = e
  have hmiddle : range' start (stop - start) = range' s (e - s) := by
    rcases lt_or_ge start stop with hlt | hge
    · rw [show s = start by omega, show e = stop by omega]
    · rw [show stop - start = 0 by omega, show e - s = 0 by omega]
      rfl
  -- the sources cut below, those kept, and those cut above
  have hsplit : range' (2 ^ i) (2 ^ i) = range' (2 ^ i) (s - 2 ^ i) ++
      (range' s (e - s) ++ range' e (2 * 2 ^ i - e)) := by
    have hlow := range'_append_1 (s := 2 ^ i) (m := s - 2 ^ i) (n := 2 * 2 ^ i - s)
    have hhigh := range'_append_1 (s := s) (m := e - s) (n := 2 * 2 ^ i - e)
    rw [show 2 ^ i + (s - 2 ^ i) = s by omega, show s - 2 ^ i + (2 * 2 ^ i - s) = 2 ^ i by omega] at hlow
    rw [show s + (e - s) = e by omega, show e - s + (2 * 2 ^ i - e) = 2 * 2 ^ i - s by omega] at hhigh
    rw [hhigh, hlow]
  rw [undivide, hsplit, hmiddle, foldl_append, foldl_append]
  refine Band.skip (Band.range (Band.skip h hband fun t ht => .inr fun j hj => ?_) fun t ht => ?_) hband
    fun t ht => .inl ?_
  · rw [mem_range'_1] at ht
    have := hrange j hj
    omega
  · rw [mem_range'_1] at ht
    exact ⟨by omega, fun j hj => (target_lt hts (by omega) j hj).2⟩
  · rw [mem_range'_1] at ht
    omega

/-- The blocks of a level: those past the band hold zeros. -/
theorem Band.blocks (h : Band lower upper full clipped) (hband : lower ≤ upper + 1) {i last : Nat}
    (hts : ∀ j ∈ ts, j < i) (hlast : ∀ j ∈ ts, j ≤ last) {m : Nat}
    (hm : upper / (2 * 2 ^ i) + 1 ≤ m) :
    Band lower upper
      ((List.range m).foldl (fun a b => Gf.undivide ts (2 ^ i) (b * (2 * 2 ^ i)) a) full)
      ((List.range (upper / (2 * 2 ^ i) + 1)).foldl (fun a b =>
        let base := b * (2 * 2 ^ i)
        let start := max (2 ^ i) (lower + 2 ^ i - (base + 1 <<< last))
        let stop := min (2 * 2 ^ i) (upper + 1 - base)
        (List.range' start (stop - start)).foldl
          (fun a t => clippedSpread lower ts (2 ^ i) base t a) a) clipped) := by
  have hsize : 0 < 2 * 2 ^ i := mul_pos (by decide) (Nat.two_pow_pos i)
  obtain ⟨d, rfl⟩ := Nat.exists_eq_add_of_le hm
  clear hm
  induction d with
  | zero =>
    have hle : ∀ b ∈ List.range (upper / (2 * 2 ^ i) + 1), b * (2 * 2 ^ i) ≤ upper := fun b hb =>
      (Nat.le_div_iff_mul_le hsize).mp (Nat.le_of_lt_succ (List.mem_range.mp hb))
    exact foldl_rel h fun b hb _ _ h => h.block hband hts hlast (hle b hb)
  | succ d ih =>
    have hpast : upper < (upper / (2 * 2 ^ i) + 1 + d) * (2 * 2 ^ i) :=
      (Nat.div_lt_iff_lt_mul hsize).mp (by omega)
    rw [← add_assoc, range_succ, foldl_append, foldl_cons, foldl_nil]
    exact Band.skip ih hband fun t _ => .inl (Nat.lt_add_right t hpast)

/-- The clipped conversion agrees with the full one on the band. -/
theorem Band.levels {K : Kernel} {b : List Gf16} {k : Nat} (hK : K.For b k)
    (h : Band lower upper full clipped) (hband : lower ≤ upper + 1) (hupper : upper < 2 ^ k) :
    Band lower upper
      ((List.range k).foldl (fun a i => Gf.undivideLevel (2 ^ k) i (submasks i) a) full)
      (backwardBand K clipped lower upper) := by
  unfold backwardBand
  rw [hK.levels]
  refine foldl_rel h fun i hi full clipped h => ?_
  have hik := mem_range.mp hi
  have hi16 : i < 16 := hik.trans_le hK.le
  have hsize : 0 < 2 * 2 ^ i := mul_pos (by decide) (Nat.two_pow_pos i)
  rw [hK.terms i hik, Nat.one_shiftLeft]
  split
  case h_1 hnone =>
    -- level zero, whose polynomial has no lower terms
    have hid : ∀ (l : List Nat) (base : Nat) (a : Nat → Row w),
        l.foldl (fun a t => spread [] (2 ^ i) base t a) a = a := by
      intro l base
      induction l with
      | nil => exact fun _ => rfl
      | cons t l ih => exact ih
    rw [getLast?_eq_none_iff.mp hnone]
    have hlevel : undivideLevel (2 ^ k) i [] full = full := by
      unfold Gf.undivideLevel Gf.blocks Gf.undivide
      simp only [hid]
      exact foldl_fixed' (fun _ => rfl) _
    rwa [hlevel]
  case h_2 last hlast =>
    obtain ⟨init, hinit⟩ := getLast?_eq_some_iff.mp hlast
    have hsorted : (submasks i).Pairwise (· < ·) := pairwise_lt_range.filter _
    have hle : ∀ j ∈ submasks i, j ≤ last := by
      rw [hinit, pairwise_append] at hsorted
      intro j hj
      rw [hinit] at hj
      rcases mem_append.mp hj with hj | hj
      · exact (hsorted.2.2 j hj last (.head _)).le
      · exact (mem_singleton.mp hj).le
    have hcount : (2 ^ k + 2 * 2 ^ i - 1) / (2 * 2 ^ i) = 2 ^ (k - i - 1) := by
      rw [div_eq_iff_mem hsize, ← block_count hik]
      omega
    unfold Gf.undivideLevel Gf.blocks
    rw [hcount]
    refine h.blocks hband (terms_submasks hi16).lt hle ?_
    rw [Nat.succ_le_iff, Nat.div_lt_iff_lt_mul hsize, ← block_count hik]
    exact hupper

end Band

end NzbFast.Forney
