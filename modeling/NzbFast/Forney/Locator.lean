import NzbFast.Forney.Product
import NzbFast.Repair.Vandermonde

/-!
# The locator polynomial

`crates/nzbkit-base/src/par2repair/forney/locator.rs`: the product of `z + g` over the
roots `g`, by one chain of roots or by a product tree over chunks of them. The tree
is a re-association of the chain, so long as its products fit the largest transform.
-/

namespace NzbFast.Forney

open Function Gf16 Polynomial Option

def LEAF : Nat := 64

/-- The coefficient chain, the loop of `invert_vandermonde`. -/
def chain (bases : List Gf16) : List Gf16 :=
  (List.range (bases.length + 1)).map (Repair.master bases)

/-- A leaf of the tree: the chain without the table. -/
def small (bases : List Gf16) : List Gf16 :=
  (List.range (bases.length + 1)).map (bases.zipIdx.foldl (fun p x =>
    let (g, deg) := x
    let p := update p (deg + 1) (p deg)
    let p := (List.range deg).reverse.foldl
      (fun p i => update p (i + 1) (p i + Gf16.mul g (p (i + 1)))) p
    update p 0 (Gf16.mul g (p 0)))
    (update (fun _ => 0) 0 1))

/-- `bases.chunks(LEAF)`. -/
def leaves (bases : List Gf16) : List (List Gf16) :=
  if _h : bases = [] then [] else bases.take LEAF :: leaves (bases.drop LEAF)
termination_by bases.length
decreasing_by
  have := List.length_pos_iff.mpr _h
  rw [List.length_drop, LEAF]
  omega

/-- The inner loop: each list of the level with its neighbour. -/
def pairUp (ctx : Context) : List (List Gf16) → Option (List (List Gf16) × Context)
  | [] => some ([], ctx)
  | [a] => some ([a], ctx)
  | a :: b :: rest =>
    (ctx.multiply a b).bind fun (p, ctx) =>
      (pairUp ctx rest).map fun (next, ctx) => (p :: next, ctx)

theorem length_pairUp {ctx ctx' : Context} {level next : List (List Gf16)}
    (h : pairUp ctx level = some (next, ctx')) : next.length = (level.length + 1) / 2 := by
  fun_induction pairUp ctx level generalizing next ctx' with
  | case1 ctx =>
    cases h
    rfl
  | case2 ctx a =>
    cases h
    rw [List.length_singleton]
  | case3 ctx a b rest ih =>
    obtain ⟨⟨p, ctx₁⟩, -, h⟩ := bind_eq_some_iff.mp h
    obtain ⟨⟨next₁, ctx₂⟩, hrest, h⟩ := map_eq_some_iff.mp h
    cases h
    rw [List.length_cons, ih _ hrest, List.length_cons, List.length_cons]
    omega

/-- The loop over the levels, and the list it leaves. -/
def merge (ctx : Context) (level : List (List Gf16)) : Option (List Gf16) :=
  if _h : 1 < level.length then
    match _hnext : pairUp ctx level with
    | none => none
    | some (next, ctx) => merge ctx next
  else level.getLast?
termination_by level.length
decreasing_by
  rw [length_pairUp _hnext]
  omega

/-- `build`; nothing when an assertion fails. -/
def build (bases : List Gf16) (tree : Bool) : Option (List Gf16) :=
  if !tree then some (chain bases)
  else if bases.isEmpty then some [1]
  else merge Context.new ((leaves bases).map small)

/-! ## The levels of the tree -/

noncomputable def product (bases : List Gf16) : Gf16[X] := (bases.map fun g => X + Polynomial.C g).prod

theorem degree_product_lt (bases : List Gf16) : (product bases).degree < (bases.length + 1 : Nat) :=
  degree_le_natDegree.trans_lt
    (Nat.cast_lt.mpr (Nat.lt_succ_of_le (Gf.foldl_mulLinear bases).2))

theorem chain_eq (bases : List Gf16) :
    chain bases = (List.range (bases.length + 1)).map (product bases).coeff := by
  rw [chain, Repair.master_coeff, product]

theorem small_eq (bases : List Gf16) :
    small bases = (List.range (bases.length + 1)).map (product bases).coeff := by
  rw [product, ← (Gf.foldl_mulLinear bases).1, ← Repair.coeff_one_eq]
  rfl

/-- A level of the tree: its lists multiply to `P`, their degrees add up to `d`. -/
structure Level (P : Gf16[X]) (d : Nat) (level : List (List Gf16)) : Prop where
  product : (level.map Gf.ofCoeffs).prod = P
  degree : (level.map fun p => p.length - 1).sum = d
  nonempty : ∀ p ∈ level, p ≠ []
  fits : ∀ p ∈ level, p.length ≤ 65536

theorem flatten_leaves (bases : List Gf16) : (leaves bases).flatten = bases := by
  fun_induction leaves bases with
  | case1 => rfl
  | case2 bases _ ih => rw [List.flatten_cons, ih, List.take_append_drop]

theorem length_le_of_mem_leaves {bases leaf : List Gf16} (h : leaf ∈ leaves bases) :
    leaf.length ≤ LEAF := by
  fun_induction leaves bases with
  | case1 => cases h
  | case2 bases _ ih =>
    rcases List.mem_cons.mp h with rfl | h
    · rw [List.length_take]
      exact min_le_left _ _
    · exact ih h

theorem level_leaves (bases : List Gf16) :
    Level (product bases) bases.length ((leaves bases).map small) := by
  have hlen : ∀ leaf, (small leaf).length = leaf.length + 1 := fun leaf => by
    rw [small_eq, List.length_map, List.length_range]
  refine ⟨?_, ?_, fun p hp => ?_, fun p hp => ?_⟩
  · conv_rhs => rw [← flatten_leaves bases]
    rw [List.map_map]
    induction leaves bases with
    | nil => rfl
    | cons leaf ls ih =>
      rw [List.map_cons, List.prod_cons, ih, comp_apply, small_eq,
        Gf.ofCoeffs_map_coeff (degree_product_lt leaf), List.flatten_cons, product, product, product,
        List.map_append, List.prod_append]
  · conv_rhs => rw [← flatten_leaves bases]
    rw [List.map_map, List.length_flatten]
    congr 1
    refine List.map_congr_left fun leaf _ => ?_
    rw [comp_apply, hlen, Nat.add_sub_cancel]
  · obtain ⟨leaf, -, rfl⟩ := List.mem_map.mp hp
    exact List.length_pos_iff.mp (by rw [hlen]; exact Nat.succ_pos _)
  · obtain ⟨leaf, hleaf, rfl⟩ := List.mem_map.mp hp
    have hle := length_le_of_mem_leaves hleaf
    rw [hlen]
    exact le_trans (Nat.succ_le_succ hle) (by decide)

/-! ## Merging -/

theorem multiply_some {ctx ctx' : Context} {a b p : List Gf16} (h : ctx.multiply a b = some (p, ctx')) :
    Gf.ofCoeffs p = Gf.ofCoeffs a * Gf.ofCoeffs b ∧ p.length = a.length + b.length - 1 ∧
      p.length ≤ 65536 := by
  have hguards : a ≠ [] ∧ b ≠ [] ∧ a.length + b.length - 1 ≤ 65536 := by
    unfold Context.multiply at h
    split at h
    case isTrue => cases h
    case isFalse hempty =>
      simp only [Bool.or_eq_true, List.isEmpty_iff, not_or] at hempty
      dsimp only at h
      split at h
      case isTrue => cases h
      case isFalse hlen => exact ⟨hempty.1, hempty.2, not_lt.mp hlen⟩
  obtain ⟨ha, hb, hlen⟩ := hguards
  obtain ⟨ctx'', heq⟩ := multiply_eq ctx ha hb hlen
  rw [heq, some_inj, Prod.mk.injEq] at h
  obtain ⟨rfl, -⟩ := h
  refine ⟨Gf.ofCoeffs_map_coeff (degree_mul_lt a b), ?_, ?_⟩
  · rw [List.length_map, List.length_range]
  · rwa [List.length_map, List.length_range]

theorem pairUp_level {P : Gf16[X]} {d : Nat} {ctx ctx' : Context} {level next : List (List Gf16)}
    (hlevel : Level P d level) (h : pairUp ctx level = some (next, ctx')) : Level P d next := by
  fun_induction pairUp ctx level generalizing P d next ctx' with
  | case1 ctx =>
    cases h
    exact hlevel
  | case2 ctx a =>
    cases h
    exact hlevel
  | case3 ctx a b rest ih =>
    obtain ⟨⟨p, ctx₁⟩, hp, h⟩ := bind_eq_some_iff.mp h
    obtain ⟨⟨next₁, ctx₂⟩, hrest, h⟩ := map_eq_some_iff.mp h
    cases h
    obtain ⟨hproduct, hlen, hfits⟩ := multiply_some hp
    have ha := List.length_pos_iff.mpr (hlevel.nonempty a (by simp))
    have hb := List.length_pos_iff.mpr (hlevel.nonempty b (by simp))
    have hrest' := @ih _ _ _ _ _ ⟨rfl, rfl,
      fun q hq => hlevel.nonempty q (List.mem_cons_of_mem a (List.mem_cons_of_mem b hq)),
      fun q hq => hlevel.fits q (List.mem_cons_of_mem a (List.mem_cons_of_mem b hq))⟩ hrest
    refine ⟨?_, ?_, ?_, ?_⟩
    · rw [← hlevel.product, List.map_cons, List.prod_cons, hproduct, hrest'.product, List.map_cons,
        List.prod_cons, List.map_cons, List.prod_cons, mul_assoc]
    · have hdegree := hlevel.degree
      rw [List.map_cons, List.sum_cons, List.map_cons, List.sum_cons] at hdegree
      rw [List.map_cons, List.sum_cons, hrest'.degree]
      omega
    · rintro q (_ | ⟨_, hq⟩)
      · exact List.length_pos_iff.mp (by omega)
      · exact hrest'.nonempty q hq
    · rintro q (_ | ⟨_, hq⟩)
      · exact hfits
      · exact hrest'.fits q hq

theorem pairUp_isSome {P : Gf16[X]} {d : Nat} (hd : d ≤ 65535) {ctx : Context}
    {level : List (List Gf16)} (hlevel : Level P d level) : ∃ r, pairUp ctx level = some r := by
  fun_induction pairUp ctx level generalizing P d with
  | case1 ctx => exact ⟨_, rfl⟩
  | case2 ctx a => exact ⟨_, rfl⟩
  | case3 ctx a b rest ih =>
    have ha := hlevel.nonempty a (by simp)
    have hb := hlevel.nonempty b (by simp)
    have hdegree := hlevel.degree
    rw [List.map_cons, List.sum_cons, List.map_cons, List.sum_cons] at hdegree
    obtain ⟨ctx₁, hp⟩ := multiply_eq ctx ha hb (by omega)
    obtain ⟨r, hr⟩ := ih ctx₁ (d := (rest.map fun p => p.length - 1).sum) (by omega) ⟨rfl, rfl,
      fun q hq => hlevel.nonempty q (List.mem_cons_of_mem a (List.mem_cons_of_mem b hq)),
      fun q hq => hlevel.fits q (List.mem_cons_of_mem a (List.mem_cons_of_mem b hq))⟩
    rw [hp, bind_some]
    dsimp only
    rw [hr]
    exact ⟨_, rfl⟩

/-- The merge of a level, when its product fits; nothing when it does not. -/
theorem merge_eq {P : Gf16[X]} {d : Nat} {ctx : Context} {level : List (List Gf16)}
    (hlevel : Level P d level) (hne : level ≠ []) :
    merge ctx level = if d ≤ 65535 then some ((List.range (d + 1)).map P.coeff) else none := by
  fun_induction merge ctx level with
  | case1 ctx level hlen hnone =>
    split
    case isFalse => rfl
    case isTrue hd =>
      obtain ⟨r, hr⟩ := @pairUp_isSome P d hd ctx level hlevel
      rw [hnone] at hr
      cases hr
  | case2 ctx level hlen next ctx' hnext ih =>
    refine ih (pairUp_level hlevel hnext) (List.length_pos_iff.mp ?_)
    rw [length_pairUp hnext]
    omega
  | case3 ctx level hlen =>
    obtain ⟨p, rfl⟩ : ∃ p, level = [p] := by
      have hpos := List.length_pos_iff.mpr hne
      exact List.length_eq_one_iff.mp (by omega)
    have hproduct := hlevel.product
    have hdegree := hlevel.degree
    have hpos := List.length_pos_iff.mpr (hlevel.nonempty p List.mem_cons_self)
    have hfits := hlevel.fits p List.mem_cons_self
    rw [List.map_singleton, List.prod_singleton] at hproduct
    rw [List.map_singleton, List.sum_singleton] at hdegree
    have hlength : p.length = d + 1 := by omega
    rw [if_pos (by omega), List.getLast?_singleton, some_inj]
    refine Gf.eq_of_ofCoeffs (by rw [hlength, List.length_map, List.length_range]) ?_
    have hdeg := Gf.degree_ofCoeffs_lt p
    rw [hproduct, hlength] at hdeg
    rw [hproduct, Gf.ofCoeffs_map_coeff hdeg]

/-- The tree is the chain, as long as the product fits the largest transform. -/
theorem build_tree (bases : List Gf16) :
    build bases true = if bases.length ≤ 65535 then some (chain bases) else none := by
  unfold build
  rw [Bool.not_true, if_neg Bool.false_ne_true]
  cases bases with
  | nil => rfl
  | cons g gs =>
    rw [List.isEmpty_cons, if_neg Bool.false_ne_true, merge_eq (level_leaves (g :: gs)), chain_eq]
    rw [leaves, dif_neg (List.cons_ne_nil g gs)]
    exact List.cons_ne_nil _ _

/-- A list of roots whose product the transform does not take. -/
theorem build_tree_past : build (List.replicate 65536 0) true = none ∧
    (build (List.replicate 65536 0) false).isSome = true := by
  refine ⟨?_, rfl⟩
  rw [build_tree, List.length_replicate, if_neg (by decide)]

/-- The additive transform and what is built on it: evaluation at the domain and its inverse, the
product, the values at every element, and the locator by the tree. -/
theorem additive_exact :
    (∀ k ≤ 16, (1 ≤ k → Transform.new (2 ^ k) = some (Transform.plan (2 ^ k))) ∧
      ∀ a : Nat → Gf16,
        (∀ p < 2 ^ k, (Transform.plan (2 ^ k)).forward a p =
          ∑ t ∈ Finset.range (2 ^ k), a t * domain p ^ t) ∧
        (Transform.plan (2 ^ k)).inverse ((Transform.plan (2 ^ k)).forward a) = a) ∧
    (∀ (ctx : Context) (a b : List Gf16), a ≠ [] → b ≠ [] → a.length + b.length - 1 ≤ 65536 →
      ∃ out ctx', ctx.multiply a b = some (out, ctx') ∧ out.length = a.length + b.length - 1 ∧
        Gf.ofCoeffs out = Gf.ofCoeffs a * Gf.ofCoeffs b) ∧
    (∀ coefficients : List Gf16, coefficients.length ≤ 65536 →
      ∃ values, evaluateField coefficients = some values ∧ ∀ z : Gf16, values z.bits.toNat =
        ∑ i ∈ Finset.range coefficients.length, coefficients.getD i 0 * z ^ i) ∧
    (∀ bases : List Gf16, bases.length ≤ 65535 →
      build bases true = some (chain bases) ∧ Gf.ofCoeffs (chain bases) = product bases) := by
  refine ⟨fun k hk => ⟨Transform.new_eq hk, fun a =>
      ⟨fun p hp => Transform.forward_eq hk a hp, Transform.inverse_forward a⟩⟩,
    fun ctx a b ha hb hlen => ?_, fun coefficients hlen => ?_, fun bases hlen => ?_⟩
  · obtain ⟨ctx', hout⟩ := multiply_eq ctx ha hb hlen
    exact ⟨_, ctx', hout, by rw [List.length_map, List.length_range],
      Gf.ofCoeffs_map_coeff (degree_mul_lt a b)⟩
  · obtain ⟨values, hvalues, hall⟩ := evaluateField_eq hlen
    refine ⟨values, hvalues, fun z => ?_⟩
    rw [hall z, Gf.eval_ofCoeffs (le_refl _)]
  · refine ⟨by rw [build_tree, if_pos hlen], ?_⟩
    rw [chain_eq, Gf.ofCoeffs_map_coeff (degree_product_lt bases)]

end NzbFast.Forney
