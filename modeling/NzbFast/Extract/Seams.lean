import NzbFast.Extract.Decrypt

/-!
# Runs and their seams

A run over `[s, e)` is fixed by the posted bytes and its two ends: it has the
plaintext from the second whole block on (from the first at offset 0) to the last
whole block, and the slivers around it (`RunIs`). Only the head of a decrypted run
at 0 may differ: a merge into a sliver at 0 keeps the sliver, though nothing of it
is still missing. Planning a fresh range gives its run, and `merge_at` makes of two
runs the run over both, decrypting the seam between their plaintexts.
-/

namespace NzbFast.Extract

open NzbFast.Rust BTreeMap Bool
open Wire (slice plainAt prevBlock drop_slice take_slice take_drop_slice slice_join)

namespace CryptoState

/-- Where a run from `s` can have plaintext from. -/
def pLoOf (s : Nat) : Nat := if s = 0 then 0 else nextMultipleOf s 16 + 16

theorem pLoOf_zero : pLoOf 0 = 0 := rfl

theorem pLoOf_pos {s : Nat} (h : 0 < s) :
    pLoOf s = nextMultipleOf s 16 + 16 := if_neg h.ne'

theorem pLoOf_spec (s : Nat) : s ≤ pLoOf s ∧ pLoOf s % 16 = 0 ∧ (0 < s → s + 16 ≤ pLoOf s ∧ pLoOf s < s + 32) := by
  obtain ⟨hle, hlt, hmod⟩ := nextMultipleOf_sixteen s
  unfold pLoOf
  split <;> omega

theorem pLoOf_mono {s t : Nat} (h : s ≤ t) : pLoOf s ≤ pLoOf t := by
  unfold pLoOf nextMultipleOf
  split <;> split <;> omega

/-- The last bytes that a run over `[.., e)` keeps. -/
def tailOf (c : Nat → UInt8) (e : Nat) : List UInt8 :=
  slice c (e / 16 * 16 - 16) (e - (e / 16 * 16 - 16))

/-- A run from `s` of the posted bytes. -/
inductive RunIs (c : Nat → UInt8) (s : Nat) : CryptoRun → Prop
  | sliver {e : Nat} (hse : s < e) (h : e < pLoOf s + 16) :
    RunIs c s { stop := e, pLo := s, pHi := s, head := slice c s (e - s), tail := [] }
  | body {e : Nat} {head : List UInt8} (h : pLoOf s + 16 ≤ e)
    (hhead : head = slice c s (pLoOf s - s) ∨ (s = 0 ∧ ∃ n, 0 < n ∧ n < 16 ∧ head = slice c 0 n)) :
    RunIs c s { stop := e, pLo := pLoOf s, pHi := e / 16 * 16, head, tail := tailOf c e }

theorem RunIs.bounds {c : Nat → UInt8} {s : Nat} {r : CryptoRun} (h : RunIs c s r) :
    s < r.stop ∧ s ≤ r.pLo ∧ r.pLo ≤ r.pHi ∧ r.pHi ≤ r.stop := by
  obtain ⟨hle, -, -⟩ := pLoOf_spec s
  cases h with
  | sliver hse h => exact ⟨hse, le_rfl, le_rfl, le_of_lt hse⟩
  | body h hhead =>
    dsimp only
    omega

def planOf (cs : CryptoState) (c : Nat → UInt8) (s e : Nat) : FreshPlan :=
  if pLoOf s + 16 ≤ e then
    { start := s
      body := some { chain := prevBlock cs.iv c (pLoOf s), at_ := pLoOf s, full := e / 16 * 16 - pLoOf s }
      run := {
        stop := e, pLo := pLoOf s, pHi := e / 16 * 16
        head := slice c s (pLoOf s - s), tail := tailOf c e } }
  else headOnly s e (slice c s (e - s))

variable {cs : CryptoState} {c : Nat → UInt8}

theorem planOf_start (s e : Nat) : (planOf cs c s e).start = s := by
  unfold planOf
  split <;> rfl

theorem planOf_stop (s e : Nat) : (planOf cs c s e).run.stop = e := by
  unfold planOf
  split <;> rfl

theorem runIs_planOf {s e : Nat} (h : s < e) : RunIs c s (planOf cs c s e).run := by
  unfold planOf
  split
  case isTrue hbody => exact .body hbody (.inl rfl)
  case isFalse hsliver => exact .sliver h (not_le.mp hsliver)

/-- A fresh range is planned as its run, with its checkpoints captured. -/
theorem planFresh_spec (st : CryptoSt) {s n : Nat} (hn : 0 < n) (hend : s + n ≤ cs.cipherLen) :
    ∃ checkpoints events, cs.planFresh st s (slice c s n) =
        ({ st with checkpoints, events }, planOf cs c s (s + n)) ∧
      (∀ D file, Filed cs c D st file → Filed cs c D { st with checkpoints, events } file) ∧
      ∀ y ∈ checkpoints, y ∈ st.checkpoints ∨
        (pLoOf s + 16 ≤ s + n ∧ pLoOf s ≤ y.1 ∧ y.1 ≤ (s + n) / 16 * 16) := by
  obtain ⟨hle, hmod, hpos⟩ := pLoOf_spec s
  -- the advance over the blocks from `pLoOf s` on
  obtain ⟨hfull, checkpoints, events, hst, hmem⟩ := planAdvance_spec st (prevBlock cs.iv c (pLoOf s))
    (pLoOf s) (slice c (pLoOf s) (s + n - pLoOf s))
  have hfiled : ∀ D file, Filed cs c D st file → Filed cs c D { st with checkpoints, events } file :=
    fun D file h => hst ▸ h.planAdvance hmod
  rw [Wire.length_slice] at hfull hmem
  have hck : ∀ y ∈ checkpoints, y ∈ st.checkpoints ∨
      (pLoOf s + 16 ≤ s + n ∧ pLoOf s ≤ y.1 ∧ y.1 ≤ (s + n) / 16 * 16) := fun y hy => by
    rcases (hmem y).mp hy with ⟨hpos, hin, -⟩ | ⟨hy, -⟩
    · obtain ⟨hlo, hhi, -, -⟩ := mem_strides.mp hin
      exact .inr ⟨by omega, hlo, by omega⟩
    · exact .inl hy
  have hplan : planAdvance st (prevBlock cs.iv c (pLoOf s)) (pLoOf s)
      (slice c (pLoOf s) (s + n - pLoOf s)) =
        ({ st with checkpoints, events }, (s + n - pLoOf s) / 16 * 16) := Prod.ext hst hfull
  unfold planFresh
  rw [Wire.length_slice]
  dsimp only
  by_cases hs : s = 0
  · subst hs
    rw [if_pos rfl]
    rw [pLoOf_zero, show prevBlock cs.iv c 0 = cs.iv.bytes from rfl, Nat.zero_add, Nat.sub_zero]
      at hplan
    rw [hplan]
    refine ⟨checkpoints, events, ?_, hfiled, hck⟩
    by_cases hsmall : n / 16 * 16 = 0
    · rw [if_pos hsmall, planOf, if_neg (by rw [pLoOf_zero]; omega), Nat.zero_add, Nat.sub_zero]
    · rw [if_neg hsmall, planOf, if_pos (by rw [pLoOf_zero]; omega), pLoOf_zero, zero_add,
        drop_slice, Nat.sub_zero, Nat.zero_add]
      rfl
  · rw [if_neg hs]
    have hplo := pLoOf_pos (pos_of_ne_zero hs)
    rw [← hplo]
    by_cases hsmall : s + n < pLoOf s + 16
    · rw [if_pos (by omega), planOf, if_neg (by omega), Nat.add_sub_cancel_left]
      exact ⟨_, _, rfl, fun _ _ h => h, fun y hy => .inl hy⟩
    · rw [if_neg (by omega)]
      have hchain : ((slice c s n).drop (pLoOf s - s - 16)).take 16 = prevBlock cs.iv c (pLoOf s) := by
        rw [take_drop_slice (by omega), prevBlock, if_neg (by omega)]
        congr 1
        omega
      have hrest : (slice c s n).drop (pLoOf s - s) = slice c (pLoOf s) (s + n - pLoOf s) := by
        rw [drop_slice]
        congr 1 <;> omega
      rw [hchain, hrest, hplan]
      refine ⟨checkpoints, events, ?_, hfiled, hck⟩
      rw [if_neg (by omega), planOf, if_pos (by omega), take_slice (by omega), drop_slice, tailOf]
      have hhi : pLoOf s + (s + n - pLoOf s) / 16 * 16 = (s + n) / 16 * 16 := by omega
      have hfull : (s + n - pLoOf s) / 16 * 16 = (s + n) / 16 * 16 - pLoOf s := by omega
      have hlo : s + (pLoOf s - s + ((s + n) / 16 * 16 - pLoOf s) - 16) = (s + n) / 16 * 16 - 16 := by
        omega
      have hlen : n - (pLoOf s - s + ((s + n) / 16 * 16 - pLoOf s) - 16) =
          s + n - ((s + n) / 16 * 16 - 16) := by omega
      rw [hhi, hfull, hlo, hlen]

theorem bodyBytes_slice {s e : Nat} (hbody : pLoOf s + 16 ≤ e) {body : Body}
    (hb : (planOf cs c s e).body = some body) :
    body = { chain := prevBlock cs.iv c (pLoOf s), at_ := pLoOf s, full := 16 * ((e - pLoOf s) / 16) } ∧
      bodyBytes s body (slice c s (e - s)) = slice c (pLoOf s) (16 * ((e - pLoOf s) / 16)) := by
  obtain ⟨hle, hmod, -⟩ := pLoOf_spec s
  rw [planOf, if_pos hbody] at hb
  obtain rfl := Option.some.inj hb
  have hfull : e / 16 * 16 - pLoOf s = 16 * ((e - pLoOf s) / 16) := by omega
  refine ⟨by rw [hfull], ?_⟩
  unfold bodyBytes
  dsimp only
  rw [hfull, take_drop_slice (by omega)]
  congr 1
  omega

theorem body_none {s e : Nat} (h : (planOf cs c s e).body = none) : e < pLoOf s + 16 := by
  unfold planOf at h
  split at h
  case isTrue => cases h
  case isFalse hsliver => exact not_le.mp hsliver

/-- A run over fresh ciphertext, decrypted under the lock. -/
theorem Filed.freshRun {D : Nat → Prop} {st : CryptoSt} {file : List UInt8} (h : Filed cs c D st file)
    {s n : Nat} (hn : 0 < n) (hend : s + n ≤ cs.cipherLen) (hfree : ∀ x, s ≤ x → x < s + n → ¬ D x) :
    ∃ st' file' run, cs.freshRun st file s (slice c s n) = (st', file', run) ∧
      Grew cs c D run.pLo run.pHi st file st' file' ∧ RunIs c s run ∧ run.stop = s + n := by
  obtain ⟨hle, hmod, -⟩ := pLoOf_spec s
  obtain ⟨checkpoints, events, hplan, hfiled, hck⟩ := @planFresh_spec cs c st s n hn hend
  have hf := hfiled D file h
  unfold CryptoState.freshRun
  rw [hplan]
  dsimp only
  cases hb : (planOf cs c s (s + n)).body with
  | none =>
    have hsliver := body_none hb
    refine ⟨_, _, _, rfl, ?_, runIs_planOf (by omega), planOf_stop s _⟩
    have hrun : (planOf cs c s (s + n)).run.pLo = s ∧ (planOf cs c s (s + n)).run.pHi = s := by
      rw [planOf, if_neg (by omega)]
      exact ⟨rfl, rfl⟩
    rw [hrun.1, hrun.2]
    have hgrew := hf.still (le_refl s)
    exact ⟨hgrew.filed, fun hfull => hgrew.crcFull ⟨hfull.apart, hfull.has⟩, hgrew.wrote, rfl, rfl,
      fun y hy => .inl ((hck y hy).resolve_right fun hnew => absurd hnew.1 (by omega))⟩
  | some body =>
    have hbody : pLoOf s + 16 ≤ s + n := by
      by_contra hno
      rw [planOf, if_neg hno] at hb
      cases hb
    obtain ⟨hbeq, hbytes⟩ := bodyBytes_slice hbody hb
    rw [Nat.add_sub_cancel_left] at hbytes
    have hrun : (planOf cs c s (s + n)).run.pLo = pLoOf s ∧
        (planOf cs c s (s + n)).run.pHi = pLoOf s + 16 * ((s + n - pLoOf s) / 16) := by
      rw [planOf, if_pos hbody]
      exact ⟨rfl, by dsimp only; omega⟩
    obtain ⟨hlanded, hshort, hwrote⟩ := @decryptWrite_spec cs c (pLoOf s) ((s + n - pLoOf s) / 16) hmod
      (by omega) (by omega) file h.short body hbeq
    dsimp only
    rw [hbytes]
    have hfile := { hf with wrote := fun x hx => hwrote x (.inr (hf.wrote x hx)), short := hshort }
    obtain ⟨hfiled', hcrc, plain, tailPad, tailDone, events', hst'⟩ := hfile.commitLanded (by omega)
      (by omega) hlanded (fun x hx => hwrote x (.inl hx)) fun x hlo hhi => hfree x (by omega) (by omega)
    refine ⟨_, _, _, rfl, ?_, runIs_planOf (by omega), planOf_stop s _⟩
    rw [hrun.1, hrun.2]
    refine ⟨hfiled', fun hfull => hcrc ⟨hfull.apart, hfull.has⟩, fun x hx => hwrote x (.inr hx),
      by rw [hst'], by rw [hst'], fun y hy => ?_⟩
    rw [hst'] at hy
    exact (hck y hy).imp_right fun hnew => by omega

/-! ## Two runs merged -/

def InRegion (r : CryptoRun) (x : Nat) : Prop := r.pLo ≤ x ∧ x < r.pHi

/-- What a merge of `left` at `ls` with `right` makes: the run over both, with `[a, b)` decrypted. -/
structure Joined (cs : CryptoState) (c : Nat → UInt8) (D : Nat → Prop) (ls : Nat)
    (left right : CryptoRun) (st : CryptoSt) (file : List UInt8)
    (r : CryptoSt × List UInt8 × CryptoRun) (a b : Nat) : Prop where
  grew : Grew cs c D a b st file r.1 r.2.1
  run : RunIs c ls r.2.2
  stop : r.2.2.stop = right.stop
  region : ∀ x, InRegion r.2.2 x ↔ InRegion left x ∨ InRegion right x ∨ (a ≤ x ∧ x < b)
  seam : a < b → r.2.2.pLo ≤ a ∧ b ≤ r.2.2.pHi
  left : left.pLo < left.pHi → r.2.2.pLo ≤ left.pLo ∧ left.pHi ≤ r.2.2.pHi
  right : right.pLo < right.pHi → r.2.2.pLo ≤ right.pLo ∧ right.pHi ≤ r.2.2.pHi

section Merge

variable {D : Nat → Prop} {st : CryptoSt} {file : List UInt8} {ls : Nat} {left right : CryptoRun}

theorem sliver_decrypted {r : CryptoRun} (hempty : r.pLo = r.pHi) (hpos : 0 < r.pLo) :
    r.decrypted = false := by
  unfold CryptoRun.decrypted
  rw [hempty, decide_eq_false (lt_irrefl _), decide_eq_false (by omega), Bool.false_and,
    Bool.false_and, Bool.or_false]

theorem body_decrypted {r : CryptoRun} (h : r.pLo < r.pHi) : r.decrypted = true := by
  rw [CryptoRun.decrypted, decide_eq_true h, Bool.true_or]

theorem Joined.of {r : CryptoSt × List UInt8 × CryptoRun} {a b : Nat}
    (hgrew : Grew cs c D a b st file r.1 r.2.1) (hrun : RunIs c ls r.2.2)
    (hstop : r.2.2.stop = right.stop)
    (hspan : ∀ x, (r.2.2.pLo ≤ x ∧ x < r.2.2.pHi ↔ (left.pLo ≤ x ∧ x < left.pHi) ∨
        (right.pLo ≤ x ∧ x < right.pHi) ∨ (a ≤ x ∧ x < b)) ∧
      (a < b → r.2.2.pLo ≤ a ∧ b ≤ r.2.2.pHi) ∧
      (left.pLo < left.pHi → r.2.2.pLo ≤ left.pLo ∧ left.pHi ≤ r.2.2.pHi) ∧
      (right.pLo < right.pHi → r.2.2.pLo ≤ right.pLo ∧ right.pHi ≤ r.2.2.pHi)) :
    ∃ a b, Joined cs c D ls left right st file r a b :=
  ⟨a, b, hgrew, hrun, hstop, fun x => (hspan x).1, (hspan 0).2.1, (hspan 0).2.2.1, (hspan 0).2.2.2⟩

/-- The ciphertext between the two plaintexts is decrypted by neither. -/
theorem seam_free {lo hi stop : Nat}
    (hfree : ∀ x, ls ≤ x → x < stop → D x → InRegion left x ∨ InRegion right x)
    (h : ls ≤ lo ∧ hi ≤ stop ∧ (left.pHi ≤ lo ∨ left.pHi ≤ left.pLo) ∧
      (hi ≤ right.pLo ∨ right.pHi ≤ right.pLo)) : ∀ x, lo ≤ x → x < hi → ¬ D x := by
  intro x hlo hhi hx
  rcases hfree x (by omega) (by omega) hx with hx | hx
  all_goals
    unfold InRegion at hx
    omega

theorem mergeForward_spec (h : Filed cs c D st file) (hleft : RunIs c ls left)
    (hright : RunIs c left.stop right) (hcan : left.pLo < left.pHi ∨ ls = 0)
    (hend : right.stop ≤ cs.cipherLen)
    (hfree : ∀ x, ls ≤ x → x < right.stop → D x → InRegion left x ∨ InRegion right x) :
    ∃ a b, Joined cs c D ls left right st file (cs.mergeForward st file left right) a b := by
  cases hleft with
  | @body mid head hmid hhead =>
    obtain ⟨hle, hmod, -⟩ := pLoOf_spec ls
    dsimp only at hright hfree
    have hdec : decide (pLoOf ls < mid / 16 * 16) = true := decide_eq_true (by omega)
    have hchain : (tailOf c mid).take 16 = prevBlock cs.iv c (mid / 16 * 16) := by
      rw [tailOf, take_slice (by omega), prevBlock, if_neg (by omega)]
    have hrest : (tailOf c mid).drop 16 = slice c (mid / 16 * 16) (mid - mid / 16 * 16) := by
      rw [tailOf, drop_slice]
      congr 1 <;> omega
    have hpos : 0 < mid := by omega
    unfold mergeForward
    dsimp only
    rw [hdec, if_pos rfl, if_pos rfl, if_pos rfl, if_pos rfl, hchain, hrest]
    cases hright with
    | @sliver e hse hsmall =>
      dsimp only at hend hfree ⊢
      rw [slice_join (show mid / 16 * 16 + (mid - mid / 16 * 16) = mid by omega),
        show mid - mid / 16 * 16 + (e - mid) = e - mid / 16 * 16 by omega]
      obtain ⟨st', file', hadv, hgrew⟩ := h.advance (show mid / 16 * 16 % 16 = 0 by omega)
        (show mid / 16 * 16 + (e - mid / 16 * 16) ≤ cs.cipherLen by omega)
        (seam_free hfree (by dsimp only; omega))
      rw [hadv, sliver_decrypted rfl hpos]
      simp only [Bool.or_true, Bool.false_eq_true, if_true, if_false]
      rw [show mid / 16 * 16 + (e - mid / 16 * 16) / 16 * 16 = e / 16 * 16 by omega,
        max_eq_left (show mid / 16 * 16 ≤ e / 16 * 16 by omega), if_pos (by omega)]
      have htail : (prevBlock cs.iv c (mid / 16 * 16) ++ slice c (mid / 16 * 16) (e - mid / 16 * 16)).drop
          (e / 16 * 16 - 16 - (mid / 16 * 16 - 16)) = tailOf c e := by
        rw [prevBlock, if_neg (by omega), slice_join (by omega), drop_slice, tailOf]
        congr 1 <;> omega
      rw [htail]
      exact Joined.of hgrew (.body (by omega) hhead) rfl fun x => by dsimp only; omega
    | @body e rhead hbody hrhead =>
      obtain ⟨hle', hmod', hroom⟩ := pLoOf_spec mid
      have hr := hrhead.resolve_right fun hzero => by omega
      subst hr
      dsimp only at hend hfree ⊢
      rw [slice_join (show mid / 16 * 16 + (mid - mid / 16 * 16) = mid by omega),
        show mid - mid / 16 * 16 + (pLoOf mid - mid) = pLoOf mid - mid / 16 * 16 by omega]
      obtain ⟨st', file', hadv, hgrew⟩ := h.advance (show mid / 16 * 16 % 16 = 0 by omega)
        (show mid / 16 * 16 + (pLoOf mid - mid / 16 * 16) ≤ cs.cipherLen by omega)
        (seam_free hfree (by dsimp only; omega))
      rw [hadv, body_decrypted (show pLoOf mid < e / 16 * 16 by omega), if_pos rfl]
      exact Joined.of hgrew (.body (by omega) hhead) rfl fun x => by dsimp only; omega
  | @sliver mid hse hsmall =>
    obtain rfl : ls = 0 := hcan.resolve_left (lt_irrefl _)
    rw [pLoOf_zero] at hsmall
    dsimp only at hright hfree
    have hdec : decide (0 < 0) = false := rfl
    unfold mergeForward
    dsimp only
    rw [hdec, if_neg Bool.false_ne_true, if_neg Bool.false_ne_true, if_neg Bool.false_ne_true,
      if_neg Bool.false_ne_true, Nat.sub_zero]
    have hiv : cs.iv.bytes = prevBlock cs.iv c 0 := rfl
    rw [hiv]
    cases hright with
    | @sliver e hse' hsmall' =>
      dsimp only at hend hfree ⊢
      rw [slice_join (zero_add mid), show mid + (e - mid) = e by omega]
      obtain ⟨st', file', hadv, hgrew⟩ := h.advance (show 0 % 16 = 0 by omega)
        (show 0 + e ≤ cs.cipherLen by omega) (seam_free hfree (by dsimp only; omega))
      rw [hadv, sliver_decrypted rfl hse]
      simp only [Bool.or_false, Bool.false_eq_true, if_false, max_zero, zero_add]
      by_cases hblock : 0 < e / 16 * 16
      · rw [decide_eq_true hblock, if_pos rfl, if_pos hblock, drop_slice, Nat.sub_zero, Nat.zero_add]
        exact Joined.of hgrew (@RunIs.body c 0 e _ (by rw [pLoOf_zero]; omega)
          (.inr ⟨rfl, mid, hse, by omega, rfl⟩)) rfl fun x => by dsimp only; omega
      · rw [decide_eq_false hblock, if_neg Bool.false_ne_true]
        have hsliver := @RunIs.sliver c 0 e (by omega) (by rw [pLoOf_zero]; omega)
        exact Joined.of hgrew hsliver rfl fun x => by dsimp only; omega
    | @body e rhead hbody hrhead =>
      obtain ⟨hle', hmod', hroom⟩ := pLoOf_spec mid
      have hr := hrhead.resolve_right fun hzero => by omega
      subst hr
      dsimp only at hend hfree ⊢
      rw [slice_join (zero_add mid), show mid + (pLoOf mid - mid) = pLoOf mid by omega]
      obtain ⟨st', file', hadv, hgrew⟩ := h.advance (show 0 % 16 = 0 by omega)
        (show 0 + pLoOf mid ≤ cs.cipherLen by omega) (seam_free hfree (by dsimp only; omega))
      rw [hadv, body_decrypted (show pLoOf mid < e / 16 * 16 by omega), if_pos rfl]
      exact Joined.of hgrew (@RunIs.body c 0 e _ (by rw [pLoOf_zero]; omega)
        (.inr ⟨rfl, mid, hse, by omega, rfl⟩)) rfl fun x => by dsimp only; omega

theorem mergeSliver_spec (h : Filed cs c D st file) (hleft : RunIs c ls left)
    (hright : RunIs c left.stop right) (hcan : ¬ (left.pLo < left.pHi ∨ ls = 0))
    (hend : right.stop ≤ cs.cipherLen)
    (hfree : ∀ x, ls ≤ x → x < right.stop → D x → InRegion left x ∨ InRegion right x) :
    ∃ a b, Joined cs c D ls left right st file (cs.mergeSliver st file ls left right) a b := by
  obtain ⟨hnodec, hls⟩ := not_or.mp hcan
  have hls : 0 < ls := pos_of_ne_zero hls
  cases hleft with
  | @body mid head hmid hhead =>
    dsimp only at hnodec
    omega
  | @sliver mid hse hsmall =>
    obtain ⟨hle, hmod, hroom⟩ := pLoOf_spec ls
    dsimp only at hright hfree
    unfold mergeSliver
    cases hright with
    | @sliver e hse' hsmall' =>
      dsimp only at hend hfree ⊢
      rw [slice_join (show ls + (mid - ls) = mid by omega), sliver_decrypted rfl (by dsimp only; omega),
        if_neg Bool.false_ne_true, show mid - ls + (e - mid) = e - ls by omega]
      obtain ⟨st', file', run, hfresh, hgrew, hrun, hstop⟩ := h.freshRun
        (show 0 < e - ls by omega) (show ls + (e - ls) ≤ cs.cipherLen by omega)
        (seam_free hfree (by dsimp only; omega))
      rw [hfresh]
      exact Joined.of hgrew hrun (hstop.trans (by dsimp only; omega)) fun x => by dsimp only; omega
    | @body e rhead hbody hrhead =>
      have hmono := pLoOf_mono hse.le
      obtain ⟨hle', hmod', hroom'⟩ := pLoOf_spec mid
      have hr := hrhead.resolve_right fun hzero => by omega
      subst hr
      dsimp only at hend hfree ⊢
      rw [slice_join (show ls + (mid - ls) = mid by omega),
        show mid - ls + (pLoOf mid - mid) = pLoOf mid - ls by omega,
        body_decrypted (show pLoOf mid < e / 16 * 16 by omega), if_pos rfl, ← pLoOf_pos hls,
        min_eq_left hmono]
      by_cases hseam : pLoOf ls < pLoOf mid
      · rw [if_pos hseam]
        have hchain : ((slice c ls (pLoOf mid - ls)).drop (pLoOf ls - 16 - ls)).take 16 =
            prevBlock cs.iv c (pLoOf ls) := by
          rw [take_drop_slice (by omega), prevBlock, if_neg (by omega)]
          congr 1
          omega
        have hrest : (slice c ls (pLoOf mid - ls)).drop (pLoOf ls - ls) =
            slice c (pLoOf ls) (pLoOf mid - pLoOf ls) := by
          rw [drop_slice]
          congr 1 <;> omega
        rw [hchain, hrest, take_slice (by omega)]
        obtain ⟨st', file', hadv, hgrew⟩ := h.advance hmod
          (show pLoOf ls + (pLoOf mid - pLoOf ls) ≤ cs.cipherLen by omega)
          (seam_free hfree (by dsimp only; omega))
        rw [hadv]
        exact Joined.of hgrew (.body (by omega) (.inl rfl)) rfl fun x => by dsimp only; omega
      · rw [if_neg hseam]
        have heq : pLoOf mid = pLoOf ls := by omega
        rw [heq]
        exact Joined.of (h.still (le_refl 0)) (.body (by omega) (.inl rfl)) rfl fun x => by dsimp only; omega

end Merge

/-! ## The runs of a state -/

/-- Runs of the posted bytes that keep off each other. -/
structure RunsOk (cs : CryptoState) (c : Nat → UInt8) (runs : BTreeMap CryptoRun) : Prop where
  is : ∀ y ∈ runs, RunIs c y.1 y.2
  inside : ∀ y ∈ runs, y.2.stop ≤ cs.cipherLen
  disjoint : ∀ y ∈ runs, ∀ z ∈ runs, y.1 < z.1 → y.2.stop ≤ z.1

/-- Some run has `x`. -/
def RunHas (runs : BTreeMap CryptoRun) (x : Nat) : Prop := ∃ y ∈ runs, y.1 ≤ x ∧ x < y.2.stop

/-- Some run has the plaintext at `x`. -/
def Decrypted (runs : BTreeMap CryptoRun) (x : Nat) : Prop := ∃ y ∈ runs, InRegion y.2 x

/-- `k` is a boundary of blocks inside or at the ends of a run's plaintext. -/
def Spanned (runs : BTreeMap CryptoRun) (k : Nat) : Prop :=
  ∃ y ∈ runs, y.2.pLo < y.2.pHi ∧ y.2.pLo ≤ k ∧ k ≤ y.2.pHi

/-- A run ends where another starts. -/
def Touch (runs : BTreeMap CryptoRun) (t : Nat) : Prop := (∃ y ∈ runs, y.2.stop = t) ∧ ∃ z ∈ runs, z.1 = t

/-- What merges leave of a state. -/
structure Merged (cs : CryptoState) (c : Nat → UInt8) (s s' : CryptoSt × List UInt8) : Prop where
  ok : RunsOk cs c s'.1.runs
  has : ∀ x, RunHas s'.1.runs x ↔ RunHas s.1.runs x
  filed : Filed cs c (Decrypted s'.1.runs) s'.1 s'.2
  crcFull : CrcFull cs (Decrypted s.1.runs) s.1 → CrcFull cs (Decrypted s'.1.runs) s'.1
  wrote : ∀ x, Wrote cs c s.2 x → Wrote cs c s'.2 x
  inflight : s'.1.inflight = s.1.inflight
  touch : ∀ t, Touch s'.1.runs t → Touch s.1.runs t
  spanned : ∀ k, Spanned s.1.runs k → Spanned s'.1.runs k
  checkpoints : ∀ y ∈ s'.1.checkpoints, y ∈ s.1.checkpoints ∨ Spanned s'.1.runs y.1

theorem Merged.refl {s : CryptoSt × List UInt8} (h : RunsOk cs c s.1.runs)
    (hf : Filed cs c (Decrypted s.1.runs) s.1 s.2) : Merged cs c s s :=
  ⟨h, fun _ => .rfl, hf, id, fun _ => id, rfl, fun _ => id, fun _ => id, fun _ => .inl⟩

theorem Merged.trans {s₁ s₂ s₃ : CryptoSt × List UInt8} (h : Merged cs c s₁ s₂)
    (h' : Merged cs c s₂ s₃) : Merged cs c s₁ s₃ where
  ok := h'.ok
  has x := (h'.has x).trans (h.has x)
  filed := h'.filed
  crcFull hf := h'.crcFull (h.crcFull hf)
  wrote x hx := h'.wrote x (h.wrote x hx)
  inflight := h'.inflight.trans h.inflight
  touch t ht := h.touch t (h'.touch t ht)
  spanned k hk := h'.spanned k (h.spanned k hk)
  checkpoints y hy := (h'.checkpoints y hy).elim
    (fun hy => (h.checkpoints y hy).imp_right (h'.spanned y.1)) .inr

/-- A run ends before the next one starts, so the one that reaches `mid` is the last below it. -/
theorem RunsOk.lastLT {runs : BTreeMap CryptoRun} (h : RunsOk cs c runs) {mid : Nat}
    {y x : Nat × CryptoRun} (hy : y ∈ runs) (hstop : y.2.stop = mid) (hx : runs.lastLT mid = some x) :
    y = x := by
  obtain ⟨hxm, hxlt, hmax⟩ := lastLT_some hx
  have hylt := (h.is y hy).bounds.1
  have hle := hmax y hy (by omega)
  refine mem_unique hy hxm (le_antisymm hle (not_lt.mp fun hlt => ?_))
  have := h.disjoint y hy x hxm hlt
  omega

/-- `merge_at` makes one run of the two that meet at `mid`, if they do. -/
theorem mergeAt_spec {st : CryptoSt} {file : List UInt8} (h : RunsOk cs c st.runs)
    (hf : Filed cs c (Decrypted st.runs) st file) (mid : Nat) :
    Merged cs c (st, file) (cs.mergeAt st file mid) ∧ ¬ Touch (cs.mergeAt st file mid).1.runs mid := by
  unfold mergeAt
  cases hlast : st.runs.lastLT mid with
  | none =>
    refine ⟨.refl h hf, ?_⟩
    rintro ⟨⟨y, hy, hstop⟩, -⟩
    have hylt := (h.is y hy).bounds.1
    have := lastLT_none hlast hy
    omega
  | some x =>
  cases hget : st.runs.get mid with
  | none =>
    refine ⟨.refl h hf, ?_⟩
    rintro ⟨-, z, hz, hzm⟩
    exact get_eq_none.mp hget z hz hzm
  | some right =>
  obtain ⟨ls, left⟩ := x
  obtain ⟨hl, hlt, hmax⟩ := lastLT_some hlast
  have hr := get_eq_some.mp hget
  dsimp only at hlt ⊢
  by_cases hmeet : left.stop = mid
  case neg =>
    rw [if_pos hmeet]
    refine ⟨.refl h hf, ?_⟩
    rintro ⟨⟨y, hy, hstop⟩, -⟩
    obtain rfl := h.lastLT hy hstop hlast
    exact hmeet hstop
  case pos =>
  rw [if_neg (not_not.mpr hmeet)]
  subst hmeet
  have hmidr := (h.is _ hr).bounds
  dsimp only at hmidr
  -- other runs keep off the two
  have hother : ∀ y ∈ st.runs, y.1 ≠ left.stop → y.1 ≠ ls → y.2.stop ≤ ls ∨ right.stop ≤ y.1 :=
    fun y hy hyr hyl => by
      rcases lt_or_ge y.1 ls with hlo | hhi
      · exact .inl (h.disjoint y hy _ hl hlo)
      · have hlt' : ls < y.1 := by omega
        have hle := h.disjoint _ hl y hy hlt'
        dsimp only at hle
        exact .inr (h.disjoint _ hr y hy (by dsimp only; omega))
  have hfree : ∀ x, ls ≤ x → x < right.stop → Decrypted st.runs x → InRegion left x ∨ InRegion right x := by
    rintro x hlo hhi ⟨y, hy, hx⟩
    by_cases hyr : y.1 = left.stop
    · obtain rfl := mem_unique hy hr hyr
      exact .inr hx
    · by_cases hyl : y.1 = ls
      · obtain rfl := mem_unique hy hl hyl
        exact .inl hx
      · have hb := (h.is y hy).bounds
        have := hother y hy hyr hyl
        unfold InRegion at hx
        omega
  have hf' : Filed cs c (Decrypted st.runs) { st with runs := (st.runs.remove ls).remove left.stop } file :=
    ⟨hf.wrote, hf.short, hf.checkpoints, hf.pad, hf.crc, hf.crcIn⟩
  obtain ⟨a, b, hj⟩ : ∃ a b, Joined cs c (Decrypted st.runs) ls left right
      { st with runs := (st.runs.remove ls).remove left.stop } file
      (if (decide (left.pLo < left.pHi) || decide (ls = 0)) = true then
        cs.mergeForward { st with runs := (st.runs.remove ls).remove left.stop } file left right
      else cs.mergeSliver { st with runs := (st.runs.remove ls).remove left.stop } file ls left right)
      a b := by
    split
    case isTrue hcan =>
      rw [or_eq_true, decide_eq_true_eq, decide_eq_true_eq] at hcan
      exact mergeForward_spec hf' (h.is _ hl) (h.is _ hr) hcan (h.inside _ hr) hfree
    case isFalse hcan =>
      rw [or_eq_true, decide_eq_true_eq, decide_eq_true_eq] at hcan
      exact mergeSliver_spec hf' (h.is _ hl) (h.is _ hr) hcan (h.inside _ hr) hfree
  generalize (if (decide (left.pLo < left.pHi) || decide (ls = 0)) = true then
      cs.mergeForward { st with runs := (st.runs.remove ls).remove left.stop } file left right
    else cs.mergeSliver { st with runs := (st.runs.remove ls).remove left.stop } file ls left right) = r
    at hj ⊢
  obtain ⟨st', file', merged⟩ := r
  obtain ⟨hgrew, hrun, hstop, hregion, hseam, hspanl, hspanr⟩ := hj
  dsimp only at hgrew hrun hstop hregion hseam hspanl hspanr ⊢
  have hmem : ∀ y, y ∈ st'.runs.insert ls merged ↔
      y = (ls, merged) ∨ (y ∈ st.runs ∧ y.1 ≠ ls ∧ y.1 ≠ left.stop) := fun y => by
    rw [mem_insert, hgrew.runs, mem_remove, mem_remove]
    tauto
  have hnew : (ls, merged) ∈ st'.runs.insert ls merged := (hmem _).mpr (.inl rfl)
  have hold : ∀ y ∈ st.runs, y = (left.stop, right) ∨ y = (ls, left) ∨
      y ∈ st'.runs.insert ls merged := fun y hy => by
    by_cases hyr : y.1 = left.stop
    · exact .inl (mem_unique hy hr hyr)
    by_cases hyl : y.1 = ls
    · exact .inr (.inl (mem_unique hy hl hyl))
    · exact .inr (.inr ((hmem y).mpr (.inr ⟨hy, hyl, hyr⟩)))
  have hD : ∀ x, (Decrypted st.runs x ∨ (a ≤ x ∧ x < b)) ↔ Decrypted (st'.runs.insert ls merged) x := by
    intro x
    constructor
    · rintro (⟨y, hy, hx⟩ | hx)
      · rcases hold y hy with rfl | rfl | hy
        · exact ⟨_, hnew, (hregion x).mpr (.inr (.inl hx))⟩
        · exact ⟨_, hnew, (hregion x).mpr (.inl hx)⟩
        · exact ⟨y, hy, hx⟩
      · exact ⟨_, hnew, (hregion x).mpr (.inr (.inr hx))⟩
    · rintro ⟨y, hy, hx⟩
      rcases (hmem y).mp hy with rfl | ⟨hy, -, -⟩
      · rcases (hregion x).mp hx with hx | hx | hx
        · exact .inl ⟨_, hl, hx⟩
        · exact .inl ⟨_, hr, hx⟩
        · exact .inr hx
      · exact .inl ⟨y, hy, hx⟩
  have hfiled := hgrew.filed.mono hD
  refine ⟨⟨⟨fun y hy => ?_, fun y hy => ?_, fun y hy z hz hyz => ?_⟩, fun x => ?_, ?_, fun hfull => ?_,
    hgrew.wrote, hgrew.inflight, ?_, fun k => ?_, fun y hy => ?_⟩, ?_⟩
  · rcases (hmem y).mp hy with rfl | ⟨hy, -, -⟩
    · exact hrun
    · exact h.is y hy
  · rcases (hmem y).mp hy with rfl | ⟨hy, -, -⟩
    · exact hstop.le.trans (h.inside _ hr)
    · exact h.inside y hy
  · rcases (hmem y).mp hy with rfl | ⟨hy, hyl, hyr⟩
    · rcases (hmem z).mp hz with rfl | ⟨hz, hzl, hzr⟩
      · exact absurd hyz (lt_irrefl _)
      · have hz' := hother z hz hzr hzl
        have hb := (h.is z hz).bounds
        dsimp only at hyz ⊢
        omega
    · rcases (hmem z).mp hz with rfl | ⟨hz, hzl, hzr⟩
      · exact h.disjoint y hy (ls, left) hl hyz
      · exact h.disjoint y hy z hz hyz
  · constructor
    · rintro ⟨y, hy, hlo, hhi⟩
      rcases (hmem y).mp hy with rfl | ⟨hy, -, -⟩
      · dsimp only at hlo hhi
        by_cases hx : x < left.stop
        · exact ⟨_, hl, hlo, hx⟩
        · exact ⟨_, hr, not_lt.mp hx, by dsimp only; omega⟩
      · exact ⟨y, hy, hlo, hhi⟩
    · rintro ⟨y, hy, hlo, hhi⟩
      rcases hold y hy with rfl | rfl | hy
      · exact ⟨_, hnew, by dsimp only at hlo ⊢; omega, by dsimp only at hhi ⊢; omega⟩
      · exact ⟨_, hnew, hlo, by dsimp only at hhi ⊢; omega⟩
      · exact ⟨y, hy, hlo, hhi⟩
  · exact ⟨hfiled.wrote, hfiled.short, hfiled.checkpoints, hfiled.pad, hfiled.crc, hfiled.crcIn⟩
  · have hcrc := (hgrew.crcFull ⟨hfull.apart, hfull.has⟩).mono fun x hx => (hD x).mpr hx
    exact ⟨hcrc.apart, hcrc.has⟩
  · rintro t ⟨⟨y, hy, hyt⟩, z, hz, hzt⟩
    refine ⟨?_, ?_⟩
    · rcases (hmem y).mp hy with rfl | ⟨hy, -, -⟩
      · exact ⟨_, hr, hstop.symm.trans hyt⟩
      · exact ⟨y, hy, hyt⟩
    · rcases (hmem z).mp hz with rfl | ⟨hz, -, -⟩
      · exact ⟨_, hl, hzt⟩
      · exact ⟨z, hz, hzt⟩
  · rintro ⟨y, hy, hlt', hlo, hhi⟩
    rcases hold y hy with rfl | rfl | hy
    · have := hspanr hlt'
      exact ⟨_, hnew, by dsimp only at *; omega⟩
    · have := hspanl hlt'
      exact ⟨_, hnew, by dsimp only at *; omega⟩
    · exact ⟨y, hy, hlt', hlo, hhi⟩
  · refine (hgrew.checkpoints y hy).imp_right fun hck => ⟨_, hnew, ?_⟩
    dsimp only
    omega
  · rintro ⟨-, z, hz, hzm⟩
    rcases (hmem z).mp hz with rfl | ⟨-, -, hzr⟩
    · dsimp only at hzm
      omega
    · exact hzr hzm

end CryptoState

end NzbFast.Extract
