import NzbFast.Journal.Recrypt

/-!
# When re-encryption cannot panic

A walk reads 64 KiB at a time and takes the last 16 bytes of each read as the
new chain block, so it panics on a last read of 1 to 15 bytes (`ShortWalk`).
That takes a checkpoint off the 16-byte grid, nearest below a fragment: the
rolling chain is always on the grid. Nothing else in a job panics but a buffer
longer than `isize::MAX`.
-/

namespace NzbFast.Journal

open NzbFast.Rust Fold Total Option
open List hiding not_le not_lt
open Wire (Block)

/-! ## Offsets -/

theorem align16_mod (n : Nat) : align16 n % 16 = 0 := Nat.mul_mod_left _ _

/-- A block below the rounded length starts below the length. -/
theorem lt_of_lt_align16 {unp lo : Nat} (hlo : lo % 16 = 0) (h : lo < align16 unp) : lo < unp := by
  unfold align16 at h
  omega

/-- The first block a fragment touches, and the end of its last. -/
def blockLo (off : Nat) : Nat := off / 16 * 16

def blockHi (unp stop : Nat) : Nat := min ((stop + 15) / 16 * 16) (align16 unp)

theorem blockHi_le (unp stop : Nat) : blockHi unp stop ≤ align16 unp := min_le_right _ _

theorem blockHi_mod (unp stop : Nat) : blockHi unp stop % 16 = 0 := by
  have := align16_mod unp
  unfold blockHi
  omega

/-- The remainder of a walk in whole reads is 1 to 15 bytes. -/
def ShortRest (n : Nat) : Prop := 0 < n % WALK ∧ n % WALK < 16

theorem not_shortRest {n : Nat} (h : n % 16 = 0) : ¬ ShortRest n := by
  unfold ShortRest WALK
  omega

/-! ## Sorted lists -/

section Sorted

variable {α : Type} {f : α → Nat} {l : List α} {t : Nat} {x : α}

/-- What `partition_point` leaves in front of a sorted list. -/
theorem mem_takeWhile_le (h : l.Pairwise fun x y => f x ≤ f y) :
    x ∈ l.takeWhile (fun x => f x ≤ t) ↔ x ∈ l ∧ f x ≤ t := by
  induction l with
  | nil => simp
  | cons y l ih =>
    obtain ⟨hy, hl⟩ := pairwise_cons.mp h
    by_cases hyt : f y ≤ t
    · rw [takeWhile_cons_of_pos (by simpa using hyt), mem_cons, mem_cons, ih hl]
      constructor
      · rintro (rfl | ⟨hx, hxt⟩)
        · exact ⟨.inl rfl, hyt⟩
        · exact ⟨.inr hx, hxt⟩
      · rintro ⟨rfl | hx, hxt⟩
        · exact .inl rfl
        · exact .inr ⟨hx, hxt⟩
    · rw [takeWhile_cons_of_neg (by simpa using hyt)]
      refine iff_of_false not_mem_nil ?_
      rintro ⟨hx, hxt⟩
      rcases mem_cons.mp hx with rfl | hx
      · exact hyt hxt
      · exact hyt ((hy x hx).trans hxt)

theorem lt_of_mem_dropWhile_le (h : l.Pairwise fun x y => f x ≤ f y)
    (hx : x ∈ l.dropWhile fun x => f x ≤ t) : t < f x := by
  induction l with
  | nil => cases hx
  | cons y l ih =>
    obtain ⟨hy, hl⟩ := pairwise_cons.mp h
    by_cases hyt : f y ≤ t
    · rw [dropWhile_cons_of_pos (by simpa using hyt)] at hx
      exact ih hl hx
    · rw [dropWhile_cons_of_neg (by simpa using hyt)] at hx
      rcases mem_cons.mp hx with rfl | hx
      · omega
      · have := hy x hx
        omega

/-- The last entry past `own`, or `own`: nothing in the list is past it. -/
theorem find_reverse_spec (h : l.Pairwise fun x y => f x ≤ f y) (own : α) :
    let r := (l.reverse.find? fun x => f own < f x).getD own
    (r = own ∨ r ∈ l ∧ f own < f r) ∧ ∀ x ∈ l, f x ≤ f r := by
  cases hfind : l.reverse.find? fun x => f own < f x with
  | none =>
    refine ⟨.inl rfl, fun x hx => ?_⟩
    have := find?_eq_none.mp hfind x (mem_reverse.mpr hx)
    simpa using this
  | some r =>
    rw [getD_some]
    obtain ⟨hr, pre, post, heq, hpre⟩ := find?_eq_some_iff_append.mp hfind
    have hr : f own < f r := by simpa using hr
    have hmem : ∀ x, x ∈ l ↔ x ∈ pre ++ r :: post := fun x => by rw [← heq, mem_reverse]
    refine ⟨.inr ⟨(hmem r).mpr (by simp), hr⟩, fun x hx => ?_⟩
    have hrev : (pre ++ r :: post).Pairwise fun x y => f y ≤ f x := by
      rw [← heq]
      exact pairwise_reverse.mpr h
    rcases mem_append.mp ((hmem x).mp hx) with hx | hx
    · have hx : f x ≤ f own := by simpa using hpre x hx
      omega
    · rcases mem_cons.mp hx with rfl | hx
      · exact le_refl _
      · exact (pairwise_cons.mp (pairwise_append.mp hrev).2.1).1 x hx

end Sorted

/-- The nearest checkpoint below a fragment's first block `lo` is a short rest away from it. -/
def ShortWalk (checkpoint : Nat → Prop) (lo : Nat) : Prop :=
  lo < 2 ^ 63 ∧ ∃ ko, checkpoint ko ∧ 0 < ko ∧ ko ≤ lo ∧ (∀ k, checkpoint k → k ≤ lo → k ≤ ko) ∧
    ShortRest (lo - ko)

namespace Output

variable {δ : Type} {d : Disk δ} {out : Output}

def HasCheckpoint (out : Output) (ko : Nat) : Prop := ∃ x ∈ out.ckpts, x.1 = ko

def Sorted (out : Output) : Prop := out.ckpts.Pairwise fun x y => x.1 ≤ y.1

/-! ## The anchor -/

/-- The anchor is the rolling state, the start, or a checkpoint past it; it does not lie past the
target, and no checkpoint lies between. -/
theorem anchor_spec (hs : out.Sorted) (cpos : Nat) (chain : List UInt8) (target : Nat) :
    let at_ := (out.anchor cpos chain target).1
    at_ ≤ target ∧ (∀ k, out.HasCheckpoint k → k ≤ target → k ≤ at_) ∧
      (at_ = cpos ∨ at_ = 0 ∨ 0 < at_ ∧ out.HasCheckpoint at_) := by
  obtain ⟨own, hown⟩ : ∃ own : Nat × List UInt8,
      own = if cpos ≤ target then (cpos, chain) else (0, out.iv) := ⟨_, rfl⟩
  have hle : own.1 ≤ target ∧ (own.1 = cpos ∨ own.1 = 0) := by
    rw [hown]
    split_ifs with hc
    · exact ⟨hc, .inl rfl⟩
    · exact ⟨Nat.zero_le _, .inr rfl⟩
  have hbelow : (out.ckpts.takeWhile fun x => x.1 ≤ target).Pairwise fun x y => x.1 ≤ y.1 :=
    List.Pairwise.sublist (takeWhile_sublist _) hs
  obtain ⟨hcase, hmax⟩ := find_reverse_spec hbelow own
  have hanchor : out.anchor cpos chain target =
      ((out.ckpts.takeWhile fun x => x.1 ≤ target).reverse.find? fun x => own.1 < x.1).getD own := by
    rw [hown]
    rfl
  rw [← hanchor] at hcase hmax
  refine ⟨?_, ?_, ?_⟩
  · rcases hcase with heq | ⟨hmem, -⟩
    · rw [heq]
      exact hle.1
    · exact ((mem_takeWhile_le hs).mp hmem).2
  · rintro k ⟨x, hx, rfl⟩ hxt
    exact hmax x ((mem_takeWhile_le hs).mpr ⟨hx, hxt⟩)
  · rcases hcase with heq | ⟨hmem, hlt⟩
    · rw [heq]
      rcases hle.2 with h | h
      · exact .inl h
      · exact .inr (.inl h)
    · exact .inr (.inr ⟨by omega, _, ((mem_takeWhile_le hs).mp hmem).1, rfl⟩)

/-- The checkpoints a walk to `target` still has ahead lie past it. -/
theorem ahead_of_anchor (hs : out.Sorted) (cpos : Nat) (chain : List UInt8) (target : Nat) :
    ∀ x ∈ out.ckpts.dropWhile (fun x => x.1 ≤ (out.anchor cpos chain target).1), target < x.1 := by
  intro x hx
  obtain ⟨-, hnear, -⟩ := anchor_spec hs cpos chain target
  have hmem := (dropWhile_sublist _).subset hx
  have hlt := lt_of_mem_dropWhile_le hs hx
  by_contra hno
  exact absurd (hnear _ ⟨x, hmem, rfl⟩ (not_lt.mp hno)) (not_le.mpr hlt)

/-! ## Walks -/

/-- A walk passes no checkpoint: the anchor is the nearest one. -/
theorem crossVerify_ahead {walk : List UInt8} {n : Nat} {c : List UInt8} {at_ : Nat}
    {next : List (Nat × List UInt8)} (h : ∀ x ∈ next, at_ < x.1) :
    crossVerify walk n c at_ next = some (some next) := by
  cases next with
  | nil => rfl
  | cons x next => rw [crossVerify, if_pos (h x (.head _))]

/-- A walk whose last read is not a short one, or is never made, ends at its target or gives up. -/
theorem walkTo_total {target : Nat} {next : List (Nat × List UInt8)}
    (hnext : ∀ x ∈ next, target < x.1) {at_ : Nat} (hat : at_ ≤ target) (c : List UInt8)
    (hrest : out.srcLen < target ∨ ¬ ShortRest (target - at_)) :
    Total (out.walkTo d target at_ c next) fun r => ∀ x, r = some x → x.1 = target := by
  induction hn : target - at_ using Nat.strong_induction_on generalizing at_ c with
  | _ n ih =>
    rw [walkTo]
    by_cases hlt : at_ < target
    swap
    · rw [if_neg hlt]
      refine .pure fun x hx => ?_
      rw [← some.inj hx]
      omega
    rw [if_pos hlt]
    by_cases hsrc : out.srcLen < at_ + min (target - at_) WALK
    · rw [if_pos hsrc]
      exact .pure fun x hx => by cases hx
    rw [if_neg hsrc]
    refine bind (Q := fun r => ∀ bytes, r = some bytes →
      bytes.length = min (target - at_) WALK) (.ask fun s bytes => d.length_readExactAt _ _ _ s bytes)
      fun r hr => ?_
    cases r with
    | none => exact .pure fun x hx => by cases hx
    | some bytes =>
      have hlen := hr bytes rfl
      have hwalk : WALK = 65536 := rfl
      have h16 : 16 ≤ min (target - at_) WALK := by
        unfold ShortRest at hrest
        rw [hwalk] at hrest hsrc ⊢
        omega
      refine bind (.orPanic (Q := fun _ => True) (lastBlock_eq h16 ?_) trivial) fun c' _ => ?_
      · rw [length_encrypt, hlen]
      refine bind (.orPanic (Q := fun r => r = some next) (crossVerify_ahead fun x hx =>
        lt_of_le_of_lt (by omega) (hnext x hx)) rfl) fun r hr => ?_
      subst hr
      refine ih (target - (at_ + min (target - at_) WALK)) ?_ (by omega) c' ?_ rfl
      · omega
      · unfold ShortRest at hrest ⊢
        rw [hwalk] at hrest ⊢
        omega

theorem chainTo_total (hs : out.Sorted) (hsrc : out.srcLen < 2 ^ 63) {cpos : Nat}
    (hcpos : cpos % 16 = 0) (chain : List UInt8) {lo : Nat} (hlo : lo % 16 = 0)
    (hshort : ¬ ShortWalk out.HasCheckpoint lo) :
    Total (out.chainTo d cpos chain lo) fun r => ∀ x, r = some x → x.1 = lo := by
  unfold chainTo
  split_ifs with heq
  · refine .pure fun x hx => ?_
    rw [← some.inj hx]
    exact heq
  · obtain ⟨hle, hnear, hcase⟩ := anchor_spec hs cpos chain lo
    refine walkTo_total (ahead_of_anchor hs cpos chain lo) hle _ ?_
    rcases hcase with h | h | ⟨hpos, hck⟩
    · exact .inr (not_shortRest (by omega))
    · exact .inr (not_shortRest (by omega))
    · by_cases hrest : ShortRest (lo - (out.anchor cpos chain lo).1)
      · exact .inl (hsrc.trans_le (not_lt.mp fun hlt =>
          hshort ⟨hlt, _, hck, hpos, hle, hnear, hrest⟩))
      · exact .inr hrest

/-! ## Jobs -/

theorem plain_total {lo hi : Nat} (hlo : lo % 16 = 0) (hlt : lo < hi) (hhi : hi ≤ align16 out.unp)
    (hsize : hi - lo ≤ ISIZE_MAX) :
    Total (out.plain d lo hi) fun r => ∀ buf, r = some buf → buf.length = hi - lo := by
  have hunp : lo < out.unp := lt_of_lt_align16 hlo (hlt.trans_le hhi)
  unfold plain
  rw [if_neg (not_lt.mpr hsize)]
  by_cases hsrc : out.srcLen < min hi out.unp
  · rw [if_pos hsrc]
    exact .pure fun buf hbuf => by cases hbuf
  rw [if_neg hsrc, if_pos (Nat.lt_min.mpr ⟨hlt, hunp⟩)]
  refine bind (Q := fun r => ∀ bytes, r = some bytes → bytes.length = min hi out.unp - lo)
    (.ask fun s bytes => d.length_readExactAt _ _ _ s bytes) fun r hr => ?_
  cases r with
  | none => exact .pure fun buf hbuf => by cases hbuf
  | some bytes =>
    have hlen := hr bytes rfl
    have hbuf : (bytes ++ replicate (hi - lo - bytes.length) 0).length = hi - lo := by
      rw [length_append, length_replicate]
      omega
    dsimp only
    by_cases hpast : out.unp < hi
    swap
    · rw [if_neg hpast]
      refine .pure fun buf hb => ?_
      rw [← some.inj hb, hbuf]
    rw [if_pos hpast]
    cases hpad : out.pad with
    | none => exact .pure fun buf hb => by cases hb
    | some pad =>
      dsimp only
      by_cases hshort : pad.length < hi - out.unp
      · rw [if_pos hshort]
        exact .pure fun buf hb => by cases hb
      rw [if_neg hshort]
      have htake : (pad.take (hi - out.unp)).length = hi - out.unp := by
        rw [length_take]
        omega
      refine bind (.orPanic (Q := fun a => a = out.unp - lo) (usizeSub_eq (by omega)) rfl)
        fun a ha => ?_
      subst ha
      have hcopy : copyTail (bytes ++ replicate (hi - lo - bytes.length) 0) (out.unp - lo)
          (pad.take (hi - out.unp)) = some ((bytes ++ replicate (hi - lo - bytes.length) 0).take
            (out.unp - lo) ++ pad.take (hi - out.unp)) := if_pos ⟨by omega, by omega⟩
      refine bind (.orPanic (Q := fun buf => buf.length = hi - lo) hcopy ?_) fun buf hb => ?_
      · rw [length_append, length_take, htake, hbuf]
        omega
      · refine .pure fun buf' hb' => ?_
        rw [← some.inj hb', hb]

/-- What every job leaves: the articles, and the rolling state on the block grid. -/
def Carried (n : Nat) (st : Recrypt) : Prop := st.articleOk.length = n ∧ st.cpos % 16 = 0

theorem fail_total {n : Nat} {st : Recrypt} (hst : Carried n st) {j : CryptoRestoreJob}
    (hj : j.article < n) : Total (orPanic (st.fail j) : Ask δ Recrypt) (Carried n) := by
  have hset : setAt st.articleOk j.article false = some (st.articleOk.set j.article false) :=
    if_pos (hst.1 ▸ hj)
  refine .orPanic (a := { st with articleOk := st.articleOk.set j.article false }) ?_ ⟨?_, hst.2⟩
  · rw [Recrypt.fail, hset]
    rfl
  · rw [length_set, hst.1]

theorem restoreJob_total (hs : out.Sorted) (hsrc : out.srcLen < 2 ^ 63) {n : Nat} {st : Recrypt}
    (hst : Carried n st) {j : CryptoRestoreJob} (hj : j.article < n)
    (hjob : j.fileOff + j.len ≤ align16 out.unp →
      blockLo j.fileOff < blockHi out.unp (j.fileOff + j.len) →
      ¬ ShortWalk out.HasCheckpoint (blockLo j.fileOff) ∧
        blockHi out.unp (j.fileOff + j.len) - blockLo j.fileOff ≤ ISIZE_MAX) :
    Total (out.restoreJob d st j) (Carried n) := by
  unfold restoreJob
  by_cases hout : 2 ^ 64 ≤ j.fileOff + j.len ∨ out.cipherLen < j.fileOff + j.len
  · rw [if_pos hout]
    exact fail_total hst hj
  rw [if_neg hout]
  obtain ⟨-, hend⟩ := not_or.mp hout
  have hend := not_lt.mp hend
  rw [show min ((j.fileOff + j.len + 15) / 16 * 16) out.cipherLen =
    blockHi out.unp (j.fileOff + j.len) from rfl,
    show j.fileOff / 16 * 16 = blockLo j.fileOff from rfl]
  by_cases hempty : blockHi out.unp (j.fileOff + j.len) ≤ blockLo j.fileOff
  · rw [if_pos hempty]
    exact fail_total hst hj
  rw [if_neg hempty]
  have hlt := not_le.mp hempty
  obtain ⟨hshort, hsize⟩ := hjob hend hlt
  have hlo : blockLo j.fileOff % 16 = 0 := Nat.mul_mod_left _ _
  refine (chainTo_total hs hsrc hst.2 st.chain hlo hshort).bind fun r hr => ?_
  cases r with
  | none =>
    exact (fail_total hst hj).bind fun st' hst' => .pure ⟨hst'.1, rfl⟩
  | some x =>
    obtain ⟨cpos, chain⟩ := x
    obtain rfl : cpos = blockLo j.fileOff := hr _ rfl
    have hst' : Carried n { st with cpos := blockLo j.fileOff, chain := chain } := ⟨hst.1, hlo⟩
    refine (plain_total hlo hlt (blockHi_le _ _) hsize).bind fun r hr => ?_
    cases r with
    | none => exact fail_total hst' hj
    | some buf =>
      have hbuf := hr buf rfl
      have henc : (encrypt out.aes chain buf).length =
          blockHi out.unp (j.fileOff + j.len) - blockLo j.fileOff := by rw [length_encrypt, hbuf]
      have hmod := blockHi_mod out.unp (j.fileOff + j.len)
      refine bind (.orPanic (Q := fun _ => True) (lastBlock_eq ?_ henc.ge) trivial)
        fun newChain _ => ?_
      · omega
      refine bind (Q := fun _ => True) ?_ fun opened _ => ?_
      · unfold Recrypt.openDest
        split
        · exact .pure trivial
        · exact .ask fun _ => trivial
      have hst' : Carried n { st with
          cpos := blockLo j.fileOff
          chain := chain
          dests := st.dests.insert j.dest opened } := ⟨hst.1, hlo⟩
      cases opened with
      | false => exact fail_total hst' hj
      | true =>
        have hle : blockLo j.fileOff ≤ j.fileOff := Nat.div_mul_le_self _ _
        have hstop : j.fileOff + j.len ≤ blockHi out.unp (j.fileOff + j.len) :=
          Nat.le_min.mpr ⟨by omega, hend⟩
        refine bind (.orPanic (Q := fun a => a = j.fileOff - blockLo j.fileOff)
          (usizeSub_eq hle) rfl) fun a ha => ?_
        refine bind (.orPanic (Q := fun _ => True) (sliceRange_eq (Nat.le_add_right _ _) ?_)
          trivial) fun piece _ => ?_
        · rw [henc]
          omega
        refine bind (Q := fun _ => True) (.ask fun _ => trivial) fun written _ => ?_
        cases written with
        | false => exact fail_total hst' hj
        | true => exact .pure ⟨hst.1, hmod⟩

end Output

/-! ## Outputs -/

/-- The condition on a fragment `[off, off + len)` of an output: past the declared length it is
refused; else its walk is not short and its buffer fits. -/
def Sound (f : CryptoFileMeta) (off len : Nat) : Prop :=
  off + len ≤ align16 f.unp.toNat → blockLo off < blockHi f.unp.toNat (off + len) →
    ¬ ShortWalk (fun ko => ∃ k ∈ f.checkpoints, k.toNat = ko) (blockLo off) ∧
      blockHi f.unp.toNat (off + len) - blockLo off ≤ ISIZE_MAX

section Checkpoints

variable (o : HashOrder UInt64) (t : Table UInt64 (Bytes 16))

theorem sorted_sortedCheckpoints :
    (sortedCheckpoints o t).Pairwise fun x y => x.1 ≤ y.1 := by
  have h : (sortedCheckpoints o t).Pairwise fun x y => decide (x.1 ≤ y.1) = true := by
    refine pairwise_mergeSort (fun a b c hab hbc => ?_) (fun a b => ?_) _
    · rw [decide_eq_true_eq] at hab hbc ⊢
      exact hab.trans hbc
    · rw [Bool.or_eq_true, decide_eq_true_eq, decide_eq_true_eq]
      exact le_total _ _
  exact h.imp fun hab => of_decide_eq_true hab

theorem mem_sortedCheckpoints (ko : Nat) :
    (∃ x ∈ sortedCheckpoints o t, x.1 = ko) ↔ ∃ k ∈ t, k.toNat = ko := by
  unfold sortedCheckpoints
  simp only [mem_mergeSort, mem_filterMap, map_eq_some_iff, o.mem, Finmap.mem_keys]
  constructor
  · rintro ⟨x, ⟨k, hk, b, -, rfl⟩, rfl⟩
    exact ⟨k, hk, rfl⟩
  · rintro ⟨k, hk, rfl⟩
    obtain ⟨b, hb⟩ := isSome_iff_exists.mp (Finmap.lookup_isSome.mpr hk)
    exact ⟨_, ⟨k, hk, b, hb, rfl⟩, rfl⟩

end Checkpoints

section Totals

variable {δ : Type} (d : Disk δ) (kdf : Kdf) (o : HashOrder UInt64)

theorem failAll_total {jobs : List CryptoRestoreJob} {ok : List Bool}
    (h : ∀ j ∈ jobs, j.article < ok.length) :
    Total (orPanic (failAll jobs ok) : Ask δ (List Bool)) fun ok' => ok'.length = ok.length := by
  have hidx : ∀ i ∈ jobs.map (·.article), i < ok.length := by
    intro i hi
    obtain ⟨j, hj, rfl⟩ := mem_map.mp hi
    exact h j hj
  obtain ⟨ok', heq, hlen⟩ := foldlM_setAt false hidx
  rw [foldlM_map] at heq
  exact .orPanic heq hlen

theorem restoreOutput_total {files : Table Text CryptoFileMeta} {password name : Text}
    {jobs : List CryptoRestoreJob} {ok : List Bool} (h : ∀ j ∈ jobs, j.article < ok.length)
    (hsound : ∀ f, files.lookup name = some f → (provenKeys kdf password f).isSome = true →
      ∀ j ∈ jobs, Sound f j.fileOff j.len) :
    Total (restoreOutput d kdf o files password name jobs ok) fun ok' => ok'.length = ok.length := by
  unfold restoreOutput
  cases hf : files.lookup name with
  | none => exact failAll_total h
  | some f =>
    dsimp only
    cases hkeys : provenKeys kdf password f with
    | none => exact failAll_total h
    | some keys =>
      refine bind (Q := fun _ => True) (.ask fun _ => trivial) fun opened _ => ?_
      cases opened with
      | false => exact failAll_total h
      | true =>
        refine bind (Q := fun r => r.getD 0 < 2 ^ 63) (.ask fun s => ?_) fun srcLen hsrc => ?_
        · cases hlen : (d.metadataLen name s).1 with
          | none => exact Nat.two_pow_pos 63
          | some n => exact d.metadataLen_lt _ _ _ hlen
        refine bind (Q := Output.Carried ok.length) ?_ fun st hst => .pure hst.1
        refine foldlM (fun j hj st hst => ?_) ⟨rfl, rfl⟩
        have hmem := mem_mergeSort.mp hj
        refine Output.restoreJob_total ?_ hsrc hst (h j hmem) fun hend hlt => ?_
        · exact sorted_sortedCheckpoints o f.checkpoints
        have hcks := funext fun ko => propext (mem_sortedCheckpoints o f.checkpoints ko)
        have hj := hsound f hf (by rw [hkeys]; rfl) j hmem hend hlt
        rw [← hcks] at hj
        exact hj

theorem restoreCrypto_total (oText : HashOrder Text) {files : Table Text CryptoFileMeta}
    {password : Option Text} {jobsByFile : Table Text (List CryptoRestoreJob)} {ok : List Bool}
    (h : ∀ name jobs, jobsByFile.lookup name = some jobs → ∀ j ∈ jobs, j.article < ok.length)
    (hsound : ∀ pw, password = some pw → ∀ name jobs, jobsByFile.lookup name = some jobs →
      ∀ f, files.lookup name = some f → (provenKeys kdf pw f).isSome = true →
        ∀ j ∈ jobs, Sound f j.fileOff j.len) :
    Total (restoreCrypto d kdf o oText files password jobsByFile ok) fun ok' =>
      ok'.length = ok.length := by
  refine foldlM (I := fun ok' : List Bool => ok'.length = ok.length)
    (fun name hname ok' hok' => ?_) rfl
  obtain ⟨jobs, hjobs⟩ := isSome_iff_exists.mp
    (Finmap.lookup_isSome.mpr (Finmap.mem_keys.mp ((oText.mem _ _).mp hname)))
  have hart : ∀ j ∈ jobs, j.article < ok'.length := fun j hj => hok' ▸ h name jobs hjobs j hj
  rw [hjobs, getD_some]
  cases password with
  | none => exact (failAll_total hart).mono fun _ hl => hl.trans hok'
  | some pw =>
    exact (restoreOutput_total d kdf o hart fun f hf hkeys j hj =>
      hsound pw rfl name jobs hjobs f hf hkeys j hj).mono fun _ hl => hl.trans hok'

end Totals

end NzbFast.Journal
