import NzbFast.Journal.RecryptTotal

/-!
# When re-encryption does panic

The converse of `RecryptTotal`: a fragment whose walk is short, or whose buffer
is too long, makes some disk run into the panic. The disk is `flaky`: one file
opens, and its reads fail until a countdown is over, so no job before the
fragment moves the rolling chain past its checkpoint.
-/

namespace NzbFast.Journal

open NzbFast.Rust Fold Option

/-- Only one file opens; reads fail until the countdown is over. -/
def flaky (name : Text) : Disk Nat where
  openFile f s := (decide (f = name), s)
  metadataLen _ s := (some (2 ^ 63 - 1), s)
  readExactAt _ _ n s := if s = 0 then (some (List.replicate n 0), 0) else (none, s - 1)
  openDest _ _ s := (false, s)
  writeAllAt _ _ _ s := (false, s)
  length_readExactAt f off n s bytes h := by
    split at h
    · rw [← Option.some.inj h, List.length_replicate]
    · cases h
  metadataLen_lt f s n h := by
    rw [← Option.some.inj h]
    decide

/-- In this state every read of the file's bytes succeeds and leaves the state alone. -/
def Disk.Reads {δ : Type} (d : Disk δ) (name : Text) (len : Nat) (s : δ) : Prop :=
  ∀ off n, off + n ≤ len → ∃ bytes, d.readExactAt name off n s = (some bytes, s)

theorem reads_flaky (name file : Text) (len : Nat) : (flaky name).Reads file len 0 :=
  fun _ n _ => ⟨List.replicate n 0, rfl⟩

namespace Output

variable (name : Text) {out : Output}

/-! ## Jobs that read nothing -/

/-- Where the rolling state stands while every read fails. -/
def Stalled (out : Output) (cpos : Nat) : Prop := cpos % 16 = 0 ∧ (cpos = 0 ∨ out.HasCheckpoint cpos)

theorem walkTo_misses {target at_ : Nat} (hlt : at_ < target) (c : List UInt8)
    (next : List (Nat × List UInt8)) (t : Nat) :
    ∃ s, Ends (out.walkTo (flaky name) target at_ c next) s fun r s' => r = none ∧ s' = t := by
  rw [walkTo, if_pos hlt]
  by_cases hsrc : out.srcLen < at_ + min (target - at_) WALK
  · rw [if_pos hsrc]
    exact ⟨t, .pure ⟨rfl, rfl⟩⟩
  · rw [if_neg hsrc]
    refine ⟨t + 1, Ends.bind (Q := fun r s' => r = none ∧ s' = t) (.ask ⟨rfl, rfl⟩) fun r s' hr => ?_⟩
    obtain ⟨rfl, rfl⟩ := hr
    exact .pure ⟨rfl, rfl⟩

theorem chainTo_misses (hs : out.Sorted) {cpos : Nat} (hcpos : Stalled out cpos) (chain : List UInt8)
    {lo : Nat} (hlo : lo % 16 = 0) :
    ∃ r : Option (Nat × List UInt8), (∀ x, r = some x → x.1 = lo ∧ Stalled out lo) ∧
      ∀ t, ∃ s, Ends (out.chainTo (flaky name) cpos chain lo) s fun r' s' => r' = r ∧ s' = t := by
  unfold chainTo
  by_cases heq : cpos = lo
  · rw [if_pos heq]
    refine ⟨some (cpos, chain), fun x hx => ?_, fun t => ⟨t, .pure ⟨rfl, rfl⟩⟩⟩
    rw [← some.inj hx]
    exact ⟨heq, heq ▸ hcpos⟩
  rw [if_neg heq]
  obtain ⟨hle, -, hcase⟩ := anchor_spec hs cpos chain lo
  generalize out.anchor cpos chain lo = r at hle hcase ⊢
  rcases lt_or_eq_of_le hle with hlt | hat
  · exact ⟨none, fun x hx => (by cases hx), walkTo_misses name hlt _ _⟩
  · refine ⟨some (r.1, r.2), fun x hx => ?_, fun t => ⟨t, ?_⟩⟩
    · rw [← some.inj hx]
      refine ⟨hat, hlo, ?_⟩
      rcases hcase with h | h | ⟨-, h⟩
      · exact absurd (h.symm.trans hat) heq
      · exact .inl (hat.symm.trans h)
      · exact .inr (hat ▸ h)
    · rw [walkTo, if_neg (by omega)]
      exact .pure ⟨rfl, rfl⟩

theorem plain_misses {lo hi : Nat} (hlo : lo % 16 = 0) (hlt : lo < hi) (hhi : hi ≤ align16 out.unp)
    (t : Nat) : ∃ s, Ends (out.plain (flaky name) lo hi) s fun r s' => r = none ∧ s' = t := by
  have hunp : lo < out.unp := lt_of_lt_align16 hlo (lt_of_lt_of_le hlt hhi)
  unfold plain
  by_cases hsize : ISIZE_MAX < hi - lo
  · refine ⟨t, ?_⟩
    rw [if_pos hsize]
    exact .orPanic fun a ha => by cases ha
  rw [if_neg hsize]
  by_cases hsrc : out.srcLen < min hi out.unp
  · rw [if_pos hsrc]
    exact ⟨t, .pure ⟨rfl, rfl⟩⟩
  rw [if_neg hsrc, if_pos (Nat.lt_min.mpr ⟨hlt, hunp⟩)]
  refine ⟨t + 1, Ends.bind (Q := fun r s' => r = none ∧ s' = t) (.ask ⟨rfl, rfl⟩) fun r s' hr => ?_⟩
  obtain ⟨rfl, rfl⟩ := hr
  exact .pure ⟨rfl, rfl⟩

theorem fail_ends {δ : Type} {s : δ} (st : Recrypt) (j : CryptoRestoreJob) :
    Ends (orPanic (st.fail j)) s fun st' s' => st'.cpos = st.cpos ∧ st'.chain = st.chain ∧ s' = s := by
  refine .orPanic fun st' hst' => ?_
  obtain ⟨ok, -, rfl⟩ := map_eq_some_iff.mp hst'
  exact ⟨rfl, rfl, rfl⟩

/-- While every read fails, a job makes at most one, and leaves the rolling state stalled. -/
theorem restoreJob_misses (hs : out.Sorted) {cpos : Nat} (hcpos : Stalled out cpos)
    (chain : List UInt8) (j : CryptoRestoreJob) :
    ∃ p c, Stalled out p ∧ ∀ t, ∃ s, ∀ st : Recrypt, st.cpos = cpos → st.chain = chain →
      Ends (out.restoreJob (flaky name) st j) s fun st' s' =>
        st'.cpos = p ∧ st'.chain = c ∧ s' = t := by
  unfold restoreJob
  dsimp only
  by_cases hout : 2 ^ 64 ≤ j.fileOff + j.len ∨ out.cipherLen < j.fileOff + j.len
  · refine ⟨cpos, chain, hcpos, fun t => ⟨t, ?_⟩⟩
    rintro st rfl rfl
    rw [if_pos hout]
    exact fail_ends st j
  rw [show min ((j.fileOff + j.len + 15) / 16 * 16) out.cipherLen =
    blockHi out.unp (j.fileOff + j.len) from rfl,
    show j.fileOff / 16 * 16 = blockLo j.fileOff from rfl]
  by_cases hempty : blockHi out.unp (j.fileOff + j.len) ≤ blockLo j.fileOff
  · refine ⟨cpos, chain, hcpos, fun t => ⟨t, ?_⟩⟩
    rintro st rfl rfl
    rw [if_neg hout, if_pos hempty]
    exact fail_ends st j
  have hlo : blockLo j.fileOff % 16 = 0 := Nat.mul_mod_left _ _
  obtain ⟨r, hr, hchain⟩ := chainTo_misses name hs hcpos chain hlo
  cases r with
  | none =>
    refine ⟨0, out.iv, ⟨rfl, .inl rfl⟩, fun t => ?_⟩
    obtain ⟨s, hchain⟩ := hchain t
    refine ⟨s, ?_⟩
    rintro st rfl rfl
    rw [if_neg hout, if_neg hempty]
    refine hchain.bind fun r s' hr => ?_
    obtain ⟨rfl, rfl⟩ := hr
    exact (fail_ends st j).bind fun st' s' hst' => .pure ⟨rfl, rfl, hst'.2.2⟩
  | some x =>
    obtain ⟨p, c⟩ := x
    obtain ⟨hp, hstalled⟩ := hr _ rfl
    subst hp
    refine ⟨blockLo j.fileOff, c, hstalled, fun t => ?_⟩
    obtain ⟨s1, hplain⟩ := plain_misses name hlo (Nat.lt_of_not_le hempty)
      (blockHi_le _ _) t
    obtain ⟨s, hchain⟩ := hchain s1
    refine ⟨s, ?_⟩
    rintro st rfl rfl
    rw [if_neg hout, if_neg hempty]
    refine hchain.bind fun r s' hr => ?_
    obtain ⟨rfl, rfl⟩ := hr
    refine hplain.bind fun r s' hr => ?_
    obtain ⟨rfl, rfl⟩ := hr
    exact fail_ends _ j

theorem restoreJobs_misses (hs : out.Sorted) (jobs : List CryptoRestoreJob) {cpos : Nat}
    (hcpos : Stalled out cpos) (chain : List UInt8) :
    ∃ p c, Stalled out p ∧ ∀ t, ∃ s, ∀ st : Recrypt, st.cpos = cpos → st.chain = chain →
      Ends (jobs.foldlM (out.restoreJob (flaky name)) st) s fun st' s' =>
        st'.cpos = p ∧ st'.chain = c ∧ s' = t := by
  induction jobs generalizing cpos chain with
  | nil =>
    refine ⟨cpos, chain, hcpos, fun t => ⟨t, fun st hp hc => ?_⟩⟩
    exact .pure ⟨hp, hc, rfl⟩
  | cons j jobs ih =>
    obtain ⟨p, c, hp, hjob⟩ := restoreJob_misses name hs hcpos chain j
    obtain ⟨p', c', hp', hjobs⟩ := ih hp c
    refine ⟨p', c', hp', fun t => ?_⟩
    obtain ⟨s1, hjobs⟩ := hjobs t
    obtain ⟨s, hjob⟩ := hjob s1
    refine ⟨s, fun st h1 h2 => ?_⟩
    refine (hjob st h1 h2).bind fun st' s' hst' => ?_
    obtain ⟨h1', h2', rfl⟩ := hst'
    exact hjobs st' h1' h2'

/-! ## The job that panics -/

section Reads

variable {δ : Type} {d : Disk δ} {s : δ}

/-- Once reads succeed and no checkpoint is met, a round of a walk can only fail at its last block. -/
theorem walkTo_round (hreads : d.Reads out.name out.srcLen s) {target : Nat}
    {next : List (Nat × List UInt8)} (hnext : ∀ x ∈ next, target < x.1) (hsrc : target ≤ out.srcLen)
    {at_ : Nat} (hlt : at_ < target) (c : List UInt8) :
    ∃ walk, out.walkTo d target at_ c next s = (lastBlock walk (min (target - at_) WALK)).bind fun c' =>
      out.walkTo d target (at_ + min (target - at_) WALK) c' next s := by
  obtain ⟨bytes, hread⟩ := hreads at_ (min (target - at_) WALK) (by omega)
  refine ⟨encrypt out.aes c bytes, ?_⟩
  conv_lhs => rw [walkTo, if_pos hlt, if_neg (by omega)]
  have hbind {α β : Type} (m : Ask δ α) (f : α → Ask δ β) :
      (m >>= f) s = (m s).bind fun x => f x.1 x.2 := rfl
  rw [hbind, ask, bind_some, hread]
  dsimp only
  rw [hbind, orPanic, Option.bind_map]
  refine congrArg (Option.bind _) (funext fun c' => ?_)
  rw [Function.comp_apply, hbind, orPanic, crossVerify_ahead fun x hx => lt_of_le_of_lt (by omega) (hnext x hx)]
  rfl

theorem walkTo_panics (hreads : d.Reads out.name out.srcLen s) {target : Nat}
    {next : List (Nat × List UInt8)} (hnext : ∀ x ∈ next, target < x.1) (hsrc : target ≤ out.srcLen)
    {at_ : Nat} (c : List UInt8) (hrest : ShortRest (target - at_)) :
    out.walkTo d target at_ c next s = none := by
  have hwalk : WALK = 65536 := rfl
  induction hn : target - at_ using Nat.strong_induction_on generalizing at_ c with
  | _ n ih =>
    unfold ShortRest at hrest ih
    rw [hwalk] at hrest ih
    obtain ⟨walk, hround⟩ := walkTo_round hreads hnext hsrc (show at_ < target by omega) c
    rw [hround]
    by_cases hshort : min (target - at_) WALK < 16
    · rw [lastBlock_short hshort, bind_none]
    cases lastBlock walk (min (target - at_) WALK) with
    | none => rfl
    | some c' => exact ih _ (by omega) c' (by omega) rfl

theorem walkTo_reads (hreads : d.Reads out.name out.srcLen s) {target : Nat}
    {next : List (Nat × List UInt8)} (hnext : ∀ x ∈ next, target < x.1) (hsrc : target ≤ out.srcLen)
    (at_ : Nat) (c : List UInt8) :
    Ends (out.walkTo d target at_ c next) s fun r _ => r.isSome = true := by
  have hwalk : WALK = 65536 := rfl
  induction hn : target - at_ using Nat.strong_induction_on generalizing at_ c with
  | _ n ih =>
    by_cases hlt : at_ < target
    · obtain ⟨walk, hround⟩ := walkTo_round hreads hnext hsrc hlt c
      unfold Ends
      rw [hround]
      cases lastBlock walk (min (target - at_) WALK) with
      | none => exact nofun
      | some c' => exact ih _ (by omega) _ c' rfl
    · rw [walkTo, if_neg hlt]
      exact .pure rfl

/-- From a stalled rolling state, a short walk starts at its checkpoint. -/
theorem chainTo_panics (hreads : d.Reads out.name out.srcLen s) (hs : out.Sorted) {cpos : Nat}
    (hcpos : Stalled out cpos) (chain : List UInt8) {lo : Nat} (hlo : lo % 16 = 0)
    (hsrc : lo ≤ out.srcLen) (hshort : ShortWalk out.HasCheckpoint lo) :
    out.chainTo d cpos chain lo s = none := by
  obtain ⟨-, ko, hko, hpos, hkolo, hnearest, hrest⟩ := hshort
  have hoff : ko % 16 ≠ 0 := fun hko16 => not_shortRest (by omega) hrest
  have hne : cpos ≠ lo := by
    rintro rfl
    rcases hcpos.2 with h0 | hck
    · omega
    · have := hnearest cpos hck (le_refl _)
      omega
  obtain ⟨hle, hnear, hcase⟩ := anchor_spec hs cpos chain lo
  have hat : (out.anchor cpos chain lo).1 = ko := by
    have hko' := hnear ko hko hkolo
    rcases hcase with h | h | ⟨-, hck⟩
    · rcases hcpos.2 with h0 | hck
      · omega
      · have := hnearest cpos hck (h ▸ hle)
        omega
    · omega
    · exact le_antisymm (hnearest _ hck hle) hko'
  unfold chainTo
  rw [if_neg hne]
  refine walkTo_panics hreads (ahead_of_anchor hs cpos chain lo) hsrc _ ?_
  rwa [hat]

theorem chainTo_reads (hreads : d.Reads out.name out.srcLen s) (hs : out.Sorted) (cpos : Nat)
    (chain : List UInt8) {lo : Nat} (hsrc : lo ≤ out.srcLen) :
    Ends (out.chainTo d cpos chain lo) s fun r _ => r.isSome = true := by
  unfold chainTo
  split_ifs
  · exact .pure rfl
  · exact walkTo_reads hreads (ahead_of_anchor hs cpos chain lo) hsrc _ _

/-- A job that is not sound panics once reads succeed. -/
theorem restoreJob_panics (hreads : d.Reads out.name out.srcLen s) (hs : out.Sorted)
    (hunp : out.unp < 2 ^ 64) {st : Recrypt} (hst : Stalled out st.cpos) {j : CryptoRestoreJob}
    (hend : j.fileOff + j.len ≤ align16 out.unp)
    (hlt : blockLo j.fileOff < blockHi out.unp (j.fileOff + j.len))
    (hsrc : blockLo j.fileOff ≤ out.srcLen)
    (hbad : ¬ (¬ ShortWalk out.HasCheckpoint (blockLo j.fileOff) ∧
      blockHi out.unp (j.fileOff + j.len) - blockLo j.fileOff ≤ ISIZE_MAX)) :
    out.restoreJob d st j s = none := by
  have hlo : blockLo j.fileOff % 16 = 0 := Nat.mul_mod_left _ _
  have htop : align16 out.unp < 2 ^ 64 := by
    unfold align16
    omega
  have hout : ¬ (2 ^ 64 ≤ j.fileOff + j.len ∨ out.cipherLen < j.fileOff + j.len) := by
    rintro (h | h)
    · omega
    · exact absurd hend (not_le.mpr h)
  unfold restoreJob
  rw [if_neg hout, show min ((j.fileOff + j.len + 15) / 16 * 16) out.cipherLen =
    blockHi out.unp (j.fileOff + j.len) from rfl,
    show j.fileOff / 16 * 16 = blockLo j.fileOff from rfl, if_neg (not_le.mpr hlt)]
  by_cases hshort : ShortWalk out.HasCheckpoint (blockLo j.fileOff)
  · exact bind_panics_left (chainTo_panics hreads hs hst _ hlo hsrc hshort) _
  · have hsize := Nat.lt_of_not_le fun hle => hbad ⟨hshort, hle⟩
    refine bind_panics (chainTo_reads hreads hs _ _ hsrc) fun r s' hr => ?_
    obtain ⟨x, rfl⟩ := isSome_iff_exists.mp hr
    unfold plain
    rw [if_pos hsize]
    rfl

end Reads

end Output

/-! ## Outputs -/

section Outputs

variable (kdf : Kdf) (o : HashOrder UInt64) {files : Table Text CryptoFileMeta} {name : Text}

theorem failAll_ends {δ : Type} {s : δ} (jobs : List CryptoRestoreJob) (ok : List Bool) :
    Ends (orPanic (failAll jobs ok)) s fun _ s' => s' = s := .orPanic fun _ _ => rfl

theorem blockLo_lt_of_not_sound {checkpoint : Nat → Prop} {unp stop lo : Nat} (hunp : unp < 2 ^ 64)
    (hbad : ¬ (¬ ShortWalk checkpoint lo ∧ blockHi unp stop - lo ≤ ISIZE_MAX)) : lo < 2 ^ 63 := by
  by_cases hshort : ShortWalk checkpoint lo
  · exact hshort.1
  · have hsize := Nat.lt_of_not_le fun hle => hbad ⟨hshort, hle⟩
    have hle := blockHi_le unp stop
    have hmax : ISIZE_MAX = 2 ^ 63 - 1 := rfl
    unfold align16 at hle
    omega

/-- An output whose fragments include an unsound one panics, once the countdown is over for it. -/
theorem restoreOutput_panics {password : Text} {f : CryptoFileMeta} (hf : files.lookup name = some f)
    (hkeys : (provenKeys kdf password f).isSome = true) {jobs : List CryptoRestoreJob}
    {j : CryptoRestoreJob} (hj : j ∈ jobs) (hbad : ¬ Sound f j.fileOff j.len) :
    ∃ s, ∀ ok, restoreOutput (flaky name) kdf o files password name jobs ok s = none := by
  obtain ⟨keys, hkeys⟩ := isSome_iff_exists.mp hkeys
  obtain ⟨out, hout⟩ : ∃ out : Output, out =
      { name := name
        srcLen := 2 ^ 63 - 1
        aes := kdf.aes keys
        iv := f.iv.toList
        unp := f.unp.toNat
        pad := f.pad
        ckpts := sortedCheckpoints o f.checkpoints } := ⟨_, rfl⟩
  have hs : out.Sorted := by
    rw [hout]
    exact sorted_sortedCheckpoints o f.checkpoints
  have hsrc : out.srcLen = 2 ^ 63 - 1 := by rw [hout]
  have hunp : out.unp = f.unp.toNat := by rw [hout]
  have hcks : (fun ko => ∃ k ∈ f.checkpoints, k.toNat = ko) = out.HasCheckpoint := by
    rw [hout]
    exact funext fun ko => propext (mem_sortedCheckpoints o f.checkpoints ko).symm
  have hlt64 : out.unp < 2 ^ 64 := hunp ▸ f.unp.toNat_lt
  unfold Sound at hbad
  rw [hcks, ← hunp] at hbad
  obtain ⟨hend, hbad⟩ := Classical.not_imp.mp hbad
  obtain ⟨hlt, hbad⟩ := Classical.not_imp.mp hbad
  obtain ⟨pre, post, hsplit⟩ := List.append_of_mem
    ((List.mergeSort_perm jobs fun x y => decide (x.fileOff ≤ y.fileOff)).mem_iff.mpr hj)
  have hstart : Output.Stalled out 0 := ⟨rfl, .inl rfl⟩
  obtain ⟨p, c, hp, hpre⟩ := Output.restoreJobs_misses name hs pre hstart out.iv
  obtain ⟨s, hpre⟩ := hpre 0
  refine ⟨s, fun ok => ?_⟩
  unfold restoreOutput
  rw [hf]
  dsimp only
  rw [hkeys]
  refine bind_panics (Q := fun r s' => r = true ∧ s' = s) (.ask ⟨decide_eq_true rfl, rfl⟩)
    fun r s' hr => ?_
  obtain ⟨rfl, rfl⟩ := hr
  refine bind_panics (Q := fun r s'' => r = some (2 ^ 63 - 1) ∧ s'' = s') (.ask ⟨rfl, rfl⟩)
    fun r s'' hr => ?_
  obtain ⟨rfl, rfl⟩ := hr
  refine bind_panics_left ?_ _
  rw [getD_some, ← hout, hsplit]
  refine foldlM_panics (hpre _ rfl (by rw [hout])) fun st s' hst => ?_
  obtain ⟨hcpos, -, rfl⟩ := hst
  have hlo := blockLo_lt_of_not_sound hlt64 hbad
  exact Output.restoreJob_panics (reads_flaky name _ _) hs hlt64 (hcpos ▸ hp) hend hlt (by omega) hbad

theorem restoreOutput_other {password other : Text} (hne : other ≠ name)
    (jobs : List CryptoRestoreJob) (ok : List Bool) (s : Nat) :
    Ends (restoreOutput (flaky name) kdf o files password other jobs ok) s fun _ s' => s' = s := by
  unfold restoreOutput
  split
  · exact failAll_ends jobs ok
  · split
    · exact failAll_ends jobs ok
    · refine Ends.bind (Q := fun r s' => r = false ∧ s' = s) (.ask ⟨decide_eq_false hne, rfl⟩)
        fun r s' hr => ?_
      obtain ⟨rfl, rfl⟩ := hr
      exact failAll_ends jobs ok

/-- One output that panics is enough, if the others leave the disk where it does. -/
theorem restoreCrypto_panics_at {δ : Type} {d : Disk δ} {I : δ → Prop} (oText : HashOrder Text)
    {password : Text} {jobsByFile : Table Text (List CryptoRestoreJob)} (hname : name ∈ jobsByFile)
    (hother : ∀ other jobs ok s, other ≠ name → I s →
      Ends (restoreOutput d kdf o files password other jobs ok) s fun _ s' => I s')
    (hpanics : ∀ ok s, I s → restoreOutput d kdf o files password name
      ((jobsByFile.lookup name).getD []) ok s = none) {s : δ} (hs : I s) (ok : List Bool) :
    restoreCrypto d kdf o oText files (some password) jobsByFile ok s = none := by
  have hmem : name ∈ oText.order jobsByFile.keys :=
    (oText.mem _ _).mpr (Finmap.mem_keys.mpr hname)
  obtain ⟨pre, post, hsplit⟩ := List.append_of_mem hmem
  have hnodup := oText.nodup jobsByFile.keys
  rw [hsplit, List.nodup_append] at hnodup
  unfold restoreCrypto
  rw [hsplit]
  refine foldlM_panics (I := fun _ s' => I s')
    (Ends.foldlM (fun other hmem ok s' hs' => ?_) hs) fun ok s' hs' => ?_
  · exact hother other _ ok s' (hnodup.2.2 other hmem name List.mem_cons_self) hs'
  · exact hpanics ok s' hs'

theorem restoreCrypto_panics (oText : HashOrder Text) {password : Text} {f : CryptoFileMeta}
    (hf : files.lookup name = some f) (hkeys : (provenKeys kdf password f).isSome = true)
    {jobsByFile : Table Text (List CryptoRestoreJob)} {jobs : List CryptoRestoreJob}
    (hjobs : jobsByFile.lookup name = some jobs) {j : CryptoRestoreJob} (hj : j ∈ jobs)
    (hbad : ¬ Sound f j.fileOff j.len) :
    ∃ s, ∀ ok, restoreCrypto (flaky name) kdf o oText files (some password) jobsByFile ok s = none := by
  obtain ⟨s, hpanics⟩ := restoreOutput_panics kdf o hf hkeys hj hbad
  refine ⟨s, fun ok => ?_⟩
  refine restoreCrypto_panics_at kdf o oText (Finmap.mem_of_lookup_eq_some hjobs)
    (I := fun s' => s' = s) (fun other jobs ok s' hne hs' => ?_) (fun ok s' hs' => ?_) rfl ok
  · subst hs'
    exact restoreOutput_other kdf o hne jobs ok s'
  · subst hs'
    rw [hjobs, getD_some]
    exact hpanics ok

end Outputs

end NzbFast.Journal
