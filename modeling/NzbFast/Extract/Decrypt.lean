import NzbFast.Extract.Crypto

/-!
# What one decrypt files

The posted bytes are a map `c`; the plaintext is `plainAt` of it. `Filed` says what
the state and the file hold of a set of decrypted offsets: the file their
plaintext, each checkpoint the block before it, the pad and the CRC runs those of
the plaintext. A decrypt of whole blocks of `c` adds their offsets to the set
(`advance_filed`), in one step under the lock or in the three of an ingest.
-/

namespace NzbFast.Extract

open NzbFast.Rust List
open Wire (Block slice crc32 plainAt prevBlock take_drop_slice drop_slice take_slice)

theorem nextMultipleOf_sixteen (n : Nat) :
    n ≤ nextMultipleOf n 16 ∧ nextMultipleOf n 16 < n + 16 ∧ nextMultipleOf n 16 % 16 = 0 := by
  unfold nextMultipleOf
  omega

theorem chunk_eq : CRYPTO_CHUNK = 1048576 := rfl

/-- Offsets are multiples of 16 in the ciphertext's length, which has the plaintext's end in its
last block. -/
theorem CryptoState.cipherLen_spec (cs : CryptoState) :
    cs.unp ≤ cs.cipherLen ∧ cs.cipherLen < cs.unp + 16 ∧ cs.cipherLen % 16 = 0 := by
  unfold cipherLen align16
  omega

/-! ## Writes to the file -/

theorem getElem?_writeAllAt (file : List UInt8) (pos : Nat) (bytes : List UInt8) (x : Nat) :
    (writeAllAt file pos bytes)[x]? =
      if pos ≤ x ∧ x < pos + bytes.length then bytes[x - pos]?
      else if x < pos ∧ file.length ≤ x then some 0 else file[x]? := by
  have hgap : (file.take pos ++ replicate (pos - file.length) 0).length = pos := by
    rw [length_append, length_take, length_replicate]
    omega
  unfold writeAllAt
  rw [append_assoc]
  by_cases hlo : x < pos
  · rw [if_neg (by omega), getElem?_append_left (by omega)]
    by_cases hfile : x < file.length
    · rw [if_neg (by omega), getElem?_append_left (by rw [length_take]; omega),
        getElem?_take, if_pos hlo]
    · rw [if_pos (by omega), getElem?_append_right (by rw [length_take]; omega),
        length_take, getElem?_replicate, if_pos (by omega)]
  · rw [getElem?_append_right (by omega), hgap]
    by_cases hhi : x < pos + bytes.length
    · rw [if_pos (by omega), getElem?_append_left (by omega)]
    · rw [if_neg (by omega), if_neg (by omega), getElem?_append_right (by omega),
        getElem?_drop]
      congr 1
      omega

theorem length_writeAllAt (file : List UInt8) (pos : Nat) (bytes : List UInt8) :
    (writeAllAt file pos bytes).length = max file.length (pos + bytes.length) := by
  unfold writeAllAt
  simp only [length_append, length_take, length_replicate, length_drop]
  omega

namespace CryptoState

/-! ## Checkpoints -/

variable {at_ : Nat} {D : Nat → Prop} {file : List UInt8} {st : CryptoSt}

theorem mem_strides {stop k : Nat} :
    k ∈ strides at_ stop ↔ at_ ≤ k ∧ k ≤ stop ∧ CRYPTO_CHUNK ≤ k ∧ k % CRYPTO_CHUNK = 0 := by
  unfold strides
  simp only [mem_map, mem_range, nextMultipleOf, chunk_eq]
  constructor
  · rintro ⟨i, hi, rfl⟩
    omega
  · rintro ⟨hlo, hhi, hchunk, hmod⟩
    exact ⟨(k - max ((at_ + 1048576 - 1) / 1048576 * 1048576) 1048576) / 1048576, by omega, by omega⟩

/-- The checkpoints that a decrypt captures take the place of those at their boundaries. -/
theorem planAdvance_spec (st : CryptoSt) (chain : List UInt8) (at_ : Nat) (cipher : List UInt8) :
    (planAdvance st chain at_ cipher).2 = cipher.length / 16 * 16 ∧
      ∃ checkpoints events, (planAdvance st chain at_ cipher).1 = { st with checkpoints, events } ∧
        ∀ y, y ∈ checkpoints ↔
          (0 < cipher.length / 16 ∧ y.1 ∈ strides at_ (at_ + cipher.length / 16 * 16) ∧
            y.2 = strideBlock chain at_ cipher y.1) ∨
          (y ∈ st.checkpoints ∧ ¬ (0 < cipher.length / 16 ∧
            y.1 ∈ strides at_ (at_ + cipher.length / 16 * 16))) := by
  have hfull : cipher.length - cipher.length % 16 = cipher.length / 16 * 16 := by omega
  have hfold : ∀ (ks : List Nat) (st : CryptoSt), ∃ checkpoints events,
      ks.foldl (fun st c =>
        let block := strideBlock chain at_ cipher c
        { st with
          checkpoints := st.checkpoints.insert c block
          events := st.events ++ [.checkpoint c block] }) st = { st with checkpoints, events } ∧
      ∀ y, y ∈ checkpoints ↔ (y.1 ∈ ks ∧ y.2 = strideBlock chain at_ cipher y.1) ∨
        (y ∈ st.checkpoints ∧ y.1 ∉ ks) := by
    intro ks
    induction ks with
    | nil => exact fun st => ⟨_, _, rfl, fun y => by simp⟩
    | cons k ks ih =>
      intro st
      obtain ⟨checkpoints, events, hst, hmem⟩ := ih { st with
        checkpoints := st.checkpoints.insert k (strideBlock chain at_ cipher k)
        events := st.events ++ [.checkpoint k (strideBlock chain at_ cipher k)] }
      refine ⟨checkpoints, events, hst, fun y => ?_⟩
      rw [hmem, BTreeMap.mem_insert, mem_cons, not_or]
      constructor
      · rintro (⟨hin, hblock⟩ | ⟨rfl | ⟨hy, hne⟩, hout⟩)
        · exact .inl ⟨.inr hin, hblock⟩
        · exact .inl ⟨.inl rfl, rfl⟩
        · exact .inr ⟨hy, hne, hout⟩
      · rintro (⟨hk | hin, hblock⟩ | ⟨hy, hne, hout⟩)
        · by_cases hin : y.1 ∈ ks
          · exact .inl ⟨hin, hblock⟩
          · exact .inr ⟨.inl (Prod.ext hk (hblock.trans (by rw [hk]))), hin⟩
        · exact .inl ⟨hin, hblock⟩
        · exact .inr ⟨.inr ⟨hy, hne⟩, hout⟩
  unfold planAdvance
  rw [hfull]
  dsimp only
  split
  case isTrue hzero =>
    refine ⟨hzero.symm, st.checkpoints, st.events, rfl, fun y => ?_⟩
    have hno : ¬ 0 < cipher.length / 16 := by omega
    simp [hno]
  case isFalse hpos =>
    have hyes : 0 < cipher.length / 16 := by omega
    obtain ⟨checkpoints, events, hst, hmem⟩ := hfold (strides at_ (at_ + cipher.length / 16 * 16))
      { st with events := st.events ++ [.checkpoint at_ chain] }
    refine ⟨rfl, checkpoints, events, hst, fun y => ?_⟩
    rw [hmem]
    simp only [hyes, true_and]

variable {cs : CryptoState} {c : Nat → UInt8}

theorem strideBlock_slice {n k : Nat} (hat : at_ % 16 = 0)
    (hk : k ∈ strides at_ (at_ + n / 16 * 16)) :
    strideBlock (prevBlock cs.iv c at_) at_ (slice c at_ n) k = slice c (k - 16) 16 := by
  obtain ⟨hlo, hhi, hchunk, hmod⟩ := mem_strides.mp hk
  rw [chunk_eq] at hchunk hmod
  unfold strideBlock
  split
  case isTrue hin =>
    rw [take_drop_slice (by omega)]
    congr 1
    omega
  case isFalse hout =>
    obtain rfl : k = at_ := by omega
    rw [prevBlock, if_neg (by omega)]

/-! ## The file -/

/-- The file has the plaintext at `x`, which past the plaintext's end says nothing. -/
def Wrote (cs : CryptoState) (c : Nat → UInt8) (file : List UInt8) (x : Nat) : Prop :=
  x < cs.unp → file[x]? = some (plainAt cs.aes cs.iv c x)

/-- What a decrypt of `[at_, at_ + full)` hands to its commit. -/
structure LandedIs (cs : CryptoState) (c : Nat → UInt8) (at_ full : Nat) (landed : Landed)
    (buf : List UInt8) : Prop where
  at_eq : landed.at_ = at_
  n_eq : landed.n = min (at_ + full) cs.unp - at_
  buf_eq : buf = slice (plainAt cs.aes cs.iv c) at_ full
  crc_eq : landed.crc = if cs.trackPlain && decide (0 < landed.n) then
    some (crc32 (slice (plainAt cs.aes cs.iv c) at_ landed.n)) else none
  pad_eq : landed.pad = if at_ + full = cs.cipherLen then
    some (slice (plainAt cs.aes cs.iv c) cs.unp (cs.cipherLen - cs.unp)) else none

/-- The plaintext of whole blocks reaches the file, and nothing that was right goes wrong. -/
theorem decryptWrite_spec {at_ m : Nat} (hat : at_ % 16 = 0) (hm : 0 < m)
    (hend : at_ + 16 * m ≤ cs.cipherLen) {file : List UInt8} (hlen : file.length ≤ cs.unp)
    {body : Body} (hbody : body = { chain := prevBlock cs.iv c at_, at_, full := 16 * m }) :
    let r := cs.decryptWrite file body (slice c at_ (16 * m))
    LandedIs cs c at_ (16 * m) r.2.1 r.2.2 ∧ r.1.length ≤ cs.unp ∧
      ∀ x, (at_ ≤ x ∧ x < at_ + 16 * m) ∨ Wrote cs c file x → Wrote cs c r.1 x := by
  subst hbody
  obtain ⟨hle, hlt, hmod⟩ := cs.cipherLen_spec
  have hn : 0 < min (at_ + 16 * m) cs.unp - at_ := by omega
  have hdec : Wire.cbcDecrypt cs.aes ((slice c at_ (16 * m)).length / 16) (prevBlock cs.iv c at_)
      (slice c at_ (16 * m)) = slice (plainAt cs.aes cs.iv c) at_ (16 * m) := by
    rw [Wire.length_slice, Nat.mul_div_cancel_left m (by decide), Wire.cbcDecrypt_slice _ _ _ _ hat]
  unfold decryptWrite
  dsimp only
  rw [hdec, if_pos hn]
  refine ⟨⟨rfl, rfl, rfl, ?_, ?_⟩, ?_, fun x hx => ?_⟩
  · dsimp only
    rw [take_slice (by omega)]
  · dsimp only
    split
    case isTrue hlast =>
      rw [drop_slice]
      congr 2 <;> omega
    case isFalse => rfl
  · rw [length_writeAllAt, length_take, Wire.length_slice]
    omega
  · intro hunp
    rw [getElem?_writeAllAt, length_take, Wire.length_slice]
    split
    case isTrue hin =>
      rw [getElem?_take, if_pos (by omega), Wire.getElem?_slice, if_pos (by omega)]
      congr 2
      omega
    case isFalse hout =>
      rcases hx with hx | hx
      · omega
      · have hsome := hx hunp
        have hfile := (List.getElem?_eq_some_iff.mp hsome).1
        rw [if_neg (by omega), hsome]

/-! ## Filed -/

/-- What the state and the file hold of the decrypted offsets `D`. -/
structure Filed (cs : CryptoState) (c : Nat → UInt8) (D : Nat → Prop) (st : CryptoSt)
    (file : List UInt8) : Prop where
  wrote : ∀ x, D x → Wrote cs c file x
  short : file.length ≤ cs.unp
  checkpoints : ∀ y ∈ st.checkpoints, CRYPTO_CHUNK ≤ y.1 ∧ y.1 % CRYPTO_CHUNK = 0 ∧
    y.2 = slice c (y.1 - 16) 16
  pad : ∀ x, D x → cs.cipherLen ≤ x + 1 → st.tailDone = true ∧
    st.tailPad = slice (plainAt cs.aes cs.iv c) cs.unp (cs.cipherLen - cs.unp)
  crc : CrcRuns.Right (plainAt cs.aes cs.iv c) st.plain.runs
  crcIn : ∀ x, CrcRuns.Has st.plain.runs x → D x ∧ x < cs.unp

/-- The CRC runs have every decrypted byte and keep apart. -/
structure CrcFull (cs : CryptoState) (D : Nat → Prop) (st : CryptoSt) : Prop where
  apart : CrcRuns.Apart st.plain.runs
  has : cs.trackPlain = true → ∀ x, D x → x < cs.unp → CrcRuns.Has st.plain.runs x

theorem Filed.mono {D' : Nat → Prop} (h : Filed cs c D st file) (hD : ∀ x, D x ↔ D' x) :
    Filed cs c D' st file :=
  ⟨fun x hx => h.wrote x ((hD x).mpr hx), h.short, h.checkpoints, fun x hx => h.pad x ((hD x).mpr hx),
    h.crc, fun x hx => ⟨(hD x).mp (h.crcIn x hx).1, (h.crcIn x hx).2⟩⟩

theorem CrcFull.mono {D' : Nat → Prop} (h : CrcFull cs D st) (hD : ∀ x, D' x → D x) :
    CrcFull cs D' st :=
  ⟨h.apart, fun htrack x hx => h.has htrack x (hD x hx)⟩

/-- Captured checkpoints leave the rest alone. -/
theorem Filed.planAdvance {D : Nat → Prop} {st : CryptoSt} {file : List UInt8}
    (h : Filed cs c D st file) {at_ n : Nat} (hat : at_ % 16 = 0) :
    Filed cs c D (planAdvance st (prevBlock cs.iv c at_) at_ (slice c at_ n)).1 file := by
  obtain ⟨-, checkpoints, events, hst, hmem⟩ :=
    planAdvance_spec st (prevBlock cs.iv c at_) at_ (slice c at_ n)
  rw [hst]
  rw [Wire.length_slice] at hmem
  refine ⟨h.wrote, h.short, fun y hy => ?_, h.pad, h.crc, h.crcIn⟩
  rcases (hmem y).mp hy with ⟨-, hin, hblock⟩ | ⟨hy, -⟩
  · obtain ⟨-, -, hchunk, hmod⟩ := mem_strides.mp hin
    exact ⟨hchunk, hmod, hblock.trans (strideBlock_slice hat hin)⟩
  · exact h.checkpoints y hy

/-- A decrypt's results filed, of offsets that had none. -/
theorem Filed.commitLanded (h : Filed cs c D st file) {m : Nat} (hm : 0 < m)
    (hend : at_ + 16 * m ≤ cs.cipherLen) {landed : Landed} {buf : List UInt8}
    (hl : LandedIs cs c at_ (16 * m) landed buf)
    (hwrote : ∀ x, at_ ≤ x ∧ x < at_ + 16 * m → Wrote cs c file x)
    (hfree : ∀ x, at_ ≤ x → x < at_ + 16 * m → ¬ D x) :
    let st' := cs.commitLanded st landed (buf.take landed.n) false
    Filed cs c (fun x => D x ∨ (at_ ≤ x ∧ x < at_ + 16 * m)) st' file ∧
      (CrcFull cs D st → CrcFull cs (fun x => D x ∨ (at_ ≤ x ∧ x < at_ + 16 * m)) st') ∧
      ∃ plain tailPad tailDone events, st' = { st with plain, tailPad, tailDone, events } := by
  obtain ⟨hle, hlt, hmod⟩ := cs.cipherLen_spec
  have hn : 0 < landed.n := by
    rw [hl.n_eq]
    omega
  have hn' : at_ + landed.n = min (at_ + 16 * m) cs.unp := by
    rw [hl.n_eq]
    omega
  -- the CRC half
  obtain ⟨hcrc, hin, hapart, hhas⟩ :
      CrcRuns.Right (plainAt cs.aes cs.iv c)
        (cs.commitCrc st.plain landed (buf.take landed.n) false).runs ∧
      (∀ x, CrcRuns.Has (cs.commitCrc st.plain landed (buf.take landed.n) false).runs x →
        CrcRuns.Has st.plain.runs x ∨ (at_ ≤ x ∧ x < at_ + landed.n)) ∧
      (CrcRuns.Apart st.plain.runs →
        CrcRuns.Apart (cs.commitCrc st.plain landed (buf.take landed.n) false).runs) ∧
      (cs.trackPlain = true → ∀ x, CrcRuns.Has st.plain.runs x ∨ (at_ ≤ x ∧ x < at_ + landed.n) →
        CrcRuns.Has (cs.commitCrc st.plain landed (buf.take landed.n) false).runs x) := by
    unfold commitCrc
    by_cases htrack : cs.trackPlain = true
    · have hcond : (cs.trackPlain && decide (0 < landed.n)) = true := by
        rw [htrack, decide_eq_true hn]
        rfl
      have hgap : ∀ x, at_ ≤ x → x < at_ + landed.n → ¬ CrcRuns.Has st.plain.runs x :=
        fun x hlo hhi hx => hfree x hlo (by omega) (h.crcIn x hx).1
      obtain ⟨htaken, hright, hhas, hapart⟩ := CrcRuns.addRun_spec h.crc hn rfl hgap
      rw [if_pos hcond, hl.crc_eq, if_pos hcond, hl.at_eq, if_neg Bool.false_ne_true,
        Option.map_some, ← Prod.mk.eta (p := st.plain.addRun _ _ _), htaken]
      exact ⟨hright, fun x hx => (hhas x).mp hx, hapart, fun _ x hx => (hhas x).mpr hx⟩
    · rw [Bool.not_eq_true] at htrack
      rw [htrack, Bool.false_and, if_neg Bool.false_ne_true]
      exact ⟨h.crc, fun x hx => .inl hx, id, fun hfalse => absurd hfalse Bool.false_ne_true⟩
  have hcrcIn : ∀ x, CrcRuns.Has (cs.commitCrc st.plain landed (buf.take landed.n) false).runs x →
      (D x ∨ (at_ ≤ x ∧ x < at_ + 16 * m)) ∧ x < cs.unp := fun x hx => by
    rcases hin x hx with hx | ⟨hlo, hhi⟩
    · exact ⟨.inl (h.crcIn x hx).1, (h.crcIn x hx).2⟩
    · exact ⟨.inr ⟨hlo, by omega⟩, by omega⟩
  have hfull : ∀ st', st'.plain = cs.commitCrc st.plain landed (buf.take landed.n) false →
      CrcFull cs D st → CrcFull cs (fun x => D x ∨ (at_ ≤ x ∧ x < at_ + 16 * m)) st' :=
    fun st' hst' hf => by
      refine ⟨by rw [hst']; exact hapart hf.apart, fun htrack x hx hunp => ?_⟩
      rw [hst']
      refine hhas htrack x ?_
      rcases hx with hx | ⟨hlo, hhi⟩
      · exact .inl (hf.has htrack x hx hunp)
      · exact .inr ⟨hlo, by omega⟩
  have hwrote' : ∀ x, D x ∨ (at_ ≤ x ∧ x < at_ + 16 * m) → Wrote cs c file x := fun x hx =>
    hx.elim (h.wrote x) (hwrote x)
  unfold CryptoState.commitLanded
  rw [hl.pad_eq]
  split
  case h_1 pad hpad =>
    split at hpad
    case isFalse => cases hpad
    case isTrue hlast =>
      cases hpad
      exact ⟨⟨hwrote', h.short, h.checkpoints, fun _ _ _ => ⟨rfl, rfl⟩, hcrc, hcrcIn⟩, hfull _ rfl,
        _, _, _, _, rfl⟩
  case h_2 hpad =>
    split at hpad
    case isTrue => cases hpad
    case isFalse hlast =>
      refine ⟨⟨hwrote', h.short, h.checkpoints, fun x hx hx' => ?_, hcrc, hcrcIn⟩, hfull _ rfl,
        _, _, _, _, rfl⟩
      rcases hx with hx | ⟨-, hhi⟩
      · exact h.pad x hx hx'
      · omega

/-- What a decrypt of `[a, b)` under the lock leaves, of a state whose decrypted offsets were `D`. -/
structure Grew (cs : CryptoState) (c : Nat → UInt8) (D : Nat → Prop) (a b : Nat) (st : CryptoSt)
    (file : List UInt8) (st' : CryptoSt) (file' : List UInt8) : Prop where
  filed : Filed cs c (fun x => D x ∨ (a ≤ x ∧ x < b)) st' file'
  crcFull : CrcFull cs D st → CrcFull cs (fun x => D x ∨ (a ≤ x ∧ x < b)) st'
  wrote : ∀ x, Wrote cs c file x → Wrote cs c file' x
  runs : st'.runs = st.runs
  inflight : st'.inflight = st.inflight
  checkpoints : ∀ y ∈ st'.checkpoints, y ∈ st.checkpoints ∨ (a < b ∧ a ≤ y.1 ∧ y.1 ≤ b)

theorem Filed.still (h : Filed cs c D st file) {a b : Nat} (hab : b ≤ a) :
    Grew cs c D a b st file st file :=
  ⟨h.mono fun x => ⟨.inl, fun hx => hx.elim id fun hx => absurd hx (by omega)⟩,
    fun hf => hf.mono fun x hx => hx.elim id fun hx => absurd hx (by omega), fun _ hx => hx, rfl, rfl,
    fun _ hy => .inl hy⟩

/-- `advance` over ciphertext whose whole blocks had not been decrypted. -/
theorem Filed.advance (h : Filed cs c D st file) {n : Nat} (hat : at_ % 16 = 0)
    (hend : at_ + n ≤ cs.cipherLen) (hfree : ∀ x, at_ ≤ x → x < at_ + n / 16 * 16 → ¬ D x) :
    ∃ st' file', cs.advance st file (prevBlock cs.iv c at_) at_ (slice c at_ n) false =
        (st', file', n / 16 * 16) ∧
      Grew cs c D at_ (at_ + n / 16 * 16) st file st' file' := by
  obtain ⟨hfull, checkpoints, events, hst, hmem⟩ :=
    planAdvance_spec st (prevBlock cs.iv c at_) at_ (slice c at_ n)
  have hplan := @Filed.planAdvance cs c _ _ _ h at_ n hat
  rw [Wire.length_slice] at hfull hmem
  have hck : ∀ y ∈ checkpoints, y ∈ st.checkpoints ∨
      (at_ < at_ + n / 16 * 16 ∧ at_ ≤ y.1 ∧ y.1 ≤ at_ + n / 16 * 16) := fun y hy => by
    rcases (hmem y).mp hy with ⟨hpos, hin, -⟩ | ⟨hy, -⟩
    · obtain ⟨hlo, hhi, -, -⟩ := mem_strides.mp hin
      exact .inr ⟨by omega, hlo, hhi⟩
    · exact .inl hy
  unfold CryptoState.advance
  generalize CryptoState.planAdvance st (prevBlock cs.iv c at_) at_ (slice c at_ n) = r
    at hfull hst hplan ⊢
  obtain ⟨st₁, full⟩ := r
  dsimp only at hfull hst hplan ⊢
  subst hfull hst
  by_cases hzero : n / 16 * 16 = 0
  · rw [if_pos hzero]
    refine ⟨_, _, by rw [hzero], ?_⟩
    have hgrew := hplan.still (show at_ + n / 16 * 16 ≤ at_ by omega)
    exact ⟨hgrew.filed, fun hf => hgrew.crcFull ⟨hf.apart, hf.has⟩, hgrew.wrote, rfl, rfl, hck⟩
  · rw [if_neg hzero]
    have hm : 0 < n / 16 := by omega
    rw [take_slice (by omega), show n / 16 * 16 = 16 * (n / 16) by omega] at *
    obtain ⟨hlanded, hshort, hwrote⟩ := @decryptWrite_spec cs c _ _ hat hm (by omega) _ h.short _ rfl
    have hfile :=
      { hplan with wrote := fun x hx => hwrote x (.inr (hplan.wrote x hx)), short := hshort }
    obtain ⟨hfiled, hcrc, plain, tailPad, tailDone, events', hst'⟩ :=
      hfile.commitLanded hm (by omega) hlanded (fun x hx => hwrote x (.inl hx)) hfree
    refine ⟨_, _, rfl, hfiled, fun hf => hcrc ⟨hf.apart, hf.has⟩, fun x hx => hwrote x (.inr hx),
      ?_, ?_, ?_⟩
    · rw [hst']
    · rw [hst']
    · rw [hst']
      exact hck

end CryptoState

end NzbFast.Extract
