import NzbFast.Extract.Ingest

/-!
# Out of order is in order

Spans of one ciphertext ingested in any order, cut anywhere, fed again or fed by
calls that run at the same time: at every point the output holds of the CBC
plaintext what the committed bytes determine, and when every byte is in and every
call has returned it holds all of it, as one run.
-/

namespace NzbFast.Extract

open NzbFast.Rust BTreeMap Wire
open List hiding not_le not_lt
open Wire (slice ofBytes crc32 plainAt prevBlock cbcDecrypt take_drop_slice Covers covers_nil covers_cons
  covers_append)

namespace CryptoState

variable {cs : CryptoState} {c : Nat → UInt8}

/-! ## Reports -/

/-- The loop of `covers` finds every byte, or one that no range has. -/
theorem coversFrom_spec : ∀ {ivs : List (Nat × Nat)} {cur stop : Nat},
    (ivs.Pairwise fun p q => p.1 ≤ q.1) → cur < stop →
    (coversFrom ivs cur stop = true ↔ ∀ x, cur ≤ x → x < stop → Covers ivs x)
  | [], cur, stop, _, hlt => by
    refine ⟨fun h => absurd (of_decide_eq_true h) (by omega), fun h => ?_⟩
    exact absurd (h cur le_rfl hlt) (covers_nil cur)
  | (s, e) :: ivs, cur, stop, hp, hlt => by
    obtain ⟨hhead, htail⟩ := pairwise_cons.mp hp
    unfold coversFrom
    by_cases hskip : e ≤ cur
    · rw [if_pos hskip, coversFrom_spec htail hlt]
      refine forall₃_congr fun x hlo hhi => ?_
      rw [covers_cons]
      exact ⟨.inr, fun h => h.resolve_left (by omega)⟩
    by_cases hgap : cur < s
    · rw [if_neg hskip, if_pos hgap]
      refine ⟨nofun, fun h => ?_⟩
      obtain ⟨iv, hiv, hlo, -⟩ := h cur le_rfl hlt
      rcases mem_cons.mp hiv with rfl | hiv
      · dsimp only at hlo
        omega
      · have := hhead iv hiv
        omega
    rw [if_neg hskip, if_neg hgap]
    by_cases hdone : stop ≤ e
    · rw [if_pos hdone]
      refine ⟨fun _ x hlo hhi => ⟨(s, e), .head _, ?_, ?_⟩, fun _ => rfl⟩
      · dsimp only
        omega
      · dsimp only
        omega
    · rw [if_neg hdone, coversFrom_spec htail (not_le.mp hdone)]
      constructor
      · intro h x hlo hhi
        rw [covers_cons]
        by_cases hx : x < e
        · exact .inl ⟨by omega, hx⟩
        · exact .inr (h x (not_lt.mp hx) hhi)
      · intro h x hlo hhi
        refine (covers_cons.mp (h x (by omega) hhi)).resolve_left ?_
        omega

/-- `covers` says whether runs have every byte. -/
theorem covers_spec (st : CryptoSt) (at_ len : Nat) :
    covers st at_ len = true ↔ ∀ x, at_ ≤ x → x < at_ + len → RunHas st.runs x := by
  unfold covers
  by_cases hlen : len = 0
  · rw [decide_eq_true hlen, Bool.true_or]
    exact ⟨fun _ x hlo hhi => by omega, fun _ => rfl⟩
  · rw [decide_eq_false hlen, Bool.false_or, coversFrom_spec (runRanges_sorted st _) (by omega)]
    exact forall₃_congr fun x _ hhi => covers_runRanges hhi

theorem covers_intervals (st : CryptoSt) (at_ len x : Nat) :
    Covers (intervals st at_ len) x ↔ (at_ ≤ x ∧ x < at_ + len) ∧ RunHas st.runs x := by
  constructor
  · rintro ⟨iv, hiv, hlo, hhi⟩
    obtain ⟨r, hr, rfl⟩ := mem_map.mp (mem_filter.mp hiv).1
    have hx : x < at_ + len := by omega
    exact ⟨⟨by omega, hx⟩, (covers_runRanges hx).mp ⟨r, hr, by omega, by omega⟩⟩
  · rintro ⟨⟨hlo, hhi⟩, hx⟩
    obtain ⟨r, hr, hrlo, hrhi⟩ := (covers_runRanges hhi).mpr hx
    refine ⟨_, mem_filter.mpr ⟨mem_map.mpr ⟨r, hr, rfl⟩, decide_eq_true ?_⟩, ?_, ?_⟩
    · dsimp only
      omega
    · dsimp only
      omega
    · dsimp only
      omega

/-- Runs that neither meet nor overlap are reported as intervals that do not. -/
theorem intervals_apart {st : CryptoSt} (h : RunsOk cs c st.runs) (happart : ∀ t, ¬ Touch st.runs t)
    (at_ len : Nat) : (intervals st at_ len).Pairwise fun p q => p.2 < q.1 := by
  refine List.Pairwise.filter _ (pairwise_map.mpr (pairwise_map.mpr ?_))
  refine (st.runs.range_sorted 0 (at_ + len)).imp_of_mem fun {y z} hy hz hlt => ?_
  have hy := (mem_range.mp hy).1
  have hz := (mem_range.mp hz).1
  have hle := h.disjoint y hy z hz hlt
  have hne : y.2.stop ≠ z.1 := fun heq => happart z.1 ⟨⟨y, hy, heq⟩, z, hz, rfl⟩
  omega

end CryptoState

/-! ## Runs -/

/-- The plaintext of a whole ciphertext, block after block from the IV. -/
def CryptoState.plaintext (cs : CryptoState) (cipher : List UInt8) : List UInt8 :=
  cbcDecrypt cs.aes (cipher.length / 16) cs.iv.bytes cipher

theorem CryptoState.plaintext_eq {cs : CryptoState} {cipher : List UInt8}
    (hlen : cipher.length = cs.cipherLen) :
    cs.plaintext cipher = slice (plainAt cs.aes cs.iv (ofBytes cipher)) 0 cs.cipherLen := by
  have hmod := cs.cipherLen_spec.2.2
  have hfull : 16 * (cipher.length / 16) = cs.cipherLen := by omega
  have hall : slice (ofBytes cipher) 0 (16 * (cipher.length / 16)) = cipher := by
    rw [hfull, ← take_drop_eq_slice (by omega), drop_zero, ← hlen, take_length]
  have hdec := cbcDecrypt_slice cs.aes cs.iv (ofBytes cipher) (cipher.length / 16) (Nat.zero_mod 16)
  rw [hall, hfull] at hdec
  exact hdec

/-- An action of a download: a call's plan over a span of the posted bytes, its bodies, its commit. -/
def CryptoAction.Posts (cs : CryptoState) (c : Nat → UInt8) : CryptoAction → Prop
  | .ingest at_ data => at_ + data.length ≤ cs.cipherLen ∧ data = slice c at_ data.length
  | .patch _ _ => False
  | _ => True

def CryptoAction.Spans (cipher : List UInt8) : CryptoAction → Prop
  | .ingest at_ data => at_ + data.length ≤ cipher.length ∧ data = (cipher.drop at_).take data.length
  | .patch _ _ => False
  | _ => True

instance (cipher : List UInt8) : DecidablePred (CryptoAction.Spans cipher)
  | .ingest _ _ => inferInstanceAs (Decidable (_ ∧ _))
  | .patch _ _ => inferInstanceAs (Decidable False)
  | .write _ => inferInstanceAs (Decidable True)
  | .commit _ => inferInstanceAs (Decidable True)

theorem CryptoAction.Spans.posts {cs : CryptoState} {cipher : List UInt8}
    (hlen : cipher.length = cs.cipherLen) {a : CryptoAction} (h : a.Spans cipher) :
    a.Posts cs (ofBytes cipher) := by
  cases a with
  | ingest at_ data =>
    obtain ⟨hend, hdata⟩ := h
    refine ⟨hlen ▸ hend, ?_⟩
    rw [← take_drop_eq_slice hend]
    exact hdata
  | write i => trivial
  | commit i => trivial
  | patch at_ data => exact h.elim

namespace CryptoWorld

open CryptoState

variable {cs : CryptoState} {c : Nat → UInt8} {w : CryptoWorld}

def fedBy : CryptoAction → List (Nat × Nat)
  | .ingest at_ data => [(at_, at_ + data.length)]
  | _ => []

def committed (cs : CryptoState) (w : CryptoWorld) : List CryptoAction → List (Nat × Nat)
  | [] => []
  | a :: actions => w.committing a ++ committed cs (w.step cs a) actions

/-- What is fed is committed or in flight. -/
structure Follows (cs : CryptoState) (c : Nat → UInt8) (fed committed : List (Nat × Nat))
    (w : CryptoWorld) : Prop where
  inv : w.Inv cs c
  crc : CrcFull cs (Decrypted w.st.runs) w.st
  has : ∀ x, RunHas w.st.runs x ↔ Covers committed x
  fed : ∀ x, Covers fed x ↔ RunHas w.st.runs x ∨ Covers w.st.inflight x

theorem Follows.fresh (cs : CryptoState) (c : Nat → UInt8) {file : List UInt8} (h : file.length ≤ cs.unp) :
    Follows cs c [] [] { file } := by
  have hno : ∀ y, y ∉ ({} : CryptoSt).runs := not_mem_empty
  have hnc : ∀ y, y ∉ ({} : CryptoSt).plain.runs := not_mem_empty
  have hnk : ∀ y, y ∉ ({} : CryptoSt).checkpoints := not_mem_empty
  have hhas : ∀ x, ¬ RunHas ({} : CryptoSt).runs x := fun x ⟨y, hy, _⟩ => hno y hy
  have hdec : ∀ x, ¬ Decrypted ({} : CryptoSt).runs x := fun x ⟨y, hy, _⟩ => hno y hy
  have hcrc : ∀ x, ¬ CrcRuns.Has ({} : CryptoSt).plain.runs x := fun x ⟨y, hy, _⟩ => hnc y hy
  refine ⟨{
      runs := ⟨fun y hy => absurd hy (hno y), fun y hy => absurd hy (hno y), fun y hy => absurd hy (hno y)⟩
      apart := fun t ⟨⟨y, hy, _⟩, _⟩ => hno y hy
      filed := {
        wrote := fun x hx => absurd hx (hdec x)
        short := h
        checkpoints := fun y hy => absurd hy (hnk y)
        pad := fun x hx => absurd hx (hdec x)
        crc := ⟨fun y hy => absurd hy (hnc y), fun y hy => absurd hy (hnc y)⟩
        crcIn := fun x hx => absurd hx (hcrc x) }
      plans := nofun
      todo := nofun
      landed := nofun
      flight := .refl _
      disjoint := .nil
      clear := nofun
      located := fun y hy => absurd hy (hnk y) },
    ⟨fun y hy => absurd hy (hnc y), fun _ x hx => absurd hx (hdec x)⟩,
    fun x => iff_of_false (hhas x) (covers_nil x), fun x => iff_of_false (covers_nil x) ?_⟩
  rintro (hx | hx)
  · exact hhas x hx
  · exact covers_nil x hx

/-- What a download's action does to what is fed and committed. -/
theorem Follows.step {fed committed : List (Nat × Nat)} (h : w.Follows cs c fed committed)
    {a : CryptoAction} (ha : a.Posts cs c) :
    (w.step cs a).Follows cs c (fed ++ fedBy a) (committed ++ w.committing a) := by
  cases a with
  | ingest at_ data =>
    obtain ⟨hend, hdata⟩ := ha
    obtain ⟨hin, -, hcov⟩ := h.inv.novel at_ (at_ + data.length)
    obtain ⟨hinv, hruns, hplans, hcrc⟩ := h.inv.plan hend fun g hg => by
      have := hin g hg
      rw [hdata, take_drop_slice (by omega)]
      congr 1
      omega
    refine ⟨hinv, ?_, fun x => ?_, fun x => ?_⟩
    · rw [hruns]
      exact hcrc h.crc
    · rw [hruns, show w.committing (.ingest at_ data) = [] from rfl, append_nil]
      exact h.has x
    · rw [hruns, covers_append, h.fed, h.inv.covers_inflight, hinv.covers_inflight, hplans, fedBy, covers_cons, iff_false_intro (covers_nil x), or_false]
      have hnew : (∃ p ∈ (novelRanges w.st at_ (at_ + data.length)).map (fun g => planOf cs c g.1 g.2),
          p.start ≤ x ∧ x < p.run.stop) ↔ Covers (novelRanges w.st at_ (at_ + data.length)) x := by
        constructor
        · rintro ⟨p, hp, hx⟩
          obtain ⟨g, hg, rfl⟩ := mem_map.mp hp
          rw [planOf_start, planOf_stop] at hx
          exact ⟨g, hg, hx⟩
        · rintro ⟨g, hg, hx⟩
          refine ⟨_, mem_map.mpr ⟨g, hg, rfl⟩, ?_⟩
          rw [planOf_start, planOf_stop]
          exact hx
      simp only [mem_append, or_and_right, exists_or]
      rw [hnew, hcov]
      generalize (∃ p ∈ w.plans, p.start ≤ x ∧ x < p.run.stop) = flying
      tauto
  | write i =>
    obtain ⟨hinv, hst, -⟩ := h.inv.write i
    refine ⟨hinv, ?_, ?_, ?_⟩
    · rw [hst]
      exact h.crc
    · rw [hst, show w.committing (.write i) = [] from rfl, append_nil]
      exact h.has
    · rw [hst, show fedBy (.write i) = [] from rfl, append_nil]
      exact h.fed
  | commit i =>
    obtain ⟨hinv, hhas, hperm, hcrc⟩ := h.inv.commit i
    refine ⟨hinv, hcrc h.crc, fun x => ?_, fun x => ?_⟩
    · rw [hhas, covers_append, h.has]
    · rw [hhas, show fedBy (.commit i) = [] from rfl, append_nil, h.fed, covers_perm h.inv.flight, covers_perm hperm,
        covers_append, covers_perm hinv.flight, or_assoc]
  | patch at_ data => exact ha.elim

theorem Follows.run {fed committed : List (Nat × Nat)} (h : w.Follows cs c fed committed)
    {actions : List CryptoAction} (ha : ∀ a ∈ actions, a.Posts cs c) :
    (w.run cs actions).Follows cs c (fed ++ actions.flatMap fedBy)
      (committed ++ CryptoWorld.committed cs w actions) := by
  induction actions generalizing w fed committed with
  | nil =>
    rw [flatMap_nil, CryptoWorld.committed, append_nil, append_nil]
    exact h
  | cons a actions ih =>
    have := ih (h.step (ha a (.head _))) fun b hb => ha b (.tail _ hb)
    rw [append_assoc, append_assoc] at this
    exact this

/-! ## A download of a ciphertext -/

/-- What an output holds of `cipher` when `committed` is in. -/
structure Holds (cs : CryptoState) (cipher : List UInt8) (committed : List (Nat × Nat))
    (w : CryptoWorld) : Prop where
  disjoint : (w.st.runs.entries.map (fun y => (y.1, y.2.stop)) ++ w.st.inflight).Pairwise Off
  sliver : ∀ y ∈ w.st.runs, y.2.pLo = y.2.pHi →
    y.2.head = (cipher.drop y.1).take (y.2.stop - y.1) ∧ y.2.tail = []
  head : ∀ y ∈ w.st.runs, 0 < y.1 → y.2.pLo ≠ y.2.pHi →
    y.2.head = (cipher.drop y.1).take (y.2.pLo - y.1)
  tail : ∀ y ∈ w.st.runs, y.2.pLo ≠ y.2.pHi →
    y.2.tail = (cipher.drop (y.2.pHi - 16)).take (y.2.stop - (y.2.pHi - 16))
  plain : ∀ y ∈ w.st.runs, ∀ x, y.2.pLo ≤ x → x < y.2.pHi → x < cs.unp →
    w.file[x]? = (cs.plaintext cipher)[x]?
  checkpoint : ∀ y ∈ w.st.checkpoints, y.2 = (cipher.drop (y.1 - 16)).take 16
  covers : ∀ at_ len, CryptoState.covers w.st at_ len = true ↔
    ∀ x, at_ ≤ x → x < at_ + len → Covers committed x
  intervals : ∀ at_ len, ((CryptoState.intervals w.st at_ len).Pairwise fun p q => p.2 < q.1) ∧
    ∀ x, Covers (CryptoState.intervals w.st at_ len) x ↔ (at_ ≤ x ∧ x < at_ + len) ∧ Covers committed x

/-- What an output is when all of `cipher` is in. -/
structure Finished (cs : CryptoState) (cipher : List UInt8) (w : CryptoWorld) : Prop where
  complete : cs.complete w.st = true
  run : ∃ r, w.st.runs.entries = [(0, r)] ∧ r.stop = cs.cipherLen ∧ r.pLo = 0 ∧ r.pHi = cs.cipherLen
  pad : w.st.tailPad = (cs.plaintext cipher).drop cs.unp
  crc : cs.trackPlain = true → w.st.plain.whole cs.unp = some (crc32 ((cs.plaintext cipher).take cs.unp))

/-- Neither runs nor ranges in flight have anything in common. -/
theorem Inv.ranges_disjoint (h : w.Inv cs c) :
    (w.st.runs.entries.map (fun y => (y.1, y.2.stop)) ++ w.st.inflight).Pairwise Off := by
  refine pairwise_append.mpr ⟨pairwise_map.mpr ?_, ?_, fun g hg f hf => ?_⟩
  · exact w.st.runs.sorted.imp_of_mem fun {y z} hy hz hlt => .inl (h.runs.disjoint y hy z hz hlt)
  · exact (h.flight.pairwise_iff Off.symm).mpr (pairwise_map.mpr h.disjoint)
  · obtain ⟨y, hy, rfl⟩ := mem_map.mp hg
    obtain ⟨p, hp, rfl⟩ := mem_map.mp (h.flight.mem_iff.mp hf)
    exact off_of_disjoint (h.runs.is y hy).bounds.1 (h.plans p hp).lt fun x hlo hhi hlo' hhi' =>
      h.clear p hp x hlo' hhi' ⟨y, hy, hlo, hhi⟩

theorem Inv.checkpoint_le (h : w.Inv cs c) {y : Nat × List UInt8} (hy : y ∈ w.st.checkpoints) :
    y.1 ≤ cs.cipherLen := by
  rcases h.located y hy with ⟨z, hz, -, -, hhi⟩ | ⟨p, hp, -, -, hhi⟩
  · have hb := (h.runs.is z hz).bounds
    have := h.runs.inside z hz
    omega
  · have hok := h.plans p hp
    have hb := hok.run.bounds
    have := hok.inside
    omega

variable {cipher : List UInt8} {fed taken : List (Nat × Nat)}

theorem Follows.holds (h : w.Follows cs (ofBytes cipher) fed taken)
    (hlen : cipher.length = cs.cipherLen) : w.Holds cs cipher taken where
  disjoint := h.inv.ranges_disjoint
  sliver y hy heq := by
    have hin := h.inv.runs.inside y hy
    have his := h.inv.runs.is y hy
    obtain ⟨s, r⟩ := y
    dsimp only at his
    cases his with
    | @sliver e hse hsmall =>
      dsimp only at hin hse ⊢
      rw [take_drop_eq_slice (by omega)]
      exact ⟨rfl, rfl⟩
    | @body e head hbody hhead =>
      dsimp only at hbody heq
      omega
  head y hy hpos hne := by
    have hin := h.inv.runs.inside y hy
    have his := h.inv.runs.is y hy
    obtain ⟨s, r⟩ := y
    dsimp only at his
    cases his with
    | sliver => exact absurd rfl hne
    | @body e head hbody hhead =>
      dsimp only at hin hpos hbody ⊢
      obtain ⟨hle, -, -⟩ := pLoOf_spec s
      rw [take_drop_eq_slice (by omega)]
      exact hhead.resolve_right fun hzero => absurd hzero.1 hpos.ne'
  tail y hy hne := by
    have hin := h.inv.runs.inside y hy
    have his := h.inv.runs.is y hy
    obtain ⟨s, r⟩ := y
    dsimp only at his
    cases his with
    | sliver => exact absurd rfl hne
    | @body e head hbody hhead =>
      dsimp only at hin hbody ⊢
      rw [take_drop_eq_slice (by omega)]
      rfl
  plain y hy x hlo hhi hx := by
    have hwrote := h.inv.filed.wrote x ⟨y, hy, hlo, hhi⟩ hx
    rw [hwrote, plaintext_eq hlen, getElem?_slice, if_pos, zero_add]
    have := cs.cipherLen_spec
    omega
  checkpoint y hy := by
    obtain ⟨hmin, -, heq⟩ := h.inv.filed.checkpoints y hy
    have hle := h.inv.checkpoint_le hy
    rw [chunk_eq] at hmin
    rw [heq, take_drop_eq_slice (by omega)]
  covers at_ len := by
    rw [covers_spec]
    exact forall₃_congr fun x _ _ => h.has x
  intervals at_ len := by
    refine ⟨intervals_apart h.inv.runs h.inv.apart at_ len, fun x => ?_⟩
    rw [covers_intervals, h.has]

/-- When every byte is in a run, there is one run. -/
theorem Inv.one_run (h : w.Inv cs c) (hpos : 0 < cs.cipherLen)
    (hall : ∀ x, x < cs.cipherLen → RunHas w.st.runs x) :
    ∃ r, w.st.runs.entries = [(0, r)] ∧ r.stop = cs.cipherLen ∧ r.pLo = 0 ∧ r.pHi = cs.cipherLen := by
  obtain ⟨⟨s, r⟩, hy, hlo, hhi⟩ := hall 0 hpos
  obtain rfl : s = 0 := Nat.le_zero.mp hlo
  have hin := h.runs.inside _ hy
  -- a run behind it would meet it
  have hstop : r.stop = cs.cipherLen := by
    refine le_antisymm hin (not_lt.mp fun hlt => ?_)
    obtain ⟨z, hz, hzlo, hzhi⟩ := hall r.stop hlt
    have hz0 : 0 < z.1 := by
      refine pos_of_ne_zero fun hzero => ?_
      obtain rfl := mem_unique hz hy hzero
      exact lt_irrefl _ hzhi
    have hoff := h.runs.disjoint _ hy z hz hz0
    exact h.apart z.1 ⟨⟨_, hy, le_antisymm hoff hzlo⟩, z, hz, rfl⟩
  have hone : ∀ z ∈ w.st.runs, z = (0, r) := fun z hz => by
    refine mem_unique hz hy (Nat.le_zero.mp (not_lt.mp fun hz0 => ?_))
    have hoff := h.runs.disjoint _ hy z hz hz0
    have hzin := h.runs.inside z hz
    have hzb := (h.runs.is z hz).bounds
    dsimp only at hoff
    omega
  refine ⟨r, ?_, hstop, ?_⟩
  · have hsorted := w.st.runs.sorted
    have hmem : (0, r) ∈ w.st.runs.entries := hy
    have hall : ∀ z ∈ w.st.runs.entries, z = (0, r) := hone
    revert hsorted hmem hall
    cases w.st.runs.entries with
    | nil => exact fun _ hmem => absurd hmem not_mem_nil
    | cons z zs =>
      intro hsorted _ hall
      obtain rfl := hall z (.head _)
      cases zs with
      | nil => rfl
      | cons z' zs =>
        obtain rfl := hall z' (.tail _ (.head _))
        exact absurd ((pairwise_cons.mp hsorted).1 _ (.head _)) (lt_irrefl _)
  · have hmod := cs.cipherLen_spec.2.2
    have his := h.runs.is _ hy
    dsimp only at his
    cases his with
    | @sliver e hse hsmall =>
      rw [pLoOf_zero] at hsmall
      dsimp only at hstop
      omega
    | @body e head hbody hhead =>
      dsimp only at hstop ⊢
      refine ⟨rfl, ?_⟩
      omega

theorem Follows.finished (h : w.Follows cs (ofBytes cipher) fed taken)
    (hlen : cipher.length = cs.cipherLen) (hunp : 0 < cs.unp) (hcalls : w.calls = [])
    (hall : ∀ x, x < cs.cipherLen → Covers fed x) :
    w.Finished cs cipher ∧ w.file = (cs.plaintext cipher).take cs.unp := by
  obtain ⟨hle, hlt, hmod⟩ := cs.cipherLen_spec
  have hflight : ∀ x, ¬ Covers w.st.inflight x := fun x hx => by
    have hnone : w.plans = [] := by rw [plans, hcalls, flatMap_nil]
    obtain ⟨p, hp, -⟩ := (h.inv.covers_inflight x).mp hx
    rw [hnone] at hp
    cases hp
  have hruns : ∀ x, x < cs.cipherLen → RunHas w.st.runs x := fun x hx =>
    ((h.fed x).mp (hall x hx)).resolve_right (hflight x)
  obtain ⟨r, hone, hstop, hpLo, hpHi⟩ := h.inv.one_run (by omega) hruns
  have hmem : (0, r) ∈ w.st.runs := by
    rw [← mem_entries, hone]
    exact mem_singleton.mpr rfl
  have hdec : ∀ x, x < cs.cipherLen → Decrypted w.st.runs x := fun x hx =>
    ⟨_, hmem, by dsimp only; omega, by dsimp only; omega⟩
  obtain ⟨hdone, hpad⟩ := h.inv.filed.pad (cs.cipherLen - 1) (hdec _ (by omega)) (by omega)
  have htake : (cs.plaintext cipher).take cs.unp =
      slice (plainAt cs.aes cs.iv (ofBytes cipher)) 0 cs.unp := by
    rw [plaintext_eq hlen, take_slice hle]
  refine ⟨⟨?_, ⟨r, hone, hstop, hpLo, hpHi⟩, ?_, fun htrack => ?_⟩, ?_⟩
  · unfold CryptoState.complete
    rw [hone, get_eq_some.mpr hmem, hdone, length_singleton, Option.any_some,
      decide_eq_true hstop, decide_eq_true hpHi, Bool.true_or]
    rfl
  · rw [hpad, plaintext_eq hlen, drop_slice, zero_add]
  · rw [htake]
    refine CrcRuns.whole_eq h.inv.filed.crc h.crc.apart hunp fun x => ⟨fun hx => ?_, fun hx => ?_⟩
    · exact (h.inv.filed.crcIn x hx).2
    · exact h.crc.has htrack x (hdec x (by omega)) hx
  · rw [htake]
    have hwrote : ∀ x, x < cs.unp → w.file[x]? = some (plainAt cs.aes cs.iv (ofBytes cipher) x) :=
      fun x hx => h.inv.filed.wrote x (hdec x (by omega)) hx
    refine eq_slice (le_antisymm h.inv.filed.short (not_lt.mp fun hshort => ?_)) fun i hi => ?_
    · have := hwrote _ hshort
      rw [getElem?_eq_none le_rfl] at this
      cases this
    · rw [hwrote i hi, zero_add]

/-- Every download of a ciphertext: at each point the output holds what is committed of it, what is
fed is committed or in flight, and when all is fed and all calls are back it is finished. -/
theorem run_holds (cs : CryptoState) {cipher file : List UInt8} (hlen : cipher.length = cs.cipherLen)
    (hfile : file.length ≤ cs.unp) {actions : List CryptoAction} (ha : ∀ a ∈ actions, a.Spans cipher) :
    (run cs { file } actions).Holds cs cipher (committed cs { file } actions) ∧
      (∀ x, Covers (actions.flatMap fedBy) x ↔
        Covers (committed cs { file } actions) x ∨ Covers (run cs { file } actions).st.inflight x) ∧
      ((run cs { file } actions).calls = [] →
        (∀ x, x < cs.cipherLen → Covers (actions.flatMap fedBy) x) →
        (run cs { file } actions).file = (cs.plaintext cipher).take cs.unp ∧
          (0 < cs.unp → (run cs { file } actions).Finished cs cipher)) := by
  have h := (Follows.fresh cs (ofBytes cipher) hfile).run fun a hm => (ha a hm).posts hlen
  rw [nil_append, nil_append] at h
  refine ⟨h.holds hlen, fun x => by rw [h.fed, h.has], fun hcalls hall => ?_⟩
  by_cases hunp : 0 < cs.unp
  · obtain ⟨hfin, hplain⟩ := h.finished hlen hunp hcalls hall
    exact ⟨hplain, fun _ => hfin⟩
  · have hshort := h.inv.filed.short
    obtain hzero : cs.unp = 0 := Nat.le_zero.mp (not_lt.mp hunp)
    rw [hzero, Nat.le_zero, length_eq_zero_iff] at hshort
    exact ⟨by rw [hshort, hzero, take_zero], fun hpos => absurd hpos hunp⟩

/-- Two spans of 20 bytes' ciphertext, the second first, fed by calls that overlap. -/
def twoCalls (cipher : List UInt8) : List CryptoAction :=
  [.ingest 16 (cipher.drop 16), .ingest 0 (cipher.take 20), .write 1, .write 0, .commit 1, .commit 0]

theorem run_holds_twoCalls :
    let cs : CryptoState := { aes := .refl _, iv := fun _ => 0, unp := 20, trackPlain := true }
    let cipher : List UInt8 := (range 32).map fun i => UInt8.ofNat (7 * i + 3)
    (run cs {} (twoCalls cipher)).file = (cs.plaintext cipher).take 20 ∧
      Finished cs cipher (run cs {} (twoCalls cipher)) := by
  intro cs cipher
  have hfed : (twoCalls cipher).flatMap fedBy = [(16, 32), (0, 20)] := by decide
  have hlen : cs.cipherLen = 32 := by decide
  obtain ⟨hplain, hfin⟩ := (@run_holds cs cipher [] (by decide) (by decide) (twoCalls cipher)
    (by decide)).2.2 (by decide) fun x hx => by
      rw [hfed, covers_cons, covers_cons]
      omega
  exact ⟨hplain, hfin (by decide)⟩

/-- Four bytes at 1 are a run that starts its plaintext at 1, with all four for its head; and an
output of no bytes is not complete, though all of them are in. -/
theorem head_of_sliver_and_complete_of_empty :
    let cs : CryptoState := { aes := .refl _, iv := fun _ => 0, unp := 16, trackPlain := true }
    let cipher : List UInt8 := (range 16).map fun i => UInt8.ofNat (7 * i + 3)
    let actions : List CryptoAction := [.ingest 1 ((cipher.drop 1).take 4), .write 0, .commit 0]
    ((∀ a ∈ actions, a.Spans cipher) ∧
      ¬ ∀ y ∈ (run cs {} actions).st.runs.entries, y.2.head = (cipher.drop y.1).take (y.2.pLo - y.1)) ∧
    let none : CryptoState := { cs with unp := 0 }
    (∀ x, x < none.cipherLen → Covers (([] : List CryptoAction).flatMap fedBy) x) ∧
      (run none {} []).calls = [] ∧ none.complete (run none {} []).st = false := by
  refine ⟨⟨by decide, by decide⟩, fun x hx => absurd hx (by decide +revert), rfl, by decide⟩

end CryptoWorld

end NzbFast.Extract
