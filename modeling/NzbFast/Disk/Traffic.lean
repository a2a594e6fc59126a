import NzbFast.Disk.Coverage
import NzbFast.Wire.Placed

/-!
# Spans on their way to a file

What a gate in front of a file has to keep, whoever carries the bytes: articles enter,
are compared with what is covered, and their bytes are then written, published and
struck, in any order and in any grouping. A byte in somebody's hands has one holder and
lies under an entry of the gate, so an article that meets no entry meets no byte on its
way, and what it then compares with is everything that was said before it.
-/

namespace NzbFast.Disk

open Wire Function List

/-- How far a byte on its way has come. A fresh one is still being compared by its article. -/
inductive Mark where
  | fresh (article : Nat)
  | ready
  | written
  | published
  deriving DecidableEq

def Mark.Cleared : Mark → Prop
  | .fresh _ => False
  | _ => True

/-- A byte in somebody's hands. -/
structure Held where
  pos : Nat
  val : UInt8
  mark : Mark

/-- Where an article stands with the gate. -/
inductive Pass where
  | outside
  | comparing (prior : List (Nat × Nat))
  | cleared

structure Traffic where
  disk : Nat → UInt8
  ivs : List (Nat × Nat)
  conflict : Bool
  gate : List (Nat × Nat)
  held : List Held
  /-- The articles, as offset and bytes. -/
  arts : List (Nat × List UInt8)
  pass : Nat → Pass

/-- The bytes `v` placed at `s`, all with one mark. -/
def hold (m : Mark) (s : Nat) (v : List UInt8) : List Held :=
  (spread s v).map fun p => ⟨p.1, p.2, m⟩

theorem mem_hold {m : Mark} {s : Nat} {v : List UInt8} {h : Held} :
    h ∈ hold m s v ↔ h.mark = m ∧ byteAt s v h.pos = some h.val := by
  unfold hold
  rw [mem_map]
  constructor
  · rintro ⟨p, hp, rfl⟩
    exact ⟨rfl, mem_spread.mp hp⟩
  · rintro ⟨rfl, hb⟩
    exact ⟨(h.pos, h.val), mem_spread.mpr hb, rfl⟩

theorem map_pos_hold (m : Mark) (s : Nat) (v : List UInt8) :
    (hold m s v).map Held.pos = List.range' s v.length := by
  rw [hold, map_map, ← map_fst_spread]
  rfl

/-- The file with `data` written at `offset`. -/
def pwrite (disk : Nat → UInt8) (offset : Nat) (data : List UInt8) : Nat → UInt8 :=
  fun x => (byteAt offset data x).getD (disk x)

namespace Traffic

/-- Article `i` says that the byte at `x` is `b`. -/
def Says (v : Traffic) (i x : Nat) (b : UInt8) : Prop :=
  ∃ o d, v.arts[i]? = some (o, d) ∧ byteAt o d x = some b

variable {b : UInt8} {i o s x : Nat} {disk : Nat → UInt8} {prior : List (Nat × Nat)}
  {buf : List UInt8} {m : Mark} {rest : List Held}

theorem Says.unique {v : Traffic} {c : UInt8} (hb : v.Says i x b) (hc : v.Says i x c) : b = c := by
  obtain ⟨o, d, ha, hb⟩ := hb
  obtain ⟨o', d', ha', hc⟩ := hc
  cases ha.symm.trans ha'
  exact Option.some.inj (hb.symm.trans hc)

/-- Two articles state different values for a byte both cover. -/
def Contradicts (v : Traffic) : Prop :=
  ∃ i j x b c, i ≠ j ∧ v.Says i x b ∧ v.Says j x c ∧ b ≠ c

structure Inv (v : Traffic) : Prop where
  apart : Apart v.ivs
  once : (v.held.map Held.pos).Nodup
  gated : ∀ h ∈ v.held, Covers v.gate h.pos
  onDisk : ∀ h ∈ v.held, h.mark = .written ∨ h.mark = .published → v.disk h.pos = h.val
  published : ∀ h ∈ v.held, h.mark = .published → Covers v.ivs h.pos
  sourced : ∀ h ∈ v.held, h.mark.Cleared → ∃ i, v.pass i = .cleared ∧ v.Says i h.pos h.val
  covered : ∀ x, Covers v.ivs x → ∃ i, v.pass i = .cleared ∧ v.Says i x (v.disk x)
  present : ∀ i x b, v.pass i = .cleared → v.Says i x b →
    Covers v.ivs x ∨ ∃ h ∈ v.held, h.pos = x ∧ h.mark.Cleared
  -- While no conflict is latched, whatever was cleared at a byte agrees with what is there.
  agreeDisk : v.conflict = false → ∀ i x b, v.pass i = .cleared → v.Says i x b →
    Covers v.ivs x → v.disk x = b
  agreeHeld : v.conflict = false → ∀ i b, v.pass i = .cleared → ∀ h ∈ v.held, v.Says i h.pos b →
    h.mark.Cleared → h.val = b
  comparing : ∀ i prior, v.pass i = .comparing prior → ∀ x b, v.Says i x b →
    ⟨x, b, .fresh i⟩ ∈ v.held
  prior : ∀ i prior, v.pass i = .comparing prior → ∀ x, Covers prior x →
    Covers v.ivs x ∧ ∃ b, v.Says i x b
  compared : v.conflict = false → ∀ i prior, v.pass i = .comparing prior → ∀ x b, v.Says i x b →
    Covers v.ivs x → Covers prior x ∨ v.disk x = b
  latched : v.conflict = true → v.Contradicts

variable {v : Traffic}

theorem Inv.perm (h : Inv v) {l : List Held} (hp : l.Perm v.held) : Inv { v with held := l } where
  apart := h.apart
  once := (hp.map Held.pos).nodup_iff.mpr h.once
  gated a ha := h.gated a (hp.mem_iff.mp ha)
  onDisk a ha := h.onDisk a (hp.mem_iff.mp ha)
  published a ha := h.published a (hp.mem_iff.mp ha)
  sourced a ha := h.sourced a (hp.mem_iff.mp ha)
  covered := h.covered
  present i x b hi hs := by
    rcases h.present i x b hi hs with hc | ⟨a, ha, hax⟩
    · exact .inl hc
    · exact .inr ⟨a, hp.mem_iff.mpr ha, hax⟩
  agreeDisk := h.agreeDisk
  agreeHeld hc i b hi a ha := h.agreeHeld hc i b hi a (hp.mem_iff.mp ha)
  comparing i prior hi x b hs := hp.mem_iff.mpr (h.comparing i prior hi x b hs)
  prior := h.prior
  compared := h.compared
  latched := h.latched

/-- No article is in yet, or only such as have no bytes. -/
theorem inv_start {arts : List (Nat × List UInt8)} {pass : Nat → Pass}
    (hpass : ∀ i, pass i = .outside ∨ (pass i = .cleared ∧ ∀ o d, arts[i]? = some (o, d) → d = [])) :
    Inv ⟨disk, [], false, [], [], arts, pass⟩ where
  apart := .nil
  once := nodup_nil
  gated a ha := absurd ha not_mem_nil
  onDisk a ha := absurd ha not_mem_nil
  published a ha := absurd ha not_mem_nil
  sourced a ha := absurd ha not_mem_nil
  covered x hx := absurd hx (covers_nil x)
  present i x b hi := by
    rintro ⟨o, d, ha, hb⟩
    rcases hpass i with hp | ⟨-, hp⟩
    · exact nomatch hp.symm.trans hi
    · rw [hp o d ha, byteAt_nil] at hb
      cases hb
  agreeDisk _ i x b _ _ hx := absurd hx (covers_nil x)
  agreeHeld _ i b _ a ha := absurd ha not_mem_nil
  comparing i prior hi := by
    rcases hpass i with hp | ⟨hp, -⟩
    · exact nomatch hp.symm.trans hi
    · exact nomatch hp.symm.trans hi
  prior i prior hi := by
    rcases hpass i with hp | ⟨hp, -⟩
    · exact nomatch hp.symm.trans hi
    · exact nomatch hp.symm.trans hi
  compared _ i prior _ x b _ hx := absurd hx (covers_nil x)
  latched hc := Bool.noConfusion hc

/-! ## Passing the gate -/

theorem pass_update {pass : Nat → Pass} {i j : Nat} {p q : Pass}
    (h : Function.update pass i p j = q) : (j = i ∧ p = q) ∨ (j ≠ i ∧ pass j = q) := by
  rcases eq_or_ne j i with rfl | hj
  · exact .inl ⟨rfl, by rwa [update_self] at h⟩
  · exact .inr ⟨hj, by rwa [update_of_ne hj] at h⟩

/-- An article moves on, to a place where what the invariant asks of it holds. -/
theorem Inv.repass (h : Inv v) {p : Pass} (hi : v.pass i ≠ .cleared)
    (hpresent : p = .cleared → ∀ x b, v.Says i x b →
      Covers v.ivs x ∨ ∃ a ∈ v.held, a.pos = x ∧ a.mark.Cleared)
    (hdisk : p = .cleared → v.conflict = false → ∀ x b, v.Says i x b → Covers v.ivs x → v.disk x = b)
    (hheld : p = .cleared → v.conflict = false → ∀ b, ∀ a ∈ v.held, v.Says i a.pos b →
      a.mark.Cleared → a.val = b)
    (hcomparing : ∀ prior, p = .comparing prior → ∀ x b, v.Says i x b → ⟨x, b, .fresh i⟩ ∈ v.held)
    (hprior : ∀ prior, p = .comparing prior → ∀ x, Covers prior x →
      Covers v.ivs x ∧ ∃ b, v.Says i x b)
    (hcompared : v.conflict = false → ∀ prior, p = .comparing prior → ∀ x b, v.Says i x b →
      Covers v.ivs x → Covers prior x ∨ v.disk x = b) :
    Inv { v with pass := update v.pass i p } := by
  have hkeep : ∀ j, v.pass j = .cleared → update v.pass i p j = .cleared := by
    intro j hj
    have hne : j ≠ i := by
      rintro rfl
      exact hi hj
    rw [update_of_ne hne, hj]
  refine { h with
    sourced := ?_, covered := ?_, present := ?_, agreeDisk := ?_, agreeHeld := ?_, comparing := ?_,
    prior := ?_, compared := ?_ }
  · intro a ha hc
    exact (h.sourced a ha hc).imp fun j hj => ⟨hkeep j hj.1, hj.2⟩
  · intro x hx
    exact (h.covered x hx).imp fun j hj => ⟨hkeep j hj.1, hj.2⟩
  · intro j x b hj
    rcases pass_update hj with ⟨rfl, hp⟩ | ⟨-, hj⟩
    · exact hpresent hp x b
    · exact h.present j x b hj
  · intro hc j x b hj
    rcases pass_update hj with ⟨rfl, hp⟩ | ⟨-, hj⟩
    · exact hdisk hp hc x b
    · exact h.agreeDisk hc j x b hj
  · intro hc j b hj
    rcases pass_update hj with ⟨rfl, hp⟩ | ⟨-, hj⟩
    · exact hheld hp hc b
    · exact h.agreeHeld hc j b hj
  · intro j prior hj
    rcases pass_update hj with ⟨rfl, hp⟩ | ⟨-, hj⟩
    · exact hcomparing prior hp
    · exact h.comparing j prior hj
  · intro j prior hj
    rcases pass_update hj with ⟨rfl, hp⟩ | ⟨-, hj⟩
    · exact hprior prior hp
    · exact h.prior j prior hj
  · intro hc j prior hj
    rcases pass_update hj with ⟨rfl, hp⟩ | ⟨-, hj⟩
    · exact hcompared hc prior hp
    · exact h.compared hc j prior hj

theorem says_iff {d : List UInt8} (hart : v.arts[i]? = some (o, d)) :
    v.Says i x b ↔ byteAt o d x = some b := by
  refine ⟨?_, fun hb => ⟨o, d, hart, hb⟩⟩
  rintro ⟨o', d', ha, hb⟩
  cases hart.symm.trans ha
  exact hb

/-- An article without bytes has nothing to compare. -/
theorem Inv.skip (h : Inv v) (hart : v.arts[i]? = some (o, [])) (hout : v.pass i = .outside) :
    Inv { v with pass := update v.pass i .cleared } := by
  have hword : ∀ {x b}, ¬ v.Says i x b := by
    intro x b hs
    rw [says_iff hart, byteAt_nil] at hs
    cases hs
  exact h.repass (by rw [hout]; exact nofun) (fun _ x b hs => absurd hs hword)
    (fun _ _ x b hs => absurd hs hword) (fun _ _ b a _ hs => absurd hs hword) nofun nofun
    fun _ => nofun

/-- What is covered of an article that meets no entry of the gate is all there is of it: it meets
no byte on its way. -/
theorem Inv.enter (h : Inv v) {d : List UInt8} (hart : v.arts[i]? = some (o, d))
    (hout : v.pass i = .outside) (hfree : ∀ e ∈ v.gate, ¬ (e.1 < o + d.length ∧ o < e.2)) :
    Inv { v with
      gate := v.gate ++ [(o, o + d.length)]
      held := hold (.fresh i) o d ++ v.held
      pass := update v.pass i (.comparing (coveredIntervals v.ivs o d.length)) } := by
  have hold_of_cleared : ∀ {a : Held}, a ∈ hold (.fresh i) o d ++ v.held → a.mark.Cleared →
      a ∈ v.held := by
    intro a ha hc
    rcases mem_append.mp ha with ha | ha
    · rw [(mem_hold.mp ha).1] at hc
      exact hc.elim
    · exact ha
  -- its bytes are in its hands before it compares
  have hin : Inv { v with
      gate := v.gate ++ [(o, o + d.length)], held := hold (.fresh i) o d ++ v.held } := by
    refine { h with
      once := ?_, gated := ?_, onDisk := ?_, published := ?_, sourced := ?_, present := ?_,
      agreeHeld := ?_, comparing := ?_ }
    · refine map_append ▸ nodup_append.mpr ⟨?_, h.once, ?_⟩
      · rw [map_pos_hold]
        exact nodup_range'
      · intro x hx y hy hxy
        rw [map_pos_hold, mem_range'_1] at hx
        obtain ⟨a, ha, rfl⟩ := mem_map.mp hy
        obtain ⟨e, he, hlo, hhi⟩ := h.gated a ha
        exact hfree e he ⟨by omega, by omega⟩
    · intro a ha
      rw [covers_append, covers_cons]
      rcases mem_append.mp ha with ha | ha
      · exact .inr (.inl (byteAt_some_range (mem_hold.mp ha).2))
      · exact .inl (h.gated a ha)
    · intro a ha hm
      exact h.onDisk a (hold_of_cleared ha (by rcases hm with hm | hm <;> rw [hm] <;> exact trivial)) hm
    · intro a ha hm
      exact h.published a (hold_of_cleared ha (by rw [hm]; exact trivial)) hm
    · intro a ha hc
      exact h.sourced a (hold_of_cleared ha hc) hc
    · intro j x b hj hs
      exact (h.present j x b hj hs).imp_right fun ⟨a, ha, hax⟩ =>
        ⟨a, mem_append_right _ ha, hax⟩
    · intro hc j b hj a ha hs hm
      exact h.agreeHeld hc j b hj a (hold_of_cleared ha hm) hs hm
    · intro j prior hj x b hs
      exact mem_append_right _ (h.comparing j prior hj x b hs)
  refine hin.repass (by rw [hout]; exact nofun) nofun nofun nofun (fun _ _ x b hs => ?_)
    (fun prior hp x hx => ?_) fun _ prior hp x b hs hx => ?_
  · exact mem_append_left _ (mem_hold.mpr ⟨rfl, (says_iff hart).mp hs⟩)
  · cases hp
    obtain ⟨hx, hr⟩ := covers_coveredIntervals.mp hx
    obtain ⟨b, hb⟩ := Option.isSome_iff_exists.mp (byteAt_isSome.mpr hr)
    exact ⟨hx, b, o, d, hart, hb⟩
  · cases hp
    exact .inl (covers_coveredIntervals.mpr ⟨hx, byteAt_some_range ((says_iff hart).mp hs)⟩)

theorem not_cleared (hi : v.pass i = .comparing prior) : v.pass i ≠ .cleared := by
  rw [hi]
  exact nofun

/-- A range read back and found equal. -/
theorem Inv.compareOne (h : Inv v) {r : Nat × Nat} (hi : v.pass i = .comparing (r :: prior))
    (heq : ∀ x b, r.1 ≤ x ∧ x < r.2 → v.Says i x b → v.disk x = b) :
    Inv { v with pass := update v.pass i (.comparing prior) } := by
  refine h.repass (not_cleared hi) nofun nofun nofun (fun _ _ => h.comparing i _ hi)
    (fun prior' hp x hx => ?_) fun hc prior' hp x b hs hx => ?_
  · cases hp
    exact h.prior i _ hi x (covers_cons.mpr (.inr hx))
  · cases hp
    rcases h.compared hc i _ hi x b hs hx with hr | he
    · rcases covers_cons.mp hr with hr | hr
      · exact .inr (heq x b hr hs)
      · exact .inl hr
    · exact .inr he

/-- A range read back and found different: what is on disk there, another article said. -/
theorem Inv.latch (h : Inv v) (hi : v.pass i = .comparing prior) (hx : Covers prior x)
    (hs : v.Says i x b) (hne : v.disk x ≠ b) :
    Inv { v with conflict := true, pass := update v.pass i (.comparing []) } := by
  obtain ⟨j, hj, hsj⟩ := h.covered x (h.prior i prior hi x hx).1
  have hij : i ≠ j := by
    rintro rfl
    exact nomatch hi.symm.trans hj
  have hlatched : Inv { v with conflict := true } :=
    { h with
      agreeDisk := nofun, agreeHeld := nofun, compared := nofun
      latched := fun _ => ⟨i, j, x, b, v.disk x, hij, hs, hsj, fun he => hne he.symm⟩ }
  refine hlatched.repass (not_cleared hi) nofun nofun nofun (fun _ _ => h.comparing i _ hi)
    (fun prior' hp x hx => ?_) nofun
  cases hp
  exact absurd hx (covers_nil x)

/-! ## The way to the disk -/

/-- The bytes of one span with another mark. -/
theorem mem_remark {m m' : Mark} {s : Nat} {buf : List UInt8} {rest : List Held} {a : Held}
    (ha : a ∈ hold m' s buf ++ rest) :
    (a.mark = m' ∧ byteAt s buf a.pos = some a.val ∧ ⟨a.pos, a.val, m⟩ ∈ hold m s buf ++ rest) ∨
      (a ∈ rest ∧ a ∈ hold m s buf ++ rest) := by
  rcases mem_append.mp ha with ha | ha
  · obtain ⟨hm, hb⟩ := mem_hold.mp ha
    exact .inl ⟨hm, hb, mem_append_left _ (mem_hold.mpr ⟨rfl, hb⟩)⟩
  · exact .inr ⟨ha, mem_append_right _ ha⟩

theorem once_remark {m' : Mark} (h : ((hold m s buf ++ rest).map Held.pos).Nodup) :
    ((hold m' s buf ++ rest).map Held.pos).Nodup := by
  rw [map_append, map_pos_hold] at h ⊢
  exact h

theorem Inv.elsewhere (h : Inv v) (hv : v.held = hold m s buf ++ rest) {a : Held} (ha : a ∈ rest) :
    byteAt s buf a.pos = none := by
  cases hb : byteAt s buf a.pos with
  | none => rfl
  | some b =>
    have hn := h.once
    rw [hv, map_append, map_pos_hold] at hn
    have hr := byteAt_some_range hb
    exact absurd rfl ((nodup_append.mp hn).2.2 a.pos (mem_range'_1.mpr hr) a.pos
      (mem_map_of_mem ha))

/-- An article with nothing left to compare is cleared, and its bytes are ready. -/
theorem Inv.clear (h : Inv v) {d : List UInt8} (hart : v.arts[i]? = some (o, d))
    (hi : v.pass i = .comparing []) (hv : v.held = hold (.fresh i) o d ++ rest) :
    Inv { v with
      held := hold .ready o d ++ rest
      pass := update v.pass i .cleared } := by
  have hword : ∀ x b, v.Says i x b ↔ byteAt o d x = some b := fun x b => says_iff hart
  have hkeep : ∀ j, v.pass j = .cleared → update v.pass i .cleared j = .cleared := by
    intro j hj
    rcases eq_or_ne j i with rfl | hne
    · exact update_self ..
    · rw [update_of_ne hne, hj]
  have hrest : ∀ a ∈ rest, ∀ b, ¬ v.Says i a.pos b := by
    intro a ha b hs
    have := h.elsewhere hv ha
    rw [(hword a.pos b).mp hs] at this
    cases this
  have hmem : ∀ a ∈ v.held, a.mark.Cleared → a ∈ rest := by
    intro a ha hc
    rw [hv] at ha
    rcases mem_append.mp ha with ha | ha
    · rw [(mem_hold.mp ha).1] at hc
      exact hc.elim
    · exact ha
  refine {
    apart := h.apart, latched := h.latched, once := ?_, gated := ?_, onDisk := ?_, published := ?_,
    sourced := ?_, covered := ?_, present := ?_, agreeDisk := ?_, agreeHeld := ?_, comparing := ?_,
    prior := ?_, compared := ?_ }
  · exact once_remark (hv ▸ h.once)
  · intro a ha
    rcases @mem_remark (.fresh i) _ _ _ _ _ ha with ⟨-, -, ha⟩ | ⟨-, ha⟩
    · exact h.gated ⟨a.pos, a.val, .fresh i⟩ (by rw [hv]; exact ha)
    · exact h.gated a (by rw [hv]; exact ha)
  · intro a ha hm
    rcases mem_remark ha with ⟨hr, -, -⟩ | ⟨-, ha⟩
    · rw [hr] at hm
      rcases hm with hm | hm <;> cases hm
    · exact h.onDisk a (hv ▸ ha) hm
  · intro a ha hm
    rcases mem_remark ha with ⟨hr, -, -⟩ | ⟨-, ha⟩
    · rw [hr] at hm
      cases hm
    · exact h.published a (hv ▸ ha) hm
  · intro a ha hc
    rcases mem_remark ha with ⟨-, hb, -⟩ | ⟨-, ha⟩
    · exact ⟨i, update_self .., (hword _ _).mpr hb⟩
    · obtain ⟨j, hj, hs⟩ := h.sourced a (hv ▸ ha) hc
      exact ⟨j, hkeep j hj, hs⟩
  · intro x hx
    obtain ⟨j, hj, hs⟩ := h.covered x hx
    exact ⟨j, hkeep j hj, hs⟩
  · intro j x b hj hs
    rcases pass_update hj with ⟨rfl, -⟩ | ⟨-, hj⟩
    · exact .inr ⟨⟨x, b, .ready⟩,
        mem_append_left _ (mem_hold.mpr ⟨rfl, (hword x b).mp hs⟩), rfl, trivial⟩
    · rcases h.present j x b hj hs with hc | ⟨a, ha, hax, hc⟩
      · exact .inl hc
      · exact .inr ⟨a, mem_append_right _ (hmem a ha hc), hax, hc⟩
  · intro hc j x b hj hs hx
    rcases pass_update hj with ⟨rfl, -⟩ | ⟨-, hj⟩
    · exact (h.compared hc j [] hi x b hs hx).resolve_left (covers_nil x)
    · exact h.agreeDisk hc j x b hj hs hx
  · intro hc j b hj a ha hs hm
    rcases mem_append.mp ha with hao | har
    · have hb := (mem_hold.mp hao).2
      rcases pass_update hj with ⟨rfl, -⟩ | ⟨-, hj⟩
      · exact ((hword _ _).mpr hb).unique hs
      · -- An earlier article at this byte is on disk: nobody else holds the byte.
        have hcov : Covers v.ivs a.pos := by
          rcases h.present j a.pos b hj hs with hcov | ⟨a', ha', hax, hc'⟩
          · exact hcov
          · have := h.elsewhere hv (hmem a' ha' hc')
            rw [hax, hb] at this
            cases this
        have h₁ := h.agreeDisk hc j a.pos b hj hs hcov
        have h₂ := (h.compared hc i [] hi a.pos a.val ((hword _ _).mpr hb) hcov).resolve_left
          (covers_nil a.pos)
        exact h₂.symm.trans h₁
    · rcases pass_update hj with ⟨rfl, -⟩ | ⟨-, hj⟩
      · exact absurd hs (hrest a har b)
      · exact h.agreeHeld hc j b hj a (hv ▸ mem_append_right _ har) hs hm
  · intro j prior hj x b hs
    rcases pass_update hj with ⟨-, hp⟩ | ⟨hne, hj⟩
    · cases hp
    · have ha := h.comparing j prior hj x b hs
      rw [hv] at ha
      rcases mem_append.mp ha with ha | ha
      · have := (mem_hold.mp ha).1
        cases this
        exact absurd rfl hne
      · exact mem_append_right _ ha
  · intro j prior hj
    rcases pass_update hj with ⟨-, hp⟩ | ⟨-, hj⟩
    · cases hp
    · exact h.prior j prior hj
  · intro hc j prior hj
    rcases pass_update hj with ⟨-, hp⟩ | ⟨-, hj⟩
    · cases hp
    · exact h.compared hc j prior hj

theorem pwrite_some (h : byteAt s buf x = some b) : pwrite disk s buf x = b := by
  rw [pwrite, h, Option.getD_some]

theorem pwrite_none (h : byteAt s buf x = none) : pwrite disk s buf x = disk x := by
  rw [pwrite, h, Option.getD_none]

/-- The marks of one span's bytes change and no article moves. -/
theorem Inv.remark (h : Inv v) {m' : Mark} (hv : v.held = hold m s buf ++ rest) (hm : m.Cleared)
    (hm' : m'.Cleared)
    (hdisk : m' = .written ∨ m' = .published → ∀ x b, byteAt s buf x = some b → v.disk x = b)
    (hcov : m' = .published → ∀ x b, byteAt s buf x = some b → Covers v.ivs x) :
    Inv { v with held := hold m' s buf ++ rest } := by
  refine { h with
    once := ?_, gated := ?_, onDisk := ?_, published := ?_, sourced := ?_, present := ?_,
    agreeHeld := ?_, comparing := ?_ }
  · exact once_remark (hv ▸ h.once)
  · intro a ha
    rcases @mem_remark m _ _ _ _ _ ha with ⟨-, -, ha⟩ | ⟨-, ha⟩
    · exact h.gated ⟨a.pos, a.val, m⟩ (by rw [hv]; exact ha)
    · exact h.gated a (by rw [hv]; exact ha)
  · intro a ha hw
    rcases @mem_remark m _ _ _ _ _ ha with ⟨he, hb, -⟩ | ⟨-, ha⟩
    · exact hdisk (he ▸ hw) a.pos a.val hb
    · exact h.onDisk a (by rw [hv]; exact ha) hw
  · intro a ha hp
    rcases @mem_remark m _ _ _ _ _ ha with ⟨he, hb, -⟩ | ⟨-, ha⟩
    · exact hcov (he ▸ hp) a.pos a.val hb
    · exact h.published a (by rw [hv]; exact ha) hp
  · intro a ha hc
    rcases @mem_remark m _ _ _ _ _ ha with ⟨-, -, ha⟩ | ⟨-, ha⟩
    · exact h.sourced ⟨a.pos, a.val, m⟩ (by rw [hv]; exact ha) hm
    · exact h.sourced a (by rw [hv]; exact ha) hc
  · intro i x b hi hs
    rcases h.present i x b hi hs with hc | ⟨a, ha, hax, hc⟩
    · exact .inl hc
    · rw [hv] at ha
      rcases @mem_remark m' _ _ _ _ _ ha with ⟨-, -, ha⟩ | ⟨-, ha⟩
      · exact .inr ⟨_, ha, hax, hm'⟩
      · exact .inr ⟨a, ha, hax, hc⟩
  · intro hc i b hi a ha hs hcl
    rcases @mem_remark m _ _ _ _ _ ha with ⟨-, -, ha⟩ | ⟨-, ha⟩
    · exact h.agreeHeld hc i b hi ⟨a.pos, a.val, m⟩ (by rw [hv]; exact ha) hs hm
    · exact h.agreeHeld hc i b hi a (by rw [hv]; exact ha) hs hcl
  · intro i prior hi x b hs
    have ha := h.comparing i prior hi x b hs
    rw [hv] at ha
    rcases mem_append.mp ha with ha | ha
    · rw [← (mem_hold.mp ha).1] at hm
      exact hm.elim
    · exact mem_append_right _ ha

/-- An article still comparing has no byte in a cleared span. -/
theorem Inv.not_comparing (h : Inv v) (hv : v.held = hold m s buf ++ rest) (hm : m.Cleared)
    (hi : v.pass i = .comparing prior) (hs : v.Says i x b) : byteAt s buf x = none := by
  have ha := h.comparing i prior hi x b hs
  rw [hv] at ha
  rcases mem_append.mp ha with ha | ha
  · rw [← (mem_hold.mp ha).1] at hm
    exact hm.elim
  · exact h.elsewhere hv ha

theorem Inv.write (h : Inv v) (hv : v.held = hold .ready s buf ++ rest) :
    Inv { v with disk := pwrite v.disk s buf, held := hold .written s buf ++ rest } := by
  have hmem : ∀ {x b}, byteAt s buf x = some b → ⟨x, b, .ready⟩ ∈ v.held := by
    intro x b hb
    rw [hv]
    exact mem_append_left _ (mem_hold.mpr ⟨rfl, hb⟩)
  have hdisk : Inv { v with disk := pwrite v.disk s buf } := by
    refine { h with onDisk := ?_, covered := ?_, agreeDisk := ?_, compared := ?_ }
    · intro a ha hm
      rw [hv] at ha
      rcases mem_append.mp ha with hao | har
      · rw [(mem_hold.mp hao).1] at hm
        rcases hm with hm | hm <;> cases hm
      · exact (pwrite_none (h.elsewhere hv har)).trans
          (h.onDisk a (hv ▸ mem_append_right _ har) hm)
    · intro x hx
      cases hb : byteAt s buf x with
      | none =>
        obtain ⟨i, hi, hs⟩ := h.covered x hx
        refine ⟨i, hi, ?_⟩
        show v.Says i x (pwrite v.disk s buf x)
        rw [pwrite_none hb]
        exact hs
      | some b =>
        obtain ⟨i, hi, hs⟩ := h.sourced _ (hmem hb) trivial
        refine ⟨i, hi, ?_⟩
        show v.Says i x (pwrite v.disk s buf x)
        rw [pwrite_some hb]
        exact hs
    · intro hc i x b hi hs hx
      cases hb : byteAt s buf x with
      | none => exact (pwrite_none hb).trans (h.agreeDisk hc i x b hi hs hx)
      | some c => exact (pwrite_some hb).trans (h.agreeHeld hc i b hi _ (hmem hb) hs trivial)
    · intro hc i prior hi x b hs hx
      have hb := h.not_comparing hv trivial hi hs
      exact (h.compared hc i prior hi x b hs hx).imp_right (pwrite_none hb).trans
  exact hdisk.remark hv trivial trivial (fun _ x b hb => pwrite_some hb) fun hp => by cases hp

theorem Inv.publish (h : Inv v) {s : Nat} {buf : List UInt8} {rest : List Held}
    (hv : v.held = hold .written s buf ++ rest) :
    Inv { v with ivs := (mergeSpan v.ivs s buf.length).1, held := hold .published s buf ++ rest } := by
  have hmem : ∀ {x b}, byteAt s buf x = some b → ⟨x, b, .written⟩ ∈ v.held := by
    intro x b hb
    rw [hv]
    exact mem_append_left _ (mem_hold.mpr ⟨rfl, hb⟩)
  have hcov : ∀ {x}, Covers (mergeSpan v.ivs s buf.length).1 x ↔
      Covers v.ivs x ∨ ∃ b, byteAt s buf x = some b := by
    intro x
    rw [covers_mergeSpan h.apart, ← byteAt_isSome, Option.isSome_iff_exists]
  have hpub : Inv { v with ivs := (mergeSpan v.ivs s buf.length).1 } := by
    refine { h with
      apart := h.apart.mergeSpan _ _, published := ?_, covered := ?_, present := ?_,
      agreeDisk := ?_, prior := ?_, compared := ?_ }
    · intro a ha hp
      exact hcov.mpr (.inl (h.published a ha hp))
    · intro x hx
      rcases hcov.mp hx with hx | ⟨b, hb⟩
      · exact h.covered x hx
      · obtain ⟨i, hi, hs⟩ := h.sourced _ (hmem hb) trivial
        exact ⟨i, hi, (h.onDisk _ (hmem hb) (.inl rfl)).symm ▸ hs⟩
    · intro i x b hi hs
      exact (h.present i x b hi hs).imp_left fun hc => hcov.mpr (.inl hc)
    · intro hc i x b hi hs hx
      rcases hcov.mp hx with hx | ⟨c, hb⟩
      · exact h.agreeDisk hc i x b hi hs hx
      · exact (h.onDisk _ (hmem hb) (.inl rfl)).trans
          (h.agreeHeld hc i b hi _ (hmem hb) hs trivial)
    · intro i prior hi x hx
      obtain ⟨hx, hs⟩ := h.prior i prior hi x hx
      exact ⟨hcov.mpr (.inl hx), hs⟩
    · intro hc i prior hi x b hs hx
      rcases hcov.mp hx with hx | ⟨c, hb⟩
      · exact h.compared hc i prior hi x b hs hx
      · rw [h.not_comparing hv trivial hi hs] at hb
        cases hb
  exact hpub.remark hv trivial trivial (fun _ x b hb => h.onDisk _ (hmem hb) (.inl rfl))
    fun _ x b hb => hcov.mpr (.inr ⟨b, hb⟩)

/-- A published span leaves, and takes from the gate only entries over its own bytes. -/
theorem Inv.strike (h : Inv v) (hv : v.held = hold .published s buf ++ rest)
    {gate : List (Nat × Nat)}
    (hgate : ∀ x, Covers v.gate x → Covers gate x ∨ (s ≤ x ∧ x < s + buf.length)) :
    Inv { v with gate := gate, held := rest } := by
  have hmem : ∀ a ∈ rest, a ∈ v.held := by
    intro a ha
    rw [hv]
    exact mem_append_right _ ha
  refine { h with
    once := ?_, gated := ?_, onDisk := ?_, published := ?_, sourced := ?_, present := ?_,
    agreeHeld := ?_, comparing := ?_ }
  · have hn := h.once
    rw [hv, map_append] at hn
    exact (nodup_append.mp hn).2.1
  · intro a ha
    rcases hgate a.pos (h.gated a (hmem a ha)) with hg | hr
    · exact hg
    · have hb := byteAt_isSome.mpr hr
      rw [h.elsewhere hv ha] at hb
      cases hb
  · exact fun a ha => h.onDisk a (hmem a ha)
  · exact fun a ha => h.published a (hmem a ha)
  · exact fun a ha => h.sourced a (hmem a ha)
  · intro i x b hi hs
    rcases h.present i x b hi hs with hc | ⟨a, ha, hax, hc⟩
    · exact .inl hc
    · rw [hv] at ha
      rcases mem_append.mp ha with hao | har
      · refine .inl (hax ▸ h.published a (by rw [hv]; exact mem_append_left _ hao) ?_)
        exact (mem_hold.mp hao).1
      · exact .inr ⟨a, har, hax, hc⟩
  · exact fun hc i b hi a ha => h.agreeHeld hc i b hi a (hmem a ha)
  · intro i prior hi x b hs
    have ha := h.comparing i prior hi x b hs
    rw [hv] at ha
    rcases mem_append.mp ha with hao | har
    · cases (mem_hold.mp hao).1
    · exact har

/-- When every article has passed and nothing is on its way, the latch tells whether the articles
contradict each other, and the file has what they said. -/
theorem Inv.settled (h : Inv v) (hheld : v.held = []) (hpass : ∀ i < v.arts.length, v.pass i = .cleared) :
    (v.conflict = true ↔ v.Contradicts) ∧
    (∀ i x b, v.Says i x b → Covers v.ivs x) ∧
    ∀ x, Covers v.ivs x → ∃ i, v.Says i x (v.disk x) := by
  have hcl : ∀ {i x b}, v.Says i x b → v.pass i = .cleared := by
    rintro i x b ⟨o, d, ha, -⟩
    exact hpass i (List.getElem?_eq_some_iff.mp ha).1
  have hall : ∀ i x b, v.Says i x b → Covers v.ivs x := by
    intro i x b hs
    rcases h.present i x b (hcl hs) hs with hc | ⟨a, ha, -⟩
    · exact hc
    · rw [hheld] at ha
      exact absurd ha not_mem_nil
  refine ⟨⟨h.latched, fun hcon => ?_⟩, hall, fun x hx => ?_⟩
  · obtain ⟨i, j, x, b, c, -, hb, hc, hne⟩ := hcon
    by_contra hno
    have hno : v.conflict = false := by simpa using hno
    have h₁ := h.agreeDisk hno i x b (hcl hb) hb (hall i x b hb)
    have h₂ := h.agreeDisk hno j x c (hcl hc) hc (hall j x c hc)
    exact hne (h₁.symm.trans h₂)
  · obtain ⟨i, -, hs⟩ := h.covered x hx
    exact ⟨i, hs⟩

end Traffic

end NzbFast.Disk
