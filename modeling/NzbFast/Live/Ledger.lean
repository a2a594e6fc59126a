import NzbFast.Live.Budget
import NzbFast.Live.Claims

/-!
# The partials ledger

The counter `partials_used` is at every moment the sum over the slots of
`partial_bytes` and of what the thread holding the slot is about to give back
(`Till.share`); what it will not give back (`Till.kept`) stays under the cap,
because a reservation is accepted on a counter that already holds every other
one. `Till.Settled` is what a slot is when its lock is down. Each program is
`Lawful`: from a settled slot it goes, section by section, to a settled one.
-/

namespace NzbFast.Live

open NzbFast.Par2 Fold Sync Function

namespace Till

def share (t : Till) : Nat := t.s.partialBytes + t.reserved + t.owed

def kept (t : Till) : Nat := t.s.partialBytes + t.owed

/-- The same charges. -/
structure SameCharge (t t' : Till) : Prop where
  share : t'.share = t.share
  kept : t'.kept = t.kept
  wrapped : t'.wrapped = t.wrapped

/-- A slot whose lock is down. -/
structure Settled (t : Till) : Prop where
  bytes : t.s.partialBytes = heldBytes t.s.partials
  fits : ∀ bi p, t.s.partials.lookup bi = some (.bytes p) →
    ∃ file bs, t.desc = some (file, bs) ∧ p.buf.length = blockLen file.length bs bi
  desc : t.desc = none ↔ t.s.file = none
  reserved : t.reserved = 0
  owed : t.owed = 0
  wrapped : t.wrapped = false

/-- What block `bi` holds of the budget. -/
def heldAt (t : Till) (bi : Nat) : Nat := (t.s.partials.lookup bi).elim 0 PartialBuf.held

variable {t : Till}

theorem heldAt_eq {bi : Nat} {o : Option PartialBuf} (hp : t.s.partials.lookup bi = o) :
    t.heldAt bi = o.elim 0 PartialBuf.held :=
  congrArg (·.elim 0 PartialBuf.held) hp

theorem Settled.heldAt_add (ht : t.Settled) (bi : Nat) :
    t.heldAt bi + heldBytes (t.s.partials.erase bi) = t.s.partialBytes := by
  unfold heldAt
  rw [ht.bytes]
  cases hl : t.s.partials.lookup bi with
  | none =>
    rw [Table.erase_of_lookup_none hl]
    exact zero_add _
  | some pb => exact (Table.total_of_lookup PartialBuf.held hl).symm

variable {bi n : Nat}

theorem Settled.erase (ht : t.Settled) (hn : n + t.heldAt bi = t.s.partialBytes) :
    Settled { t with s := { t.s with partials := t.s.partials.erase bi, partialBytes := n } } where
  bytes := by
    have := ht.heldAt_add bi
    dsimp only
    omega
  fits := by
    intro bj p hp
    by_cases hj : bj = bi
    · subst hj
      rw [Finmap.lookup_erase] at hp
      cases hp
    · rw [Finmap.lookup_erase_ne hj] at hp
      exact ht.fits bj p hp
  desc := ht.desc
  reserved := ht.reserved
  owed := ht.owed
  wrapped := ht.wrapped

/-- A byte partial is taken out, and `partial_bytes` covers it. -/
theorem Settled.takeOut (ht : t.Settled) (hn : t.heldAt bi = n) :
    (t.takeOut bi n).Settled ∧ t.s.partialBytes = (t.takeOut bi n).s.partialBytes + n := by
  have hadd := ht.heldAt_add bi
  have hs := ht.erase (show (t.s.partialBytes - n) + t.heldAt bi = t.s.partialBytes by omega)
  refine ⟨⟨hs.bytes, hs.fits, hs.desc, hs.reserved, hs.owed, ?_⟩, ?_⟩
  · simp only [Till.takeOut, Bool.or_eq_false_iff, decide_eq_false_iff_not]
    exact ⟨ht.wrapped, by omega⟩
  · simp only [Till.takeOut]
    omega

/-- A partial is put where block `bi` held `heldAt bi`. -/
theorem Settled.insert (ht : t.Settled) {pb : PartialBuf}
    (hpb : ∀ p, pb = .bytes p → ∃ file bs, t.desc = some (file, bs) ∧ p.buf.length = blockLen file.length bs bi)
    (hn : n + t.heldAt bi = t.s.partialBytes + pb.held) :
    Settled { t with s := { t.s with partials := t.s.partials.insert bi pb, partialBytes := n } } where
  bytes := by
    have := ht.heldAt_add bi
    have htot : heldBytes (t.s.partials.insert bi pb) =
        pb.held + heldBytes (t.s.partials.erase bi) := Table.total_insert PartialBuf.held _ _ _
    dsimp only
    omega
  fits := by
    intro bj p hp
    rw [Table.lookup_insert_eq_ite] at hp
    split at hp
    · rename_i hj
      subst hj
      exact hpb p (Option.some.inj hp)
    · exact ht.fits bj p hp
  desc := ht.desc
  reserved := ht.reserved
  owed := ht.owed
  wrapped := ht.wrapped

/-- The feeds in flight and the work claimed are not on the budget. -/
theorem Settled.withFeeds (ht : t.Settled) (jobs : List Job) (w : Work) :
    Settled { t with jobs := jobs, work := w } :=
  ⟨ht.bytes, ht.fits, ht.desc, ht.reserved, ht.owed, ht.wrapped⟩

/-- Another slot state with the same binding and partials. -/
theorem Settled.withSlot (ht : t.Settled) {s : SlotState} (hf : s.file = t.s.file)
    (hp : s.partials = t.s.partials) (hb : s.partialBytes = t.s.partialBytes) :
    Settled { t with s := s } where
  bytes := by rw [hb, hp]; exact ht.bytes
  fits := by
    intro bi p h
    exact ht.fits bi p (hp ▸ h)
  desc := by rw [hf]; exact ht.desc
  reserved := ht.reserved
  owed := ht.owed
  wrapped := ht.wrapped

end Till

/-! ## The contract -/

section Sums

variable {n : Nat} (cells : Fin n → Till) (i : Fin n)

/-- Changing one cell moves a sum by the difference. -/
theorem sum_update (f : Till → Nat) (t t' : Till) :
    (∑ j, f (Function.update cells i t j)) + f t' = (∑ j, f (Function.update cells i t' j)) + f t := by
  have hsum : ∀ t, ∑ j, f (update cells i t j) =
      f t + ∑ j ∈ Finset.univ \ {i}, f (cells j) := by
    intro t
    have hf : (fun j => f (update cells i t j)) =
        update (fun j => f (cells j)) i (f t) := by
      funext j
      exact apply_update (fun _ => f) cells i t j
    rw [hf, Finset.sum_update_of_mem (Finset.mem_univ i)]
  rw [hsum, hsum]
  omega

theorem le_sum_update (f : Till → Nat) (t : Till) : f t ≤ ∑ j, f (Function.update cells i t j) := by
  have h :=
    Finset.single_le_sum (f := fun j => f (Function.update cells i t j)) (fun _ _ => Nat.zero_le _)
      (Finset.mem_univ i)
  rwa [update_self] at h

theorem sum_kept_le : ∑ j, (cells j).kept ≤ ∑ j, (cells j).share := by
  apply Finset.sum_le_sum
  intro j _
  unfold Till.kept Till.share
  omega

end Sums

/-- The ledger: the counter is the sum of the shares, what is kept fits the cap, no `partial_bytes`
wrapped, and a `fetch_sub` never takes more than the counter has. -/
def ledger (cap n : Nat) : Contract Fetch Nat Till (Fin n) where
  Inv used cells := used = ∑ i, (cells i).share ∧ ∑ i, (cells i).kept ≤ cap ∧
    ∀ i, (cells i).wrapped = false
  req _ used _ o := ∀ m, o = .sub m → m ≤ used
  rest := Till.Settled

/-- From cell `t` the program keeps the ledger. -/
abbrev Lawful (d : Digests) (cap : Nat) {n : Nat} (i : Fin n) (t : Till) (p : Till.Prog) : Prop :=
  Sound (budget d cap n) (ledger cap n) i t p

section Lawful

variable {d : Digests} {cap n : Nat} {i : Fin n} {t t' : Till}

/-- A cell whose `partial_bytes` did not wrap may stand for another. -/
theorem wrapped_update {cells : Fin n → Till} (h : ∀ j, (Function.update cells i t j).wrapped = false)
    (hw : t'.wrapped = false) (j : Fin n) : (Function.update cells i t' j).wrapped = false := by
  have hj := h j
  by_cases hij : j = i
  · subst hij
    rw [update_self]
    exact hw
  · rw [update_of_ne hij] at hj ⊢
    exact hj

theorem inv_shift (hs : t.SameCharge t') {w : Nat} {cells : Fin n → Till}
    (h : (ledger cap n).Inv w (Function.update cells i t)) :
    (ledger cap n).Inv w (Function.update cells i t') := by
  obtain ⟨hw, hc, hu⟩ := h
  have h1 := sum_update cells i Till.share t t'
  have h2 := sum_update cells i Till.kept t t'
  have hi := hu i
  rw [update_self] at hi
  have hshare := hs.share
  have hkept := hs.kept
  exact ⟨by omega, by omega, wrapped_update hu (hs.wrapped.trans hi)⟩

/-- Local code that leaves the slot's charges alone. -/
theorem Lawful.shift {p : Till.Prog} (hp : Lawful d cap i t' p) (hs : t.SameCharge t') :
    Lawful d cap i t p :=
  Sound.weaken (fun _ _ h => inv_shift hs h) hp

variable {k : Till → Till.Prog} {bi : Nat} {j : Job}

theorem lawful_refund {m : Nat} (hshare : t.share = t'.share + m) (hkept : t.kept = t'.kept + m)
    (howed : t'.owed = 0) (hwrap : t'.wrapped = false) (hk : Lawful d cap i t' (k t')) :
    Lawful d cap i t (t'.refund m k) := by
  have hs : ({ t' with owed := m } : Till).share = t'.share + m := by
    unfold Till.share
    dsimp only
    omega
  have hkp : ({ t' with owed := m } : Till).kept = t'.kept + m := by
    unfold Till.kept
    dsimp only
    omega
  apply Sound.act
  · rintro w cells ⟨hw, hc, hu⟩
    have h1 := sum_update cells i Till.share t { t' with owed := m }
    have h2 := sum_update cells i Till.kept t { t' with owed := m }
    exact ⟨by omega, by omega, wrapped_update hu hwrap⟩
  · rintro w cells ⟨hw, hc, hu⟩
    have h1 := sum_update cells i Till.share { t' with owed := m } t'
    have h2 := sum_update cells i Till.kept { t' with owed := m } t'
    refine ⟨?_, t', ⟨?_, by omega, wrapped_update hu hwrap⟩, hk⟩
    · intro m' hm
      cases hm
      omega
    · show w - m = _
      omega

/-- A reservation is refused and handed back, or accepted and then it fits the cap. -/
theorem lawful_reserve {blen : Nat} {refused accepted : Till.Prog} (ht : t.Settled)
    (hshare : t'.share = t.share + blen) (hkept : t'.kept = t.kept + blen)
    (hwrap : t'.wrapped = false) (hr : Lawful d cap i t refused)
    (ha : Lawful d cap i t' accepted) : Lawful d cap i t (t.reserve cap blen refused accepted) := by
  have hres := ht.reserved
  have hs : ({ t with reserved := blen } : Till).share = t.share + blen := by
    unfold Till.share
    dsimp only
    omega
  have hkp : ({ t with reserved := blen } : Till).kept = t.kept := rfl
  apply Sound.act
  · exact fun _ _ h => h
  · rintro w cells ⟨hw, hc, hu⟩
    have hadd : ∀ m, (Fetch.add blen) = .sub m → m ≤ w := fun m hm => nomatch hm
    refine ⟨hadd, ?_⟩
    have hsum := sum_kept_le (update cells i t)
    by_cases hcap : cap < w + blen
    · -- refused: the bytes stay on the counter until they are handed back
      refine ⟨{ t with reserved := blen }, ⟨?_, ?_, wrapped_update hu ht.wrapped⟩, ?_⟩
      · have := sum_update cells i Till.share t { t with reserved := blen }
        show w + blen = _
        omega
      · have := sum_update cells i Till.kept t { t with reserved := blen }
        omega
      · rw [if_pos hcap]
        apply Sound.act
        · exact fun _ _ h => h
        · rintro w cells ⟨hw, hc, hu⟩
          have h1 := sum_update cells i Till.share { t with reserved := blen } t
          have h2 := sum_update cells i Till.kept { t with reserved := blen } t
          refine ⟨?_, t, ⟨?_, by omega, wrapped_update hu ht.wrapped⟩, hr⟩
          · intro m hm
            cases hm
            omega
          · show w - blen = _
            omega
    · refine ⟨t', ⟨?_, ?_, wrapped_update hu hwrap⟩, ?_⟩
      · have := sum_update cells i Till.share t t'
        show w + blen = _
        omega
      · have := sum_update cells i Till.kept t t'
        omega
      · rw [if_neg hcap]
        exact ha

/-- What is taken out leaves the slot's charges by just that. -/
theorem charge_takeOut {m : Nat} (hb : t.s.partialBytes = (t.takeOut bi m).s.partialBytes + m) :
    t.share = (t.takeOut bi m).share + m ∧ t.kept = (t.takeOut bi m).kept + m := by
  have hr : (t.takeOut bi m).reserved = t.reserved := rfl
  have ho : (t.takeOut bi m).owed = t.owed := rfl
  unfold Till.share Till.kept
  omega

theorem lawful_free (ht : t.Settled) : Lawful d cap i t (.free t) := Sound.free ht

/-! ## The claim loop -/

/-- A settled slot bound to a descriptor. -/
structure Till.On (file : Par2File) (bs : Nat) (t : Till) : Prop where
  settled : t.Settled
  desc : t.desc = some (file, bs)

section Claim

variable {file : Par2File} {bs : Nat} {sp : Span} {bi os oe : Nat} {k : Till → Till.Prog}

variable {p : Partial} {cc : Bool}

/-- A fill inside its block leaves the buffer's length alone. -/
theorem length_fill_span (h1 : sp.start ≤ os) (h2 : oe ≤ sp.stop) (h3 : bi * bs ≤ os)
    (h4 : oe ≤ bi * bs + p.buf.length) :
    (p.fill (os - bi * bs) (sp.bytes os oe)).buf.length = p.buf.length := by
  have hlen := Span.length_bytes h1 h2
  by_cases ho : os ≤ oe
  · exact Partial.length_fill (by omega)
  · have hnil : sp.bytes os oe = [] := List.length_eq_zero_iff.mp (by omega)
    show (Partial.copyInto p.buf (os - bi * bs) (sp.bytes os oe)).length = _
    rw [hnil]
    simp [Partial.copyInto]

theorem length_fill_new {blen : Nat} (h1 : sp.start ≤ os) (h2 : oe ≤ sp.stop) (h3 : bi * bs ≤ os)
    (h4 : oe ≤ bi * bs + blen) :
    ((Partial.new blen).fill (os - bi * bs) (sp.bytes os oe)).buf.length = blen := by
  have hnew : (Partial.new blen).buf.length = blen := List.length_replicate
  rw [length_fill_span h1 h2 h3 (by omega), hnew]

theorem Till.On.blockLen_of_lookup (ht : t.On file bs)
    (hp : t.s.partials.lookup bi = some (.bytes p)) :
    p.buf.length = blockLen file.length bs bi := by
  obtain ⟨file', bs', hdesc, hlen⟩ := ht.settled.fits bi p hp
  rw [ht.desc] at hdesc
  cases hdesc
  exact hlen

/-- A buffer of the block's length may stand for it. -/
theorem Till.On.fits (ht : t.On file bs) {q : Partial} (hlen : q.buf.length = blockLen file.length bs bi) :
    ∀ p', PartialBuf.bytes q = .bytes p' →
      ∃ file bs, t.desc = some (file, bs) ∧ p'.buf.length = blockLen file.length bs bi := by
  intro p' hp'
  cases hp'
  exact ⟨file, bs, ht.desc, hlen⟩

theorem lawful_fillBytes (ht : t.On file bs) (hp : t.s.partials.lookup bi = some (.bytes p))
    (h1 : sp.start ≤ os) (h2 : oe ≤ sp.stop) (h3 : bi * bs ≤ os)
    (h4 : oe ≤ bi * bs + blockLen file.length bs bi)
    (hk : ∀ t' : Till, t'.On file bs → Lawful d cap i t' (k t')) :
    Lawful d cap i t (t.fillBytes bs sp bi os oe p k) := by
  have hplen := ht.blockLen_of_lookup hp
  have hlen : (p.fill (os - bi * bs) (sp.bytes os oe)).buf.length = p.buf.length :=
    length_fill_span h1 h2 h3 (by omega)
  have hat : t.heldAt bi = p.buf.length := Till.heldAt_eq hp
  unfold Till.fillBytes
  dsimp only
  split
  · -- complete: the partial and its charge go together
    obtain ⟨hs, hb⟩ := ht.settled.takeOut (hat.trans hlen.symm)
    refine lawful_refund (charge_takeOut hb).1 (charge_takeOut hb).2 hs.owed hs.wrapped ?_
    exact Lawful.shift (hk _ ⟨hs.withFeeds _ _, ht.desc⟩) ⟨rfl, rfl, rfl⟩
  · generalize p.fill (os - bi * bs) (sp.bytes os oe) = q at hlen
    have hs := ht.settled.insert (ht.fits (hlen.trans hplen))
      (show t.s.partialBytes + t.heldAt bi = t.s.partialBytes + (PartialBuf.bytes q).held by
        rw [hat, PartialBuf.held, hlen])
    exact (hk _ ⟨hs, ht.desc⟩).shift ⟨rfl, rfl, rfl⟩

theorem lawful_openBytes (ht : t.On file bs) (hp : t.s.partials.lookup bi = none)
    (h1 : sp.start ≤ os) (h2 : oe ≤ sp.stop) (h3 : bi * bs ≤ os)
    (h4 : oe ≤ bi * bs + blockLen file.length bs bi)
    (hk : ∀ t' : Till, t'.On file bs → Lawful d cap i t' (k t')) :
    Lawful d cap i t (t.openBytes cap file bs sp bi os oe k) := by
  have hlen := length_fill_new h1 h2 h3 h4
  have hat : t.heldAt bi = 0 := Till.heldAt_eq hp
  unfold Till.openBytes
  dsimp only
  generalize (Partial.new (blockLen file.length bs bi)).fill (os - bi * bs) (sp.bytes os oe) = q
    at hlen
  have hs := ht.settled.insert (ht.fits hlen)
    (show t.s.partialBytes + blockLen file.length bs bi + t.heldAt bi =
      t.s.partialBytes + (PartialBuf.bytes q).held by rw [hat, PartialBuf.held, hlen, add_zero])
  refine lawful_reserve ht.settled ?_ ?_ hs.wrapped (hk _ ht) (hk _ ⟨hs, ht.desc⟩)
  · unfold Till.share
    dsimp only
    omega
  · unfold Till.kept
    dsimp only
    omega

theorem lawful_boundary (ht : t.On file bs) (h1 : sp.start ≤ os) (h2 : oe ≤ sp.stop)
    (h3 : bi * bs ≤ os) (h4 : oe ≤ bi * bs + blockLen file.length bs bi)
    (hk : ∀ t' : Till, t'.On file bs → Lawful d cap i t' (k t')) :
    Lawful d cap i t (t.boundary cap file bs sp cc bi os oe k) := by
  unfold Till.boundary
  cases hp : t.s.partials.lookup bi with
  | none =>
    have hat : t.heldAt bi = 0 := Till.heldAt_eq hp
    dsimp only
    split
    · have hs := ht.settled.insert (fun p' (hp' : PartialBuf.crc {} = .bytes p') => nomatch hp')
        (show t.s.partialBytes + t.heldAt bi = t.s.partialBytes + (PartialBuf.crc {}).held by
          rw [hat]; rfl)
      exact Lawful.shift (hk _ ⟨hs.withFeeds _ _, ht.desc⟩) ⟨rfl, rfl, rfl⟩
    · exact lawful_openBytes ht hp h1 h2 h3 h4 hk
  | some pb =>
    cases pb with
    | bytes p => exact lawful_fillBytes ht hp h1 h2 h3 h4 hk
    | crc parts =>
      have hat : t.heldAt bi = 0 := Till.heldAt_eq hp
      dsimp only
      split
      · exact Lawful.shift (hk _ ⟨ht.settled.withFeeds _ _, ht.desc⟩) ⟨rfl, rfl, rfl⟩
      · have hs := ht.settled.erase (show t.s.partialBytes + t.heldAt bi = t.s.partialBytes by omega)
        exact (hk _ ⟨hs, ht.desc⟩).shift ⟨rfl, rfl, rfl⟩

theorem lawful_block (ht : t.On file bs)
    (hk : ∀ t' : Till, t'.On file bs → Lawful d cap i t' (k t')) :
    Lawful d cap i t (t.block cap file bs sp cc bi k) := by
  unfold Till.block
  split
  · exact hk t ht
  · dsimp only
    split
    · exact Lawful.shift (hk _ ⟨ht.settled.withFeeds _ _, ht.desc⟩) ⟨rfl, rfl, rfl⟩
    · exact lawful_boundary ht (le_max_left _ _) (min_le_left _ _) (le_max_right _ _)
        (min_le_right _ _) hk

theorem lawful_claimLoop (bis : List Nat) (ht : t.On file bs)
    (hk : ∀ t' : Till, t'.On file bs → Lawful d cap i t' (k t')) :
    Lawful d cap i t (Till.claimLoop cap file bs sp cc bis t k) := by
  induction bis generalizing t with
  | nil => exact hk t ht
  | cons bi bis ih => exact lawful_block ht fun t' ht' => ih ht'

end Claim

theorem lawful_claimSpan {slot : Nat} {cc : Bool} {f : Feed} (ht : t.Settled) :
    Lawful d cap i t (t.claimSpan cap slot cc f) := by
  unfold Till.claimSpan
  split
  · exact lawful_free ht
  · rename_i file bs hdesc
    dsimp only
    split
    · exact lawful_free ht
    · apply lawful_claimLoop _ ⟨ht, hdesc⟩
      intro t' ht'
      exact Lawful.shift (lawful_free (ht'.settled.withFeeds _ _)) ⟨rfl, rfl, rfl⟩

/-! ## Bindings -/

theorem Till.Settled.tryMatch (ht : t.Settled) (hf : t.s.file = none) {m : Option Answer}
    (hm : t.tryMatch m = some t') : t'.Settled ∧ t.SameCharge t' := by
  obtain ⟨x, -, rfl⟩ := Option.map_eq_some_iff.mp hm
  have hdesc : t.desc = none := ht.desc.mpr hf
  refine ⟨⟨ht.bytes, ?_, ?_, ht.reserved, ht.owed, ht.wrapped⟩, rfl, rfl, rfl⟩
  · intro bi p hp
    obtain ⟨file, bs, he, -⟩ := ht.fits bi p hp
    rw [hdesc] at he
    cases he
  · constructor
    · intro he
      cases he
    · intro he
      cases he

theorem lawful_forget (ht : t.Settled)
    (hk : ∀ t' : Till, t'.Settled → t'.s.file = none → Lawful d cap i t' (k t')) :
    Lawful d cap i t (t.forget k) := by
  have hs : ({ t with s := t.s.unbind, desc := none } : Till).Settled := by
    refine ⟨rfl, ?_, ⟨fun _ => rfl, fun _ => rfl⟩, ht.reserved, ht.owed, ht.wrapped⟩
    intro bi p hp
    cases hp
  refine lawful_refund ?_ ?_ ht.owed ht.wrapped (hk _ hs rfl)
  · show _ = 0 + t.reserved + t.owed + t.s.partialBytes
    unfold Till.share
    omega
  · show _ = 0 + t.owed + t.s.partialBytes
    unfold Till.kept
    omega

theorem lawful_rejudge {r : Option (Option Answer)} (ht : t.Settled)
    (hk : ∀ t' : Till, t'.Settled → Lawful d cap i t' (k t')) :
    Lawful d cap i t (t.rejudge r k) := by
  unfold Till.rejudge
  split
  · exact hk t ht
  · split
    · exact hk t ht
    · rename_i m
      apply lawful_forget ht
      intro t' ht' hf
      cases hm : t'.tryMatch m with
      | none => exact hk t' ht'
      | some t'' =>
        obtain ⟨hs, hch⟩ := ht'.tryMatch hf hm
        exact (hk t'' hs).shift hch

theorem lawful_feed {slot : Nat} {cc : Bool} {f : Feed} {r : Option (Option Answer)}
    {m : Option Answer} (ht : t.Settled) : Lawful d cap i t (t.feed cap slot cc f r m) := by
  refine lawful_rejudge ht fun t' ht' => ?_
  split
  · rename_i hf
    split
    · exact lawful_free ht'
    · rename_i t'' hm
      obtain ⟨hs, hch⟩ := ht'.tryMatch hf hm
      exact (lawful_claimSpan hs).shift hch
  · exact lawful_claimSpan ht'

theorem lawful_promote {won : Bool} (ht : t.Settled) : Lawful d cap i t (t.promote won) := by
  unfold Till.promote
  split
  · exact lawful_free ht
  · split
    · have hs : ({ t with s := { t.s with confirmed := true } } : Till).Settled :=
        ht.withSlot rfl rfl rfl
      exact (lawful_free hs).shift ⟨rfl, rfl, rfl⟩
    · exact lawful_forget ht fun t' ht' _ => lawful_free ht'

/-! ## The record phase -/

/-- A verdict touches neither the binding nor the partials. -/
theorem SlotState.record_keeps (s : SlotState) (bi : Nat) (ok : Bool) :
    (s.record bi ok).file = s.file ∧ (s.record bi ok).partials = s.partials ∧
      (s.record bi ok).partialBytes = s.partialBytes := by
  unfold SlotState.record
  split
  · split <;> exact ⟨rfl, rfl, rfl⟩
  · exact ⟨rfl, rfl, rfl⟩

theorem SlotState.recordResults_keeps (xs : List (Nat × BlockVerdict)) (s : SlotState) :
    (xs.foldl recordResult s).file = s.file ∧ (xs.foldl recordResult s).partials = s.partials ∧
      (xs.foldl recordResult s).partialBytes = s.partialBytes := by
  induction xs generalizing s with
  | nil => exact ⟨rfl, rfl, rfl⟩
  | cons x xs ih =>
    obtain ⟨h1, h2, h3⟩ := ih (s.recordResult x)
    obtain ⟨k1, k2, k3⟩ := SlotState.record_keeps
      { s with ifscSelfContradicted := s.ifscSelfContradicted || x.2 == .contradicted } x.1
      (x.2 == .ok)
    exact ⟨h1.trans k1, h2.trans k2, h3.trans k3⟩

/-- A slot state that holds the same partials and charge as a settled one. -/
theorem Lawful.withSlot {p : Till.Prog} {s : SlotState}
    (hp : Lawful d cap i { t with s := s } p) (hb : s.partialBytes = t.s.partialBytes) :
    Lawful d cap i t p := by
  refine hp.shift ⟨?_, ?_, rfl⟩
  · unfold Till.share
    rw [hb]
  · unfold Till.kept
    rw [hb]

theorem lawful_dropPartial (ht : t.Settled)
    (hk : ∀ t' : Till, t'.Settled → Lawful d cap i t' (k t')) :
    Lawful d cap i t (t.dropPartial bi k) := by
  unfold Till.dropPartial
  split
  · rename_i p hp
    have hat : t.heldAt bi = p.buf.length := Till.heldAt_eq hp
    obtain ⟨hs, hb⟩ := ht.takeOut hat
    exact lawful_refund (charge_takeOut hb).1 (charge_takeOut hb).2 hs.owed hs.wrapped (hk _ hs)
  · rename_i hp
    have hat : t.heldAt bi = 0 := by
      unfold Till.heldAt
      cases hl : t.s.partials.lookup bi with
      | none => rfl
      | some pb =>
        cases pb with
        | bytes p => exact absurd hl (hp p)
        | crc parts => rfl
    have hs := ht.erase (show t.s.partialBytes + t.heldAt bi = t.s.partialBytes by omega)
    exact (hk _ hs).shift ⟨rfl, rfl, rfl⟩

theorem Till.Settled.joinFrag (ht : t.Settled) {parts : CrcParts} {os oe crc : Nat}
    (hp : t.s.partials.lookup bi = some (.crc parts)) :
    Till.Settled { t with s := t.s.joinFrag d j parts bi os oe crc } ∧
      (t.s.joinFrag d j parts bi os oe crc).partialBytes = t.s.partialBytes := by
  have hat : t.heldAt bi = 0 := Till.heldAt_eq hp
  have hs := ht.erase (show t.s.partialBytes + t.heldAt bi = t.s.partialBytes by omega)
  unfold SlotState.joinFrag
  split
  · exact ⟨hs, rfl⟩
  · rename_i parts' _
    split
    · obtain ⟨h1, h2, h3⟩ := SlotState.record_keeps { t.s with partials := t.s.partials.erase bi } bi
        (crcMatches (j.check bi) (LiveVerifier.finalCrc d ‹_› (j.blen bi) j.bs))
      exact ⟨hs.withSlot h1 h2 h3, h3⟩
    · have hi := ht.insert (fun p' (hp' : PartialBuf.crc parts' = .bytes p') => nomatch hp')
        (show t.s.partialBytes + t.heldAt bi = t.s.partialBytes + (PartialBuf.crc parts').held by
          rw [hat]; rfl)
      exact ⟨hi, rfl⟩

theorem lawful_recordFrags (xs : List (Nat × Nat × Nat × Nat)) (ht : t.Settled)
    (hk : ∀ t' : Till, t'.Settled → Lawful d cap i t' (k t')) :
    Lawful d cap i t (Till.recordFrags d j xs t k) := by
  induction xs generalizing t with
  | nil => exact hk t ht
  | cons x xs ih =>
    unfold Till.recordFrags Till.recordFrag
    dsimp only
    split
    · exact lawful_dropPartial ht fun t' ht' => ih ht'
    · split
      · rename_i hp
        obtain ⟨hs, hb⟩ := ht.joinFrag (d := d) (j := j) hp
        exact (ih hs).withSlot hb
      · exact ih ht

theorem lawful_recordJob {noReuse : Bool} (ht : t.Settled) :
    Lawful d cap i t (t.recordJob d noReuse j) := by
  unfold Till.recordJob
  dsimp only
  split
  · exact lawful_free ht
  · split
    · exact lawful_free ht
    · obtain ⟨h1, h2, h3⟩ := SlotState.recordResults_keeps (j.results d noReuse) t.s
      exact (lawful_recordFrags _ (ht.withSlot h1 h2 h3) fun t' ht' => lawful_free ht').withSlot h3

/-! ## Settling a slot -/

theorem Till.Settled.settleBinding (ht : t.Settled) (holds : Bool) :
    (t.settleBinding holds).1.Settled ∧ t.SameCharge (t.settleBinding holds).1 := by
  unfold Till.settleBinding
  split
  · exact ⟨ht, rfl, rfl, rfl⟩
  · split
    · exact ⟨ht, rfl, rfl, rfl⟩
    · split
      · have hs : ({ t with s := { t.s with confirmed := true, headNominated := false } } :
            Till).Settled := ht.withSlot rfl rfl rfl
        exact ⟨hs, rfl, rfl, rfl⟩
      · exact ⟨ht, rfl, rfl, rfl⟩

theorem lawful_matchAtFinish {m : Option Answer} {holds : Bool} {k : Till → Bool → Till.Prog}
    (ht : t.Settled) (hf : t.s.file = none)
    (hk : ∀ (t' : Till) (b : Bool), t'.Settled → (b = false → t'.s.file = none) →
      Lawful d cap i t' (k t' b)) :
    Lawful d cap i t (t.matchAtFinish m holds k) := by
  unfold Till.matchAtFinish
  split
  · exact hk t false ht fun _ => hf
  · rename_i t' hm
    obtain ⟨hs, hch⟩ := ht.tryMatch hf hm
    refine Lawful.shift ?_ hch
    split
    · obtain ⟨hs', hch'⟩ := hs.settleBinding holds
      dsimp only
      refine Lawful.shift ?_ hch'
      split
      · exact hk _ true hs' fun h => nomatch h
      · exact lawful_forget hs' fun t'' ht'' hf'' => hk t'' false ht'' fun _ => hf''
    · exact hk t' true hs fun h => nomatch h

theorem lawful_lastChance {l : Rungs} {mayRematch : Bool} (ht : t.Settled) (hf : t.s.file = none)
    (hk : ∀ t' : Till, t'.Settled → Lawful d cap i t' (k t')) :
    Lawful d cap i t (t.lastChance l mayRematch k) := by
  -- the whole-file and named tiers, and the retry
  have hagain : ∀ (t' : Till) (b : Bool), t'.Settled → (b = false → t'.s.file = none) →
      Lawful d cap i t' (if !b && mayRematch && l.shrank then
        t'.matchAtFinish l.again l.againHolds fun t _ => k t else k t') := by
    intro t' b ht' hb
    split
    · rename_i hc
      have hb' : b = false := by
        cases b with
        | false => rfl
        | true => simp at hc
      exact lawful_matchAtFinish ht' (hb hb') fun t'' _ ht'' _ => hk t'' ht''
    · exact hk t' ht'
  have hlate : ∀ (t' : Till) (b : Bool) (late : Till × Bool), t'.Settled →
      (b = false → t'.s.file = none) → (b = true → late = (t', true)) →
      (b = false → t'.tryMatch l.late = none → late = (t', false)) →
      (∀ t'', b = false → t'.tryMatch l.late = some t'' → late = (t'', true)) →
      Lawful d cap i t' (if !late.2 && mayRematch && l.shrank then
        late.1.matchAtFinish l.again l.againHolds fun t _ => k t else k late.1) := by
    intro t' b late ht' hb htrue hnone hsome
    cases b with
    | true =>
      rw [htrue rfl]
      exact hagain t' true ht' hb
    | false =>
      cases hm : t'.tryMatch l.late with
      | none =>
        rw [hnone rfl hm]
        exact hagain t' false ht' hb
      | some t'' =>
        rw [hsome t'' rfl hm]
        obtain ⟨hs, hch⟩ := ht'.tryMatch (hb rfl) hm
        exact (hagain t'' true hs fun h => absurd h.symm Bool.false_ne_true).shift hch
  unfold Till.lastChance
  dsimp only
  split
  · refine lawful_matchAtFinish ht hf fun t' b ht' hb => hlate t' b _ ht' hb ?_ ?_ ?_
    · rintro rfl
      exact if_pos rfl
    · rintro rfl hm
      rw [if_neg Bool.false_ne_true, hm]
    · rintro t'' rfl hm
      rw [if_neg Bool.false_ne_true, hm]
  · refine hlate t false _ ht (fun _ => hf) nofun ?_ ?_
    · intro _ hm
      rw [if_neg Bool.false_ne_true, hm]
    · intro t'' _ hm
      rw [if_neg Bool.false_ne_true, hm]

theorem lawful_dropPartials (ht : t.Settled) : Lawful d cap i t t.dropPartials := by
  have hs : ({ t with s := { t.s with partials := ∅, partialBytes := 0 } } : Till).Settled := by
    refine ⟨rfl, ?_, ht.desc, ht.reserved, ht.owed, ht.wrapped⟩
    intro bi p hp
    cases hp
  apply Sound.act
  · intro w cells h
    refine inv_shift ?_ h
    exact ⟨rfl, rfl, rfl⟩
  · rintro w cells ⟨hw, hc, hu⟩
    have h1 := sum_update cells i Till.share { t with s := { t.s with partials := ∅ } }
      { t with s := { t.s with partials := ∅, partialBytes := 0 } }
    have h2 := sum_update cells i Till.kept { t with s := { t.s with partials := ∅ } }
      { t with s := { t.s with partials := ∅, partialBytes := 0 } }
    have hle := le_sum_update cells i Till.share { t with s := { t.s with partials := ∅ } }
    simp only [Till.share, Till.kept] at h1 h2 hle hw hc
    refine ⟨?_, _, ⟨?_, ?_, wrapped_update hu hs.wrapped⟩, lawful_free hs⟩
    · intro m hm
      cases hm
      omega
    · show w - t.s.partialBytes = _
      simp only [Till.share]
      omega
    · simp only [Till.kept]
      omega

theorem lawful_finishSlot {l : Rungs} (ht : t.Settled) : Lawful d cap i t (t.finishSlot l) := by
  have hend : ∀ t' : Till, t'.Settled →
      Lawful d cap i t' (if t'.s.file = none then .free t' else t'.dropPartials) := by
    intro t' ht'
    split
    · exact lawful_free ht'
    · exact lawful_dropPartials ht'
  have h0 : ({ t with s := { t.s with readbackForced := [] } } : Till).Settled :=
    ht.withSlot rfl rfl rfl
  obtain ⟨hs, hch⟩ := h0.settleBinding l.settled
  unfold Till.finishSlot
  dsimp only
  refine Lawful.shift ?_ ⟨hch.share.trans rfl, hch.kept.trans rfl, hch.wrapped.trans rfl⟩
  split
  · apply lawful_forget hs
    intro t' ht' hf
    by_cases hc : t'.s.file = none ∧ ¬ l.refused = true
    · rw [if_pos hc]
      exact lawful_lastChance ht' hf hend
    · rw [if_neg hc]
      exact hend t' ht'
  · split
    · rename_i hc
      exact lawful_lastChance hs hc.1 hend
    · exact hend _ hs

end Lawful

end NzbFast.Live
