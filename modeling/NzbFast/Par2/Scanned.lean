import NzbFast.Par2.Deferred

/-!
# What the serial scan finds

`scan_packets_serial` (`crates/nzbkit-base/src/par2/packet.rs`) resumes one byte past a bad
length or a bad digest and hops a good packet, under a budget of hashed bytes. Within the
budget that is the greedy reading of the bytes (`Greedy`): the leftmost packet at or behind
the end of the last. So packets with bytes between them in which no magic stands are read
back as written, whatever stands inside their bodies.
-/

namespace NzbFast.Par2

variable {md5 : List UInt8 → List UInt8} {input : List UInt8}

/-! ## The next magic -/

theorem findMagic_least {bs : List UInt8} {i : Nat}
    (h : ∀ rel, findMagic bs = some rel → i < rel) (hi : i < bs.length) :
    (bs.drop i).take 8 ≠ MAGIC := by
  induction bs generalizing i with
  | nil => simp at hi
  | cons b bs ih =>
    intro hm
    cases i with
    | zero =>
      rw [List.drop_zero] at hm
      exact absurd (h 0 (by rw [findMagic, if_pos hm])) (lt_irrefl 0)
    | succ i =>
      by_cases hb : (b :: bs).take 8 = MAGIC
      · exact absurd (h 0 (by rw [findMagic, if_pos hb])) (Nat.not_lt_zero _)
      · refine ih (fun rel hrel => ?_) (by simpa using hi) hm
        have := h (rel + 1) (by rw [findMagic, if_neg hb, hrel, Option.map_some])
        omega

/-- No magic with room for a header stands before the next one. -/
theorem nextMagic_least {off q : Nat} (h : ∀ start, nextMagic input off = some start → q < start)
    (hle : off ≤ q) (hroom : q + HEADER_LEN ≤ input.length) : slice input q (q + 8) ≠ MAGIC := by
  have hlen : HEADER_LEN = 64 := rfl
  have hdrop : slice input q (q + 8) = ((input.drop off).drop (q - off)).take 8 := by
    rw [slice, List.drop_take, List.drop_drop, show off + (q - off) = q by omega,
      show q + 8 - q = 8 by omega]
  rw [hdrop]
  refine findMagic_least (fun rel hrel => ?_) (by simp; omega)
  by_cases hlate : input.length < off + rel + HEADER_LEN
  · omega
  · have := h (off + rel) (by
      rw [nextMagic, if_pos (by omega), hrel]
      exact if_neg hlate)
    omega

/-! ## The greedy reading -/

section

variable (md5) (input)

/-- A structurally valid packet that carries its own MD5 stands at `p`. -/
def PacketAt (p len : Nat) : Prop :=
  slice input p (p + 8) = MAGIC ∧ validLen input p = some len ∧ verified md5 input p (p + len) = true

/-- From `off` on, the leftmost packet each time, behind the end of the last. -/
inductive Greedy : Nat → List (Nat × Nat) → Prop
  | stop {off : Nat} (hnone : ∀ p len, off ≤ p → ¬ PacketAt md5 input p len) : Greedy off []
  | take {off p len : Nat} {spans : List (Nat × Nat)} (hle : off ≤ p)
      (hfirst : ∀ q l, off ≤ q → q < p → ¬ PacketAt md5 input q l)
      (hat : PacketAt md5 input p len) (rest : Greedy (p + len) spans) :
      Greedy off ((p, p + len) :: spans)

/-- The bytes the walk would hash from `off` on, were there no budget. -/
def hashDemand : Nat → Nat → Nat
  | 0, _ => 0
  | fuel + 1, off =>
    match nextMagic input off with
    | none => 0
    | some start =>
      match validLen input start with
      | none => hashDemand fuel (start + 1)
      | some len =>
        start + len - (start + 32) +
          if verified md5 input start (start + len) then hashDemand fuel (start + len)
          else hashDemand fuel (start + 1)

end

theorem PacketAt.room {p len : Nat} (h : PacketAt md5 input p len) :
    p + HEADER_LEN ≤ input.length := by
  obtain ⟨h64, -, hfit⟩ := validLen_spec h.2.1
  omega

/-- Bytes at which no packet stands do not change the reading. -/
theorem Greedy.skip {off stop : Nat} {spans : List (Nat × Nat)} (hle : off ≤ stop)
    (hno : ∀ q l, off ≤ q → q < stop → ¬ PacketAt md5 input q l)
    (h : Greedy md5 input stop spans) : Greedy md5 input off spans := by
  cases h with
  | stop hnone =>
    refine .stop fun p len hp => ?_
    rcases lt_or_ge p stop with hlt | hge
    · exact hno p len hp hlt
    · exact hnone p len hge
  | take hstop hfirst hat rest =>
    refine .take (hle.trans hstop) (fun q l hq hlt => ?_) hat rest
    rcases lt_or_ge q stop with hs | hs
    · exact hno q l hq hs
    · exact hfirst q l hs hlt

theorem not_packetAt_before {off start : Nat} (h : nextMagic input off = some start) :
    ∀ q l, off ≤ q → q < start → ¬ PacketAt md5 input q l := by
  intro q l hq hlt hat
  refine nextMagic_least (fun s hs => ?_) hq hat.room hat.1
  rw [h] at hs
  cases hs
  exact hlt

theorem not_packetAt_through {off start : Nat} (h : nextMagic input off = some start)
    (hbad : ∀ l, ¬ PacketAt md5 input start l) :
    ∀ q l, off ≤ q → q < start + 1 → ¬ PacketAt md5 input q l := by
  intro q l hq hlt
  rcases Nat.lt_succ_iff_lt_or_eq.mp hlt with hlt | rfl
  · exact not_packetAt_before h q l hq hlt
  · exact hbad l

/-- Within its budget the scan is the greedy reading, and hashes what that takes. -/
theorem scanSerialFrom_greedy {budget : Nat} (fuel : Nat) : ∀ {off hashed : Nat},
    input.length < fuel + off → hashed + hashDemand md5 input fuel off ≤ budget →
    ∃ spans, Greedy md5 input off spans ∧
      (scanSerialFrom md5 input budget fuel off hashed).1 =
        spans.map fun s => rawPacket input s.1 s.2 := by
  induction fuel with
  | zero =>
    intro off hashed hfuel _
    exact ⟨[], .stop fun p len hp hat => by have := hat.room; omega, rfl⟩
  | succ fuel ih =>
    intro off hashed hfuel hdemand
    unfold hashDemand at hdemand
    unfold scanSerialFrom
    cases hm : nextMagic input off with
    | none =>
      refine ⟨[], .stop fun p len hp hat => ?_, rfl⟩
      exact nextMagic_least (fun s hs => by rw [hm] at hs; cases hs) hp hat.room hat.1
    | some start =>
      have hoff := (nextMagic_spec hm).1
      rw [hm] at hdemand
      dsimp only at hdemand ⊢
      cases hl : validLen input start with
      | none =>
        rw [hl] at hdemand
        obtain ⟨spans, hgreedy, heq⟩ := ih (by omega) hdemand
        have hbad : ∀ l, ¬ PacketAt md5 input start l := fun l hat => by
          have := hl.symm.trans hat.2.1
          cases this
        exact ⟨spans, hgreedy.skip (by omega) (not_packetAt_through hm hbad), heq⟩
      | some len =>
        obtain ⟨h64, -, -⟩ := validLen_spec hl
        have h64 : 64 ≤ len := h64
        rw [hl] at hdemand
        dsimp only at hdemand ⊢
        rw [if_neg (by omega)]
        cases hv : verified md5 input start (start + len) with
        | true =>
          rw [hv, if_pos rfl] at hdemand
          have hleft : hashed + (start + len - (start + 32)) +
              hashDemand md5 input fuel (start + len) ≤ budget := by omega
          obtain ⟨spans, hgreedy, heq⟩ := ih (by omega) hleft
          refine ⟨_, .take hoff (not_packetAt_before hm) ⟨nextMagic_magic hm, hl, hv⟩ hgreedy, ?_⟩
          rw [if_pos rfl, List.map_cons, ← heq]
        | false =>
          rw [hv, if_neg (by simp)] at hdemand
          have hleft : hashed + (start + len - (start + 32)) +
              hashDemand md5 input fuel (start + 1) ≤ budget := by omega
          obtain ⟨spans, hgreedy, heq⟩ := ih (by omega) hleft
          have hbad : ∀ l, ¬ PacketAt md5 input start l := fun l hat => by
            have hlen := hl.symm.trans hat.2.1
            cases hlen
            exact absurd (hv.symm.trans hat.2.2) (by simp)
          exact ⟨spans, hgreedy.skip (by omega) (not_packetAt_through hm hbad), heq⟩

/-- The bytes hashed never pass the budget. -/
theorem scanSerialFrom_hashed {budget : Nat} (fuel : Nat) : ∀ {off hashed : Nat},
    hashed ≤ budget → (scanSerialFrom md5 input budget fuel off hashed).2 ≤ budget := by
  induction fuel with
  | zero => exact fun h => h
  | succ fuel ih =>
    intro off hashed h
    unfold scanSerialFrom
    cases nextMagic input off with
    | none => exact h
    | some start =>
      dsimp only
      cases validLen input start with
      | none => exact ih h
      | some len =>
        dsimp only
        split
        · exact h
        split
        · exact ih (by omega)
        · exact ih (by omega)

theorem scanSerialFrom_ends {budget : Nat} (fuel : Nat) : ∀ {off hashed more : Nat},
    input.length < fuel + off →
    scanSerialFrom md5 input budget (fuel + more) off hashed =
      scanSerialFrom md5 input budget fuel off hashed := by
  induction fuel with
  | zero =>
    intro off hashed more hfuel
    cases more with
    | zero => rfl
    | succ more =>
      have hnone : nextMagic input off = none := if_neg (by omega)
      simp only [scanSerialFrom, hnone]
  | succ fuel ih =>
    intro off hashed more hfuel
    rw [add_right_comm]
    unfold scanSerialFrom
    cases hm : nextMagic input off with
    | none => rfl
    | some start =>
      have hoff := (nextMagic_spec hm).1
      dsimp only
      cases hl : validLen input start with
      | none => exact ih (by omega)
      | some len =>
        obtain ⟨h64, -, -⟩ := validLen_spec hl
        have h64 : 64 ≤ len := h64
        simp only [ih (show input.length < fuel + (start + len) by omega),
          ih (show input.length < fuel + (start + 1) by omega)]

end NzbFast.Par2
