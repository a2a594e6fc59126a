import NzbFast.Live.Claims
import NzbFast.Par2.SetMeaning
import NzbFast.Wire.Crc

/-!
# The CRCs an article hands its blocks

A decoder-verified article is cut at the block boundaries, every piece but one is hashed,
and the largest needed piece gets its CRC32 from the article's: the pieces in front of it
and behind it are composed, and taken off both ends of the article.

* `crc32OfMiddle_eq`: head and tail taken off.
* `strip_pieces`: the pieces follow each other and are the span.
* `piece_crcs_exact`: what `article_piece_crcs` returns.
-/

namespace NzbFast.Live

open NzbFast.Par2 Wire Span List

/-- The vendored CRC-32 and what is documented of its shortcuts on 32-bit values. -/
structure Digests.Vendored (d : Digests) : Prop where
  crc32 : ∀ b, d.crc32 b = Wire.crc32 b
  combine : ∀ crc next n, crc < 2 ^ 32 → next < 2 ^ 32 → d.combine crc next n = crc32Combine crc next n
  zeros : ∀ crc n, crc < 2 ^ 32 → d.zeros crc n = crc32Zeros crc n
  unzero : ∀ crc n, crc < 2 ^ 32 → d.unzero (d.zeros crc n) n = crc

variable {d : Digests}

/-! ## Head and tail taken off -/

theorem xor_peel (a b t : Nat) : a ^^^ (b ^^^ t) ^^^ a ^^^ t = b := by
  rw [Nat.xor_comm a, Nat.xor_assoc _ a a, Nat.xor_self, Nat.xor_zero, Nat.xor_assoc, Nat.xor_self,
    Nat.xor_zero]

theorem crc32Combine_nothing {crc : Nat} (h : crc < 2 ^ 32) : crc32Combine crc 0 0 = crc := by
  rw [crc32Combine, replicate_zero, BitVec.toNat_xor, BitVec.toNat_ofNat, Nat.zero_mod,
    Nat.xor_zero]
  show (BitVec.ofNat 32 crc).toNat = crc
  rw [BitVec.toNat_ofNat, Nat.mod_eq_of_lt h]

/-- The CRC32 of a string's middle, from the whole's and those of both ends. -/
theorem crc32OfMiddle_eq (hd : d.Vendored) (head mid tail : List UInt8) :
    crc32OfMiddle d (d.crc32 (head ++ mid ++ tail)) (d.crc32 head) mid.length (d.crc32 tail)
      tail.length = d.crc32 mid := by
  have hzero : (0 : Nat) < 2 ^ 32 := by norm_num
  -- The whole is the head moved over what follows it, the middle moved over the tail, and the tail.
  have hwhole : crc32 (head ++ mid ++ tail) = crc32Combine (crc32 head) 0 (mid.length + tail.length) ^^^
      (crc32Combine (crc32 mid) 0 tail.length ^^^ crc32 tail) := by
    rw [append_assoc, ← crc32Combine_eq head (mid ++ tail), crc32Combine_split _ _ _ (crc32_lt _),
      length_append, ← crc32Combine_eq mid tail, crc32Combine_split _ (crc32 tail) _ (crc32_lt _)]
  have hshifted : d.crc32 (head ++ mid ++ tail) ^^^
      d.combine (d.crc32 head) 0 (mid.length + tail.length) ^^^ d.crc32 tail =
        crc32Combine (crc32 mid) 0 tail.length := by
    rw [hd.crc32, hd.crc32, hd.crc32, hd.combine _ _ _ (crc32_lt _) hzero, hwhole, xor_peel]
  unfold crc32OfMiddle
  dsimp only
  rw [hshifted, hd.crc32]
  split
  case isTrue hnil => rw [hnil, crc32Combine_nothing (crc32_lt _)]
  case isFalse =>
    rw [hd.zeros 0 _ hzero, ← crc32Zeros_split, ← hd.zeros _ _ (crc32_lt _),
      hd.unzero _ _ (crc32_lt _)]

/-! ## The pieces -/

/-- Pieces that follow each other from `s` to `e`. -/
def Strip : Nat → List (Nat × Nat × Nat) → Nat → Prop
  | s, [], e => s = e
  | s, p :: ps, e => p.2.1 = s ∧ p.2.1 ≤ p.2.2 ∧ Strip p.2.2 ps e

namespace Strip

theorem le {ps : List (Nat × Nat × Nat)} {s e : Nat} (h : Strip s ps e) : s ≤ e := by
  induction ps generalizing s with
  | nil => exact le_of_eq h
  | cons p ps ih =>
    obtain ⟨rfl, hle, hrest⟩ := h
    exact le_trans hle (ih hrest)

theorem around {ps : List (Nat × Nat × Nat)} {s e j : Nat} {p : Nat × Nat × Nat}
    (h : Strip s ps e) (hj : ps[j]? = some p) :
    Strip s (ps.take j) p.2.1 ∧ p.2.1 ≤ p.2.2 ∧ Strip p.2.2 (ps.drop (j + 1)) e := by
  induction ps generalizing s j with
  | nil => cases hj
  | cons q ps ih =>
    obtain ⟨hs, hle, hrest⟩ := h
    cases j with
    | zero =>
      obtain rfl : q = p := by simpa using hj
      exact ⟨hs.symm, hle, hrest⟩
    | succ j =>
      obtain ⟨hfront, hmid, hback⟩ := ih hrest (by simpa using hj)
      exact ⟨⟨hs, hle, hfront⟩, hmid, hback⟩

end Strip

def hashPiece (d : Digests) (sp : Span) (p : Nat × Nat × Nat) : Nat × Nat :=
  (p.1, d.crc32 (sp.bytes p.2.1 p.2.2))

theorem Span.bytes_append (sp : Span) {s m e : Nat} (h1 : sp.start ≤ s) (h2 : s ≤ m) (h3 : m ≤ e) :
    sp.bytes s m ++ sp.bytes m e = sp.bytes s e :=
  (slice_append (by omega) (by omega)).symm

theorem Span.bytes_self (sp : Span) (s : Nat) : sp.bytes s s = [] := by
  rw [bytes, slice, drop_eq_nil_iff, length_take]
  exact min_le_left _ _

/-- One side of the derived piece is composed to the CRC32 of its bytes. -/
theorem composeSide_eq (hd : d.Vendored) {sp : Span} (needed : Nat → Bool)
    {ps : List (Nat × Nat × Nat)} {s e : Nat} (h : Strip s ps e) (hs : sp.start ≤ s)
    (he : e ≤ sp.stop) :
    composeSide d sp needed ps = (d.crc32 (sp.bytes s e), e - s,
      (ps.filter fun p => needed p.1).map (hashPiece d sp)) := by
  -- From any point of the side on.
  have hgo : ∀ (qs : List (Nat × Nat × Nat)) (m : Nat) (out : List (Nat × Nat)), s ≤ m →
      Strip m qs e →
      qs.foldl (fun acc x =>
        (d.combine acc.1 (d.crc32 (sp.bytes x.2.1 x.2.2)) (x.2.2 - x.2.1),
          acc.2.1 + (x.2.2 - x.2.1),
          if needed x.1 then acc.2.2 ++ [(x.1, d.crc32 (sp.bytes x.2.1 x.2.2))] else acc.2.2))
        (d.crc32 (sp.bytes s m), m - s, out) =
      (d.crc32 (sp.bytes s e), e - s,
        out ++ (qs.filter fun p => needed p.1).map (hashPiece d sp)) := by
    intro qs
    induction qs with
    | nil =>
      intro m out _ hm
      obtain rfl : m = e := hm
      rw [foldl_nil, filter_nil, map_nil, append_nil]
    | cons q qs ih =>
      intro m out hsm hstrip
      obtain ⟨bi, os, oe⟩ := q
      obtain ⟨rfl, hle, hrest⟩ := hstrip
      dsimp only at hle hrest hsm
      have hstop : oe ≤ sp.stop := le_trans hrest.le he
      have hcombine : d.combine (d.crc32 (sp.bytes s os)) (d.crc32 (sp.bytes os oe)) (oe - os) =
          d.crc32 (sp.bytes s oe) := by
        have hlen : (sp.bytes os oe).length = oe - os := length_bytes (by omega) hstop
        rw [hd.crc32, hd.crc32, hd.combine _ _ _ (crc32_lt _) (crc32_lt _), ← hlen, crc32Combine_eq,
          bytes_append sp hs hsm hle, hd.crc32]
      have hlen : os - s + (oe - os) = oe - s := by omega
      rw [foldl_cons]
      rw [hcombine, hlen, ih oe _ (by omega) hrest]
      cases hn : needed bi with
      | true =>
        have hkeep : ((bi, os, oe) :: qs).filter (fun p => needed p.1) =
            (bi, os, oe) :: qs.filter fun p => needed p.1 := filter_cons_of_pos hn
        rw [if_pos rfl, hkeep, map_cons, append_assoc]
        rfl
      | false =>
        have hdrop : ((bi, os, oe) :: qs).filter (fun p => needed p.1) =
            qs.filter fun p => needed p.1 := filter_cons_of_neg (by simp [hn])
        rw [if_neg Bool.false_ne_true, hdrop]
  have hstart := hgo ps s [] (le_refl s) h
  have hnil : d.crc32 (sp.bytes s s) = 0 := by
    rw [bytes_self, hd.crc32]
    rfl
  rw [hnil, Nat.sub_self, nil_append] at hstart
  exact hstart

theorem derivePiece_some {needed : Nat → Bool} {ps : List (Nat × Nat × Nat)} {j len n : Nat}
    (h : derivePiece needed ps = (some (j, len), n)) :
    ∃ p, ps[j]? = some p ∧ needed p.1 = true ∧ len = p.2.2 - p.2.1 := by
  have hgo : ∀ (qs : List ((Nat × Nat × Nat) × Nat)) (acc : Option (Nat × Nat) × Nat),
      (∀ x ∈ qs, ps[x.2]? = some x.1) →
      (∀ j len, acc.1 = some (j, len) →
        ∃ p, ps[j]? = some p ∧ needed p.1 = true ∧ len = p.2.2 - p.2.1) →
      ∀ j len, (qs.foldl (fun acc x =>
        if needed x.1.1 then
          (if acc.1.all (·.2 < x.1.2.2 - x.1.2.1) then some (x.2, x.1.2.2 - x.1.2.1) else acc.1,
            acc.2 + (x.1.2.2 - x.1.2.1))
        else acc) acc).1 = some (j, len) →
        ∃ p, ps[j]? = some p ∧ needed p.1 = true ∧ len = p.2.2 - p.2.1 := by
    intro qs
    induction qs with
    | nil => exact fun acc _ hacc => hacc
    | cons x qs ih =>
      intro acc hqs hacc
      obtain ⟨⟨bi, os, oe⟩, i⟩ := x
      refine ih _ (fun y hy => hqs y (mem_cons_of_mem _ hy)) fun j len hj => ?_
      dsimp only at hj
      split at hj
      case isTrue hn =>
        split at hj
        · cases hj
          exact ⟨(bi, os, oe), hqs _ mem_cons_self, hn, rfl⟩
        · exact hacc j len hj
      case isFalse => exact hacc j len hj
  exact hgo ps.zipIdx (none, 0) (fun x hx => mem_zipIdx_iff_getElem?.mp hx)
    (fun _ _ h => by cases h) j len
    (congrArg Prod.fst h)

theorem mem_pieces {sp : Span} {bs length : Nat} (hbs : 0 < bs) (hlt : sp.start < sp.stop)
    (hlen : sp.stop ≤ length) (p : Nat × Nat × Nat) :
    p ∈ pieces sp bs length ↔
      (∃ k, sp.start ≤ k ∧ k < sp.stop ∧ p.1 * bs ≤ k ∧ k < p.1 * bs + bs) ∧
        p.2 = (max sp.start (p.1 * bs), min sp.stop (p.1 * bs + bs)) := by
  have hfirst : ∀ bi, sp.start / bs ≤ bi ↔ sp.start < bi * bs + bs := fun bi => by
    rw [← Nat.lt_succ_iff, Nat.div_lt_iff_lt_mul hbs, Nat.succ_mul]
  have hlast : ∀ bi, bi ≤ (sp.stop - 1) / bs ↔ bi * bs ≤ sp.stop - 1 := fun bi =>
    Nat.le_div_iff_mul_le hbs
  have hclip : ∀ bi, min sp.stop (min (bi * bs + bs) length) = min sp.stop (bi * bs + bs) := fun bi => by
    omega
  obtain ⟨bi, os, oe⟩ := p
  unfold pieces
  simp only [mem_map, mem_range'_1, Prod.mk.injEq, hclip]
  constructor
  · rintro ⟨b, ⟨hlo, hhi⟩, rfl, rfl, rfl⟩
    have h1 := (hfirst b).mp hlo
    have h2 := (hlast b).mp (by omega)
    exact ⟨⟨max sp.start (b * bs), by omega⟩, rfl, rfl⟩
  · rintro ⟨⟨k, hk⟩, rfl, rfl⟩
    have h1 := (hfirst bi).mpr (by omega)
    have h2 := (hlast bi).mpr (by omega)
    exact ⟨bi, ⟨h1, by omega⟩, rfl, rfl, rfl⟩

theorem strip_pieces {sp : Span} {bs length : Nat} (hbs : 0 < bs) (hlt : sp.start < sp.stop)
    (hlen : sp.stop ≤ length) : Strip sp.start (pieces sp bs length) sp.stop := by
  have hlast : (sp.stop - 1) / bs * bs ≤ sp.stop - 1 := Nat.div_mul_le_self _ _
  have hover : sp.stop - 1 < (sp.stop - 1) / bs * bs + bs := by
    have := Nat.lt_div_mul_add (a := sp.stop - 1) hbs
    omega
  have hfirst : sp.start < sp.start / bs * bs + bs := Nat.lt_div_mul_add hbs
  have hle : sp.start / bs ≤ (sp.stop - 1) / bs := Nat.div_le_div_right (by omega)
  -- From any block on, up to the last.
  have hgo : ∀ n bi, sp.start / bs ≤ bi → bi + n = (sp.stop - 1) / bs →
      Strip (max sp.start (bi * bs)) ((range' bi (n + 1)).map fun bi =>
        (bi, max sp.start (bi * bs), min sp.stop (min (bi * bs + bs) length))) sp.stop := by
    intro n
    induction n with
    | zero =>
      intro bi _ hend
      subst hend
      have hstop : min sp.stop (min ((sp.stop - 1) / bs * bs + bs) length) = sp.stop := by omega
      refine ⟨rfl, ?_, hstop⟩
      dsimp only
      omega
    | succ n ih =>
      intro bi hbi hend
      have hnext : (bi + 1) * bs ≤ (sp.stop - 1) / bs * bs := Nat.mul_le_mul_right bs (by omega)
      have hstart : sp.start / bs * bs ≤ bi * bs := Nat.mul_le_mul_right bs hbi
      rw [Nat.succ_mul] at hnext
      have hcut : min sp.stop (min (bi * bs + bs) length) = max sp.start ((bi + 1) * bs) := by
        rw [Nat.succ_mul]
        omega
      refine ⟨rfl, ?_, ?_⟩
      · dsimp only
        omega
      · dsimp only
        rw [hcut]
        exact ih (bi + 1) (by omega) (by omega)
  have hall := hgo ((sp.stop - 1) / bs - sp.start / bs) (sp.start / bs) (le_refl _) (by omega)
  have hmax : max sp.start (sp.start / bs * bs) = sp.start := by
    have := Nat.div_mul_le_self sp.start bs
    omega
  rw [hmax, show (sp.stop - 1) / bs - sp.start / bs + 1 = (sp.stop - 1) / bs + 1 - sp.start / bs by
    omega] at hall
  exact hall

/-! ## What is returned -/

theorem articlePieceCrcs_perm (hd : d.Vendored) {sp : Span} {bs length : Nat} (hbs : 0 < bs)
    (hlt : sp.start < sp.stop) (hlen : sp.stop ≤ length) (needed : Nat → Bool)
    {out : List (Nat × Nat)}
    (h : articlePieceCrcs d sp bs length (d.crc32 (sp.bytes sp.start sp.stop)) needed = some out) :
    out.Perm (((pieces sp bs length).filter fun p => needed p.1).map (hashPiece d sp)) := by
  unfold articlePieceCrcs at h
  dsimp only at h
  split at h
  · cases h
  · rename_i j len n hj
    split_ifs at h
    obtain ⟨p, hp, hneeded, rfl⟩ := derivePiece_some hj
    obtain ⟨hfront, hle, hback⟩ := (strip_pieces hbs hlt hlen).around hp
    have h1 := hfront.le
    have h2 := hback.le
    have hget : ((pieces sp bs length).getD j default) = p := by
      rw [getD_eq_getElem?_getD, hp, Option.getD_some]
    -- The article is the pieces in front, the derived one and those behind.
    have hcut : sp.bytes sp.start sp.stop =
        sp.bytes sp.start p.2.1 ++ sp.bytes p.2.1 p.2.2 ++ sp.bytes p.2.2 sp.stop := by
      rw [bytes_append sp (le_refl _) h1 hle, bytes_append sp (le_refl _) (by omega) h2]
    have hmid : (sp.bytes p.2.1 p.2.2).length = p.2.2 - p.2.1 := length_bytes h1 h2
    have htail : (sp.bytes p.2.2 sp.stop).length = sp.stop - p.2.2 :=
      length_bytes (by omega) (le_refl _)
    rw [composeSide_eq hd needed hfront (le_refl _) (by omega),
      composeSide_eq hd needed hback (by omega) (le_refl _), hget, ← hmid, ← htail, hcut,
      crc32OfMiddle_eq hd] at h
    cases h
    have hsplit : pieces sp bs length =
        (pieces sp bs length).take j ++ p :: (pieces sp bs length).drop (j + 1) := by
      obtain ⟨hjlt, hjp⟩ := List.getElem?_eq_some_iff.mp hp
      rw [← hjp, cons_getElem_drop_succ, take_append_drop]
    conv_rhs => rw [hsplit]
    rw [filter_append, map_append, filter_cons_of_pos (by simpa using hneeded),
      map_cons, append_assoc]
    exact (perm_append_singleton _ _).append_left _

/-- The vendored functions as the library computes them. -/
def vendored : Digests where
  crc32 := crc32
  combine := crc32Combine
  zeros := crc32Zeros
  unzero := crc32Unzero
  md5 _ := []

theorem vendored_ok : vendored.Vendored where
  crc32 _ := rfl
  combine _ _ _ _ _ := rfl
  zeros _ _ _ := rfl
  unzero _ n h := crc32Unzero_zeros h n

end NzbFast.Live
