import NzbFast.Par2.Packet
import NzbFast.Rust.Text
import Mathlib.Data.List.TakeWhile

/-!
# Comments and their packets

`check_comment` and `comment_packet` (`crates/nzbkit-base/src/par2gen.rs`) against the readers
of `par2/packet.rs`. The writer puts no byte-order mark before the UTF-16 of a comment and the
reader takes one off, so a comment reads back unless its own first character is one, either
way round.
-/

namespace NzbFast.Par2

open NzbFast.Rust List

/-! ## Writing -/

def MAX_COMMENT_BYTES : Nat := 16 * 1024

def refused (c : Char) : Bool := isControl c && !(c == '\n' || c == '\r' || c == '\t')

/-- `{:?}` of a control character other than newline, carriage return and tab. -/
def debugControl (c : Char) : String :=
  if c = '\x00' then "'\\0'"
  else "'\\u\x7b" ++ String.ofList (Nat.toDigits 16 c.toNat) ++ "\x7d'"

def checkComment (comment : String) : Except String Unit :=
  if MAX_COMMENT_BYTES < comment.utf8ByteSize then
    .error ("comment is " ++ toString comment.utf8ByteSize ++ " bytes, over the " ++
      toString MAX_COMMENT_BYTES ++ "-byte limit for a PAR2 text packet")
  else
    match comment.toList.find? refused with
    | some c =>
      .error ("comment carries the control character " ++ debugControl c ++
        ", which this engine refuses to write because it refuses to read one back - newline, " ++
        "carriage return and tab are the three it allows")
    | none => .ok ()

/-- The zeros that bring a body to words. -/
def pad4 (v : List UInt8) : List UInt8 := v ++ List.replicate ((4 - v.length % 4) % 4) 0

/-- The one or two UTF-16 code units of a character. -/
def charUnits (c : Char) : List Nat :=
  if c.toNat < 0x10000 then [c.toNat]
  else [0xD800 + (c.toNat - 0x10000) / 0x400, 0xDC00 + (c.toNat - 0x10000) % 0x400]

/-- `str::encode_utf16`. -/
def encodeUtf16 (cs : List Char) : List Nat := cs.flatMap charUnits

/-- The two bytes of a little-endian `u16`. -/
def toLe16 (u : Nat) : List UInt8 := [UInt8.ofNat (u % 256), UInt8.ofNat (u / 256 % 256)]

/-- `comment_packet`: the packet's type and its body. -/
def commentPacket (comment : String) : List UInt8 × List UInt8 :=
  -- a byte past 127 belongs to a character past 127
  if comment.toList.all (·.toNat < 128) then (TYPE_COMMASCI, pad4 (asBytes comment))
  else (TYPE_COMMUNI, pad4 (List.replicate 16 0 ++ (encodeUtf16 comment.toList).flatMap toLe16))

def readComment (packet : List UInt8 × List UInt8) : Option String :=
  if packet.1 = TYPE_COMMASCI then parseCommAscii packet.2
  else if packet.1 = TYPE_COMMUNI then parseCommUni packet.2
  else none

/-! ## Code units -/

theorem charUnits_cases (c : Char) :
    (charUnits c = [c.toNat] ∧ (c.toNat < 0xD800 ∨ 0xDFFF < c.toNat) ∧ c.toNat < 0x10000) ∨
    ∃ hi lo, charUnits c = [0xD800 + hi, 0xDC00 + lo] ∧ hi < 0x400 ∧ lo < 0x400 ∧
      c.toNat = 0x10000 + hi * 0x400 + lo := by
  have hvalid := c.valid
  change c.toNat < 0xd800 ∨ 0xdfff < c.toNat ∧ c.toNat < 0x110000 at hvalid
  unfold charUnits
  split
  · exact .inl ⟨rfl, by omega, by omega⟩
  · exact .inr ⟨_, _, rfl, by omega, Nat.mod_lt _ (by omega), by omega⟩

theorem fromUtf16_charUnits (c : Char) (us : List Nat) :
    fromUtf16 (charUnits c ++ us) = (fromUtf16 us).map (c :: ·) := by
  rcases charUnits_cases c with ⟨h, hsur, -⟩ | ⟨hi, lo, h, hhi, hlo, hc⟩
  · rw [h, singleton_append]
    conv_lhs => unfold fromUtf16
    rw [if_pos hsur, Char.ofNat_toNat]
  · rw [h, cons_append, singleton_append]
    conv_lhs => unfold fromUtf16
    rw [if_neg (by omega), if_neg (by omega)]
    dsimp only
    rw [if_pos (by omega), Nat.add_sub_cancel_left, Nat.add_sub_cancel_left, ← hc, Char.ofNat_toNat]

theorem fromUtf16_encodeUtf16 (cs : List Char) (us : List Nat) :
    fromUtf16 (encodeUtf16 cs ++ us) = (fromUtf16 us).map (cs ++ ·) := by
  induction cs with
  | nil => simp [encodeUtf16]
  | cons c cs ih =>
    rw [encodeUtf16, flatMap_cons, append_assoc, fromUtf16_charUnits, ← encodeUtf16, ih,
      Option.map_map]
    rfl

theorem toNat_ofNat {n : Nat} (h : n < 0xD800 ∨ 0xDFFF < n ∧ n < 0x110000) :
    (Char.ofNat n).toNat = n := by
  rw [Char.ofNat, dif_pos h]
  rfl

variable {cs : List Char} {us : List Nat} {u : Nat}

theorem encodeUtf16_fromUtf16 (h : fromUtf16 us = some cs) (hus : ∀ u ∈ us, u < 0x10000) :
    encodeUtf16 cs = us := by
  fun_induction fromUtf16 us generalizing cs with
  | case1 => cases h; rfl
  | case2 u us hsur ih =>
    obtain ⟨ds, hds, rfl⟩ := Option.map_eq_some_iff.mp h
    have hu := hus u (by simp)
    have hn : (Char.ofNat u).toNat = u := toNat_ofNat (by omega)
    rw [encodeUtf16, flatMap_cons, ← encodeUtf16, ih hds fun v hv => hus v (by simp [hv]),
      charUnits, hn, if_pos hu]
    rfl
  | case3 => cases h
  | case4 => cases h
  | case5 u hsur hlow v vs hv ih =>
    obtain ⟨ds, hds, rfl⟩ := Option.map_eq_some_iff.mp h
    have hn := toNat_ofNat (n := 0x10000 + (u - 0xD800) * 0x400 + (v - 0xDC00)) (by omega)
    rw [encodeUtf16, flatMap_cons, ← encodeUtf16, ih hds fun w hw => hus w (by simp [hw]),
      charUnits, hn, if_neg (by omega)]
    have hhi : 0xD800 + (0x10000 + (u - 0xD800) * 0x400 + (v - 0xDC00) - 0x10000) / 0x400 = u := by
      omega
    have hlo : 0xDC00 + (0x10000 + (u - 0xD800) * 0x400 + (v - 0xDC00) - 0x10000) % 0x400 = v := by
      omega
    rw [hhi, hlo]
    rfl
  | case6 => cases h

theorem encodeUtf16_lt (cs : List Char) : ∀ u ∈ encodeUtf16 cs, u < 0x10000 := by
  intro u hu
  obtain ⟨c, -, hc⟩ := mem_flatMap.mp hu
  rcases charUnits_cases c with ⟨h, -, hlt⟩ | ⟨hi, lo, h, hhi, hlo, -⟩
  · rw [h] at hc; simp at hc; omega
  · rw [h] at hc; simp at hc; omega

/-! ## Chunks -/

theorem asChunks_pair (a b : UInt8) (bs : List UInt8) :
    asChunks 2 (a :: b :: bs) = [a, b] :: asChunks 2 bs := by
  rw [asChunks, asChunks, length_cons, length_cons,
    show (bs.length + 1 + 1) / 2 = bs.length / 2 + 1 by omega, range_succ_eq_map,
    map_cons, map_map]
  refine congrArg₂ _ rfl (map_congr_left fun i _ => ?_)
  simp [slice, Nat.mul_add]

theorem fromLe_toLe16 (hu : u < 0x10000) : fromLe (toLe16 u) = u := by
  simp [toLe16, fromLe]
  omega

theorem chunks_units (f : List UInt8 → Nat) (us : List Nat) :
    (asChunks 2 (us.flatMap toLe16)).map f = us.map fun u => f (toLe16 u) := by
  induction us with
  | nil => rfl
  | cons u us ih =>
    rw [flatMap_cons, toLe16, cons_append, singleton_append, asChunks_pair, map_cons, map_cons, ih]
    rfl

/-! ## Padding -/

theorem trimNul_zeros (cs : List Char) (k : Nat) :
    trimNul (cs ++ replicate k '\x00') = trimNul cs := by
  induction k with
  | zero => simp
  | succ k ih =>
    rw [replicate_succ', ← append_assoc, trimNul, reverse_append,
      reverse_singleton, singleton_append, dropWhile_cons_of_pos (by simp),
      ← trimNul, ih]

theorem length_trimNul (cs : List Char) : (trimNul cs).length ≤ cs.length := by
  rw [trimNul, length_reverse]
  exact (length_dropWhile_le _ _).trans_eq length_reverse

theorem trimNul_of_not_mem (h : '\x00' ∉ cs) : trimNul cs = cs := by
  rw [trimNul, dropWhile_eq_self_iff.mpr, reverse_reverse]
  intro hl hz
  have hz : cs.reverse[0] = '\x00' := by simpa using hz
  exact h (hz ▸ mem_reverse.mp (getElem_mem hl))

theorem trimNul_append (cs : List Char) : ∃ k, cs = trimNul cs ++ replicate k '\x00' := by
  have hzeros := eq_replicate_of_mem (a := '\x00')
    (l := cs.reverse.takeWhile (· = '\x00')) fun c hc => by simpa using mem_takeWhile_imp hc
  refine ⟨(cs.reverse.takeWhile (· = '\x00')).length, ?_⟩
  rw [trimNul, ← reverse_inj, reverse_append, reverse_reverse,
    reverse_replicate, ← hzeros, takeWhile_append_dropWhile]

theorem cleanComment_padded (hne : cs ≠ []) (h : ∀ c ∈ cs, refused c = false) (k : Nat) :
    cleanComment (cs ++ replicate k '\x00') = some (String.ofList cs) := by
  have hnul : '\x00' ∉ cs := fun hmem => by simpa [refused, isControl] using h _ hmem
  have hclean : ¬ (cs = [] ∨ cs.any refused = true) := by simpa [hne] using h
  simp only [cleanComment, trimNul_zeros, trimNul_of_not_mem hnul]
  exact if_neg hclean

theorem length_units (us : List Nat) : (us.flatMap toLe16).length = 2 * us.length := by
  induction us with
  | nil => rfl
  | cons u us ih =>
    rw [flatMap_cons, length_append, ih, length_cons, toLe16, length_cons, length_singleton]
    omega

theorem pad4_units (us : List Nat) :
    pad4 (replicate 16 0 ++ us.flatMap toLe16) =
      replicate 16 0 ++ (us ++ replicate (us.length % 2) 0).flatMap toLe16 := by
  rw [pad4, append_assoc, flatMap_append]
  congr 2
  rw [length_append, length_units, length_replicate]
  rcases Nat.mod_two_eq_zero_or_one us.length with h | h
  · rw [h, show (4 - (16 + 2 * us.length) % 4) % 4 = 0 by omega]
    rfl
  · rw [h, show (4 - (16 + 2 * us.length) % 4) % 4 = 2 by omega]
    rfl

/-! ## Reading back -/

/-- The unit read with its bytes the other way round. -/
def swapBytes (u : Nat) : Nat := u / 256 + 256 * (u % 256)

theorem fromLe_reverse_toLe16 (hu : u < 0x10000) : fromLe (toLe16 u).reverse = swapBytes u := by
  simp [toLe16, fromLe, swapBytes]
  omega

theorem toLe16_eq {v : Nat} (hu : u < 0x10000) (hv : v < 0x10000) :
    toLe16 u = toLe16 v ↔ u = v := by
  refine ⟨fun h => ?_, fun h => h ▸ rfl⟩
  rw [← fromLe_toLe16 hu, h, fromLe_toLe16 hv]

/-- What the reader makes of code units: a byte-order mark at their head goes. -/
theorem decodeUtf16Field_units (h : ∀ v ∈ u :: us, v < 0x10000) :
    decodeUtf16Field ((u :: us).flatMap toLe16) =
      if u = 0xFEFF then fromUtf16 us
      else if u = 0xFFFE then fromUtf16 (us.map swapBytes)
      else fromUtf16 (u :: us) := by
  have htake : ((u :: us).flatMap toLe16).take 2 = toLe16 u := rfl
  have hdrop : ((u :: us).flatMap toLe16).drop 2 = us.flatMap toLe16 := rfl
  have hu := h u (by simp)
  have hmap : ∀ vs : List Nat, (∀ v ∈ vs, v < 0x10000) →
      vs.map (fun v => fromLe (toLe16 v)) = vs := fun vs hvs =>
    map_congr_left (fun v hv => fromLe_toLe16 (hvs v hv)) |>.trans (map_id _)
  have hus : ∀ v ∈ us, v < 0x10000 := fun v hv => h v (by simp [hv])
  rw [decodeUtf16Field, if_neg (by rw [length_units]; omega), htake, hdrop,
    show ([0xFF, 0xFE] : List UInt8) = toLe16 0xFEFF from rfl,
    show ([0xFE, 0xFF] : List UInt8) = toLe16 0xFFFE from rfl]
  simp only [toLe16_eq hu (show 0xFEFF < 0x10000 by decide),
    toLe16_eq hu (show 0xFFFE < 0x10000 by decide)]
  split
  · simp only [chunks_units, if_true, hmap us hus]
  split
  · simp only [chunks_units]
    refine congrArg fromUtf16 (map_congr_left fun v hv => ?_)
    exact fromLe_reverse_toLe16 (hus v hv)
  · simp only [chunks_units, if_true, hmap _ h]

/-- A comment's code units with the padding behind them, as the reader is handed them. -/
theorem parseCommUni_units (h : ∀ v ∈ u :: us, v < 0x10000) :
    parseCommUni (replicate 16 0 ++ (u :: us).flatMap toLe16) =
      (if u = 0xFEFF then fromUtf16 us
      else if u = 0xFFFE then fromUtf16 (us.map swapBytes)
      else fromUtf16 (u :: us)).bind cleanComment := by
  rw [parseCommUni, if_neg (by simp [toLe16]), drop_left' (by simp),
    decodeUtf16Field_units h]

theorem cleanComment_some {text : List Char} (h : cleanComment text = some (String.ofList cs)) :
    trimNul text = cs := by
  unfold cleanComment at h
  dsimp only at h
  split at h
  · cases h
  · exact String.ofList_injective (Option.some.inj h)

theorem checkComment_clean {comment : String} (h : checkComment comment = .ok ()) :
    ∀ c ∈ comment.toList, refused c = false := by
  unfold checkComment at h
  split at h
  · cases h
  split at h
  · cases h
  · rename_i hnone
    simpa using hnone

theorem parseCommAscii_padded (hne : cs ≠ []) (h : ∀ c ∈ cs, refused c = false) :
    parseCommAscii (pad4 (asBytes (String.ofList cs))) = some (String.ofList cs) := by
  have hzeros (k : Nat) : replicate k 0 = encode (replicate k '\x00') := by
    induction k with
    | zero => rfl
    | succ k ih =>
      rw [replicate_succ, replicate_succ, encode, flatMap_cons, ← encode, ih]
      rfl
  rw [parseCommAscii, pad4, ← encode_eq_asBytes, hzeros, ← encode_append, encode_eq_asBytes,
    fromUtf8_asBytes, Option.bind_some, String.toList_ofList, cleanComment_padded hne h]

/-- The zeros behind a comment decode to the characters its reader trims. -/
theorem fromUtf16_zeros (k : Nat) :
    fromUtf16 (replicate k 0) = some (replicate k '\x00') := by
  induction k with
  | zero => rfl
  | succ k ih =>
    rw [replicate_succ]
    conv_lhs => unfold fromUtf16
    rw [if_pos (by omega), ih]
    rfl

theorem not_mem_zero (h : '\x00' ∉ cs) : 0 ∉ encodeUtf16 cs := by
  intro hmem
  obtain ⟨c, hc, hu⟩ := mem_flatMap.mp hmem
  rcases charUnits_cases c with ⟨hunits, -, -⟩ | ⟨hi, lo, hunits, -, -, -⟩
  · rw [hunits, mem_singleton] at hu
    have hzero : c = '\x00' := by rw [← Char.ofNat_toNat c, ← hu]
    exact h (hzero ▸ hc)
  · rw [hunits, mem_pair] at hu
    omega

theorem encodeUtf16_zeros (k : Nat) :
    encodeUtf16 (replicate k '\x00') = replicate k 0 := by
  induction k with
  | zero => rfl
  | succ k ih =>
    rw [replicate_succ, encodeUtf16, flatMap_cons, ← encodeUtf16, ih]
    rfl

theorem swapBytes_lt (h : u < 0x10000) : swapBytes u < 0x10000 := by
  unfold swapBytes
  omega

/-- Read the other way round, the units behind the first never give the whole comment. -/
theorem swapped_ne {ds : List Char} (hcs : encodeUtf16 cs = u :: us) (hnul : '\x00' ∉ cs)
    (h : fromUtf16 ((us ++ replicate ((u :: us).length % 2) 0).map swapBytes) = some ds) :
    trimNul ds ≠ cs := by
  rintro rfl
  obtain ⟨k, hk⟩ := trimNul_append ds
  have hlt : ∀ v ∈ (us ++ replicate ((u :: us).length % 2) 0).map swapBytes, v < 0x10000 := by
    intro v hv
    obtain ⟨w, hw, rfl⟩ := mem_map.mp hv
    refine swapBytes_lt ?_
    rcases mem_append.mp hw with hw | hw
    · exact encodeUtf16_lt (trimNul ds) w (hcs ▸ mem_cons_of_mem u hw)
    · rw [eq_of_mem_replicate hw]
      decide
  have hunits := encodeUtf16_fromUtf16 h hlt
  rw [hk, encodeUtf16, flatMap_append, ← encodeUtf16, ← encodeUtf16, hcs, encodeUtf16_zeros,
    map_append, map_replicate] at hunits
  have hlen := congrArg length hunits
  simp only [length_append, length_cons, length_replicate, length_map] at hlen
  have hk0 : k = 0 := by omega
  rw [hk0, show (u :: us).length % 2 = 1 by simp only [length_cons]; omega] at hunits
  refine not_mem_zero hnul ?_
  rw [hcs, ← append_nil (u :: us), show ([] : List Nat) = replicate 0 0 from rfl, hunits]
  simp [swapBytes]

theorem head_unit {c : Char} (h : encodeUtf16 (c :: cs) = u :: us) {v : Nat}
    (hv : v = 0xFEFF ∨ v = 0xFFFE) : u = v ↔ c.toNat = v := by
  rw [encodeUtf16, flatMap_cons] at h
  rcases charUnits_cases c with ⟨hunits, -, -⟩ | ⟨hi, lo, hunits, hhi, -, hc⟩
  · rw [hunits] at h
    cases h
    rfl
  · rw [hunits] at h
    cases h
    omega

/-- A comment the creator accepts reads back exactly where its first character is no byte-order
mark, either way round. -/
theorem comment_reads_back (comment : String) (hok : checkComment comment = .ok ())
    (hne : comment ≠ "") :
    readComment (commentPacket comment) = some comment ↔
      ∀ c ∈ comment.toList.head?, c.toNat ≠ 0xFEFF ∧ c.toNat ≠ 0xFFFE := by
  have hclean := checkComment_clean hok
  obtain ⟨cs, rfl⟩ : ∃ cs, comment = String.ofList cs := ⟨_, String.ofList_toList.symm⟩
  rw [String.toList_ofList] at hclean ⊢
  have hcs : cs ≠ [] := fun h => hne (by rw [h])
  have hnul : '\x00' ∉ cs := fun hmem => by simpa [refused, isControl] using hclean _ hmem
  obtain ⟨c, rest, rfl⟩ := exists_cons_of_ne_nil hcs
  unfold commentPacket
  rw [String.toList_ofList]
  split
  · rename_i hascii
    refine iff_of_true ?_ ?_
    · rw [readComment, if_pos rfl, parseCommAscii_padded hcs hclean]
    · have := all_eq_true.mp hascii c (by simp)
      simp at this ⊢
      omega
  obtain ⟨u, us, hunits⟩ : ∃ u us, encodeUtf16 (c :: rest) = u :: us := by
    rw [encodeUtf16, flatMap_cons]
    rcases charUnits_cases c with ⟨h, -, -⟩ | ⟨hi, lo, h, -, -, -⟩ <;> rw [h] <;> exact ⟨_, _, rfl⟩
  have hlt : ∀ v ∈ u :: (us ++ replicate ((u :: us).length % 2) 0), v < 0x10000 := by
    intro v hv
    rw [← cons_append, mem_append] at hv
    rcases hv with hv | hv
    · exact encodeUtf16_lt (c :: rest) v (hunits ▸ hv)
    · rw [eq_of_mem_replicate hv]
      decide
  rw [readComment, if_neg (show ¬ TYPE_COMMUNI = TYPE_COMMASCI by decide), if_pos rfl, pad4_units,
    hunits, cons_append, parseCommUni_units hlt]
  simp only [head_unit hunits (.inl rfl), head_unit hunits (.inr rfl), head?_cons,
    Option.mem_some_iff, forall_eq']
  split
  · rename_i hmark
    refine iff_of_false (fun h => ?_) fun h => h.1 hmark
    obtain ⟨ds, hds, hclean⟩ := Option.bind_eq_some_iff.mp h
    have hone : charUnits c = [c.toNat] := if_pos (by omega)
    rw [encodeUtf16, flatMap_cons, hone, singleton_append, ← encodeUtf16] at hunits
    cases hunits
    rw [fromUtf16_encodeUtf16, fromUtf16_zeros, Option.map_some] at hds
    cases hds
    have hlen := congrArg length (cleanComment_some hclean)
    have := length_trimNul rest
    rw [trimNul_zeros, length_cons] at hlen
    omega
  split
  · rename_i hmark
    refine iff_of_false (fun h => ?_) fun h => h.2 hmark
    obtain ⟨ds, hds, hclean⟩ := Option.bind_eq_some_iff.mp h
    exact swapped_ne hunits hnul hds (cleanComment_some hclean)
  · rename_i hfeff hfffe
    refine iff_of_true ?_ ⟨hfeff, hfffe⟩
    rw [← cons_append, ← hunits, fromUtf16_encodeUtf16, fromUtf16_zeros, Option.map_some,
      Option.bind_some, cleanComment_padded hcs hclean]

theorem comment_reads_back_word : readComment (commentPacket "h\u00e9") = some "h\u00e9" := by
  refine (comment_reads_back "h\u00e9" (by rfl) (by decide)).mpr fun c hc => ?_
  obtain rfl : 'h' = c := Option.some.inj hc
  decide

set_option maxRecDepth 20000 in
/-- A comment that begins with a byte-order mark is accepted, and reads back without it. -/
theorem comment_loses_mark :
    ¬ ∀ comment, checkComment comment = .ok () → comment ≠ "" →
      readComment (commentPacket comment) = some comment := by
  intro h
  have hlost : readComment (commentPacket "\uFEFFhi") = some "hi" := by decide
  have h := h "\uFEFFhi" (by rfl) (by decide)
  rw [hlost] at h
  exact absurd h (by decide)

end NzbFast.Par2
