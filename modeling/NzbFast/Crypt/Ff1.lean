import NzbFast.Rust.BigUint
import NzbFast.Wire.Cbc
import NzbFast.Wire.Feistel

/-!
# FF1

The format-preserving cipher of `crates/nzbkit-base/src/ff1.rs` over any function
of 16-byte blocks. `feistel` returns what the source returns, or `none` inside
`ok` where an `expect` or a subtraction of it would panic; nothing does.

The exponents of the two moduli are lengths cast to `u32`. A round is undone only
where the half it changes is below its modulus, which every half of fewer than
`2 ^ 32` digits is, and a longer one need not be.
-/

namespace NzbFast.Crypt

open Wire NzbFast.Rust List Nat

structure Ff1 where
  cipher : Block → Block
  radix : Nat
  radix_ge : 2 ≤ radix
  radix_le : radix ≤ 256

inductive Ff1Error
  | tooShort
  | digitOutOfRange
  deriving DecidableEq

/-- The low `k` bytes of a number, the most significant one first. -/
def beBytes (k n : Nat) : List UInt8 := (List.range k).reverse.map fun i => UInt8.ofNat (n / 256 ^ i)

/-- `usize as u32`. -/
def asU32 (n : Nat) : Nat := n % 2 ^ 32

/-- What a call computes before its rounds. -/
structure Call where
  tweak : List UInt8
  u : Nat
  v : Nat
  ru : Nat
  rv : Nat
  b : Nat
  d : Nat
  pad : Nat
  p : List UInt8

namespace Ff1

variable (f : Ff1)

def xorInto (y : Block) (chunk : List UInt8) : Block := fun o => y o ^^^ chunk.getD o 0

/-- `prf`: the CBC-MAC of `P || Q`. -/
def prf (p q : List UInt8) : Block :=
  (p.toChunks 16 ++ q.toChunks 16).foldl (fun y chunk => f.cipher (xorInto y chunk)) fun _ => 0

/-- The loop `while s.len() < d`. -/
def stretch (r : Block) (d : Nat) (s : List UInt8) (j : Nat) : List UInt8 :=
  if s.length < d then stretch r d (s ++ (f.cipher (xorInto r (beBytes 16 j))).bytes) (j + 1) else s
termination_by d - s.length
decreasing_by
  rw [List.length_append, Block.length_bytes]
  omega

def call (tweak : List UInt8) (n : Nat) : Call :=
  let t := tweak.length
  let u := n / 2
  let v := n - u
  let rv := f.radix ^ asU32 v
  let b := (Rust.bits (rv - 1) + 7) / 8
  { tweak := tweak
    u := u
    v := v
    ru := f.radix ^ asU32 u
    rv := rv
    b := b
    d := 4 * ((b + 3) / 4) + 4
    pad := (16 - (t + b + 1) % 16) % 16
    p := [1, 2, 1] ++ beBytes 3 f.radix ++ [10, UInt8.ofNat u] ++ beBytes 4 (asU32 n) ++
      beBytes 4 (asU32 t) }

/-- `y` of a round: what the active half is mixed with. -/
def roundNumber (c : Call) (i : Nat) (active : List UInt8) : Option Nat :=
  (fromRadixBe active f.radix).map fun num =>
    let numBytes := toBytesBe num
    let q := c.tweak ++ List.replicate c.pad 0 ++ [UInt8.ofNat i] ++
      List.replicate (c.b - min numBytes.length c.b) 0 ++ numBytes.drop (numBytes.length - c.b)
    let r := f.prf c.p q
    fromBytesBe ((f.stretch r c.d r.bytes 1).take c.d)

/-- The length and the modulus of the half that round `i` changes. -/
def lenAt (c : Call) (i : Nat) : Nat := if i % 2 = 0 then c.u else c.v

def modulusAt (c : Call) (i : Nat) : Nat := if i % 2 = 0 then c.ru else c.rv

def round (c : Call) (forward : Bool) (s : List UInt8 × List UInt8) (round : Nat) :
    Option (List UInt8 × List UInt8) :=
  let i := if forward then round else 9 - round
  let active := if forward then s.2 else s.1
  let changed := if forward then s.1 else s.2
  (f.roundNumber c i active).bind fun y =>
    (fromRadixBe changed f.radix).bind fun base =>
      let m := lenAt c i
      let rm := modulusAt c i
      let x := if forward then (base + y) % rm else (base + rm - y % rm) % rm
      if (toRadixBe x f.radix).length ≤ m then
        let padded := paddedDigits f.radix m x
        some (if forward then (s.2, padded) else (padded, s.1))
      else none

def feistel (tweak x : List UInt8) (forward : Bool) : Except Ff1Error (Option (List UInt8)) :=
  let n := x.length
  if n < 2 ∨ f.radix ^ asU32 n < 100 then .error .tooShort
  else if ¬ Digits f.radix x then .error .digitOutOfRange
  else
    let c := f.call tweak n
    .ok (((List.range 10).foldlM (f.round c forward) (x.take c.u, x.drop c.u)).map fun s =>
      s.1 ++ s.2)

def encrypt (tweak x : List UInt8) : Except Ff1Error (Option (List UInt8)) := f.feistel tweak x true

def decrypt (tweak x : List UInt8) : Except Ff1Error (Option (List UInt8)) :=
  f.feistel tweak x false

/-! ## Rounds as a Feistel network -/

def mixNumber (c : Call) (i : Nat) (active : List UInt8) : Nat := (f.roundNumber c i active).getD 0

theorem roundNumber_eq {c : Call} {i : Nat} {active : List UInt8} (h : Digits f.radix active) :
    f.roundNumber c i active = some (f.mixNumber c i active) := by
  unfold mixNumber roundNumber fromRadixBe
  rw [if_pos h]
  rfl

/-- A call whose lengths and moduli are those of some list of at least two digits. -/
structure Fits (c : Call) : Prop where
  len : ∀ i, 0 < lenAt c i
  pos : ∀ i, 0 < modulusAt c i
  le : ∀ i, modulusAt c i ≤ f.radix ^ lenAt c i

theorem fits_call (tweak : List UInt8) {n : Nat} (hn : 2 ≤ n) : f.Fits (f.call tweak n) := by
  have hr := f.radix_ge
  refine ⟨fun i => ?_, fun i => ?_, fun i => ?_⟩
  · unfold lenAt call
    split
    · show 0 < n / 2
      omega
    · show 0 < n - n / 2
      omega
  · unfold modulusAt call
    split
    · exact Nat.pow_pos (by omega)
    · exact Nat.pow_pos (by omega)
  · unfold modulusAt lenAt call
    split
    · exact Nat.pow_le_pow_right (by omega) (Nat.mod_le _ _)
    · exact Nat.pow_le_pow_right (by omega) (Nat.mod_le _ _)

theorem lenAt_add_two (c : Call) (i : Nat) : lenAt c (i + 2) = lenAt c i := by
  unfold lenAt
  rw [add_mod_right]

theorem modulusAt_add_two (c : Call) (i : Nat) : modulusAt c (i + 2) = modulusAt c i := by
  unfold modulusAt
  rw [add_mod_right]

/-- A half that round `i` can restore. -/
structure Half (c : Call) (i : Nat) (x : List UInt8) : Prop where
  length : x.length = lenAt c i
  digits : Digits f.radix x
  below : beValue f.radix x < modulusAt c i

theorem half_padded {c : Call} (hc : f.Fits c) (i : Nat) {x : Nat} (hx : x < modulusAt c i) :
    f.Half c i (paddedDigits f.radix (lenAt c i) x) where
  length := length_paddedDigits f.radix_ge f.radix_le (hc.len i) (hx.trans_le (hc.le i))
  digits := digits_paddedDigits f.radix_ge f.radix_le
  below := by rwa [beValue_paddedDigits f.radix_ge f.radix_le]

theorem padded_of_half {c : Call} (hc : f.Fits c) {i : Nat} {x : List UInt8} (h : f.Half c i x) :
    paddedDigits f.radix (lenAt c i) (beValue f.radix x) = x := by
  have hlen := h.length
  have hpos := hc.len i
  rw [← hlen] at hpos ⊢
  exact paddedDigits_beValue f.radix_ge f.radix_le h.digits hpos

theorem sub_add_mod {a y m : Nat} (ha : a < m) : ((a + y) % m + m - y % m) % m = a := by
  have hy := mod_lt y (by omega : 0 < m)
  have hsum : (a + y) % m = (a + y % m) % m := by rw [add_mod, mod_eq_of_lt ha]
  rw [hsum]
  rcases lt_or_ge (a + y % m) m with hlt | hge
  · rw [mod_eq_of_lt hlt, show a + y % m + m - y % m = a + m by omega, add_mod_right,
      mod_eq_of_lt ha]
  · rw [mod_eq_sub_mod hge, mod_eq_of_lt (by omega : a + y % m - m < m),
      show a + y % m - m + m - y % m = a by omega, mod_eq_of_lt ha]

theorem add_sub_mod {a y m : Nat} (ha : a < m) : ((a + m - y % m) % m + y) % m = a := by
  have hy := mod_lt y (by omega : 0 < m)
  rw [add_mod, mod_mod, ← add_mod_mod, ← add_mod,
    show a + m - y % m + y % m = a + m by omega, add_mod_right, mod_eq_of_lt ha]

def mixer (c : Call) (hc : f.Fits c) : Mixer (List UInt8) Nat where
  dom := f.Half c
  mix i x y := paddedDigits f.radix (lenAt c i) ((beValue f.radix x + y) % modulusAt c i)
  unmix i x y := paddedDigits f.radix (lenAt c i)
    ((beValue f.radix x + modulusAt c i - y % modulusAt c i) % modulusAt c i)
  period i x := by
    constructor
    · intro h
      exact ⟨by rw [h.length, lenAt_add_two], h.digits, by rw [← modulusAt_add_two]; exact h.below⟩
    · intro h
      exact ⟨by rw [h.length, lenAt_add_two], h.digits, by rw [modulusAt_add_two]; exact h.below⟩
  mix_mem i x y := f.half_padded hc i (Nat.mod_lt _ (hc.pos i))
  unmix_mem i x y := f.half_padded hc i (Nat.mod_lt _ (hc.pos i))
  unmix_mix i x y h := by
    rw [beValue_paddedDigits f.radix_ge f.radix_le, sub_add_mod h.below, f.padded_of_half hc h]
  mix_unmix i x y h := by
    rw [beValue_paddedDigits f.radix_ge f.radix_le, add_sub_mod h.below, f.padded_of_half hc h]

section Rounds

variable {f} {c : Call} (hc : f.Fits c) {s : List UInt8 × List UInt8}

def Both (f : Ff1) (s : List UInt8 × List UInt8) : Prop := Digits f.radix s.1 ∧ Digits f.radix s.2

include hc

theorem round_forward (hs : f.Both s) (i : Nat) :
    f.round c true s i = some ((f.mixer c hc).forward (f.mixNumber c) s i) ∧
      f.Both ((f.mixer c hc).forward (f.mixNumber c) s i) := by
  have hhalf := (f.mixer c hc).mix_mem i s.1 (f.mixNumber c i s.2)
  refine ⟨?_, hs.2, hhalf.digits⟩
  have hlen := length_toRadixBe_le f.radix_ge f.radix_le (hc.len i)
    ((mod_lt (beValue f.radix s.1 + f.mixNumber c i s.2) (hc.pos i)).trans_le (hc.le i))
  simp only [round, if_true, f.roundNumber_eq hs.2, fromRadixBe, if_pos hs.1, Option.bind_some]
  rw [if_pos hlen]
  rfl

theorem round_backward (hs : f.Both s) {r : Nat} (i : Nat) (hi : i = 9 - r) :
    f.round c false s r = some ((f.mixer c hc).backward (f.mixNumber c) s i) ∧
      f.Both ((f.mixer c hc).backward (f.mixNumber c) s i) := by
  subst hi
  have hhalf := (f.mixer c hc).unmix_mem (9 - r) s.2 (f.mixNumber c (9 - r) s.1)
  refine ⟨?_, hhalf.digits, hs.1⟩
  have hlen := length_toRadixBe_le f.radix_ge f.radix_le (hc.len (9 - r))
    ((mod_lt (beValue f.radix s.2 + modulusAt c (9 - r) -
      f.mixNumber c (9 - r) s.1 % modulusAt c (9 - r)) (hc.pos (9 - r))).trans_le (hc.le (9 - r)))
  simp only [round, Bool.false_eq_true, if_false, f.roundNumber_eq hs.1, fromRadixBe, if_pos hs.2,
    Option.bind_some]
  rw [if_pos hlen]
  rfl

theorem foldlM_forward (hs : f.Both s) (rounds : List Nat) :
    rounds.foldlM (f.round c true) s =
        some (rounds.foldl ((f.mixer c hc).forward (f.mixNumber c)) s) ∧
      f.Both (rounds.foldl ((f.mixer c hc).forward (f.mixNumber c)) s) := by
  induction rounds generalizing s with
  | nil => exact ⟨rfl, hs⟩
  | cons i rounds ih =>
    obtain ⟨heq, hs'⟩ := round_forward hc hs i
    rw [foldlM_cons, heq]
    exact ih hs'

theorem foldlM_backward (hs : f.Both s) (rounds : List Nat) :
    rounds.foldlM (f.round c false) s =
        some ((rounds.map (9 - ·)).foldl ((f.mixer c hc).backward (f.mixNumber c)) s) ∧
      f.Both ((rounds.map (9 - ·)).foldl ((f.mixer c hc).backward (f.mixNumber c)) s) := by
  induction rounds generalizing s with
  | nil => exact ⟨rfl, hs⟩
  | cons r rounds ih =>
    obtain ⟨heq, hs'⟩ := round_backward hc hs (9 - r) rfl
    rw [foldlM_cons, heq]
    exact ih hs'

end Rounds

/-! ## Both directions of a call -/

/-- The digit lists that the code accepts. -/
structure Accepts (x : List UInt8) : Prop where
  two : 2 ≤ x.length
  long : 100 ≤ f.radix ^ asU32 x.length
  digits : Digits f.radix x

theorem accepts_of_feistel {tweak x : List UInt8} {forward : Bool} {y : Option (List UInt8)}
    (h : f.feistel tweak x forward = .ok y) : f.Accepts x := by
  unfold feistel at h
  dsimp only at h
  split at h
  case isTrue => cases h
  case isFalse hshort =>
    split at h
    case isTrue => cases h
    case isFalse hdigits => exact ⟨by omega, by omega, not_not.mp hdigits⟩

def halves (x : List UInt8) : List UInt8 × List UInt8 := (x.take (x.length / 2), x.drop (x.length / 2))

def joined (s : List UInt8 × List UInt8) : List UInt8 := s.1 ++ s.2

theorem length_halves (x : List UInt8) : (halves x).1.length = x.length / 2 ∧
    (halves x).2.length = x.length - x.length / 2 := by
  constructor
  · show (x.take (x.length / 2)).length = x.length / 2
    rw [length_take]
    omega
  · exact length_drop

theorem joined_halves (x : List UInt8) : joined (halves x) = x := take_append_drop _ x

/-- The rounds of the calls on lists of `n` digits. -/
def network (tweak : List UInt8) {n : Nat} (hn : 2 ≤ n) : Mixer (List UInt8) Nat :=
  f.mixer (f.call tweak n) (f.fits_call tweak hn)

/-- Each half is below its modulus. -/
structure HalvesFit (x : List UInt8) : Prop where
  first : beValue f.radix (halves x).1 < f.radix ^ asU32 (x.length / 2)
  second : beValue f.radix (halves x).2 < f.radix ^ asU32 (x.length - x.length / 2)

section Call

variable {f} {tweak x : List UInt8} {n : Nat} (hn : 2 ≤ n)

theorem feistel_of_accepts (h : f.Accepts x) (hlen : x.length = n) (forward : Bool) :
    f.feistel tweak x forward =
      .ok (((List.range 10).foldlM (f.round (f.call tweak n) forward) (halves x)).map joined) := by
  subst hlen
  have hshort : ¬(x.length < 2 ∨ f.radix ^ asU32 x.length < 100) := by
    have := h.two
    have := h.long
    omega
  simp only [feistel, hshort, h.digits, not_true_eq_false, if_false]
  rfl

theorem both_halves (h : f.Accepts x) : f.Both (halves x) :=
  ⟨fun d hd => h.digits d (mem_of_mem_take hd), fun d hd => h.digits d (mem_of_mem_drop hd)⟩

theorem encrypt_eq (h : f.Accepts x) (hlen : x.length = n) : f.encrypt tweak x =
    .ok (some (joined ((f.network tweak hn).encipher (f.mixNumber (f.call tweak n)) 10 (halves x)))) := by
  rw [encrypt, feistel_of_accepts h hlen,
    (foldlM_forward (f.fits_call tweak hn) (both_halves h) _).1]
  rfl

theorem decrypt_eq (h : f.Accepts x) (hlen : x.length = n) : f.decrypt tweak x =
    .ok (some (joined ((f.network tweak hn).decipher (f.mixNumber (f.call tweak n)) 10 (halves x)))) := by
  rw [decrypt, feistel_of_accepts h hlen,
    (foldlM_backward (f.fits_call tweak hn) (both_halves h) _).1]
  rfl

/-- Ten rounds leave the parities as they were. -/
theorem before_ten {s : List UInt8 × List UInt8} :
    (f.network tweak hn).Before 10 s ↔ (f.network tweak hn).Before 0 s := by
  constructor
  · rintro ⟨ha, hb⟩
    exact ⟨⟨ha.length, ha.digits, ha.below⟩, ⟨hb.length, hb.digits, hb.below⟩⟩
  · rintro ⟨ha, hb⟩
    exact ⟨⟨ha.length, ha.digits, ha.below⟩, ⟨hb.length, hb.digits, hb.below⟩⟩

variable {s : List UInt8 × List UInt8} (hs : (f.network tweak hn).Before 0 s)

include hs

theorem length_joined : (joined s).length = n := by
  have ha : s.1.length = n / 2 := hs.1.length
  have hb : s.2.length = n - n / 2 := hs.2.length
  rw [joined, length_append, ha, hb]
  omega

theorem halves_joined : halves (joined s) = s := by
  have ha : s.1.length = n / 2 := hs.1.length
  rw [halves, length_joined hn hs, ← ha, joined, take_left, drop_left]

theorem digits_joined : Digits f.radix (joined s) := by
  intro d hd
  rcases mem_append.mp hd with hd | hd
  · exact hs.1.digits d hd
  · exact hs.2.digits d hd

theorem accepts_joined (h : f.Accepts x) (hlen : x.length = n) : f.Accepts (joined s) where
  two := by rwa [length_joined hn hs]
  long := by
    rw [length_joined hn hs, ← hlen]
    exact h.long
  digits := digits_joined hn hs

theorem halvesFit_joined : f.HalvesFit (joined s) := by
  constructor
  · rw [halves_joined hn hs, length_joined hn hs]
    exact hs.1.below
  · rw [halves_joined hn hs, length_joined hn hs]
    exact hs.2.below

end Call

/-! ## The permutation -/

/-- Both directions give digits of the same number, and each undoes the other. -/
structure RoundTrips (tweak x : List UInt8) : Prop where
  encrypted : ∃ y, f.encrypt tweak x = .ok (some y) ∧ y.length = x.length ∧ Digits f.radix y ∧
    f.decrypt tweak y = .ok (some x)
  decrypted : ∃ y, f.decrypt tweak x = .ok (some y) ∧ y.length = x.length ∧ Digits f.radix y ∧
    f.encrypt tweak y = .ok (some x)

section Permutation

variable {f} {tweak x : List UInt8} (h : f.Accepts x)

include h

theorem before_halves (hfit : f.HalvesFit x) : (f.network tweak h.two).Before 0 (halves x) := by
  have hboth := both_halves h
  have hlen := length_halves x
  exact ⟨⟨hlen.1, hboth.1, hfit.first⟩, ⟨hlen.2, hboth.2, hfit.second⟩⟩

theorem roundTrips_of_halvesFit (hfit : f.HalvesFit x) : f.RoundTrips tweak x := by
  have hs : (f.network tweak h.two).Before 0 (halves x) := before_halves h hfit
  constructor
  · have he : (f.network tweak h.two).Before 0 ((f.network tweak h.two).encipher
        (f.mixNumber (f.call tweak x.length)) 10 (halves x)) :=
      (before_ten h.two).mp (Mixer.before_encipher 8 _)
    refine ⟨_, encrypt_eq h.two h rfl, length_joined h.two he, digits_joined h.two he, ?_⟩
    rw [decrypt_eq h.two (accepts_joined h.two he h rfl) (length_joined h.two he),
      halves_joined h.two he, Mixer.decipher_encipher hs, joined_halves]
  · have hd := Mixer.before_decipher (M := f.network tweak h.two)
      (F := f.mixNumber (f.call tweak x.length)) 8 (halves x)
    refine ⟨_, decrypt_eq h.two h rfl, length_joined h.two hd, digits_joined h.two hd, ?_⟩
    rw [encrypt_eq h.two (accepts_joined h.two hd h rfl) (length_joined h.two hd),
      halves_joined h.two hd, Mixer.encipher_decipher ((before_ten h.two).mpr hs), joined_halves]

/-- What a decryption returns has halves below their moduli. -/
theorem halvesFit_of_roundTrips (htrip : f.RoundTrips tweak x) : f.HalvesFit x := by
  obtain ⟨y, -, hlen, -, hdec⟩ := htrip.encrypted
  have hy := f.accepts_of_feistel hdec
  rw [decrypt_eq h.two hy hlen] at hdec
  have hd := Mixer.before_decipher (M := f.network tweak h.two)
    (F := f.mixNumber (f.call tweak x.length)) 8 (halves y)
  exact Option.some.inj (Except.ok.inj hdec) ▸ halvesFit_joined h.two hd

theorem halvesFit_of_length (hlen : x.length < 2 ^ 33 - 1) : f.HalvesFit x := by
  have hboth := both_halves h
  have hfirst : asU32 (x.length / 2) = x.length / 2 := mod_eq_of_lt (by omega)
  have hsecond : asU32 (x.length - x.length / 2) = x.length - x.length / 2 :=
    mod_eq_of_lt (by omega)
  obtain ⟨hlen1, hlen2⟩ := length_halves x
  constructor
  · rw [hfirst, ← hlen1]
    exact beValue_lt f.radix_ge hboth.1
  · rw [hsecond, ← hlen2]
    exact beValue_lt f.radix_ge hboth.2

end Permutation

/-- FF1 is a permutation of the lists it accepts wherever the halves of the list are
below their moduli, as those of every list of fewer than `2 ^ 33 - 1` digits are. -/
theorem ff1_permutes_iff (f : Ff1) (tweak x : List UInt8) (h : f.Accepts x) :
    (f.RoundTrips tweak x ↔ f.HalvesFit x) ∧ (x.length < 2 ^ 33 - 1 → f.RoundTrips tweak x) :=
  ⟨⟨halvesFit_of_roundTrips h, roundTrips_of_halvesFit h⟩,
    fun hlen => roundTrips_of_halvesFit h (halvesFit_of_length h hlen)⟩

/-- A block function that leaves its block alone. -/
def sampleFf1 (radix : Nat) (hge : 2 ≤ radix) (hle : radix ≤ 256) : Ff1 := ⟨id, radix, hge, hle⟩

theorem ff1_permutes_sample :
    (sampleFf1 10 (by decide) (by decide)).RoundTrips [7] [1, 2, 3] :=
  (ff1_permutes_iff _ [7] [1, 2, 3] ⟨by decide, by decide, by simp [Digits, sampleFf1]⟩).2 (by norm_num)

theorem not_halvesFit {f : Ff1} {n : Nat} (hn : asU32 (n - n / 2) = 0) (hpos : 0 < n) :
    ¬ f.HalvesFit (List.replicate n 1) := by
  intro hfit
  have hlt := hfit.second
  rw [length_replicate, hn, pow_zero, lt_one_iff, halves, length_replicate,
    drop_replicate] at hlt
  obtain ⟨k, hk⟩ := exists_eq_succ_of_ne_zero (show n - n / 2 ≠ 0 by omega)
  rw [hk, beValue, reverse_replicate, map_replicate, replicate_succ, ofDigits_cons] at hlt
  simp at hlt

theorem ff1_not_permutation : (sampleFf1 256 (by decide) (by decide)).Accepts
      (List.replicate (2 ^ 33 - 1) 1) ∧
    ¬ (sampleFf1 256 (by decide) (by decide)).RoundTrips [] (List.replicate (2 ^ 33 - 1) 1) := by
  have haccepts : ∀ n, 2 ≤ n → 0 < asU32 n →
      (sampleFf1 256 (by decide) (by decide)).Accepts (replicate n 1) := by
    intro n hn hexp
    refine ⟨by rwa [length_replicate], ?_, ?_⟩
    · rw [length_replicate]
      calc 100 ≤ 256 ^ 1 := by decide
        _ ≤ 256 ^ asU32 n := Nat.pow_le_pow_right (by decide) hexp
    · intro d hd
      rw [eq_of_mem_replicate hd]
      decide
  have h := haccepts (2 ^ 33 - 1) (by decide) (by decide)
  exact ⟨h, fun htrip => not_halvesFit (by decide) (by decide) (halvesFit_of_roundTrips h htrip)⟩

end Ff1

end NzbFast.Crypt
