import NzbFast.Par2.SetMeaning

/-!
# The packet scanners agree

Three walks look for packets: the serial one, which hashes as it goes and
resyncs one byte past a bad magic; the optimistic one, which hops by declared
length and hashes all spans at once; and `scan_file_windowed_in`
(`crates/nzbkit-base/src/par2/packet.rs`), which frames a file strictly through
one window that slides and grows. The first two emit the same list on every
buffer. The third, where it does not decline, emits that list too.
-/

namespace NzbFast.Par2

open List hiding not_le not_lt

/-! ## The optimistic walk -/

section Optimistic

variable (md5 : List UInt8 → List UInt8)

/-- Where every span verifies, the serial walk visits exactly the spans, and what it has left to
hash fits the bytes it has left to read. -/
theorem scanSerialFrom_of_verified {input : List UInt8} {budget : Nat} :
    ∀ {fuel off hashed : Nat},
      (∀ s ∈ packetSpansFrom input fuel off, verified md5 input s.1 s.2 = true) →
      hashed + (input.length - off) ≤ budget →
      (scanSerialFrom md5 input budget fuel off hashed).1 =
        (packetSpansFrom input fuel off).map fun s => rawPacket input s.1 s.2
  | 0, _, _, _, _ => rfl
  | fuel + 1, off, hashed, hv, hb => by
    unfold scanSerialFrom packetSpansFrom
    unfold packetSpansFrom at hv
    cases hm : nextMagic input off with
    | none => rfl
    | some start =>
      obtain ⟨hoff, hroom⟩ := nextMagic_spec hm
      rw [hm] at hv
      dsimp only at hv ⊢
      cases hl : validLen input start with
      | none =>
        rw [hl] at hv
        exact scanSerialFrom_of_verified hv (by omega)
      | some len =>
        obtain ⟨hlen, -, hfit⟩ := validLen_spec hl
        rw [hl] at hv
        dsimp only at hv ⊢
        have hcharge : hashed + (start + len - (start + 32)) + (input.length - (start + len)) ≤ budget := by
          omega
        rw [if_neg (by omega), if_pos (hv _ (.head _)), map_cons,
          ← scanSerialFrom_of_verified (fun s hs => hv s (.tail _ hs)) hcharge]

theorem scanPacketsSerial_of_verified {input : List UInt8}
    (hv : ∀ s ∈ packetSpans input, verified md5 input s.1 s.2 = true) :
    (scanPacketsSerial md5 input).1 = (packetSpans input).map fun s => rawPacket input s.1 s.2 :=
  scanSerialFrom_of_verified md5 hv (by omega)

/-- The parallel walk with its fallback is the serial walk. -/
theorem scanPackets_eq_serial (input : List UInt8) :
    scanPackets md5 input = (scanPacketsSerial md5 input).1 := by
  unfold scanPackets
  split
  case isFalse => rfl
  case isTrue h => exact (scanPacketsSerial_of_verified md5 (all_eq_true.mp h.2)).symm

theorem scanPackets_of_verified {input : List UInt8}
    (hv : ∀ s ∈ packetSpans input, verified md5 input s.1 s.2 = true) :
    scanPackets md5 input = (packetSpans input).map fun s => rawPacket input s.1 s.2 := by
  rw [scanPackets_eq_serial, scanPacketsSerial_of_verified md5 hv]

end Optimistic

/-! ## A contiguous run of packets -/

/-- The packets framed back to back from `a` to `b`. -/
inductive Framed (input : List UInt8) : Nat → Nat → List (Nat × Nat) → Prop
  | nil {a : Nat} : Framed input a a []
  | cons {a b len : Nat} {spans : List (Nat × Nat)} (hmagic : slice input a (a + 8) = MAGIC)
      (hlen : validLen input a = some len) (rest : Framed input (a + len) b spans) :
      Framed input a b ((a, a + len) :: spans)

theorem Framed.append {input : List UInt8} {a b c : Nat} {xs ys : List (Nat × Nat)}
    (h : Framed input a b xs) (h' : Framed input b c ys) : Framed input a c (xs ++ ys) := by
  induction h with
  | nil => exact h'
  | cons hmagic hlen _ ih => exact .cons hmagic hlen (ih h')

theorem nextMagic_at {input : List UInt8} {a : Nat} (hmagic : slice input a (a + 8) = MAGIC)
    (hroom : a + HEADER_LEN ≤ input.length) : nextMagic input a = some a := by
  have h64 : a + 64 ≤ input.length := hroom
  have hfind : findMagic (input.drop a) = some 0 := by
    cases hd : input.drop a with
    | nil =>
      have := congrArg length hd
      simp only [length_drop, length_nil] at this
      omega
    | cons b bs =>
      rw [slice, drop_take, show a + 8 - a = 8 by omega, hd] at hmagic
      exact if_pos hmagic
  unfold nextMagic
  rw [if_pos hroom, hfind]
  exact if_neg (by omega)

/-- A run that leaves less than a header behind it is all the framing walk finds. -/
theorem Framed.packetSpansFrom_eq {input : List UInt8} {a b : Nat} {spans : List (Nat × Nat)}
    (h : Framed input a b spans) (hend : input.length < b + HEADER_LEN) :
    ∀ {fuel : Nat}, input.length < fuel + a → packetSpansFrom input fuel a = spans := by
  induction h with
  | nil =>
    intro fuel _
    cases fuel with
    | zero => rfl
    | succ fuel =>
      unfold packetSpansFrom nextMagic
      rw [if_neg (by omega)]
  | @cons a b len spans hmagic hlen _ ih =>
    intro fuel hfuel
    obtain ⟨h64, -, hfit⟩ := validLen_spec hlen
    have hpos : 64 ≤ len := h64
    cases fuel with
    | zero => omega
    | succ fuel =>
      unfold packetSpansFrom
      rw [nextMagic_at hmagic (by omega)]
      dsimp only
      rw [hlen]
      dsimp only
      rw [ih hend (by omega)]

theorem Framed.packetSpans_eq {input : List UInt8} {b : Nat} {spans : List (Nat × Nat)}
    (h : Framed input 0 b spans) (hend : input.length < b + HEADER_LEN) :
    packetSpans input = spans :=
  h.packetSpansFrom_eq hend (by omega)

/-! ## The window -/

/-- `read_exact_at` over a file's bytes: the whole range, or an error where the range runs past
the end or the read fails. An empty range asks nothing of the file. -/
def readExactAt (content : List UInt8) (fails : Nat → Nat → Bool) (off len : Nat) :
    Option (List UInt8) :=
  if fails off len = true ∨ content.length - off < len then none
  else some (slice content off (off + len))

/-- `buf[..filled]` holds the file's bytes from offset `base`. -/
structure Window where
  base : Nat
  filled : Nat
  buf : List UInt8
  deriving DecidableEq, Repr

/-- What one framing of the window leaves: the whole packets, the offset behind the last and the
declared length of a packet that runs past the window. -/
structure Framing where
  spans : List (Nat × Nat)
  off : Nat
  shortBy : Option Nat
  deriving DecidableEq, Repr

/-- The strict framing loop from `off` on: a header exactly where the last packet ended. Every
round moves `off` forward, so fuel above `filled - off` is never used up. -/
def frameFrom (buf : List UInt8) (base filled fileLen : Nat) : Nat → Nat → Option Framing
  | 0, off => some ⟨[], off, none⟩
  | fuel + 1, off =>
    if off + HEADER_LEN ≤ filled then
      if slice buf off (off + 8) = MAGIC then
        let len := fromLe (slice buf (off + 8) (off + 16))
        if len < HEADER_LEN ∨ len % 4 ≠ 0 ∨ fileLen < base + off + len then none
        else if filled < off + len then some ⟨[], off, some len⟩
        else
          (frameFrom buf base filled fileLen fuel (off + len)).map fun fr =>
            { fr with spans := (off, off + len) :: fr.spans }
      else none
    else some ⟨[], off, none⟩

/-- `resize(len, 0)` of a buffer, taken only where `len` is above its length. -/
def growBuf (buf : List UInt8) : Option Nat → List UInt8
  | none => buf
  | some len => if buf.length < len then buf ++ List.replicate (len - buf.length) 0 else buf

/-- How one round of `scan_file_windowed_in` ends. -/
inductive Round
  | declined
  | finished (packets : List RawPacket)
  | further (packets : List RawPacket) (w : Window)
  deriving DecidableEq, Repr

def windowPacket (buf : List UInt8) (base : Nat) (s : Nat × Nat) : RawPacket :=
  { rawPacket buf s.1 s.2 with bodyOffset := base + s.1 + 64 }

/-- The window after `copy_within(off..filled, 0)` and the growth a short packet asks for. -/
def slideWindow (buf : List UInt8) (base filled : Nat) (fr : Framing) : Window where
  base := base + fr.off
  filled := filled - fr.off
  buf := growBuf (slice buf fr.off filled ++ buf.drop (filled - fr.off)) fr.shortBy

section Windowed

variable (md5 : List UInt8 → List UInt8) (read : Nat → Nat → Option (List UInt8)) (fileLen : Nat)

/-- The round from the framing on, over `buf[..filled]`. -/
def roundFramed (buf : List UInt8) (base filled : Nat) (fr : Framing) : Round :=
  if (fr.spans.all fun s => verified md5 (buf.take fr.off) s.1 s.2) = true then
    if base + filled = fileLen then .finished (fr.spans.map (windowPacket buf base))
    else .further (fr.spans.map (windowPacket buf base)) (slideWindow buf base filled fr)
  else .declined

/-- One round of the loop: fill the window, frame it, verify its spans, emit them, slide. -/
def windowRound (w : Window) : Round :=
  let want := min (w.buf.length - w.filled) (fileLen - w.base - w.filled)
  match read (w.base + w.filled) want with
  | none => .declined
  | some bytes =>
    let buf := w.buf.take w.filled ++ bytes ++ w.buf.drop (w.filled + want)
    let filled := w.filled + want
    match frameFrom buf w.base filled fileLen (filled + 1) 0 with
    | none => .declined
    | some fr => roundFramed md5 fileLen buf w.base filled fr

/-- The loop: the packets emitted and the value returned, or `none` where `fuel` rounds were not
enough. -/
def windowRun : Nat → Window → Option (List RawPacket × Option Unit)
  | 0, _ => none
  | fuel + 1, w =>
    match windowRound md5 read fileLen w with
    | .declined => some ([], none)
    | .finished ps => some (ps, some ())
    | .further ps w' => (windowRun fuel w').map fun r => (ps ++ r.1, r.2)

/-- The window before the first read. What the caller's buffer held stays in it. -/
def startWindow (window : Nat) (buf : List UInt8) : Window where
  base := 0
  filled := 0
  buf :=
    let width := min (max window HEADER_LEN) fileLen
    if width ≤ buf.length then buf.take width
    else buf ++ List.replicate (width - buf.length) 0

/-- `scan_file_windowed_in`, over at most `fuel` rounds. -/
def scanFileWindowedIn (fuel window : Nat) (buf : List UInt8) :
    Option (List RawPacket × Option Unit) :=
  windowRun md5 read fileLen fuel (startWindow fileLen window buf)

end Windowed

/-! ## Framing a window -/

def shiftSpan (base : Nat) (s : Nat × Nat) : Nat × Nat := (base + s.1, base + s.2)

/-- The window `buf[..filled]` shows the file from `base` on. -/
def Shows (file buf : List UInt8) (base filled : Nat) : Prop :=
  ∀ s e, e ≤ filled → slice buf s e = slice file (base + s) (base + e)

/-- What a framing that was not refused says of the file. -/
structure Framing.Sound (file : List UInt8) (base filled fileLen off : Nat) (fr : Framing) : Prop where
  off_le : off ≤ fr.off
  le_filled : off ≤ filled → fr.off ≤ filled
  inside : ∀ s ∈ fr.spans, s.1 + HEADER_LEN ≤ s.2 ∧ s.2 ≤ fr.off
  whole : fr.shortBy = none → filled < fr.off + HEADER_LEN
  short : ∀ len, fr.shortBy = some len →
    fr.off + HEADER_LEN ≤ filled ∧ filled < fr.off + len ∧ base + fr.off + len ≤ fileLen
  framed : Framed file (base + off) (base + fr.off) (fr.spans.map (shiftSpan base))

theorem validLen_of_shows {file buf : List UInt8} {base filled off : Nat}
    (hs : Shows file buf base filled) (hbacked : base + filled ≤ file.length)
    (hroom : off + HEADER_LEN ≤ filled)
    (hlen : HEADER_LEN ≤ fromLe (slice buf (off + 8) (off + 16)))
    (hmod : fromLe (slice buf (off + 8) (off + 16)) % 4 = 0)
    (hfit : off + fromLe (slice buf (off + 8) (off + 16)) ≤ filled) :
    validLen file (base + off) = some (fromLe (slice buf (off + 8) (off + 16))) := by
  have h64 : off + 64 ≤ filled := hroom
  have heq := hs (off + 8) (off + 16) (by omega)
  rw [← add_assoc, ← add_assoc] at heq
  unfold validLen
  rw [← heq]
  exact if_pos ⟨hlen, hmod, by omega⟩

theorem frameFrom_sound {file buf : List UInt8} {base filled fileLen : Nat}
    (hs : Shows file buf base filled) (hbacked : base + filled ≤ file.length) :
    ∀ {fuel off : Nat} {fr : Framing}, filled < fuel + off →
      frameFrom buf base filled fileLen fuel off = some fr →
      fr.Sound file base filled fileLen off
  | 0, off, fr, hfuel, h => by
    cases h
    exact ⟨le_rfl, id, by simp, fun _ => Nat.lt_add_right _ (zero_add off ▸ hfuel), by simp, .nil⟩
  | fuel + 1, off, fr, hfuel, h => by
    unfold frameFrom at h
    split at h
    case isFalse hroom =>
      cases h
      exact ⟨le_rfl, id, by simp, fun _ => not_le.mp hroom, by simp, .nil⟩
    case isTrue hroom =>
    have h64 : off + 64 ≤ filled := hroom
    split at h
    case isFalse => cases h
    case isTrue hmagic =>
    rw [hs off (off + 8) (by omega), ← add_assoc] at hmagic
    dsimp only at h
    split at h
    case isTrue => cases h
    case isFalse hlen =>
    obtain ⟨hmin, hmod, hfile⟩ := not_or.mp hlen |>.imp id not_or.mp
    split at h
    case isTrue hshort =>
      cases h
      refine ⟨le_rfl, id, by simp, by simp, ?_, .nil⟩
      rintro len ⟨⟩
      exact ⟨hroom, hshort, not_lt.mp hfile⟩
    case isFalse hfit =>
      obtain ⟨rest, hrest, rfl⟩ := Option.map_eq_some_iff.mp h
      have hpos : 64 ≤ fromLe (slice buf (off + 8) (off + 16)) := not_lt.mp hmin
      have ih := frameFrom_sound hs hbacked (by omega) hrest
      have hvalid := validLen_of_shows hs hbacked hroom hpos (not_not.mp hmod) (by omega)
      refine ⟨(Nat.le_add_right _ _).trans ih.off_le, fun _ => ih.le_filled (by omega), ?_, ih.whole,
        ih.short, ?_⟩
      · intro s hmem
        rcases mem_cons.mp hmem with rfl | hmem
        · exact ⟨Nat.add_le_add_left hpos off, ih.off_le⟩
        · exact ih.inside s hmem
      · rw [map_cons, shiftSpan]
        have hframed := ih.framed
        rw [← add_assoc] at hframed ⊢
        exact .cons hmagic hvalid hframed

theorem windowPacket_eq {file buf : List UInt8} {base filled : Nat}
    (hs : Shows file buf base filled) {s : Nat × Nat} (hlen : s.1 + HEADER_LEN ≤ s.2)
    (hfit : s.2 ≤ filled) :
    windowPacket buf base s = rawPacket file (shiftSpan base s).1 (shiftSpan base s).2 := by
  have h64 : s.1 + 64 ≤ s.2 := hlen
  unfold windowPacket rawPacket shiftSpan
  simp only [add_assoc]
  rw [hs _ _ (by omega), hs _ _ (by omega), hs _ _ (by omega), hs _ _ hfit]

theorem verified_shows (md5 : List UInt8 → List UInt8) {file buf : List UInt8}
    {base filled off : Nat} (hs : Shows file buf base filled) (hoff : off ≤ filled)
    {s : Nat × Nat} (hlen : s.1 + HEADER_LEN ≤ s.2) (hfit : s.2 ≤ off) :
    verified md5 (buf.take off) s.1 s.2 =
      verified md5 file (shiftSpan base s).1 (shiftSpan base s).2 := by
  have h64 : s.1 + 64 ≤ s.2 := hlen
  have htake : ∀ a b, b ≤ off → slice (buf.take off) a b = slice file (base + a) (base + b) := by
    intro a b hb
    rw [← hs a b (by omega), slice, slice, take_take, min_eq_left hb]
  unfold verified shiftSpan
  simp only [add_assoc]
  rw [htake _ _ hfit, htake _ _ (by omega)]

/-! ## Rounds and runs -/

/-- What the loop keeps of its window. -/
structure Window.Inv (file : List UInt8) (fileLen : Nat) (w : Window) : Prop where
  backed : w.base + w.filled ≤ file.length
  filled_le : w.filled ≤ w.buf.length
  buf_le : w.buf.length ≤ fileLen
  room : HEADER_LEN ≤ w.buf.length ∨ w.buf.length = fileLen
  shows : Shows file w.buf w.base w.filled

/-- A successful read inside the first `fileLen` bytes returns the file's own bytes. -/
def Reads (read : Nat → Nat → Option (List UInt8)) (file : List UInt8) (fileLen : Nat) : Prop :=
  ∀ (off len : Nat) (bytes : List UInt8), off ≤ file.length → off + len ≤ fileLen →
    read off len = some bytes → off + len ≤ file.length ∧ bytes = slice file off (off + len)

theorem slice_take {content : List UInt8} {n a b : Nat} (h : b ≤ n) :
    slice (content.take n) a b = slice content a b := by
  rw [slice, slice, take_take, min_eq_left h]

theorem readExactAt_reads (content : List UInt8) (fails : Nat → Nat → Bool) (fileLen : Nat) :
    Reads (readExactAt content fails) (content.take fileLen) fileLen := by
  intro off len bytes hoff hfit h
  unfold readExactAt at h
  split at h
  case isTrue => cases h
  case isFalse hok =>
    cases h
    rw [length_take] at hoff ⊢
    exact ⟨by omega, (slice_take hfit).symm⟩

/-- The window once the read has filled it. -/
structure Filled (file : List UInt8) (fileLen : Nat) (w : Window) (buf : List UInt8)
    (filled : Nat) : Prop where
  length_eq : buf.length = w.buf.length
  backed : w.base + filled ≤ file.length
  filled_le : filled ≤ buf.length
  full : w.base + filled = fileLen ∨ filled = buf.length
  shows : Shows file buf w.base filled

theorem slice_append_left {xs ys : List UInt8} {a b : Nat} (h : b ≤ xs.length) :
    slice (xs ++ ys) a b = slice xs a b := by
  rw [slice, take_append_of_le_length h, slice]

theorem slice_slice {input : List UInt8} {a b s e : Nat} (h : a + e ≤ b) :
    slice (slice input a b) s e = slice input (a + s) (a + e) := by
  rw [slice, slice, slice, take_drop, take_take, drop_drop, min_eq_left h]

/-- A window extended by the bytes that follow it in the file. -/
theorem Shows.extend {file buf rest : List UInt8} {base filled want : Nat}
    (hs : Shows file buf base filled) (hbacked : base + filled + want ≤ file.length) :
    Shows file (buf.take filled ++ slice file (base + filled) (base + filled + want) ++ rest) base
      (filled + want) := by
  intro s e he
  have hhead : buf.take filled = slice file base (base + filled) := by
    have h := hs 0 filled le_rfl
    simpa only [slice, drop_zero, add_zero] using h
  have hwin : buf.take filled ++ slice file (base + filled) (base + filled + want) =
      slice file base (base + (filled + want)) := by
    rw [hhead, ← slice_append (by omega) (by omega), add_assoc]
  have hlen : (slice file base (base + (filled + want))).length = filled + want := by
    rw [length_slice (by omega)]
    omega
  rw [hwin, slice_append_left (by omega), slice_slice (by omega)]

theorem growBuf_append (buf : List UInt8) (shortBy : Option Nat) :
    ∃ zeros, growBuf buf shortBy = buf ++ zeros := by
  cases shortBy with
  | none => exact ⟨[], (append_nil buf).symm⟩
  | some len =>
    unfold growBuf
    dsimp only
    split
    case isTrue => exact ⟨_, rfl⟩
    case isFalse => exact ⟨[], (append_nil buf).symm⟩

theorem length_growBuf_some (buf : List UInt8) (len : Nat) :
    (growBuf buf (some len)).length = max buf.length len := by
  unfold growBuf
  dsimp only
  split
  case isTrue =>
    rw [length_append, length_replicate]
    omega
  case isFalse => omega

/-- The unfinished tail at the front shows the file from where the framing stopped. -/
theorem Shows.slide {file buf : List UInt8} {base filled : Nat} {fr : Framing}
    (hs : Shows file buf base filled) (hfilled : filled ≤ buf.length) :
    Shows file (slideWindow buf base filled fr).buf (base + fr.off) (filled - fr.off) := by
  intro s e he
  obtain ⟨zeros, hgrow⟩ := growBuf_append (slice buf fr.off filled ++ buf.drop (filled - fr.off))
    fr.shortBy
  have hlen : (slice buf fr.off filled).length = filled - fr.off := length_slice hfilled
  simp only [slideWindow, hgrow, append_assoc]
  rw [slice_append_left (by omega)]
  by_cases hoff : fr.off ≤ filled
  · rw [slice_slice (by omega), hs _ _ (by omega), add_assoc, add_assoc]
  · have he0 : e = 0 := by omega
    subst he0
    simp only [slice, take_zero, drop_nil, add_zero]
    exact (drop_eq_nil_of_le ((length_take_le _ _).trans (Nat.le_add_right _ _))).symm

theorem length_slideWindow {buf : List UInt8} {base filled : Nat} {fr : Framing}
    (hoff : fr.off ≤ filled) (hfilled : filled ≤ buf.length) :
    (slideWindow buf base filled fr).buf.length = max buf.length (fr.shortBy.getD 0) := by
  have hlen : (slice buf fr.off filled ++ buf.drop (filled - fr.off)).length = buf.length := by
    rw [length_append, length_slice hfilled, length_drop]
    omega
  cases hshort : fr.shortBy with
  | none =>
    simp only [slideWindow, hshort, growBuf, hlen, Option.getD_none]
    omega
  | some len =>
    simp only [slideWindow, hshort, length_growBuf_some, hlen, Option.getD_some]

section Rounds

variable (md5 : List UInt8 → List UInt8) {read : Nat → Nat → Option (List UInt8)}
  {file : List UInt8} {fileLen : Nat}

/-- The packets of a verified contiguous run of the file, as the walks emit them. -/
def Emitted (file : List UInt8) (a b : Nat) (packets : List RawPacket) : Prop :=
  ∃ spans, Framed file a b spans ∧ (∀ s ∈ spans, verified md5 file s.1 s.2 = true) ∧
    packets = spans.map fun s => rawPacket file s.1 s.2

/-- What a round does to a window in `Window.Inv`. -/
inductive RoundSpec (file : List UInt8) (fileLen : Nat) (w : Window) : Round → Prop
  | declined : RoundSpec file fileLen w .declined
  | finished {b : Nat} {packets : List RawPacket} (emitted : Emitted md5 file w.base b packets)
      (hend : file.length < b + HEADER_LEN) (hlen : fileLen = file.length) :
      RoundSpec file fileLen w (.finished packets)
  | further {w' : Window} {packets : List RawPacket}
      (emitted : Emitted md5 file w.base w'.base packets) (inv : w'.Inv file fileLen)
      (base_le : w.base ≤ w'.base) (buf_le : w.buf.length ≤ w'.buf.length)
      (progress : w.base < w'.base ∨ w.buf.length < w'.buf.length) :
      RoundSpec file fileLen w (.further packets w')

theorem Window.Inv.filled {w : Window} (hr : Reads read file fileLen) (hi : w.Inv file fileLen)
    (hlen : file.length ≤ fileLen) {want : Nat} {bytes : List UInt8}
    (hwant : want = min (w.buf.length - w.filled) (fileLen - w.base - w.filled))
    (hread : read (w.base + w.filled) want = some bytes) :
    Filled file fileLen w (w.buf.take w.filled ++ bytes ++ w.buf.drop (w.filled + want))
      (w.filled + want) := by
  have hb := hi.backed
  have hf := hi.filled_le
  obtain ⟨hfit, rfl⟩ := hr _ _ _ hb (by omega) hread
  have hlength : (w.buf.take w.filled ++ slice file (w.base + w.filled) (w.base + w.filled + want) ++
      w.buf.drop (w.filled + want)).length = w.buf.length := by
    simp only [length_append, length_take, length_drop, length_slice hfit]
    omega
  exact ⟨hlength, by omega, by omega, by omega, hi.shows.extend hfit⟩

/-- The packets of one framed window whose spans all verify. -/
theorem Framing.Sound.emitted {buf : List UInt8} {base filled : Nat} {fr : Framing}
    (hs : Shows file buf base filled) (hsound : fr.Sound file base filled fileLen 0)
    (hv : (fr.spans.all fun s => verified md5 (buf.take fr.off) s.1 s.2) = true) :
    Emitted md5 file base (base + fr.off) (fr.spans.map (windowPacket buf base)) := by
  have hoff := hsound.le_filled (Nat.zero_le _)
  refine ⟨fr.spans.map (shiftSpan base), hsound.framed, ?_, ?_⟩
  · intro t ht
    obtain ⟨s, hmem, rfl⟩ := mem_map.mp ht
    obtain ⟨hlen, hfit⟩ := hsound.inside s hmem
    rw [← verified_shows md5 hs hoff hlen hfit]
    exact all_eq_true.mp hv s hmem
  · rw [map_map]
    refine map_congr_left fun s hmem => ?_
    obtain ⟨hlen, hfit⟩ := hsound.inside s hmem
    exact windowPacket_eq hs hlen (hfit.trans hoff)

theorem roundFramed_spec {w : Window} (hi : w.Inv file fileLen) (hlen : file.length ≤ fileLen)
    {buf : List UInt8} {filled : Nat} (hf : Filled file fileLen w buf filled) {fr : Framing}
    (hsound : fr.Sound file w.base filled fileLen 0) :
    RoundSpec md5 file fileLen w (roundFramed md5 fileLen buf w.base filled fr) := by
  have hoff := hsound.le_filled (Nat.zero_le _)
  have hwhole := hsound.whole
  have hshort := hsound.short
  have hbacked := hf.backed
  unfold roundFramed
  split
  case isFalse => exact .declined
  case isTrue hv =>
  have hemit := hsound.emitted md5 hf.shows hv
  split
  case isTrue heof =>
    -- every declared length was held to the file, so nothing is short here
    have hnone : fr.shortBy = none := by
      cases hsb : fr.shortBy with
      | none => rfl
      | some len => have := hshort len hsb; omega
    have := hwhole hnone
    exact .finished hemit (by omega) (by omega)
  case isFalse heof =>
    have hfull := hf.full.resolve_left heof
    have hslide := @length_slideWindow buf w.base filled fr hoff hf.filled_le
    have hsame := hf.length_eq
    have hroom := hi.room.resolve_right fun h => by omega
    have hgrow : fr.shortBy.getD 0 ≤ fileLen := by
      cases hsb : fr.shortBy with
      | none => exact Nat.zero_le _
      | some len => have := hshort len hsb; exact show len ≤ fileLen by omega
    refine .further hemit ⟨?_, ?_, ?_, ?_, hf.shows.slide hf.filled_le⟩ ?_ ?_ ?_
    · show w.base + fr.off + (filled - fr.off) ≤ file.length
      omega
    · show filled - fr.off ≤ (slideWindow buf w.base filled fr).buf.length
      omega
    · omega
    · exact .inl (by omega)
    · exact Nat.le_add_right _ _
    · omega
    · -- a window full of bytes holds a header: its packet was whole, or asks for more room
      show w.base < w.base + fr.off ∨ _
      cases hsb : fr.shortBy with
      | none =>
        have := hwhole hsb
        omega
      | some len =>
        have := hshort len hsb
        rw [hsb, Option.getD_some] at hslide
        omega

theorem windowRound_spec {w : Window} (hr : Reads read file fileLen)
    (hlen : file.length ≤ fileLen) (hi : w.Inv file fileLen) :
    RoundSpec md5 file fileLen w (windowRound md5 read fileLen w) := by
  unfold windowRound
  dsimp only
  split
  case h_1 => exact .declined
  case h_2 bytes hread =>
  have hf := hi.filled hr hlen rfl hread
  split
  case h_1 => exact .declined
  case h_2 fr hfr =>
  exact roundFramed_spec md5 hi hlen hf (frameFrom_sound hf.shows hf.backed (by omega) hfr)

/-- Rounds left at most: each moves `base` on or makes the buffer longer, and both stay inside
the file. -/
def Window.left (fileLen : Nat) (w : Window) : Nat :=
  (fileLen - w.base) + (fileLen - w.buf.length)

/-- Whatever the reads do, the loop ends, and where it returns `Some` it has emitted a verified
contiguous run to the file's end. -/
theorem windowRun_spec (hr : Reads read file fileLen) (hlen : file.length ≤ fileLen) {w : Window}
    (hi : w.Inv file fileLen) :
    ∃ r, (∀ fuel, w.left fileLen < fuel → windowRun md5 read fileLen fuel w = some r) ∧
      (r.2 = some () → fileLen = file.length ∧
        ∃ b, Emitted md5 file w.base b r.1 ∧ file.length < b + HEADER_LEN) := by
  induction hn : w.left fileLen using Nat.strong_induction_on generalizing w with
  | _ n ih =>
    subst hn
    have hspec := windowRound_spec md5 hr hlen hi
    cases hround : windowRound md5 read fileLen w with
    | declined =>
      refine ⟨([], none), fun fuel hfuel => ?_, fun h => nomatch h⟩
      obtain ⟨fuel, rfl⟩ := Nat.exists_eq_add_of_lt hfuel
      simp only [windowRun, hround]
    | finished ps =>
      rw [hround] at hspec
      cases hspec with
      | finished emitted hend hfile =>
        refine ⟨(ps, some ()), fun fuel hfuel => ?_, fun _ => ⟨hfile, _, emitted, hend⟩⟩
        obtain ⟨fuel, rfl⟩ := Nat.exists_eq_add_of_lt hfuel
        simp only [windowRun, hround]
    | further ps w' =>
      rw [hround] at hspec
      cases hspec with
      | further emitted inv base_le buf_le progress =>
        have hb := inv.backed
        have hbuf := inv.buf_le
        have hless : w'.left fileLen < w.left fileLen := by
          unfold Window.left
          omega
        obtain ⟨r, hrun, hsome⟩ := ih _ hless inv rfl
        refine ⟨(ps ++ r.1, r.2), fun fuel hfuel => ?_, fun h => ?_⟩
        · obtain ⟨fuel, rfl⟩ := Nat.exists_eq_add_of_lt hfuel
          simp only [windowRun, hround]
          rw [hrun _ (by omega), Option.map_some]
        · obtain ⟨hfile, b, hrest, hend⟩ := hsome h
          obtain ⟨xs, hx, hxv, rfl⟩ := emitted
          obtain ⟨ys, hy, hyv, hys⟩ := hrest
          refine ⟨hfile, b, ⟨xs ++ ys, hx.append hy, ?_, ?_⟩, hend⟩
          · intro s hs
            exact (mem_append.mp hs).elim (hxv s) (hyv s)
          · rw [map_append, hys]

def WindowStep (read : Nat → Nat → Option (List UInt8)) (fileLen : Nat) (w w' : Window) : Prop :=
  ∃ ps, windowRound md5 read fileLen w = .further ps w'

theorem Window.Inv.step {w w' : Window} (hr : Reads read file fileLen)
    (hlen : file.length ≤ fileLen) (hi : w.Inv file fileLen)
    (h : WindowStep md5 read fileLen w w') :
    w'.Inv file fileLen ∧ (w.base < w'.base ∨ w.buf.length < w'.buf.length) := by
  obtain ⟨ps, hround⟩ := h
  have hspec := windowRound_spec md5 hr hlen hi
  rw [hround] at hspec
  cases hspec with
  | further _ inv _ _ progress => exact ⟨inv, progress⟩

theorem Window.Inv.steps {w w' : Window} (hr : Reads read file fileLen)
    (hlen : file.length ≤ fileLen) (hi : w.Inv file fileLen)
    (h : Relation.ReflTransGen (WindowStep md5 read fileLen) w w') : w'.Inv file fileLen := by
  induction h with
  | refl => exact hi
  | tail _ hstep ih => exact (ih.step md5 hr hlen hstep).1

theorem startWindow_inv (file : List UInt8) (fileLen window : Nat) (buf : List UInt8) :
    (startWindow fileLen window buf).Inv file fileLen := by
  have hlength : (startWindow fileLen window buf).buf.length = min (max window HEADER_LEN) fileLen := by
    unfold startWindow
    dsimp only
    split
    case isTrue h => rw [length_take, min_eq_left h]
    case isFalse h =>
      rw [length_append, length_replicate]
      omega
  refine ⟨Nat.zero_le _, Nat.zero_le _, by omega, by omega, ?_⟩
  intro s e he
  obtain rfl : e = 0 := Nat.le_zero.mp he
  simp only [startWindow, slice, take_zero, drop_nil, add_zero]

end Rounds

section Agreement

variable (md5 : List UInt8 → List UInt8)

/-- Where the windowed scan returns `Some`, its packets are those of the file it was told of. -/
theorem scanFileWindowedIn_spec (content : List UInt8) (fails : Nat → Nat → Bool)
    (fileLen window : Nat) (buf : List UInt8) :
    ∃ r, (∀ fuel, 2 * fileLen < fuel →
        scanFileWindowedIn md5 (readExactAt content fails) fileLen fuel window buf = some r) ∧
      (r.2 = some () → fileLen ≤ content.length ∧ r.1 = scanPackets md5 (content.take fileLen)) := by
  have hlen : (content.take fileLen).length ≤ fileLen := length_take_le _ _
  obtain ⟨r, hrun, hsome⟩ := windowRun_spec md5 (readExactAt_reads content fails fileLen) hlen
    (startWindow_inv (content.take fileLen) fileLen window buf)
  refine ⟨r, fun fuel hfuel => hrun fuel ?_, fun h => ?_⟩
  · unfold Window.left
    omega
  · obtain ⟨hfile, b, ⟨spans, hframed, hv, hps⟩, hend⟩ := hsome h
    have hspans := hframed.packetSpans_eq hend
    rw [length_take] at hfile
    refine ⟨by omega, ?_⟩
    rw [scanPackets_of_verified md5 (hspans ▸ hv), hspans, hps]

/-- **Every scanner finds the same packets.** The optimistic walk emits what the serial walk
emits. The windowed scan of a file ends within `2 * len + 1` rounds, whatever the window, the
buffer it was lent and the reads that fail; each of its rounds slides or grows the window; and
where it returns `Some` it emitted what the walk over the whole content emits. -/
theorem scanners_agree :
    (∀ input, scanPackets md5 input = (scanPacketsSerial md5 input).1) ∧
    ∀ (content : List UInt8) (fails : Nat → Nat → Bool) (window : Nat) (buf : List UInt8),
      (∃ emitted result,
        (∀ fuel, 2 * content.length < fuel →
          scanFileWindowedIn md5 (readExactAt content fails) content.length fuel window buf =
            some (emitted, result)) ∧
        (result = some () → emitted = scanPackets md5 content)) ∧
      ∀ w w', Relation.ReflTransGen (WindowStep md5 (readExactAt content fails) content.length)
          (startWindow content.length window buf) w →
        WindowStep md5 (readExactAt content fails) content.length w w' →
        w.base < w'.base ∨ w.buf.length < w'.buf.length := by
  refine ⟨scanPackets_eq_serial md5, fun content fails window buf => ⟨?_, ?_⟩⟩
  · obtain ⟨r, hrun, hsome⟩ := scanFileWindowedIn_spec md5 content fails content.length window buf
    refine ⟨r.1, r.2, hrun, fun h => ?_⟩
    rw [(hsome h).2, take_length]
  · intro w w' hreach hstep
    have hlen : (content.take content.length).length ≤ content.length := length_take_le _ _
    have hr := readExactAt_reads content fails content.length
    exact ((startWindow_inv _ _ window buf).steps md5 hr hlen hreach).step md5 hr hlen hstep |>.2

end Agreement

/-- A packet whose digest field is zero, with `body` behind its header. -/
def zeroPacket (body : List UInt8) : List UInt8 :=
  MAGIC ++ toLe64 (64 + body.length) ++ List.replicate 16 0 ++ List.replicate 32 7 ++ body

/-- Two packets, the second larger than the window, and three bytes behind them. -/
def zeroFile : List UInt8 := zeroPacket [] ++ zeroPacket [1, 2, 3, 4] ++ [5, 6, 7]

set_option maxRecDepth 10000 in
theorem scanners_agree_zeroFile :
    scanFileWindowedIn (fun _ => List.replicate 16 0) (readExactAt zeroFile fun _ _ => false)
        zeroFile.length 271 0 [9] =
      some (scanPackets (fun _ => List.replicate 16 0) zeroFile, some ()) := by
  obtain ⟨⟨emitted, result, hrun, hsome⟩, -⟩ :=
    (scanners_agree fun _ => replicate 16 0).2 zeroFile (fun _ _ => false) 0 [9]
  have hresult : (scanFileWindowedIn (fun _ => replicate 16 0)
      (readExactAt zeroFile fun _ _ => false) zeroFile.length 271 0 [9]).map (·.2) =
        some (some ()) := by
    decide
  have hend := hrun 271 (by decide)
  rw [hend, Option.map_some, Option.some.injEq] at hresult
  obtain rfl : result = some () := hresult
  rw [hend, hsome rfl]

end NzbFast.Par2
