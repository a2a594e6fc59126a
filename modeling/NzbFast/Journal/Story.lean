import NzbFast.Journal.Lines

/-!
# What a journal says

`story` is what the calls of a sequence of runs say: each article's last
placement, each slot's last name, the demotions in their order, the counts and
the crypt facts. `Heard` is what the reader makes of the same calls, and
`openResume_journal` connects it to the bytes: batching, several opens with
their own generation and file table, and the line grammar all come down to
`Heard.tell`, call by call.
-/

namespace NzbFast.Journal

open NzbFast.Rust Fold Replay WriteState
open List hiding le_of_lt lt_of_le_of_lt lt_trans

/-! ## The story -/

def Placing.placed (a : Placing) (mask : Option (List Bool)) (crc : Option UInt32) : Placed where
  slot := a.slot
  frags := a.frags
  cryptoFrag := (List.range a.frags.length).map fun i => (mask.map (markOf · i)).getD false
  crypto := mask.isSome
  crc := crc

namespace Records

def nameSlot (r : Records) (slot : UInt64) : Option (Text × UInt64) → Records
  | some d => { r with slotMeta := r.slotMeta.insert slot d }
  | none => r

def event (r : Records) : CryptoEvent → Records
  | .params name salt lg2 iv unp check => r.crypt name fun m =>
      { m with salt := salt, lg2 := lg2, iv := iv, unp := unp, check := check }
  | .checkpoint name off block => r.crypt name fun m =>
      { m with checkpoints := m.checkpoints.insert off block }
  | .tailPad name pad => r.crypt name fun m => { m with pad := some pad }

section Tell

variable (sha256 : List UInt8 → Bytes 32) (windows : Bool)

/-- A placement call: the slot's name if the run has not told it, and the article's last
placement, with the checksum of this call. -/
def place (t : Tables) (r : Records) (a : Placing) (mask : Option (List Bool)) : Records :=
  if a.frags = [] then r
  else
    let r := r.nameSlot a.slot (destination sha256 windows t a)
    { r with placed := r.placed.insert a.id (a.placed mask a.crc) }

/-- What a call says, at the run's tables. -/
def tell (t : Tables) (r : Records) : Call → Records
  | .record id => { r with completed := insert id r.completed }
  | .recordPlaced a => r.place sha256 windows t a none
  | .recordPlacedCrypto a mask => r.place sha256 windows t a (some mask)
  | .recordMaterialized slot name size => (r.nameSlot slot (some (name, size))).materialize slot name
  | .recordNameVotes slot votes =>
    (votes.filter writableVote).foldl (fun r v => r.vote slot v.1 v.2) r
  | .recordCryptoEvents events => events.foldl event r
  | .flush => r

def tellAll (t : Tables) (r : Records) : List (Call × Bool) → Records
  | [] => r
  | c :: cs => tellAll (callLines sha256 windows t c.1).2 (r.tell sha256 windows t c.1) cs

end Tell

end Records

section Runs

variable (sha256 : List UInt8 → Bytes 32) (windows : Bool)

def story (runs : List Run) : Records :=
  runs.foldl (fun r run => r.tellAll sha256 windows {} run.calls) {}

/-! ## The lines of a journal -/

def linesOf (t : Tables) : List (Call × Bool) → List Text
  | [] => []
  | c :: cs => (callLines sha256 windows t c.1).1 ++ linesOf (callLines sha256 windows t c.1).2 cs

def Run.lines (run : Run) : List Text :=
  generationLine run.generation :: linesOf sha256 windows {} run.calls

end Runs

theorem image_append (ls ms : List Text) : image (ls ++ ms) = image ls ++ image ms :=
  flatMap_append

variable {ls : List Text} {frags : List Frag} {r : Replay} {t : Tables}

theorem getLast_image (h : ls ≠ []) : (image ls).getLast? = some 0x0A := by
  obtain ⟨init, l, rfl⟩ := eq_nil_or_concat ls |>.resolve_left h
  simp [image]

theorem utf8Lines_image (h : ∀ l ∈ ls, OneLine l) : utf8Lines (image ls) = ls := by
  induction ls with
  | nil => rfl
  | cons l ls ih =>
    rw [show image (l :: ls) = encode l ++ 0x0A :: image ls by simp [image],
      utf8Lines_line (h l (by simp)), ih fun x hx => h x (by simp [hx])]

variable {sha256 : List UInt8 → Bytes 32} {windows : Bool}

theorem WriteState.call_tables (w : WriteState) (c : Call × Bool) :
    (w.call sha256 windows c).tables = (callLines sha256 windows w.tables c.1).2 := by
  obtain ⟨c, aged⟩ := c
  cases c <;> simp only [call] <;>
    (try split) <;> (try rfl) <;> simp only [queue] <;> split <;> rfl

theorem WriteState.call_bytes (w : WriteState) (c : Call × Bool) :
    (w.call sha256 windows c).file ++ (w.call sha256 windows c).pending =
      w.file ++ w.pending ++ image (callLines sha256 windows w.tables c.1).1 := by
  have hqueue : ∀ (w : WriteState) rec aged, (w.queue rec aged).file ++ (w.queue rec aged).pending =
      w.file ++ w.pending ++ rec := by
    intro w rec aged
    simp only [queue]
    split <;> simp [flush]
  have hland : ∀ (w : WriteState) rec, (w.land rec).file ++ (w.land rec).pending =
      w.file ++ w.pending ++ rec := by
    intro w rec
    simp [land, flush]
  have hskip : ∀ {ls : List Text}, ls = [] → w.file ++ w.pending = w.file ++ w.pending ++ image ls := by
    simp [image]
  obtain ⟨c, aged⟩ := c
  cases c with
  | flush => simp [call, flush, callLines, image]
  | record _ | recordPlaced _ | recordPlacedCrypto _ _ =>
    simp only [call]
    split
    case isTrue h => exact hskip h
    case isFalse => exact hqueue _ _ _
  | recordMaterialized _ _ _ | recordNameVotes _ _ | recordCryptoEvents _ =>
    simp only [call]
    split
    case isTrue h => exact hskip h
    case isFalse => exact hland _ _

theorem WriteState.calls_bytes (w : WriteState) (cs : List (Call × Bool)) :
    (cs.foldl (WriteState.call sha256 windows) w).flush.file =
      w.file ++ w.pending ++ image (linesOf sha256 windows w.tables cs) := by
  induction cs generalizing w with
  | nil => simp [flush, linesOf, image]
  | cons c cs ih =>
    rw [foldl_cons, ih, call_bytes, call_tables, linesOf, image_append, append_assoc]

theorem runFile_image (fp : Bytes 16) (h : ∀ l ∈ ls, OneLine l) (run : Run) :
    runFile sha256 windows fp (image (header fp :: ls)) run =
      image (header fp :: (ls ++ run.lines sha256 windows)) := by
  have hlines : utf8Lines (image (header fp :: ls)) = header fp :: ls := by
    refine utf8Lines_image fun l hl => ?_
    rcases mem_cons.mp hl with rfl | hl
    · exact oneLine_header fp
    · exact h l hl
  have hend : endLine (image (header fp :: ls)) = image (header fp :: ls) := by
    rw [endLine, if_neg]
    exact fun hne => hne.2 (getLast_image (by simp))
  rw [runFile, calls_bytes, append_nil, openFile, headed, hlines]
  simp only [head?_cons, decide_true, if_true, hend, ← image_append]
  simp [Run.lines]

theorem runFile_nil (fp : Bytes 16) (run : Run) :
    runFile sha256 windows fp [] run = image (header fp :: run.lines sha256 windows) := by
  have hend : endLine (image [header fp]) = image [header fp] := by
    rw [endLine, if_neg]
    exact fun hne => hne.2 (getLast_image (by simp))
  rw [runFile, calls_bytes, append_nil, openFile]
  simp only [headed, utf8Lines, readLines, filterMap_nil, head?_nil, hend, if_true,
    reduceCtorEq, decide_false, Bool.false_eq_true, if_false, ← image_append]
  simp [Run.lines]

theorem journal_image (fp : Bytes 16) {runs : List Run} (hne : runs ≠ [])
    (h : ∀ run ∈ runs, ∀ l ∈ run.lines sha256 windows, OneLine l) :
    journal sha256 windows fp runs =
      image (header fp :: runs.flatMap (Run.lines sha256 windows)) := by
  obtain ⟨run, runs, rfl⟩ := exists_cons_of_ne_nil hne
  have hgen : ∀ (runs : List Run) (ls : List Text), (∀ l ∈ ls, OneLine l) →
      (∀ run ∈ runs, ∀ l ∈ run.lines sha256 windows, OneLine l) →
      runs.foldl (runFile sha256 windows fp) (image (header fp :: ls)) =
        image (header fp :: (ls ++ runs.flatMap (Run.lines sha256 windows))) := by
    intro runs
    induction runs with
    | nil => simp
    | cons run runs ih =>
      intro ls hls hruns
      rw [foldl_cons, runFile_image fp hls, ih]
      · rw [flatMap_cons, append_assoc]
      · intro l hl
        rcases mem_append.mp hl with hl | hl
        · exact hls l hl
        · exact hruns run (by simp) l hl
      · exact fun run hr => hruns run (by simp [hr])
  rw [journal, foldl_cons, runFile_nil, hgen runs _ (h run (by simp)) fun run hr =>
    h run (by simp [hr]), flatMap_cons]

/-! ## What is heard -/

/-- The reader's tables without the file table. -/
structure Heard where
  recs : Records := {}
  digests : Table Text UInt32 := ∅

namespace Heard

/-- The digests once a call's `H` line is read. -/
def digestsOf (digests : Table Text UInt32) (a : Placing) : Table Text UInt32 :=
  match a.crc with
  | some crc => if a.id = [] then digests else digests.insert a.id crc
  | none => digests

section Tell

variable (sha256 : List UInt8 → Bytes 32) (windows : Bool)

/-- A placement call as it is heard: an empty id and an empty fragment make the line unreadable,
and the checksum is the last one written for the id. -/
def place (t : Tables) (h : Heard) (a : Placing) (mask : Option (List Bool)) : Heard :=
  if a.frags = [] then h
  else
    let recs := h.recs.nameSlot a.slot (destination sha256 windows t a)
    let digests := digestsOf h.digests a
    if a.id = [] ∨ ∃ f ∈ a.frags, f.len = 0 then ⟨recs, digests⟩
    else ⟨{ recs with placed := recs.placed.insert a.id (a.placed mask (digests.lookup a.id)) }, digests⟩

def tell (t : Tables) (h : Heard) : Call → Heard
  | .record id => if id = [] then h else { h with recs := h.recs.tell sha256 windows t (.record id) }
  | .recordPlaced a => h.place sha256 windows t a none
  | .recordPlacedCrypto a mask => h.place sha256 windows t a (some mask)
  | c => { h with recs := h.recs.tell sha256 windows t c }

def tellAll (t : Tables) (h : Heard) : List (Call × Bool) → Heard
  | [] => h
  | c :: cs => tellAll (callLines sha256 windows t c.1).2 (h.tell sha256 windows t c.1) cs

end Tell

/-- The reader's state after the lines of calls: what was heard, and the run's file table. -/
structure At (t : Tables) (h : Heard) (r : Replay) : Prop where
  recs : r.recs = h.recs
  digests : r.digests = h.digests
  files : ∀ i name, t.files[i]? = some name → r.ftable.lookup (UInt64.ofNat i) = some name

end Heard

def Replay.reads (sha256 : List UInt8 → Bytes 32) (windows : Bool) (r : Replay)
    (lines : List Text) : Option Replay :=
  lines.foldlM (Replay.step sha256 windows) r

theorem Replay.reads_append {r r' : Replay} {ls ms : List Text}
    (h : r.reads sha256 windows ls = some r') :
    r.reads sha256 windows (ls ++ ms) = r'.reads sha256 windows ms := by
  unfold reads at h ⊢
  rw [foldlM_append, h]
  rfl

theorem Replay.reads_cons {r : Replay} {l : Text} {line : Line} {ls : List Text}
    (h : parseLine sha256 windows l = some line) :
    r.reads sha256 windows (l :: ls) = (r.apply line).reads sha256 windows ls := by
  unfold reads
  rw [foldlM_cons, step, h]
  rfl

/-! ## Files -/

theorem internFile_spec {files : List Text} {name : Text} :
    files <+: (internFile files name).1 ∧
      (internFile files name).1[(internFile files name).2.2]? = some name := by
  unfold internFile
  split
  case isTrue h =>
    refine ⟨prefix_rfl, ?_⟩
    rw [getElem?_eq_getElem (idxOf_lt_length_of_mem h), getElem_idxOf]
  case isFalse => exact ⟨prefix_append _ _, by simp⟩

/-- The table grows at its end, and holds the file of each fragment at its index. -/
theorem internFiles_spec (files : List Text) (frags : List Frag) :
    files <+: (internFiles files frags).1 ∧
      List.Forall₂ (fun i (f : Frag) => (internFiles files frags).1[i]? = some f.file)
        (internFiles files frags).2.2 frags := by
  induction frags generalizing files with
  | nil => exact ⟨prefix_rfl, .nil⟩
  | cons f fs ih =>
    obtain ⟨hfile, hget⟩ := @internFile_spec files f.file
    obtain ⟨hfiles, hall⟩ := ih (internFile files f.file).1
    obtain ⟨rest, hrest⟩ := hfiles
    have hf : (internFiles (internFile files f.file).1 fs).1[(internFile files f.file).2.2]? =
        some f.file := by
      rw [← hrest, getElem?_append_left (List.getElem?_eq_some_iff.mp hget).1, hget]
    exact ⟨hfile.trans ⟨rest, hrest⟩, .cons hf hall⟩

/-- The `F` lines of a call extend the reader's file table as they extend the writer's. -/
theorem reads_internFiles {files : List Text} {frags : List Frag} {r : Replay}
    (hclean : ∀ f ∈ frags, Clean sha256 windows f.file)
    (hlen : (internFiles files frags).1.length ≤ 2 ^ 64)
    (hr : ∀ i name, files[i]? = some name → r.ftable.lookup (UInt64.ofNat i) = some name) :
    ∃ ft, r.reads sha256 windows (internFiles files frags).2.1 = some { r with ftable := ft } ∧
      ∀ i name, (internFiles files frags).1[i]? = some name →
        ft.lookup (UInt64.ofNat i) = some name := by
  induction frags generalizing files r with
  | nil => exact ⟨r.ftable, rfl, hr⟩
  | cons f fs ih =>
    have hfs := (internFiles_spec (internFile files f.file).1 fs).1.length_le
    have hih := @ih (internFile files f.file).1
    simp only [internFiles] at hlen ⊢
    by_cases hmem : f.file ∈ files
    · have he : internFile files f.file = (files, [], files.idxOf f.file) := if_pos hmem
      rw [he] at hih hlen ⊢
      exact hih (fun f hf => hclean f (by simp [hf])) hlen hr
    · have he : internFile files f.file =
          (files ++ [f.file], [fileLine files.length f.file], files.length) := if_neg hmem
      rw [he] at hih hlen hfs ⊢
      rw [length_append, length_singleton] at hfs
      have hidx : files.length < 2 ^ 64 := by omega
      have hcons := @Replay.reads_cons sha256 windows r _ _ (internFiles (files ++ [f.file]) fs).2.1
        (parseLine_fileLine hidx (hclean f (by simp)))
      rw [singleton_append, hcons]
      refine hih (fun f hf => hclean f (by simp [hf])) hlen ?_
      intro i name hi
      show Finmap.lookup _ (Finmap.insert _ _ _) = _
      rw [Table.lookup_insert_eq_ite]
      rw [getElem?_append] at hi
      split at hi
      case isTrue hlt =>
        rw [if_neg, hr i name hi]
        intro heq
        have hi64 : i < UInt64.size := lt_trans hlt hidx
        have := congrArg UInt64.toNat heq
        rw [UInt64.toNat_ofNat_of_lt' hi64, UInt64.toNat_ofNat_of_lt' hidx] at this
        omega
      case isFalse hge =>
        have h0 : i - files.length = 0 := by
          by_contra hne
          obtain ⟨k, hk⟩ := Nat.exists_eq_succ_of_ne_zero hne
          simp [hk] at hi
        have hif : i = files.length := by omega
        subst hif
        simp at hi
        rw [if_pos rfl, hi]

/-! ## Placements -/

theorem mapM_resolve {files : List Text} {ft : Table UInt64 Text} {fidxs : List Nat}
    (hft : ∀ i name, files[i]? = some name → ft.lookup (UInt64.ofNat i) = some name)
    (hall : List.Forall₂ (fun i (f : Frag) => files[i]? = some f.file) fidxs frags)
    (mask : Option (List Bool)) :
    (rawFrags fidxs frags mask).mapM (Replay.resolve ft) = some frags := by
  obtain ⟨hlen, hzip⟩ := forall₂_iff_zip.mp hall
  have hpart : ∀ x ∈ (fidxs.zip frags).zipIdx, (resolve ft ∘ fun x =>
      rawFrag x.1.1 x.1.2 (mask.map (markOf · x.2))) x =
      if False then none else some x.1.2 := by
    intro x hx
    obtain ⟨-, -, hget⟩ := mem_zipIdx hx
    have hmem : (x.1.1, x.1.2) ∈ fidxs.zip frags := by
      rw [Prod.mk.eta, hget]
      exact getElem_mem _
    simp only [Function.comp_apply, resolve, rawFrag, hft _ _ (hzip hmem), Option.map_some,
      if_false]
  rw [rawFrags, mapM_map, mapM_eq_ite hpart, if_neg (by simp)]
  have hfst : (fidxs.zip frags).zipIdx.map (fun x => x.1.2) =
      ((fidxs.zip frags).zipIdx.map Prod.fst).map Prod.snd := by rw [map_map]; rfl
  rw [hfst, zipIdx_map_fst, map_snd_zip (by omega)]

theorem cryptoFrag_rawFrags {fidxs : List Nat} (hlen : fidxs.length = frags.length)
    (mask : Option (List Bool)) :
    (rawFrags fidxs frags mask).map (·.cryptoFrag) =
      (List.range frags.length).map fun i => (mask.map (markOf · i)).getD false := by
  have hsnd : (fidxs.zip frags).zipIdx.map Prod.snd = range frags.length := by
    rw [zipIdx_map_snd, length_zip, hlen, min_self, range_eq_range']
  rw [rawFrags, map_map, ← hsnd, map_map]
  rfl

/-- What the claim grants of a placement call. -/
structure Placing.Ok (sha256 : List UInt8 → Bytes 32) (windows : Bool) (a : Placing) : Prop where
  id : OneLine a.id
  dest : Clean sha256 windows (a.slotFile.elim a.name (·.1))
  files : ∀ f ∈ a.frags, Clean sha256 windows f.file

theorem reads_nameSlot {dest : Option (Text × UInt64)}
    (hclean : ∀ d ∈ dest, Clean sha256 windows d.1) (r : Replay) (slot : UInt64) :
    r.reads sha256 windows (dest.map fun d => slotLine slot d.2 d.1).toList =
      some { r with recs := r.recs.nameSlot slot dest } := by
  cases dest with
  | none => rfl
  | some d =>
    rw [Option.map_some, Option.toList_some,
      reads_cons (parseLine_slotLine slot d.2 (hclean d rfl))]
    rfl

theorem reads_digest (r : Replay) (a : Placing) :
    r.reads sha256 windows (a.crc.map fun c => digestLine c a.id).toList =
      some { r with digests := Heard.digestsOf r.digests a } := by
  unfold Heard.digestsOf
  cases a.crc with
  | none => rfl
  | some crc =>
    rw [Option.map_some, Option.toList_some, reads_cons (parseLine_digestLine crc a.id)]
    split <;> rfl

theorem files_named (t : Tables) (slot : UInt64) (dest : Option (Text × UInt64)) :
    (t.named slot dest).files = t.files := by
  cases dest <;> rfl

variable {h : Heard}

/-- A placement call: its lines are read as it is heard. -/
theorem reads_recordLetter {a : Placing} {mask : Option (List Bool)} (ha : a.Ok sha256 windows)
    (hlen : (recordLetter sha256 windows t a mask).2.files.length ≤ 2 ^ 64) (hr : h.At t r) :
    ∃ r', r.reads sha256 windows (recordLetter sha256 windows t a mask).1 = some r' ∧
      (h.place sha256 windows t a mask).At (recordLetter sha256 windows t a mask).2 r' := by
  unfold Heard.place
  unfold recordLetter at hlen ⊢
  by_cases hnil : a.frags = []
  · simp only [if_pos hnil]
    exact ⟨r, rfl, hr⟩
  simp only [if_neg hnil, files_named] at hlen ⊢
  obtain ⟨hpre, hall⟩ := internFiles_spec t.files a.frags
  obtain ⟨ft, hreads, hft⟩ := @reads_internFiles sha256 windows t.files a.frags
    { r with recs := r.recs.nameSlot a.slot (destination sha256 windows t a) } ha.files hlen hr.files
  have hdest : ∀ d ∈ destination sha256 windows t a, Clean sha256 windows d.1 := fun d hd =>
    clean_destination ha.dest hd
  have hslot := reads_nameSlot hdest r a.slot
  have hidx : ∀ i ∈ (internFiles t.files a.frags).2.2, i < 2 ^ 64 := by
    intro i hi
    obtain ⟨k, hk, rfl⟩ := mem_iff_getElem.mp hi
    have hf := (forall₂_iff_get.mp hall).2 k hk (hall.length_eq ▸ hk)
    exact lt_of_lt_of_le (List.getElem?_eq_some_iff.mp hf).1 hlen
  have hplaced := @parseLine_placedLine sha256 windows _ _ hall.length_eq hnil hidx a.slot a.id mask
  rw [append_assoc, append_assoc, reads_append hslot, reads_append hreads,
    reads_append (reads_digest _ a), reads_cons hplaced]
  refine ⟨_, rfl, ?_⟩
  by_cases hbad : a.id = [] ∨ ∃ f ∈ a.frags, f.len = 0
  · simp only [if_pos hbad]
    refine ⟨?_, ?_, hft⟩
    · simp only [apply, hr.recs]
    · simp only [apply, hr.digests]
  · simp only [if_neg hbad, apply, mapM_resolve hft hall mask, cryptoFrag_rawFrags hall.length_eq]
    refine ⟨?_, ?_, hft⟩
    · simp only [hr.recs, hr.digests]
      rfl
    · simp only [hr.digests]

/-! ## Calls -/

/-- What is granted of a call: ids and names that their lines can hold, names that the sanitizer
leaves alone. -/
def Call.Ok (sha256 : List UInt8 → Bytes 32) (windows : Bool) : Call → Prop
  | .record id => IdOk id
  | .recordPlaced a => a.Ok sha256 windows
  | .recordPlacedCrypto a _ => a.Ok sha256 windows
  | .recordMaterialized _ name _ => Clean sha256 windows name
  | .recordNameVotes _ _ => True
  | .recordCryptoEvents events => ∀ e ∈ events, Clean sha256 windows e.name
  | .flush => True

theorem reads_votes (r : Replay) (slot : UInt64) {votes : List (Text × UInt32)}
    (h : ∀ v ∈ votes, writableVote v = true) :
    r.reads sha256 windows (votes.map fun v => voteLine slot v.2 v.1) =
      some { r with recs := votes.foldl (fun r v => r.vote slot v.1 v.2) r.recs } := by
  induction votes generalizing r with
  | nil => rfl
  | cons v votes ih =>
    have hne : v.1 ≠ [] := (of_decide_eq_true (h v (by simp))).1
    rw [map_cons, reads_cons (parseLine_voteLine slot v.2 hne),
      ih _ fun v hv => h v (by simp [hv])]
    rfl

theorem reads_events (r : Replay) {events : List CryptoEvent}
    (h : ∀ e ∈ events, Clean sha256 windows e.name) :
    r.reads sha256 windows (events.map eventLine) =
      some { r with recs := events.foldl Records.event r.recs } := by
  induction events generalizing r with
  | nil => rfl
  | cons e events ih =>
    rw [map_cons, reads_cons (parseLine_eventLine (h e (by simp))),
      ih _ fun e he => h e (by simp [he])]
    cases e <;> rfl

/-- A demotion restates the slot's name and rewrites what was placed before it. -/
theorem reads_materialized (r : Replay) (t : Tables) (slot size : UInt64) {name : Text}
    (h : Clean sha256 windows name) :
    r.reads sha256 windows (materializedLines sha256 windows t slot name size).1 =
      some { r with recs := (r.recs.nameSlot slot (some (name, size))).materialize slot name } := by
  have hname : sanitizeOutName sha256 windows name = name := h
  simp only [materializedLines, hname, if_neg h.ne_nil]
  rw [reads_cons (parseLine_slotLine slot size h), reads_cons (parseLine_materializedLine slot)]
  simp only [apply, Finmap.lookup_insert]
  rfl

theorem files_materialized (t : Tables) (slot size : UInt64) (name : Text) :
    (materializedLines sha256 windows t slot name size).2.files = t.files := by
  simp only [materializedLines]
  split <;> rfl

theorem reads_call {c : Call} (hc : c.Ok sha256 windows)
    (hlen : (callLines sha256 windows t c).2.files.length ≤ 2 ^ 64) (hr : h.At t r) :
    ∃ r', r.reads sha256 windows (callLines sha256 windows t c).1 = some r' ∧
      (h.tell sha256 windows t c).At (callLines sha256 windows t c).2 r' := by
  cases c with
  | record id =>
    refine ⟨_, reads_cons (parseLine_article hc), ?_⟩
    by_cases hid : id = []
    · simp only [Heard.tell, if_pos hid]
      exact hr
    · simp only [Heard.tell, if_neg hid]
      exact ⟨by simp only [apply, Records.tell, hr.recs], hr.digests, hr.files⟩
  | recordPlaced a => exact reads_recordLetter hc hlen hr
  | recordPlacedCrypto a mask => exact reads_recordLetter hc hlen hr
  | recordMaterialized slot name size =>
    refine ⟨_, reads_materialized r t slot size hc, ?_⟩
    exact ⟨by simp only [Heard.tell, Records.tell, hr.recs], hr.digests,
      fun i n hi => hr.files i n (files_materialized t slot size name ▸ hi)⟩
  | recordNameVotes slot votes =>
    refine ⟨_, reads_votes r slot fun v hv => (mem_filter.mp hv).2, ?_⟩
    exact ⟨by simp only [Heard.tell, Records.tell, hr.recs], hr.digests, hr.files⟩
  | recordCryptoEvents events =>
    refine ⟨_, reads_events r hc, ?_⟩
    exact ⟨by simp only [Heard.tell, Records.tell, hr.recs], hr.digests, hr.files⟩
  | flush => exact ⟨r, rfl, hr⟩

/-! ## Runs -/

section Runs

variable (sha256 : List UInt8 → Bytes 32) (windows : Bool)

def tablesAfter (t : Tables) : List (Call × Bool) → Tables
  | [] => t
  | c :: cs => tablesAfter (callLines sha256 windows t c.1).2 cs

/-- A run as it is granted; the length of a hash map is a `usize`. -/
structure Run.Ok (run : Run) : Prop where
  calls : ∀ c ∈ run.calls, c.1.Ok sha256 windows
  files : (tablesAfter sha256 windows {} run.calls).files.length < 2 ^ 64

def heard (runs : List Run) : Heard :=
  runs.foldl (fun h run => h.tellAll sha256 windows {} run.calls) {}

end Runs

theorem files_callLines (t : Tables) (c : Call) :
    t.files <+: (callLines sha256 windows t c).2.files := by
  have hplaced : ∀ a mask, t.files <+: (recordLetter sha256 windows t a mask).2.files := by
    intro a mask
    simp only [recordLetter]
    split
    · exact prefix_rfl
    · rw [files_named]
      exact (internFiles_spec t.files a.frags).1
  cases c with
  | recordPlaced a => exact hplaced a none
  | recordPlacedCrypto a mask => exact hplaced a (some mask)
  | recordMaterialized slot name size =>
    show t.files <+: (materializedLines sha256 windows t slot name size).2.files
    rw [files_materialized]
  | record _ | recordNameVotes _ _ | recordCryptoEvents _ | flush => exact prefix_rfl

theorem files_tablesAfter (t : Tables) (cs : List (Call × Bool)) :
    t.files <+: (tablesAfter sha256 windows t cs).files := by
  induction cs generalizing t with
  | nil => exact prefix_rfl
  | cons c cs ih => exact (files_callLines t c.1).trans (ih _)

theorem reads_calls {cs : List (Call × Bool)} (hcs : ∀ c ∈ cs, c.1.Ok sha256 windows)
    (hlen : (tablesAfter sha256 windows t cs).files.length < 2 ^ 64) (hr : h.At t r) :
    ∃ r', r.reads sha256 windows (linesOf sha256 windows t cs) = some r' ∧
      r'.recs = (h.tellAll sha256 windows t cs).recs ∧
      r'.digests = (h.tellAll sha256 windows t cs).digests := by
  induction cs generalizing t h r with
  | nil => exact ⟨r, rfl, hr.recs, hr.digests⟩
  | cons c cs ih =>
    have hle := (@files_tablesAfter sha256 windows (callLines sha256 windows t c.1).2 cs).length_le
    obtain ⟨r₁, hr₁, hat⟩ := reads_call (hcs c (by simp)) (le_of_lt (lt_of_le_of_lt hle hlen)) hr
    rw [linesOf, reads_append hr₁]
    exact ih (fun c hc => hcs c (by simp [hc])) hlen hat

/-- A run starts a file table of its own. -/
theorem reads_run {run : Run} (hrun : run.Ok sha256 windows) (hrecs : r.recs = h.recs)
    (hdigests : r.digests = h.digests) :
    ∃ r', r.reads sha256 windows (run.lines sha256 windows) = some r' ∧
      r'.recs = (h.tellAll sha256 windows {} run.calls).recs ∧
      r'.digests = (h.tellAll sha256 windows {} run.calls).digests := by
  exact reads_calls hrun.calls hrun.files ⟨hrecs, hdigests, fun i name hi => by simp at hi⟩

theorem reads_runs {h : Heard} {r : Replay} {runs : List Run}
    (hruns : ∀ run ∈ runs, run.Ok sha256 windows)
    (hrecs : r.recs = h.recs) (hdigests : r.digests = h.digests) :
    ∃ r', r.reads sha256 windows (runs.flatMap (Run.lines sha256 windows)) = some r' ∧
      r'.recs = (runs.foldl (fun h run => h.tellAll sha256 windows {} run.calls) h).recs := by
  induction runs generalizing h r with
  | nil => exact ⟨r, rfl, hrecs⟩
  | cons run runs ih =>
    obtain ⟨r₁, hr₁, hrecs₁, hdigests₁⟩ := reads_run (hruns run (by simp)) hrecs hdigests
    rw [flatMap_cons, reads_append hr₁]
    exact ih (fun run hr => hruns run (by simp [hr])) hrecs₁ hdigests₁

theorem oneLine_internFiles {files : List Text} (h : ∀ f ∈ frags, Clean sha256 windows f.file) :
    ∀ l ∈ (internFiles files frags).2.1, OneLine l := by
  induction frags generalizing files with
  | nil => intro l hl; cases hl
  | cons f fs ih =>
    intro l hl
    have hsplit : l ∈ (internFile files f.file).2.1 ++
        (internFiles (internFile files f.file).1 fs).2.1 := hl
    rcases mem_append.mp hsplit with hl | hl
    · unfold internFile at hl
      split at hl
      · cases hl
      · rw [mem_singleton.mp hl]
        exact oneLine_fileLine _ (h f (by simp)).oneLine
    · exact ih (fun f hf => h f (by simp [hf])) l hl

theorem oneLine_recordLetter {a : Placing} {mask : Option (List Bool)} (ha : a.Ok sha256 windows) :
    ∀ l ∈ (recordLetter sha256 windows t a mask).1, OneLine l := by
  simp only [recordLetter]
  split
  · intro l hl; cases hl
  intro l hl
  simp only [mem_append, Option.mem_toList, Option.map_eq_some_iff, mem_singleton] at hl
  rcases hl with ((⟨d, hd, rfl⟩ | hl) | ⟨c, -, rfl⟩) | rfl
  · exact oneLine_slotLine _ _ (clean_destination ha.dest hd).oneLine
  · exact oneLine_internFiles ha.files l hl
  · exact oneLine_digestLine _ ha.id
  · exact oneLine_placedLine _ ha.id _ _ _

theorem oneLine_callLines {c : Call} (hc : c.Ok sha256 windows) :
    ∀ l ∈ (callLines sha256 windows t c).1, OneLine l := by
  intro l hl
  cases c with
  | record id => rw [show l = id from mem_singleton.mp hl]; exact hc.oneLine
  | recordPlaced a => exact oneLine_recordLetter hc l hl
  | recordPlacedCrypto a mask => exact oneLine_recordLetter hc l hl
  | recordMaterialized slot name size =>
    have hname : sanitizeOutName sha256 windows name = name := hc
    simp only [callLines, materializedLines, hname, if_neg (Clean.ne_nil hc), mem_cons,
      not_mem_nil, or_false] at hl
    rcases hl with rfl | rfl
    · exact oneLine_slotLine _ _ (Clean.oneLine hc)
    · exact oneLine_materializedLine _
  | recordNameVotes slot votes =>
    obtain ⟨v, hv, rfl⟩ := mem_map.mp hl
    exact oneLine_voteLine slot (mem_filter.mp hv).2
  | recordCryptoEvents events =>
    obtain ⟨e, he, rfl⟩ := mem_map.mp hl
    exact oneLine_eventLine (hc e he).oneLine
  | flush => cases hl

theorem oneLine_linesOf {cs : List (Call × Bool)} (hcs : ∀ c ∈ cs, c.1.Ok sha256 windows) :
    ∀ l ∈ linesOf sha256 windows t cs, OneLine l := by
  induction cs generalizing t with
  | nil => intro l hl; cases hl
  | cons c cs ih =>
    intro l hl
    rcases mem_append.mp hl with hl | hl
    · exact oneLine_callLines (hcs c (by simp)) l hl
    · exact ih (fun c hc => hcs c (by simp [hc])) l hl

theorem oneLine_run {run : Run} (hrun : run.Ok sha256 windows) :
    ∀ l ∈ run.lines sha256 windows, OneLine l := by
  intro l hl
  rcases mem_cons.mp hl with rfl | hl
  · exact oneLine_generationLine _
  · exact oneLine_linesOf hrun.calls l hl

/-- What the next open makes of a journal, whatever the batching and however many opens. -/
theorem openResume_journal (o : HashOrder Text) (fp : Bytes 16) {runs : List Run}
    (hruns : ∀ run ∈ runs, run.Ok sha256 windows) :
    openResume sha256 windows o fp (journal sha256 windows fp runs) =
      some ((heard sha256 windows runs).recs.resume o) := by
  by_cases hne : runs = []
  · subst hne
    have hkeys : o.order ∅ = [] := eq_nil_iff_forall_not_mem.mpr fun k => by simp [o.mem]
    simp [openResume, journal, headed, utf8Lines, readLines, heard, Records.resume, hkeys]
  have hlines : ∀ l ∈ header fp :: runs.flatMap (Run.lines sha256 windows), OneLine l := by
    intro l hl
    rcases mem_cons.mp hl with rfl | hl
    · exact oneLine_header fp
    · obtain ⟨run, hr, hl⟩ := mem_flatMap.mp hl
      exact oneLine_run (hruns run hr) l hl
  have himage := journal_image fp hne fun run hr => oneLine_run (hruns run hr)
  obtain ⟨r, hreads, hrecs⟩ := @reads_runs sha256 windows {} {} runs hruns rfl rfl
  rw [openResume, headed, himage, utf8Lines_image hlines]
  simp only [head?_cons, decide_true, if_true, tail_cons, parseLines]
  rw [show foldlM (step sha256 windows) {} (runs.flatMap (Run.lines sha256 windows)) =
    some r from hreads, Option.map_some, hrecs]
  rfl

end NzbFast.Journal
