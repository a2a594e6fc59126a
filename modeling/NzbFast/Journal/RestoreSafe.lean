import NzbFast.Journal.RecryptPanics
import NzbFast.Journal.Replay
import NzbFast.Journal.Restore

/-!
# When a restore cannot panic

`restoreFor` gathers the crypto fragments, re-encrypts them and passes over the
slots. Only the re-encryption can panic: a slot's pass reads through a buffer
that every chunk fits (`restoreSlot_total`), over any disk and so beside any
other slot's pass. What the re-encryption gets are the fragments of the journal
that `Reencrypted` describes, and it panics on those that are not `Sound`.
-/

namespace NzbFast.Journal

open NzbFast.Rust Fold Total Finmap
open List hiding mem_keys

/-! ## A slot's pass -/

section Slot

variable {δ : Type} {d : Disk δ}

theorem bufPrefix_min (n : Nat) : bufPrefix (min n RESTORE_BUF) = some (min n RESTORE_BUF) :=
  if_pos (min_le_right _ _)

theorem openOnce_total (t : Table Text Bool) (name : Text) :
    Total (openOnce d t name) fun _ => True := by
  unfold openOnce
  split
  · exact .pure trivial
  · exact ask_any.andThen fun _ => .pure trivial

theorem copyFrag_total (dest : Text) (f : Frag) (done : Nat) :
    Total (copyFrag d dest f done) fun _ => True := by
  have hbuf : 0 < RESTORE_BUF := by decide
  induction hn : f.len.toNat - done using Nat.strong_induction_on generalizing done with
  | _ n ih =>
    rw [copyFrag]
    by_cases hlt : done < f.len.toNat
    swap
    · rw [if_neg hlt]
      exact .pure trivial
    rw [if_pos hlt]
    refine andThen (.orPanic (Q := fun _ => True) (bufPrefix_min _) trivial) fun n' => ?_
    refine ask_any.andThen fun r => ?_
    cases r with
    | none => exact .pure trivial
    | some bytes =>
      refine ask_any.andThen fun written => ?_
      cases written with
      | false => exact .pure trivial
      | true => exact ih (f.len.toNat - (done + min (f.len.toNat - done) RESTORE_BUF)) (by omega) _ rfl

theorem hashFrag_total (src : Text) (off len : UInt64) (hashed : List UInt8) (done : Nat) :
    Total (hashFrag d src off len hashed done) fun _ => True := by
  have hbuf : 0 < RESTORE_BUF := by decide
  induction hn : len.toNat - done using Nat.strong_induction_on generalizing hashed done with
  | _ n ih =>
    rw [hashFrag]
    by_cases hlt : done < len.toNat
    swap
    · rw [if_neg hlt]
      exact .pure trivial
    rw [if_pos hlt]
    refine andThen (.orPanic (Q := fun _ => True) (bufPrefix_min _) trivial) fun n' => ?_
    refine ask_any.andThen fun r => ?_
    cases r with
    | none => exact .pure trivial
    | some bytes =>
      exact ih (len.toNat - (done + min (len.toNat - done) RESTORE_BUF)) (by omega) _ _ rfl

variable {rec : SlotPlacement} {destLen : Option Nat} {materializeVolumes : Bool}

theorem openDest_total (h : Handles) : Total (h.openDest d rec) fun _ => True := by
  unfold Handles.openDest
  split_ifs
  · exact .pure trivial
  · exact .ask_any

theorem placeFrag_total (a : Article) (h : Handles) (f : Frag) (i : Nat) :
    Total (placeFrag d rec destLen materializeVolumes a h f i) fun _ => True := by
  unfold placeFrag
  by_cases hcrypto : (a.crypto && a.marked i) = true
  · rw [if_pos hcrypto]
    exact .pure trivial
  rw [if_neg hcrypto]
  by_cases hidentity : f.file = rec.name ∧ f.fileOff = f.volOff
  · rw [if_pos hidentity]
    split_ifs
    · exact .pure trivial
    · exact .pure trivial
  rw [if_neg hidentity]
  refine (openOnce_total _ _).andThen fun x => ?_
  obtain ⟨opened, srcs⟩ := x
  cases opened with
  | false => exact .pure trivial
  | true =>
    cases materializeVolumes with
    | false =>
      refine ask_any.andThen fun len => ?_
      split_ifs
      · exact .pure trivial
      · exact .pure trivial
    | true =>
      refine (openDest_total _).andThen fun dest => ?_
      cases dest with
      | false => exact .pure trivial
      | true =>
        refine (copyFrag_total _ _ _).andThen fun copied => ?_
        cases copied with
        | false => exact .pure trivial
        | true => exact .pure trivial

theorem placeFrags_total (a : Article) (h : Handles) (artSrc : List (Text × UInt64))
    (frags : List (Frag × Nat)) :
    Total (placeFrags d rec destLen materializeVolumes a h artSrc frags) fun _ => True := by
  induction frags generalizing h artSrc with
  | nil => exact .pure trivial
  | cons x frags ih =>
    obtain ⟨f, i⟩ := x
    refine (placeFrag_total a h f i).andThen fun r => ?_
    obtain ⟨src, h'⟩ := r
    cases src with
    | none => exact .pure trivial
    | some src => exact ih h' _

/-- Every index of `order` is one of `artSrc`, which is as long as the fragments are. -/
theorem hashFrags_total {artSrc : List (Text × UInt64)} (opened : Table Text Bool)
    (hashed : List UInt8) {order : List (Frag × Nat)} (h : ∀ x ∈ order, x.2 < artSrc.length) :
    Total (hashFrags d artSrc opened hashed order) fun _ => True := by
  induction order generalizing opened hashed with
  | nil => exact .pure trivial
  | cons x order ih =>
    obtain ⟨f, i⟩ := x
    obtain ⟨src, hi⟩ : ∃ src, artSrc[i]? = some src :=
      ⟨_, getElem?_eq_getElem (h (f, i) mem_cons_self)⟩
    have hrest : ∀ x ∈ order, x.2 < artSrc.length := fun x hx => h x (mem_cons_of_mem _ hx)
    refine andThen (.orPanic (Q := fun _ => True) hi trivial) fun src => ?_
    refine (openOnce_total _ _).andThen fun r => ?_
    obtain ⟨isOpen, opened'⟩ := r
    cases isOpen with
    | false => exact .pure trivial
    | true =>
      refine (hashFrag_total _ _ _ _ _).andThen fun r => ?_
      cases r with
      | none => exact .pure trivial
      | some hashed' => exact ih opened' hashed' hrest

theorem articleAuthentic_total (frags : List Frag) (artSrc : List (Text × UInt64))
    (crc : Option UInt32) (opened : Table Text Bool) :
    Total (articleAuthentic d frags artSrc crc opened) fun _ => True := by
  unfold articleAuthentic
  cases crc with
  | none => exact .pure trivial
  | some want =>
    dsimp only
    by_cases hlen : artSrc.length ≠ frags.length
    · rw [if_pos hlen]
      exact .pure trivial
    rw [if_neg hlen]
    have horder : ∀ x ∈ frags.zipIdx.mergeSort fun x y => decide (x.1.volOff ≤ y.1.volOff),
        x.2 < artSrc.length := by
      intro x hx
      rw [not_not.mp hlen]
      exact snd_lt_of_mem_zipIdx (mem_mergeSort.mp hx)
    refine (hashFrags_total opened [] horder).andThen fun r => ?_
    obtain ⟨hashed, opened'⟩ := r
    cases hashed with
    | none => exact .pure trivial
    | some hashed => exact .pure trivial

variable {slot : UInt64} {verdict : Table (UInt64 × Text) Bool}

theorem restoreArticle_total (p : SlotPass) (a : Article) :
    Total (restoreArticle d rec destLen materializeVolumes slot verdict p a) fun _ => True := by
  unfold restoreArticle
  split_ifs
  · exact .pure trivial
  · refine (placeFrags_total a p.handles [] a.frags.zipIdx).andThen fun r => ?_
    obtain ⟨artSrc, h⟩ := r
    cases artSrc with
    | none => exact .pure trivial
    | some artSrc =>
      refine (articleAuthentic_total a.frags artSrc a.crc h.authOpen).andThen fun r => ?_
      obtain ⟨authentic, opened⟩ := r
      cases authentic with
      | false => exact .pure trivial
      | true => exact .pure trivial

/-- No slot's pass panics, whatever the disk answers. -/
theorem restoreSlot_total :
    Total (restoreSlot d rec destLen materializeVolumes slot verdict) fun _ => True := by
  refine bind (Q := fun _ => True)
    (.foldlM (fun a _ p _ => restoreArticle_total p a) trivial) fun p _ => ?_
  split_ifs
  · exact .pure trivial
  · exact .pure trivial

theorem preLen_total (slots : List (UInt64 × SlotPlacement)) :
    Total (preLen d slots) fun _ => True := by
  refine foldlM (fun x _ t _ => ?_) trivial
  refine ask_any.andThen fun n => ?_
  cases n with
  | none => exact .pure trivial
  | some n => exact .pure trivial

end Slot

/-! ## What is re-encrypted -/

def WireOutput (resume : ResumeState) (file : Text) : Prop :=
  ∃ slot rec, resume.slots.lookup slot = some rec ∧ rec.name ≠ [] ∧
    ∃ a ∈ rec.articles, ∃ f ∈ a.wireFrags, f.file = file

/-- A fragment that a restore re-encrypts: a crypto fragment of a named slot, whose output has its
facts, keys that the password proves, and no plain fragment. -/
structure Reencrypted (kdf : Kdf) (resume : ResumeState) (password : Option Text)
    (m : CryptoFileMeta) (f : Frag) : Prop where
  recorded : ∃ slot rec, resume.slots.lookup slot = some rec ∧ rec.name ≠ [] ∧
    ∃ a ∈ rec.articles, a.crypto = true ∧ f ∈ a.cryptoFrags
  facts : resume.cryptoFiles.lookup f.file = some m
  unclaimed : ¬ WireOutput resume f.file
  proven : ∃ pw, password = some pw ∧ (provenKeys kdf pw m).isSome = true

section Jobs

variable {o : HashOrder UInt64} {resume : ResumeState}

theorem mem_namedSlots {x : UInt64 × SlotPlacement} :
    x ∈ namedSlots o resume ↔ resume.slots.lookup x.1 = some x.2 ∧ x.2.name ≠ [] := by
  unfold namedSlots
  simp only [mem_filter, mem_filterMap, Option.map_eq_some_iff, o.mem, mem_keys, decide_eq_true_eq]
  constructor
  · rintro ⟨⟨slot, -, rec, hrec, rfl⟩, hname⟩
    exact ⟨hrec, hname⟩
  · rintro ⟨hrec, hname⟩
    exact ⟨⟨x.1, mem_of_lookup_eq_some hrec, x.2, hrec, rfl⟩, hname⟩

theorem mem_wireOutputs {file : Text} :
    file ∈ wireOutputs (namedSlots o resume) ↔ WireOutput resume file := by
  unfold wireOutputs
  rw [Table.mem_foldl_step (fun f : Frag => f.file)]
  simp only [mem_flatMap]
  constructor
  · rintro (h | ⟨f, ⟨x, hx, a, ha, hf⟩, hfile⟩)
    · exact absurd h notMem_empty
    · obtain ⟨hrec, hname⟩ := mem_namedSlots.mp hx
      exact ⟨x.1, x.2, hrec, hname, a, ha, f, hf, hfile⟩
  · rintro ⟨slot, rec, hrec, hname, a, ha, f, hf, hfile⟩
    exact .inr ⟨f, ⟨(slot, rec), mem_namedSlots.mpr ⟨hrec, hname⟩, a, ha, hf⟩, hfile⟩

theorem mem_cryptoArticles {slots : List (UInt64 × SlotPlacement)}
    {x : (UInt64 × SlotPlacement) × Article} : x ∈ cryptoArticles slots ↔
      x.1 ∈ slots ∧ x.2 ∈ x.1.2.articles ∧ x.2.crypto = true := by
  unfold cryptoArticles
  simp only [mem_flatMap, mem_map, mem_filter]
  constructor
  · rintro ⟨slot, hslot, a, ha, rfl⟩
    exact ⟨hslot, ha⟩
  · rintro ⟨hslot, ha⟩
    exact ⟨x.1, hslot, x.2, ha, rfl⟩

theorem of_mem_cryptoFragments {articles : List ((UInt64 × SlotPlacement) × Article)}
    {x : Nat × SlotPlacement × Frag} (hx : x ∈ cryptoFragments articles) :
    x.1 < articles.length ∧ ∃ y ∈ articles, x.2.2 ∈ y.2.cryptoFrags := by
  obtain ⟨⟨y, i⟩, hy, hx⟩ := mem_flatMap.mp hx
  obtain ⟨f, hf, rfl⟩ := mem_map.mp hx
  exact ⟨snd_lt_of_mem_zipIdx hy, y, fst_mem_of_mem_zipIdx hy, hf⟩

theorem mem_cryptoFragments {articles : List ((UInt64 × SlotPlacement) × Article)}
    {y : (UInt64 × SlotPlacement) × Article} (hy : y ∈ articles) {f : Frag}
    (hf : f ∈ y.2.cryptoFrags) : ∃ x ∈ cryptoFragments articles, x.2.2 = f := by
  obtain ⟨i, hi⟩ := getElem?_of_mem hy
  refine ⟨(i, y.1.2, f), mem_flatMap.mpr ⟨(y, i), ?_, mem_map.mpr ⟨f, hf, rfl⟩⟩, rfl⟩
  exact mem_zipIdx_iff_getElem?.mpr hi

variable {cryptoFiles : Table Text CryptoFileMeta} {wire : Table Text UInt64}

/-- The jobs of an output are those of the fragments that name it. -/
theorem getD_jobsByFile (frags : List (Nat × SlotPlacement × Frag)) (name : Text) :
    ((jobsByFile cryptoFiles wire frags).lookup name).getD [] =
      ((frags.filter (·.2.2.reencrypts cryptoFiles wire)).filter (·.2.2.file = name)).map
        restoreJobOf := by
  unfold jobsByFile
  rw [Table.getD_foldl_push (fun x : Nat × SlotPlacement × Frag => x.2.2.file), lookup_empty]
  rfl

theorem mem_jobsByFile {frags : List (Nat × SlotPlacement × Frag)} {name : Text}
    {j : CryptoRestoreJob} :
    (∃ jobs, (jobsByFile cryptoFiles wire frags).lookup name = some jobs ∧ j ∈ jobs) ↔
      ∃ x ∈ frags, x.2.2.reencrypts cryptoFiles wire = true ∧ x.2.2.file = name ∧
        restoreJobOf x = j := by
  have hjob : (∃ jobs, (jobsByFile cryptoFiles wire frags).lookup name = some jobs ∧ j ∈ jobs) ↔
      j ∈ ((jobsByFile cryptoFiles wire frags).lookup name).getD [] := by
    cases (jobsByFile cryptoFiles wire frags).lookup name with
    | none => simp
    | some jobs => simp
  rw [hjob, getD_jobsByFile]
  simp only [mem_map, mem_filter, decide_eq_true_eq, and_assoc]

end Jobs

/-! ## The whole restore -/

section Restore

variable {kdf : Kdf} {o : HashOrder UInt64} {oText : HashOrder Text} {resume : ResumeState}
  {password : Option Text} {materializeVolumes : Bool}

/-- The jobs of a restore are the fragments it re-encrypts. -/
theorem reencrypts_iff {m : CryptoFileMeta} {f : Frag}
    (hm : resume.cryptoFiles.lookup f.file = some m) :
    f.reencrypts resume.cryptoFiles (wireOutputs (namedSlots o resume)) = true ↔
      ¬ WireOutput resume f.file := by
  unfold Frag.reencrypts
  rw [decide_eq_true_eq, mem_wireOutputs]
  exact and_iff_right (mem_of_lookup_eq_some hm)

theorem restoreFor_total {δ : Type} (d : Disk δ)
    (h : ∀ m f, Reencrypted kdf resume password m f → Sound m f.fileOff.toNat f.len.toNat) :
    Total (restoreFor d kdf o oText resume password materializeVolumes) fun _ => True := by
  have hfrags : ∀ x ∈ cryptoFragments (cryptoArticles (namedSlots o resume)),
      x.1 < (replicate (cryptoArticles (namedSlots o resume)).length true).length := by
    intro x hx
    rw [length_replicate]
    exact (of_mem_cryptoFragments hx).1
  have hmissing : ∀ i ∈ metaMissing resume.cryptoFiles (wireOutputs (namedSlots o resume))
      (cryptoFragments (cryptoArticles (namedSlots o resume))),
      i < (replicate (cryptoArticles (namedSlots o resume)).length true).length := by
    intro i hi
    obtain ⟨x, hx, rfl⟩ := mem_map.mp hi
    exact hfrags x (mem_filter.mp hx).1
  obtain ⟨marked, hmarked, hlen⟩ := foldlM_setAt false hmissing
  refine bind (.orPanic (Q := fun ok => ok = marked) hmarked rfl) fun ok hok => ?_
  subst hok
  refine (preLen_total _).andThen fun preLen => ?_
  refine andThen (Q := fun ok' => ok'.length = ok.length) ?_ fun ok' => ?_
  · refine restoreCrypto_total d kdf o oText (fun name jobs hjobs j hj => ?_)
      fun pw hpw name jobs hjobs m hm hkeys j hj => ?_
    · obtain ⟨x, hx, -, -, rfl⟩ := mem_jobsByFile.mp ⟨jobs, hjobs, hj⟩
      exact hlen ▸ hfrags x hx
    · obtain ⟨x, hx, hreenc, rfl, rfl⟩ := mem_jobsByFile.mp ⟨jobs, hjobs, hj⟩
      obtain ⟨-, y, hy, hf⟩ := of_mem_cryptoFragments hx
      obtain ⟨hslot, ha, hcrypto⟩ := mem_cryptoArticles.mp hy
      obtain ⟨hrec, hname⟩ := mem_namedSlots.mp hslot
      exact h m x.2.2
        { recorded := ⟨y.1.1, y.1.2, hrec, hname, y.2, ha, hcrypto, hf⟩
          facts := hm
          unclaimed := (reencrypts_iff hm).mp hreenc
          proven := ⟨pw, hpw, hkeys⟩ }
  · exact (mapM fun x _ => restoreSlot_total).andThen fun done => .pure trivial

theorem preLen_flaky (name : Text) (slots : List (UInt64 × SlotPlacement)) (s : Nat) :
    Ends (preLen (flaky name) slots) s fun _ s' => s' = s := by
  refine Ends.foldlM (fun x _ t s' hs' => ?_) rfl
  refine Ends.bind (Q := fun _ s'' => s'' = s) (.ask hs') fun n s'' hs'' => ?_
  cases n with
  | none => exact .pure hs''
  | some n => exact .pure hs''

theorem restoreFor_panics (o : HashOrder UInt64) (oText : HashOrder Text)
    (materializeVolumes : Bool) {m : CryptoFileMeta} {f : Frag}
    (hf : Reencrypted kdf resume password m f) (hbad : ¬ Sound m f.fileOff.toNat f.len.toNat) :
    ∃ s, restoreFor (flaky f.file) kdf o oText resume password materializeVolumes s = none := by
  obtain ⟨slot, rec, hrec, hname, a, ha, hcrypto, hmem⟩ := hf.recorded
  obtain ⟨pw, rfl, hkeys⟩ := hf.proven
  have hart : ((slot, rec), a) ∈ cryptoArticles (namedSlots o resume) :=
    mem_cryptoArticles.mpr ⟨mem_namedSlots.mpr ⟨hrec, hname⟩, ha, hcrypto⟩
  obtain ⟨x, hx, rfl⟩ := mem_cryptoFragments hart hmem
  obtain ⟨jobs, hjobs, hj⟩ := mem_jobsByFile.mpr
    ⟨x, hx, (reencrypts_iff hf.facts).mpr hf.unclaimed, rfl, rfl⟩
  obtain ⟨s, hpanics⟩ := restoreCrypto_panics kdf o oText hf.facts hkeys hjobs hj hbad
  refine ⟨s, ?_⟩
  refine bind_panics (Q := fun _ s' => s' = s) (.orPanic fun _ _ => rfl) fun ok s' hs' => ?_
  subst hs'
  refine bind_panics (preLen_flaky _ _ _) fun preLen s'' hs'' => ?_
  subst hs''
  exact bind_panics_left (hpanics ok) _

end Restore

/-- A restore panics on no disk exactly when every fragment it re-encrypts is sound. -/
theorem restoreFor_never_panics_iff (kdf : Kdf) (o : HashOrder UInt64) (oText : HashOrder Text)
    (resume : ResumeState) (password : Option Text) (materializeVolumes : Bool) :
    (∀ (δ : Type) (d : Disk δ) (s : δ),
      restoreFor d kdf o oText resume password materializeVolumes s ≠ none) ↔
      ∀ m f, Reencrypted kdf resume password m f → Sound m f.fileOff.toNat f.len.toNat := by
  constructor
  · intro h m f hf
    by_contra hbad
    obtain ⟨s, hs⟩ := restoreFor_panics o oText materializeVolumes hf hbad
    exact h Nat (flaky f.file) s hs
  · intro h δ d s
    exact (restoreFor_total d h).ne_none s

/-! ## A checkpoint off the grid -/

/-- Files of a hundred zero bytes under every name. -/
def zeroFiles : Disk Unit where
  openFile _ s := (true, s)
  metadataLen _ s := (some 100, s)
  readExactAt _ off n s := (if off + n ≤ 100 then some (List.replicate n 0) else none, s)
  openDest _ _ s := (true, s)
  writeAllAt _ _ _ s := (true, s)
  length_readExactAt f off n s bytes h := by
    split at h
    · rw [← Option.some.inj h, List.length_replicate]
    · cases h
  metadataLen_lt f s n h := by
    rw [← Option.some.inj h]
    decide

theorem reads_zeroFiles (name : Text) : zeroFiles.Reads name 100 () :=
  fun _ n h => ⟨replicate n 0, Prod.ext (if_pos h) rfl⟩

def zeroBlock : Bytes 16 := List.Vector.replicate 16 0

/-- An output of a hundred bytes with a checkpoint at byte 7, and an article of its second block. -/
def offGrid (check : Bytes 12) : List Text :=
  [eventLine (.params ['a'] zeroBlock 0 zeroBlock 100 (some check)),
    eventLine (.checkpoint ['a'] 7 zeroBlock), fileLine 0 ['a'], slotLine 0 100 ['v'],
    placedLine 0 ['1', '@', 'x'] [0] [⟨['a'], 16, 0, 16⟩] (some [true])]

def offGridMeta (check : Bytes 12) : CryptoFileMeta where
  salt := zeroBlock
  iv := zeroBlock
  unp := 100
  check := some check
  checkpoints := Finmap.insert 7 zeroBlock ∅

def offGridArticle : Article := ⟨['1', '@', 'x'], [⟨['a'], 16, 0, 16⟩], [true], true, none⟩

def offGridPlaced : Placed := ⟨0, [⟨['a'], 16, 0, 16⟩], [true], true, none⟩

theorem reads_offGrid (check : Bytes 12) : ∃ r,
    Replay.reads noHash false {} (offGrid check) = some r ∧
    r.recs.placed = Finmap.insert ['1', '@', 'x'] offGridPlaced ∅ ∧
    r.recs.slotMeta.lookup 0 = some (['v'], 100) ∧
    r.recs.cryptoFiles.lookup ['a'] = some (offGridMeta check) := by
  have ha : Clean noHash false ['a'] := by decide
  have hv : Clean noHash false ['v'] := by decide
  have hplaced := @parseLine_placedLine noHash false [0] [⟨['a'], 16, 0, 16⟩] rfl (by simp)
    (by simp) 0 ['1', '@', 'x'] (some [true])
  unfold offGrid
  rw [Replay.reads_cons (parseLine_eventLine ha), Replay.reads_cons (parseLine_eventLine ha),
    Replay.reads_cons (parseLine_fileLine (by decide) ha),
    Replay.reads_cons (parseLine_slotLine 0 100 hv), Replay.reads_cons hplaced]
  exact ⟨_, rfl, rfl, rfl, rfl⟩

def offGridSlot : SlotPlacement := ⟨['v'], 100, [offGridArticle]⟩

theorem slots_offGrid {r : Records} (oText : HashOrder Text)
    (hplaced : r.placed = Finmap.insert ['1', '@', 'x'] offGridPlaced ∅)
    (hslot : r.slotMeta.lookup 0 = some (['v'], 100)) :
    (r.resume oText).slots = Finmap.insert 0 offGridSlot ∅ := by
  unfold Records.resume
  rw [hplaced, Table.keys_insert_empty, HashOrder.order_singleton, foldl_cons, foldl_nil]
  unfold Records.group
  rw [hplaced, lookup_insert]
  dsimp only
  rw [show offGridPlaced.slot = 0 from rfl, hslot]
  rfl

theorem namedSlots_offGrid (o : HashOrder UInt64) {resume : ResumeState}
    (h : resume.slots = Finmap.insert 0 offGridSlot ∅) :
    namedSlots o resume = [(0, offGridSlot)] := by
  unfold namedSlots
  rw [h, Table.keys_insert_empty, HashOrder.order_singleton]
  rfl

def offGridJob : CryptoRestoreJob where
  article := 0
  fileOff := 16
  volOff := 0
  len := 16
  dest := ['v']
  destSize := 100

/-- The walk from byte 7 to byte 16 reads nine bytes and takes the last sixteen of them. -/
theorem restoreOutput_offGrid {kdf : Kdf} (o : HashOrder UInt64) {keys : kdf.Keys}
    {files : Table Text CryptoFileMeta} (hkeys : kdf.deriveKeys ['p'] zeroBlock 0 = some keys)
    (hmeta : files.lookup ['a'] = some (offGridMeta (kdf.makeCheck keys))) (ok : List Bool)
    (s : Unit) :
    restoreOutput zeroFiles kdf o files ['p'] ['a'] [offGridJob] ok s = none := by
  have hproven : provenKeys kdf ['p'] (offGridMeta (kdf.makeCheck keys)) = some keys := by
    unfold provenKeys offGridMeta
    rw [hkeys, Option.filter_some, if_pos (by simp)]
  have hckpts : sortedCheckpoints o (offGridMeta (kdf.makeCheck keys)).checkpoints =
      [(7, zeroBlock.toList)] := by
    unfold sortedCheckpoints offGridMeta
    rw [Table.keys_insert_empty, HashOrder.order_singleton]
    exact mergeSort_singleton _
  unfold restoreOutput
  rw [hmeta]
  dsimp only
  rw [hproven]
  refine bind_panics (Q := fun r _ => r = true) (.ask rfl) fun r s hr => ?_
  subst hr
  refine bind_panics (Q := fun r _ => r = some 100) (.ask rfl) fun r s hr => ?_
  subst hr
  refine bind_panics_left ?_ _
  rw [hckpts, mergeSort_singleton, foldlM_cons]
  refine bind_panics_left (Output.restoreJob_panics (reads_zeroFiles _) ?_ ?_ ?_ ?_ ?_ ?_ ?_) _
  · exact pairwise_singleton _ _
  · show 100 < 2 ^ 64
    decide
  · exact ⟨rfl, .inl rfl⟩
  · show 16 + 16 ≤ align16 100
    decide
  · show blockLo 16 < blockHi 100 (16 + 16)
    decide
  · show blockLo 16 ≤ 100
    decide
  · refine fun h => h.1 ⟨by decide, 7, ⟨_, mem_singleton_self _, rfl⟩, by decide, by decide,
      ?_, ?_⟩
    · rintro k ⟨x, hx, rfl⟩ -
      rw [mem_singleton.mp hx]
    · exact ⟨by decide, by decide⟩

/-- A checkpoint line off the block grid makes a restore panic, whatever the keys are. -/
theorem restore_panics_offGrid : ¬ ∃ (kdf : Kdf) (o : HashOrder UInt64) (oText : HashOrder Text)
    (keys : kdf.Keys), kdf.deriveKeys ['p'] zeroBlock 0 = some keys ∧
      ∀ resume, parseLines noHash false oText (offGrid (kdf.makeCheck keys)) = some resume →
        restore zeroFiles kdf o oText resume (some ['p']) () ≠ none := by
  rintro ⟨kdf, o, oText, keys, hkeys, h⟩
  obtain ⟨r, hreads, hplaced, hslot, hmeta⟩ := reads_offGrid (kdf.makeCheck keys)
  have hnamed := namedSlots_offGrid o (slots_offGrid oText hplaced hslot)
  refine h (r.recs.resume oText) ?_ ?_
  · exact congrArg (Option.map fun r : Replay => r.recs.resume oText) hreads
  unfold restore restoreFor
  rw [hnamed]
  refine bind_panics (Q := fun _ _ => True) (fun _ _ _ => trivial) fun ok s _ => ?_
  refine bind_panics (Q := fun _ _ => True) (fun _ _ _ => trivial) fun preLen s _ => ?_
  refine bind_panics_left ?_ _
  have hreenc : (⟨['a'], 16, 0, 16⟩ : Frag).reencrypts (r.recs.resume oText).cryptoFiles
      (wireOutputs [(0, offGridSlot)]) = true := by
    unfold Frag.reencrypts
    rw [decide_eq_true_eq]
    exact ⟨mem_of_lookup_eq_some hmeta, notMem_empty⟩
  have hjobs : ((jobsByFile (r.recs.resume oText).cryptoFiles (wireOutputs [(0, offGridSlot)])
      (cryptoFragments (cryptoArticles [(0, offGridSlot)]))).lookup ['a']).getD [] = [offGridJob] := by
    rw [getD_jobsByFile, show cryptoFragments (cryptoArticles [(0, offGridSlot)]) =
      [(0, offGridSlot, ⟨['a'], 16, 0, 16⟩)] from rfl]
    rw [filter_cons_of_pos (by exact hreenc)]
    rfl
  have hmem : ['a'] ∈ jobsByFile (r.recs.resume oText).cryptoFiles (wireOutputs [(0, offGridSlot)])
      (cryptoFragments (cryptoArticles [(0, offGridSlot)])) := by
    by_contra hno
    rw [lookup_eq_none.mpr hno] at hjobs
    cases hjobs
  refine restoreCrypto_panics_at kdf o oText (I := fun _ => True) hmem
    (fun _ _ _ _ _ _ _ _ _ => trivial) (fun ok s _ => ?_) trivial ok
  rw [hjobs]
  exact restoreOutput_offGrid o hkeys hmeta ok s

end NzbFast.Journal
