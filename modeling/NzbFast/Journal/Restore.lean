import NzbFast.Journal.Recrypt
import NzbFast.Wire.Crc

/-!
# Restoring from placement records

`restore_for` of `crates/nzbkit/src/journal/restore.rs`. Crypto fragments are
gathered by output and re-encrypted (`restoreCrypto`); then every slot is passed
over on its own (`restoreSlot`): identity fragments are trusted where they are,
the others are copied or named as sources, and an article is admitted when its
bytes have the crc its record carries.

The slots run one after another here. On the pool of the source they run beside
each other, each with its own handles and over a disk that the others change.
-/

namespace NzbFast.Journal

open NzbFast.Rust Fold
open Wire (crc32)

/-- The buffer a slot reads through. -/
def RESTORE_BUF : Nat := 4 * 2 ^ 20

/-- `&mut buf[..n]` of that buffer. -/
def bufPrefix (n : Nat) : Option Nat := if n ≤ RESTORE_BUF then some n else none

/-- `saturating_add`. -/
def satAdd (a b : UInt64) : Nat := min (a.toNat + b.toNat) (2 ^ 64 - 1)

/-- One slot's seed for the extractor and the verifier. -/
structure SlotSeed where
  slot : UInt64
  name : Text
  size : UInt64
  spans : List (UInt64 × UInt64)
  sources : List (Text × UInt64)
  articleIds : List Text

/-- What one slot's pass produces. -/
structure SlotOutcome where
  seed : Option SlotSeed := none
  ids : List Text := []
  droppedCrypto : Nat := 0
  droppedSource : Nat × UInt64 := (0, 0)
  droppedUnauthenticated : Nat × UInt64 := (0, 0)

structure Restored where
  ids : Finset Text := ∅
  seeds : List SlotSeed := []
  wireOutputs : Table Text UInt64 := ∅
  plaintextOutputs : Table Text (Bytes 16 × Bytes 16) := ∅
  droppedSource : Nat × UInt64 := (0, 0)
  droppedCrypto : Nat := 0
  droppedUnauthenticated : Nat × UInt64 := (0, 0)

/-- A fragment's own mark; a list that is too short marks the rest as crypto. -/
def Article.marked (a : Article) (i : Nat) : Bool := a.cryptoFrag.getD i true

def Article.cryptoFrags (a : Article) : List Frag :=
  (a.frags.zipIdx.filter fun x => a.marked x.2).map (·.1)

def Article.wireFrags (a : Article) : List Frag :=
  (a.frags.zipIdx.filter fun x => !(a.crypto && a.marked x.2)).map (·.1)

def Article.bytes (a : Article) : UInt64 := a.frags.foldl (fun n f => n + f.len) 0

/-! ## One slot -/

section Slot

variable {δ : Type} (d : Disk δ)

/-- The handles a slot's pass keeps. -/
structure Handles where
  dest : Bool := false
  srcs : Table Text Bool := ∅
  authOpen : Table Text Bool := ∅

/-- `entry(name).or_insert_with(|| File::open(name).ok())`. -/
def openOnce (t : Table Text Bool) (name : Text) : Ask δ (Bool × Table Text Bool) :=
  match t.lookup name with
  | some opened => pure (opened, t)
  | none => do
    let opened ← ask (d.openFile name)
    return (opened, t.insert name opened)

/-- The destination is opened for the first copy, and again after a failure. -/
def Handles.openDest (h : Handles) (rec : SlotPlacement) : Ask δ Bool :=
  if h.dest then pure true else ask (d.openDest rec.name rec.size.toNat)

def copyFrag (dest : Text) (f : Frag) (done : Nat) : Ask δ Bool :=
  if done < f.len.toNat then do
    let n ← orPanic (bufPrefix (min (f.len.toNat - done) RESTORE_BUF))
    match ← ask (d.readExactAt f.file ((f.fileOff.toNat + done) % 2 ^ 64) n) with
    | none => return false
    | some bytes =>
      if !(← ask (d.writeAllAt dest ((f.volOff.toNat + done) % 2 ^ 64) bytes)) then return false
      else copyFrag dest f (done + min (f.len.toNat - done) RESTORE_BUF)
  else return true
termination_by f.len.toNat - done
decreasing_by
  unfold RESTORE_BUF
  omega

variable (rec : SlotPlacement) (destLen : Option Nat) (materializeVolumes : Bool)

/-- One fragment: where its bytes are now, or `none` where its article must refetch. -/
def placeFrag (a : Article) (h : Handles) (f : Frag) (i : Nat) :
    Ask δ (Option (Text × UInt64) × Handles) :=
  if a.crypto && a.marked i then return (some (rec.name, f.volOff), h)
  else if f.file = rec.name ∧ f.fileOff = f.volOff then
    if destLen.any fun n => satAdd f.fileOff f.len ≤ n then return (some (rec.name, f.volOff), h)
    else return (none, h)
  else do
    let (opened, srcs) ← openOnce d h.srcs f.file
    let h := { h with srcs := srcs }
    if !opened then return (none, h)
    else if !materializeVolumes then
      let len ← ask (d.metadataLen f.file)
      if len.any fun n => satAdd f.fileOff f.len ≤ n then return (some (f.file, f.fileOff), h)
      else return (none, h)
    else
      let dest ← h.openDest d rec
      let h := { h with dest := dest }
      if !dest then return (none, h)
      else if !(← copyFrag d rec.name f 0) then return (none, h)
      else return (some (rec.name, f.volOff), h)

/-- The fragments of one article, up to the first that fails. -/
def placeFrags (a : Article) (h : Handles) (artSrc : List (Text × UInt64)) :
    List (Frag × Nat) → Ask δ (Option (List (Text × UInt64)) × Handles)
  | [] => return (some artSrc, h)
  | (f, i) :: rest => do
    match ← placeFrag d rec destLen materializeVolumes a h f i with
    | (none, h) => return (none, h)
    | (some src, h) => placeFrags a h (artSrc ++ [src]) rest

/-- The bytes of one fragment, after those hashed so far. -/
def hashFrag (src : Text) (off len : UInt64) (hashed : List UInt8) (done : Nat) :
    Ask δ (Option (List UInt8)) :=
  if done < len.toNat then do
    let n ← orPanic (bufPrefix (min (len.toNat - done) RESTORE_BUF))
    match ← ask (d.readExactAt src ((off.toNat + done) % 2 ^ 64) n) with
    | none => return none
    | some bytes =>
      hashFrag src off len (hashed ++ bytes) (done + min (len.toNat - done) RESTORE_BUF)
  else return some hashed
termination_by len.toNat - done
decreasing_by
  unfold RESTORE_BUF
  omega

/-- The fragments of an article in the order of its posted bytes. -/
def hashFrags (artSrc : List (Text × UInt64)) (opened : Table Text Bool) (hashed : List UInt8) :
    List (Frag × Nat) → Ask δ (Option (List UInt8) × Table Text Bool)
  | [] => return (some hashed, opened)
  | (f, i) :: rest => do
    let src ← orPanic artSrc[i]?
    let (isOpen, opened) ← openOnce d opened src.1
    if !isOpen then return (none, opened)
    else
      match ← hashFrag d src.1 src.2 f.len hashed 0 with
      | none => return (none, opened)
      | some hashed => hashFrags artSrc opened hashed rest

def articleAuthentic (frags : List Frag) (artSrc : List (Text × UInt64)) (crc : Option UInt32)
    (opened : Table Text Bool) : Ask δ (Bool × Table Text Bool) :=
  match crc with
  | none => return (false, opened)
  | some want =>
    if artSrc.length ≠ frags.length then return (false, opened)
    else do
      let order := frags.zipIdx.mergeSort fun x y => x.1.volOff ≤ y.1.volOff
      match ← hashFrags d artSrc opened [] order with
      | (none, opened) => return (false, opened)
      | (some hashed, opened) => return (decide (crc32 hashed = want.toNat), opened)

/-- What a slot's pass carries from article to article. -/
structure SlotPass where
  handles : Handles := {}
  spans : List (UInt64 × UInt64) := []
  sources : List (Text × UInt64) := []
  spanIds : List Text := []
  restoredHere : Bool := false
  out : SlotOutcome := {}

namespace SlotPass

def dropSource (p : SlotPass) (a : Article) : SlotPass :=
  { p with out := { p.out with
      droppedSource := (p.out.droppedSource.1 + 1, p.out.droppedSource.2 + a.bytes) } }

def dropUnauthenticated (p : SlotPass) (a : Article) : SlotPass :=
  { p with out := { p.out with
      droppedUnauthenticated :=
        (p.out.droppedUnauthenticated.1 + 1, p.out.droppedUnauthenticated.2 + a.bytes) } }

def admitArticle (p : SlotPass) (a : Article) (artSrc : List (Text × UInt64)) (materializeVolumes : Bool) :
    SlotPass :=
  { p with
    out := { p.out with ids := p.out.ids ++ [a.id] }
    spans := p.spans ++ a.frags.map fun f => (f.volOff, f.len)
    spanIds := p.spanIds ++ a.frags.map fun _ => a.id
    sources := if materializeVolumes then p.sources else p.sources ++ artSrc
    restoredHere := true }

end SlotPass

variable (slot : UInt64) (verdict : Table (UInt64 × Text) Bool)

def restoreArticle (p : SlotPass) (a : Article) : Ask δ SlotPass :=
  if a.crypto && verdict.lookup (slot, a.id) ≠ some true then
    return { p with out := { p.out with droppedCrypto := p.out.droppedCrypto + 1 } }
  else do
    match ← placeFrags d rec destLen materializeVolumes a p.handles [] a.frags.zipIdx with
    | (none, h) => return { p with handles := h }.dropSource a
    | (some artSrc, h) =>
      let (authentic, opened) ← articleAuthentic d a.frags artSrc a.crc h.authOpen
      let p := { p with handles := { h with authOpen := opened } }
      if !authentic then return p.dropUnauthenticated a
      else return p.admitArticle a artSrc materializeVolumes

def restoreSlot : Ask δ SlotOutcome := do
  let p ← rec.articles.foldlM (restoreArticle d rec destLen materializeVolumes slot verdict) {}
  if p.restoredHere then
    return { p.out with seed := some ⟨slot, rec.name, rec.size, p.spans, p.sources, p.spanIds⟩ }
  else return p.out

end Slot

/-! ## The jobs of the crypto fragments -/

/-- The slots that have a volume name, in the order the map hands them out. -/
def namedSlots (o : HashOrder UInt64) (resume : ResumeState) : List (UInt64 × SlotPlacement) :=
  ((o.order resume.slots.keys).filterMap fun s => (resume.slots.lookup s).map (s, ·)).filter
    fun x => x.2.name ≠ []

/-- Every file a plain fragment names, with the bytes those fragments cover. -/
def wireOutputs (slots : List (UInt64 × SlotPlacement)) : Table Text UInt64 :=
  (slots.flatMap fun x => x.2.articles.flatMap Article.wireFrags).foldl
    (fun t f => t.step f.file 0 (· + f.len)) ∅

/-- The crypto articles, each with its slot: `article_ids` and `article_refs`. -/
def cryptoArticles (slots : List (UInt64 × SlotPlacement)) :
    List ((UInt64 × SlotPlacement) × Article) :=
  slots.flatMap fun x => (x.2.articles.filter (·.crypto)).map (x, ·)

section Jobs

variable (cryptoFiles : Table Text CryptoFileMeta) (wire : Table Text UInt64)

/-- A crypto fragment is re-encrypted when its output has its facts and no plain fragment names
it. -/
def Frag.reencrypts (f : Frag) : Bool := f.file ∈ cryptoFiles ∧ f.file ∉ wire

def cryptoFragments (articles : List ((UInt64 × SlotPlacement) × Article)) :
    List (Nat × SlotPlacement × Frag) :=
  articles.zipIdx.flatMap fun x => x.1.2.cryptoFrags.map fun f => (x.2, x.1.1.2, f)

def restoreJobOf (x : Nat × SlotPlacement × Frag) : CryptoRestoreJob where
  article := x.1
  fileOff := x.2.2.fileOff.toNat
  volOff := x.2.2.volOff.toNat
  len := x.2.2.len.toNat
  dest := x.2.1.name
  destSize := x.2.1.size.toNat

def jobsByFile (frags : List (Nat × SlotPlacement × Frag)) : Table Text (List CryptoRestoreJob) :=
  (frags.filter (·.2.2.reencrypts cryptoFiles wire)).foldl
    (fun t x => t.step x.2.2.file [] (· ++ [restoreJobOf x])) ∅

def metaMissing (frags : List (Nat × SlotPlacement × Frag)) : List Nat :=
  (frags.filter fun x => !x.2.2.reencrypts cryptoFiles wire).map (·.1)

end Jobs

/-! ## All slots -/

def plaintextOutputs (cryptoFiles : Table Text CryptoFileMeta) (admitted : List Article) :
    Table Text (Bytes 16 × Bytes 16) :=
  (admitted.flatMap Article.cryptoFrags).foldl (fun t f =>
    match cryptoFiles.lookup f.file with
    | some m => t.step f.file (m.salt, m.iv) id
    | none => t) ∅

def Restored.merge (out : Restored) (done : List SlotOutcome) : Restored :=
  done.foldl (fun out o =>
    { out with
      ids := out.ids ∪ o.ids.toFinset
      droppedCrypto := out.droppedCrypto + o.droppedCrypto
      droppedSource :=
        (out.droppedSource.1 + o.droppedSource.1, out.droppedSource.2 + o.droppedSource.2)
      droppedUnauthenticated :=
        (out.droppedUnauthenticated.1 + o.droppedUnauthenticated.1,
          out.droppedUnauthenticated.2 + o.droppedUnauthenticated.2)
      seeds := out.seeds ++ o.seed.toList }) out

section Restore

variable {δ : Type} (d : Disk δ)

/-- How long each destination already is. -/
def preLen (slots : List (UInt64 × SlotPlacement)) : Ask δ (Table Text Nat) :=
  slots.foldlM (fun t x => do
    match ← ask (d.metadataLen x.2.name) with
    | some n => return t.insert x.2.name n
    | none => return t) ∅

variable (kdf : Kdf) (o : HashOrder UInt64) (oText : HashOrder Text)

def restoreFor (resume : ResumeState) (password : Option Text) (materializeVolumes : Bool) :
    Ask δ Restored := do
  let slots := namedSlots o resume
  let wire := wireOutputs slots
  let articles := cryptoArticles slots
  let frags := cryptoFragments articles
  let jobs := jobsByFile resume.cryptoFiles wire frags
  let articleOk ← orPanic ((metaMissing resume.cryptoFiles wire frags).foldlM
    (fun ok i => setAt ok i false) (List.replicate articles.length true))
  let preLen ← preLen d slots
  let articleOk ← restoreCrypto d kdf o oText resume.cryptoFiles password jobs articleOk
  let verdicts := articles.zip articleOk
  let admitted := (verdicts.filter (·.2)).map (·.1.2)
  let verdict : Table (UInt64 × Text) Bool :=
    verdicts.foldl (fun t x => t.insert (x.1.1.1, x.1.2.id) x.2) ∅
  let work := slots.mergeSort fun x y => x.1 ≤ y.1
  let done ← work.mapM fun x =>
    restoreSlot d x.2 (preLen.lookup x.2.name) materializeVolumes x.1 verdict
  let out : Restored :=
    { wireOutputs := wire
      plaintextOutputs := plaintextOutputs resume.cryptoFiles admitted }
  return out.merge done

def restore (resume : ResumeState) (password : Option Text) : Ask δ Restored :=
  restoreFor d kdf o oText resume password true

end Restore

end NzbFast.Journal
