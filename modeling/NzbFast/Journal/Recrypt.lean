import NzbFast.Journal.Format
import NzbFast.Rust.Panics
import NzbFast.Wire.Cbc

/-!
# Re-encrypting plaintext-once fragments

`restore_crypto` of `crates/nzbkit/src/journal/restore.rs`: every output's
fragments in offset order, with a rolling CBC chain that is reseeded from the
journaled checkpoints. The disk is a state machine that may answer any call in
any way; a file is shorter than 2^63 bytes. Key derivation is a parameter.

A step panics where a slice is out of range, a subtraction goes below zero or a
buffer is longer than `isize::MAX`. Sums wrap, as they do in a release build.
-/

namespace NzbFast.Journal

open NzbFast.Rust Fold
open Wire (Block cbcEncrypt)

/-- What the restore asks of the output directory. A file is named relative to it. -/
structure Disk (δ : Type) where
  /-- `File::open`. -/
  openFile : Text → δ → Bool × δ
  metadataLen : Text → δ → Option Nat × δ
  readExactAt : Text → Nat → Nat → δ → Option (List UInt8) × δ
  /-- Created if missing, and grown to a size. -/
  openDest : Text → Nat → δ → Bool × δ
  writeAllAt : Text → Nat → List UInt8 → δ → Bool × δ
  length_readExactAt : ∀ f off n s bytes, (readExactAt f off n s).1 = some bytes → bytes.length = n
  metadataLen_lt : ∀ f s n, (metadataLen f s).1 = some n → n < 2 ^ 63

/-- `rarcrypt`: PBKDF2, the stored check of a key set, and AES under its key. -/
structure Kdf where
  Keys : Type
  deriveKeys : Text → Bytes 16 → UInt8 → Option Keys
  makeCheck : Keys → Bytes 12
  aes : Keys → Equiv.Perm Block

def ISIZE_MAX : Nat := 2 ^ 63 - 1

def WALK : Nat := 64 * 1024

/-- `rarcrypt::align16`, with its saturating sum. -/
def align16 (n : Nat) : Nat := min (n + 15) (2 ^ 64 - 1) / 16 * 16

/-- `CbcEncStream::encrypt` in place: whole blocks only. -/
def encrypt (aes : Equiv.Perm Block) (chain data : List UInt8) : List UInt8 :=
  cbcEncrypt aes (data.length / 16) chain data ++ data.drop (16 * (data.length / 16))

theorem length_encrypt (aes : Equiv.Perm Block) (chain data : List UInt8) :
    (encrypt aes chain data).length = data.length := by
  rw [encrypt, List.length_append, Wire.length_cbcEncrypt, List.length_drop]
  omega

structure CryptoRestoreJob where
  /-- Index into the article table. -/
  article : Nat
  fileOff : Nat
  volOff : Nat
  len : Nat
  dest : Text
  destSize : Nat

/-- A plaintext-once output whose keys are proven and whose file is open. -/
structure Output where
  name : Text
  srcLen : Nat
  aes : Equiv.Perm Block
  iv : List UInt8
  unp : Nat
  pad : Option (List UInt8)
  /-- Sorted by offset. -/
  ckpts : List (Nat × List UInt8)

/-- What `restore_crypto` carries from job to job of one output. -/
structure Recrypt where
  /-- The rolling chain: cipher block `[cpos-16, cpos)`. -/
  cpos : Nat
  chain : List UInt8
  dests : Table Text Bool := ∅
  articleOk : List Bool

def Recrypt.fail (st : Recrypt) (j : CryptoRestoreJob) : Option Recrypt :=
  (setAt st.articleOk j.article false).map fun ok => { st with articleOk := ok }

/-- `dests.entry(..).or_insert_with(..)`: a destination is opened once. -/
def Recrypt.openDest {δ : Type} (d : Disk δ) (st : Recrypt) (j : CryptoRestoreJob) : Ask δ Bool :=
  match st.dests.lookup j.dest with
  | some opened => pure opened
  | none => ask (d.openDest j.dest j.destSize)

namespace Output

variable {δ : Type} (d : Disk δ) (out : Output)

/-- Where a walk to `target` starts: the rolling state or the nearest checkpoint, whichever is
closer. -/
def anchor (cpos : Nat) (chain : List UInt8) (target : Nat) : Nat × List UInt8 :=
  let own := if cpos ≤ target then (cpos, chain) else (0, out.iv)
  let below := out.ckpts.takeWhile fun x => x.1 ≤ target
  (below.reverse.find? fun x => own.1 < x.1).getD own

/-- Each checkpoint the walk passes is compared; the inner `none` is a mismatch. -/
def crossVerify (walk : List UInt8) (n : Nat) (c : List UInt8) (at_ : Nat) :
    List (Nat × List UInt8) → Option (Option (List (Nat × List UInt8)))
  | [] => some (some [])
  | (ko, kb) :: next =>
    if at_ < ko then some (some ((ko, kb) :: next))
    else if 0 < ko then
      (usizeSub at_ ko).bind fun back => (usizeSub n back).bind fun s =>
        (if 16 ≤ s then sliceRange walk (s - 16) s else some c).bind fun got =>
          if got ≠ kb then some none else crossVerify walk n c at_ next
    else crossVerify walk n c at_ next

/-- The loop of `chain_to`; the inner `none` is a stretch that cannot be walked. -/
def walkTo (target at_ : Nat) (c : List UInt8) (next : List (Nat × List UInt8)) :
    Ask δ (Option (Nat × List UInt8)) :=
  if at_ < target then do
    let n := min (target - at_) WALK
    if out.srcLen < at_ + n then return none
    else
      match ← ask (d.readExactAt out.name at_ n) with
      | none => return none
      | some bytes =>
        let walk := encrypt out.aes c bytes
        let c ← orPanic (lastBlock walk n)
        match ← orPanic (crossVerify walk n c (at_ + n) next) with
        | none => return none
        | some next => walkTo target (at_ + n) c next
  else return some (at_, c)
termination_by target - at_
decreasing_by
  unfold WALK
  omega

def chainTo (cpos : Nat) (chain : List UInt8) (target : Nat) : Ask δ (Option (Nat × List UInt8)) :=
  if cpos = target then return some (cpos, chain)
  else
    let from_ := out.anchor cpos chain target
    out.walkTo d target from_.1 from_.2 (out.ckpts.dropWhile fun x => x.1 ≤ from_.1)

def cipherLen : Nat := align16 out.unp

/-- The bytes `[lo, hi)` to encrypt: plaintext from disk below `unp`, the journaled padding beyond
it. `none` where they are not all there. -/
def plain (lo hi : Nat) : Ask δ (Option (List UInt8)) := do
  let n := hi - lo
  if ISIZE_MAX < n then orPanic none
  else
    let diskEnd := min hi out.unp
    if out.srcLen < diskEnd then return none
    else
      let got ← if lo < diskEnd then ask (d.readExactAt out.name lo (diskEnd - lo)) else pure (some [])
      match got with
      | none => return none
      | some bytes =>
        let buf := bytes ++ List.replicate (n - bytes.length) 0
        if out.unp < hi then
          match out.pad with
          | none => return none
          | some pad =>
            if pad.length < hi - out.unp then return none
            else
              let a ← orPanic (usizeSub out.unp lo)
              let buf ← orPanic (copyTail buf a (pad.take (hi - out.unp)))
              return some buf
        else return some buf

/-- One job: `[fileOff, fileOff + len)` re-encrypted to its volume file. -/
def restoreJob (st : Recrypt) (j : CryptoRestoreJob) : Ask δ Recrypt := do
  let stop := j.fileOff + j.len
  if 2 ^ 64 ≤ stop ∨ out.cipherLen < stop then orPanic (st.fail j)
  else
    let lo := j.fileOff / 16 * 16
    let hi := min ((stop + 15) / 16 * 16) out.cipherLen
    if hi ≤ lo then orPanic (st.fail j)
    else
      match ← out.chainTo d st.cpos st.chain lo with
      | none =>
        let st ← orPanic (st.fail j)
        return { st with cpos := 0, chain := out.iv }
      | some (cpos, chain) =>
        let st := { st with cpos := cpos, chain := chain }
        match ← out.plain d lo hi with
        | none => orPanic (st.fail j)
        | some buf =>
          let buf := encrypt out.aes st.chain buf
          let newChain ← orPanic (lastBlock buf (hi - lo))
          let opened ← st.openDest d j
          let st := { st with dests := st.dests.insert j.dest opened }
          if !opened then orPanic (st.fail j)
          else
            let a ← orPanic (usizeSub j.fileOff lo)
            let piece ← orPanic (sliceRange buf a (a + j.len))
            if !(← ask (d.writeAllAt j.dest j.volOff piece)) then orPanic (st.fail j)
            else return { st with cpos := hi, chain := newChain }

end Output

/-! ## Every output -/

/-- `ckpts.sort_unstable()`; the offsets are all different. -/
def sortedCheckpoints (o : HashOrder UInt64) (t : Table UInt64 (Bytes 16)) :
    List (Nat × List UInt8) :=
  ((o.order t.keys).filterMap fun k => (t.lookup k).map fun b => (k.toNat, b.toList)).mergeSort
    fun x y => x.1 ≤ y.1

def failAll (jobs : List CryptoRestoreJob) (ok : List Bool) : Option (List Bool) :=
  jobs.foldlM (fun ok j => setAt ok j.article false) ok

section Crypto

variable {δ : Type} (d : Disk δ) (kdf : Kdf) (o : HashOrder UInt64)

def provenKeys (password : Text) (f : CryptoFileMeta) : Option kdf.Keys :=
  (kdf.deriveKeys password f.salt f.lg2).filter fun keys => f.check = some (kdf.makeCheck keys)

/-- One output of `restore_crypto`. -/
def restoreOutput (files : Table Text CryptoFileMeta) (password : Text) (name : Text)
    (jobs : List CryptoRestoreJob) (ok : List Bool) : Ask δ (List Bool) :=
  match files.lookup name with
  | none => orPanic (failAll jobs ok)
  | some f =>
    match provenKeys kdf password f with
    | none => orPanic (failAll jobs ok)
    | some keys => do
      if !(← ask (d.openFile name)) then orPanic (failAll jobs ok)
      else
        let srcLen ← ask (d.metadataLen name)
        let out : Output :=
          { name := name
            srcLen := srcLen.getD 0
            aes := kdf.aes keys
            iv := f.iv.toList
            unp := f.unp.toNat
            pad := f.pad
            ckpts := sortedCheckpoints o f.checkpoints }
        let jobs := jobs.mergeSort fun x y => x.fileOff ≤ y.fileOff
        let st ← jobs.foldlM (out.restoreJob d) { cpos := 0, chain := out.iv, articleOk := ok }
        return st.articleOk

/-- `restore_crypto`: which articles could be re-encrypted whole. -/
def restoreCrypto (oText : HashOrder Text) (files : Table Text CryptoFileMeta)
    (password : Option Text) (jobsByFile : Table Text (List CryptoRestoreJob)) (ok : List Bool) :
    Ask δ (List Bool) :=
  (oText.order jobsByFile.keys).foldlM (fun ok name =>
    let jobs := (jobsByFile.lookup name).getD []
    match password with
    | none => orPanic (failAll jobs ok)
    | some pw => restoreOutput d kdf o files pw name jobs ok) ok

end Crypto

end NzbFast.Journal
