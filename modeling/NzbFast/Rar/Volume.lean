import NzbFast.Fold.Table
import NzbFast.Rust.Checked
import Mathlib.Data.Vector.Basic

/-!
# RAR volumes as their headers describe them

The public part of `VolumeMapper` of `crates/nzbkit-base/src/rar.rs`: what a
parse has found in one volume so far, whichever prefix of the headers it has
read. `FileEntry` has the fields that placement reads.
-/

namespace NzbFast.Rar

/-- Compression method of an entry piece. -/
inductive Method
  | store
  | compressed
  deriving DecidableEq

/-- RAR5 file-encryption parameters. -/
structure Rar5Crypt where
  lg2Count : UInt8
  salt : List.Vector UInt8 16
  iv : List.Vector UInt8 16
  check : Option (List.Vector UInt8 12)
  tweakedChecksum : Bool
  deriving DecidableEq

/-- Decryption parameters for one encrypted entry. -/
inductive EntryCrypt
  | rar5 (c : Rar5Crypt)
  | rar4 (salt : Option (List.Vector UInt8 8))
  deriving DecidableEq

/-- One file piece described by a volume's headers. -/
structure FileEntry where
  name : String
  unpackedSize : UInt64
  method : Method := .store
  encrypted : Bool := false
  crypt : Option EntryCrypt := none
  isDir : Bool := false
  sizeUnknown : Bool := false
  splitBefore : Bool
  splitAfter : Bool
  dataOff : UInt64
  dataLen : UInt64
  deriving DecidableEq

inductive RarVersion
  | v4
  | v5
  deriving DecidableEq

/-- Why a volume can't be (or stopped being) mapped. -/
inductive MapBlocker
  | notRar
  | encryptedHeaders
  | notStore
  | encryptedNoPassword
  | badPassword
  | corrupt (reason : String)
  deriving DecidableEq

/-- What a mapper has found so far. -/
structure Mapped where
  version : Option RarVersion
  entries : List FileEntry
  blocker : Option MapBlocker
  volumeNumber : Option UInt64
  volumeNumberLen : Option UInt64
  deriving DecidableEq

end NzbFast.Rar
