import Mathlib.Data.UInt

/-!
# The central directory of a zip

`Entry` (`crates/nzbkit-base/src/zip.rs`): one record of a zip's central
directory, with its 64-bit sizes resolved.
-/

namespace NzbFast.Zip

/-- The parameters of a WinZip AE entry. -/
structure AesSpec where
  vendorVersion : UInt16
  strength : UInt8
  method : UInt16
  deriving DecidableEq

/-- `AesSpec::skips_crc`: AE-2 has no CRC. -/
def AesSpec.skipsCrc (a : AesSpec) : Bool := a.vendorVersion = 2

structure Entry where
  name : String
  method : UInt16
  crc32 : UInt32
  compressedSize : UInt64
  uncompressedSize : UInt64
  isDir : Bool
  flags : UInt16
  dosTime : UInt16
  aes : Option AesSpec
  unixMode : UInt16
  localOffset : UInt64
  deriving DecidableEq

def METHOD_STORE : UInt16 := 0

def Entry.isEncrypted (e : Entry) : Bool := e.flags &&& 0x0001 != 0

def Entry.isSymlink (e : Entry) : Bool := e.unixMode &&& 0xF000 == 0xA000

def realMethod (e : Entry) : UInt16 :=
  match e.aes with
  | some a => a.method
  | none => e.method

def crcIsAuthoritative (e : Entry) : Bool := e.aes.all fun a => !a.skipsCrc

end NzbFast.Zip
