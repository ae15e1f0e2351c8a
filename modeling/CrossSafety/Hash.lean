import CrossSafety.Json.Reader

/-!
# Hashes

A block or a log is identified by a hash of 32 bytes. The log file keeps only the first 20 of
them.
-/
namespace CrossSafety

structure Hash where
  bytes : Bytes
  length_eq : bytes.length = 32
deriving DecidableEq

/-- The first 20 bytes of a hash. -/
structure ShortHash where
  bytes : Bytes
  length_eq : bytes.length = 20
deriving DecidableEq

/-- Bytes as text: `0x` and two lower-case hexadecimal digits a byte. -/
def Bytes.hexText (bytes : Bytes) : Bytes := 48 :: 120 :: hex bytes

namespace Hash

/-- The hash of the first 32 of the given bytes, filled up with zeroes. -/
def ofBytes (bytes : Bytes) : Hash := ⟨bytes.fit 32, Bytes.length_fit 32 bytes⟩

instance : Inhabited Hash := ⟨ofBytes []⟩

def short (hash : Hash) : ShortHash := ⟨hash.bytes.fit 20, Bytes.length_fit 20 hash.bytes⟩

def text (hash : Hash) : String := (Bytes.text? hash.bytes.hexText).getD ""

def exactly? (bytes : Bytes) : Option Hash :=
  if h : bytes.length = 32 then some ⟨bytes, h⟩ else none

/-- Reads 64 hexadecimal digits of either case, after an optional mark. -/
def ofHex? (text : Bytes) : Option Hash := Bytes.unhex? (Bytes.dropHexMark text) >>= exactly?

def toJson (hash : Hash) : Json := .string hash.bytes.hexText

def shape : Json.Shape := .bytes 32

/-- Reads a hash from its hexadecimal digits or from an array of its bytes. -/
def ofJson? : Json → Option Hash
  | .string spelling => Json.unescape? spelling >>= ofHex?
  | .array items => items.mapM Json.toByte? >>= exactly?
  | _ => none

end Hash

namespace ShortHash

/-- The hash of the first 20 of the given bytes, filled up with zeroes. -/
def ofBytes (bytes : Bytes) : ShortHash := ⟨bytes.fit 20, Bytes.length_fit 20 bytes⟩

instance : Inhabited ShortHash := ⟨ofBytes []⟩

def toJson (hash : ShortHash) : Json := .string hash.bytes.hexText

end ShortHash

end CrossSafety
