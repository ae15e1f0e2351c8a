import CrossSafety.Hash

/-!
# Blocks

A `BlockSeal` names a sealed block with its hash, number and timestamp. A `BlockRef` adds the hash
of the parent. A `DerivedPair` joins a block to the source block that it was derived from.
-/
namespace CrossSafety

abbrev ChainId := UInt64

/-- The number that stands for a chain inside messages. -/
abbrev MemberIndex := UInt32

structure BlockId where
  number : UInt64
  hash : Hash
deriving DecidableEq, Inhabited

structure BlockSeal where
  hash : Hash
  number : UInt64
  timestamp : UInt64
deriving DecidableEq, Inhabited

structure BlockRef where
  hash : Hash
  number : UInt64
  parentHash : Hash
  timestamp : UInt64
deriving DecidableEq, Inhabited

/-- The number of a block's parent. Block zero counts as its own parent. -/
def numberBefore (number : UInt64) : UInt64 := if number = 0 then 0 else number - 1

def blockText (hash : Hash) (number : UInt64) : String := hash.text ++ ":" ++ toString number

namespace BlockId

def toJson (id : BlockId) : Json :=
  .record [("number", .word id.number), ("hash", id.hash.toJson)]

end BlockId

namespace BlockSeal

def id (block : BlockSeal) : BlockId := ⟨block.number, block.hash⟩

/-- The block with a link to `parent`, if that is the block directly below it. -/
def linkedTo? (block parent : BlockSeal) : Option BlockRef :=
  if parent.number + 1 = block.number then
    some ⟨block.hash, block.number, parent.hash, block.timestamp⟩
  else none

def text (block : BlockSeal) : String := blockText block.hash block.number

def toJson (block : BlockSeal) : Json :=
  .record [("hash", block.hash.toJson), ("number", .word block.number),
    ("timestamp", .word block.timestamp)]

def shape : Json.Shape := .record [("hash", Hash.shape), ("number", .any), ("timestamp", .any)]

def ofJson? (value : Json) : Option BlockSeal := do
  let fields ← value.toFields? shape
  return {
    hash := ← fields.required 0 Hash.ofJson?
    number := ← fields.required 1 Json.toWord?
    timestamp := ← fields.required 2 Json.toWord? }

end BlockSeal

namespace BlockRef

def id (block : BlockRef) : BlockId := ⟨block.number, block.hash⟩

def parentId (block : BlockRef) : BlockId := ⟨numberBefore block.number, block.parentHash⟩

def toSeal (block : BlockRef) : BlockSeal := ⟨block.hash, block.number, block.timestamp⟩

def text (block : BlockRef) : String := blockText block.hash block.number

def toJson (block : BlockRef) : Json :=
  .record [("hash", block.hash.toJson), ("number", .word block.number),
    ("parentHash", block.parentHash.toJson), ("timestamp", .word block.timestamp)]

def shape : Json.Shape :=
  .record [("hash", Hash.shape), ("number", .any), ("parentHash", Hash.shape), ("timestamp", .any)]

def ofJson? (value : Json) : Option BlockRef := do
  let fields ← value.toFields? shape
  return {
    hash := ← fields.required 0 Hash.ofJson?
    number := ← fields.required 1 Json.toWord?
    parentHash := ← fields.required 2 Hash.ofJson?
    timestamp := ← fields.required 3 Json.toWord? }

end BlockRef

/-- A block and the source block that it was derived from. -/
structure DerivedPair where
  source : BlockRef
  derived : BlockRef
deriving DecidableEq, Inhabited

namespace DerivedPair

def text (pair : DerivedPair) : String :=
  "source: " ++ pair.source.text ++ ", derived: " ++ pair.derived.text

def toJson (pair : DerivedPair) : Json :=
  .record [("source", pair.source.toJson), ("derived", pair.derived.toJson)]

def shape : Json.Shape := .record [("source", BlockRef.shape), ("derived", BlockRef.shape)]

def ofJson? (value : Json) : Option DerivedPair := do
  let fields ← value.toFields? shape
  return {
    source := ← fields.required 0 BlockRef.ofJson?
    derived := ← fields.required 1 BlockRef.ofJson? }

end DerivedPair

/-- A source block and a block derived from it, without their parents. -/
structure SealPair where
  source : BlockSeal
  derived : BlockSeal
deriving DecidableEq, Inhabited

def DerivedPair.seals (pair : DerivedPair) : SealPair := ⟨pair.source.toSeal, pair.derived.toSeal⟩

def SealPair.text (pair : SealPair) : String :=
  "source: " ++ pair.source.text ++ ", derived: " ++ pair.derived.text

/-- A local-safe block of `chain` that executes a message of some other block. -/
structure Dependent where
  chain : ChainId
  block : DerivedPair
deriving DecidableEq, Inhabited

namespace Dependent

def text (dependent : Dependent) : String :=
  "chain " ++ toString dependent.chain ++ ": " ++ dependent.block.text

def toJson (dependent : Dependent) : Json :=
  .record [("chain", .word dependent.chain), ("block", dependent.block.toJson)]

end Dependent

end CrossSafety
