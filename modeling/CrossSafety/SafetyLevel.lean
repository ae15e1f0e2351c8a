import CrossSafety.Block

/-!
# Safety levels and heads

A chain has one head per safety level. The first four levels may be rewound by a reorg.
-/
namespace CrossSafety

inductive SafetyLevel where
  /-- Sealed, not derived from a source yet. -/
  | localUnsafe
  /-- Sealed, and so are the blocks that it depends on. -/
  | crossUnsafe
  /-- Derived from a source block. -/
  | localSafe
  /-- Derived, and all that it depends on is cross-safe. -/
  | crossSafe
  /-- Derived from a finalized source block. -/
  | finalized
deriving DecidableEq, Inhabited

namespace SafetyLevel

def all : List SafetyLevel := [.localUnsafe, .crossUnsafe, .localSafe, .crossSafe, .finalized]

/-- The levels that a reorg may rewind. -/
def rewindable : List SafetyLevel := [.localUnsafe, .crossUnsafe, .localSafe, .crossSafe]

def text : SafetyLevel → String
  | .localUnsafe => "local-unsafe"
  | .crossUnsafe => "cross-unsafe"
  | .localSafe => "local-safe"
  | .crossSafe => "cross-safe"
  | .finalized => "finalized"

def ofText? (text : String) : Option SafetyLevel := all.find? fun level => level.text = text

def toJson (level : SafetyLevel) : Json := .text level.text

/-- Reads a level from its name, or from an object that maps only its name to `null`. -/
def ofJson? : Json → Option SafetyLevel
  | .string spelling => Json.spelled? spelling >>= ofText?
  | .object [(key, .null)] => Json.spelled? key >>= ofText?
  | _ => none

end SafetyLevel

structure Heads where
  localUnsafe : Option BlockSeal
  crossUnsafe : Option BlockSeal
  localSafe : Option BlockSeal
  crossSafe : Option BlockSeal
  finalized : Option BlockSeal
deriving DecidableEq, Inhabited

namespace Heads

def get (heads : Heads) : SafetyLevel → Option BlockSeal
  | .localUnsafe => heads.localUnsafe
  | .crossUnsafe => heads.crossUnsafe
  | .localSafe => heads.localSafe
  | .crossSafe => heads.crossSafe
  | .finalized => heads.finalized

def toJson (heads : Heads) : Json :=
  .record [("localUnsafe", .optional BlockSeal.toJson heads.localUnsafe),
    ("crossUnsafe", .optional BlockSeal.toJson heads.crossUnsafe),
    ("localSafe", .optional BlockSeal.toJson heads.localSafe),
    ("crossSafe", .optional BlockSeal.toJson heads.crossSafe),
    ("finalized", .optional BlockSeal.toJson heads.finalized)]

end Heads

end CrossSafety
