import CrossSafety.Chain.Ledger

/-!
# Changes of a chain's indexes

Every change is a value: it is written to the journal and then applied, and reopening a chain
applies the written ones again. A change is only made after it was found to be allowed, so
`Ledger.apply` never fails. `Change.toJson` and `Change.ofJson?` are the journal's form.
-/
namespace CrossSafety

inductive Change where
  | snapshot (state : Ledger)
  | seal (sealed : SealedBlock)
  | addSource (source : BlockRef)
  | initialise (anchor : DerivedPair)
  | addDerived (pair : DerivedPair)
  | setCrossSafe (pair : DerivedPair)
  /-- Drops a local-safe block and everything built on it. -/
  | invalidate (derived : BlockRef)
  | setCrossUnsafe (block : BlockSeal)
  | setFinalized (block : BlockSeal)
  | rewindLocalUnsafe (number : UInt64)
  | rewindCrossUnsafe (target : BlockSeal)
  | rewindLocalSafe (number : UInt64)
  | rewindCrossSafe (number : UInt64)
deriving DecidableEq

namespace Ledger

/-- Drops the sealed blocks above `number`. -/
def dropBlocksAbove (state : Ledger) (number : UInt64) : Ledger :=
  let blocks := state.blocks.below (number + 1)
  let crossUnsafe := match state.crossUnsafe with
    | some head =>
      if number < head.number then (blocks.get? number).map fun sealed => sealed.block.toSeal
      else some head
    | none => none
  { state with blocks, crossUnsafe }

/-- Drops the cross-safe records above `number`. A head above it falls back to the last record. -/
def dropCrossSafeAbove (state : Ledger) (number : UInt64) : Ledger :=
  let crossDerived := state.crossDerived.below (number + 1)
  let crossSafe := match state.crossSafe with
    | some head => if number < head.derived.number then crossDerived.last? else some head
    | none => none
  { state with crossDerived, crossSafe }

/-- Drops the local-safe records from `number` on and the cross-safe records that rest on them. -/
def dropLocalSafeFrom (state : Ledger) (number : UInt64) : Ledger :=
  let state := { state with localDerived := state.localDerived.below number }
  let state := state.dropCrossSafeAbove (numberBefore number)
  if number = 0 then { state with crossDerived := .empty, crossSafe := none } else state

def apply (state : Ledger) : Change → Ledger
  | .snapshot other => other
  | .seal sealed => { state with blocks := state.blocks.insert sealed.block.number sealed }
  | .addSource source => { state with sources := state.sources.insert source.number source }
  | .initialise anchor =>
    { state with
      blocks := state.blocks.insertNew anchor.derived.number (.bare anchor.derived)
      sources := state.sources.insertNew anchor.source.number anchor.source
      localDerived := state.localDerived.insertNew anchor.derived.number anchor
      crossDerived := state.crossDerived.insert anchor.derived.number anchor
      crossSafe := some anchor
      crossUnsafe := state.crossUnsafe <|> some anchor.derived.toSeal }
  | .addDerived pair =>
    { state with
      sources := state.sources.insertNew pair.source.number pair.source
      localDerived := state.localDerived.insert pair.derived.number pair
      invalidated := state.invalidated.filter fun block => block.number ≠ pair.derived.number }
  | .setCrossSafe pair =>
    { state with
      crossDerived := state.crossDerived.insertNew pair.derived.number pair
      crossSafe := some pair }
  | .invalidate derived =>
    let state :=
      if derived.number ≠ 0 ∧ state.blocks.contains derived.number then
        state.dropBlocksAbove (derived.number - 1)
      else state
    { state.dropLocalSafeFrom derived.number with invalidated := some derived.toSeal }
  | .setCrossUnsafe block => { state with crossUnsafe := some block }
  | .setFinalized block => { state with finalized := some block }
  | .rewindLocalUnsafe number => state.dropBlocksAbove number
  | .rewindCrossUnsafe target =>
    { state with
      crossUnsafe := state.crossUnsafe.map fun head =>
        if target.number ≤ head.number then target else head }
  | .rewindLocalSafe number =>
    let state := state.dropLocalSafeFrom (number + 1)
    { state with invalidated := state.invalidated.filter fun block => block.number ≤ number }
  | .rewindCrossSafe number => state.dropCrossSafeAbove number

def replay (state : Ledger) (changes : List Change) : Ledger := changes.foldl apply state

end Ledger

namespace SealedBlock

def toJson (sealed : SealedBlock) : Json :=
  .record [("block", sealed.block.toJson), ("logCount", .halfWord sealed.logCount),
    ("executingMessages", .table ExecutingMessage.toJson sealed.messages)]

def shape : Json.Shape :=
  .record [("block", BlockRef.shape), ("logCount", .any),
    ("executingMessages", .table ExecutingMessage.shape)]

def ofJson? (value : Json) : Option SealedBlock := do
  let fields ← value.toFields? shape
  return {
    block := ← fields.required 0 BlockRef.ofJson?
    logCount := ← fields.required 1 Json.toHalfWord?
    messages := ← fields.required 2 (Json.toHalfTable? ExecutingMessage.ofJson?) }

end SealedBlock

namespace Ledger

def toJson (state : Ledger) : Json :=
  .record [("blocks", .table SealedBlock.toJson state.blocks),
    ("sources", .table BlockRef.toJson state.sources),
    ("localDerived", .table DerivedPair.toJson state.localDerived),
    ("crossDerived", .table DerivedPair.toJson state.crossDerived),
    ("crossSafe", .optional DerivedPair.toJson state.crossSafe),
    ("crossUnsafe", .optional BlockSeal.toJson state.crossUnsafe),
    ("finalized", .optional BlockSeal.toJson state.finalized),
    ("invalidated", .optional BlockSeal.toJson state.invalidated)]

def shape : Json.Shape :=
  .record [("blocks", .table SealedBlock.shape), ("sources", .table BlockRef.shape),
    ("localDerived", .table DerivedPair.shape), ("crossDerived", .table DerivedPair.shape),
    ("crossSafe", DerivedPair.shape), ("crossUnsafe", BlockSeal.shape),
    ("finalized", BlockSeal.shape), ("invalidated", BlockSeal.shape)]

def ofJson? (value : Json) : Option Ledger := do
  let fields ← value.toFields? shape
  return {
    blocks := ← fields.required 0 (Json.toTable? SealedBlock.ofJson?)
    sources := ← fields.required 1 (Json.toTable? BlockRef.ofJson?)
    localDerived := ← fields.required 2 (Json.toTable? DerivedPair.ofJson?)
    crossDerived := ← fields.required 3 (Json.toTable? DerivedPair.ofJson?)
    crossSafe := ← fields.nullable 4 DerivedPair.ofJson?
    crossUnsafe := ← fields.nullable 5 BlockSeal.ofJson?
    finalized := ← fields.nullable 6 BlockSeal.ofJson?
    invalidated := ← fields.nullable 7 BlockSeal.ofJson? }

end Ledger

namespace Change

/-- A JSON object with the name of the kind of change and what it carries. -/
def toJson : Change → Json
  | .snapshot state => .record [("snapshot", state.toJson)]
  | .seal sealed => .record [("sealBlock", sealed.toJson)]
  | .addSource source => .record [("saveSource", source.toJson)]
  | .initialise anchor => .record [("initialise", anchor.toJson)]
  | .addDerived pair => .record [("saveDerived", pair.toJson)]
  | .setCrossSafe pair => .record [("updateCrossSafe", pair.toJson)]
  | .invalidate derived => .record [("invalidateLocalSafe", derived.toJson)]
  | .setCrossUnsafe block => .record [("updateCrossUnsafe", block.toJson)]
  | .setFinalized block => .record [("updateFinalized", block.toJson)]
  | .rewindLocalUnsafe number => .record [("rewindLocalUnsafe", heightToJson number)]
  | .rewindCrossUnsafe target => .record [("rewindCrossUnsafe", target.toJson)]
  | .rewindLocalSafe number => .record [("rewindLocalSafe", heightToJson number)]
  | .rewindCrossSafe number => .record [("rewindCrossSafe", heightToJson number)]
where
  heightToJson (number : UInt64) : Json := .record [("number", .word number)]

def heightOfJson? (value : Json) : Option UInt64 := do
  let fields ← value.toFields? (.ofNames ["number"])
  fields.required 0 Json.toWord?

def shape : Json.Shape :=
  .record [("snapshot", Ledger.shape), ("sealBlock", SealedBlock.shape),
    ("saveSource", BlockRef.shape), ("initialise", DerivedPair.shape),
    ("saveDerived", DerivedPair.shape), ("updateCrossSafe", DerivedPair.shape),
    ("invalidateLocalSafe", BlockRef.shape), ("updateCrossUnsafe", BlockSeal.shape),
    ("updateFinalized", BlockSeal.shape), ("rewindCrossUnsafe", BlockSeal.shape)]

/-- Reads a change from an object with a single member. -/
def ofJson? : Json → Option Change
  | .object [(key, value)] => do
    match ← Json.spelled? key with
    | "snapshot" => return .snapshot (← Ledger.ofJson? value)
    | "sealBlock" => return .seal (← SealedBlock.ofJson? value)
    | "saveSource" => return .addSource (← BlockRef.ofJson? value)
    | "initialise" => return .initialise (← DerivedPair.ofJson? value)
    | "saveDerived" => return .addDerived (← DerivedPair.ofJson? value)
    | "updateCrossSafe" => return .setCrossSafe (← DerivedPair.ofJson? value)
    | "invalidateLocalSafe" => return .invalidate (← BlockRef.ofJson? value)
    | "updateCrossUnsafe" => return .setCrossUnsafe (← BlockSeal.ofJson? value)
    | "updateFinalized" => return .setFinalized (← BlockSeal.ofJson? value)
    | "rewindLocalUnsafe" => return .rewindLocalUnsafe (← heightOfJson? value)
    | "rewindCrossUnsafe" => return .rewindCrossUnsafe (← BlockSeal.ofJson? value)
    | "rewindLocalSafe" => return .rewindLocalSafe (← heightOfJson? value)
    | "rewindCrossSafe" => return .rewindCrossSafe (← heightOfJson? value)
    | _ => none
  | _ => none

end Change

end CrossSafety
