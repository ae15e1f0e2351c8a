import CrossSafety.Chain.Change

/-!
# Writing to a chain

A write is an `Operation`. `Ledger.plan` decides from the indexes whether it is allowed and
which steps carry it out. Logs are written before the change that refers to them and dropped
before the change that gives their blocks up, so at no point does the index name a block whose
logs were never stored.
-/
namespace CrossSafety

inductive Operation where
  /-- Makes `anchor` the first local-safe and cross-safe block. -/
  | initialise (anchor : DerivedPair)
  | seal (block : BlockRef) (logs : List Log)
  | addSource (source : BlockRef)
  | addDerived (pair : DerivedPair)
  /-- Makes a block the cross-safe head, recorded in a source block. -/
  | setCrossSafe (pair : DerivedPair)
  /-- Drops a local-safe block until it is replaced. -/
  | invalidate (candidate : DerivedPair)
  | setCrossUnsafe (block : BlockSeal)
  | setFinalized (block : BlockSeal)
  | rewindLocalUnsafe (target : BlockId)
  | rewindCrossUnsafe (target : BlockId)
  | rewindLocalSafe (target : BlockId)
  | rewindCrossSafe (target : BlockId)
deriving DecidableEq

/-- One step of a write. A step happens as a whole or not at all. -/
inductive WriteStep where
  | addLog (hash : Hash) (block : BlockId) (timestamp : UInt64) (index : UInt32)
  | rewindLogs (block : UInt64)
  | commit (change : Change)
deriving DecidableEq

namespace Ledger

/-- Fails with `error` unless a condition holds. -/
def require (condition : Prop) [Decidable condition] (error : StorageError) :
    Except StorageError Unit :=
  if condition then .ok () else .error error

/-- Whether two blocks follow each other directly. -/
def follows (block below : BlockRef) : Prop :=
  block.number = below.number + 1 ∧ block.parentHash = below.hash

instance (block below : BlockRef) : Decidable (follows block below) :=
  inferInstanceAs (Decidable (_ ∧ _))

/-- An empty index takes any anchor that agrees with the blocks that are there. -/
def planInitialise (state : Ledger) (anchor : DerivedPair) :
    Except StorageError (List WriteStep) := do
  if state.crossDerived.isEmpty then
    match state.blocks.get? anchor.derived.number with
    | some sealed => require (sealed.block.hash = anchor.derived.hash) .conflict
    | none => require (state.blocks.isEmpty = true) .blockOutOfOrder
    let _ ← state.isNewSource anchor.source
    match state.localDerived.get? anchor.derived.number with
    | some existing => require (existing = anchor) .conflict
    | none => require (state.localDerived.isEmpty = true) .blockOutOfOrder
    return [.commit (.initialise anchor)]
  else
    require (state.crossDerived.get? anchor.derived.number = some anchor) .conflict
    return []

def sealedWith (block : BlockRef) (logs : List Log) : SealedBlock where
  block
  logCount := UInt32.ofNat logs.length
  messages := logs.foldl (fun messages log =>
    match log.message with
    | some message => messages.insert log.index message
    | none => messages) .empty

/-- A block extends the latest one, or is stored already. -/
def planSeal (state : Ledger) (block : BlockRef) (logs : List Log) :
    Except StorageError (List WriteStep) := do
  let steps := logs.map (fun log => WriteStep.addLog log.hash block.id block.timestamp log.index)
    ++ [.commit (.seal (sealedWith block logs))]
  match state.latest? with
  | none => return steps
  | some latest =>
    match state.blocks.get? block.number with
    | some existing =>
      require (existing.block = block) .conflict
      return []
    | none =>
      require (follows block latest.block) .blockOutOfOrder
      return steps

/-- A source block extends the last one, or is stored already. -/
def planSource (state : Ledger) (source : BlockRef) : Except StorageError (List WriteStep) := do
  if ← state.isNewSource source then return [.commit (.addSource source)] else return []

/-- A derived block extends the local-safe head, or is stored already. Its source is never below
that of the head, and an invalidated block does not come back. -/
def planDerived (state : Ledger) (pair : DerivedPair) :
    Except StorageError (List WriteStep) := do
  match state.localDerived.get? pair.derived.number with
  | some existing =>
    require (existing = pair) .conflict
    return []
  | none =>
    require (state.invalidated.map BlockSeal.id ≠ some pair.derived.id) .conflict
    match state.localDerived.last? with
    | some last =>
      require (follows pair.derived last.derived ∧ last.source.number ≤ pair.source.number)
        .blockOutOfOrder
    | none => pure ()
    let _ ← state.isNewSource pair.source
    return [.commit (.addDerived pair)]

/-- The new cross-safe head is local-safe and is the old one or its child, and its source is not
below that of the old one. -/
def planCrossSafe (state : Ledger) (pair : DerivedPair) :
    Except StorageError (List WriteStep) := do
  match state.localDerived.get? pair.derived.number with
  | none => throw .futureData
  | some known => require (known.derived.hash = pair.derived.hash) .conflict
  match state.crossSafe with
  | none => throw .databaseNotInitialised
  | some head =>
    if pair.derived.number = head.derived.number then
      require (pair.derived.hash = head.derived.hash) .conflict
    else
      require (follows pair.derived head.derived) .blockOutOfOrder
    require (head.source.number ≤ pair.source.number) .blockOutOfOrder
    return [.commit (.setCrossSafe pair)]

/-- Sealed blocks may be dropped down to a sealed block that is not below the finalized head. -/
def requireKept (state : Ledger) (target : BlockId) : Except StorageError Unit := do
  state.requireAboveFinalized target.number
  let _ ← state.sealedBlock target

/-- The block is local-safe and above the finalized head. If its number is sealed, so is its
parent, and the sealed blocks above the parent go too. -/
def planInvalidate (state : Ledger) (candidate : DerivedPair) :
    Except StorageError (List WriteStep) := do
  let derived := candidate.derived
  match state.localDerived.get? derived.number with
  | none => throw (.notFound (.derivedBlock derived.number))
  | some existing => require (existing.derived.hash = derived.hash) .conflict
  let parent := derived.parentId
  state.requireAboveFinalized parent.number
  if derived.number ≠ 0 ∧ state.blocks.contains derived.number then
    state.requireKept parent
    return [.rewindLogs parent.number, .commit (.invalidate derived)]
  else
    return [.commit (.invalidate derived)]

/-- The finalized head is cross-safe and never moves down. -/
def planFinalized (state : Ledger) (block : BlockSeal) :
    Except StorageError (List WriteStep) := do
  match state.crossDerived.get? block.number with
  | none => throw (.notFound (.derivedBlock block.number))
  | some pair => require (pair.derived.hash = block.hash) .conflict
  match state.finalized with
  | some finalized => require (finalized.number ≤ block.number) .blockOutOfOrder
  | none => pure ()
  return [.commit (.setFinalized block)]

/-- Checks a rewind of derivation records: a record at the target has to have its hash. -/
def checkRecord (state : Ledger) (records : Table UInt64 DerivedPair) (target : BlockId) :
    Except StorageError Unit := do
  state.requireAboveFinalized target.number
  match records.get? target.number with
  | some pair => require (pair.derived.hash = target.hash) .conflict
  | none => pure ()

def plan (state : Ledger) : Operation → Except StorageError (List WriteStep)
  | .initialise anchor => state.planInitialise anchor
  | .seal block logs => state.planSeal block logs
  | .addSource source => state.planSource source
  | .addDerived pair => state.planDerived pair
  | .setCrossSafe pair => state.planCrossSafe pair
  | .invalidate candidate => state.planInvalidate candidate
  | .setCrossUnsafe block => do
    let _ ← state.sealedBlock block.id
    return [.commit (.setCrossUnsafe block)]
  | .setFinalized block => state.planFinalized block
  | .rewindLocalUnsafe target => do
    state.requireKept target
    return [.rewindLogs target.number, .commit (.rewindLocalUnsafe target.number)]
  | .rewindCrossUnsafe target => do
    state.requireAboveFinalized target.number
    let sealed ← state.sealedBlock target
    return [.commit (.rewindCrossUnsafe sealed.block.toSeal)]
  | .rewindLocalSafe target => do
    state.checkRecord state.localDerived target
    return [.commit (.rewindLocalSafe target.number)]
  | .rewindCrossSafe target => do
    state.checkRecord state.crossDerived target
    return [.commit (.rewindCrossSafe target.number)]

end Ledger

end CrossSafety
