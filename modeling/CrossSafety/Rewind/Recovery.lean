import CrossSafety.Chain.Operation
import CrossSafety.Event.Dispatch
import CrossSafety.Rewind.Source

/-!
# Rewinding a chain

After a reorg the chain goes back to the highest stored block that its source still has, but
never below the finalized head. If a block is derived that differs from the sealed one of its
number, the chain goes back to the parent of that block. Nothing is said here about where the
chain is stored: a `RewindStore` answers and takes the writes.
-/
namespace CrossSafety

inductive RewindNote where
  | lookedUp (number : UInt64)
  | asked (number : UInt64)
  /-- The chain now ends in `head`, and lost this many blocks. -/
  | rewound (head : BlockSeal) (depth : UInt64)
  | finished (request : RewindRequest) (succeeded : Bool)
deriving DecidableEq

/-- How a recovery reads and changes a chain in a state. -/
structure RewindStore (σ : Type) where
  heads : σ → Except StorageError Heads
  finalized : σ → Except StorageError BlockSeal
  latestSealed : σ → Except StorageError BlockSeal
  findSealed : UInt64 → σ → Except StorageError BlockSeal
  perform : Operation → σ → Except StorageError Unit × σ
  note : RewindNote → σ → σ

/-- A step of a rewind. The changes made before a failure stay. -/
abbrev Rewind (σ : Type) := ExceptT RewindError (StateM σ)

/-- What a recovery works with. -/
structure Recovery (σ : Type) where
  chain : ChainId
  store : RewindStore σ
  source : Option BlockSource

def StorageError.isUnsetHead : StorageError → Bool
  | .notFound (.head _) => true
  | _ => false

def StorageError.isUnsealed : StorageError → Bool
  | .futureData | .notFound (.sealedBlock _) => true
  | _ => false

/-- The heads that can be rewound and how to do it, highest first. -/
def rewindSteps : List (SafetyLevel × (BlockId → Operation)) :=
  [(.crossSafe, .rewindCrossSafe), (.localSafe, .rewindLocalSafe),
    (.crossUnsafe, .rewindCrossUnsafe), (.localUnsafe, .rewindLocalUnsafe)]

/-- The distance down from one number to another, zero if there is none. -/
def depthBetween (above below : UInt64) : UInt64 := if below ≤ above then above - below else 0

namespace Recovery

variable {σ : Type}

def read {α : Type} (ask : σ → Except RewindError α) : Rewind σ α :=
  ExceptT.mk fun state => (ask state, state)

/-- What was read, unless it is missing. Any other failure to read stays one. -/
def present? {α : Type} (missing : StorageError → Bool) :
    Except StorageError α → Except RewindError (Option α)
  | .ok value => .ok (some value)
  | .error e => if missing e then .ok none else .error (.storage e)

def tell (recovery : Recovery σ) (note : RewindNote) : Rewind σ Unit :=
  ExceptT.mk fun state => (.ok (), recovery.store.note note state)

def write (recovery : Recovery σ) (operation : Operation) : Rewind σ Unit :=
  ExceptT.mk fun state =>
    let (result, state) := recovery.store.perform operation state
    (result.mapError .storage, state)

def lookUp (recovery : Recovery σ) (number : UInt64) :
    Rewind σ (Except StorageError BlockSeal) := do
  let found ← read fun state => .ok (recovery.store.findSealed number state)
  recovery.tell (.lookedUp number)
  return found

def findSealed (recovery : Recovery σ) (number : UInt64) : Rewind σ BlockSeal := do
  let found ← recovery.lookUp number
  ExceptT.mk (pure (found.mapError .storage))

def findSealed? (recovery : Recovery σ) (number : UInt64) : Rewind σ (Option BlockSeal) := do
  let found ← recovery.lookUp number
  ExceptT.mk (pure (present? StorageError.isUnsealed found))

def finalizedNumber (recovery : Recovery σ) : Rewind σ (Option UInt64) := do
  let head ← read fun state =>
    present? StorageError.isUnsetHead (recovery.store.finalized state)
  return head.map BlockSeal.number

def ask (recovery : Recovery σ) (source : BlockSource) (number : UInt64) : Rewind σ BlockRef := do
  recovery.tell (.asked number)
  ExceptT.mk (pure ((source number).mapError .source))

/-- The highest stored block that the source has too, among the `count` numbers from `floor` on. -/
def findCommon (recovery : Recovery σ) (source : BlockSource) (floor : UInt64) :
    Nat → Rewind σ (Option BlockSeal)
  | 0 => return none
  | count + 1 => do
    let height := floor + UInt64.ofNat count
    match ← recovery.findSealed? height with
    | none => recovery.findCommon source floor count
    | some stored =>
      let block ← recovery.ask source height
      if block.hash = stored.hash then return some stored
      else recovery.findCommon source floor count

/-- Rewinds every head at or above a block to it. -/
def lowerHeads (recovery : Recovery σ) (common : BlockSeal) : Rewind σ Unit := do
  let heads ← read fun state => (recovery.store.heads state).mapError .storage
  for (level, rewind) in rewindSteps do
    if (heads.get level).any fun head => common.number ≤ head.number then
      recovery.write (rewind common.id)
  recovery.tell (.rewound common
    ((heads.localUnsafe.map fun head => depthBetween head.number common.number).getD 0))

/-- Goes back to the highest block below a bad one that the source has. Answers that block, or
nothing if only finalized blocks are below. -/
def afterReorg (recovery : Recovery σ) (bad : BlockSeal) : Rewind σ (Option BlockSeal) := do
  let finalized ← recovery.finalizedNumber
  if bad.number = 0 then return none
  let top := bad.number - 1
  if finalized.any (top ≤ ·) then return none
  match recovery.source with
  | none => throw (.missingBlockSource recovery.chain)
  | some source =>
    let floor := finalized.getD 0
    match ← recovery.findCommon source floor (top.toNat - floor.toNat + 1) with
    | none => throw (.noCommonAncestor recovery.chain)
    | some common =>
      recovery.lowerHeads common
      return some common

/-- Goes back to the parent of a derived block. Answers the parent, or nothing if the derived
block is the sealed one or higher than all of them. -/
def afterDerived (recovery : Recovery σ) (block : BlockRef) : Rewind σ (Option BlockSeal) := do
  let latest ← read fun state =>
    present? StorageError.isUnsetHead (recovery.store.latestSealed state)
  match latest with
  | none => return none
  | some latest =>
    if latest.number < block.number then return none
    let stored ← recovery.findSealed block.number
    if stored.hash = block.hash then return none
    recovery.write (.rewindLocalUnsafe block.parentId)
    let head ← recovery.findSealed block.parentId.number
    recovery.tell (.rewound head (depthBetween latest.number head.number))
    return some head

def run {α : Type} (recovery : Recovery σ) (request : RewindRequest) (steps : Rewind σ α)
    (state : σ) : Except RewindError α × σ :=
  let (result, state) := (ExceptT.run steps).run state
  (result, recovery.store.note (.finished request result.isOk) state)

/-- Rewinds the chain after a block turned out not to be part of it. -/
def followSource (recovery : Recovery σ) (bad : BlockSeal) :
    σ → Except RewindError (Option BlockSeal) × σ :=
  recovery.run .chainReorg (recovery.afterReorg bad)

/-- Drops the sealed blocks that a derived block replaces. -/
def followDerived (recovery : Recovery σ) (pair : DerivedPair) :
    σ → Except RewindError (Option BlockSeal) × σ :=
  recovery.run .localDerived (recovery.afterDerived pair.derived)

def handle (recovery : Recovery σ) : Handler σ
  | .chainReorg bad, state => (true, (recovery.followSource bad state).2)
  | .localDerived pair, state => (true, (recovery.followDerived pair state).2)
  | _, state => (false, state)

end Recovery

end CrossSafety
