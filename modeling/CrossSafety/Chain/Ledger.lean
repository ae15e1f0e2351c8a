import CrossSafety.LogStore.Position
import CrossSafety.Message
import CrossSafety.StorageError

/-!
# The indexes of one chain

`Ledger` holds what is known of a chain apart from the logs themselves: the sealed blocks, the
source blocks, which block was derived from which source, and the heads. Derivation records are
kept by the number of the derived block. This module has the questions that are answered from the
indexes alone.
-/
namespace CrossSafety

structure SealedBlock where
  block : BlockRef
  logCount : UInt32
  /-- The messages that the block executes, by position of the executing log. -/
  messages : Table UInt32 ExecutingMessage
deriving DecidableEq, Inhabited

namespace SealedBlock

def bare (block : BlockRef) : SealedBlock := ⟨block, 0, .empty⟩

/-- What the checks between chains see of the block. -/
def opened (sealed : SealedBlock) : BlockContents :=
  ⟨sealed.block, sealed.logCount, sealed.messages⟩

def hasLogs (sealed : SealedBlock) : Bool := 0 < sealed.logCount

/-- The position of the block's last log, for a block that has logs. -/
def lastLog (sealed : SealedBlock) : Position := ⟨sealed.block.number, sealed.logCount - 1⟩

/-- Whether the block executes a message from a block of a chain. -/
def executes (sealed : SealedBlock) (chain : MemberIndex) (block : UInt64) : Bool :=
  sealed.messages.values.any fun message => message.chain = chain ∧ message.blockNumber = block

end SealedBlock

/-- The indexes of one chain. -/
structure Ledger where
  blocks : Table UInt64 SealedBlock
  sources : Table UInt64 BlockRef
  /-- Local-safe blocks with the source they were derived from. -/
  localDerived : Table UInt64 DerivedPair
  /-- Cross-safe blocks with the source in which each became cross-safe first. -/
  crossDerived : Table UInt64 DerivedPair
  /-- The cross-safe head with the source that it is recorded in. -/
  crossSafe : Option DerivedPair
  crossUnsafe : Option BlockSeal
  finalized : Option BlockSeal
  /-- A local-safe block that was invalidated and has no replacement yet. -/
  invalidated : Option BlockSeal
deriving DecidableEq, Inhabited

namespace Ledger

def empty : Ledger := ⟨.empty, .empty, .empty, .empty, none, none, none, none⟩

def latest? (state : Ledger) : Option SealedBlock := state.blocks.last?

def latestNumber (state : Ledger) : UInt64 :=
  (state.latest?.map fun sealed => sealed.block.number).getD 0

/-- Whether blocks above `target` may be dropped: never below the finalized head. -/
def requireAboveFinalized (state : Ledger) (target : UInt64) : Except StorageError Unit :=
  match state.finalized with
  | some finalized =>
    if target < finalized.number then
      .error (.rewindBeyondFinalized target finalized.number)
    else .ok ()
  | none => .ok ()

/-- The sealed block with this number, which has to have this hash. -/
def sealedBlock (state : Ledger) (block : BlockId) : Except StorageError SealedBlock :=
  match state.blocks.get? block.number with
  | none => .error (.notFound (.sealedBlock block.number))
  | some sealed => if sealed.block.hash = block.hash then .ok sealed else .error .conflict

/-- Whether a source block is new. It has to equal the recorded one of its number, or to follow
the last recorded one. -/
def isNewSource (state : Ledger) (source : BlockRef) : Except StorageError Bool :=
  match state.sources.get? source.number with
  | some existing => if existing = source then .ok false else .error .conflict
  | none =>
    match state.sources.last? with
    | some last =>
      if source.number = last.number + 1 ∧ source.parentHash = last.hash then .ok true
      else .error .blockOutOfOrder
    | none => .ok true

def lastSealedLog (state : Ledger) : Option Position :=
  (state.blocks.values.reverse.find? SealedBlock.hasLogs).map SealedBlock.lastLog

def heads (state : Ledger) : Heads where
  localUnsafe := state.latest?.map fun sealed => sealed.block.toSeal
  crossUnsafe := state.crossUnsafe
  localSafe := state.localDerived.last?.map fun pair => pair.derived.toSeal
  crossSafe := state.crossSafe.map fun pair => pair.derived.toSeal
  finalized := state.finalized

def head (state : Ledger) (level : SafetyLevel) : Except StorageError BlockSeal :=
  match state.heads.get level with
  | some block => .ok block
  | none => .error (.notFound (.head level))

def blockAt (state : Ledger) (number : UInt64) : Except StorageError BlockContents :=
  match state.blocks.get? number with
  | some sealed => .ok sealed.opened
  | none =>
    match state.latest? with
    | some latest =>
      if number < latest.block.number then .error (.notFound (.sealedBlock number))
      else .error .futureData
    | none => .error .futureData

def findSealed (state : Ledger) (number : UInt64) : Except StorageError BlockSeal :=
  (state.blockAt number).map fun opened => opened.block.toSeal

def latestSealed (state : Ledger) : Except StorageError BlockSeal :=
  match state.latest? with
  | some sealed => .ok sealed.block.toSeal
  | none => .error (.notFound (.head .localUnsafe))

/-- The sealed block that a query names by number and timestamp. -/
def blockOfQuery (state : Ledger) (query : LogQuery) : Except StorageError SealedBlock :=
  match state.latest? with
  | none => .error .futureData
  | some latest =>
    if latest.block.number < query.blockNumber then .error .futureData
    else
      match state.blocks.get? query.blockNumber with
      | none => .error (.notFound (.sealedBlock query.blockNumber))
      | some sealed =>
        if sealed.block.timestamp = query.timestamp then .ok sealed else .error .conflict

def localSafeHead (state : Ledger) : Except StorageError DerivedPair :=
  match state.localDerived.last? with
  | some pair => .ok pair
  | none => .error (.notFound (.head .localSafe))

def crossSafeHead (state : Ledger) : Except StorageError DerivedPair :=
  match state.crossSafe with
  | some pair => .ok pair
  | none => .error (.notFound (.head .crossSafe))

/-- The local-safe block above the cross-safe head, with the source to check it in: its own, or
that of the head if that one is later. -/
def candidate (state : Ledger) : Except StorageError DerivedPair :=
  match state.invalidated with
  | some invalidated => .error (.awaitingReplacement invalidated.id)
  | none =>
    match state.crossSafe with
    | none => .error .databaseNotInitialised
    | some head =>
      match state.localDerived.get? (head.derived.number + 1) with
      | none => .error .futureData
      | some next =>
        if next.derived.parentHash = head.derived.hash then
          .ok ⟨if next.source.number ≤ head.source.number then head.source else next.source,
            next.derived⟩
        else .error .conflict

def sourceOf (state : Ledger) (derived : BlockId) : Except StorageError BlockSeal :=
  match state.crossDerived.get? derived.number with
  | some pair =>
    if pair.derived.hash = derived.hash then .ok pair.source.toSeal else .error .conflict
  | none =>
    match state.crossSafe with
    | some head =>
      if derived.number ≤ head.derived.number then
        .error (.notFound (.derivedBlock derived.number))
      else .error .futureData
    | none => .error .futureData

def sourceAfter (state : Ledger) (source : BlockId) : Except StorageError BlockRef :=
  match state.sources.get? source.number with
  | none => .error (.notFound (.sourceBlock source.number))
  | some known =>
    if known.hash = source.hash then
      match state.sources.get? (source.number + 1) with
      | some next => .ok next
      | none => .error .futureData
    else .error .conflict

def derivedBefore (state : Ledger) (derived : BlockId) : Except StorageError BlockSeal :=
  match state.localDerived.get? derived.number with
  | none => .error (.notFound (.derivedBlock derived.number))
  | some known =>
    if known.derived.hash = derived.hash then
      let previous :=
        if derived.number = 0 then none else state.localDerived.get? (derived.number - 1)
      match previous with
      | some pair => .ok pair.derived.toSeal
      | none => .error (.notFound (.derivedBlock (numberBefore derived.number)))
    else .error .conflict

/-- The lowest local-safe block above the cross-safe head that executes a message from a block of
a chain. -/
def firstExecuting (state : Ledger) (chain : MemberIndex) (block : UInt64) :
    Option DerivedPair :=
  let start := match state.crossSafe with
    | some head => head.derived.number + 1
    | none => 0
  let executing := state.blocks.filter (SealedBlock.executes · chain block)
  (state.localDerived.valuesFrom start).find? fun pair =>
    match executing.get? pair.derived.number with
    | some sealed => sealed.block.hash = pair.derived.hash
    | none => false

end Ledger

end CrossSafety
