import CrossSafety.Safety.Check

/-!
# Hazard sets

A block that executes a message carrying its own timestamp depends on a block that may not be
cross-safe yet: a hazard. The hazard set of a block holds every hazard reachable from it, at most
one block per chain. Building it checks each block on the way: its messages must be permitted,
not newer than the block, and stored, and the older ones must lie in valid blocks.
-/
namespace CrossSafety

/-- The blocks that a block depends on at its own timestamp, by chain index. -/
abbrev Hazards := Table MemberIndex BlockSeal

/-- Decides whether an older block may be depended on. -/
abbrev OlderBlockCheck := ChainId → BlockSeal → Check Unit

/-- A block of a chain whose messages are still to be checked. -/
structure PendingBlock where
  chain : ChainId
  block : BlockSeal
deriving DecidableEq

/-- What is still to be checked, next one first, and the hazards found so far. -/
structure HazardSearch where
  pending : List PendingBlock
  found : Hazards

namespace HazardSearch

/-- Adds a hazard. One that is there already has to be the same block. -/
def add (search : HazardSearch) (index : MemberIndex) (chain : ChainId) (block : BlockSeal) :
    Check HazardSearch :=
  match search.found.get? index with
  | some existing =>
    if existing.id = block.id then pure search
    else .reject (.hazardConflict index existing block)
  | none => pure ⟨⟨chain, block⟩ :: search.pending, search.found.insert index block⟩

/-- Checks the message that a block executes at the log `logIndex`. -/
def checkMessage (view : SafetyView) (set : DependencySet) (valid : OlderBlockCheck)
    (ownIndex : MemberIndex) (block : BlockSeal) (logIndex : UInt32) (message : ExecutingMessage)
    (search : HazardSearch) : Check HazardSearch := do
  if message.chain = ownIndex ∧ message.blockNumber = block.number
      ∧ message.logIndex = logIndex then
    .reject (.selfReferencing ownIndex logIndex)
  else
    let chain ← .ofResult ((set.idOfIndex message.chain).mapError .ofIndexLookup)
    if ← .lookup (set.mayInitiateAt chain message.timestamp) then
      if block.timestamp < message.timestamp then
        .reject (.timestampInvariant block message.timestamp)
      else
        let holder ← .require (.contains chain message.query) (view.contains chain message.query)
        if message.timestamp < block.timestamp then do
          valid chain holder
          return search
        else search.add message.chain chain holder
    else .reject (.initiationNotPermitted chain message.timestamp)

/-- Checks messages in the order of their logs. -/
def checkMessages (view : SafetyView) (set : DependencySet) (valid : OlderBlockCheck)
    (ownIndex : MemberIndex) (block : BlockSeal) :
    List (UInt32 × ExecutingMessage) → HazardSearch → Check HazardSearch
  | [], search => pure search
  | (logIndex, message) :: rest, search => do
    checkMessages view set valid ownIndex block rest
      (← checkMessage view set valid ownIndex block logIndex message search)

def visit (view : SafetyView) (set : DependencySet) (valid : OlderBlockCheck)
    (next : PendingBlock) (search : HazardSearch) : Check HazardSearch := do
  let opened ← view.openExactly next.chain next.block
  if opened.messages.isEmpty then return search
  else if ← .lookup (set.mayExecuteAt next.chain next.block.timestamp) then
    let ownIndex ← .lookup (set.indexOfId next.chain)
    checkMessages view set valid ownIndex next.block opened.messages.toList search
  else .reject (.executionNotPermitted next.chain next.block.timestamp)

/-- Checks pending blocks, at most `left` of the `limit`, until none is left. -/
def run (view : SafetyView) (set : DependencySet) (valid : OlderBlockCheck) (limit : Nat) :
    Nat → HazardSearch → Check Hazards
  | _, ⟨[], found⟩ => pure found
  | 0, ⟨_ :: _, _⟩ => .fail (.hazardLimitExceeded limit)
  | left + 1, ⟨next :: pending, found⟩ => do
    run view set valid limit left (← visit view set valid next ⟨pending, found⟩)

end HazardSearch

/-- Builds the hazard set of a block, checking at most `limit` blocks. -/
def Hazards.build (view : SafetyView) (set : DependencySet) (valid : OlderBlockCheck)
    (limit : Nat) (chain : ChainId) (block : BlockSeal) : Check Hazards :=
  HazardSearch.run view set valid limit limit ⟨[⟨chain, block⟩], .empty⟩

end CrossSafety
