import CrossSafety.Safety.Hazard

/-!
# Dependencies of a candidate

Every message that the candidate and its hazards execute points to a hazard block, which is
promoted jointly, or to a block that is cross-safe within the scope.
-/
namespace CrossSafety

/-- Whether a message depends on a hazard block. A message that carries the candidate's timestamp
has to. -/
def Hazards.isJoint (hazards : Hazards) (timestamp : UInt64) (message : ExecutingMessage) :
    Except RuleViolation Bool :=
  if (hazards.get? message.chain).any fun hazard => hazard.number = message.blockNumber then
    .ok true
  else if message.timestamp = timestamp then
    .error (.missingDependency message.chain message.blockNumber)
  else .ok false

namespace SafetyView

/-- Checks that a message comes from a block that is cross-safe within the scope. -/
def checkDependency (view : SafetyView) (set : DependencySet) (scope : UInt64)
    (message : ExecutingMessage) : Check Unit := do
  let chain ← .ofResult
    ((set.idOfIndex message.chain).mapError fun _ => .conflict (.unknownChain message.chain))
  let block ← .require (.contains chain message.query) (view.contains chain message.query)
  match ← .attempt (.sourceOf chain block.id) (view.sourceOf chain block.id) with
  | .ok source => requireInScope chain block.number source.number scope
  | .error .futureData | .error (.notFound (.derivedBlock _)) => .fail (.future chain block.number)
  | .error e => .fail (.storage e)

/-- Checks messages and adds the hazard blocks they depend on to those that were met before. -/
def checkMessages (view : SafetyView) (set : DependencySet) (scope timestamp : UInt64)
    (hazards : Hazards) :
    List ExecutingMessage → Table MemberIndex UInt64 → Check (Table MemberIndex UInt64)
  | [], met => pure met
  | message :: rest, met => do
    if ← .ofResult ((hazards.isJoint timestamp message).mapError .conflict) then
      checkMessages view set scope timestamp hazards rest
        (met.insert message.chain message.blockNumber)
    else
      view.checkDependency set scope message
      checkMessages view set scope timestamp hazards rest met

def checkBlocks (view : SafetyView) (set : DependencySet) (scope timestamp : UInt64)
    (hazards : Hazards) :
    List PendingBlock → Table MemberIndex UInt64 → Check (Table MemberIndex UInt64)
  | [], met => pure met
  | ⟨chain, block⟩ :: rest, met => do
    let opened ← .require (.blockAt chain block.number) (view.blockAt chain block.number)
    checkBlocks view set scope timestamp hazards rest
      (← view.checkMessages set scope timestamp hazards opened.messages.values met)

/-- Checks the messages of a candidate and of its hazards. Gives the number of hazard blocks that
a message depends on. -/
def checkDependencies (view : SafetyView) (set : DependencySet) (scope : UInt64)
    (chain : ChainId) (candidate : BlockSeal) (hazards : Hazards) : Check Nat := do
  let ownIndex ← .lookup (set.indexOfId chain)
  let others := hazards.toList.filter fun (index, block) =>
    ¬(index = ownIndex ∧ block.id = candidate.id)
  let blocks ← .ofResult (others.mapM fun (index, block) =>
    match set.idOfIndex index with
    | .ok chain => .ok ⟨chain, block⟩
    | .error _ => .error (.conflict (.unknownChain index)))
  let met ← view.checkBlocks set scope candidate.timestamp hazards
    (⟨chain, candidate⟩ :: blocks) .empty
  return met.size

end SafetyView

end CrossSafety
