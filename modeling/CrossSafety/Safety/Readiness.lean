import CrossSafety.Safety.Hazard

/-!
# Readiness of hazard blocks

Every hazard block has to be cross-safe in the scope already, or be the very block that its chain
promotes next, within the scope.
-/
namespace CrossSafety

def SafetyView.checkReadyBlock (view : SafetyView) (set : DependencySet) (scope : UInt64)
    (index : MemberIndex) (block : BlockSeal) : Check Unit := do
  let chain ← .ofResult ((set.idOfIndex index).mapError fun _ => .conflict (.unknownChain index))
  match ← .attempt (.sourceOf chain block.id) (view.sourceOf chain block.id) with
  | .ok source => requireInScope chain block.number source.number scope
  | .error .futureData =>
    let next ← .require (.candidate chain) (view.candidate chain)
    if next.derived.number = block.number ∧ next.derived.id ≠ block.id then
      .reject (.blockMismatch block next.derived.toSeal)
    else requireInScope chain block.number next.source.number scope
  | .error e => .fail (.storage e)

/-- Checks every hazard block, in the order of the chain indices. -/
def SafetyView.checkReadiness (view : SafetyView) (set : DependencySet) (scope : UInt64)
    (hazards : Hazards) : Check Unit :=
  hazards.toList.forM fun (index, block) => view.checkReadyBlock set scope index block

end CrossSafety
