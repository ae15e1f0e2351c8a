import CrossSafety.Safety.Cascade
import CrossSafety.Safety.Order
import CrossSafety.Safety.Resolution
import CrossSafety.Safety.Readiness

/-!
# Promotion to cross-safe

A chain's candidate becomes cross-safe if all checks pass in its source scope. If a dependency
lies beyond the scope, the scope moves to the next source block. If the candidate breaks a rule,
it is invalidated with everything that depends on it. Any other failure changes nothing and is
reported.
-/
namespace CrossSafety

/-- The number of blocks that building a hazard set checks unless told otherwise. -/
def defaultHazardLimit : Nat := 10000

inductive PromotionOutcome where
  /-- The candidate is the cross-safe head. -/
  | promoted (head : DerivedPair)
  /-- The head was recorded in the next source block. -/
  | scopeWidened (head : DerivedPair)
  /-- The candidate was invalidated, and then the blocks that depended on it. -/
  | invalidated (blocks : List Dependent)
deriving DecidableEq

def PromotionOutcome.toJson : PromotionOutcome → Json
  | .promoted head => .record [("promoted", head.toJson)]
  | .scopeWidened head => .record [("scopeExpanded", head.toJson)]
  | .invalidated blocks => .record [("invalidated", .list Dependent.toJson blocks)]

/-- What a promotion works with. -/
structure Promoter (σ : Type) where
  store : SafetyStore σ
  set : DependencySet
  hazardLimit : Nat

namespace Promoter

variable {σ : Type}

/-- Checks a candidate in its source scope and makes it the cross-safe head. -/
def accept (promoter : Promoter σ) (chain : ChainId) (candidate : DerivedPair) :
    Promotion σ Unit := do
  let block := candidate.derived.toSeal
  let scope := candidate.source.number
  let hazards ← promoter.store.check fun view => do
    let _ ← view.openExactly chain block
    Hazards.build view promoter.set (view.validInScope scope) promoter.hazardLimit chain block
  promoter.store.tell (.hazards chain hazards.size)
  let _ ← promoter.store.check fun view => do
    view.checkReadiness promoter.set scope hazards
    Hazards.checkOrder view promoter.set block.timestamp hazards
    view.checkDependencies promoter.set scope chain block hazards
  SafetyStore.write (promoter.store.setCrossSafe chain candidate)

/-- Records the cross-safe head in the source block after a candidate's. -/
def widenScope (promoter : Promoter σ) (chain : ChainId) (candidate : DerivedPair) :
    Promotion σ DerivedPair := do
  let source := candidate.source.id
  let expanded ← promoter.store.check fun view => do
    let next ← .require (.sourceAfter chain source) (view.sourceAfter chain source)
    let head ← .require (.crossSafe chain) (view.crossSafe chain)
    return ⟨next, head.derived⟩
  SafetyStore.write (promoter.store.setCrossSafe chain expanded)
  return expanded

/-- Invalidates a candidate that was rejected, and everything that depends on it. -/
def invalidate (promoter : Promoter σ) (chain : ChainId) (candidate : DerivedPair)
    (cause : CrossSafetyError) : Promotion σ (List Dependent) := do
  if cause.isCycle then promoter.store.tell (.cycle chain)
  let blocks ← promoter.store.cascade .empty [⟨chain, candidate⟩]
  promoter.store.tell (.invalidated chain blocks.length)
  return blocks

def candidate (promoter : Promoter σ) (chain : ChainId) : Promotion σ DerivedPair :=
  promoter.store.check fun view => .require (.candidate chain) (view.candidate chain)

/-- Moves a chain on: promotes its candidate, widens its scope or invalidates it. -/
def update (promoter : Promoter σ) (chain : ChainId) : Promotion σ PromotionOutcome := do
  let candidate ← promoter.candidate chain
  tryCatch
    (do
      promoter.accept chain candidate
      return .promoted candidate)
    fun cause => do
      if cause.isOutOfScope then
        return .scopeWidened (← promoter.widenScope chain candidate)
      else if cause.isConflict then
        return .invalidated (← promoter.invalidate chain candidate cause)
      else throw cause

end Promoter

end CrossSafety
