import CrossSafety.Safety.Error
import CrossSafety.Message

/-!
# Checks

A check reads the chains through a `SafetyView` and ends in a result. A `Check` is that result
together with the reads it took, in order. The result of a check depends on the view alone: the
list of reads is only there to be accounted for.
-/
namespace CrossSafety

/-- What the checks read of the chains. -/
structure SafetyView where
  blockAt : ChainId → UInt64 → Except StorageError BlockContents
  contains : ChainId → LogQuery → Except StorageError BlockSeal
  /-- The block to promote next, with the source to check it in. -/
  candidate : ChainId → Except StorageError DerivedPair
  crossSafe : ChainId → Except StorageError DerivedPair
  sourceOf : ChainId → BlockId → Except StorageError BlockSeal
  sourceAfter : ChainId → BlockId → Except StorageError BlockRef
  /-- On every other chain the lowest block above the cross-safe head that executes a message of a
  block, in the order of the chain ids. -/
  dependents : ChainId → BlockId → Except StorageError (List Dependent)

inductive Read where
  | blockAt (chain : ChainId) (number : UInt64)
  | contains (chain : ChainId) (query : LogQuery)
  | candidate (chain : ChainId)
  | crossSafe (chain : ChainId)
  | sourceOf (chain : ChainId) (block : BlockId)
  | sourceAfter (chain : ChainId) (source : BlockId)
  | dependents (chain : ChainId) (block : BlockId)
deriving DecidableEq

structure Check (α : Type) where
  result : Except CrossSafetyError α
  /-- The reads that were taken, first one first. -/
  reads : List Read

namespace Check

variable {α β : Type}

instance : Monad Check where
  pure value := ⟨.ok value, []⟩
  bind first next :=
    match first.result with
    | .error e => ⟨.error e, first.reads⟩
    | .ok value => ⟨(next value).result, first.reads ++ (next value).reads⟩

def ofResult (result : Except CrossSafetyError α) : Check α := ⟨result, []⟩

def fail (e : CrossSafetyError) : Check α := ofResult (.error e)

def reject (e : RuleViolation) : Check α := fail (.conflict e)

def attempt (read : Read) (answer : Except StorageError α) : Check (Except StorageError α) :=
  ⟨.ok answer, [read]⟩

def require (read : Read) (answer : Except StorageError α) : Check α :=
  ⟨answer.mapError .storage, [read]⟩

def lookup (answer : Except MembershipError α) : Check α :=
  ofResult (answer.mapError .dependencySet)

@[simp] theorem result_pure (value : α) : (pure value : Check α).result = .ok value := rfl

@[simp] theorem result_bind (first : Check α) (next : α → Check β) :
    (first >>= next).result = first.result >>= fun value => (next value).result := by
  obtain ⟨result, reads⟩ := first
  cases result <;> rfl

@[simp] theorem result_ofResult (result : Except CrossSafetyError α) :
    (ofResult result).result = result := rfl

@[simp] theorem result_attempt (read : Read) (answer : Except StorageError α) :
    (attempt read answer).result = .ok answer := rfl

@[simp] theorem result_require (read : Read) (answer : Except StorageError α) :
    (require read answer).result = answer.mapError .storage := rfl

end Check

namespace SafetyView

/-- Opens a sealed block and checks that it is the one that is meant. -/
def openExactly (view : SafetyView) (chain : ChainId) (block : BlockSeal) :
    Check BlockContents := do
  let opened ← .require (.blockAt chain block.number) (view.blockAt chain block.number)
  if opened.block.id = block.id then return opened
  else .reject (.blockMismatch block opened.block.toSeal)

def requireInScope (chain : ChainId) (number source scope : UInt64) : Check Unit :=
  if scope < source then .fail (.outOfScope chain number source scope) else pure ()

/-- Whether a block is cross-safe, in a source that is not above the scope. -/
def validInScope (view : SafetyView) (scope : UInt64) (chain : ChainId) (block : BlockSeal) :
    Check Unit := do
  match ← .attempt (.sourceOf chain block.id) (view.sourceOf chain block.id) with
  | .ok source => requireInScope chain block.number source.number scope
  | .error .futureData => .fail (.future chain block.number)
  | .error e => .fail (.storage e)

end SafetyView

end CrossSafety
