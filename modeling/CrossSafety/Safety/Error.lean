import CrossSafety.DependencySet
import CrossSafety.StorageError

/-!
# Failures of the safety checks

A `RuleViolation` says that a block breaks a rule of messaging. A `CrossSafetyError` is any
reason why a block cannot become cross-safe now: it breaks a rule, it depends on something that
is not there yet or lies outside the source scope, or a lookup fails. `message` words the cause.
-/
namespace CrossSafety

inductive RuleViolation where
  /-- The logs of the hazard blocks cannot be put in order. -/
  | cycle (timestamp : UInt64)
  | selfReferencing (chain : MemberIndex) (logIndex : UInt32)
  | unknownChain (chain : MemberIndex)
  | invalidLogIndex (chain : MemberIndex) (logIndex logCount : UInt32)
  /-- A message is newer than the block that executes it. -/
  | timestampInvariant (block : BlockSeal) (messageTimestamp : UInt64)
  | blockMismatch (expected found : BlockSeal)
  /-- Two different blocks of one chain are depended on at one timestamp. -/
  | hazardConflict (chain : MemberIndex) (existing found : BlockSeal)
  | executionNotPermitted (chain : ChainId) (timestamp : UInt64)
  | initiationNotPermitted (chain : ChainId) (timestamp : UInt64)
  | missingDependency (chain : MemberIndex) (blockNumber : UInt64)
deriving DecidableEq

def RuleViolation.message : RuleViolation → String
  | .cycle timestamp =>
    "cyclic dependency among hazard blocks at timestamp " ++ toString timestamp
  | .selfReferencing chain logIndex =>
    "executing message at log " ++ toString logIndex ++ " of chain " ++ toString chain
      ++ " references itself"
  | .unknownChain chain => "executing message references unknown chain " ++ toString chain
  | .invalidLogIndex chain logIndex logCount =>
    "log index " ++ toString logIndex ++ " of chain " ++ toString chain
      ++ " is beyond log count " ++ toString logCount
  | .timestampInvariant block messageTimestamp =>
    "executing message with timestamp " ++ toString messageTimestamp ++ " in block " ++ block.text
      ++ " breaks timestamp invariant"
  | .blockMismatch expected found =>
    "expected block " ++ expected.text ++ ", but storage has " ++ found.text
  | .hazardConflict chain existing found =>
    "found dependency on " ++ found.text ++ " of chain " ++ toString chain
      ++ ", but already depend on " ++ existing.text
  | .executionNotPermitted chain timestamp =>
    "chain " ++ toString chain ++ " cannot execute messages at timestamp " ++ toString timestamp
  | .initiationNotPermitted chain timestamp =>
    "chain " ++ toString chain ++ " cannot initiate messages at timestamp " ++ toString timestamp
  | .missingDependency chain blockNumber =>
    "deferred promotion dependency " ++ toString blockNumber ++ " of chain " ++ toString chain
      ++ " not in hazard set"

inductive CrossSafetyError where
  | storage (cause : StorageError)
  | conflict (cause : RuleViolation)
  /-- A block that is depended on is not cross-safe yet. -/
  | future (chain : ChainId) (blockNumber : UInt64)
  /-- A block that is depended on comes from a source block above the scope. -/
  | outOfScope (chain : ChainId) (blockNumber sourceNumber scopeNumber : UInt64)
  | hazardLimitExceeded (limit : Nat)
  | dependencySet (cause : MembershipError)
deriving DecidableEq

namespace CrossSafetyError

def message : CrossSafetyError → String
  | .storage cause => "storage error: " ++ cause.message
  | .conflict cause => cause.message
  | .future chain blockNumber =>
    "block " ++ toString blockNumber ++ " of chain " ++ toString chain ++ " is not cross-safe yet"
  | .outOfScope chain blockNumber sourceNumber scopeNumber =>
    "block " ++ toString blockNumber ++ " of chain " ++ toString chain ++ " derived from source "
      ++ toString sourceNumber ++ ", beyond scope " ++ toString scopeNumber
  | .hazardLimitExceeded limit =>
    "exceeded maximum of " ++ toString limit ++ " hazard block checks"
  | .dependencySet cause => cause.message

/-- Whether the missing data may still come. -/
def isFuture : CrossSafetyError → Bool
  | .future _ _ | .storage .futureData => true
  | _ => false

/-- Whether a wider scope may help. -/
def isOutOfScope : CrossSafetyError → Bool
  | .outOfScope _ _ _ _ => true
  | _ => false

def isConflict : CrossSafetyError → Bool
  | .conflict _ | .storage .conflict => true
  | _ => false

def isAwaitingReplacement : CrossSafetyError → Bool
  | .storage (.awaitingReplacement _) => true
  | _ => false

def isCycle : CrossSafetyError → Bool
  | .conflict (.cycle _) => true
  | _ => false

/-- The failed lookup of a chain index that a message names: an unknown index is a fault of the
message. -/
def ofIndexLookup : MembershipError → CrossSafetyError
  | .unknownIndex index => .conflict (.unknownChain index)
  | cause => .dependencySet cause

end CrossSafetyError

end CrossSafety
