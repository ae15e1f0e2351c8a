import CrossSafety.SafetyLevel

/-!
# Failures of storage

Each cause has its own constructor and `message` words it.
-/
namespace CrossSafety

inductive MissingEntry where
  | sourceBlock (number : UInt64)
  | derivedBlock (number : UInt64)
  | sealedBlock (number : UInt64)
  /-- No search checkpoint is at this block or below it. -/
  | checkpoint (number : UInt64)
  | head (level : SafetyLevel)
deriving DecidableEq

def MissingEntry.message : MissingEntry → String
  | .sourceBlock number => "source block not found, number: " ++ toString number
  | .derivedBlock number => "derived block not found, number: " ++ toString number
  | .sealedBlock number => "sealed block not found, number: " ++ toString number
  | .checkpoint number => "no checkpoint at or before block " ++ toString number
  | .head level => level.text ++ " head not set"

inductive StorageError where
  | io (kind : String)
  | serialization (cause : Json.Failure)
  | lockPoisoned
  | notFound (entry : MissingEntry)
  /-- The data may still come. -/
  | futureData
  | unknownChain (chain : ChainId)
  | databaseNotInitialised
  /-- Stored data disagrees with what is asked or written. -/
  | conflict
  | logOutOfOrder (detail : String)
  | dataCorruption (detail : String)
  | blockOutOfOrder
  /-- A local-safe block was invalidated and has no replacement yet. -/
  | awaitingReplacement (block : BlockId)
  | rewindBeyondFinalized (target finalized : UInt64)
deriving DecidableEq

def StorageError.message : StorageError → String
  | .io kind => kind
  | .serialization cause => cause.message
  | .lockPoisoned => "lock poisoned"
  | .notFound entry => entry.message
  | .futureData => "data not yet available"
  | .unknownChain chain => "chain " ++ toString chain ++ " is not part of the dependency set"
  | .databaseNotInitialised => "database not initialized"
  | .conflict => "conflicting data"
  | .logOutOfOrder detail => "log out of order: " ++ detail
  | .dataCorruption detail => "data corruption: " ++ detail
  | .blockOutOfOrder => "latest stored block is not parent of the incoming block"
  | .awaitingReplacement block =>
    "awaiting replacement of invalidated block " ++ toString block.number
  | .rewindBeyondFinalized target finalized =>
    "rewinding beyond finalized head. to: " ++ toString target ++ ", finalized: "
      ++ toString finalized

end CrossSafety
