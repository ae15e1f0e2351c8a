import CrossSafety.Supervisor.Run

/-!
# Reports of failures

A report names the kind of a failure and words it. The wording is left out where it comes from the
system that the supervisor runs on. A failed check says what it means for the candidate.
-/
namespace CrossSafety

structure Report where
  kind : String
  message : Option String
  details : List (String × Json)

namespace Report

def plain (kind message : String) : Report := ⟨kind, some message, []⟩

def toJson (report : Report) : Json :=
  .record ([("error", Json.text report.kind)]
    ++ (report.message.map fun message => ("message", Json.text message)).toList ++ report.details)

end Report

def MissingEntry.kind : MissingEntry → String
  | .sourceBlock _ => "SourceBlockNotFound"
  | .derivedBlock _ => "DerivedBlockNotFound"
  | .sealedBlock _ => "SealedBlockNotFound"
  | .checkpoint _ => "CheckpointNotFound"
  | .head _ => "HeadNotSet"

namespace StorageError

def kind : StorageError → String
  | .io _ => "Storage.Io"
  | .serialization _ => "Storage.Serialization"
  | .lockPoisoned => "Storage.LockPoisoned"
  | .notFound entry => "Storage.EntryNotFound." ++ entry.kind
  | .futureData => "Storage.FutureData"
  | .unknownChain _ => "Storage.UnknownChain"
  | .databaseNotInitialised => "Storage.DatabaseNotInitialised"
  | .conflict => "Storage.ConflictError"
  | .logOutOfOrder _ => "Storage.LogOutOfOrder"
  | .dataCorruption _ => "Storage.DataCorruption"
  | .blockOutOfOrder => "Storage.BlockOutOfOrder"
  | .awaitingReplacement _ => "Storage.AwaitingReplacement"
  | .rewindBeyondFinalized _ _ => "Storage.RewindBeyondFinalized"

/-- Whether the wording of a failure does not depend on the system. -/
def isWorded : StorageError → Bool
  | .io _ | .serialization _ => false
  | _ => true

/-- What is reported of corrupted data. Of a record that cannot be read only its number is. -/
def reportedDetail (detail : String) : String :=
  if "journal record ".toList.isPrefixOf detail.toList then
    String.ofList (detail.toList.takeWhile (· ≠ ':'))
  else detail

/-- The failure as far as its wording does not depend on the system. -/
def reported : StorageError → StorageError
  | .dataCorruption detail => .dataCorruption (reportedDetail detail)
  | e => e

def reportAs (e : StorageError) (message : String) : Report where
  kind := e.kind
  message := if e.isWorded then some message else none
  details := match e with
    | .awaitingReplacement block => [("block", block.toJson)]
    | _ => []

def report (e : StorageError) : Report := e.reportAs e.reported.message

end StorageError

def MembershipError.report (e : MembershipError) : Report :=
  .plain (match e with
    | .unknownChain _ => "DependencySet.UnknownChain"
    | .unknownIndex _ => "DependencySet.UnknownChainIndex") e.message

def RuleViolation.kind : RuleViolation → String
  | .cycle _ => "Conflict.Cycle"
  | .selfReferencing _ _ => "Conflict.SelfReferencing"
  | .unknownChain _ => "Conflict.UnknownChain"
  | .invalidLogIndex _ _ _ => "Conflict.InvalidLogIndex"
  | .timestampInvariant _ _ => "Conflict.TimestampInvariant"
  | .blockMismatch _ _ => "Conflict.BlockMismatch"
  | .hazardConflict _ _ _ => "Conflict.HazardConflict"
  | .executionNotPermitted _ _ => "Conflict.ExecutionNotPermitted"
  | .initiationNotPermitted _ _ => "Conflict.InitiationNotPermitted"
  | .missingDependency _ _ => "Conflict.MissingDependency"

namespace CrossSafetyError

def classes (e : CrossSafetyError) : List String :=
  ([("future", e.isFuture), ("outOfScope", e.isOutOfScope), ("conflict", e.isConflict),
    ("awaitingReplacement", e.isAwaitingReplacement)].filter Prod.snd).map Prod.fst

def report (e : CrossSafetyError) : Report :=
  let report := match e with
    | .storage cause => cause.reportAs (storage cause.reported).message
    | .conflict cause => .plain cause.kind e.message
    | .future _ _ => .plain "Future" e.message
    | .outOfScope _ _ _ _ => .plain "OutOfScope" e.message
    | .hazardLimitExceeded _ => .plain "HazardLimitExceeded" e.message
    | .dependencySet cause => cause.report
  { report with details := report.details ++ [("class", .list .text e.classes)] }

end CrossSafetyError

def RewindError.report : RewindError → Report
  | .storage cause => cause.report
  | .missingBlockSource chain =>
    .plain "Rewinder.MissingBlockSource" (missingBlockSource chain).message
  | .source (.notFound number) =>
    .plain "Rewinder.BlockSource.NotFound" (SourceError.notFound number).message
  | .source (.request detail) =>
    .plain "Rewinder.BlockSource.Request" (SourceError.request detail).message
  | .noCommonAncestor chain =>
    .plain "Rewinder.NoCommonAncestor" (noCommonAncestor chain).message

def ConfigError.report (e : ConfigError) : Report :=
  .plain (match e with
    | .emptyDependencySet => "Config.EmptyDependencySet"
    | .duplicateChainIndex => "Config.DuplicateChainIndex"
    | .zeroInterval => "Config.ZeroInterval"
    | .zeroChannelCapacity => "Config.ZeroChannelCapacity"
    | .zeroHazardLimit => "Config.ZeroHazardLimit") e.message

def SupervisorError.report : SupervisorError → Report
  | .config cause => cause.report
  | .storage cause => cause.report
  | .unsupportedChain chain =>
    .plain "Supervisor.UnsupportedChainId" (unsupportedChain chain).message
  | .alreadyStarted chain => .plain "Supervisor.AlreadyStarted" (alreadyStarted chain).message

end CrossSafety
