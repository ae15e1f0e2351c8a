import CrossSafety.LogStore.Basic
import CrossSafety.Metrics.Registry
import CrossSafety.Rewind.Source

/-!
# Observations

What the supervisor reports about its work, and the metrics that each report goes to.
-/
namespace CrossSafety

inductive StorageRequest where
  | seal
  | blockAt
  | contains
  | findSealed
  | addDerived
  | addSource
  | candidate
  | sourceOf
  | setCrossSafe
  | invalidate
  | dependents
  | rewindLocalUnsafe
  | rewindCrossUnsafe
  | rewindLocalSafe
  | rewindCrossSafe
deriving DecidableEq

namespace StorageRequest

def all : List StorageRequest :=
  [.seal, .blockAt, .contains, .findSealed, .addDerived, .addSource,
    .candidate, .sourceOf, .setCrossSafe, .invalidate,
    .dependents, .rewindLocalUnsafe, .rewindCrossUnsafe, .rewindLocalSafe,
    .rewindCrossSafe]

def text : StorageRequest → String
  | .seal => "seal_block"
  | .blockAt => "open_block"
  | .contains => "contains"
  | .findSealed => "find_sealed_block"
  | .addDerived => "save_derived_block"
  | .addSource => "save_source_block"
  | .candidate => "candidate_cross_safe"
  | .sourceOf => "cross_derived_to_source"
  | .setCrossSafe => "update_cross_safe"
  | .invalidate => "invalidate_local_safe"
  | .dependents => "find_dependent_blocks"
  | .rewindLocalUnsafe => "rewind_local_unsafe"
  | .rewindCrossUnsafe => "rewind_cross_unsafe"
  | .rewindLocalSafe => "rewind_local_safe"
  | .rewindCrossSafe => "rewind_cross_safe"

end StorageRequest

inductive Observation where
  | storageOpened (chain : ChainId)
  | request (chain : ChainId) (request : StorageRequest) (succeeded : Bool)
  | log (chain : ChainId) (observation : LogObservation)
  | head (chain : ChainId) (level : SafetyLevel) (number : UInt64)
  | promotionStarted (chain : ChainId)
  | promotion (chain : ChainId) (succeeded : Bool)
  | hazards (chain : ChainId) (count : Nat)
  | cycle (chain : ChainId)
  | invalidated (chain : ChainId) (count : Nat)
  | rewindingStarted (chain : ChainId)
  | rewind (chain : ChainId) (request : RewindRequest) (succeeded : Bool)
  | rewindDepth (chain : ChainId) (count : Nat)
deriving DecidableEq

/-- Three metrics that count successes and failures of a kind of call and time it. -/
structure CallMetrics where
  successes : Metric
  failures : Metric
  seconds : Metric

namespace CallMetrics

def named (stem success failure duration : String) : CallMetrics where
  successes := ⟨stem ++ "_success_total", .counter, .count, success⟩
  failures := ⟨stem ++ "_error_total", .counter, .count, failure⟩
  seconds := ⟨stem ++ "_duration_seconds", .histogram, .seconds, duration⟩

def all (metrics : CallMetrics) : List Metric :=
  [metrics.successes, metrics.failures, metrics.seconds]

def storage : CallMetrics := named "supervisor_storage"
  "Total number of successful supervisor storage requests"
  "Total number of failed supervisor storage requests"
  "Duration of supervisor storage requests"

def promotion : CallMetrics := named "supervisor_cross_safe_update"
  "Total number of completed cross-safe promotion attempts"
  "Total number of cross-safe promotion attempts that returned an error"
  "Latency of cross-safe promotion attempts"

def rewind : CallMetrics := named "supervisor_rewind"
  "Total number of successfully processed rewind requests"
  "Total number of errors encountered while processing rewind requests"
  "Latency for processing rewind requests"

def labels (chain : ChainId) (method : String) : List (String × String) :=
  [("chain_id", toString chain), ("method", method)]

def call (metrics : CallMetrics) (chain : ChainId) (method : String) (succeeded : Bool) :
    List Point :=
  let outcome := if succeeded then metrics.successes else metrics.failures
  [⟨outcome, labels chain method, .add 1⟩, ⟨metrics.seconds, labels chain method, .duration⟩]

def zero (metrics : CallMetrics) (chain : ChainId) (method : String) : List Point :=
  [⟨metrics.successes, labels chain method, .add 0⟩,
    ⟨metrics.failures, labels chain method, .add 0⟩,
    ⟨metrics.seconds, labels chain method, .duration⟩]

end CallMetrics

namespace Metric

def headNumber : Metric :=
  ⟨"supervisor_storage_head_block_number", .gauge, .count, "Block number of each safety head"⟩

def logEntries : Metric :=
  ⟨"supervisor_logdb_entries_current", .gauge, .count, "Number of records in the log database"⟩

def logReads : Metric :=
  ⟨"supervisor_logdb_search_entries_read", .histogram, .count,
    "Records scanned per log database lookup"⟩

def logTruncations : Metric :=
  ⟨"supervisor_logdb_truncations_total", .counter, .count,
    "Total number of log database truncations"⟩

def hazardBlocks : Metric :=
  ⟨"supervisor_cross_safe_hazard_blocks", .histogram, .count,
    "Number of same-timestamp dependencies of promoted blocks"⟩

def cycles : Metric :=
  ⟨"supervisor_cross_safe_cycles_total", .counter, .count,
    "Total number of candidates rejected for cyclic message dependencies"⟩

def invalidatedBlocks : Metric :=
  ⟨"supervisor_cross_safe_invalidated_total", .counter, .count,
    "Total number of invalidated local-safe blocks"⟩

def rewindDepth : Metric :=
  ⟨"supervisor_rewind_depth", .histogram, .count,
    "Number of local-unsafe blocks dropped by a rewind"⟩

def ofChain (metric : Metric) (chain : ChainId) (sample : Sample) : Point :=
  ⟨metric, [("chain_id", toString chain)], sample⟩

end Metric

namespace Observation

def describes : Observation → List Metric
  | .storageOpened _ => CallMetrics.storage.all
      ++ [.headNumber, .logEntries, .logReads, .logTruncations]
  | .promotionStarted _ => CallMetrics.promotion.all
      ++ [.hazardBlocks, .cycles, .invalidatedBlocks]
  | .rewindingStarted _ => CallMetrics.rewind.all ++ [.rewindDepth]
  | _ => []

def points : Observation → List Point
  | .storageOpened chain =>
    StorageRequest.all.flatMap (fun kind => CallMetrics.storage.zero chain kind.text)
      ++ [Metric.logTruncations.ofChain chain (.add 0)]
  | .request chain kind succeeded => CallMetrics.storage.call chain kind.text succeeded
  | .log chain (.entries count) => [Metric.logEntries.ofChain chain (.set count)]
  | .log chain (.read count) => [Metric.logReads.ofChain chain (.record count)]
  | .log chain .truncation => [Metric.logTruncations.ofChain chain (.add 1)]
  | .head chain level number =>
    [⟨.headNumber, [("chain_id", toString chain), ("level", level.text)], .set number.toNat⟩]
  | .promotionStarted chain => CallMetrics.promotion.zero chain "update_cross_safe"
      ++ [Metric.hazardBlocks.ofChain chain (.record 0), Metric.cycles.ofChain chain (.add 0),
        Metric.invalidatedBlocks.ofChain chain (.add 0)]
  | .promotion chain succeeded =>
    CallMetrics.promotion.call chain "update_cross_safe" succeeded
  | .hazards chain count => [Metric.hazardBlocks.ofChain chain (.record count)]
  | .cycle chain => [Metric.cycles.ofChain chain (.add 1)]
  | .invalidated chain count => [Metric.invalidatedBlocks.ofChain chain (.add count)]
  | .rewindingStarted chain =>
    [RewindRequest.chainReorg, .localDerived].flatMap
        (fun kind => CallMetrics.rewind.zero chain kind.text)
      ++ [Metric.rewindDepth.ofChain chain (.record 0)]
  | .rewind chain kind succeeded => CallMetrics.rewind.call chain kind.text succeeded
  | .rewindDepth chain count => [Metric.rewindDepth.ofChain chain (.record count)]

end Observation

def Registry.observe (registry : Registry) (observations : List Observation) : Registry :=
  observations.foldl (fun registry observation =>
    observation.points.foldl sample (observation.describes.foldl describe registry)) registry

end CrossSafety
