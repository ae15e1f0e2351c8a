import CrossSafety.DependencySet
import CrossSafety.Safety.Promotion

/-!
# Configuration

What a supervisor is configured with, and the values it cannot run with.
-/
namespace CrossSafety

inductive ConfigError where
  | emptyDependencySet
  | duplicateChainIndex
  | zeroInterval
  | zeroChannelCapacity
  | zeroHazardLimit
deriving DecidableEq

def ConfigError.message : ConfigError → String
  | .emptyDependencySet => "empty dependency set"
  | .duplicateChainIndex => "duplicate chain index in dependency set"
  | .zeroInterval => "cross-safe interval must be non-zero"
  | .zeroChannelCapacity => "event channel capacity must be non-zero"
  | .zeroHazardLimit => "max hazard block checks must be non-zero"

structure Config where
  datadir : String
  dependencySet : Membership
  /-- Seconds between two attempts to promote a chain. -/
  interval : UInt64
  channelCapacity : UInt64
  hazardLimit : UInt64
  metricsEnabled : Bool
deriving DecidableEq

namespace Config

def validate (config : Config) : Except ConfigError Unit :=
  if config.dependencySet.members.isEmpty then .error .emptyDependencySet
  else if !config.dependencySet.hasDistinctIndices then .error .duplicateChainIndex
  else if config.interval = 0 then .error .zeroInterval
  else if config.channelCapacity = 0 then .error .zeroChannelCapacity
  else if config.hazardLimit = 0 then .error .zeroHazardLimit
  else .ok ()

def toJson (config : Config) : Json :=
  .record [("datadir", .text config.datadir), ("dependencySet", config.dependencySet.toJson),
    ("crossSafeInterval", .word config.interval),
    ("eventChannelCapacity", .word config.channelCapacity),
    ("maxHazardBlockChecks", .word config.hazardLimit),
    ("metricsEnabled", .bool config.metricsEnabled)]

/-- Reads a configuration. The hazard limit has a default and metrics are off unless asked for. -/
def ofJson? (value : Json) : Option Config := do
  let fields ← value.toFields? (.ofNames ["datadir", "dependencySet", "crossSafeInterval",
    "eventChannelCapacity", "maxHazardBlockChecks", "metricsEnabled"])
  return {
    datadir := ← fields.required 0 Json.toText?
    dependencySet := ← fields.required 1 Membership.ofJson?
    interval := ← fields.required 2 Json.toWord?
    channelCapacity := ← fields.required 3 Json.toWord?
    hazardLimit := ← fields.withDefault 4 (UInt64.ofNat defaultHazardLimit) Json.toWord?
    metricsEnabled := ← fields.withDefault 5 false Json.toBool? }

end Config

end CrossSafety
