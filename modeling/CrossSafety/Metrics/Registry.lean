import CrossSafety.Json.Basic

/-!
# The metrics registry

A registry keeps one series per metric and set of labels: a running total, a last value, or a
list of recorded values. Of a measured duration only the fact that it was measured is kept. A
series exists from the first time that something is put into it.
-/
namespace CrossSafety

inductive MetricKind where
  | counter
  | gauge
  | histogram
deriving DecidableEq

def MetricKind.text : MetricKind → String
  | .counter => "counter"
  | .gauge => "gauge"
  | .histogram => "histogram"

inductive MetricUnit where
  | count
  | seconds
deriving DecidableEq

def MetricUnit.text : MetricUnit → String
  | .count => "count"
  | .seconds => "seconds"

/-- A metric as it is described to its readers. -/
structure Metric where
  name : String
  kind : MetricKind
  unit : MetricUnit
  description : String
deriving DecidableEq

inductive Sample where
  | add (count : Nat)
  | set (value : Nat)
  | record (value : Nat)
  | duration
deriving DecidableEq

structure Point where
  metric : Metric
  /-- Names and values of the labels, in the order of the names. -/
  labels : List (String × String)
  sample : Sample

/-- The name of the series: that of the metric with the labels in braces. -/
def Point.series (point : Point) : String :=
  point.metric.name ++ "\x7b"
    ++ ",".intercalate (point.labels.map fun label => label.1 ++ "=" ++ label.2) ++ "\x7d"

inductive Reading where
  | counter (total : Nat)
  | gauge (value : Nat)
  /-- Recorded values, last first. -/
  | histogram (values : List Nat)
  | durations (count : Nat)
deriving DecidableEq

/-- The multiple of `unit` nearest to `n`. From the middle between two it goes to the even one. -/
def nearestMultiple (unit n : Nat) : Nat :=
  let below := n / unit
  let rest := 2 * (n % unit)
  let rounded := if rest < unit then below
    else if unit < rest then below + 1
    else if below % 2 = 0 then below else below + 1
  rounded * unit

/-- The nearest number that has at most 53 significant binary digits. -/
def nearestFloat (n : Nat) : Nat :=
  if n < 9007199254740992 then n else nearestMultiple (Nat.pow 2 (n.log2 - 52)) n

namespace Reading

def start : Sample → Reading
  | .add count => .counter count
  | .set value => .gauge (nearestFloat value)
  | .record value => .histogram [nearestFloat value]
  | .duration => .durations 1

def next : Reading → Sample → Reading
  | .counter total, .add count => .counter (total + count)
  | .histogram values, .record value => .histogram (nearestFloat value :: values)
  | .durations count, .duration => .durations (count + 1)
  | _, sample => start sample

/-- Whether the series holds something other than zeroes and durations. -/
def isTelling : Reading → Bool
  | .counter total => total != 0
  | .gauge _ => true
  | .histogram values => values.any (· != 0)
  | .durations _ => false

def toJson : Reading → Json
  | .counter total => .text (toString total)
  | .gauge value => .text (toString value)
  | .histogram values => .list (fun value => .text (toString value)) values.reverse
  | .durations count => .record [("samples", .natural count)]

end Reading

/-- All series and the metrics that were described. -/
structure Registry where
  /-- Series by name, in the order of their first samples. -/
  series : List (String × Reading)
  described : List Metric

namespace Registry

def empty : Registry := ⟨[], []⟩

def put (name : String) (sample : Sample) : List (String × Reading) → List (String × Reading)
  | [] => [(name, .start sample)]
  | (found, reading) :: rest =>
    if found = name then (found, reading.next sample) :: rest
    else (found, reading) :: put name sample rest

def sample (registry : Registry) (point : Point) : Registry :=
  { registry with series := put point.series point.sample registry.series }

def describe (registry : Registry) (metric : Metric) : Registry :=
  if registry.described.contains metric then registry
  else { registry with described := registry.described ++ [metric] }

/-- The series as a JSON object, only the telling ones unless `all` are asked for. -/
def toJson (registry : Registry) (all : Bool) : Json :=
  .record ((registry.series.filter fun entry => all || entry.2.isTelling).map fun entry =>
    (entry.1, entry.2.toJson))

def descriptions (registry : Registry) : Json :=
  .record (registry.described.map fun metric =>
    (metric.name, .array [.text metric.kind.text, .text metric.unit.text,
      .text metric.description]))

end Registry

end CrossSafety
