import WorkflowSoundness.Measurement.Store

/-!
Receivers of metrics. A store keeps the latest values, a recording keeps the calls in their
order, and the silent reporter keeps nothing. Only a store can tell the ignored time of a
section, so only there is that time taken off the section's own.
-/

namespace WorkflowSoundness

inductive CallKind where
  | put
  | add
  deriving DecidableEq, Repr

structure ReporterCall where
  kind : CallKind
  graph : String
  key : String
  value : Nat
  deriving DecidableEq, Repr

/-- A receiver of metrics. -/
inductive Reporter where
  | store (kept : MetricStore)
  | recording (calls : List ReporterCall)
  | silent

namespace Reporter

def put (graph key : String) (value : Nat) : Reporter → Reporter
  | .store kept => .store (kept.put graph key value)
  | .recording calls => .recording (calls ++ [⟨.put, graph, key, value⟩])
  | .silent => .silent

def add (graph key : String) (delta : Nat) : Reporter → Reporter
  | .store kept => .store (kept.add graph key delta)
  | .recording calls => .recording (calls ++ [⟨.add, graph, key, delta⟩])
  | .silent => .silent

/-- Nanoseconds left out of the section `name` so far. -/
def ignored (graph name : String) : Reporter → Nat
  | .store kept => (kept.get? graph (Metric.ignoredComplete name)).getD 0
  | .recording _ => 0
  | .silent => 0

/-- The metrics that can be read back. -/
def stored : Reporter → MetricStore
  | .store kept => kept
  | .recording _ => .empty
  | .silent => .empty

def recorded : Reporter → List ReporterCall
  | .store _ => []
  | .recording calls => calls
  | .silent => []

/-- Metric values have 64 bits; a longer time is reported as the greatest of them. -/
def clamp (nanoseconds : Nat) : Nat :=
  min nanoseconds (UInt64.size - 1)

/-- The time of a section, under the metric of its name. -/
def recordTime (graph name : String) (nanoseconds : Nat) (reporter : Reporter) : Reporter :=
  reporter.put graph (Metric.time name) (clamp nanoseconds)

/-- The time of an ignored part, as the latest and added to the sum of all. -/
def recordIgnored (graph name : String) (nanoseconds : Nat) (reporter : Reporter) : Reporter :=
  (reporter.put graph (Metric.ignoredLast name) (clamp nanoseconds)).add graph
    (Metric.ignoredComplete name) (clamp nanoseconds)

end Reporter
end WorkflowSoundness
