import WorkflowSoundness.Measurement.Metric

/-!
A store of metrics, one value for a graph's name and a key. `table` lists all of them as a
table with a row for each graph and a column for each key.
-/

namespace WorkflowSoundness

structure MetricEntry where
  graph : String
  key : String
  value : Nat
  deriving DecidableEq, Repr

/-- The latest value of each metric; `put` keeps one entry for a name and key. A store that runs
counts in 64 bits. Here a value is any number, which is the same as long as no sum that `add`
makes overflows; this is assumed of every run. -/
structure MetricStore where
  entries : List MetricEntry := []
  deriving DecidableEq, Repr

namespace MetricStore

def empty : MetricStore :=
  {}

variable (store : MetricStore)

def get? (graph key : String) : Option Nat :=
  (store.entries.find? fun entry => entry.graph == graph && entry.key == key).map (·.value)

def put (graph key : String) (value : Nat) : MetricStore :=
  ⟨⟨graph, key, value⟩ ::
    store.entries.filter fun entry => !(entry.graph == graph && entry.key == key)⟩

/-- A missing metric counts as zero. -/
def add (graph key : String) (delta : Nat) : MetricStore :=
  store.put graph key ((store.get? graph key).getD 0 + delta)

/-- Strings in ascending order by code points, each once. -/
def distinctSorted (texts : List String) : List String :=
  (texts.eraseDups).mergeSort fun a b => decide (a ≤ b)

def graphs : List String :=
  distinctSorted (store.entries.map (·.graph))

def keys : List String :=
  distinctSorted (store.entries.map (·.key))

/-- The metrics of one graph, ordered by key. -/
def metrics (graph : String) : List (String × Nat) :=
  store.keys.filterMap fun key => (store.get? graph key).map fun value => (key, value)

/-- A line of a table. Every cell is closed by a semicolon. -/
def line (cells : List String) : String :=
  String.join (cells.map (· ++ ";")) ++ "\n"

/-- A cell of a metric that a graph lacks is empty. -/
def table : String :=
  let row (graph : String) : String :=
    line (graph :: store.keys.map fun key => ((store.get? graph key).map toString).getD "")
  String.join (line ("GRAPH" :: store.keys) :: store.graphs.map row)

end MetricStore
end WorkflowSoundness
