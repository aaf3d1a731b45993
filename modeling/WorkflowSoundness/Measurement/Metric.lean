/-!
Names of metrics. The metrics of an analysis share its name: its running time, and the time
that was spent in it but left out of that.
-/

namespace WorkflowSoundness.Metric

/-- Nanoseconds that a section took. -/
def time (name : String) : String :=
  name ++ "_TIME_MEASUREMENT"

/-- Nanoseconds of the latest part left out of a section. -/
def ignoredLast (name : String) : String :=
  name ++ "_IGNORE_LAST"

/-- Nanoseconds of all parts left out of a section. -/
def ignoredComplete (name : String) : String :=
  name ++ "_IGNORE_COMPLETE"

/-- Nanoseconds that a whole plan took. -/
def planTime : String :=
  "TIME_MEASUREMENT_PLAN"

def nodesBefore : String :=
  "NODES_BEFORE_MEASUREMENT_PLAN"

def nodesAfter : String :=
  "NODES_AFTER_MEASUREMENT_PLAN"

def edges : String :=
  "NUMBER_EDGES"

def deadlocks : String :=
  "NUMBER_DEADLOCKS"

/-- Deadlocks that the start event leads to. -/
def normalDeadlocks : String :=
  "NUMBER_DEADLOCKS_NORMAL"

/-- Deadlocks of joins that starve themselves. -/
def loopDeadlocks : String :=
  "NUMBER_DEADLOCKS_LOOP"

def abundances : String :=
  "NUMBER_LACK_OF_SYNCHRONIZATION"

def normalAbundances : String :=
  "NUMBER_LACK_OF_SYNCHRONIZATION_NORMAL"

/-- Abundances at a fork that activates itself again. -/
def loopAbundances : String :=
  "NUMBER_LACK_OF_SYNCHRONIZATION_LOOP"

/-- Strongly connected components with several edges. -/
def components : String :=
  "NUMBER_COMPONENTS"

def forks : String :=
  "NUMBER_FORKS"

def joins : String :=
  "NUMBER_JOINS"

def tasks : String :=
  "NUMBER_TASKS"

def splits : String :=
  "NUMBER_SPLITS"

def merges : String :=
  "NUMBER_MERGES"

def orJoins : String :=
  "NUMBER_ORJOINS"

def orForks : String :=
  "NUMBER_ORSPLITS"

end WorkflowSoundness.Metric
