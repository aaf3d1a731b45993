/-!
Which parts of a verification run. The analyses that a selected one depends on always run.
-/

namespace WorkflowSoundness

/-- The parts of a verification, each on unless it is switched off. -/
structure Config where
  /-- Bring an open graph into the simple shape first. -/
  preparation : Bool := true
  waitingArea : Bool := true
  deadlock : Bool := true
  abundance : Bool := true
  /-- Whether independent analyses may run side by side; the answers do not depend on it. -/
  parallel : Bool := true
  deriving DecidableEq, Repr

namespace Config

def comprehensive : Config :=
  {}

/-- Deadlocks of a graph that is simple already. -/
def minimal : Config :=
  { preparation := false, waitingArea := false, abundance := false }

def deadlockOnly : Config :=
  { waitingArea := false, abundance := false }

def abundanceOnly : Config :=
  { waitingArea := false, deadlock := false }

def sequential : Config :=
  { parallel := false }

def ofName? : String → Option Config
  | "default" | "comprehensive" => some comprehensive
  | "minimal" => some minimal
  | "deadlock_only" => some deadlockOnly
  | "abundance_only" => some abundanceOnly
  | "sequential" => some sequential
  | _ => none

end Config
end WorkflowSoundness
