import WorkflowSoundness.EdgeGraph.Basic
import WorkflowSoundness.Graph.Basic

/-!
What verification finds. A `Finding` belongs to the edges it was found on; an `Annotation`
is the same in plain numbers. Its printable node is where the problem shows, its opening
node where the problem begins. Every node named by a finding, as an end of a path too, is
involved in it.
-/

namespace WorkflowSoundness

inductive Severity where
  | info
  | warning
  | error
  deriving DecidableEq, Repr

def Severity.text : Severity → String
  | .info => "INFO"
  | .warning => "WARNING"
  | .error => "ERROR"

def Severity.rank : Severity → Nat
  | .info => 0
  | .warning => 1
  | .error => 2

/-- The severities below a given one, the least first. -/
def Severity.below (severity : Severity) : List Severity :=
  [Severity.info, .warning, .error].filter fun other => other.rank < severity.rank

/-- The kinds of problem that verification reports; a waiting area is no problem but a help to
understand an or-join. -/
inductive AnnotationKind where
  /-- A join that the start reaches along one branch while another may stay silent. -/
  | deadlock
  /-- A join that can fire only after it has fired. -/
  | deadlockCycle
  /-- A node where branches of a fork meet and are not synchronized. -/
  | abundance
  /-- A fork that its own branches activate again. -/
  | abundanceCycle
  /-- The edges that an or-join has to wait for. -/
  | waitingArea
  deriving DecidableEq, Repr

namespace AnnotationKind

def all : List AnnotationKind :=
  [.deadlock, .deadlockCycle, .abundance, .abundanceCycle, .waitingArea]

def text : AnnotationKind → String
  | .deadlock => "Deadlock"
  | .deadlockCycle => "DeadlockCycle"
  | .abundance => "Abundance"
  | .abundanceCycle => "AbundanceCycle"
  | .waitingArea => "WaitingArea"

def ofText? (text : String) : Option AnnotationKind :=
  all.find? fun kind => kind.text == text

def severity : AnnotationKind → Severity
  | .waitingArea => .info
  | _ => .error

def isDeadlock : AnnotationKind → Bool
  | .deadlock | .deadlockCycle => true
  | _ => false

def isAbundance : AnnotationKind → Bool
  | .abundance | .abundanceCycle => true
  | _ => false

def description : AnnotationKind → String
  | .deadlock =>
      "There is no fork on a path from the start node (orange) to this join (red) " ++
        "where this fork ever makes it possible that this join (red) will be executed."
  | .deadlockCycle =>
      "The start marked parallel gateway can only be executed if and only if it was " ++
        "already executed."
  | .abundance =>
      "At least two control flows of the start marked parallel gateway can cause an " ++
        "abundance on the end marked exclusive gateway since the exclusive gateway is " ++
        "not able to synchronize."
  | .abundanceCycle =>
      "At least two control flows of the start marked parallel gateway can activate " ++
        "the end marked gateway again before they are synchronized."
  | .waitingArea =>
      "The select OR-join has to wait for all the other selected nodes if both are " ++
        "active."

end AnnotationKind

/-- A finding in plain numbers, as it is handed to a caller. -/
structure Annotation where
  kind : AnnotationKind
  printable : Nat
  opening : Option Nat
  involved : List Nat
  /-- The choices on a deadlock's paths that may lead into it. -/
  failure : List Nat
  /-- Each path is a set of edges in ascending order. -/
  paths : List (List Nat)
  waitingArea : Option (List Nat)
  deriving DecidableEq, Repr

namespace Annotation

variable (note : Annotation) (g : Graph)

def printableElements : List String :=
  g.elements note.printable

def openingElements : List String :=
  note.opening.toList.flatMap g.elements

def involvedElements : List String :=
  note.involved.flatMap g.elements

end Annotation

/-- A finding on the edges of one graph. -/
structure Finding (E : EdgeGraph) where
  kind : AnnotationKind
  printable : Fin E.order
  opening : Option (Fin E.order)
  failure : BitSet E.order
  paths : List E.Edges
  waitingArea : Option E.Edges

namespace Finding

variable {E : EdgeGraph}

/-- The ends of the edges of a path. -/
def endsOf (path : E.Edges) : List (Fin E.order) :=
  path.toList.flatMap fun e => [E.source e, E.target e]

/-- All nodes that the finding names, also as an end of an edge of a path. -/
def involved (finding : Finding E) : BitSet E.order :=
  .ofList (finding.printable ::
    (finding.opening.toList ++ finding.failure.toList ++ finding.paths.flatMap endsOf))

/-- Forgets which graph the numbers belong to. -/
def plain (finding : Finding E) : Annotation where
  kind := finding.kind
  printable := finding.printable
  opening := finding.opening.map Fin.val
  involved := finding.involved.toList.map Fin.val
  failure := finding.failure.toList.map Fin.val
  paths := finding.paths.map fun path => path.toList.map Fin.val
  waitingArea := finding.waitingArea.map fun area => area.toList.map Fin.val

end Finding
end WorkflowSoundness
