import WorkflowSoundness.Graph.Node

/-!
Why an operation may fail. A `Defect` is a fact about the graph at hand, reported to the
caller as an ordinary answer. A `Misuse` is a call that the interface rules out: it aborts
the running operation. Wording lives in `Defect.message` and `Misuse.message` alone.
-/

namespace WorkflowSoundness

/-- The two ends of a node's flows. -/
inductive Side where
  | incoming
  | outgoing
  deriving DecidableEq, Repr

def Side.text : Side → String
  | .incoming => "incoming"
  | .outgoing => "outgoing"

/-- A rule about the shape of the graph that does not hold. -/
inductive Malformation where
  | startDegree (node : Nat)
  | endDegree (node : Nat)
  | gatewayDegree (kind : NodeKind) (node : Nat) (side : Side) (found : Nat)
  | noFlow (source target : Nat)
  | noEdge (node : Nat) (side : Side)
  /-- A rule of the reader that built the graph, in its own words. -/
  | stated (message : String)
  deriving DecidableEq, Repr

def Malformation.message : Malformation → String
  | .startDegree node =>
      s!"start node {nodeText node} must have no incoming and exactly one outgoing flow"
  | .endDegree node =>
      s!"end node {nodeText node} must have exactly one incoming and no outgoing flow"
  | .gatewayDegree kind node side found =>
      s!"{kind.text}({node}) must have exactly one {side.text} flow, found {found}"
  | .noFlow source target => s!"no flow from {nodeText source} to {nodeText target}"
  | .noEdge node side => s!"node {nodeText node} has no {side.text} edge"
  | .stated message => message

/-- What can be wrong with a graph, or with the numbers a caller names. -/
inductive Defect where
  | malformed (rule : Malformation)
  | unknownNode (node : Nat)
  | missingStart
  | missingEnd
  | multipleStart (found : Nat)
  | multipleEnd (found : Nat)
  | unreachable (node : Nat)
  | noPathToEnd (node : Nat)
  | unknownPlan (id : Nat)
  | stated (message : String)
  deriving DecidableEq, Repr

def Defect.message : Defect → String
  | .malformed rule => rule.message
  | .unknownNode node => s!"Node {node} does not exist in this graph"
  | .missingStart => "The workflow graph has no start node"
  | .missingEnd => "The workflow graph has no end node"
  | .multipleStart found => s!"The workflow graph has {found} start nodes, expected exactly one"
  | .multipleEnd found => s!"The workflow graph has {found} end nodes, expected exactly one"
  | .unreachable node => s!"Node {nodeText node} is not reachable from the start node"
  | .noPathToEnd node => s!"Node {nodeText node} has no path to the end node"
  | .unknownPlan id => s!"No analysis plan registered with id {id}"
  | .stated message => message

/-- A malformation is shown with the line of the file whose rule it breaks. -/
def Defect.located (file : String) (line : Nat) : Defect → String
  | .malformed rule => s!"Malformed - {file}:{line}: {rule.message}"
  | other => other.message

/-- A call that the interface rules out. -/
inductive Misuse where
  | indexOutOfBounds
  | lengthMismatch
  | closed (graph : String)
  | alreadyClosed (graph : String)
  | notClosed (graph : String)
  | noEdge (node : Nat) (side : Side)
  | noFork
  deriving DecidableEq, Repr

def Misuse.message : Misuse → String
  | .indexOutOfBounds => "index out of bounds"
  | .lengthMismatch => "bit sets must have same length"
  | .closed graph => s!"workflow graph '{graph}' is closed and can no longer be modified"
  | .alreadyClosed graph => s!"workflow graph '{graph}' is already closed"
  | .notClosed graph => s!"edge analysis has not run on workflow graph '{graph}'"
  | .noEdge node side => s!"node {nodeText node} has no {side.text} edge"
  | .noFork => "network graph was not transformed for a fork"

/-- Why a run ends early. -/
inductive Fault where
  | defect (cause : Defect)
  | misuse (cause : Misuse)
  deriving DecidableEq, Repr

def Fault.message : Fault → String
  | .defect cause => cause.message
  | .misuse cause => cause.message

end WorkflowSoundness
