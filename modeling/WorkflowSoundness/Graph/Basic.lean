import WorkflowSoundness.Fault

/-!
Workflow graphs under construction. A graph is a list of nodes and a list of flows; both
grow at the end. Flows between the same two nodes may repeat, and each is a flow of its
own. Successors and predecessors are read off the same list, so every flow counts once on
either side.
-/

namespace WorkflowSoundness

/-- A node has the position in its graph as its number. -/
structure Node where
  kind : NodeKind
  /-- Labels of the process elements that this node stands for, in the order they came. -/
  elements : List String
  deriving DecidableEq, Repr

/-- A flow between two nodes, named by their numbers. -/
structure Flow where
  source : Nat
  target : Nat
  deriving DecidableEq, Repr

/-- A workflow graph; `flows_inside` says that flows join nodes of the graph. -/
structure Graph where
  name : String
  nodes : List Node
  flows : List Flow
  flows_inside : ∀ flow ∈ flows, flow.source < nodes.length ∧ flow.target < nodes.length

namespace Graph

def empty (name : String) : Graph where
  name
  nodes := []
  flows := []
  flows_inside := by simp

variable (g : Graph)

/-- The number of nodes, and the id that the next node will get. -/
def order : Nat :=
  g.nodes.length

def kind? (node : Nat) : Option NodeKind :=
  g.nodes[node]?.map Node.kind

def hasKind (node : Nat) (kind : NodeKind) : Bool :=
  g.kind? node == some kind

def elements (node : Nat) : List String :=
  (g.nodes[node]?.map Node.elements).getD []

/-- Targets of the flows that leave a node, one entry per flow. -/
def successors (node : Nat) : List Nat :=
  (g.flows.filter (·.source == node)).map Flow.target

/-- Sources of the flows that enter a node, one entry per flow. -/
def predecessors (node : Nat) : List Nat :=
  (g.flows.filter (·.target == node)).map Flow.source

/-- The nodes of one kind, in ascending order. -/
def nodesOf (kind : NodeKind) : List Nat :=
  (List.range g.order).filter fun node => g.hasKind node kind

def start? : Option Nat :=
  (g.nodesOf .start).head?

def finish? : Option Nat :=
  (g.nodesOf .finish).head?

/-! ### Growing a graph -/

/-- The new node comes last and has no labels. -/
def addNode (kind : NodeKind) : Graph where
  name := g.name
  nodes := g.nodes ++ [⟨kind, []⟩]
  flows := g.flows
  flows_inside := by
    intro flow member
    have inside := g.flows_inside flow member
    simp
    omega

def checkNode (node : Nat) : Except Defect Unit :=
  if node < g.order then .ok () else .error (.unknownNode node)

/-- Adds a label behind those that the node has. -/
def addElement (node : Nat) (label : String) : Except Defect Graph := do
  g.checkNode node
  return {
    name := g.name
    nodes := g.nodes.modify node fun old => { old with elements := old.elements ++ [label] }
    flows := g.flows
    flows_inside := by simpa using g.flows_inside }

/-- If both nodes are unknown the source is named. -/
def addFlow (source target : Nat) : Except Defect Graph :=
  if inside : source < g.order ∧ target < g.order then
    .ok {
      name := g.name
      nodes := g.nodes
      flows := g.flows ++ [⟨source, target⟩]
      flows_inside := by
        intro flow member
        rcases List.mem_append.1 member with old | new
        · exact g.flows_inside flow old
        · rw [List.mem_singleton.1 new]
          exact inside }
  else
    .error (.unknownNode (if source < g.order then target else source))

/-- Puts a new node of the given kind on one flow. The node takes over the labels of both
neighbours, and the two flows that replace the old one come last. -/
def insertOn (flow : Flow) (present : flow ∈ g.flows) (kind : NodeKind) : Graph where
  name := g.name
  nodes := g.nodes ++ [⟨kind, g.elements flow.source ++ g.elements flow.target⟩]
  flows := g.flows.erase flow ++ [⟨flow.source, g.order⟩, ⟨g.order, flow.target⟩]
  flows_inside := by
    have ends := g.flows_inside flow present
    intro other member
    rcases List.mem_append.1 member with old | new
    · have inside := g.flows_inside other (List.mem_of_mem_erase old)
      simp
      omega
    · simp only [List.mem_cons, List.not_mem_nil, or_false] at new
      rcases new with rfl | rfl <;> simp [order] <;> omega

/-- Puts a new node on the first flow between two nodes. -/
def insertBetween (source target : Nat) (kind : NodeKind) : Except Defect Graph := do
  g.checkNode source
  g.checkNode target
  if present : ⟨source, target⟩ ∈ g.flows then
    return g.insertOn ⟨source, target⟩ present kind
  else
    throw (.malformed (.noFlow source target))

end Graph
end WorkflowSoundness
