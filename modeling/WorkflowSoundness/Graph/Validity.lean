import WorkflowSoundness.BitSet.Reach
import WorkflowSoundness.Graph.Basic

/-!
The structural rules that a workflow graph has to meet: one start and one end event with
one flow each, one incoming flow at every splitting gateway and one outgoing flow at every
merging one, and every node on some way from start to end. `validate` answers the first
rule that does not hold.
-/

namespace WorkflowSoundness.Graph

variable (g : Graph)

/-- A node's number as a position, if the node exists. -/
def position? (node : Nat) : Option (Fin g.order) :=
  if inside : node < g.order then some ⟨node, inside⟩ else none

def successorSet (v : Fin g.order) : BitSet g.order :=
  .ofList ((g.successors v.val).filterMap g.position?)

def predecessorSet (v : Fin g.order) : BitSet g.order :=
  .ofList ((g.predecessors v.val).filterMap g.position?)

/-- The nodes that some way of flows from `node` leads to, itself included. -/
def reachable (node : Nat) : BitSet g.order :=
  BitSet.reach g.successorSet (g.position? node).toList

/-- The nodes from which some way of flows leads to `node`, itself included. -/
def coreachable (node : Nat) : BitSet g.order :=
  BitSet.reach g.predecessorSet (g.position? node).toList

def uniqueStart : Except Defect Nat :=
  match g.nodesOf .start with
  | [node] => .ok node
  | [] => .error .missingStart
  | several => .error (.multipleStart several.length)

def uniqueFinish : Except Defect Nat :=
  match g.nodesOf .finish with
  | [node] => .ok node
  | [] => .error .missingEnd
  | several => .error (.multipleEnd several.length)

/-- The gateway rule that a node breaks, if it does. -/
def gatewayDefect? (node : Nat) (kind : NodeKind) : Option Malformation :=
  let incoming := (g.predecessors node).length
  let outgoing := (g.successors node).length
  if kind.isSplitting && incoming != 1 then
    some (.gatewayDegree kind node .incoming incoming)
  else if kind.isMerging && outgoing != 1 then
    some (.gatewayDegree kind node .outgoing outgoing)
  else
    none

/-- The gateway rules that do not hold, in the order of the nodes. -/
def gatewayDefects : List Malformation :=
  (List.range g.order).filterMap fun node => (g.kind? node).bind (g.gatewayDefect? node)

/-- Answers the first rule that does not hold: one start, one end, their flows, the gateways in
the order of the nodes, then the least node that the start does not lead to, then the
least that does not lead to the end. -/
def validate : Except Defect Unit := do
  let start ← g.uniqueStart
  let finish ← g.uniqueFinish
  if g.predecessors start ≠ [] ∨ (g.successors start).length ≠ 1 then
    throw (.malformed (.startDegree start))
  if (g.predecessors finish).length ≠ 1 ∨ g.successors finish ≠ [] then
    throw (.malformed (.endDegree finish))
  if let rule :: _ := g.gatewayDefects then
    throw (.malformed rule)
  let forward := g.reachable start
  if let some node := (List.finRange g.order).find? fun node => !forward.contains node then
    throw (.unreachable node)
  let backward := g.coreachable finish
  if let some node := (List.finRange g.order).find? fun node => !backward.contains node then
    throw (.noPathToEnd node)

end WorkflowSoundness.Graph
