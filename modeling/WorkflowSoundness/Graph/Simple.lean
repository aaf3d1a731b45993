import WorkflowSoundness.Graph.Basic

/-!
The simple shape, in which activities separate gateways from each other and from the start
and end events. `simplify` puts an activity on every flow that leads

* into a join, or-join or merge from anything but an activity,
* out of a fork, split or or-fork into anything but an activity,
* into the end event from, or out of the start event to, anything but an activity.

Flows that repeat between the same two nodes get an activity each.
-/

namespace WorkflowSoundness.Graph

theorem count_insertOn_lt {g : Graph} {flow : Flow} (present : flow ∈ g.flows)
    (kind : NodeKind) : (g.insertOn flow present kind).flows.count flow < g.flows.count flow := by
  have ends := g.flows_inside flow present
  have fresh : g.order ≠ flow.target ∧ g.order ≠ flow.source := by
    simp only [order]
    omega
  have first : ¬(⟨flow.source, g.order⟩ : Flow) = flow := fun same =>
    fresh.1 (congrArg Flow.target same)
  have second : ¬(⟨g.order, flow.target⟩ : Flow) = flow := fun same =>
    fresh.2 (congrArg Flow.source same)
  have positive := List.count_pos_iff.2 present
  simp only [insertOn, List.count_append, List.count_erase_self, List.count_cons, beq_iff_eq,
    first, second, if_false, List.count_nil]
  omega

/-- Puts an activity on every flow equal to `flow`. -/
def separate (g : Graph) (flow : Flow) : Graph :=
  if present : flow ∈ g.flows then
    separate (g.insertOn flow present .activity) flow
  else
    g
termination_by g.flows.count flow
decreasing_by exact count_insertOn_lt present .activity

/-- The nodes of a list that are no activities, each once and in ascending order. -/
def nonActivities (g : Graph) (nodes : List Nat) : List Nat :=
  (List.range g.order).filter fun node => nodes.contains node && !g.hasKind node .activity

def separateIncoming (g : Graph) (node : Nat) : Graph :=
  (g.nonActivities (g.predecessors node)).foldl (fun g source => g.separate ⟨source, node⟩) g

def separateOutgoing (g : Graph) (node : Nat) : Graph :=
  (g.nonActivities (g.successors node)).foldl (fun g target => g.separate ⟨node, target⟩) g

/-- Separates the merging gateways, then the splitting ones. -/
def separateGateways (g : Graph) : Graph :=
  let merged := [NodeKind.join, .orJoin, .merge].foldl
    (fun g kind => (g.nodesOf kind).foldl separateIncoming g) g
  [NodeKind.fork, .split, .orFork].foldl
    (fun g kind => (g.nodesOf kind).foldl separateOutgoing g) merged

/-- Only the first flow into the end event counts. -/
def separateFinish (g : Graph) (finish : Nat) : Graph :=
  match (g.predecessors finish).head? with
  | none => g
  | some source => if g.hasKind source .activity then g else g.separate ⟨source, finish⟩

/-- Only the first flow out of the start event counts. -/
def separateStart (g : Graph) (start : Nat) : Graph :=
  match (g.successors start).head? with
  | none => g
  | some target => if g.hasKind target .activity then g else g.separate ⟨start, target⟩

/-- The simple shape of a graph. Without an end or a start event the activities inserted so
far stay. -/
def simplify (g : Graph) : Graph × Except Defect Unit :=
  let g := g.separateGateways
  match g.finish? with
  | none => (g, .error .missingEnd)
  | some finish =>
    let g := g.separateFinish finish
    match g.start? with
    | none => (g, .error .missingStart)
    | some start => (g.separateStart start, .ok ())

end WorkflowSoundness.Graph
