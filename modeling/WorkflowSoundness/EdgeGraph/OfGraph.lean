import WorkflowSoundness.EdgeGraph.Basic
import WorkflowSoundness.Graph.Basic

/-!
Numbering the flows of a graph. Edges are numbered node by node in the order of their
sources, and at one source in the order in which its flows were added, so equal graphs get
equal numbers. A graph needs a start event that some flow leaves and an end event that some
flow enters.
-/

namespace WorkflowSoundness

namespace Graph

variable (g : Graph)

/-- The flows as pairs of positions. -/
def positions : List (Fin g.order × Fin g.order) :=
  g.flows.attach.map fun flow =>
    (⟨flow.val.source, (g.flows_inside flow.val flow.property).1⟩,
      ⟨flow.val.target, (g.flows_inside flow.val flow.property).2⟩)

/-- The flows in the order of their sources. -/
def orderedPositions : List (Fin g.order × Fin g.order) :=
  (List.finRange g.order).flatMap fun v => g.positions.filter fun ends => ends.1 == v

def kinds : Table NodeKind g.order :=
  Table.ofFn fun v => (g.nodes.get v).kind

end Graph

/-- The edges of a graph. The first start event and the first end event count, and at each of
them the least edge. -/
def EdgeGraph.ofGraph (g : Graph) : Except Defect EdgeGraph := do
  let some start := g.start? | throw .missingStart
  let some finish := g.finish? | throw .missingEnd
  let ends := Table.ofList g.orderedPositions
  let some first := (List.finRange _).find? fun e => ends[e].1.val == start
    | throw (.malformed (.noEdge start .outgoing))
  let some last := (List.finRange _).find? fun e => ends[e].2.val == finish
    | throw (.malformed (.noEdge finish .incoming))
  return .ofEnds g.kinds ends first last

end WorkflowSoundness
