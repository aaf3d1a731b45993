import WorkflowSoundness.Execution

/-!
Which joins an edge leads to without their other branches. An edge `i` that enters a join
is a fact; a fact holds at `e` if some walk from `e` to `i` meets, before its end, neither
an edge that enters the join nor one that executes the edge leaving it. Facts arise at the
entering edges and are passed backwards, from successors to predecessors, as long as
anything changes.
-/

namespace WorkflowSoundness

/-- For each edge the facts that arise at it, those it holds back, and those that hold at it. -/
structure Dataflow (E : EdgeGraph) where
  /-- The facts that arise at an edge. -/
  generated : Table E.Edges E.size
  /-- The facts that an edge holds back. -/
  killed : Table E.Edges E.size
  facts : Table E.Edges E.size

namespace Dataflow

variable {E : EdgeGraph}

def initial (E : EdgeGraph) : Dataflow E where
  generated := Table.replicate _ ∅
  killed := Table.replicate _ ∅
  facts := Table.replicate _ ∅

def generateAt (generated : Table E.Edges E.size) (i : Fin E.size) : Table E.Edges E.size :=
  generated.set i (generated[i].insert i)

def killAt (entering : E.Edges) (killed : Table E.Edges E.size) (e : Fin E.size) :
    Table E.Edges E.size :=
  killed.set e (killed[e] ∪ entering)

/-- The edges that enter a join generate themselves; they and all edges that execute the join
hold back the facts of the join. -/
def addJoin (execution : Execution E) (flow : Dataflow E) (join : Fin E.order × Fin E.size) :
    Counted (Dataflow E) := do
  let entering := E.entering join.1
  let executing := execution.executedBy[join.2]
  Counted.tick (entering.count + executing.count)
  return { flow with
    generated := entering.toList.foldl generateAt flow.generated
    killed := executing.toList.foldl (killAt entering)
      (entering.toList.foldl (killAt entering) flow.killed) }

/-- The facts at `e` that its successors account for, and its own. -/
def inflow (flow : Dataflow E) (e : Fin E.size) : E.Edges :=
  let later := (E.successors e).toList.foldl (fun facts s => facts ∪ flow.facts[s]) ∅
  (later \ flow.killed[e]) ∪ flow.generated[e]

/-- Takes the edges of the list in turn; an edge whose facts grow puts its predecessors
behind the others. An edge grows at most once for each fact, which bounds the steps. -/
def propagate : Nat → List (Fin E.size) → Dataflow E → Counted (Dataflow E)
  | 0, _, flow => pure flow
  | _, [], flow => pure flow
  | fuel + 1, e :: rest, flow => do
    Counted.tick (1 + (E.successors e).count)
    let grown := flow.facts[e] ∪ flow.inflow e
    if grown = flow.facts[e] then
      propagate fuel rest flow
    else
      propagate fuel (rest ++ (E.predecessors e).toList)
        { flow with facts := flow.facts.set e grown }

/-- The least facts that satisfy the flow equation at every edge. -/
def solve (execution : Execution E) : Except Misuse (Counted (Dataflow E)) := do
  let joins ← E.joins
  return do
    let flow ← joins.foldlM (addJoin execution) (initial E)
    let worklist := joins.flatMap fun join => (E.entering join.1).toList
    propagate (worklist.length + E.size * E.size * E.size) worklist flow

end Dataflow
end WorkflowSoundness
