import WorkflowSoundness.BitSet.Reach
import WorkflowSoundness.BitSet.Sweep
import WorkflowSoundness.Counted
import WorkflowSoundness.EdgeGraph.Basic

/-!
Which edges execute the edges of a join. An edge executes an edge that enters a join if
the second is sure to fire once the first has. The exact relation is out of reach, so it
is approximated: all edges are allowed at first; those with a walk of allowed edges to the
entering edge are kept, where no walk goes on past the edge that leaves the join; and a
choice with a branch outside offers a way around, so the edges into it are dropped. This is
repeated until no choice has a branch outside. The edge that leaves a join is executed by
what executes all edges that enter it.
-/

namespace WorkflowSoundness

namespace EdgeGraph

variable (E : EdgeGraph)

/-- The joins, each with the edge that leaves it. -/
def joins : Except Misuse (List (Fin E.order × Fin E.size)) :=
  (E.nodesOf .join).mapM fun join => (fun out => (join, out)) <$> E.soleOutgoing join

/-- The edges that leave a choice. -/
def choiceBranches : E.Edges :=
  .ofFn fun e => (E.kindOf (E.source e)).isChoosing

end EdgeGraph

/-- For each edge the edges that execute it, which are none unless it enters or leaves a join,
and the edges entering a join that it executes. -/
structure Execution (E : EdgeGraph) where
  executedBy : Table E.Edges E.size
  executes : Table E.Edges E.size
  /-- For each join in order, how many edges execute the edge that leaves it. -/
  coverage : List (Fin E.order × Nat)

namespace Execution

variable (E : EdgeGraph)

/-- The edges with a walk of allowed edges to `i` on which `out` may only be the first. -/
def backwards (i out : Fin E.size) (allowed : E.Edges) : Counted E.Edges :=
  let found := BitSet.reach (fun e => if e = out then ∅ else E.predecessors e ∩ allowed) [i]
  ⟨found, found.count⟩

/-- The choices that one of the branches leaves, in the order of their least branches. With a
choice all its branches are read. -/
def choicesOf (branches : E.Edges) : List (Fin E.order) :=
  (branches.sweep fun b => E.leaving (E.source b)).map fun read => E.source read.1

/-- Narrows the allowed edges until no open choice has a branch among the edges that are
lost. Each round closes a choice, so the number of edges bounds the rounds. -/
def narrow (i out : Fin E.size) : Nat → (allowed branches : E.Edges) → Counted E.Edges
  | 0, allowed, _ => pure allowed
  | fuel + 1, allowed, branches => do
    let found ← backwards E i out allowed
    let ways := choicesOf E ((allowed \ found) ∩ branches)
    Counted.tick (1 + ways.length)
    if ways = [] then
      pure found
    else
      narrow i out fuel (ways.foldl (fun kept v => kept \ E.entering v) found)
        (ways.foldl (fun kept v => kept \ E.leaving v) branches)

/-- The edges that execute `i`, which enters a join that `out` leaves. -/
def approximate (i out : Fin E.size) : Counted E.Edges :=
  narrow E i out (E.size + 1) .full E.choiceBranches

variable {E}

/-- Adds what executes one edge `i` that enters the join which `out` leaves. -/
def addEntering (execution : Execution E) (i out : Fin E.size) : Counted (Execution E) := do
  let allowed ← approximate E i out
  Counted.tick allowed.count
  let executes := allowed.toList.foldl
    (fun table s => table.set s (table[s].insert i)) execution.executes
  let narrowed := execution.executedBy.set out (execution.executedBy[out] ∩ allowed)
  let executedBy := narrowed.set i (narrowed[i] ∪ allowed)
  return { execution with executes, executedBy }

/-- Adds a join; at first every edge is taken to execute the edge leaving it. -/
def addJoin (execution : Execution E) (join : Fin E.order × Fin E.size) :
    Counted (Execution E) := do
  let (node, out) := join
  let opened := { execution with executedBy := execution.executedBy.set out .full }
  let filled ← (E.entering node).toList.foldlM (fun filled i => filled.addEntering i out) opened
  return { filled with coverage := filled.coverage ++ [(node, filled.executedBy[out].count)] }

def empty : Execution E where
  executedBy := Table.replicate _ ∅
  executes := Table.replicate _ ∅
  coverage := []

variable (E)

/-- The relation over all joins; each of them needs an edge that leaves it. -/
def compute : Except Misuse (Counted (Execution E)) :=
  (fun joins => joins.foldlM addJoin empty) <$> E.joins

end Execution
end WorkflowSoundness
