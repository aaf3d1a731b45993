import WorkflowSoundness.EdgeGraph.Basic
import WorkflowSoundness.FlowNetwork

/-!
The flow network around a fork. The edge `entry` that enters the fork ends in a twin of the
fork instead, every branch starts at a node of its own, and two virtual edges lead to that
node, one from the fork and one from the twin:

       P                        P
       |                        | entry
       F              F         F'
      / \       =>    |\       /|
    b1   b2           | \     / |
                      |  N1  N2 |     (and F -> N2, F' -> N1)
                      |  |    | |
                        b1    b2

Flow leaves the fork, and may come back around a cycle through `entry` and leave again
through the twin. Edges keep their numbers; virtual edges are numbered behind them, two for
each branch.
-/

namespace WorkflowSoundness

namespace ForkNetwork

variable (E : EdgeGraph) (fork : Fin E.order)

/-- The edges that leave the fork, in ascending order. -/
def branches : List (Fin E.size) :=
  (E.leaving fork).toList

/-- The workflow's nodes, the twin, and a node for each branch. -/
def order : Nat :=
  E.order + 1 + (branches E fork).length

def place (v : Fin E.order) : Fin (order E fork) :=
  ⟨v, by unfold order; omega⟩

def twin : Fin (order E fork) :=
  ⟨E.order, by unfold order; omega⟩

def branchNode (k : Fin (branches E fork).length) : Fin (order E fork) :=
  ⟨E.order + 1 + k, by unfold order; omega⟩

/-- A branch starts at its own node, any other edge where it did before. -/
def startOf (e : Fin E.size) : Fin (order E fork) :=
  if E.source e = fork then
    match (branches E fork).finIdxOf? e with
    | some k => branchNode E fork k
    | none => place E fork (E.source e)
  else
    place E fork (E.source e)

/-- The entry ends in the twin, any other edge where it did before. -/
def stopOf (entry : Option (Fin E.size)) (e : Fin E.size) : Fin (order E fork) :=
  if entry = some e then twin E fork else place E fork (E.target e)

/-- The edges of the workflow, then the two virtual edges of each branch. -/
def endsList (entry : Option (Fin E.size)) : List (Fin (order E fork) × Fin (order E fork)) :=
  (List.finRange E.size).map (fun e => (startOf E fork e, stopOf E fork entry e)) ++
  (List.finRange (branches E fork).length).flatMap fun k =>
    [(place E fork fork, branchNode E fork k), (twin E fork, branchNode E fork k)]

/-- Without an entry no edge leads to the twin. -/
def network (entry : Option (Fin E.size)) : FlowNetwork :=
  .ofEnds (order E fork) (endsList E fork entry).length (.ofList (endsList E fork entry))

/-- The workflow edge that each network edge stands for. -/
def origins : List (Fin E.size) :=
  List.finRange E.size ++ (branches E fork).flatMap fun b => [b, b]

/-- The edges that may carry flow towards the source of `sink`: those allowed, but never
`sink`, and always the entry and the virtual edges. -/
def capacity (size : Nat) (allowed : E.Edges) (sink entry : Fin E.size) : BitSet size :=
  .ofFn fun e =>
    if real : e.val < E.size then
      let e : Fin E.size := ⟨e, real⟩
      e == entry || (allowed.contains e && e != sink)
    else
      true

/-- A path of the network as a set of workflow edges. -/
def workflowPath {size : Nat} (path : BitSet size) : E.Edges :=
  let origins := (origins E fork).toArray
  .ofList (path.toList.filterMap fun e => origins[e.val]?)

end ForkNetwork
end WorkflowSoundness
