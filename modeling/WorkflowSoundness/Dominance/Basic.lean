import WorkflowSoundness.Counted
import WorkflowSoundness.DepthFirst
import WorkflowSoundness.EdgeGraph.Basic

/-!
Dominance between edges. Seen from a root, an edge dominates another if every walk from the
root to the second passes the first. Forwards the root is the start edge; backwards it is
the end edge, walks run against the edges, and the relation is post-dominance.

The edges are ranked by the order in which a depth-first search from the root leaves them.
Immediate dominators are found by passes in reverse of that order: each edge takes the
nearest common dominator, so far as it is known, of the edges before it. Passes are
repeated until one changes nothing.
-/

namespace WorkflowSoundness

inductive Direction where
  | forward
  | backward
  deriving DecidableEq, Repr

def Direction.text : Direction → String
  | .forward => "Forward"
  | .backward => "Backward"

namespace EdgeGraph

variable (E : EdgeGraph)

def root : Direction → Fin E.size
  | .forward => E.first
  | .backward => E.last

/-- The edges that follow an edge on a walk. -/
def following : Direction → Fin E.size → E.Edges
  | .forward => E.successors
  | .backward => E.predecessors

/-- The edges that come before an edge on a walk. -/
def preceding : Direction → Fin E.size → E.Edges
  | .forward => E.predecessors
  | .backward => E.successors

end EdgeGraph

namespace DominatorTree

variable {n : Nat}

/-- For each index its immediate dominator as far as it is known; the root is its own. -/
abbrev Parents (n : Nat) : Type :=
  Table (Option (Fin n)) n

/-- Climbs from the lower of two indices until both are the same. A climb raises the rank,
so `fuel` of twice the number of indices is enough. -/
def meet (rank : Fin n → Nat) (parents : Parents n) : Nat → Fin n → Fin n → Counted (Fin n)
  | 0, a, _ => pure a
  | fuel + 1, a, b =>
    if a = b then
      pure a
    else if rank a < rank b then
      match parents[a] with
      | none => pure a
      | some above => do
        Counted.tick 1
        meet rank parents fuel above b
    else
      match parents[b] with
      | none => pure a
      | some above => do
        Counted.tick 1
        meet rank parents fuel a above

/-- The nearest common dominator of the indices in a list whose parent is known. -/
def nearest (rank : Fin n → Nat) (parents : Parents n) (before : List (Fin n)) :
    Counted (Option (Fin n)) :=
  (before.filter fun p => parents[p].isSome).foldlM (fun found p =>
    match found with
    | none => pure (some p)
    | some d => some <$> meet rank parents (2 * n) p d) none

/-- Sets the parent of one index to the nearest common dominator of what comes before it. -/
def improve (rank : Fin n → Nat) (before : Fin n → BitSet n) (parents : Parents n) (a : Fin n) :
    Counted (Parents n) := do
  Counted.tick 1
  match ← nearest rank parents (before a).toList with
  | none => pure parents
  | some d => pure (parents.set a (some d))

/-- One pass over the indices in `order`. -/
def pass (rank : Fin n → Nat) (before : Fin n → BitSet n) (order : List (Fin n))
    (parents : Parents n) : Counted (Parents n) :=
  order.foldlM (improve rank before) parents

/-- Passes until one changes nothing. A pass moves parents only towards the root, so the
square of the number of indices bounds the passes. -/
def settle (rank : Fin n → Nat) (before : Fin n → BitSet n) (order : List (Fin n)) :
    Nat → Parents n → Counted (Parents n)
  | 0, parents => pure parents
  | fuel + 1, parents => do
    let improved ← pass rank before order parents
    if improved = parents then
      pure parents
    else
      settle rank before order fuel improved

/-- An index and its parents up to the root. -/
def chainFrom (root : Fin n) (parents : Parents n) : Nat → Fin n → List (Fin n)
  | 0, _ => []
  | fuel + 1, a =>
    if a = root then
      [a]
    else
      match parents[a] with
      | none => [a]
      | some above => a :: chainFrom root parents fuel above

end DominatorTree

/-- Dominance in one direction over all edges. -/
structure Dominance (E : EdgeGraph) where
  direction : Direction
  /-- The position of an edge in post-order, if the search reaches it. -/
  rank : Table (Option Nat) E.size
  parents : DominatorTree.Parents E.size
  dominators : Table E.Edges E.size
  frontiers : Table E.Edges E.size

namespace Dominance

section Computation

variable (E : EdgeGraph) (direction : Direction)

/-- The steps of the search from the root; entering the root is not counted as a visit. -/
def search : Counted (List (DepthFirst.Step E.size)) :=
  let steps := DepthFirst.steps (E.following direction) [E.root direction]
  ⟨steps, steps.length - 1⟩

/-- The position of each edge in post-order. -/
def ranksOf (postOrder : List (Fin E.size)) : Table (Option Nat) E.size :=
  Table.ofFn fun e => postOrder.idxOf? e

/-- The parents after the last pass. At first only the root has one. -/
def parentsOf (postOrder : List (Fin E.size)) : Counted (DominatorTree.Parents E.size) :=
  let root := E.root direction
  let ranks := ranksOf E postOrder
  DominatorTree.settle (fun e => ranks[e].getD E.size) (E.preceding direction)
    (postOrder.reverse.filter (· != root)) (E.size * E.size + 1)
    ((Table.replicate E.size none).set root (some root))

def chainOf (parents : DominatorTree.Parents E.size) (e : Fin E.size) : List (Fin E.size) :=
  DominatorTree.chainFrom (E.root direction) parents E.size e

/-- The edges between the edges before `e` and the immediate dominator of `e`: their
dominators that do not dominate `e` strictly. One edge before `e` gives none. -/
def below (parents : DominatorTree.Parents E.size) (e : Fin E.size) : List (Fin E.size) :=
  let before := E.preceding direction e
  match parents[e] with
  | none => []
  | some top =>
    if before.count < 2 then
      []
    else
      before.toList.flatMap fun p => (chainOf E direction parents p).takeWhile (· != top)

/-- An edge `e` is in the frontier of `d` if `d` is below `e`; each edge is visited once, and once
more for every edge below it. -/
def frontiersOf (parents : DominatorTree.Parents E.size) : Counted (Table E.Edges E.size) :=
  let lists := Table.ofFn (below E direction parents)
  ⟨Table.ofFn fun d => .ofFn fun e => lists[e].contains d,
    ((List.finRange E.size).flatMap fun e => lists[e]).length + E.size⟩

/-- Ranks, parents, and from these the dominators and frontiers. -/
def compute : Counted (Dominance E) := do
  let postOrder := DepthFirst.postOrder (← search E direction)
  let parents ← parentsOf E direction postOrder
  Counted.tick postOrder.length
  let dominators := Table.ofFn fun e => BitSet.ofList (chainOf E direction parents e)
  let frontiers ← frontiersOf E direction parents
  return { direction, rank := ranksOf E postOrder, parents, dominators, frontiers }

end Computation

variable {E : EdgeGraph} (dominance : Dominance E)

def root : Fin E.size :=
  E.root dominance.direction

/-- The closest strict dominator of an edge. The root has none, nor has an edge that no
walk from the root reaches. -/
def immediate? (e : Fin E.size) : Option (Fin E.size) :=
  if e = dominance.root then none else dominance.parents[e]

/-- All dominators of an edge, itself included. -/
def dominatorsOf (e : Fin E.size) : E.Edges :=
  dominance.dominators[e]

/-- The edges at which the dominance of `e` ends. -/
def frontier (e : Fin E.size) : E.Edges :=
  dominance.frontiers[e]

/-- Whether `a` is among the dominators of `b`. -/
def dominates (a b : Fin E.size) : Bool :=
  (dominance.dominatorsOf b).contains a

def strictlyDominates (a b : Fin E.size) : Bool :=
  a != b && dominance.dominates a b

/-- An edge and its immediate dominators up to the root. -/
def chain (e : Fin E.size) : List (Fin E.size) :=
  chainOf E dominance.direction dominance.parents e

end Dominance
end WorkflowSoundness
