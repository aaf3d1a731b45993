import WorkflowSoundness.DepthFirst
import WorkflowSoundness.EdgeGraph.Basic

/-!
Strongly connected components of the edges. A depth-first search numbers the edges in the
order in which it enters them. The low link of an edge is the least number that the search
below it comes back to; an edge that is left with its own number as low link closes a
component, which is what has been entered since and is in no component yet. A component of
several edges gets the next number, and its edges are marked as lying on a cycle.
-/

namespace WorkflowSoundness

/-- The components with several elements, numbered from 0, with the number of each element and
with all elements that have one. -/
structure Grouping (n : Nat) where
  groups : List (List (Fin n))
  component : Table (Option Nat) n
  cyclic : BitSet n

namespace Grouping

variable {n : Nat}

def none (n : Nat) : Grouping n where
  groups := []
  component := Table.replicate n .none
  cyclic := ∅

/-- Gives the next number to a component. -/
def add (grouping : Grouping n) (members : List (Fin n)) : Grouping n where
  groups := grouping.groups ++ [members]
  component := members.foldl (fun table a => table.set a (some grouping.groups.length))
    grouping.component
  cyclic := members.foldl BitSet.insert grouping.cyclic

end Grouping

/-- The components with several edges lie on cycles and are numbered. -/
structure Components (E : EdgeGraph) extends Grouping E.size where
  index : Table Nat E.size
  lowLink : Table Nat E.size

namespace Components

/-- The state of the computation after some steps of the search. -/
structure Progress (n : Nat) extends Grouping n where
  index : Table Nat n
  lowLink : Table Nat n
  entered : Nat
  /-- What is in no component yet, the latest first. -/
  unassigned : List (Fin n)

namespace Progress

variable {n : Nat}

def initial (n : Nat) : Progress n where
  toGrouping := .none n
  index := Table.replicate n 0
  lowLink := Table.replicate n 0
  entered := 0
  unassigned := []

def lower (progress : Progress n) (a : Fin n) (bound : Nat) : Progress n :=
  { progress with lowLink := progress.lowLink.set a (min progress.lowLink[a] bound) }

/-- Closes the component of `root`, which gets a number if it has several elements. -/
def close (progress : Progress n) (root : Fin n) : Progress n :=
  let members := progress.unassigned.takeWhile (· != root) ++ [root]
  { progress with
    toGrouping :=
      if members.length < 2 then progress.toGrouping else progress.toGrouping.add members
    unassigned := (progress.unassigned.dropWhile (· != root)).drop 1 }

/-- A successor that is in no component yet bounds the low link by its number, and an edge that
is left hands its low link to its parent. -/
def advance (progress : Progress n) : DepthFirst.Step n → Progress n
  | .enter a _ =>
    { progress with
      index := progress.index.set a progress.entered
      lowLink := progress.lowLink.set a progress.entered
      entered := progress.entered + 1
      unassigned := a :: progress.unassigned }
  | .look a s =>
    if progress.unassigned.contains s then progress.lower a progress.index[s] else progress
  | .leave a parent =>
    let passed := match parent with
      | none => progress
      | some p => progress.lower p progress.lowLink[a]
    if progress.lowLink[a] = progress.index[a] then passed.close a else passed

end Progress

/-- The components of all edges; the search starts from every edge that is still new. -/
def compute (E : EdgeGraph) : Components E :=
  let steps := DepthFirst.steps E.successors (List.finRange E.size)
  let final := steps.foldl Progress.advance (.initial E.size)
  { toGrouping := final.toGrouping, index := final.index, lowLink := final.lowLink }

variable {E : EdgeGraph} (components : Components E)

/-- The number of the component of an edge, if it has several edges. -/
def component? (e : Fin E.size) : Option Nat :=
  components.component[e]

/-- Whether an edge lies on a cycle of several edges. -/
def inCycle (e : Fin E.size) : Bool :=
  components.cyclic.contains e

end Components
end WorkflowSoundness
