import WorkflowSoundness.BitSet.Scan
import WorkflowSoundness.Counted
import WorkflowSoundness.Table

/-!
Flow in networks whose edges carry nothing or one unit. `maximize` raises the flow between
two nodes along augmenting paths until there is none. An augmenting path follows edges with
room forwards and edges with flow backwards, and has as few edges as possible.
-/

namespace WorkflowSoundness

/-- A network with incidence lists at each node. -/
structure FlowNetwork where
  order : Nat
  size : Nat
  ends : Table (Fin order × Fin order) size
  incoming : Table (List (Fin size)) order
  outgoing : Table (List (Fin size)) order

namespace FlowNetwork

/-- The edges by their node at one end, at each node in ascending order. -/
def listedBy {order size : Nat} (node : Fin size → Fin order) :
    Table (List (Fin size)) order :=
  (List.finRange size).foldr (fun e lists => lists.set (node e) (e :: lists[node e]))
    (.replicate order [])

theorem getElem_listedBy {order size : Nat} (node : Fin size → Fin order) (v : Fin order) :
    (listedBy node)[v] = (List.finRange size).filter fun e => node e == v := by
  unfold listedBy
  induction List.finRange size with
  | nil => simp
  | cons e later ih =>
    rw [List.foldr_cons, Table.getElem_set, List.filter_cons]
    by_cases here : node e = v
    · subst here
      simp [ih]
    · simp [here, ih]

/-- The network of a table of edges. -/
def ofEnds (order size : Nat) (ends : Table (Fin order × Fin order) size) : FlowNetwork where
  order
  size
  ends
  incoming := listedBy fun e => ends[e].2
  outgoing := listedBy fun e => ends[e].1

variable (net : FlowNetwork)

/-- A way on from a node: an edge and the node at its other end. -/
structure Arc where
  edge : Fin net.size
  far : Fin net.order
  usable : Bool

/-- Edges out of a node can be used while they have room, edges into it while they carry
flow, which is then taken back. -/
def arcs (capacity flow : BitSet net.size) (v : Fin net.order) : List net.Arc :=
  (net.outgoing[v].map fun e =>
    ⟨e, net.ends[e].2, capacity.contains e && !flow.contains e⟩) ++
  net.incoming[v].map fun e => ⟨e, net.ends[e].1, flow.contains e⟩

/-- A breadth-first search: the nodes found, the edge by which each was found, and the nodes
to go on from. -/
structure Search where
  found : BitSet net.order
  via : Table (Option (Fin net.size)) net.order
  queue : List (Fin net.order)

variable {net}

/-- Only the source has been found. -/
def Search.from (source : Fin net.order) : Search net where
  found := BitSet.empty.insert source
  via := Table.replicate _ none
  queue := [source]

/-- Takes in the node at the far end of a way on. -/
def Search.add (search : Search net) (arc : net.Arc) : Search net where
  found := search.found.insert arc.far
  via := search.via.set arc.far (some arc.edge)
  queue := search.queue ++ [arc.far]

/-- Looks at the ways on from one node; the answer says whether a goal was found. -/
def Search.scan (isGoal : Fin net.order → Bool) :
    List net.Arc → Search net → Counted (Bool × Search net)
  | [], search => pure (false, search)
  | arc :: later, search => do
    Counted.tick 1
    if arc.usable && !search.found.contains arc.far then
      if isGoal arc.far then
        return (true, search.add arc)
      else
        Search.scan isGoal later (search.add arc)
    else
      Search.scan isGoal later search

/-- Goes on until a goal is found or the queue is empty. Every node enters the queue at most
once, which bounds the steps. -/
def Search.run (arcs : Fin net.order → List net.Arc) (isGoal : Fin net.order → Bool) :
    Nat → Search net → Counted (Search net)
  | 0, search => pure search
  | fuel + 1, search =>
    match search.queue with
    | [] => pure search
    | v :: queue => do
      let (done, scanned) ← Search.scan isGoal (arcs v) { search with queue }
      if done then
        return scanned
      else
        Search.run arcs isGoal fuel scanned

/-- A path that has been followed back to `origin`: its edges, and the flow once they have been
used. -/
structure Route (net : FlowNetwork) where
  origin : Fin net.order
  path : BitSet net.size
  flow : BitSet net.size

/-- Follows a search back as far as it goes. An edge that was used against its direction loses
its flow, every other edge of the path gets some. -/
def trace (via : Table (Option (Fin net.size)) net.order) : Nat → Route net → Route net
  | 0, route => route
  | fuel + 1, route =>
    match via[route.origin] with
    | none => route
    | some e =>
      if net.ends[e].2 = route.origin then
        trace via fuel ⟨net.ends[e].1, route.path.insert e, route.flow.insert e⟩
      else
        trace via fuel ⟨net.ends[e].2, route.path.insert e, route.flow.erase e⟩

/-- A shortest augmenting path, if there is one. -/
def augment (capacity flow : BitSet net.size) (source sink : Fin net.order) :
    Counted (Option (Route net)) := do
  let search ← Search.run (net.arcs capacity flow) (· == sink) net.order (.from source)
  if source = sink ∨ search.via[sink] = none then
    return none
  else
    return some (trace search.via net.order ⟨sink, ∅, flow⟩)

/-- How often the flow was raised, the flow itself, and the paths of which no edge was used
again later. -/
structure Result (net : FlowNetwork) where
  value : Nat
  flow : BitSet net.size
  paths : List (BitSet net.size)

/-- The flow is raised once more; a path that shares an edge with the new one is dropped. -/
def Result.raise (result : Result net) (route : Route net) : Result net where
  value := result.value + 1
  flow := route.flow
  paths := result.paths.filter (fun old => !old.intersects route.path) ++ [route.path]

/-- Every augmenting path takes one more edge out of the source, so the number of edges bounds
the paths. -/
def maximizeFrom (capacity : BitSet net.size) (source sink : Fin net.order) :
    Nat → Result net → Counted (Result net)
  | 0, result => pure result
  | fuel + 1, result => do
    match ← augment capacity result.flow source sink with
    | none => pure result
    | some route => maximizeFrom capacity source sink fuel (result.raise route)

/-- Raises a given flow until no path can raise it further. -/
def maximize (capacity flow : BitSet net.size) (source sink : Fin net.order) :
    Counted (Result net) :=
  maximizeFrom capacity source sink (net.size + 1) ⟨0, flow, []⟩

end FlowNetwork
end WorkflowSoundness
