import WorkflowSoundness.Abundance.ForkNetwork
import WorkflowSoundness.Abundance.StaleNetwork
import WorkflowSoundness.IndexSet

/-!
Step-by-step use of fork networks. A session is turned to a fork, then told a sink and the
edges that may carry flow, then asked for the flow. What one step leaves behind is seen by
the next, also after a misuse: turning to a fork that no edge enters rearranges the edges
but keeps the network of the turn before, and a set that names an edge out of range is taken
in up to that edge.

A network is a handful of tables, and a turn writes all of them. First come the edges with
their ends and the workflow edge that each stands for. Every turn makes these two anew from the
edges of the workflow, up to the end or not, so the fork `shown` says what they hold. Then come
the edge that enters the fork, the incoming and the outgoing edges of each node, the capacity
and the flow. A turn that no edge enters does not get there, so these are of the last complete
one: `turn` keeps its capacity and flow, which later steps change, and the fork and the entry
that the lists of edges follow from. If `shown` is not the fork of `turn`, the lists are of one
network and the ends of another (`StaleNetwork`).
-/

namespace WorkflowSoundness

/-- A complete turn to a fork: the network it made is that of the fork and the edge entering it. -/
structure Turn (E : EdgeGraph) where
  fork : Fin E.order
  entry : Fin E.size
  capacity : BitSet (ForkNetwork.network E fork (some entry)).size
  flow : BitSet (ForkNetwork.network E fork (some entry)).size

structure NetworkSession (E : EdgeGraph) where
  /-- The fork that the ends of the edges and the workflow edges they stand for are arranged
  for, also if no edge enters it. -/
  shown : Option (Fin E.order)
  /-- The last turn to a fork that an edge enters, for which the edges of each node are listed. -/
  turn : Option (Turn E)
  source : Fin E.order
  /-- The number that the source of the sink had when it was asked for. -/
  sink : Nat
  /-- The sinks asked for since the edges were arranged. -/
  checked : E.Edges
  visits : Nat

namespace NetworkSession

variable {E : EdgeGraph}

/-- Nothing has been turned to yet; the edges are shown as they are in the workflow. -/
def start (E : EdgeGraph) : NetworkSession E where
  shown := none
  turn := none
  source := ⟨0, Nat.lt_of_le_of_lt (Nat.zero_le _) (E.source E.first).isLt⟩
  sink := 0
  checked := ∅
  visits := E.size

variable (session : NetworkSession E)

/-- The number of edges shown, virtual ones included. -/
def edgeCount : Nat :=
  match session.shown with
  | none => E.size
  | some fork => (ForkNetwork.origins E fork).length

/-- The workflow edge that a network edge stands for; numbers past the last edge stand for
themselves. -/
def origin (e : Nat) : Nat :=
  match session.shown with
  | none => e
  | some fork => ((ForkNetwork.origins E fork)[e]?.map Fin.val).getD e

/-- Turns to a fork. The sinks checked before are forgotten even if no edge enters it. -/
def transform (fork : Fin E.order) : Except Misuse Unit × NetworkSession E :=
  let branches := (ForkNetwork.branches E fork).length
  let arranged := { session with
    shown := some fork
    checked := ∅
    visits := session.visits + 1 + 3 * branches }
  match E.soleIncoming fork with
  | .error misuse => (.error misuse, arranged)
  | .ok entry =>
    (.ok (), { arranged with
      turn := some ⟨fork, entry, ∅, ∅⟩
      visits := arranged.visits + arranged.edgeCount })

/-- Adds edges to the capacity one by one. -/
def permit {size : Nat} (capacity : BitSet size) :
    List Nat → Except Misuse Unit × BitSet size × Nat
  | [] => (.ok (), capacity, 0)
  | e :: later =>
    if inside : e < size then
      let (outcome, final, visits) := permit (capacity.insert ⟨e, inside⟩) later
      (outcome, final, visits + 1)
    else
      (.error .indexOutOfBounds, capacity, 1)

/-- The least edge that `permit` did not take in is the misuse; all before it count. The entry
and the virtual edges always have room, `sink` never has. -/
def fill (turn : Turn E) (sink : Nat) (allowed : List Nat) :
    Except Misuse Unit × Turn E × Nat :=
  match permit ∅ allowed with
  | (.error misuse, taken, visits) => (.error misuse, { turn with capacity := taken }, visits)
  | (.ok (), taken, visits) =>
    let always := turn.entry.val :: List.range' E.size (session.edgeCount - E.size)
    let (outcome, final, _) := permit (taken \ .ofFn fun e => e.val == sink) always
    (outcome, { turn with capacity := final }, visits)

/-- Prepares the flow from the fork to the source of `sink`, over the edges allowed; answers
`false` if `sink` has been asked for before. -/
def setCapacities (sink : Nat) (allowed : List Nat) : Except Misuse Bool × NetworkSession E :=
  match session.turn, session.shown with
  | some turn, some fork =>
    if inside : sink < E.size then
      if session.checked.contains ⟨sink, inside⟩ then
        (.ok false, session)
      else
        let (outcome, filled, visits) := session.fill { turn with flow := ∅ } sink allowed
        ((fun _ => true) <$> outcome, { session with
          turn := some filled
          source := turn.fork
          sink := ForkNetwork.startOf E fork ⟨sink, inside⟩
          checked := session.checked.insert ⟨sink, inside⟩
          visits := session.visits + visits })
    else
      (.error .indexOutOfBounds, session)
  | _, _ => (.error .noFork, session)

structure FlowAnswer (E : EdgeGraph) where
  value : Nat
  paths : List E.Edges

/-- Raises the flow in the network of the turn. A sink of an earlier turn may be a node that
this network does not have; it is missed only after the first search. -/
def computeIn (turn : Turn E) : Except Misuse (FlowAnswer E) × Turn E × Nat :=
  let net := ForkNetwork.network E turn.fork (some turn.entry)
  let source : Fin net.order := ForkNetwork.place E turn.fork session.source
  if inside : session.sink < net.order then
    let ⟨result, visits⟩ :=
      FlowNetwork.maximize turn.capacity turn.flow source ⟨session.sink, inside⟩
    (.ok ⟨result.value, result.paths.map (ForkNetwork.workflowPath E turn.fork)⟩,
      { turn with flow := result.flow }, visits)
  else
    let search := FlowNetwork.Search.run (net.arcs turn.capacity turn.flow) (fun _ => false)
      net.order (.from source)
    (.error .indexOutOfBounds, turn, search.visits)

/-- Raises the flow in the network of the turn, whose edges are arranged for another fork that
no edge enters. -/
def computeStale (turn : Turn E) (fork : Fin E.order) :
    Except Misuse (FlowAnswer E) × Turn E × Nat :=
  let wired := ForkNetwork.network E turn.fork (some turn.entry)
  let shown := ForkNetwork.network E fork none
  let computed : Counted (Except Misuse Unit ×
      FlowNetwork.Result (StaleNetwork.network wired shown)) :=
    StaleNetwork.maximize turn.capacity turn.flow session.source session.sink
  let (outcome, result) := computed.value
  ((fun () => ⟨result.value, result.paths.map (ForkNetwork.workflowPath E fork)⟩) <$> outcome,
    { turn with flow := result.flow }, computed.visits)

/-- Raises the flow from the fork to the sink as far as it goes. -/
def compute : Except Misuse (FlowAnswer E) × NetworkSession E :=
  match session.turn, session.shown with
  | some turn, some fork =>
    let (answer, after, visits) :=
      if fork = turn.fork then session.computeIn turn else session.computeStale turn fork
    (answer, { session with turn := some after, visits := session.visits + visits })
  | _, _ => (.error .indexOutOfBounds, session)

end NetworkSession
end WorkflowSoundness
