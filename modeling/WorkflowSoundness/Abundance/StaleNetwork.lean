import WorkflowSoundness.Fault
import WorkflowSoundness.FlowNetwork

/-!
Flow in a network whose incidence lists are out of date. The lists of `wired` say which edges
are looked at from a node, but where an edge leads to is read off `shown`, which numbers the
same edges and may have other nodes. `shown` may lack an edge that is listed, and an edge may
lead to a node without a list. One more node, `outside`, stands for all that is missing: a
search that comes to it is lost, and so is a path that is followed back to it.
-/

namespace WorkflowSoundness.StaleNetwork

variable (wired shown : FlowNetwork)

def outside : Fin (wired.order + 1) :=
  Fin.last wired.order

/-- A node by its number; numbers without a list are outside. -/
def place (v : Nat) : Fin (wired.order + 1) :=
  if listed : v < wired.order then ⟨v, Nat.lt_succ_of_lt listed⟩ else outside wired

/-- The edges of `lists` at a node; outside there are none. -/
def edgesAt (lists : Table (List (Fin wired.size)) wired.order) (v : Fin (wired.order + 1)) :
    List (Fin wired.size) :=
  if listed : v.val < wired.order then lists[(⟨v, listed⟩ : Fin wired.order)] else []

def endsOf (e : Fin wired.size) : Fin (wired.order + 1) × Fin (wired.order + 1) :=
  if present : e.val < shown.size then
    let ends := shown.ends[(⟨e, present⟩ : Fin shown.size)]
    (place wired ends.1, place wired ends.2)
  else
    (outside wired, outside wired)

def network : FlowNetwork where
  order := wired.order + 1
  size := wired.size
  ends := .ofFn (endsOf wired shown)
  incoming := .ofFn (edgesAt wired wired.incoming)
  outgoing := .ofFn (edgesAt wired wired.outgoing)

variable {wired shown}

/-- An edge that `shown` lacks is outside for whoever looks at it, with or without room. -/
def arcs (capacity flow : BitSet (network wired shown).size)
    (v : Fin (network wired shown).order) : List (network wired shown).Arc :=
  ((network wired shown).arcs capacity flow v).map fun arc =>
    { arc with usable := arc.usable || decide (shown.size ≤ arc.edge) }

/-- How an attempt to raise the flow ends. -/
inductive Attempt (net : FlowNetwork) where
  | raised (route : FlowNetwork.Route net)
  /-- No path leads to the sink. -/
  | full
  /-- What remains is the flow along the part of the path that was followed back. -/
  | lost (flow : BitSet net.size)

def attempt (capacity flow : BitSet (network wired shown).size)
    (source sink : Fin (network wired shown).order) :
    Counted (Attempt (network wired shown)) := do
  let away : Fin (network wired shown).order := outside wired
  let search ← FlowNetwork.Search.run (arcs capacity flow) (fun v => v == sink || v == away)
    (network wired shown).order (.from source)
  if away ∈ search.found ∨ sink = away then
    return .lost flow
  else if source = sink ∨ search.via[sink] = none then
    return .full
  else
    let route := FlowNetwork.trace search.via (network wired shown).order ⟨sink, ∅, flow⟩
    return if route.origin = away then .lost route.flow else .raised route

/-- Raises the flow until an attempt is lost, which is a misuse, or none is left. -/
def maximizeFrom (capacity : BitSet (network wired shown).size)
    (source sink : Fin (network wired shown).order) :
    Nat → FlowNetwork.Result (network wired shown) →
      Counted (Except Misuse Unit × FlowNetwork.Result (network wired shown))
  | 0, result => pure (.ok (), result)
  | fuel + 1, result => do
    match ← attempt capacity result.flow source sink with
    | .full => pure (.ok (), result)
    | .lost flow => pure (.error .indexOutOfBounds, { result with flow })
    | .raised route => maximizeFrom capacity source sink fuel (result.raise route)

/-- Nodes are given by their numbers. -/
def maximize (capacity flow : BitSet (network wired shown).size) (source sink : Nat) :
    Counted (Except Misuse Unit × FlowNetwork.Result (network wired shown)) :=
  maximizeFrom capacity (place wired source) (place wired sink) (wired.size + 1) ⟨0, flow, []⟩

end WorkflowSoundness.StaleNetwork
