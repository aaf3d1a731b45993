import WorkflowSoundness.Abundance.ForkNetwork
import WorkflowSoundness.Annotation
import WorkflowSoundness.Components
import WorkflowSoundness.Dominance.Basic
import WorkflowSoundness.Execution

/-!
Lack of synchronization. Two branches of a fork or or-fork may meet at a node that does not
wait for both, so that it is activated twice.

The bond of a fork is what its branches lead to, up to the immediate post-dominator of the
edge that enters it. Every branch defines a token; at the dominance frontier of a definition
it may meet another one, and the edge there defines a token in its turn. A definition inside
the bond whose source does not synchronize is a meeting if edge-disjoint paths lead from the
fork to that source. Such paths may not use what the edge at the meeting guarantees anyway:
the edges behind joins that starve without it, and the join branches that it executes.

The definitions of a fork are looked at in a row. An edge that has been checked is passed over,
and what starves without an edge is worked out when it is first asked for and looked up from
then on, also for later forks (`Memo`).
-/

namespace WorkflowSoundness.Abundance

variable {E : EdgeGraph}

/-- A token of a fork: a branch, or an edge where tokens may meet. -/
structure Definition (E : EdgeGraph) where
  edge : Fin E.size
  /-- Whether this is where tokens may meet. -/
  meets : Bool
  deriving DecidableEq

/-! ### Starving joins -/

/-- The edges that the start edge leads to among those allowed. -/
def reachable (allowed : E.Edges) : Counted E.Edges :=
  let found : E.Edges :=
    if E.first ∈ allowed then BitSet.reach (fun e => E.successors e ∩ allowed) [E.first] else ∅
  ⟨found, found.count⟩

/-- A join that lacks one of its edges does not fire. -/
def starve (allowed : E.Edges) (join : Fin E.order) : E.Edges :=
  if (E.entering join).subset allowed then allowed else allowed \ E.leaving join

section Joins

variable (joins : List (Fin E.order))

/-- Rounds over a list of joins, until a round loses no edge. Each round but the last loses one,
so their number bounds the rounds. -/
def settleOver : Nat → E.Edges → Counted E.Edges
  | 0, allowed => pure allowed
  | fuel + 1, allowed => do
    let found ← reachable allowed
    Counted.tick (1 + joins.length)
    let kept := joins.foldl starve (allowed ∩ found)
    if kept.count = allowed.count then
      pure kept
    else
      settleOver fuel kept

/-- The edges of one kind of end at the joins of a list. -/
def endsOver (ends : Fin E.order → E.Edges) : E.Edges :=
  joins.foldl (fun edges join => edges ∪ ends join) ∅

/-- The edges behind the joins of a list that cannot fire without `e`. -/
def dependentOver (e : Fin E.size) : Counted E.Edges := do
  let firing ← settleOver joins (E.size + 1) (BitSet.full.erase e)
  return (BitSet.full \ firing) ∩ endsOver joins E.leaving

end Joins

/-- The rounds over all joins. -/
def settle : Nat → E.Edges → Counted E.Edges :=
  settleOver (E.nodesOf .join)

/-- The edges of one kind of end at all joins. -/
def atJoins (ends : Fin E.order → E.Edges) : E.Edges :=
  endsOver (E.nodesOf .join) ends

/-- The edges behind joins that cannot fire without `e`. -/
def dependent (e : Fin E.size) : Counted E.Edges :=
  dependentOver (E.nodesOf .join) e

/-- What depends on an edge, for the edges that have been asked for. -/
structure Memo (E : EdgeGraph) where
  known : Table (Option E.Edges) E.size

namespace Memo

def empty (E : EdgeGraph) : Memo E :=
  ⟨Table.replicate _ none⟩

/-- What depends on `e` is determined when it is first asked for, and looked up from then on. -/
def ask (memo : Memo E) (e : Fin E.size) : Counted (E.Edges × Memo E) :=
  match memo.known[e] with
  | some found => return (found, memo)
  | none => do
    let found ← dependent e
    return (found, ⟨memo.known.set e (some found)⟩)

end Memo

/-! ### Tokens of one fork -/

/-- What the analysis builds on. -/
structure Basis (E : EdgeGraph) where
  dominance : Dominance E
  postDominance : Dominance E
  components : Components E
  execution : Execution E

section Bond

variable (postDominance : Dominance E)

/-- The edges that the branches of a fork lead to, up to the immediate post-dominator of the
edge that enters it. -/
def bond (fork : Fin E.order) (entry : Fin E.size) : Counted E.Edges :=
  let stop := postDominance.immediate? entry
  let found := BitSet.reach (fun e => if stop = some e then ∅ else E.successors e)
    (E.leaving fork).toList
  ⟨found, found.count⟩

end Bond

/-- Definitions by their order of discovery. The least pending edge defines a token; edges of
its frontier that no definition has reached before are where it may meet others, and become
pending themselves unless they post-dominate `entry` or the edge immediately. An edge is
pending at most once as a branch and once as a meeting edge, which bounds the steps. -/
def definitionsFrom (basis : Basis E) (entry : Fin E.size) :
    Nat → (pending reached : E.Edges) → Counted (List (Definition E))
  | 0, _, _ => pure []
  | fuel + 1, pending, reached =>
    match pending.first? with
    | none => pure []
    | some e => do
      let frontier := basis.dominance.frontier e
      Counted.tick (1 + frontier.count)
      let fresh := frontier \ reached
      let ends := [basis.postDominance.immediate? entry, basis.postDominance.immediate? e]
      let followed := fresh.toList.filter fun s => !ends.contains (some s)
      let later ← definitionsFrom basis entry fuel (pending.erase e ∪ .ofList followed)
        (reached ∪ frontier)
      return ⟨e, false⟩ :: fresh.toList.map (⟨·, true⟩) ++ later

/-- The tokens of a fork: its branches, and where they may meet. -/
def definitions (basis : Basis E) (fork : Fin E.order) (entry : Fin E.size) :
    Counted (List (Definition E)) :=
  definitionsFrom basis entry (2 * E.size + 1) (E.leaving fork) ∅

/-! ### Meetings of one fork -/

/-- A definition at which several edge-disjoint paths from the fork arrive. -/
structure Meeting (E : EdgeGraph) where
  definition : Definition E
  /-- The greatest number of edge-disjoint paths. -/
  value : Nat
  paths : List E.Edges
  /-- Whether a fork on a cycle is where the paths meet. -/
  cyclic : Bool

/-- What the analysis of one fork looks at and finds. -/
structure ForkSurvey (E : EdgeGraph) where
  fork : Fin E.order
  bond : E.Edges
  definitions : List (Definition E)
  network : FlowNetwork
  meetings : List (Meeting E)
  visits : Nat

/-- Definitions outside the bond, and those behind a node that waits for its branches, are no
meetings. -/
def isCandidate (bond : E.Edges) (definition : Definition E) : Bool :=
  bond.contains definition.edge && !(E.kindOf (E.source definition.edge)).isSynchronizing

/-- The edges that may carry flow towards a meeting at `e`, on which `starving` depend. -/
def allowedBut (basis : Basis E) (bond starving : E.Edges) (e : Fin E.size) : E.Edges :=
  let guaranteed := starving ∪ (basis.execution.executes[e] ∩ atJoins E.entering)
  (bond \ guaranteed).erase e

/-- The edges that may carry flow towards a meeting at `e`. -/
def allowed (basis : Basis E) (bond : E.Edges) (e : Fin E.size) : E.Edges :=
  allowedBut basis bond (dependent e).value e

/-- The greatest number of edge-disjoint paths from the fork to the source of `sink`, with the
paths that survive. -/
def maximize (fork : Fin E.order) (entry : Fin E.size) (allowed : E.Edges) (sink : Fin E.size) :
    Counted (Nat × List E.Edges) := do
  Counted.tick allowed.count
  let net := ForkNetwork.network E fork (some entry)
  let result ← FlowNetwork.maximize (ForkNetwork.capacity E net.size allowed sink entry) ∅
    (ForkNetwork.place E fork fork) (ForkNetwork.startOf E fork sink)
  return (result.value, result.paths.map (ForkNetwork.workflowPath E fork))

/-- One path is no meeting; a fork on a cycle that two paths reach activates itself again. -/
def meeting? (basis : Basis E) (fork : Fin E.order) (entry : Fin E.size) (usable : E.Edges)
    (definition : Definition E) : Counted (Option (Meeting E)) := do
  let (value, paths) ← maximize fork entry usable definition.edge
  if value < 2 then
    return none
  let node := E.source definition.edge
  let cyclic := (E.kindOf node).isForking &&
    (E.entering node).first?.any basis.components.inCycle
  return some { definition, value, paths, cyclic }

/-- Looks at definitions one after the other. What depends on the edge is asked for each time, but
an edge that has been checked is passed over. -/
def meetingsFrom (basis : Basis E) (fork : Fin E.order) (entry : Fin E.size) (bond : E.Edges) :
    List (Definition E) → Memo E → (checked : E.Edges) → Counted (List (Meeting E) × Memo E)
  | [], memo, _ => return ([], memo)
  | definition :: later, memo, checked => do
    let e := definition.edge
    let (starving, memo) ← memo.ask e
    if checked.contains e then
      meetingsFrom basis fork entry bond later memo checked
    else
      let found ← meeting? basis fork entry (allowedBut basis bond starving e) definition
      let (others, memo) ← meetingsFrom basis fork entry bond later memo (checked.insert e)
      return (found.toList ++ others, memo)

/-- Setting up the network is counted with three visits for each branch and one for each
edge. -/
def surveyFork (basis : Basis E) (memo : Memo E) (fork : Fin E.order) :
    Except Misuse (ForkSurvey E × Memo E) := do
  let entry ← E.soleIncoming fork
  let bond := bond basis.postDominance fork entry
  let definitions := definitions basis fork entry
  let network := ForkNetwork.network E fork (some entry)
  let candidates := definitions.value.filter (isCandidate bond.value)
  let looked := meetingsFrom basis fork entry bond.value candidates memo ∅
  let setup := 1 + 3 * (ForkNetwork.branches E fork).length + network.size
  let survey := {
    fork
    bond := bond.value
    definitions := definitions.value
    network
    meetings := looked.value.1
    visits := bond.visits + definitions.visits + setup + looked.visits }
  return (survey, looked.value.2)

/-- The meeting shows at the source of its edge and begins at the fork. -/
def Meeting.finding (fork : Fin E.order) (meeting : Meeting E) : Finding E where
  kind := if meeting.cyclic then .abundanceCycle else .abundance
  printable := E.source meeting.definition.edge
  opening := some fork
  failure := ∅
  paths := meeting.paths
  waitingArea := none

/-- The forks, then the or-forks. -/
def forks (E : EdgeGraph) : List (Fin E.order) :=
  E.nodesOf .fork ++ E.nodesOf .orFork

/-- The edges of the workflow are visited once to set up all networks. -/
def visits (surveys : List (ForkSurvey E)) : Nat :=
  surveys.foldl (fun total survey => total + survey.visits) E.size

end WorkflowSoundness.Abundance
