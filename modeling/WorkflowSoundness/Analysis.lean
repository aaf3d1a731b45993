import WorkflowSoundness.Abundance.Basic
import WorkflowSoundness.Deadlock.Basic
import WorkflowSoundness.Measurement.Metric
import WorkflowSoundness.Measurement.Report
import WorkflowSoundness.WaitingArea

/-!
The analyses as measured sections of a run: what each of them computes, with the metrics and
log messages that it reports on the way. `graph` is the name that log messages begin with.
-/

namespace WorkflowSoundness.Analysis

variable (graph : String)

/-- Dominance in one direction, with the number of visits it took. -/
def dominance (E : EdgeGraph) (direction : Direction) : Report (Counted (Dominance E)) :=
  let name := match direction with
    | .forward => "DominatorEdgeAnalysis"
    | .backward => "PostDominatorEdgeAnalysis"
  let key := match direction with
    | .forward => "DOMEDGE_NUMBER_VISITED_EDGES"
    | .backward => "POSTDOMEDGE_NUMBER_VISITED_EDGES"
  .timed name do
    let computed := Dominance.compute E direction
    .log .trace s!"{graph}: {direction.text} dominance over {E.size} edges"
    .put key computed.visits
    return computed

/-- The components, with the number of those that have several edges. -/
def components (E : EdgeGraph) : Report (Components E) :=
  .timed "StrongComponentsAnalysis" do
    let computed := Components.compute E
    .put Metric.components computed.groups.length
    return computed

/-- The execution relation, with the number of visits, and a message for each join. -/
def execution (E : EdgeGraph) : Report (Counted (Execution E)) :=
  .timed "ExecutionEdgeAnalysis" do
    let computed ← .ofMisuse (Execution.compute E)
    computed.value.coverage.forM fun (join, count) =>
      .log .trace s!"{graph}: join {nodeText join} executed by {count} edges"
    .put "EXEC_EDGE_NUMBER_VISITED_EDGES" computed.visits
    return computed

variable {E : EdgeGraph}

/-- The waiting areas, with a message for each or-join. -/
def waitingAreas (dominance postDominance : Dominance E) :
    Report (List (Fin E.order × E.Edges)) :=
  .timed "WaitingAreaAnalysis" do
    let areas ← .ofMisuse (WaitingArea.compute dominance postDominance)
    areas.forM fun (orJoin, area) =>
      .log .trace s!"{graph}: or-join {nodeText orJoin} waits on {area.count} edges"
    return areas

def deadlockName : String :=
  "DeadlockAnalysis"

def reportDeadlock (finding : Finding E) : Report Unit :=
  .ignored deadlockName do
    match finding.kind with
    | .deadlockCycle =>
      .log .trace s!"{graph}: cyclic deadlock at join {nodeText finding.printable}"
      .add Metric.loopDeadlocks 1
    | _ =>
      .log .trace s!"{graph}: deadlock at join {nodeText finding.printable}"
      .add Metric.normalDeadlocks 1

/-- The deadlocks, with their number by kind and the number of visits. -/
def deadlocks (dominance : Dominance E) (execution : Execution E) : Report (List (Finding E)) :=
  .timed deadlockName do
    let computed ← .ofMisuse (Deadlock.compute execution dominance)
    computed.value.forM (reportDeadlock graph)
    .put Metric.deadlocks computed.value.length
    .put "DEADLOCK_NUMBER_VISITED_EDGES" computed.visits
    return computed.value

def abundanceName : String :=
  "AbundanceAnalysis"

def reportMeeting (fork : Fin E.order) (meeting : Abundance.Meeting E) : Report Unit :=
  .ignored abundanceName do
    let node := nodeText (E.source meeting.definition.edge)
    let found := s!"{graph}: {meeting.value} disjoint paths from fork {nodeText fork} "
    .log .trace (found ++ s!"meet at {node} (phi: {meeting.definition.meets})")
    .add (if meeting.cyclic then Metric.loopAbundances else Metric.normalAbundances) 1

def surveyFork (basis : Abundance.Basis E) (memo : Abundance.Memo E) (fork : Fin E.order) :
    Report (Abundance.ForkSurvey E × Abundance.Memo E) := do
  let (survey, memo) ← .ofMisuse (Abundance.surveyFork basis memo fork)
  let definitions := survey.definitions.length
  let network := survey.network
  .log .trace (s!"{graph}: fork {nodeText fork} has {definitions} definitions " ++
    s!"in a bond of {survey.bond.count} edges")
  .log .trace (s!"{graph}: network for fork {nodeText fork} has {network.order} nodes " ++
    s!"and {network.size} edges")
  survey.meetings.forM (reportMeeting graph fork)
  return (survey, memo)

/-- The surveys of some forks. What depends on an edge is found out for all of them. -/
def surveyForks (basis : Abundance.Basis E) :
    List (Fin E.order) → Abundance.Memo E → Report (List (Abundance.ForkSurvey E))
  | [], _ => return []
  | fork :: later, memo => do
    let (survey, memo) ← surveyFork graph basis memo fork
    let surveys ← surveyForks basis later memo
    return survey :: surveys

/-- The abundances, with their number by kind and the number of visits. -/
def abundances (basis : Abundance.Basis E) : Report (List (Finding E)) :=
  .timed abundanceName do
    let surveys ← surveyForks graph basis (Abundance.forks E) (.empty E)
    let findings := surveys.flatMap fun survey =>
      survey.meetings.map (Abundance.Meeting.finding survey.fork)
    .put Metric.abundances findings.length
    .put "ABUNDANCE_NUMBER_VISITED_EDGES" (Abundance.visits surveys)
    return findings

end WorkflowSoundness.Analysis
