import WorkflowSoundness.Analysis
import WorkflowSoundness.Config
import WorkflowSoundness.Graph.Validity
import WorkflowSoundness.Workflow

/-!
Plans take a workflow through a fixed sequence of steps and answer what was found on the
way. `verify` checks the structural rules of a draft and then runs the plan that prepares
and analyses it.
-/

namespace WorkflowSoundness

/-- A named sequence of steps. -/
structure Plan where
  name : String
  description : String := "No description available"
  execute : Run (List Annotation)

namespace Plan

def prepare : Run (List Annotation) := do
  if !(← Run.current).isClosed then
    let _ ← Workflow.simplify.within (.timed "SimplenessTransformation")
  return []

/-- Brings a draft into the simple shape; a closed workflow stays as it is. -/
def preparation : Plan where
  name := "Workflow Graph Preparation Plan"
  description :=
    "Separates gateways from each other and from the start and end events by activities"
  execute := prepare

/-- All analyses of the edges that the configuration selects. Findings come in the order
waiting areas, deadlocks, abundances. -/
def analyze (config : Config) (name : String) (E : EdgeGraph) : Report (List (Finding E)) := do
  let dominance := (← Analysis.dominance name E .forward).value
  let postDominance := (← Analysis.dominance name E .backward).value
  let components ← Analysis.components E
  let execution := (← Analysis.execution name E).value
  let areas ←
    if config.waitingArea && !(E.nodesOf .orJoin).isEmpty then
      Analysis.waitingAreas name dominance postDominance
    else
      pure []
  let deadlocks ←
    if config.deadlock then Analysis.deadlocks name dominance execution else pure []
  let abundances ←
    if config.abundance then
      Analysis.abundances name { dominance, postDominance, components, execution }
    else
      pure []
  let waits := areas.map fun (orJoin, area) => WaitingArea.finding orJoin area
  return waits ++ deadlocks ++ abundances

def runAnalyses (config : Config) : Run (List Annotation) := do
  if !(← Run.current).isClosed then
    Workflow.close.within (.timed "EdgeAnalysis")
  let workflow ← Run.current
  .ofReport do
    let E ← .ofMisuse workflow.edges
    let findings ← .timed "ControlFlowPlan" (analyze config workflow.name E)
    .log .info s!"{workflow.name}: {E.size} edges, {findings.length} annotations"
    return findings.map Finding.plain

/-- Closes a draft and analyses it. -/
def controlFlow (config : Config) : Plan where
  name := "Workflow Graph Control Flow Analysis Plan"
  description := "Detects deadlocks and lack of synchronization on the edges of the graph"
  execute := runAnalyses config

def prepareAndAnalyze (config : Config) : Run (List Annotation) :=
  Run.within (.plan "WorkflowGraphPlan") do
    let prepared ← if config.preparation then preparation.execute else pure []
    let found ← (controlFlow config).execute
    return prepared ++ found

/-- Preparation, if the configuration asks for it, and analysis, measured as a whole. -/
def complete (config : Config) : Plan where
  name := "Workflow Graph Major Plan"
  description := "Prepares the graph, then verifies its control flow"
  execute := prepareAndAnalyze config

end Plan

/-- A closed workflow is not validated again. -/
def verifyWith (config : Config) : Run (List Annotation) := do
  if let .draft g ← Run.current then
    .ofReport (.ofDefect g.validate)
  (Plan.complete config).execute

/-- Verification with every part of it. -/
def verify : Run (List Annotation) :=
  verifyWith .comprehensive

end WorkflowSoundness
