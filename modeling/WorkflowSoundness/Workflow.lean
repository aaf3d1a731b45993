import WorkflowSoundness.EdgeGraph.OfGraph
import WorkflowSoundness.Graph.Simple
import WorkflowSoundness.Measurement.Metric
import WorkflowSoundness.Measurement.Report

/-!
A workflow is a graph in one of two phases. A draft can grow; closing it numbers its edges,
and from then on it stays as it is. A `Run` may change the workflow it acts on. What it has
changed before it fails stays changed.
-/

namespace WorkflowSoundness

/-- A graph with the numbering of its edges. -/
structure ClosedGraph where
  graph : Graph
  edges : EdgeGraph
  numbered : EdgeGraph.ofGraph graph = .ok edges

/-- A graph in one of its two phases. -/
inductive Workflow where
  | draft (g : Graph)
  | closed (c : ClosedGraph)

/-- What a run leaves behind, and what it tells. -/
def Run (α : Type) : Type :=
  Workflow → Workflow × Report α

namespace Run

variable {α β : Type}

protected def pure (value : α) : Run α :=
  fun workflow => (workflow, .pure value)

protected def bind (first : Run α) (next : α → Run β) : Run β := fun workflow =>
  let (between, report) := first workflow
  match report.outcome with
  | .error fault => (between, ⟨report.events, .error fault⟩)
  | .ok value =>
    let (final, later) := next value between
    (final, ⟨report.events ++ later.events, later.outcome⟩)

instance : Monad Run where
  pure := Run.pure
  bind := Run.bind

instance : LawfulMonad Run := LawfulMonad.mk' Run
  (fun first => by
    funext workflow
    simp only [Functor.map, Run.bind, Function.comp, Run.pure]
    obtain ⟨between, events, outcome⟩ := first workflow
    cases outcome <;> simp [Report.pure])
  (fun value next => by
    funext workflow
    simp [bind, Run.bind, pure, Run.pure, Report.pure])
  (fun first next last => by
    funext workflow
    simp only [bind, Run.bind]
    obtain ⟨between, events, outcome⟩ := first workflow
    cases outcome with
    | error fault => rfl
    | ok value =>
      dsimp only
      obtain ⟨later, told, second⟩ := next value between
      cases second <;> simp)

def ofReport (report : Report α) : Run α :=
  fun workflow => (workflow, report)

/-- Runs the body as a measured section. -/
def within (part : Section) (body : Run α) : Run α := fun workflow =>
  let (final, report) := body workflow
  (final, report.within part)

/-- The workflow as it is at this point of the run. -/
def current : Run Workflow :=
  fun workflow => (workflow, .pure workflow)

end Run

namespace Workflow

def graph : Workflow → Graph
  | .draft g => g
  | .closed c => c.graph

def name (workflow : Workflow) : String :=
  workflow.graph.name

def isClosed : Workflow → Bool
  | .draft _ => false
  | .closed _ => true

/-- The edges of a closed workflow. -/
def edges : Workflow → Except Misuse EdgeGraph
  | .draft g => .error (.notClosed g.name)
  | .closed c => .ok c.edges

/-- Only a draft can be changed. -/
def change (step : Graph → Except Defect Graph) : Run Unit
  | .draft g =>
    match step g with
    | .ok changed => (.draft changed, .pure ())
    | .error cause => (.draft g, .fail (.defect cause))
  | .closed c => (.closed c, .fail (.misuse (.closed c.graph.name)))

def numbering (name : String) (E : EdgeGraph) : Report Unit := do
  .log .trace
    s!"{name}: {E.size} edges, start edge {edgeText E.first}, end edge {edgeText E.last}"
  .put Metric.edges E.size

/-- Numbers the edges and closes the workflow. A closed workflow is numbered again before the
misuse is noticed. -/
def close : Run Unit
  | .draft g =>
    match numbered : EdgeGraph.ofGraph g with
    | .error cause => (.draft g, .fail (.defect cause))
    | .ok E => (.closed ⟨g, E, numbered⟩, numbering g.name E)
  | .closed c =>
    (.closed c, do
      numbering c.graph.name c.edges
      .fail (.misuse (.alreadyClosed c.graph.name)))

def simplifying (before after : Graph) : Report Nat := do
  .put Metric.nodesBefore before.order
  .put Metric.nodesAfter after.order
  .put Metric.forks (after.nodesOf .fork).length
  .put Metric.joins (after.nodesOf .join).length
  .put Metric.tasks (after.nodesOf .activity).length
  .put Metric.splits (after.nodesOf .split).length
  .put Metric.merges (after.nodesOf .merge).length
  .put Metric.orJoins (after.nodesOf .orJoin).length
  .put Metric.orForks (after.nodesOf .orFork).length
  let inserted := after.order - before.order
  .log .debug s!"{before.name}: inserted {inserted} activities"
  return inserted

/-- Brings a draft into the simple shape and answers how many activities that took. A closed
workflow has to be simple already. -/
def simplify : Run Nat
  | .draft g =>
    match g.simplify with
    | (simple, .error cause) => (.draft simple, .fail (.defect cause))
    | (simple, .ok ()) => (.draft simple, simplifying g simple)
  | .closed c =>
    let simple := c.graph.simplify.1
    if simple.order = c.graph.order then
      (.closed c, simplifying c.graph simple)
    else
      (.closed c, .fail (.misuse (.closed c.graph.name)))

end Workflow
end WorkflowSoundness
