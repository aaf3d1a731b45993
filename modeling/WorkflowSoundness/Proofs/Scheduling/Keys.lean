import WorkflowSoundness.Analysis
import WorkflowSoundness.Proofs.Scheduling.Calls
import WorkflowSoundness.Workflow

/-!
The keys that the parts of a verification call the reporter for, with those of the times they take.
Each analysis, the preparation and the closing has keys that no other has.
-/

namespace WorkflowSoundness

namespace Analysis

variable {E : EdgeGraph} (name : String)

def dominanceKeys : Direction → List String
  | .forward => ["DOMEDGE_NUMBER_VISITED_EDGES", Metric.time "DominatorEdgeAnalysis"]
  | .backward => ["POSTDOMEDGE_NUMBER_VISITED_EDGES", Metric.time "PostDominatorEdgeAnalysis"]

def componentsKeys : List String :=
  [Metric.components, Metric.time "StrongComponentsAnalysis"]

def executionKeys : List String :=
  ["EXEC_EDGE_NUMBER_VISITED_EDGES", Metric.time "ExecutionEdgeAnalysis"]

def waitingAreasKeys : List String :=
  [Metric.time "WaitingAreaAnalysis"]

def deadlocksKeys : List String :=
  [Metric.normalDeadlocks, Metric.loopDeadlocks, Metric.deadlocks, "DEADLOCK_NUMBER_VISITED_EDGES",
    Metric.ignoredLast deadlockName, Metric.ignoredComplete deadlockName, Metric.time deadlockName]

def abundancesKeys : List String :=
  [Metric.normalAbundances, Metric.loopAbundances, Metric.abundances,
    "ABUNDANCE_NUMBER_VISITED_EDGES", Metric.ignoredLast abundanceName,
    Metric.ignoredComplete abundanceName, Metric.time abundanceName]

/-- Each direction reports under a name of its own. -/
theorem tells_dominance (E : EdgeGraph) (direction : Direction) :
    (dominance name E direction).Tells (dominanceKeys direction) := by
  cases direction with
  | forward =>
    exact ((Report.tells_log _ _).bind fun _ => (Report.tells_put (by decide) _).bind fun _ =>
      Report.tells_pure _).within (by decide)
  | backward =>
    exact ((Report.tells_log _ _).bind fun _ => (Report.tells_put (by decide) _).bind fun _ =>
      Report.tells_pure _).within (by decide)

theorem tells_components (E : EdgeGraph) : (components E).Tells componentsKeys :=
  ((Report.tells_put (by decide) _).bind fun _ => Report.tells_pure _).within (by decide)

theorem tells_execution (E : EdgeGraph) : (execution name E).Tells executionKeys :=
  ((Report.tells_ofMisuse _).bind fun _ =>
    (Report.tells_forM (fun _ => Report.tells_log _ _) _).bind fun _ =>
      (Report.tells_put (by decide) _).bind fun _ => Report.tells_pure _).within (by decide)

theorem tells_waitingAreas (dominance postDominance : Dominance E) :
    (waitingAreas name dominance postDominance).Tells waitingAreasKeys :=
  ((Report.tells_ofMisuse _).bind fun _ =>
    (Report.tells_forM (fun _ => Report.tells_log _ _) _).bind fun _ =>
      Report.tells_pure _).within (by decide)

theorem tells_reportDeadlock (finding : Finding E) :
    (reportDeadlock name finding).Tells deadlocksKeys := by
  unfold reportDeadlock
  refine Report.Tells.within ?_ (by decide)
  split
  · exact (Report.tells_log _ _).bind fun _ => Report.tells_add (by decide) _
  · exact (Report.tells_log _ _).bind fun _ => Report.tells_add (by decide) _

theorem tells_deadlocks (dominance : Dominance E) (execution : Execution E) :
    (deadlocks name dominance execution).Tells deadlocksKeys :=
  ((Report.tells_ofMisuse _).bind fun _ =>
    (Report.tells_forM (tells_reportDeadlock name) _).bind fun _ =>
      (Report.tells_put (by decide) _).bind fun _ => (Report.tells_put (by decide) _).bind fun _ =>
        Report.tells_pure _).within (by decide)

theorem tells_reportMeeting (fork : Fin E.order) (meeting : Abundance.Meeting E) :
    (reportMeeting name fork meeting).Tells abundancesKeys := by
  have listed : (if meeting.cyclic then Metric.loopAbundances else Metric.normalAbundances) ∈
      abundancesKeys := by
    split
    · decide
    · decide
  exact ((Report.tells_log _ _).bind fun _ => Report.tells_add listed _).within (by decide)

theorem tells_surveyFork (basis : Abundance.Basis E) (memo : Abundance.Memo E)
    (fork : Fin E.order) : (surveyFork name basis memo fork).Tells abundancesKeys :=
  (Report.tells_ofMisuse _).bind fun _ => (Report.tells_log _ _).bind fun _ =>
    (Report.tells_log _ _).bind fun _ =>
      (Report.tells_forM (tells_reportMeeting name fork) _).bind fun _ => Report.tells_pure _

/-- The forks are surveyed one after the other, each with the keys of the whole analysis. -/
theorem tells_surveyForks (basis : Abundance.Basis E) (forks : List (Fin E.order))
    (memo : Abundance.Memo E) : (surveyForks name basis forks memo).Tells abundancesKeys := by
  induction forks generalizing memo with
  | nil => exact Report.tells_pure _
  | cons fork later ih =>
    exact (tells_surveyFork name basis memo fork).bind fun surveyed =>
      (ih surveyed.2).bind fun _ => Report.tells_pure _

theorem tells_abundances (basis : Abundance.Basis E) :
    (abundances name basis).Tells abundancesKeys :=
  ((tells_surveyForks name basis _ _).bind fun _ =>
    (Report.tells_put (by decide) _).bind fun _ => (Report.tells_put (by decide) _).bind fun _ =>
      Report.tells_pure _).within (by decide)

end Analysis

namespace Workflow

def simplifyKeys : List String :=
  [Metric.nodesBefore, Metric.nodesAfter, Metric.forks, Metric.joins, Metric.tasks, Metric.splits,
    Metric.merges, Metric.orJoins, Metric.orForks, Metric.time "SimplenessTransformation"]

def closeKeys : List String :=
  [Metric.edges, Metric.time "EdgeAnalysis"]

theorem tells_simplifying (before after : Graph) :
    (simplifying before after).Tells simplifyKeys := by
  unfold simplifying
  iterate 9 refine (Report.tells_put (by decide) _).bind fun _ => ?_
  exact (Report.tells_log _ _).bind fun _ => Report.tells_pure _

theorem tells_simplify : simplify.Tells simplifyKeys := by
  intro workflow
  cases workflow with
  | draft g =>
    unfold simplify
    dsimp only
    obtain ⟨simple, outcome⟩ := g.simplify
    cases outcome with
    | error cause => exact Report.tells_of_silent rfl
    | ok _ => exact tells_simplifying g simple
  | closed c =>
    unfold simplify
    dsimp only
    split
    · exact tells_simplifying _ _
    · exact Report.tells_of_silent rfl

theorem tells_numbering (name : String) (E : EdgeGraph) : (numbering name E).Tells closeKeys :=
  (Report.tells_log _ _).bind fun _ => Report.tells_put (by decide) _

theorem tells_close : close.Tells closeKeys := by
  intro workflow
  cases workflow with
  | draft g =>
    unfold close
    dsimp only
    split
    · exact Report.tells_of_silent rfl
    · exact tells_numbering _ _
  | closed c => exact (tells_numbering _ _).bind fun _ => Report.tells_of_silent rfl

end Workflow
end WorkflowSoundness
