import WorkflowSoundness.Proofs.Scheduling.Conduct
import WorkflowSoundness.Proofs.Scheduling.Keys
import WorkflowSoundness.Proofs.Total

/-!
Verification with its analyses side by side. `Plan.verifying` is verification with the forks that it
makes: the two directions of dominance, the components and the execution relation beside each
other, and later the deadlocks beside the abundances. Without parallelism that is verification as
one run (`verifying_serial`). With it, the analyses that are forked keep to keys of their own, so
every schedule agrees with the one run on each key (`schedule_independent`).
-/

namespace WorkflowSoundness

variable {E : EdgeGraph} {config : Config} {workflow : Workflow}

/-! ### The parts in a row -/

namespace Plan

/-- The analyses, forked as the configuration allows. -/
def analyzing (config : Config) (name : String) (E : EdgeGraph) : Conduct (List (Finding E)) := do
  let bases ← .fork config.parallel
    (.fork config.parallel (.ofReport (Analysis.dominance name E .forward))
      (.ofReport (Analysis.dominance name E .backward)))
    (.fork config.parallel (.ofReport (Analysis.components E))
      (.ofReport (Analysis.execution name E)))
  let dominance := bases.1.1.value
  let postDominance := bases.1.2.value
  let components := bases.2.1
  let execution := bases.2.2.value
  let areas ← .ofReport
    (if config.waitingArea && !(E.nodesOf .orJoin).isEmpty then
      Analysis.waitingAreas name dominance postDominance
    else
      pure [])
  let found ← .fork config.parallel
    (.ofReport (if config.deadlock then Analysis.deadlocks name dominance execution else pure []))
    (.ofReport
      (if config.abundance then
        Analysis.abundances name
          { dominance
            postDominance
            components
            execution }
      else
        pure []))
  let waits := areas.map fun (orJoin, area) => WaitingArea.finding orJoin area
  return waits ++ found.1 ++ found.2

/-- A draft is closed first. -/
def closing : Run Unit := do
  if !(← Run.current).isClosed then
    Workflow.close.within (.timed "EdgeAnalysis")

def running (config : Config) : Conduct (List Annotation) := do
  .ofRun closing
  let workflow ← .ofRun Run.current
  let E ← .ofReport (.ofMisuse workflow.edges)
  let findings ← .within (.timed "ControlFlowPlan") (analyzing config workflow.name E)
  .ofReport (.log .info s!"{workflow.name}: {E.size} edges, {findings.length} annotations")
  return findings.map Finding.plain

/-- A draft has to obey the rules. -/
def accepting : Run Unit := do
  if let .draft g ← Run.current then
    .ofReport (.ofDefect g.validate)

def preparing (config : Config) : Run (List Annotation) :=
  if config.preparation then prepare else pure []

/-- Verification whose forks run side by side if the configuration allows it. -/
def verifying (config : Config) : Conduct (List Annotation) := do
  .ofRun accepting
  .within (.plan "WorkflowGraphPlan") do
    let prepared ← .ofRun (preparing config)
    let found ← running config
    return prepared ++ found

/-! ### One after the other -/

/-- The analyses one after the other, each with the parts it needs of those before. -/
theorem analyze_eq (config : Config) (name : String) (E : EdgeGraph) :
    analyze config name E = (do
      let dominance ← Analysis.dominance name E .forward
      let postDominance ← Analysis.dominance name E .backward
      let components ← Analysis.components E
      let execution ← Analysis.execution name E
      let areas ←
        (if config.waitingArea && !(E.nodesOf .orJoin).isEmpty then
          Analysis.waitingAreas name dominance.value postDominance.value
        else
          pure [])
      let deadlocks ←
        (if config.deadlock then
          Analysis.deadlocks name dominance.value execution.value
        else
          pure [])
      let abundances ←
        (if config.abundance then
          Analysis.abundances name
            { dominance := dominance.value
              postDominance := postDominance.value
              components
              execution := execution.value }
        else
          pure [])
      return areas.map (fun (orJoin, area) => WaitingArea.finding orJoin area) ++ deadlocks ++
        abundances) := by
  unfold analyze
  cases config.waitingArea && !(E.nodesOf .orJoin).isEmpty <;> cases config.deadlock <;>
    cases config.abundance <;> rfl

theorem tells_areas (config : Config) (name : String) (dominance postDominance : Dominance E) :
    (if config.waitingArea && !(E.nodesOf .orJoin).isEmpty then
      Analysis.waitingAreas name dominance postDominance
    else
      pure []).Tells Analysis.waitingAreasKeys := by
  split
  · exact Analysis.tells_waitingAreas _ _ _
  · exact Report.tells_pure _

theorem tells_deadlocks (config : Config) (name : String) (dominance : Dominance E)
    (execution : Execution E) :
    (if config.deadlock then Analysis.deadlocks name dominance execution else pure []).Tells
      Analysis.deadlocksKeys := by
  split
  · exact Analysis.tells_deadlocks _ _ _
  · exact Report.tells_pure _

theorem tells_abundances (config : Config) (name : String) (basis : Abundance.Basis E) :
    (if config.abundance then Analysis.abundances name basis else pure []).Tells
      Analysis.abundancesKeys := by
  split
  · exact Analysis.tells_abundances _ _
  · exact Report.tells_pure _

/-- Without parallelism the analyses are conducted in their order. -/
theorem analyzing_serial (serial : config.parallel = false) (name : String) (E : EdgeGraph) :
    analyzing config name E = .ofReport (analyze config name E) := by
  have split : ∀ {α β : Type} (first : Conduct α) (second : Conduct β),
      Conduct.fork config.parallel first second = do
        let left ← first
        let right ← second
        return (left, right) := fun first second =>
    if_neg (by rw [serial]; exact Bool.false_ne_true)
  unfold analyzing
  simp only [split, bind_assoc, pure_bind]
  rw [analyze_eq, Conduct.ofReport_bind (Analysis.tells_dominance name E .forward)]
  refine bind_congr fun dominance => ?_
  rw [Conduct.ofReport_bind (Analysis.tells_dominance name E .backward)]
  refine bind_congr fun postDominance => ?_
  rw [Conduct.ofReport_bind (Analysis.tells_components E)]
  refine bind_congr fun components => ?_
  rw [Conduct.ofReport_bind (Analysis.tells_execution name E)]
  refine bind_congr fun execution => ?_
  rw [Conduct.ofReport_bind (tells_areas config name _ _)]
  refine bind_congr fun areas => ?_
  rw [Conduct.ofReport_bind (tells_deadlocks config name _ _)]
  refine bind_congr fun deadlocks => ?_
  rw [Conduct.ofReport_bind (tells_abundances config name _)]
  rfl

/-- The keys of all analyses. -/
def analysisKeys : List String :=
  Analysis.dominanceKeys .forward ++ Analysis.dominanceKeys .backward ++ Analysis.componentsKeys ++
    Analysis.executionKeys ++ Analysis.waitingAreasKeys ++ Analysis.deadlocksKeys ++
    Analysis.abundancesKeys

/-- The analyses keep to the keys of all parts. -/
theorem tells_analyze (config : Config) (name : String) (E : EdgeGraph) :
    (analyze config name E).Tells analysisKeys := by
  rw [analyze_eq]
  refine ((Analysis.tells_dominance name E .forward).mono (by decide)).bind fun dominance => ?_
  refine ((Analysis.tells_dominance name E .backward).mono (by decide)).bind fun postDominance => ?_
  refine ((Analysis.tells_components E).mono (by decide)).bind fun components => ?_
  refine ((Analysis.tells_execution name E).mono (by decide)).bind fun execution => ?_
  refine ((tells_areas config name _ _).mono (by decide)).bind fun areas => ?_
  refine ((tells_deadlocks config name _ _).mono (by decide)).bind fun deadlocks => ?_
  exact ((tells_abundances config name _).mono (by decide)).bind fun abundances =>
    Report.tells_pure _

theorem tells_closing : closing.Tells Workflow.closeKeys := by
  refine Run.tells_current.bind fun workflow => ?_
  split
  · exact Workflow.tells_close.within (by decide)
  · exact Run.tells_pure ()

theorem tells_accepting : accepting.Tells [] := by
  refine Run.tells_current.bind fun workflow => ?_
  split
  · exact Run.tells_ofReport (Report.tells_ofDefect _)
  · exact Run.tells_pure ()

theorem tells_preparing (config : Config) : (preparing config).Tells Workflow.simplifyKeys := by
  unfold preparing
  split
  · refine Run.tells_current.bind fun workflow => ?_
    split
    · exact (Workflow.tells_simplify.within (by decide)).bind fun _ => Run.tells_pure []
    · exact Run.tells_pure []
  · exact Run.tells_pure []

theorem runAnalyses_eq (config : Config) : runAnalyses config = (do
    closing
    let workflow ← Run.current
    .ofReport do
      let E ← .ofMisuse workflow.edges
      let findings ← .timed "ControlFlowPlan" (analyze config workflow.name E)
      .log .info s!"{workflow.name}: {E.size} edges, {findings.length} annotations"
      return findings.map Finding.plain) := by
  rw [closing, bind_assoc]
  refine bind_congr fun workflow => ?_
  cases workflow.isClosed with
  | true => rfl
  | false => rfl

/-- Without parallelism closing and analysing is conducted as it is run. -/
theorem running_serial (serial : config.parallel = false) :
    running config = .ofRun (runAnalyses config) := by
  rw [runAnalyses_eq, Conduct.ofRun_bind tells_closing, running]
  refine bind_congr fun _ => ?_
  rw [Conduct.ofRun_bind (Run.tells_current : Run.Tells [] _)]
  refine bind_congr fun workflow => ?_
  refine ((Conduct.ofReport_bind (Report.tells_ofMisuse _ : Report.Tells [] _) _).trans ?_).symm
  refine bind_congr fun E => ?_
  have told := tells_analyze config workflow.name E
  have timed : (Report.timed "ControlFlowPlan" (analyze config workflow.name E)).Tells
      (Metric.time "ControlFlowPlan" :: analysisKeys) :=
    (told.mono (List.subset_cons_self _ _)).within (by decide)
  rw [Conduct.ofReport_bind timed, analyzing_serial serial, Report.timed,
    Conduct.ofReport_within told]
  refine bind_congr fun findings => ?_
  rw [Conduct.ofReport_bind (Report.tells_log _ _ : Report.Tells [] _)]
  rfl

/-- Closing and the analyses keep to their keys and that of the section around them. -/
theorem tells_runAnalyses (config : Config) : (runAnalyses config).Tells
    (Workflow.closeKeys ++ Metric.time "ControlFlowPlan" :: analysisKeys) := by
  rw [runAnalyses_eq]
  refine (tells_closing.mono (by decide)).bind fun _ => Run.tells_current.bind fun workflow =>
    Run.tells_ofReport ((Report.tells_ofMisuse _).bind fun E => ?_)
  refine Report.Tells.bind (((tells_analyze config workflow.name E).mono ?_).within (by decide))
    fun findings => (Report.tells_log _ _).bind fun _ => Report.tells_pure _
  exact fun key listed => List.mem_append_right _ (List.mem_cons_of_mem _ listed)

theorem prepareAndAnalyze_eq (config : Config) : prepareAndAnalyze config =
    .within (.plan "WorkflowGraphPlan") (do
      let prepared ← preparing config
      let found ← runAnalyses config
      return prepared ++ found) := by
  unfold prepareAndAnalyze preparing
  cases config.preparation with
  | true => rfl
  | false => rfl

theorem verifyWith_eq (config : Config) : verifyWith config = (do
    accepting
    prepareAndAnalyze config) := by
  rw [accepting, bind_assoc]
  refine bind_congr fun workflow => ?_
  cases workflow with
  | draft g => rfl
  | closed c => rfl

theorem tells_prepared (config : Config) : (do
    let prepared ← preparing config
    let found ← runAnalyses config
    return prepared ++ found : Run (List Annotation)).Tells
      (Workflow.simplifyKeys ++ (Workflow.closeKeys ++ Metric.time "ControlFlowPlan" ::
        analysisKeys)) :=
  ((tells_preparing config).mono (List.subset_append_left _ _)).bind fun _ =>
    ((tells_runAnalyses config).mono (List.subset_append_right _ _)).bind fun _ => Run.tells_pure _

/-- Without parallelism there is one schedule, that of verification as one run. -/
theorem verifying_serial (serial : config.parallel = false) :
    verifying config = .ofRun (verifyWith config) := by
  rw [verifyWith_eq, Conduct.ofRun_bind tells_accepting, verifying]
  refine bind_congr fun _ => ?_
  rw [prepareAndAnalyze_eq, Conduct.ofRun_within (tells_prepared config),
    Conduct.ofRun_bind (tells_preparing config)]
  refine congrArg _ (bind_congr fun prepared => ?_)
  rw [Conduct.ofRun_bind (tells_runAnalyses config), running_serial serial]
  rfl

/-! ### Valid workflows -/

theorem ends_accepting (accepted : workflow.graph.validate = .ok ()) :
    accepting.Ends workflow (.ok ()) workflow := by
  refine Run.ends_current.bind ?_
  cases workflow with
  | draft g => exact Run.ends_ofReport (Report.outcome_ofDefect accepted)
  | closed c => exact Run.ends_pure ()

/-- Preparing an accepted workflow succeeds, and the prepared one is accepted as well. -/
theorem exists_preparing (accepted : workflow.graph.validate = .ok ()) (config : Config) :
    ∃ prepared, (preparing config).Ends workflow (.ok []) prepared ∧
      prepared.graph.validate = .ok () := by
  unfold preparing
  cases config.preparation with
  | false => exact ⟨workflow, Run.ends_pure [], accepted⟩
  | true =>
    cases workflow with
    | closed c => exact ⟨.closed c, Run.ends_current.bind (Run.ends_pure []), accepted⟩
    | draft g =>
      obtain ⟨simple, simplified, kept⟩ := Graph.exists_simplify accepted
      refine ⟨.draft simple, Run.ends_current.bind ?_, kept⟩
      exact ((ends_simplify simplified).within _).bind (Run.ends_pure [])

/-- Closing an accepted workflow succeeds with a valid edge graph. -/
theorem exists_closing (accepted : workflow.graph.validate = .ok ()) :
    ∃ c, closing.Ends workflow (.ok ()) (.closed c) ∧ c.edges.Valid := by
  cases workflow with
  | closed c =>
    exact ⟨c, Run.ends_current.bind (Run.ends_pure ()),
      EdgeGraph.valid_of_validate accepted c.numbered⟩
  | draft g =>
    obtain ⟨E, closed, valid⟩ := exists_closed accepted
    exact ⟨⟨g, E, closed⟩, Run.ends_current.bind ((ends_close closed).within _), valid⟩

theorem exists_areas (valid : E.Valid) (config : Config) (name : String) :
    ∃ areas, (if config.waitingArea && !(E.nodesOf .orJoin).isEmpty then
      Analysis.waitingAreas name (E.dominanceOf .forward) (E.dominanceOf .backward)
    else
      pure []).outcome = .ok areas := by
  split
  · exact ⟨_, valid.outcome_waitingAreas name⟩
  · exact ⟨[], rfl⟩

theorem outcome_deadlocks (valid : E.Valid) (config : Config) (name : String) :
    (if config.deadlock then
      Analysis.deadlocks name (E.dominanceOf .forward) E.executionOf
    else
      pure []).outcome = .ok (if config.deadlock then E.deadlockFindings else []) := by
  cases config.deadlock with
  | true => exact valid.outcome_deadlocks name
  | false => rfl

theorem outcome_abundances (valid : E.Valid) (config : Config) (name : String) :
    (if config.abundance then Analysis.abundances name E.basisOf else pure []).outcome =
      .ok (if config.abundance then E.abundanceFindings else []) := by
  cases config.abundance with
  | true => exact valid.outcome_abundances name
  | false => rfl

/-! ### Every schedule -/

/-- On a valid graph the analyses that may run side by side tell different keys, so one after the
other they tell the same. -/
theorem serializes_analyzing (valid : E.Valid) (config : Config) (name : String) :
    Conduct.Serializes workflow (analyzing config name E)
      (analyzing { config with parallel := false } name E) := by
  have forward : Conduct.Passes workflow _ _ _ := Conduct.passes_ofReport
    (Analysis.tells_dominance name E .forward) (Analysis.outcome_dominance name E .forward)
  have backward : Conduct.Passes workflow _ _ _ := Conduct.passes_ofReport
    (Analysis.tells_dominance name E .backward) (Analysis.outcome_dominance name E .backward)
  have components : Conduct.Passes workflow _ _ _ := Conduct.passes_ofReport
    (Analysis.tells_components E) (Analysis.outcome_components E)
  have execution : Conduct.Passes workflow _ _ _ := Conduct.passes_ofReport
    (Analysis.tells_execution name E) (valid.outcome_execution name)
  have starving : ∀ left, Conduct.Passes left _ _ _ := fun _ =>
    Conduct.passes_ofReport (tells_deadlocks config name _ _) (outcome_deadlocks valid config name)
  have meeting : ∀ left, Conduct.Passes left _ _ _ := fun _ =>
    Conduct.passes_ofReport (tells_abundances config name _) (outcome_abundances valid config name)
  have apart : ∀ key ∈ Analysis.deadlocksKeys, key ∉ Analysis.abundancesKeys := by decide
  refine Conduct.Serializes.bind (Conduct.serializes_fork config.parallel (by decide)
    (Conduct.serializes_fork config.parallel (by decide) (Conduct.serializes_refl _) forward
      (Conduct.serializes_refl _) backward) (forward.fork backward)
    (Conduct.serializes_fork config.parallel (by decide) (Conduct.serializes_refl _) components
      (Conduct.serializes_refl _) execution) (components.fork execution)) ?_
  intro value between calls passed
  obtain ⟨rfl, same, -⟩ := (forward.fork backward).fork (components.fork execution) passed
  cases same
  refine (Conduct.serializes_refl _).bind fun areas between _ looked => ?_
  refine Conduct.Serializes.bind (Conduct.serializes_fork config.parallel apart
    (Conduct.serializes_refl _) (starving _) (Conduct.serializes_refl _) (meeting _))
    fun found _ _ _ => Conduct.serializes_refl _

/-- A conducted run ends as the run does. -/
theorem ofRun_ends {α : Type} {run : Run α} {before left after : Workflow} {calls : List Call}
    {answer outcome : Except Fault α} (ends : run.Ends before answer left)
    (goes : Conduct.ofRun run before after calls outcome) : after = left ∧ outcome = answer := by
  obtain ⟨rfl, -, rfl⟩ := goes
  exact ⟨ends.2, ends.1⟩

/-- Closing first, the analyses of an accepted workflow may be done one after the other. -/
theorem serializes_running (accepted : workflow.graph.validate = .ok ()) (config : Config) :
    Conduct.Serializes workflow (running config) (running { config with parallel := false }) := by
  obtain ⟨c, closes, valid⟩ := exists_closing accepted
  refine (Conduct.serializes_refl _).bind fun _ between _ closed => ?_
  obtain ⟨rfl, -⟩ := ofRun_ends closes closed
  refine (Conduct.serializes_refl _).bind fun seen between _ looked => ?_
  obtain ⟨rfl, same⟩ := ofRun_ends Run.ends_current looked
  cases same
  refine (Conduct.serializes_refl _).bind fun E between _ found => ?_
  obtain ⟨rfl, same⟩ := ofRun_ends (Run.ends_ofReport (Report.outcome_ofMisuse rfl)) found
  cases same
  exact Conduct.Serializes.bind ((serializes_analyzing valid config _).within _)
    fun findings _ _ _ => Conduct.serializes_refl _

/-- Every schedule of verification makes the calls for each key in the order of the one without
parallelism. -/
theorem serializes_verifying (accepted : workflow.graph.validate = .ok ()) (config : Config) :
    Conduct.Serializes workflow (verifying config)
      (verifying { config with parallel := false }) := by
  refine (Conduct.serializes_refl _).bind fun _ between _ checked => ?_
  obtain ⟨rfl, -⟩ := ofRun_ends (ends_accepting accepted) checked
  refine Conduct.Serializes.within ?_ _
  obtain ⟨prepared, ends, kept⟩ := exists_preparing accepted config
  refine (Conduct.serializes_refl _).bind fun notes between _ done => ?_
  obtain ⟨rfl, -⟩ := ofRun_ends ends done
  exact (serializes_running kept config).bind fun found _ _ _ => Conduct.serializes_refl _

theorem ends_running {c : ClosedGraph} (closes : closing.Ends workflow (.ok ()) (.closed c))
    (valid : c.edges.Valid) : (runAnalyses config).Ends workflow
      (.ok ((c.edges.selected config).map Finding.plain)) (.closed c) := by
  rw [runAnalyses_eq]
  refine closes.bind (Run.ends_current.bind (Run.ends_ofReport ?_))
  refine Report.outcome_then (Report.outcome_ofMisuse rfl) ?_
  refine Report.outcome_then ((Report.outcome_timed _ _).trans (valid.outcome_analyze config _)) ?_
  exact Report.outcome_then (Report.outcome_log _ _) rfl

theorem ends_prepared {prepared : Workflow} {c : ClosedGraph}
    (prepares : (preparing config).Ends workflow (.ok []) prepared)
    (closes : closing.Ends prepared (.ok ()) (.closed c)) (valid : c.edges.Valid) :
    (do
      let prepared ← preparing config
      let found ← runAnalyses config
      return prepared ++ found : Run (List Annotation)).Ends workflow
        (.ok ((c.edges.selected config).map Finding.plain)) (.closed c) :=
  prepares.bind ((ends_running closes valid).bind (Run.ends_pure _))

theorem ends_verifyWith {prepared : Workflow} {c : ClosedGraph}
    (accepted : workflow.graph.validate = .ok ())
    (prepares : (preparing config).Ends workflow (.ok []) prepared)
    (closes : closing.Ends prepared (.ok ()) (.closed c)) (valid : c.edges.Valid) :
    (verifyWith config).Ends workflow (.ok ((c.edges.selected config).map Finding.plain))
      (.closed c) := by
  rw [verifyWith_eq, prepareAndAnalyze_eq]
  exact (ends_accepting accepted).bind ((ends_prepared prepares closes valid).within _)

/-- Verification of a valid workflow succeeds, whether it is a draft or closed. -/
theorem exists_verifyWith (accepted : workflow.graph.validate = .ok ()) (config : Config) :
    ∃ c : ClosedGraph, c.edges.Valid ∧ (verifyWith config).Ends workflow
      (.ok ((c.edges.selected config).map Finding.plain)) (.closed c) := by
  obtain ⟨prepared, prepares, kept⟩ := exists_preparing accepted config
  obtain ⟨c, closes, valid⟩ := exists_closing kept
  exact ⟨c, valid, ends_verifyWith accepted prepares closes valid⟩

/-- The calls of the analyses if at each fork the second part comes first. -/
def overtaking (config : Config) (name : String) (E : EdgeGraph) : List Call :=
  let dominance := E.dominanceOf .forward
  let postDominance := E.dominanceOf .backward
  let areas :=
    if config.waitingArea && !(E.nodesOf .orJoin).isEmpty then
      Analysis.waitingAreas name dominance postDominance
    else
      pure []
  let deadlocks :=
    if config.deadlock then Analysis.deadlocks name dominance E.executionOf else pure []
  let abundances :=
    if config.abundance then Analysis.abundances name E.basisOf else pure []
  (Analysis.execution name E).calls ++ (Analysis.components E).calls ++
    ((Analysis.dominance name E .backward).calls ++ (Analysis.dominance name E .forward).calls) ++
    (areas.calls ++ (abundances.calls ++ deadlocks.calls))

/-- The analyses of a valid graph may overtake each other. -/
theorem exists_analyzing_overtaken (valid : E.Valid) (parallel : config.parallel = true)
    (name : String) : ∃ found, analyzing config name E workflow workflow
      (overtaking config name E) (.ok found) := by
  obtain ⟨areas, looked⟩ := exists_areas valid config name
  have bases : Conduct.fork true _ _ workflow workflow _ _ := Conduct.does_fork_overtaken
    (Conduct.does_fork_overtaken
      (Conduct.does_ofReport (Analysis.outcome_dominance name E .forward))
      (Conduct.does_ofReport (Analysis.outcome_dominance name E .backward)))
    (Conduct.does_fork_overtaken (Conduct.does_ofReport (Analysis.outcome_components E))
      (Conduct.does_ofReport (valid.outcome_execution name)))
  have found : Conduct.fork true _ _ workflow workflow _ _ := Conduct.does_fork_overtaken
    (Conduct.does_ofReport (outcome_deadlocks valid config name))
    (Conduct.does_ofReport (outcome_abundances valid config name))
  unfold analyzing
  rw [parallel]
  exact ⟨_, Conduct.does_bind bases (Conduct.does_bind (Conduct.does_ofReport looked)
    (Conduct.does_answer found _))⟩

/-- Verification of a valid workflow has a schedule in which the later analyses come first. -/
theorem exists_overtaken (accepted : workflow.graph.validate = .ok ())
    (parallel : config.parallel = true) : ∃ (c : ClosedGraph) (early late : List Call)
      (notes : List Annotation), verifying config workflow (.closed c)
        (early ++ overtaking config c.graph.name c.edges ++ late) (.ok notes) := by
  obtain ⟨prepared, ends, kept⟩ := exists_preparing accepted config
  obtain ⟨c, closes, valid⟩ := exists_closing kept
  obtain ⟨found, overtaken⟩ : ∃ found, analyzing config c.graph.name c.edges (.closed c) _ _ _ :=
    exists_analyzing_overtaken valid parallel c.graph.name
  have edges : (Report.ofMisuse (Workflow.closed c).edges).outcome = .ok c.edges := rfl
  have ran : running config prepared (.closed c) _ _ :=
    Conduct.does_bind (Conduct.does_ofRun closes)
      (Conduct.does_bind (Conduct.does_ofRun Run.ends_current)
        (Conduct.does_bind (Conduct.does_ofReport edges)
          (Conduct.does_bind (Conduct.does_within _ overtaken)
            (Conduct.does_answer (Conduct.does_ofReport (Report.outcome_log _ _)) _))))
  have all : verifying config workflow (.closed c) _ _ :=
    Conduct.does_bind (Conduct.does_ofRun (ends_accepting accepted))
      (Conduct.does_within _ (Conduct.does_bind (Conduct.does_ofRun ends)
        (Conduct.does_answer ran _)))
  simp only [← List.append_assoc] at all
  rw [List.append_assoc, List.append_assoc] at all
  exact ⟨c, _, _, _, all⟩

end Plan

/-! ### The result -/

section Result

variable {after : Workflow} {calls : List Call} {outcome : Except Fault (List Annotation)}

/-- A metric that is no time has one value after calls that are alike, whatever the times are. -/
theorem get?_serveAll_of_alike {name : String} {report : Report (List Annotation)}
    {made : List ReporterCall} (store : MetricStore) (alike : Alike calls report.calls)
    (fills : Fills name calls made) {key : String} (timeless : ¬ Metric.IsTime key)
    (graph : String) : (store.serveAll made).get? graph key =
      ((Reporter.store store).watch name report.events).stored.get? graph key := by
  obtain ⟨told, fills', watched⟩ := exists_fills_watch name report store
  rw [watched, Reporter.stored]
  by_cases same : graph = name
  · subst same
    have valued : ∀ call ∈ callsAt key report.calls, call.value ≠ none := fun call member unknown =>
      have here := mem_callsAt.1 member
      timeless (here.2 ▸ isTime_of_mem_callsFrom here.1 unknown)
    rw [get?_serveAll_of_told store fills (alike key) valued,
      get?_serveAll_of_told store fills' rfl valued]
  · rw [get?_serveAll_of_ne store fills same, get?_serveAll_of_ne store fills' same]

/-- Verification of a valid workflow does not depend on the schedule. Whatever the analyses do side
by side and whatever times they take, the answer and the workflow left are those of the sequential
run, the calls for each key come in the same order, and each metric that is no time ends with the
same value. -/
theorem schedule_independent (accepted : workflow.graph.validate = .ok ()) (store : MetricStore)
    {made : List ReporterCall} (goes : Plan.verifying config workflow after calls outcome)
    (fills : Fills workflow.name calls made) : ∃ events notes,
      verifyWith { config with parallel := false } workflow = (after, ⟨events, .ok notes⟩) ∧
        outcome = .ok notes ∧ Alike calls (callsFrom [] events) ∧
        ∀ graph key, ¬ Metric.IsTime key → (store.serveAll made).get? graph key =
          ((Reporter.store store).watch workflow.name events).stored.get? graph key := by
  obtain ⟨c, -, ends⟩ := Plan.exists_verifyWith accepted { config with parallel := false }
  obtain ⟨events, answered⟩ := ends.eq
  obtain ⟨calls', serial, alike⟩ := Plan.serializes_verifying accepted config goes
  rw [Plan.verifying_serial rfl] at serial
  obtain ⟨rfl, rfl, rfl⟩ := serial
  rw [answered] at alike ⊢
  exact ⟨events, _, rfl, rfl, alike, fun graph key timeless =>
    get?_serveAll_of_alike store alike fills timeless graph⟩

/-- A fork whose branches a merge brings together. -/
def Graph.unjoined : Graph where
  name := "unjoined"
  nodes := [⟨.start, []⟩, ⟨.fork, []⟩, ⟨.activity, []⟩, ⟨.activity, []⟩, ⟨.merge, []⟩,
    ⟨.finish, []⟩]
  flows := [⟨0, 1⟩, ⟨1, 2⟩, ⟨1, 3⟩, ⟨2, 4⟩, ⟨3, 4⟩, ⟨4, 5⟩]
  flows_inside := by decide

/-- Also where the later analyses come first, the abundance is counted once. -/
theorem schedule_independent_overtaken : ∃ (c : ClosedGraph) (early late : List Call)
    (made : List ReporterCall) (notes : List Annotation),
    let calls := early ++ Plan.overtaking .comprehensive c.graph.name c.edges ++ late
    Plan.verifying .comprehensive (.draft .unjoined) (.closed c) calls (.ok notes) ∧
      Fills "unjoined" calls made ∧
      (verifyWith .sequential (.draft .unjoined)).2.outcome = .ok notes ∧
      (MetricStore.empty.serveAll made).get? "unjoined" Metric.abundances = some 1 := by
  have accepted : (Workflow.draft .unjoined).graph.validate = .ok () := by decide +kernel
  obtain ⟨c, early, late, notes, goes⟩ := Plan.exists_overtaken accepted
    (rfl : Config.comprehensive.parallel = true)
  obtain ⟨made, fills⟩ := exists_fills "unjoined" _
  obtain ⟨events, _, answered, same, -, values⟩ :=
    schedule_independent accepted .empty goes fills
  cases same
  have serial : (verifyWith .sequential (.draft .unjoined)).2 = ⟨events, .ok notes⟩ :=
    congrArg Prod.snd answered
  have timeless : ¬ Metric.IsTime Metric.abundances := Metric.not_isTime (by decide) (by decide)
  have counted : ((Reporter.store .empty).watch "unjoined"
      (verifyWith .sequential (.draft .unjoined)).2.events).stored.get? "unjoined"
        Metric.abundances = some 1 := by
    decide +kernel
  rw [serial] at counted ⊢
  exact ⟨c, early, late, made, notes, goes, fills, rfl,
    (values "unjoined" _ timeless).trans counted⟩

end Result
end WorkflowSoundness
