import WorkflowSoundness.Proofs.Abundance.Candidates
import WorkflowSoundness.Proofs.Deadlock.Facts

/-!
What verification answers. On a valid edge graph all analyses succeed and return the findings that
the configuration selects (`outcome_analyze`); on a draft that obeys the rules verification returns
the findings of its simple shape, closed (`ends_verify`).
-/

namespace WorkflowSoundness

/-- The findings of the parts that a configuration selects. -/
def EdgeGraph.selected (E : EdgeGraph) (config : Config) : List (Finding E) :=
  (if config.waitingArea then E.waitFindings else []) ++
    (if config.deadlock then E.deadlockFindings else []) ++
    if config.abundance then E.abundanceFindings else []

namespace Analysis

variable (name : String)

theorem outcome_dominance (E : EdgeGraph) (direction : Direction) :
    (dominance name E direction).outcome = .ok (Dominance.compute E direction) := by
  unfold dominance
  rw [Report.outcome_timed]
  rfl

theorem outcome_components (E : EdgeGraph) :
    (components E).outcome = .ok (Components.compute E) := by
  unfold components
  rw [Report.outcome_timed]
  rfl

variable {E : EdgeGraph}

theorem outcome_reportDeadlock (finding : Finding E) :
    (reportDeadlock name finding).outcome = .ok () := by
  unfold reportDeadlock
  rw [Report.outcome_ignored]
  split
  · rfl
  · rfl

theorem outcome_reportMeeting (fork : Fin E.order) (meeting : Abundance.Meeting E) :
    (reportMeeting name fork meeting).outcome = .ok () := by
  unfold reportMeeting
  rw [Report.outcome_ignored]
  rfl

end Analysis

namespace EdgeGraph.Valid

variable {E : EdgeGraph} (valid : E.Valid)

include valid

/-- The dataflow is solved without misuse. -/
theorem solve_eq :
    ∃ solution, Dataflow.solve E.executionOf = .ok solution ∧ solution.value = E.dataflowOf := by
  unfold Dataflow.solve
  rw [valid.joins_eq]
  exact ⟨_, rfl, rfl⟩

/-- Each join that the scan hits has its one outgoing edge, so asking for it is no misuse. -/
theorem started_eq :
    (Deadlock.scan E.dataflowOf.facts[E.first]).mapM (fun (i, reached) =>
      (fun out => (E.target i, out, reached)) <$> E.soleOutgoing (E.target i)) =
      .ok ((Deadlock.scan E.dataflowOf.facts[E.first]).map fun (i, reached) =>
        (E.target i, E.exitOf (E.target i), reached)) := by
  refine exceptMapM_eq_ok fun (i, reached) member => ?_
  have fact := (Deadlock.mem_scan.1 member).1.1
  have merging : (E.kindOf (E.target i)).isMerging = true := by
    rw [(mem_facts_iff.1 fact).isJoin]
    rfl
  dsimp only
  rw [valid.soleOutgoing_eq merging]
  rfl

/-- On a valid graph the deadlock analysis answers. -/
theorem deadlock_eq :
    ∃ computed, Deadlock.compute E.executionOf (E.dominanceOf .forward) = .ok computed ∧
      computed.value = E.deadlockFindings := by
  obtain ⟨solution, solved, value⟩ := valid.solve_eq
  have started := valid.started_eq
  rw [← value] at started
  unfold Deadlock.compute
  rw [solved]
  simp only [bind, Except.bind]
  rw [started, valid.joins_eq]
  refine ⟨_, rfl, ?_⟩
  rw [deadlockFindings, ← value]
  change _ ++ _ = _ ++ _
  rw [Counted.value_mapM, List.map_map, Counted.value_mapM, List.filterMap_map]
  rfl

theorem outcome_deadlocks (name : String) :
    (Analysis.deadlocks name (E.dominanceOf .forward) E.executionOf).outcome =
      .ok E.deadlockFindings := by
  obtain ⟨computed, found, value⟩ := valid.deadlock_eq
  unfold Analysis.deadlocks
  rw [Report.outcome_timed]
  refine Report.outcome_then (Report.outcome_ofMisuse found) ?_
  exact Report.outcome_then
    (Report.outcome_forM _ fun finding _ => Analysis.outcome_reportDeadlock name finding)
    (congrArg Except.ok value)

/-- On a valid graph the survey of a fork answers, and a sound memo stays sound. -/
theorem survey_eq {fork : Fin E.order} (splitting : (E.kindOf fork).isSplitting = true)
    {memo : Abundance.Memo E} (sound : memo.Sound) :
    ∃ survey kept, Abundance.surveyFork E.basisOf memo fork = .ok (survey, kept) ∧
      survey.fork = fork ∧ survey.meetings = E.meetingsOf fork ∧ kept.Sound := by
  obtain ⟨found, still⟩ := Abundance.meetingsFrom_spec E.basisOf fork (E.entryOf fork)
    (E.bondOf fork) ((E.definitionsOf fork).filter (Abundance.isCandidate (E.bondOf fork))) sound ∅
  unfold Abundance.surveyFork
  rw [valid.soleIncoming_eq splitting]
  refine ⟨_, _, rfl, rfl, found.trans ?_, still⟩
  rw [Abundance.filter_unchecked]
  rfl

theorem outcome_surveyFork (name : String) {fork : Fin E.order}
    (splitting : (E.kindOf fork).isSplitting = true) {memo : Abundance.Memo E}
    (sound : memo.Sound) :
    ∃ survey kept, (Analysis.surveyFork name E.basisOf memo fork).outcome = .ok (survey, kept) ∧
      survey.fork = fork ∧ survey.meetings = E.meetingsOf fork ∧ kept.Sound := by
  obtain ⟨survey, kept, surveyed, found⟩ := valid.survey_eq splitting sound
  refine ⟨survey, kept, ?_, found⟩
  unfold Analysis.surveyFork
  refine Report.outcome_then (Report.outcome_ofMisuse surveyed) ?_
  refine Report.outcome_then (Report.outcome_log _ _) ?_
  refine Report.outcome_then (Report.outcome_log _ _) ?_
  exact Report.outcome_then
    (Report.outcome_forM _ fun meeting _ => Analysis.outcome_reportMeeting name fork meeting) rfl

/-- Whatever has been remembered before, the surveys of some forks have all their meetings. -/
theorem outcome_surveyForks (name : String) {forks : List (Fin E.order)}
    (splitting : ∀ fork ∈ forks, (E.kindOf fork).isSplitting = true) {memo : Abundance.Memo E}
    (sound : memo.Sound) :
    ∃ surveys, (Analysis.surveyForks name E.basisOf forks memo).outcome = .ok surveys ∧
      surveys.flatMap (fun survey => survey.meetings.map (Abundance.Meeting.finding survey.fork)) =
        forks.flatMap fun fork => (E.meetingsOf fork).map (Abundance.Meeting.finding fork) := by
  induction forks generalizing memo with
  | nil => exact ⟨[], rfl, rfl⟩
  | cons fork later ih =>
    obtain ⟨survey, kept, first, forkEq, meetings, still⟩ :=
      valid.outcome_surveyFork name (splitting fork List.mem_cons_self) sound
    obtain ⟨surveys, rest, same⟩ :=
      ih (fun other member => splitting other (List.mem_cons_of_mem fork member)) still
    refine ⟨survey :: surveys, Report.outcome_then first (Report.outcome_then rest rfl), ?_⟩
    rw [List.flatMap_cons, List.flatMap_cons, same, forkEq, meetings]

end EdgeGraph.Valid

namespace EdgeGraph

variable {E : EdgeGraph}

theorem mem_forks {fork : Fin E.order} :
    fork ∈ Abundance.forks E ↔ (E.kindOf fork).isForking = true := by
  rw [Abundance.forks, List.mem_append, E.mem_nodesOf, E.mem_nodesOf]
  cases E.kindOf fork <;> decide

namespace Valid

variable (valid : E.Valid)

include valid

/-- The forks are surveyed one after the other, each with the memo of those before. -/
theorem outcome_abundances (name : String) :
    (Analysis.abundances name E.basisOf).outcome = .ok E.abundanceFindings := by
  obtain ⟨surveys, surveyed, same⟩ := valid.outcome_surveyForks name
    (fun fork member => NodeKind.isSplitting_of_isForking (mem_forks.1 member))
    Abundance.Memo.sound_empty
  unfold Analysis.abundances
  rw [Report.outcome_timed]
  exact Report.outcome_then surveyed (congrArg Except.ok same)

/-- On a valid graph every selected analysis answers, and the findings come in their order. -/
theorem outcome_analyze (config : Config) (name : String) :
    (Plan.analyze config name E).outcome = .ok (E.selected config) := by
  have abundances : ∀ found : List (Finding E), (do
      let abundances ← if config.abundance then Analysis.abundances name E.basisOf else pure []
      return found ++ abundances : Report (List (Finding E))).outcome =
      .ok (found ++ if config.abundance then E.abundanceFindings else []) := by
    intro found
    cases config.abundance with
    | true => exact Report.outcome_then (valid.outcome_abundances name) rfl
    | false => rfl
  have rest : ∀ waits : List (Finding E), (do
      let deadlocks ← if config.deadlock then
        Analysis.deadlocks name (E.dominanceOf .forward) E.executionOf else pure []
      let abundances ← if config.abundance then Analysis.abundances name E.basisOf else pure []
      return waits ++ deadlocks ++ abundances : Report (List (Finding E))).outcome =
      .ok (waits ++ (if config.deadlock then E.deadlockFindings else []) ++
        if config.abundance then E.abundanceFindings else []) := by
    intro waits
    cases config.deadlock with
    | true => exact Report.outcome_then (valid.outcome_deadlocks name) (abundances _)
    | false => exact abundances _
  unfold Plan.analyze
  refine Report.outcome_then (Analysis.outcome_dominance name E .forward) ?_
  refine Report.outcome_then (Analysis.outcome_dominance name E .backward) ?_
  refine Report.outcome_then (Analysis.outcome_components E) ?_
  refine Report.outcome_then (valid.outcome_execution name) ?_
  cases selects : config.waitingArea && !(E.nodesOf .orJoin).isEmpty with
  | false =>
    have none : (if config.waitingArea then E.waitFindings else []) = [] := by
      cases waitingArea : config.waitingArea with
      | false => rfl
      | true =>
        have empty : E.nodesOf .orJoin = [] := by simpa [waitingArea] using selects
        rw [if_pos rfl, waitFindings, empty]
        rfl
    refine (rest []).trans ?_
    rw [selected, none]
  | true =>
    have waitingArea := (Bool.and_eq_true_iff.1 selects).1
    refine Report.outcome_then (valid.outcome_waitingAreas name) ((rest _).trans ?_)
    rw [selected, if_pos waitingArea, waitFindings, List.map_map]
    rfl

end Valid
end EdgeGraph

section Verify

variable {g : Graph} {E : EdgeGraph}

theorem ends_simplify {simple : Graph} (simplified : g.simplify = (simple, .ok ())) :
    Workflow.simplify.Ends (.draft g) (.ok (simple.order - g.order)) (.draft simple) := by
  have step : Workflow.simplify (.draft g) = (.draft simple, Workflow.simplifying g simple) := by
    rw [Workflow.simplify, simplified]
  rw [Run.Ends, step]
  exact ⟨rfl, rfl⟩

theorem ends_close (closed : EdgeGraph.ofGraph g = .ok E) :
    Workflow.close.Ends (.draft g) (.ok ()) (.closed ⟨g, E, closed⟩) := by
  rw [Run.Ends, Workflow.close_of_ok closed]
  exact ⟨rfl, rfl⟩

/-- The analyses of a draft that can be closed leave it closed. -/
theorem ends_runAnalyses (closed : EdgeGraph.ofGraph g = .ok E) (valid : E.Valid)
    (config : Config) :
    (Plan.runAnalyses config).Ends (.draft g) (.ok ((E.selected config).map Finding.plain))
      (.closed ⟨g, E, closed⟩) := by
  refine Run.ends_current.bind ?_
  refine ((ends_close closed).within _).bind ?_
  refine Run.ends_current.bind (Run.ends_ofReport ?_)
  refine Report.outcome_then (Report.outcome_ofMisuse rfl) ?_
  refine Report.outcome_then ((Report.outcome_timed _ _).trans (valid.outcome_analyze config _)) ?_
  exact Report.outcome_then (Report.outcome_log _ _) rfl

/-- Without preparation a draft that the configuration asks to verify is closed as it is. -/
theorem ends_verifyWith_unprepared {config : Config} (plain : config.preparation = false)
    (accepted : g.validate = .ok ()) (closed : EdgeGraph.ofGraph g = .ok E) (valid : E.Valid) :
    (verifyWith config).Ends (.draft g) (.ok ((E.selected config).map Finding.plain))
      (.closed ⟨g, E, closed⟩) := by
  refine Run.ends_current.bind ?_
  refine (Run.ends_ofReport (Report.outcome_ofDefect accepted)).bind ?_
  refine Run.Ends.within _ ?_
  rw [plain]
  refine (Run.ends_pure []).bind ?_
  exact (ends_runAnalyses closed valid config).bind (Run.ends_pure _)

/-- With preparation its simple shape is. -/
theorem ends_verifyWith_prepared {config : Config} (prepares : config.preparation = true)
    {simple : Graph} (accepted : g.validate = .ok ())
    (simplified : g.simplify = (simple, .ok ())) (closed : EdgeGraph.ofGraph simple = .ok E)
    (valid : E.Valid) :
    (verifyWith config).Ends (.draft g) (.ok ((E.selected config).map Finding.plain))
      (.closed ⟨simple, E, closed⟩) := by
  refine Run.ends_current.bind ?_
  refine (Run.ends_ofReport (Report.outcome_ofDefect accepted)).bind ?_
  refine Run.Ends.within _ ?_
  have prepared : Plan.prepare.Ends (.draft g) (.ok []) (.draft simple) := by
    refine Run.ends_current.bind ?_
    exact ((ends_simplify simplified).within _).bind (Run.ends_pure _)
  rw [prepares]
  refine prepared.bind ?_
  exact (ends_runAnalyses closed valid config).bind (Run.ends_pure _)

/-- Verification of a draft returns the findings of its simple shape and leaves that closed. -/
theorem ends_verify {simple : Graph} (accepted : g.validate = .ok ())
    (simplified : g.simplify = (simple, .ok ())) (closed : EdgeGraph.ofGraph simple = .ok E)
    (valid : E.Valid) :
    verify.Ends (.draft g) (.ok (E.findings.map Finding.plain)) (.closed ⟨simple, E, closed⟩) :=
  ends_verifyWith_prepared rfl accepted simplified closed valid

end Verify
end WorkflowSoundness
