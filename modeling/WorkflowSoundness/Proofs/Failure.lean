import WorkflowSoundness.Proofs.Records.Session
import WorkflowSoundness.Proofs.Subdivision.Exact

/-!
What a plan that fails leaves of a draft. Closing looks at everything before it changes anything,
and behind it only a misuse can end the analyses, so after a defect the analysis plan leaves the
draft as it was. Preparation asks for the end and the start event when the gateways have been
separated already: the activities inserted until then stay (`Plan.left_of_failure`). It leaves the
draft as it was only where it finds nothing to separate (`Graph.simplify_eq_self_iff`).
-/

namespace WorkflowSoundness

variable {α β : Type}

/-! ### Faults of composed runs -/

/-- No defect ends the report. -/
def Report.NoDefect (report : Report α) : Prop :=
  ∀ cause, report.outcome ≠ .error (.defect cause)

namespace Report

theorem noDefect_of_ok {report : Report α} {value : α} (passed : report.outcome = .ok value) :
    report.NoDefect := by
  intro cause failed
  rw [passed] at failed
  cases failed

theorem noDefect_ofMisuse (checked : Except Misuse α) : (ofMisuse checked).NoDefect := by
  intro cause failed
  cases checked with
  | ok value => cases failed
  | error misuse => cases failed

/-- No defect comes from a report if none comes from its parts. -/
theorem NoDefect.bind {first : Report α} {next : α → Report β} (none : first.NoDefect)
    (later : ∀ value, (next value).NoDefect) : (first >>= next).NoDefect := by
  intro cause failed
  rw [outcome_bind] at failed
  cases answered : first.outcome with
  | error fault =>
    rw [answered] at failed
    cases failed
    exact none cause answered
  | ok value =>
    rw [answered] at failed
    exact later value cause failed

theorem NoDefect.within {body : Report α} (none : body.NoDefect) (part : Section) :
    (body.within part).NoDefect := fun cause failed =>
  none cause ((outcome_within part body).symm.trans failed)

theorem noDefect_forM {f : α → Report Unit} (each : ∀ a, (f a).outcome = .ok ()) (l : List α) :
    (l.forM f).NoDefect :=
  noDefect_of_ok (outcome_forM l fun a _ => each a)

end Report

namespace Run

variable {workflow final : Workflow} {fault : Fault}

/-- A run fails in its first part or behind it. -/
theorem Ends.of_bind {first : Run α} {next : α → Run β}
    (failed : (first >>= next).Ends workflow (.error fault) final) :
    first.Ends workflow (.error fault) final ∨ ∃ value between,
      first.Ends workflow (.ok value) between ∧
        (next value).Ends between (.error fault) final := by
  change (Run.bind first next workflow).2.outcome = _ ∧
    (Run.bind first next workflow).1 = _ at failed
  unfold Ends
  unfold Run.bind at failed
  revert failed
  generalize first workflow = answered
  obtain ⟨between, events, outcome⟩ := answered
  intro failed
  cases outcome with
  | error cause =>
    obtain ⟨same, left⟩ := failed
    cases same
    exact Or.inl ⟨rfl, left⟩
  | ok value => exact Or.inr ⟨value, between, ⟨rfl, rfl⟩, failed⟩

/-- A section leaves what its body leaves. -/
theorem state_within (body : Run α) (part : Section) :
    ((body.within part) workflow).1 = (body workflow).1 :=
  rfl

/-- A section changes neither the answer nor the workflow, so its body ends the same way. -/
theorem Ends.of_within {body : Run α} {answer : Except Fault α} {part : Section}
    (ends : (body.within part).Ends workflow answer final) : body.Ends workflow answer final :=
  ⟨(Report.outcome_within part _).symm.trans ends.1, ends.2⟩

end Run

/-! ### The analyses -/

namespace Analysis

variable {E : EdgeGraph} (name : String)

theorem noDefect_execution (E : EdgeGraph) : (execution name E).NoDefect :=
  ((Report.noDefect_ofMisuse _).bind fun _ =>
    (Report.noDefect_forM (fun _ => rfl) _).bind fun _ => Report.noDefect_of_ok rfl).within _

theorem noDefect_waitingAreas (dominance postDominance : Dominance E) :
    (waitingAreas name dominance postDominance).NoDefect :=
  ((Report.noDefect_ofMisuse _).bind fun _ =>
    (Report.noDefect_forM (fun _ => rfl) _).bind fun _ => Report.noDefect_of_ok rfl).within _

theorem noDefect_deadlocks (dominance : Dominance E) (execution : Execution E) :
    (deadlocks name dominance execution).NoDefect :=
  ((Report.noDefect_ofMisuse _).bind fun _ =>
    (Report.noDefect_forM (outcome_reportDeadlock name) _).bind fun _ =>
      Report.noDefect_of_ok rfl).within _

theorem noDefect_surveyFork (basis : Abundance.Basis E) (memo : Abundance.Memo E)
    (fork : Fin E.order) : (surveyFork name basis memo fork).NoDefect :=
  (Report.noDefect_ofMisuse _).bind fun _ => (Report.noDefect_of_ok rfl).bind fun _ =>
    (Report.noDefect_of_ok rfl).bind fun _ =>
      (Report.noDefect_forM (outcome_reportMeeting name fork) _).bind fun _ =>
        Report.noDefect_of_ok rfl

theorem noDefect_surveyForks (basis : Abundance.Basis E) (forks : List (Fin E.order))
    (memo : Abundance.Memo E) : (surveyForks name basis forks memo).NoDefect := by
  induction forks generalizing memo with
  | nil => exact Report.noDefect_of_ok rfl
  | cons fork later ih =>
    exact (noDefect_surveyFork name basis memo fork).bind fun surveyed =>
      (ih surveyed.2).bind fun _ => Report.noDefect_of_ok rfl

theorem noDefect_abundances (basis : Abundance.Basis E) : (abundances name basis).NoDefect :=
  ((noDefect_surveyForks name basis _ _).bind fun _ => Report.noDefect_of_ok rfl).within _

end Analysis

/-- The analyses of a closed workflow may be misused, but they find no defect. -/
theorem Plan.noDefect_analyze (config : Config) (name : String) (E : EdgeGraph) :
    (Plan.analyze config name E).NoDefect := by
  refine (Report.noDefect_of_ok (Analysis.outcome_dominance name E .forward)).bind fun _ =>
    (Report.noDefect_of_ok (Analysis.outcome_dominance name E .backward)).bind fun _ =>
      (Report.noDefect_of_ok (Analysis.outcome_components E)).bind fun _ =>
        (Analysis.noDefect_execution name E).bind fun _ => ?_
  have pass : ∀ (asked : Bool) {γ δ : Type} {answer : Report γ} {other : γ} {next : γ → Report δ},
      answer.NoDefect → (∀ value, (next value).NoDefect) →
        (if asked then answer >>= next else pure other >>= next).NoDefect := by
    intro asked γ δ answer other next none later
    cases asked with
    | true => exact none.bind later
    | false => exact later other
  refine pass _ (Analysis.noDefect_waitingAreas name _ _) fun areas => ?_
  refine pass _ (Analysis.noDefect_deadlocks name _ _) fun deadlocks => ?_
  exact pass _ (Analysis.noDefect_abundances name _) fun abundances => Report.noDefect_of_ok rfl

/-! ### What preparation leaves alone -/

namespace Graph

variable {g h : Graph}

/-- Flows are only ever divided, so two graphs that divide each other are the same. -/
theorem Subdivided.antisymm (there : Subdivided g h) (back : Subdivided h g) : h = g :=
  there.eq_of_order_eq (Nat.le_antisymm back.le_order there.le_order)

/-- Where gateways are apart already nothing is inserted. -/
theorem separateIncoming_of_separated (separated : g.Separated) {v : Nat} {kind : NodeKind}
    (known : g.kind? v = some kind) (merging : kind.isMerging = true) :
    g.separateIncoming v = g := by
  have none : g.nonActivities (g.predecessors v) = [] :=
    List.eq_nil_iff_forall_not_mem.2 fun u member => by
      obtain ⟨-, source, other⟩ := mem_nonActivities.1 member
      exact other (separated.before _ (mem_predecessors.1 source) kind known merging)
  rw [separateIncoming, none]
  rfl

theorem separateOutgoing_of_separated (separated : g.Separated) {u : Nat} {kind : NodeKind}
    (known : g.kind? u = some kind) (splitting : kind.isSplitting = true) :
    g.separateOutgoing u = g := by
  have none : g.nonActivities (g.successors u) = [] :=
    List.eq_nil_iff_forall_not_mem.2 fun v member => by
      obtain ⟨-, target, other⟩ := mem_nonActivities.1 member
      exact other (separated.after _ (mem_successors.1 target) kind known splitting)
  rw [separateOutgoing, none]
  rfl

/-- A pass whose steps find nothing to do. -/
theorem foldl_nodesOf_eq_self {step : Graph → Nat → Graph} {kinds : List NodeKind}
    (idle : ∀ kind ∈ kinds, ∀ v, g.kind? v = some kind → step g v = g) :
    kinds.foldl (fun g kind => (g.nodesOf kind).foldl step g) g = g := by
  refine List.foldlRecOn (motive := (· = g)) _ _ rfl fun now same kind listed => ?_
  subst same
  refine List.foldlRecOn (motive := (· = now)) _ _ rfl fun later same v member => ?_
  subst same
  exact idle kind listed v ((mem_nodesOf kind).1 member)

theorem separateGateways_of_separated (separated : g.Separated) : g.separateGateways = g := by
  have merging : ∀ kind ∈ [NodeKind.join, .orJoin, .merge], kind.isMerging = true := by decide
  have splitting : ∀ kind ∈ [NodeKind.fork, .split, .orFork], kind.isSplitting = true := by decide
  unfold separateGateways
  dsimp only
  rw [foldl_nodesOf_eq_self fun kind listed v known =>
    separateIncoming_of_separated separated known (merging kind listed)]
  exact foldl_nodesOf_eq_self fun kind listed u known =>
    separateOutgoing_of_separated separated known (splitting kind listed)

/-- The flow into the end is divided unless an activity comes before the end. -/
theorem separateFinish_eq_self_iff {finish : Nat} : g.separateFinish finish = g ↔
    ∀ source ∈ (g.predecessors finish).head?, g.kind? source = some .activity := by
  unfold separateFinish
  cases first : (g.predecessors finish).head? with
  | none => simp
  | some source =>
    have present := mem_predecessors.1 (List.mem_of_mem_head? first)
    constructor
    · intro same other here
      cases here
      refine Classical.byContradiction fun isOther => not_mem_separate g ⟨source, finish⟩ ?_
      dsimp only at same
      rw [if_neg fun activity => isOther (hasKind_iff.1 activity)] at same
      rwa [same]
    · intro activity
      exact if_pos (hasKind_iff.2 (activity source rfl))

/-- The flow out of the start is divided unless an activity comes behind the start. -/
theorem separateStart_eq_self_iff {start : Nat} : g.separateStart start = g ↔
    ∀ target ∈ (g.successors start).head?, g.kind? target = some .activity := by
  unfold separateStart
  cases first : (g.successors start).head? with
  | none => simp
  | some target =>
    have present := mem_successors.1 (List.mem_of_mem_head? first)
    constructor
    · intro same other here
      cases here
      refine Classical.byContradiction fun isOther => not_mem_separate g ⟨start, target⟩ ?_
      dsimp only at same
      rw [if_neg fun activity => isOther (hasKind_iff.1 activity)] at same
      rwa [same]
    · intro activity
      exact if_pos (hasKind_iff.2 (activity target rfl))

/-- Preparation finds nothing to separate, as far as it gets: without an end event it does not
look at the start event. -/
structure Settled (g : Graph) : Prop where
  gateways : g.Separated
  before_finish : ∀ finish ∈ g.finish?, ∀ source ∈ (g.predecessors finish).head?,
    g.kind? source = some .activity
  after_start : ∀ _ ∈ g.finish?, ∀ start ∈ g.start?, ∀ target ∈ (g.successors start).head?,
    g.kind? target = some .activity

theorem finish?_separateGateways (g : Graph) : g.separateGateways.finish? = g.finish? := by
  rw [finish?, (subdivided_separateGateways g).nodesOf_eq (by decide), finish?]

/-- Without an end the gateways have been taken apart when the defect is found. -/
theorem simplify_unfinished (finishes : g.finish? = none) :
    g.simplify = (g.separateGateways, .error .missingEnd) := by
  unfold simplify
  dsimp only
  rw [finish?_separateGateways, finishes]

/-- Without a start the flow into the end has been divided as well when the defect is found. -/
theorem simplify_unstarted {finish : Nat} (finishes : g.finish? = some finish)
    (starts : g.start? = none) :
    g.simplify = (g.separateGateways.separateFinish finish, .error .missingStart) := by
  have starts : (g.separateGateways.separateFinish finish).start? = none := by
    rw [start?, ((subdivided_separateGateways g).trans
      (subdivided_separateFinish _ finish)).nodesOf_eq (by decide), ← starts, start?]
  unfold simplify
  dsimp only
  rw [finish?_separateGateways, finishes]
  dsimp only
  rw [starts]

/-- Also where preparation fails, it has put activities only where they belong. -/
theorem prepared_simplify (g : Graph) : Prepared g g.simplify.1 := by
  have first := (Prepared.refl g).separateGateways
  cases finishes : g.finish? with
  | none =>
    rw [simplify_unfinished finishes]
    dsimp only
    exact first
  | some finish =>
    have second := first.separateFinish ((mem_nodesOf .finish).1 (List.mem_of_mem_head? finishes))
    cases starts : g.start? with
    | none =>
      rw [simplify_unstarted finishes starts]
      dsimp only
      exact second
    | some start =>
      rw [simplify_eq starts finishes]
      dsimp only
      exact second.separateStart ((mem_nodesOf .start).1 (List.mem_of_mem_head? starts))

/-- The passes around the gateways leave a graph alone only if nothing was to be inserted. -/
theorem separateGateways_eq_self_iff : g.separateGateways = g ↔ g.Separated := by
  refine ⟨fun same => ?_, separateGateways_of_separated⟩
  have separated := separated_simplify (subdivided_separateGateways g) .same
  rwa [same] at separated

/-- A pass has to be idle if what comes of it and the later passes is the graph. -/
theorem Subdivided.idle {now : Graph} (before : Subdivided g now) (later : Subdivided now h)
    (same : h = g) : now = g := by
  subst same
  exact before.antisymm later

/-- Preparation leaves a graph as it is only if it finds nothing to separate. -/
theorem simplify_eq_self_iff (g : Graph) : g.simplify.1 = g ↔ g.Settled := by
  have first := subdivided_separateGateways g
  cases finishes : g.finish? with
  | none =>
    rw [simplify_unfinished finishes]
    dsimp only
    rw [separateGateways_eq_self_iff]
    refine ⟨fun separated => ⟨separated, ?_, ?_⟩, Settled.gateways⟩
    · simp [finishes]
    · simp [finishes]
  | some finish =>
    have second := subdivided_separateFinish g.separateGateways finish
    cases starts : g.start? with
    | none =>
      rw [simplify_unstarted finishes starts]
      dsimp only
      constructor
      · intro same
        have idle := first.idle second same
        rw [idle] at same
        refine ⟨separateGateways_eq_self_iff.1 idle, ?_, ?_⟩
        · simpa [finishes] using separateFinish_eq_self_iff.1 same
        · simp [starts]
      · intro settled
        rw [separateGateways_of_separated settled.gateways]
        exact separateFinish_eq_self_iff.2 (settled.before_finish finish finishes)
    | some start =>
      have third := subdivided_separateStart (g.separateGateways.separateFinish finish) start
      rw [simplify_eq starts finishes]
      dsimp only
      constructor
      -- all passes are idle, the first one because it is so whatever comes later
      · intro same
        have idle := first.idle (second.trans third) same
        have idle' := (first.trans second).idle third same
        rw [idle'] at same
        rw [idle] at idle'
        refine ⟨separateGateways_eq_self_iff.1 idle, ?_, ?_⟩
        · simpa [finishes] using separateFinish_eq_self_iff.1 idle'
        · simpa [finishes, starts] using separateStart_eq_self_iff.1 same
      · intro settled
        rw [separateGateways_of_separated settled.gateways,
          separateFinish_eq_self_iff.2 (settled.before_finish finish finishes)]
        exact separateStart_eq_self_iff.2 (settled.after_start finish finishes start starts)

end Graph

/-! ### What is left of a draft -/

/-- What a plan that has made the graph `h` of a draft leaves when it fails. A misuse is noticed
only when that graph has been closed. -/
def Fault.Leaves (h : Graph) : Fault → Workflow → Prop
  | .defect _, left => left = .draft h
  | .misuse _, left => ∃ c, left = .closed c ∧ c.graph = h

section Drafts

variable {g : Graph} {fault : Fault} {left : Workflow}

/-- Preparing leaves the draft that it has come to, also if it fails. -/
theorem Workflow.left_of_simplify {answer : Except Fault Nat}
    (ends : simplify.Ends (.draft g) answer left) : left = .draft g.simplify.1 :=
  ends.2.symm.trans simplify_draft

theorem Workflow.leaves_of_simplify (failed : simplify.Ends (.draft g) (.error fault) left) :
    fault.Leaves g.simplify.1 left := by
  have same := left_of_simplify failed
  have outcome := failed.1
  unfold simplify at outcome
  dsimp only at outcome
  split at outcome
  · cases outcome
    exact same
  · cases outcome

/-- A failed close leaves the draft. -/
theorem Workflow.leaves_of_close (failed : close.Ends (.draft g) (.error fault) left) :
    fault.Leaves g left := by
  have same : left = .draft g := failed.2.symm.trans (atomic_close _ fault failed.1)
  have outcome := failed.1
  unfold close at outcome
  dsimp only at outcome
  split at outcome
  · cases outcome
    exact same
  · cases outcome

theorem Workflow.closed_of_close (passed : close.Ends (.draft g) (.ok ()) left) :
    ∃ c, left = .closed c ∧ c.graph = g := by
  obtain ⟨outcome, rfl⟩ := passed
  unfold close at outcome ⊢
  dsimp only at outcome ⊢
  split at outcome
  · cases outcome
  · exact ⟨_, rfl, rfl⟩

namespace Plan

theorem prepare_draft (g : Graph) : prepare (.draft g) =
    (Workflow.simplify.within (.timed "SimplenessTransformation") >>= fun _ => pure [])
      (.draft g) := by
  have looked : ∀ next : Workflow → Run (List Annotation),
      (Run.current >>= next) (.draft g) = next (.draft g) (.draft g) := fun _ => rfl
  rw [prepare, looked]
  rfl

theorem leaves_of_prepare (failed : prepare.Ends (.draft g) (.error fault) left) :
    fault.Leaves g.simplify.1 left := by
  rw [Run.Ends, prepare_draft] at failed
  rcases Run.Ends.of_bind failed with early | ⟨_, _, -, late⟩
  · exact Workflow.leaves_of_simplify early.of_within
  · cases late.1

theorem left_of_prepare {notes : List Annotation}
    (passed : prepare.Ends (.draft g) (.ok notes) left) : left = .draft g.simplify.1 := by
  rw [← passed.2, prepare_draft, Run.state_answer, Run.state_within, Workflow.simplify_draft]

/-- A failed analysis leaves the draft when it could not be closed, else the closed workflow. -/
theorem leaves_of_runAnalyses {config : Config}
    (failed : (runAnalyses config).Ends (.draft g) (.error fault) left) : fault.Leaves g left := by
  have steps : (Workflow.close.within (.timed "EdgeAnalysis") >>= fun _ => do
      let workflow ← Run.current
      .ofReport do
        let E ← .ofMisuse workflow.edges
        let findings ← .timed "ControlFlowPlan" (analyze config workflow.name E)
        .log .info s!"{workflow.name}: {E.size} edges, {findings.length} annotations"
        return findings.map Finding.plain).Ends (.draft g) (.error fault) left := failed
  rcases steps.of_bind with early | ⟨_, between, closing, late⟩
  · exact Workflow.leaves_of_close early.of_within
  · obtain ⟨c, rfl, same⟩ := Workflow.closed_of_close closing.of_within
    obtain ⟨outcome, rfl⟩ := late
    cases fault with
    | misuse cause => exact ⟨c, rfl, same⟩
    | defect cause =>
      refine absurd outcome (Report.NoDefect.bind (Report.noDefect_ofMisuse _) (fun E => ?_) cause)
      exact ((noDefect_analyze config _ E).within _).bind fun _ =>
        (Report.noDefect_of_ok rfl).bind fun _ => Report.noDefect_of_ok rfl

theorem leaves_of_prepareAndAnalyze {config : Config}
    (failed : (prepareAndAnalyze config).Ends (.draft g) (.error fault) left) :
    fault.Leaves (if config.preparation then g.simplify.1 else g) left := by
  have analysed : ∀ {h : Graph} {prepared : List Annotation},
      ((controlFlow config).execute >>= fun found => pure (prepared ++ found)).Ends (.draft h)
        (.error fault) left → fault.Leaves h left := by
    intro h prepared failed
    rcases failed.of_bind with early | ⟨_, _, -, late⟩
    · exact leaves_of_runAnalyses early
    · cases late.1
  have steps : ((if config.preparation then preparation.execute else pure []) >>= fun prepared =>
      (controlFlow config).execute >>= fun found => pure (prepared ++ found)).Ends (.draft g)
        (.error fault) left := by
    refine Eq.mp (congrArg (fun run : Run (List Annotation) => run.Ends _ _ _) ?_) failed.of_within
    cases config.preparation with
    | true => rfl
    | false => rfl
  cases asked : config.preparation with
  | false =>
    rw [asked] at steps
    exact analysed steps
  | true =>
    rw [asked] at steps
    rcases steps.of_bind with early | ⟨_, between, passed, late⟩
    · exact leaves_of_prepare early
    · cases left_of_prepare passed
      exact analysed late

/-- What a plan leaves of a draft when it fails. The analysis plan leaves it as it was, or closed if
the fault is a misuse. A plan that prepares leaves the activities which preparation has put on the
flows that need one; that is the draft as it was only if preparation found nothing to separate. -/
theorem left_of_failure (g : Graph) (config : Config) (fault : Fault) (left : Workflow) :
    (preparation.execute.Ends (.draft g) (.error fault) left → fault.Leaves g.simplify.1 left) ∧
    ((controlFlow config).execute.Ends (.draft g) (.error fault) left → fault.Leaves g left) ∧
    ((complete config).execute.Ends (.draft g) (.error fault) left →
      fault.Leaves (if config.preparation then g.simplify.1 else g) left) ∧
    g.Prepared g.simplify.1 ∧ (g.simplify.1 = g ↔ g.Settled) :=
  ⟨leaves_of_prepare, leaves_of_runAnalyses, leaves_of_prepareAndAnalyze,
    Graph.prepared_simplify g, Graph.simplify_eq_self_iff g⟩

/-- A draft without an end event. -/
def unended : Graph where
  name := "unended"
  nodes := [⟨.start, []⟩, ⟨.fork, []⟩, ⟨.merge, []⟩]
  flows := [⟨0, 1⟩, ⟨1, 2⟩, ⟨1, 2⟩]
  flows_inside := by decide

/-- Preparation answers that the end event is missing and leaves another draft; the analysis plan
answers the same and leaves the draft as it was. -/
theorem left_of_unended :
    (∃ h, preparation.execute.Ends (.draft unended) (.error (.defect .missingEnd)) (.draft h) ∧
      h ≠ unended ∧ unended.Prepared h) ∧
    (controlFlow .comprehensive).execute.Ends (.draft unended) (.error (.defect .missingEnd))
      (.draft unended) := by
  have finishes : unended.finish? = none := by decide
  have unsettled : ¬ unended.Settled := fun settled =>
    absurd (settled.gateways.before ⟨1, 2⟩ (by decide) .merge rfl rfl) (by decide)
  have failing : ((preparation.execute) (.draft unended)).2.outcome =
      .error (.defect .missingEnd) := by
    decide +kernel
  have failing' : ((controlFlow .comprehensive).execute (.draft unended)).2.outcome =
      .error (.defect .missingEnd) := by
    decide +kernel
  obtain ⟨prepared, -, -, apart, same⟩ := left_of_failure unended .comprehensive
    (.defect .missingEnd) (preparation.execute (.draft unended)).1
  obtain ⟨-, analysed, -⟩ := left_of_failure unended .comprehensive (.defect .missingEnd)
    ((controlFlow .comprehensive).execute (.draft unended)).1
  have left : _ = _ := prepared ⟨failing, rfl⟩
  have kept : _ = _ := analysed ⟨failing', rfl⟩
  exact ⟨⟨_, ⟨failing, left⟩, fun idle => unsettled (same.1 idle), apart⟩, failing', kept⟩

end Plan
end Drafts
end WorkflowSoundness
