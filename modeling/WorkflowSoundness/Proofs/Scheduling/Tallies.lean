import WorkflowSoundness.Proofs.Scheduling.Verification
import WorkflowSoundness.Proofs.Showing

/-!
What one verification tells about the defects that it finds. A tally is a kind of defect with the
metric of its total and the metrics of its two parts. The analysis of the tally adds one to a part
for each finding and puts the total at its end (`calls_report`); no other part of a verification
calls the reporter for these keys, so this is all that is told of them (`told_total`, `told_part`).
-/

namespace WorkflowSoundness

section Rows

variable {α β : Type} {keys : List String} {key : String}

/-- A report tells nothing for a key that it does not keep to. -/
theorem Report.Tells.callsAt_eq_nil {report : Report α} (tells : report.Tells keys)
    (other : key ∉ keys) : callsAt key report.calls = [] :=
  WorkflowSoundness.callsAt_eq_nil fun _ member same => other (same ▸ tells.key_mem member)

namespace Report

/-- The calls for a key that is not one of the first part's are those of what comes after it. -/
theorem callsAt_then {first : Report α} {value : α} (tells : first.Tells keys)
    (passed : first.outcome = .ok value) (other : key ∉ keys) (next : α → Report β) :
    callsAt key (first >>= next).calls = callsAt key (next value).calls := by
  rw [calls_bind tells passed, callsAt_append, tells.callsAt_eq_nil other, List.nil_append]

/-- If nothing is told of a key later, the calls for it are those of the first part. -/
theorem callsAt_before {first : Report α} {value : α} {next : α → Report β}
    (tells : first.Tells keys) (passed : first.outcome = .ok value)
    (quiet : callsAt key (next value).calls = []) :
    callsAt key (first >>= next).calls = callsAt key first.calls := by
  rw [calls_bind tells passed, callsAt_append, quiet, List.append_nil]

/-- A section adds no calls for a key that is none of its own. -/
theorem callsAt_within {body : Report α} {value : α} (tells : body.Tells keys)
    (passed : body.outcome = .ok value) {part : Section}
    (other : key ∉ part.calls.map Call.key) :
    callsAt key (body.within part).calls = callsAt key body.calls := by
  have none : callsAt key part.calls = [] := WorkflowSoundness.callsAt_eq_nil
    fun _ member same => other (same ▸ List.mem_map_of_mem member)
  rw [calls_within tells (left_of_ok passed), callsAt_append, none, List.append_nil]

theorem calls_forM {f : α → Report Unit} (tells : ∀ a, (f a).Tells keys) (l : List α)
    (each : ∀ a, (f a).outcome = .ok ()) : (l.forM f).calls = l.flatMap fun a => (f a).calls := by
  induction l with
  | nil => rfl
  | cons a l ih =>
    rw [List.flatMap_cons, ← ih]
    exact calls_bind (tells a) (each a) fun _ => l.forM f

end Report

theorem Run.calls_bind {first : Run α} {value : α} {workflow between : Workflow}
    (tells : first.Tells keys) (ends : first.Ends workflow (.ok value) between)
    (next : α → Run β) : ((first >>= next) workflow).2.calls =
      (first workflow).2.calls ++ (next value between).2.calls := by
  have goes : Conduct.ofRun (first >>= next) workflow _ _ _ := ⟨rfl, rfl, rfl⟩
  rw [Conduct.ofRun_bind tells] at goes
  rcases goes with ⟨fault, ⟨-, -, failed⟩, -⟩ |
    ⟨answer, _, _, _, ⟨rfl, rfl, passed⟩, ⟨-, rfl, -⟩, joined⟩
  · rw [ends.1] at failed
    cases failed
  · rw [ends.1] at passed
    cases passed
    rw [joined, ends.2]

/-- A part that does not keep to a key can be left out of the calls for it. -/
theorem Run.callsAt_then {first : Run α} {value : α} {workflow between : Workflow}
    (tells : first.Tells keys) (ends : first.Ends workflow (.ok value) between)
    (other : key ∉ keys) (next : α → Run β) :
    callsAt key ((first >>= next) workflow).2.calls = callsAt key (next value between).2.calls := by
  rw [calls_bind tells ends, callsAt_append, (tells workflow).callsAt_eq_nil other, List.nil_append]

end Rows

/-! ### The calls of an analysis -/

/-- The defects that are counted. -/
inductive Tally where
  | deadlocks
  | abundances
  deriving DecidableEq, Repr

/-- A metric that counts the findings of one kind. -/
structure Tally.Part where
  key : String
  kind : AnnotationKind
  deriving DecidableEq, Repr

def Tally.Part.count (part : Tally.Part) (notes : List Annotation) : Nat :=
  notes.countP (·.kind == part.kind)

namespace Tally

def total : Tally → String
  | .deadlocks => Metric.deadlocks
  | .abundances => Metric.abundances

def normal : Tally → Part
  | .deadlocks => ⟨Metric.normalDeadlocks, .deadlock⟩
  | .abundances => ⟨Metric.normalAbundances, .abundance⟩

def loop : Tally → Part
  | .deadlocks => ⟨Metric.loopDeadlocks, .deadlockCycle⟩
  | .abundances => ⟨Metric.loopAbundances, .abundanceCycle⟩

def covers : Tally → AnnotationKind → Bool
  | .deadlocks => AnnotationKind.isDeadlock
  | .abundances => AnnotationKind.isAbundance

def selected : Tally → Config → Bool
  | .deadlocks => Config.deadlock
  | .abundances => Config.abundance

/-- The defects among some annotations. -/
def count (tally : Tally) (notes : List Annotation) : Nat :=
  notes.countP fun note => tally.covers note.kind

theorem covers_eq (tally : Tally) (kind : AnnotationKind) :
    tally.covers kind = (kind == tally.normal.kind || kind == tally.loop.kind) := by
  cases tally <;> cases kind <;> rfl

theorem count_eq (tally : Tally) (notes : List Annotation) :
    tally.count notes = tally.normal.count notes + tally.loop.count notes := by
  have apart : tally.normal.kind ≠ tally.loop.kind := by
    cases tally <;> decide
  unfold count Part.count
  induction notes with
  | nil => rfl
  | cons note notes ih =>
    rw [List.countP_cons, List.countP_cons, List.countP_cons, ih, covers_eq]
    by_cases normal : note.kind = tally.normal.kind
    · rw [normal, beq_self_eq_true, beq_eq_false_iff_ne.2 apart]
      simp only [Bool.true_or, if_true, Bool.false_eq_true, if_false]
      omega
    · rw [beq_eq_false_iff_ne.2 normal, Bool.false_or]
      simp only [Bool.false_eq_true, if_false]
      omega

/-- The name of the analysis. -/
def analysis : Tally → String
  | .deadlocks => Analysis.deadlockName
  | .abundances => Analysis.abundanceName

def visits : Tally → String
  | .deadlocks => "DEADLOCK_NUMBER_VISITED_EDGES"
  | .abundances => "ABUNDANCE_NUMBER_VISITED_EDGES"

/-- The part that a finding counts for. -/
def partOf (tally : Tally) (kind : AnnotationKind) : Part :=
  if kind = tally.loop.kind then tally.loop else tally.normal

/-- The calls for one finding. -/
def callsFor (tally : Tally) (kind : AnnotationKind) : List Call :=
  ⟨.add, (tally.partOf kind).key, some 1⟩ :: (Section.ignored tally.analysis).calls

/-- The calls of the analysis that finds defects of these kinds. -/
def calls (tally : Tally) (kinds : List AnnotationKind) (visits : Nat) : List Call :=
  kinds.flatMap tally.callsFor ++
    [⟨.put, tally.total, some kinds.length⟩, ⟨.put, tally.visits, some visits⟩] ++
    (Section.timed tally.analysis).calls

variable {E : EdgeGraph}

/-- The analysis that finds the defects. -/
def report (tally : Tally) (name : String) (E : EdgeGraph) : Report (List (Finding E)) :=
  match tally with
  | .deadlocks => Analysis.deadlocks name (E.dominanceOf .forward) E.executionOf
  | .abundances => Analysis.abundances name E.basisOf

/-- Its calls, if the configuration selects it. -/
def callsIn (tally : Tally) (config : Config) (name : String) (E : EdgeGraph) : List Call :=
  if tally.selected config then (tally.report name E).calls else []

def findings (tally : Tally) (E : EdgeGraph) : List (Finding E) :=
  match tally with
  | .deadlocks => E.deadlockFindings
  | .abundances => E.abundanceFindings

/-- Reporting a deadlock calls for the part that its kind belongs to. -/
theorem calls_reportDeadlock (name : String) (finding : Finding E) :
    (Analysis.reportDeadlock name finding).calls = Tally.deadlocks.callsFor finding.kind := by
  unfold Analysis.reportDeadlock
  split
  · rename_i cyclic
    rw [cyclic]
    rfl
  · rename_i other
    have normal : Tally.deadlocks.partOf finding.kind = Tally.deadlocks.normal := if_neg other
    rw [callsFor, normal]
    rfl

/-- Reporting a meeting calls for the part that its kind belongs to. -/
theorem calls_reportMeeting (name : String) (fork : Fin E.order) (meeting : Abundance.Meeting E) :
    (Analysis.reportMeeting name fork meeting).calls =
      Tally.abundances.callsFor (meeting.finding fork).kind := by
  unfold Analysis.reportMeeting Abundance.Meeting.finding
  cases meeting.cyclic with
  | true => rfl
  | false => rfl

/-- After what it tells on the way, an analysis puts its numbers and then its time. -/
theorem calls_ending {α : Type} {keys : List String} {survey : Report α} {found : α} (tally : Tally)
    (tells : survey.Tells keys) (passed : survey.outcome = .ok found)
    (answer : α → List (Finding E)) (visits : α → Nat) :
    (Report.timed tally.analysis do
      let found ← survey
      .put tally.total (answer found).length
      .put tally.visits (visits found)
      return answer found).calls =
      survey.calls ++
        [⟨.put, tally.total, some (answer found).length⟩,
          ⟨.put, tally.visits, some (visits found)⟩] ++
        (Section.timed tally.analysis).calls := by
  have body : (do
      let found ← survey
      .put tally.total (answer found).length
      .put tally.visits (visits found)
      return answer found : Report (List (Finding E))).Tells
        (tally.total :: tally.visits :: keys) :=
    (tells.mono fun _ listed => List.mem_cons_of_mem _ (List.mem_cons_of_mem _ listed)).bind
      fun _ => (Report.tells_put List.mem_cons_self _).bind fun _ =>
        (Report.tells_put (List.mem_cons_of_mem _ List.mem_cons_self) _).bind fun _ =>
          Report.tells_pure _
  refine (Report.calls_within body (Report.left_of_ok (Report.outcome_then passed rfl)) _).trans ?_
  rw [Report.calls_bind tells passed]
  rfl

/-- One call for each deadlock comes before the total and the visits. -/
theorem calls_deadlocks (valid : E.Valid) (name : String) : ∃ visits,
    (Analysis.deadlocks name (E.dominanceOf .forward) E.executionOf).calls =
      Tally.deadlocks.calls (E.deadlockFindings.map Finding.kind) visits := by
  obtain ⟨computed, found, value⟩ := valid.deadlock_eq
  have each := Analysis.tells_reportDeadlock (E := E) name
  have passes := Analysis.outcome_reportDeadlock (E := E) name
  refine ⟨computed.visits, ?_⟩
  unfold Analysis.deadlocks
  rw [found]
  refine (calls_ending .deadlocks (Report.tells_forM each computed.value)
    (Report.outcome_forM _ fun finding _ => passes finding) (fun _ => computed.value)
    fun _ => computed.visits).trans ?_
  rw [Report.calls_forM each _ passes, calls, List.flatMap_map, List.length_map, ← value]
  simp only [calls_reportDeadlock]

theorem calls_surveyFork (valid : E.Valid) (name : String) {fork : Fin E.order}
    (splitting : (E.kindOf fork).isSplitting = true) {memo : Abundance.Memo E}
    (sound : memo.Sound) :
    (Analysis.surveyFork name E.basisOf memo fork).calls =
      (E.meetingsOf fork).flatMap fun meeting =>
        Tally.abundances.callsFor (meeting.finding fork).kind := by
  obtain ⟨survey, kept, surveyed, -, meetings, -⟩ := valid.survey_eq splitting sound
  have each := Analysis.tells_reportMeeting name fork
  have passes := Analysis.outcome_reportMeeting name fork
  have silent : ∀ level message, (Report.log level message).calls = [] := fun _ _ => rfl
  have logs : ∀ level message, (Report.log level message).Tells [] := Report.tells_log
  unfold Analysis.surveyFork
  rw [surveyed, Report.ofMisuse, ← meetings]
  change (Report.log _ _ >>= fun _ => Report.log _ _ >>= fun _ =>
    survey.meetings.forM (Analysis.reportMeeting name fork) >>= fun _ =>
      pure (survey, kept)).calls =
      _
  rw [Report.calls_bind (logs _ _) (Report.outcome_log _ _), silent,
    Report.calls_bind (logs _ _) (Report.outcome_log _ _), silent,
    Report.calls_bind (Report.tells_forM each _)
      (Report.outcome_forM _ fun meeting _ => passes meeting),
    Report.calls_forM each _ passes]
  simp only [calls_reportMeeting]
  exact List.append_nil _

theorem calls_surveyForks (valid : E.Valid) (name : String) {forks : List (Fin E.order)}
    (splitting : ∀ fork ∈ forks, (E.kindOf fork).isSplitting = true) {memo : Abundance.Memo E}
    (sound : memo.Sound) :
    (Analysis.surveyForks name E.basisOf forks memo).calls =
      forks.flatMap fun fork => (E.meetingsOf fork).flatMap fun meeting =>
        Tally.abundances.callsFor (meeting.finding fork).kind := by
  induction forks generalizing memo with
  | nil => rfl
  | cons fork later ih =>
    have rest := fun other member => splitting other (List.mem_cons_of_mem fork member)
    obtain ⟨survey, kept, surveyed, -, -, still⟩ :=
      valid.outcome_surveyFork name (splitting fork List.mem_cons_self) sound
    obtain ⟨surveys, others, -⟩ := valid.outcome_surveyForks name rest still
    unfold Analysis.surveyForks
    rw [Report.calls_bind (Analysis.tells_surveyFork name E.basisOf memo fork) surveyed,
      Report.calls_bind (Analysis.tells_surveyForks name E.basisOf later kept) others,
      calls_surveyFork valid name (splitting fork List.mem_cons_self) sound, ih rest still,
      List.flatMap_cons]
    exact congrArg _ (List.append_nil _)

/-- One call for each abundance comes before the total and the visits. -/
theorem calls_abundances (valid : E.Valid) (name : String) : ∃ visits,
    (Analysis.abundances name E.basisOf).calls =
      Tally.abundances.calls (E.abundanceFindings.map Finding.kind) visits := by
  have splitting : ∀ fork ∈ Abundance.forks E, (E.kindOf fork).isSplitting = true :=
    fun fork member => NodeKind.isSplitting_of_isForking (EdgeGraph.mem_forks.1 member)
  obtain ⟨surveys, surveyed, findings⟩ :=
    valid.outcome_surveyForks name splitting Abundance.Memo.sound_empty
  have told := calls_surveyForks valid name splitting Abundance.Memo.sound_empty
  have ended := calls_ending .abundances
    (Analysis.tells_surveyForks name E.basisOf (Abundance.forks E) (.empty E)) surveyed
    (fun surveys => surveys.flatMap fun survey =>
      survey.meetings.map (Abundance.Meeting.finding survey.fork)) Abundance.visits
  have same : surveys.flatMap (fun survey =>
      survey.meetings.map (Abundance.Meeting.finding survey.fork)) = E.abundanceFindings := findings
  refine ⟨Abundance.visits surveys, ended.trans ?_⟩
  rw [told, same, Tally.calls, List.length_map, EdgeGraph.abundanceFindings, List.map_flatMap,
    List.flatMap_assoc]
  simp only [List.map_map, List.flatMap_map, Function.comp_def]

theorem calls_report (valid : E.Valid) (tally : Tally) (name : String) : ∃ visits,
    (tally.report name E).calls = tally.calls ((tally.findings E).map Finding.kind) visits :=
  match tally with
  | .deadlocks => calls_deadlocks valid name
  | .abundances => calls_abundances valid name

/-! ### The calls for one key -/

def parts (tally : Tally) : List Part :=
  [tally.normal, tally.loop]

theorem callsAt_flatMap {α : Type} (key : String) (f : α → List Call) (l : List α) :
    callsAt key (l.flatMap f) = l.flatMap fun a => callsAt key (f a) :=
  List.filter_flatMap ..

theorem flatMap_eq_replicate {α β : Type} (p : α → Bool) (b : β) (l : List α) :
    (l.flatMap fun a => if p a then [b] else []) = List.replicate (l.countP p) b := by
  induction l with
  | nil => rfl
  | cons a l ih =>
    rw [List.flatMap_cons, List.countP_cons, ih]
    cases p a with
    | true => rfl
    | false => rfl

/-- The total is put once, with the number of findings. -/
theorem callsAt_total (tally : Tally) (kinds : List AnnotationKind) (visits : Nat) :
    callsAt tally.total (tally.calls kinds visits) =
      [⟨.put, tally.total, some kinds.length⟩] := by
  have none : ∀ kind, callsAt tally.total (tally.callsFor kind) = [] := fun kind => by
    cases tally <;> cases kind <;> decide
  rw [calls, callsAt_append, callsAt_append, callsAt_flatMap,
    List.flatMap_eq_nil_iff.2 fun kind _ => none kind]
  cases tally with
  | deadlocks => rfl
  | abundances => rfl

/-- A part is added to once for each finding of its kind. -/
theorem callsAt_part {tally : Tally} {part : Part} (own : part ∈ tally.parts)
    (kinds : List AnnotationKind) (visits : Nat) :
    callsAt part.key (tally.calls kinds visits) =
      List.replicate (kinds.countP fun kind => tally.partOf kind == part)
        ⟨.add, part.key, some 1⟩ := by
  have apart : part.key ∉ [tally.total, tally.visits, Metric.time tally.analysis] := by
    revert part
    cases tally <;> decide
  have one : ∀ kind, callsAt part.key (tally.callsFor kind) =
      if tally.partOf kind == part then [⟨.add, part.key, some 1⟩] else [] := fun kind => by
    revert part
    cases tally <;> cases kind <;> decide
  have other : callsAt part.key
      ([⟨.put, tally.total, some kinds.length⟩, ⟨.put, tally.visits, some visits⟩] ++
        (Section.timed tally.analysis).calls) = [] :=
    callsAt_eq_nil fun call member same => apart (same ▸ List.mem_map_of_mem member)
  rw [calls, List.append_assoc, callsAt_append, other, List.append_nil, callsAt_flatMap]
  simp only [one]
  exact flatMap_eq_replicate _ _ kinds

theorem covers_part {tally : Tally} {part : Part} (own : part ∈ tally.parts) :
    tally.covers part.kind = true := by
  revert part
  cases tally <;> decide

/-- The part of a kind that the tally covers is the one of that kind. -/
theorem partOf_beq {tally : Tally} {part : Part} (own : part ∈ tally.parts)
    {kind : AnnotationKind} (covered : tally.covers kind = true) :
    (tally.partOf kind == part) = (kind == part.kind) := by
  revert part
  cases tally <;> cases kind <;> first | exact absurd covered (by decide) | decide

/-! ### What the findings are -/

theorem covers_findings {tally : Tally} {finding : Finding E}
    (member : finding ∈ tally.findings E) : tally.covers finding.kind = true :=
  match tally with
  | .deadlocks => EdgeGraph.isDeadlock_of_deadlocks member
  | .abundances => EdgeGraph.isAbundance_of_abundances member

/-- No kind belongs to two tallies. -/
theorem not_covers_of_ne {tally other : Tally} (apart : other ≠ tally) {kind : AnnotationKind}
    (covered : other.covers kind = true) : tally.covers kind ≠ true := by
  revert covered
  cases tally <;> cases other <;> cases kind <;> first | exact absurd rfl apart | decide

/-- What a tally covers among the findings of a configuration is what its analysis finds. -/
theorem countP_selected (tally : Tally) (config : Config) {p : AnnotationKind → Bool}
    (narrow : ∀ kind, p kind = true → tally.covers kind = true) :
    ((E.selected config).map Finding.plain).countP (fun note => p note.kind) =
      if tally.selected config then
        (tally.findings E).countP fun finding => p finding.kind
      else
        0 := by
  have none : ∀ {l : List (Finding E)}, (∀ finding ∈ l, tally.covers finding.kind ≠ true) →
      l.countP (fun finding => p finding.kind) = 0 := fun other =>
    List.countP_eq_zero.2 fun finding member counts => other finding member (narrow _ counts)
  have waits : (if config.waitingArea then E.waitFindings else []).countP
      (fun finding => p finding.kind) = 0 := none fun finding member => by
    rw [EdgeGraph.kind_of_waits (List.mem_ite_nil_right.1 member).2]
    cases tally <;> decide
  rw [List.countP_map]
  change (E.selected config).countP (fun finding => p finding.kind) = _
  rw [EdgeGraph.selected, List.countP_append, List.countP_append, waits, Nat.zero_add]
  cases tally with
  | deadlocks =>
    have others : (if config.abundance then E.abundanceFindings else []).countP
        (fun finding => p finding.kind) = 0 := none fun finding member => by
      have apart : Tally.abundances ≠ .deadlocks := by decide
      have covered : Tally.abundances.covers finding.kind = true :=
        EdgeGraph.isAbundance_of_abundances (List.mem_ite_nil_right.1 member).2
      exact not_covers_of_ne apart covered
    rw [others, Nat.add_zero]
    exact apply_ite (List.countP _) _ _ _
  | abundances =>
    have others : (if config.deadlock then E.deadlockFindings else []).countP
        (fun finding => p finding.kind) = 0 := none fun finding member => by
      have apart : Tally.deadlocks ≠ .abundances := by decide
      have covered : Tally.deadlocks.covers finding.kind = true :=
        EdgeGraph.isDeadlock_of_deadlocks (List.mem_ite_nil_right.1 member).2
      exact not_covers_of_ne apart covered
    rw [others, Nat.zero_add]
    exact apply_ite (List.countP _) _ _ _

end Tally

/-! ### The calls of a verification -/

namespace Tally

def keys (tally : Tally) : List String :=
  tally.total :: tally.parts.map Part.key

variable {tally : Tally} {key : String} {config : Config} {E : EdgeGraph}

theorem not_mem_keys (own : key ∈ tally.keys) {others : List String}
    (apart : ∀ key ∈ Tally.deadlocks.keys ++ Tally.abundances.keys, key ∉ others) :
    key ∉ others := by
  refine apart key ?_
  cases tally with
  | deadlocks => exact List.mem_append_left _ own
  | abundances => exact List.mem_append_right _ own

/-- Only the analysis of the tally tells its keys. -/
theorem callsAt_analyze (valid : E.Valid) (own : key ∈ tally.keys) (name : String) :
    callsAt key (Plan.analyze config name E).calls =
      callsAt key (tally.callsIn config name E) := by
  obtain ⟨areas, looked⟩ := Plan.exists_areas valid config name
  have deadlocks := Plan.outcome_deadlocks valid config name
  have abundances := Plan.outcome_abundances valid config name
  rw [Plan.analyze_eq]
  -- The analyses that the others build on and the waiting areas keep to other keys.
  refine (Report.callsAt_then (Analysis.tells_dominance name E .forward)
    (Analysis.outcome_dominance name E .forward) (not_mem_keys own (by decide)) _).trans ?_
  refine (Report.callsAt_then (Analysis.tells_dominance name E .backward)
    (Analysis.outcome_dominance name E .backward) (not_mem_keys own (by decide)) _).trans ?_
  refine (Report.callsAt_then (Analysis.tells_components E) (Analysis.outcome_components E)
    (not_mem_keys own (by decide)) _).trans ?_
  refine (Report.callsAt_then (Analysis.tells_execution name E) (valid.outcome_execution name)
    (not_mem_keys own (by decide)) _).trans ?_
  refine (Report.callsAt_then (Plan.tells_areas config name _ _) looked
    (not_mem_keys own (by decide)) _).trans ?_
  cases tally with
  | deadlocks =>
    have other : key ∉ Analysis.abundancesKeys := by
      revert key
      decide
    refine (Report.callsAt_before (Plan.tells_deadlocks config name _ _) deadlocks
      (Report.callsAt_then (Plan.tells_abundances config name _) abundances other _)).trans ?_
    exact congrArg _ (apply_ite Report.calls _ _ _)
  | abundances =>
    have other : key ∉ Analysis.deadlocksKeys := by
      revert key
      decide
    refine (Report.callsAt_then (Plan.tells_deadlocks config name _ _) deadlocks other _).trans ?_
    refine (Report.callsAt_before (Plan.tells_abundances config name _) abundances rfl).trans ?_
    exact congrArg _ (apply_ite Report.calls _ _ _)

/-- Neither preparing nor closing tells a key of a tally. -/
theorem callsAt_verifyWith {workflow prepared : Workflow} {c : ClosedGraph}
    (accepted : workflow.graph.validate = .ok ())
    (prepares : (Plan.preparing config).Ends workflow (.ok []) prepared)
    (closes : Plan.closing.Ends prepared (.ok ()) (.closed c)) (valid : c.edges.Valid)
    (own : key ∈ tally.keys) : callsAt key (verifyWith config workflow).2.calls =
      callsAt key (tally.callsIn config c.graph.name c.edges) := by
  rw [Plan.verifyWith_eq, Plan.prepareAndAnalyze_eq]
  refine (Run.callsAt_then Plan.tells_accepting (Plan.ends_accepting accepted) List.not_mem_nil
    _).trans ?_
  have planned : key ∉ (Section.plan "WorkflowGraphPlan").calls.map Call.key :=
    not_mem_keys own (by decide)
  have timed : key ∉ (Section.timed "ControlFlowPlan").calls.map Call.key :=
    not_mem_keys own (by decide)
  refine (Report.callsAt_within (Plan.tells_prepared config workflow)
    (Plan.ends_prepared prepares closes valid).1 planned).trans ?_
  refine (Run.callsAt_then (Plan.tells_preparing config) prepares (not_mem_keys own (by decide))
    _).trans ?_
  rw [Run.calls_bind (Plan.tells_runAnalyses config) (Plan.ends_running closes valid)]
  refine (congrArg (callsAt key) (List.append_nil _)).trans ?_
  rw [Plan.runAnalyses_eq]
  refine (Run.callsAt_then Plan.tells_closing closes (not_mem_keys own (by decide)) _).trans ?_
  refine (Run.callsAt_then Run.tells_current Run.ends_current List.not_mem_nil _).trans ?_
  have told := Plan.tells_analyze config c.graph.name c.edges
  have inside : (Report.timed "ControlFlowPlan" (Plan.analyze config c.graph.name c.edges)).Tells
      (Metric.time "ControlFlowPlan" :: Plan.analysisKeys) :=
    (told.mono (List.subset_cons_self _ _)).within (by decide)
  have passed := valid.outcome_analyze config c.graph.name
  change callsAt key (Report.ofMisuse (.ok c.edges) >>= _).calls = _
  refine (Report.callsAt_then (Report.tells_ofMisuse _) (Report.outcome_ofMisuse rfl)
    List.not_mem_nil _).trans ?_
  refine (Report.callsAt_before inside ((Report.outcome_timed _ _).trans passed) rfl).trans ?_
  refine (Report.callsAt_within told passed timed).trans ?_
  exact callsAt_analyze valid own c.graph.name

end Tally

section Told

variable {config : Config} {workflow after : Workflow} {calls : List Call}

/-- Whatever the schedule, a verification tells of the defects of a tally what the analysis of the
graph that it leaves tells. -/
theorem exists_told {outcome : Except Fault (List Annotation)}
    (accepted : workflow.graph.validate = .ok ())
    (goes : Plan.verifying config workflow after calls outcome) : ∃ c : ClosedGraph,
      c.edges.Valid ∧ outcome = .ok ((c.edges.selected config).map Finding.plain) ∧
      ∀ tally : Tally, ∀ key ∈ tally.keys,
        callsAt key calls = callsAt key (tally.callsIn config c.graph.name c.edges) := by
  obtain ⟨prepared, prepares, kept⟩ :=
    Plan.exists_preparing accepted { config with parallel := false }
  obtain ⟨c, closes, valid⟩ := Plan.exists_closing kept
  obtain ⟨calls', serial, alike⟩ := Plan.serializes_verifying accepted config goes
  rw [Plan.verifying_serial rfl] at serial
  obtain ⟨-, rfl, rfl⟩ := serial
  refine ⟨c, valid, (Plan.ends_verifyWith accepted prepares closes valid).1, ?_⟩
  intro tally key own
  have same : tally.selected { config with parallel := false } = tally.selected config := by
    cases tally <;> rfl
  rw [alike key, Tally.callsAt_verifyWith accepted prepares closes valid own, Tally.callsIn, same]
  rfl

variable {notes : List Annotation} (accepted : workflow.graph.validate = .ok ())
  (goes : Plan.verifying config workflow after calls (.ok notes)) (tally : Tally)

include accepted goes

/-- The total is put once, if the analysis is selected. -/
theorem told_total : callsAt tally.total calls =
    if tally.selected config then [⟨.put, tally.total, some (tally.count notes)⟩] else [] := by
  obtain ⟨c, valid, same, told⟩ := exists_told accepted goes
  cases same
  rw [told tally _ List.mem_cons_self, Tally.callsIn]
  cases selected : tally.selected config with
  | false => rfl
  | true =>
    obtain ⟨visits, reports⟩ := tally.calls_report valid c.graph.name
    have counted : tally.count ((c.edges.selected config).map Finding.plain) =
        (tally.findings c.edges).length := by
      refine (tally.countP_selected config fun _ covered => covered).trans ?_
      rw [if_pos selected]
      exact List.countP_eq_length.2 fun finding member => Tally.covers_findings member
    rw [if_pos rfl, if_pos rfl, reports, Tally.callsAt_total, List.length_map, counted]

/-- A part is added one for each finding of its kind. -/
theorem told_part {part : Tally.Part} (own : part ∈ tally.parts) : callsAt part.key calls =
    List.replicate (part.count notes) ⟨.add, part.key, some 1⟩ := by
  obtain ⟨c, valid, same, told⟩ := exists_told accepted goes
  cases same
  have narrow : ∀ kind, (kind == part.kind) = true → tally.covers kind = true := fun kind same => by
    rw [beq_iff_eq.1 same]
    exact Tally.covers_part own
  have counted : part.count ((c.edges.selected config).map Finding.plain) = _ :=
    tally.countP_selected config narrow
  rw [told tally _ (List.mem_cons_of_mem _ (List.mem_map_of_mem own)), counted, Tally.callsIn]
  cases selected : tally.selected config with
  | false => rfl
  | true =>
    obtain ⟨visits, reports⟩ := tally.calls_report valid c.graph.name
    rw [if_pos rfl, if_pos rfl, reports, Tally.callsAt_part own, List.countP_map]
    refine congrArg (List.replicate · _) (List.countP_congr fun finding member => ?_)
    exact iff_of_eq (congrArg (· = true) (Tally.partOf_beq own (Tally.covers_findings member)))

end Told
end WorkflowSoundness
