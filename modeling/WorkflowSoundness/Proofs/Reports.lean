import WorkflowSoundness.Counted
import WorkflowSoundness.Workflow

/-!
What a composed computation answers. Visits do not change a counted value, and events do not
change the outcome of a report; a run hands its workflow on from step to step.
-/

namespace WorkflowSoundness

variable {α β : Type}

/-- If each call answers, so does the whole row. -/
theorem exceptMapM_eq_ok {ε : Type} {f : α → Except ε β} {h : α → β} {l : List α}
    (each : ∀ a ∈ l, f a = .ok (h a)) : l.mapM f = .ok (l.map h) := by
  induction l with
  | nil => rfl
  | cons a l ih =>
    rw [List.mapM_cons, each a List.mem_cons_self,
      ih fun b member => each b (List.mem_cons_of_mem a member)]
    rfl

theorem Counted.value_mapM (f : α → Counted β) (l : List α) :
    (l.mapM f).value = l.map fun a => (f a).value := by
  induction l with
  | nil => rfl
  | cons a l ih => rw [List.mapM_cons, value_bind, value_bind, ih, value_pure, List.map_cons]

namespace Report

@[simp] theorem outcome_pure (a : α) : (pure a : Report α).outcome = .ok a :=
  rfl

@[simp] theorem outcome_bind (first : Report α) (next : α → Report β) :
    (first >>= next).outcome = first.outcome >>= fun value => (next value).outcome := by
  obtain ⟨events, outcome⟩ := first
  cases outcome <;> rfl

/-- A step that passes, and what comes after it. -/
theorem outcome_then {first : Report α} {next : α → Report β} {value : α} {answer : Except Fault β}
    (passed : first.outcome = .ok value) (rest : (next value).outcome = answer) :
    (first >>= next).outcome = answer := by
  rw [outcome_bind, passed]
  exact rest

@[simp] theorem outcome_put (key : String) (value : Nat) : (put key value).outcome = .ok () :=
  rfl

@[simp] theorem outcome_add (key : String) (delta : Nat) : (add key delta).outcome = .ok () :=
  rfl

@[simp] theorem outcome_log (level : Level) (message : String) :
    (log level message).outcome = .ok () :=
  rfl

@[simp] theorem outcome_within (part : Section) (body : Report α) :
    (body.within part).outcome = body.outcome := by
  unfold within
  split
  · rfl
  · rfl

@[simp] theorem outcome_timed (name : String) (body : Report α) :
    (timed name body).outcome = body.outcome :=
  outcome_within _ body

@[simp] theorem outcome_ignored (name : String) (body : Report α) :
    (ignored name body).outcome = body.outcome :=
  outcome_within _ body

theorem outcome_ofMisuse {checked : Except Misuse α} {a : α} (passed : checked = .ok a) :
    (ofMisuse checked).outcome = .ok a := by
  rw [passed]
  rfl

theorem outcome_ofDefect {checked : Except Defect α} {a : α} (passed : checked = .ok a) :
    (ofDefect checked).outcome = .ok a := by
  rw [passed]
  rfl

/-- Telling about each entry of a list does not fail if no single one does. -/
theorem outcome_forM {f : α → Report Unit} (l : List α) (each : ∀ a ∈ l, (f a).outcome = .ok ()) :
    (l.forM f).outcome = .ok () := by
  induction l with
  | nil => rfl
  | cons a l ih =>
    change (f a >>= fun _ => l.forM f).outcome = .ok ()
    rw [outcome_bind, each a List.mem_cons_self]
    exact ih fun b member => each b (List.mem_cons_of_mem a member)

end Report

namespace Run

variable {workflow between final : Workflow}

/-- What a run answers and leaves behind. -/
def Ends (run : Run α) (workflow : Workflow) (answer : Except Fault α) (final : Workflow) : Prop :=
  (run workflow).2.outcome = answer ∧ (run workflow).1 = final

/-- The next run starts from the workflow that the first one leaves. -/
theorem Ends.bind {first : Run α} {next : α → Run β} {value : α} {answer : Except Fault β}
    (passed : first.Ends workflow (.ok value) between)
    (rest : (next value).Ends between answer final) :
    (first >>= next).Ends workflow answer final := by
  obtain ⟨outcome, after⟩ := passed
  unfold Ends at rest ⊢
  change (Run.bind first next workflow).2.outcome = _ ∧ (Run.bind first next workflow).1 = _
  unfold Run.bind
  revert outcome after
  generalize first workflow = answered
  obtain ⟨_, events, outcome⟩ := answered
  intro passed after
  have passed : outcome = .ok value := passed
  subst passed after
  exact rest

/-- A section changes neither the answer nor the workflow that is left. -/
theorem Ends.within {body : Run α} {answer : Except Fault α} (part : Section)
    (ends : body.Ends workflow answer final) : (body.within part).Ends workflow answer final :=
  ⟨(Report.outcome_within part _).trans ends.1, ends.2⟩

theorem ends_pure (value : α) : (pure value : Run α).Ends workflow (.ok value) workflow :=
  ⟨rfl, rfl⟩

theorem ends_current : Run.current.Ends workflow (.ok workflow) workflow :=
  ⟨rfl, rfl⟩

theorem ends_ofReport {report : Report α} {answer : Except Fault α}
    (told : report.outcome = answer) : (Run.ofReport report).Ends workflow answer workflow :=
  ⟨told, rfl⟩

end Run
end WorkflowSoundness
