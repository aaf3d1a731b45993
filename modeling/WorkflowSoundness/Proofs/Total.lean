import WorkflowSoundness.Proofs.Halting
import WorkflowSoundness.Proofs.Preparation
import WorkflowSoundness.Proofs.Verify

/-!
Verification of any draft, under any configuration, is all or nothing. A draft that breaks a rule
is handed back as it is with that defect, and nothing has been told; any other is closed, with the
rules still in force, and its findings are returned (`verifyWith_draft`).
-/

namespace WorkflowSoundness

variable {g : Graph} {config : Config}

/-- A defect of the draft is answered before anything is done. -/
theorem verifyWith_of_defect {cause : Defect} (broken : g.validate = .error cause) :
    verifyWith config (.draft g) = (.draft g, ⟨[], .error (.defect cause)⟩) := by
  have step : verifyWith config (.draft g) =
      (Run.ofReport (.ofDefect g.validate) >>= fun _ => (Plan.complete config).execute)
        (.draft g) := rfl
  rw [step, broken]
  rfl

theorem Run.Ends.eq {α : Type} {run : Run α} {workflow final : Workflow} {value : α}
    (ends : run.Ends workflow (.ok value) final) :
    ∃ events, run workflow = (final, ⟨events, .ok value⟩) := by
  obtain ⟨outcome, after⟩ := ends
  refine ⟨(run workflow).2.events, Prod.ext after ?_⟩
  rw [← outcome]

/-- An accepted draft can be closed. -/
theorem exists_closed (accepted : g.validate = .ok ()) :
    ∃ E, EdgeGraph.ofGraph g = .ok E ∧ E.Valid := by
  obtain ⟨start, finish, rules⟩ := Graph.validate_eq_ok_iff.1 accepted
  obtain ⟨E, closed⟩ := EdgeGraph.exists_ofGraph_of_obeys rules
  exact ⟨E, closed, EdgeGraph.valid_of_validate accepted closed⟩

/-- Verification of a draft answers the defect that validation finds, with the draft as it was and
not one event; and if there is none, it answers with its findings and leaves the prepared graph
closed. That graph obeys the rules, and all loops over its edges end. -/
theorem verifyWith_draft (g : Graph) (config : Config) :
    match g.validate with
    | .error cause =>
      verifyWith config (.draft g) = (.draft g, ⟨[], .error (.defect cause)⟩)
    | .ok () => ∃ (c : ClosedGraph) (events : List Event) (notes : List Annotation),
      verifyWith config (.draft g) = (.closed c, ⟨events, .ok notes⟩) ∧
        c.graph = (if config.preparation then g.simplify.1 else g) ∧
        c.graph.validate = .ok () ∧ c.edges.Halts := by
  cases accepted : g.validate with
  | error cause => exact verifyWith_of_defect accepted
  | ok _ =>
    cases prepares : config.preparation with
    | false =>
      obtain ⟨E, closed, valid⟩ := exists_closed accepted
      obtain ⟨events, answered⟩ :=
        (ends_verifyWith_unprepared prepares accepted closed valid).eq
      exact ⟨⟨g, E, closed⟩, events, _, answered, rfl, accepted, E.halts⟩
    | true =>
      obtain ⟨simple, simplified, kept⟩ := Graph.exists_simplify accepted
      obtain ⟨E, closed, valid⟩ := exists_closed kept
      obtain ⟨events, answered⟩ :=
        (ends_verifyWith_prepared prepares accepted simplified closed valid).eq
      refine ⟨⟨simple, E, closed⟩, events, _, answered, ?_, kept, E.halts⟩
      rw [if_pos rfl, simplified]

end WorkflowSoundness
