import WorkflowSoundness.Proofs.Scheduling.Tallies

/-!
The defect metrics of a store that many verifications report to. A total is put by each run that
counts its defects, so it is the total of the latest such run; the parts are only added to, so they
sum up over all runs under the name (`part_of_history`). Hence the parts make up the total exactly
as long as no earlier run under that name found such a defect (`tally_of_history`).
-/

namespace WorkflowSoundness

/-- A verification that was reported: the name of its graph, its configuration and its answer. -/
structure Verification where
  name : String
  config : Config
  notes : List Annotation

/-- What a store that was empty at first keeps after some verifications of valid workflows, drafts
or closed ones, have reported to it. The latest comes first. -/
inductive History : List Verification → MetricStore → Prop where
  | start : History [] .empty
  | run {earlier : List Verification} {store : MetricStore} {config : Config}
      {workflow after : Workflow} {calls : List Call} {notes : List Annotation}
      {made : List ReporterCall} (before : History earlier store)
      (accepted : workflow.graph.validate = .ok ())
      (goes : Plan.verifying config workflow after calls (.ok notes))
      (fills : Fills workflow.name calls made) :
      History (⟨workflow.name, config, notes⟩ :: earlier) (store.serveAll made)

/-- What the verifications of graphs of one name found. -/
def notesOf (name : String) (runs : List Verification) : List Annotation :=
  (runs.filter (·.name == name)).flatMap Verification.notes

theorem notesOf_cons_self (run : Verification) (earlier : List Verification) :
    notesOf run.name (run :: earlier) = run.notes ++ notesOf run.name earlier := by
  rw [notesOf, List.filter_cons_of_pos (by exact beq_self_eq_true run.name), List.flatMap_cons]
  rfl

theorem notesOf_cons_of_ne {name : String} {run : Verification} (other : run.name ≠ name)
    (earlier : List Verification) : notesOf name (run :: earlier) = notesOf name earlier := by
  rw [notesOf, List.filter_cons_of_neg (by exact fun same => other (beq_iff_eq.1 same))]
  rfl

theorem Tally.Part.count_append (part : Tally.Part) (notes later : List Annotation) :
    part.count (notes ++ later) = part.count notes + part.count later :=
  List.countP_append

/-! ### One run -/

/-- Adding one again and again. -/
theorem getD_foldl_change (key : String) (n : Nat) (old : Option Nat) :
    ((List.replicate n (⟨.add, key, some 1⟩ : Call)).foldl
      (fun old call => call.change old) old).getD 0 = old.getD 0 + n := by
  induction n generalizing old with
  | zero => rfl
  | succ n ih =>
    rw [List.replicate_succ, List.foldl_cons, ih]
    change old.getD 0 + 1 + n = _
    omega

section Run

variable {config : Config} {workflow after : Workflow} {calls : List Call}
  {notes : List Annotation} {made : List ReporterCall}
  (accepted : workflow.graph.validate = .ok ())
  (goes : Plan.verifying config workflow after calls (.ok notes))
  (fills : Fills workflow.name calls made) {tally : Tally} (store : MetricStore)

include accepted goes fills

theorem get?_total_of_run (selected : tally.selected config = true) :
    (store.serveAll made).get? workflow.name tally.total = some (tally.count notes) := by
  have told := told_total accepted goes tally
  rw [if_pos selected] at told
  refine get?_serveAll_of_told store fills told fun call member => ?_
  cases List.mem_singleton.1 member
  exact Option.some_ne_none _

theorem get?_part_of_run {part : Tally.Part} (own : part ∈ tally.parts) :
    ((store.serveAll made).get? workflow.name part.key).getD 0 =
      (store.get? workflow.name part.key).getD 0 + part.count notes := by
  rw [get?_serveAll_of_told store fills (told_part accepted goes tally own) fun call member => by
    cases List.eq_of_mem_replicate member
    exact Option.some_ne_none _]
  exact getD_foldl_change part.key _ _

end Run

/-! ### Many runs -/

variable {runs earlier : List Verification} {run : Verification} {store : MetricStore}

/-- A part counts the findings of its kind in all runs under the name. -/
theorem part_of_history {tally : Tally} {part : Tally.Part} (own : part ∈ tally.parts)
    (history : History runs store) (name : String) :
    (store.get? name part.key).getD 0 = part.count (notesOf name runs) := by
  induction history with
  | start => rfl
  | @run earlier store config workflow _ _ notes _ _ accepted goes fills ih =>
    by_cases same : workflow.name = name
    · subst same
      rw [get?_part_of_run accepted goes fills store own, ih,
        notesOf_cons_self ⟨workflow.name, config, notes⟩ earlier, part.count_append, Nat.add_comm]
    · rw [get?_serveAll_of_ne store fills (Ne.symm same), ih, notesOf_cons_of_ne same]

/-- After a run that counts its defects the total is that of the run, and each part that of all runs
under its name. So the parts make up the total if and only if no earlier run under the name found
such a defect. -/
theorem tally_of_history (history : History (run :: earlier) store) (tally : Tally)
    (selected : tally.selected run.config = true) :
    store.get? run.name tally.total = some (tally.count run.notes) ∧
      (∀ part ∈ tally.parts, (store.get? run.name part.key).getD 0 =
        part.count run.notes + part.count (notesOf run.name earlier)) ∧
      ((store.get? run.name tally.total).getD 0 =
          (store.get? run.name tally.normal.key).getD 0 +
            (store.get? run.name tally.loop.key).getD 0 ↔
        tally.count (notesOf run.name earlier) = 0) := by
  have total : store.get? run.name tally.total = some (tally.count run.notes) := by
    cases history with
    | run _ accepted goes fills => exact get?_total_of_run accepted goes fills _ selected
  have parts : ∀ part ∈ tally.parts, (store.get? run.name part.key).getD 0 =
      part.count run.notes + part.count (notesOf run.name earlier) := fun part own => by
    rw [part_of_history own history, notesOf_cons_self, part.count_append]
  refine ⟨total, parts, ?_⟩
  rw [total, parts _ List.mem_cons_self, parts _ (List.mem_cons_of_mem _ List.mem_cons_self),
    Option.getD_some, Tally.count_eq, Tally.count_eq]
  omega

/-- A choice whose branches a join waits for, and behind it a fork whose branches a merge brings
together. -/
def Graph.mismatched : Graph where
  name := "mismatched"
  nodes := [⟨.start, []⟩, ⟨.split, []⟩, ⟨.activity, []⟩, ⟨.activity, []⟩, ⟨.join, []⟩,
    ⟨.activity, []⟩, ⟨.fork, []⟩, ⟨.activity, []⟩, ⟨.activity, []⟩, ⟨.merge, []⟩, ⟨.finish, []⟩]
  flows := [⟨0, 1⟩, ⟨1, 2⟩, ⟨1, 3⟩, ⟨2, 4⟩, ⟨3, 4⟩, ⟨4, 5⟩, ⟨5, 6⟩, ⟨6, 7⟩, ⟨6, 8⟩, ⟨7, 9⟩, ⟨8, 9⟩,
    ⟨9, 10⟩]
  flows_inside := by decide

/-- Verified twice, it has one defect of each kind by the totals and two by the parts. -/
theorem tally_of_history_twice : ∃ (notes : List Annotation) (store : MetricStore),
    (verifyWith .sequential (.draft .mismatched)).2.outcome = .ok notes ∧
      History [⟨"mismatched", .sequential, notes⟩, ⟨"mismatched", .sequential, notes⟩] store ∧
      ∀ tally : Tally, store.get? "mismatched" tally.total = some 1 ∧
        (store.get? "mismatched" tally.normal.key).getD 0 = 2 := by
  have accepted : (Workflow.draft .mismatched).graph.validate = .ok () := by decide +kernel
  obtain ⟨c, -, ends⟩ := Plan.exists_verifyWith accepted .sequential
  have goes := Conduct.does_ofRun ends
  rw [← Plan.verifying_serial rfl] at goes
  obtain ⟨made, fills⟩ :=
    exists_fills "mismatched" (verifyWith .sequential (.draft .mismatched)).2.calls
  have history := (History.start.run accepted goes fills).run accepted goes fills
  have counted : ∀ tally : Tally,
      ((verifyWith .sequential (.draft .mismatched)).2.outcome.toOption.map fun notes =>
        (tally.count notes, tally.normal.count notes)) = some (1, 1) := by
    intro tally
    cases tally <;> decide +kernel
  refine ⟨_, _, ends.1, history, fun tally => ?_⟩
  obtain ⟨total, parts, -⟩ := tally_of_history history tally (by cases tally <;> rfl)
  have one := counted tally
  rw [ends.1] at one
  obtain ⟨all, normal⟩ := Prod.mk.inj (Option.some.inj one)
  refine ⟨total.trans (congrArg some all), (parts _ List.mem_cons_self).trans ?_⟩
  rw [notesOf_cons_self, tally.normal.count_append, normal]
  rfl

end WorkflowSoundness
