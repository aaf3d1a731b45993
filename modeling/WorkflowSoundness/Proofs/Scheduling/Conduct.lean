import WorkflowSoundness.Proofs.Scheduling.Filling
import WorkflowSoundness.Workflow

/-!
Programs whose schedule is open. A `Conduct` is what such a program may do: the workflow it starts
from and the one it leaves, its calls and its outcome. `fork` runs two parts side by side, where
every call is atomic and the calls of the two may come in any merged order, or one after the other.
Parts that keep to keys of their own can be put one after the other without a difference to any key
(`serializes_fork`), and then the program is an ordinary run (`ofRun_bind`, `ofRun_within`).
-/

namespace WorkflowSoundness

variable {α β : Type}

/-! ### Merging calls -/

/-- The last row is the first two merged, each in its own order. -/
inductive Merges {γ : Type} : List γ → List γ → List γ → Prop where
  | done : Merges [] [] []
  | left {a : γ} {first second merged : List γ} (rest : Merges first second merged) :
      Merges (a :: first) second (a :: merged)
  | right {a : γ} {first second merged : List γ} (rest : Merges first second merged) :
      Merges first (a :: second) (a :: merged)

namespace Merges

variable {γ : Type} {first second merged : List γ}

/-- One after the other is one way to merge. -/
theorem append (first second : List γ) : Merges first second (first ++ second) := by
  induction first with
  | nil =>
    induction second with
    | nil => exact .done
    | cons _ _ ih => exact ih.right
  | cons _ _ ih => exact ih.left

/-- So is the other way round. -/
theorem overtaken (first second : List γ) : Merges first second (second ++ first) := by
  induction second with
  | nil =>
    induction first with
    | nil => exact .done
    | cons _ _ ih => exact ih.left
  | cons _ _ ih => exact ih.right

/-- Picking from two merged rows merges what is picked from each. -/
theorem filter (merges : Merges first second merged) (p : γ → Bool) :
    Merges (first.filter p) (second.filter p) (merged.filter p) := by
  induction merges with
  | done => exact .done
  | @left a _ _ _ _ ih =>
    by_cases kept : p a = true
    · rw [List.filter_cons_of_pos kept, List.filter_cons_of_pos kept]
      exact ih.left
    · rw [List.filter_cons_of_neg kept, List.filter_cons_of_neg kept]
      exact ih
  | @right a _ _ _ _ ih =>
    by_cases kept : p a = true
    · rw [List.filter_cons_of_pos kept, List.filter_cons_of_pos kept]
      exact ih.right
    · rw [List.filter_cons_of_neg kept, List.filter_cons_of_neg kept]
      exact ih

theorem eq_second (merges : Merges first second merged) (none : first = []) : merged = second := by
  induction merges with
  | done => rfl
  | left => cases none
  | right _ ih => rw [ih none]

theorem eq_first (merges : Merges first second merged) (none : second = []) : merged = first := by
  induction merges with
  | done => rfl
  | left _ ih => rw [ih none]
  | right => cases none

end Merges

/-- The calls for each key are the same in the same order. -/
def Alike (calls calls' : List Call) : Prop :=
  ∀ key, callsAt key calls = callsAt key calls'

/-- No key of the one is a key of the other. -/
def Apart (calls calls' : List Call) : Prop :=
  ∀ call ∈ calls, ∀ call' ∈ calls', call.key ≠ call'.key

namespace Alike

variable {calls calls' later later' : List Call}

theorem refl (calls : List Call) : Alike calls calls :=
  fun _ => rfl

theorem trans {calls'' : List Call} (first : Alike calls calls') (second : Alike calls' calls'') :
    Alike calls calls'' :=
  fun key => (first key).trans (second key)

theorem append (first : Alike calls calls') (second : Alike later later') :
    Alike (calls ++ later) (calls' ++ later') := by
  intro key
  rw [callsAt_append, callsAt_append, first, second]

/-- Rows with the same calls for each key are for the same keys. -/
theorem key_mem {keys : List String} (alike : Alike calls calls')
    (listed : ∀ call ∈ calls', call.key ∈ keys) : ∀ call ∈ calls, call.key ∈ keys := by
  intro call member
  have here : call ∈ callsAt call.key calls' := alike call.key ▸ mem_callsAt.2 ⟨member, rfl⟩
  exact listed call (mem_callsAt.1 here).1

end Alike

/-- Merged calls for different keys might as well come one after the other. -/
theorem Merges.alike {calls calls' merged : List Call} (merges : Merges calls calls' merged)
    (apart : Apart calls calls') : Alike merged (calls ++ calls') := by
  intro key
  have here : Merges (callsAt key calls) (callsAt key calls') (callsAt key merged) :=
    merges.filter _
  rw [callsAt_append]
  cases first : callsAt key calls with
  | nil => rw [here.eq_second first, List.nil_append]
  | cons call rest =>
    have member := mem_callsAt.1 (first ▸ List.mem_cons_self : call ∈ callsAt key calls)
    have none : callsAt key calls' = [] := callsAt_eq_nil fun call' member' same =>
      apart call member.1 call' member' (member.2.trans same.symm)
    rw [here.eq_first none, first, none, List.append_nil]

/-! ### Conducts -/

/-- What a program may do: the workflow before and after it, its calls and its outcome. -/
def Conduct (α : Type) : Type :=
  Workflow → Workflow → List Call → Except Fault α → Prop

namespace Conduct

/-- A run does one thing only. -/
def ofRun (run : Run α) : Conduct α := fun before after calls outcome =>
  after = (run before).1 ∧ calls = (run before).2.calls ∧ outcome = (run before).2.outcome

protected def bind (first : Conduct α) (next : α → Conduct β) : Conduct β :=
  fun before after calls outcome =>
    (∃ fault, first before after calls (.error fault) ∧ outcome = .error fault) ∨
      ∃ value between early late, first before between early (.ok value) ∧
        next value between after late outcome ∧ calls = early ++ late

instance : Monad Conduct where
  pure value := ofRun (pure value)
  bind := Conduct.bind

/-- The body as a measured section, which a misuse leaves open. -/
def within (part : Section) (body : Conduct α) : Conduct α := fun before after calls outcome =>
  (∃ cause, body before after calls outcome ∧ outcome = .error (.misuse cause)) ∨
    ∃ early, body before after early outcome ∧ (∀ cause, outcome ≠ .error (.misuse cause)) ∧
      calls = early ++ part.calls

/-- Both parts side by side. They only read the workflow; if both fail, the first fault counts. -/
def beside (first : Conduct α) (second : Conduct β) : Conduct (α × β) :=
  fun before after calls outcome => ∃ early late left right,
    first before before early left ∧ second before before late right ∧ Merges early late calls ∧
      after = before ∧ outcome = do return (← left, ← right)

/-- Both parts, side by side if that is allowed and one after the other if not. -/
def fork (parallel : Bool) (first : Conduct α) (second : Conduct β) : Conduct (α × β) :=
  if parallel then
    beside first second
  else do
    let left ← first
    let right ← second
    return (left, right)

/-- What is done one after the other: the first part fails, or both are done and their calls follow
each other. -/
theorem bind_def (first : Conduct α) (next : α → Conduct β) (before after : Workflow)
    (calls : List Call) (outcome : Except Fault β) :
    (first >>= next) before after calls outcome ↔
      (∃ fault, first before after calls (.error fault) ∧ outcome = .error fault) ∨
        ∃ value between early late, first before between early (.ok value) ∧
          next value between after late outcome ∧ calls = early ++ late :=
  Iff.rfl

theorem pure_def (value : α) (before after : Workflow) (calls : List Call)
    (outcome : Except Fault α) : (pure value : Conduct α) before after calls outcome ↔
      after = before ∧ calls = [] ∧ outcome = .ok value :=
  Iff.rfl

theorem ext {conduct conduct' : Conduct α}
    (same : ∀ before after calls outcome,
      conduct before after calls outcome ↔ conduct' before after calls outcome) :
    conduct = conduct' := by
  funext before after calls outcome
  exact propext (same before after calls outcome)

protected theorem bind_assoc {γ : Type} (first : Conduct α) (next : α → Conduct β)
    (last : β → Conduct γ) :
    first >>= next >>= last = first >>= fun value => next value >>= last := by
  refine ext fun before after calls outcome => ?_
  simp only [bind_def]
  constructor
  · rintro (⟨fault, ⟨_, failed, same⟩ | ⟨value, between, early, late, passed, failed, rfl⟩, rfl⟩ |
      ⟨value, between, early, late, ⟨_, failed, same⟩ |
        ⟨value', between', early', late', passed, passed', rfl⟩, rest, rfl⟩)
    · cases same
      exact Or.inl ⟨_, failed, rfl⟩
    · exact Or.inr ⟨value, between, early, late, passed, Or.inl ⟨fault, failed, rfl⟩, rfl⟩
    · cases same
    · exact Or.inr ⟨value', between', early', late' ++ late, passed,
        Or.inr ⟨value, between, late', late, passed', rest, rfl⟩, List.append_assoc ..⟩
  · rintro (⟨fault, failed, rfl⟩ | ⟨value, between, early, late, passed, ⟨fault, failed, rfl⟩ |
      ⟨value', between', early', late', passed', rest, rfl⟩, rfl⟩)
    · exact Or.inl ⟨fault, Or.inl ⟨fault, failed, rfl⟩, rfl⟩
    · exact Or.inl ⟨fault, Or.inr ⟨value, between, early, late, passed, failed, rfl⟩, rfl⟩
    · exact Or.inr ⟨value', between', early ++ early', late',
        Or.inr ⟨value, between, early, early', passed, passed', rfl⟩, rest,
        (List.append_assoc ..).symm⟩

protected theorem pure_bind (value : α) (next : α → Conduct β) :
    (pure value : Conduct α) >>= next = next value := by
  refine ext fun before after calls outcome => ?_
  simp only [bind_def, pure_def]
  constructor
  · rintro (⟨fault, ⟨-, -, same⟩, -⟩ | ⟨_, _, _, late, ⟨rfl, rfl, same⟩, rest, rfl⟩)
    · cases same
    · cases same
      exact rest
  · exact fun rest => Or.inr ⟨value, before, [], calls, ⟨rfl, rfl, rfl⟩, rest, rfl⟩

protected theorem bind_pure (first : Conduct α) : first >>= pure = first := by
  refine ext fun before after calls outcome => ?_
  simp only [bind_def, pure_def]
  constructor
  · rintro (⟨fault, failed, rfl⟩ | ⟨value, _, early, _, passed, ⟨rfl, rfl, rfl⟩, rfl⟩)
    · exact failed
    · rwa [List.append_nil]
  · intro done
    cases outcome with
    | error fault => exact Or.inl ⟨fault, done, rfl⟩
    | ok value =>
      exact Or.inr ⟨value, after, calls, [], done, ⟨rfl, rfl, rfl⟩, (List.append_nil _).symm⟩

instance : LawfulMonad Conduct :=
  LawfulMonad.mk' Conduct Conduct.bind_pure Conduct.pure_bind Conduct.bind_assoc

/-! ### Runs -/

variable {keys : List String}

/-- A run that ends its sections is conducted part by part. -/
theorem ofRun_bind {first : Run α} (tells : first.Tells keys) (next : α → Run β) :
    ofRun (first >>= next) = ofRun first >>= fun value => ofRun (next value) := by
  refine ext fun before after calls outcome => ?_
  rw [bind_def]
  have told := tells before
  change (after = (Run.bind first next before).1 ∧ calls = (Run.bind first next before).2.calls ∧
    outcome = (Run.bind first next before).2.outcome) ↔ _
  unfold ofRun Run.bind
  revert told
  generalize first before = done
  obtain ⟨between, report⟩ := done
  intro told
  dsimp only at told ⊢
  cases answered : report.outcome with
  | error fault =>
    constructor
    · rintro ⟨rfl, rfl, rfl⟩
      exact Or.inl ⟨fault, ⟨rfl, rfl, rfl⟩, rfl⟩
    · rintro (⟨_, ⟨rfl, rfl, same⟩, rfl⟩ | ⟨value, _, _, _, ⟨-, -, same⟩, -⟩)
      · cases same
        exact ⟨rfl, rfl, rfl⟩
      · cases same
  | ok value =>
    have joined : ∀ later : List Event, callsFrom [] (report.events ++ later) =
        report.calls ++ callsFrom [] later := told.left (Report.left_of_ok answered) []
    constructor
    · rintro ⟨rfl, rfl, rfl⟩
      exact Or.inr ⟨value, between, _, _, ⟨rfl, rfl, rfl⟩, ⟨rfl, rfl, rfl⟩, joined _⟩
    · rintro (⟨_, ⟨-, -, same⟩, -⟩ | ⟨_, _, _, _, ⟨rfl, rfl, same⟩, ⟨rfl, rfl, rfl⟩, rfl⟩)
      · cases same
      · cases same
        exact ⟨rfl, (joined _).symm, rfl⟩

/-- A section around a run is conducted around it. -/
theorem ofRun_within {body : Run α} (tells : body.Tells keys) (part : Section) :
    ofRun (body.within part) = within part (ofRun body) := by
  refine ext fun before after calls outcome => ?_
  have told := tells before
  change (after = (body before).1 ∧ calls = ((body before).2.within part).calls ∧
    outcome = ((body before).2.within part).outcome) ↔ _
  unfold within ofRun
  rw [Report.outcome_within]
  rcases (body before).2.left_or_misused with left | ⟨cause, failed⟩
  · rw [Report.calls_within told left]
    constructor
    · rintro ⟨rfl, rfl, rfl⟩
      exact Or.inr ⟨_, ⟨rfl, rfl, rfl⟩, left, rfl⟩
    · rintro (⟨cause, ⟨-, -, rfl⟩, misused⟩ | ⟨_, ⟨rfl, rfl, rfl⟩, -, rfl⟩)
      · exact absurd misused (left cause)
      · exact ⟨rfl, rfl, rfl⟩
  · rw [Report.calls_within_misuse told failed, failed]
    constructor
    · rintro ⟨rfl, rfl, rfl⟩
      exact Or.inl ⟨cause, ⟨rfl, rfl, rfl⟩, rfl⟩
    · rintro (⟨_, ⟨rfl, rfl, same⟩, -⟩ | ⟨_, ⟨-, -, rfl⟩, ended, -⟩)
      · exact ⟨rfl, rfl, same⟩
      · exact absurd rfl (ended cause)

/-- A report only looks at what it is given. -/
def ofReport (report : Report α) : Conduct α :=
  ofRun (.ofReport report)

theorem ofReport_bind {first : Report α} (tells : first.Tells keys) (next : α → Report β) :
    ofReport (first >>= next) = ofReport first >>= fun value => ofReport (next value) := by
  have split : Run.ofReport (first >>= next) =
      Run.ofReport first >>= fun value => Run.ofReport (next value) := by
    funext workflow
    change (workflow, Report.bind first next) = Run.bind (Run.ofReport first) _ workflow
    unfold Report.bind Run.bind Run.ofReport
    dsimp only
    cases first.outcome with
    | error fault => rfl
    | ok value => rfl
  rw [ofReport, split, ofRun_bind (Run.tells_ofReport tells)]
  rfl

theorem ofReport_within {body : Report α} (tells : body.Tells keys) (part : Section) :
    ofReport (body.within part) = within part (ofReport body) := by
  change ofRun ((Run.ofReport body).within part) = _
  exact ofRun_within (Run.tells_ofReport tells) part

/-! ### One after the other -/

/-- Whatever the program does from here, the other may do too, up to the order of calls for
different keys. -/
def Serializes (workflow : Workflow) (conduct serial : Conduct α) : Prop :=
  ∀ ⦃after calls outcome⦄, conduct workflow after calls outcome →
    ∃ calls', serial workflow after calls' outcome ∧ Alike calls calls'

/-- From here the program leaves the workflow alone and answers the value, with calls for some of
the keys only. -/
def Passes (workflow : Workflow) (keys : List String) (value : α) (conduct : Conduct α) : Prop :=
  ∀ ⦃after calls outcome⦄, conduct workflow after calls outcome →
    after = workflow ∧ outcome = .ok value ∧ ∀ call ∈ calls, call.key ∈ keys

variable {workflow : Workflow}

theorem serializes_refl (conduct : Conduct α) : Serializes workflow conduct conduct :=
  fun _ calls _ done => ⟨calls, done, .refl calls⟩

/-- If each part could have been done serially up to the order of calls, so could both. -/
theorem Serializes.bind {first first' : Conduct α} {next next' : α → Conduct β}
    (early : Serializes workflow first first')
    (late : ∀ value between calls, first' workflow between calls (.ok value) →
      Serializes between (next value) (next' value)) :
    Serializes workflow (first >>= next) (first' >>= next') := by
  intro after calls outcome done
  rcases done with ⟨fault, failed, rfl⟩ | ⟨value, between, _, _, passed, rest, rfl⟩
  · obtain ⟨calls', failed', alike⟩ := early failed
    exact ⟨calls', Or.inl ⟨fault, failed', rfl⟩, alike⟩
  · obtain ⟨calls', passed', alike⟩ := early passed
    obtain ⟨later', rest', alike'⟩ := late value between calls' passed' rest
    exact ⟨_, Or.inr ⟨value, between, _, _, passed', rest', rfl⟩, alike.append alike'⟩

/-- A section adds the same calls behind those of its body on both sides. -/
theorem Serializes.within {body body' : Conduct α} (inside : Serializes workflow body body')
    (part : Section) : Serializes workflow (within part body) (within part body') := by
  intro after calls outcome done
  rcases done with ⟨cause, misused, same⟩ | ⟨early, ended, left, rfl⟩
  · obtain ⟨calls', misused', alike⟩ := inside misused
    exact ⟨calls', Or.inl ⟨cause, misused', same⟩, alike⟩
  · obtain ⟨early', ended', alike⟩ := inside ended
    exact ⟨_, Or.inr ⟨early', ended', left, rfl⟩, alike.append (.refl _)⟩

/-- A report that answers leaves the workflow alone, and its keys are known. -/
theorem passes_ofReport {report : Report α} {value : α} (tells : report.Tells keys)
    (passed : report.outcome = .ok value) : Passes workflow keys value (ofReport report) := by
  rintro after calls outcome ⟨rfl, rfl, rfl⟩
  exact ⟨rfl, passed, fun _ member => tells.key_mem member⟩

section Forks

variable {keys' : List String} {first first' : Conduct α} {second second' : Conduct β}
  {a : α} {b : β}

/-- Two parts in parallel answer both values, whatever the order of their calls. -/
theorem Passes.fork (early : Passes workflow keys a first) (late : Passes workflow keys' b second) :
    Passes workflow (keys ++ keys') (a, b) (fork false first second) := by
  intro after calls outcome done
  rcases done with ⟨_, failed, -⟩ | ⟨left, between, _, _, passed, rest, rfl⟩
  · obtain ⟨-, same, -⟩ := early failed
    cases same
  · obtain ⟨rfl, same, touched⟩ := early passed
    cases same
    rcases rest with ⟨_, failed, -⟩ | ⟨right, _, _, _, passed', answered, rfl⟩
    · obtain ⟨-, same, -⟩ := late failed
      cases same
    · obtain ⟨rfl, same, touched'⟩ := late passed'
      cases same
      obtain ⟨rfl, rfl, rfl⟩ := (pure_def _ _ _ _ _).1 answered
      refine ⟨rfl, rfl, fun call member => ?_⟩
      rw [List.append_nil] at member
      rcases List.mem_append.1 member with member | member
      · exact List.mem_append_left _ (touched call member)
      · exact List.mem_append_right _ (touched' call member)

/-- Parts with keys of their own may be put one after the other. -/
theorem serializes_fork (parallel : Bool) (apart : ∀ key ∈ keys, key ∉ keys')
    (early : Serializes workflow first first') (passes : Passes workflow keys a first')
    (late : Serializes workflow second second') (passes' : Passes workflow keys' b second') :
    Serializes workflow (fork parallel first second) (fork false first' second') := by
  cases parallel with
  | false =>
    refine early.bind fun left between calls passed => ?_
    obtain ⟨rfl, -, -⟩ := passes passed
    exact late.bind fun right between calls passed => serializes_refl _
  | true =>
    rintro after calls outcome ⟨one, other, left, right, done, done', merges, rfl, rfl⟩
    obtain ⟨one', passed, alike⟩ := early done
    obtain ⟨other', passed', alike'⟩ := late done'
    obtain ⟨-, rfl, touched⟩ := passes passed
    obtain ⟨-, rfl, touched'⟩ := passes' passed'
    have serial : Apart one other := fun call member call' member' same =>
      apart call.key (alike.key_mem touched call member)
        (same ▸ alike'.key_mem touched' call' member')
    refine ⟨one' ++ (other' ++ []), Or.inr ⟨a, _, one', _, passed, ?_, rfl⟩, ?_⟩
    · exact Or.inr ⟨b, _, other', [], passed', ⟨rfl, rfl, rfl⟩, rfl⟩
    · rw [List.append_nil]
      exact (merges.alike serial).trans (alike.append alike')

end Forks

/-! ### Schedules that exist -/

section Schedules

variable {between after : Workflow} {early late : List Call}

theorem does_ofRun {run : Run α} {answer : Except Fault α} (ends : run.Ends workflow answer after) :
    ofRun run workflow after (run workflow).2.calls answer :=
  ⟨ends.2.symm, rfl, ends.1.symm⟩

theorem does_ofReport {report : Report α} {value : α} (passed : report.outcome = .ok value) :
    ofReport report workflow workflow report.calls (.ok value) :=
  ⟨rfl, rfl, passed.symm⟩

theorem does_bind {first : Conduct α} {next : α → Conduct β} {value : α} {outcome : Except Fault β}
    (passed : first workflow between early (.ok value))
    (rest : next value between after late outcome) :
    (first >>= next) workflow after (early ++ late) outcome :=
  Or.inr ⟨value, between, early, late, passed, rest, rfl⟩

theorem does_answer {first : Conduct α} {value : α}
    (passed : first workflow between early (.ok value)) (answer : α → β) :
    (first >>= fun value => pure (answer value)) workflow between early (.ok (answer value)) :=
  Or.inr ⟨value, between, early, [], passed, ⟨rfl, rfl, rfl⟩, (List.append_nil early).symm⟩

theorem does_within {body : Conduct α} {value : α} (part : Section)
    (passed : body workflow after early (.ok value)) :
    within part body workflow after (early ++ part.calls) (.ok value) :=
  Or.inr ⟨early, passed, nofun, rfl⟩

/-- The second part may come first. -/
theorem does_fork_overtaken {first : Conduct α} {second : Conduct β} {a : α} {b : β}
    (passed : first workflow workflow early (.ok a))
    (passed' : second workflow workflow late (.ok b)) :
    fork true first second workflow workflow (late ++ early) (.ok (a, b)) :=
  ⟨early, late, .ok a, .ok b, passed, passed', .overtaken early late, rfl, rfl⟩

end Schedules
end Conduct
end WorkflowSoundness
