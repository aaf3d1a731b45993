import WorkflowSoundness.Measurement.Metric
import WorkflowSoundness.Measurement.Reporter
import WorkflowSoundness.Proofs.Reports

/-!
The calls that a run makes to its reporter. A section makes its calls when it ends, and what it
tells is a time, which the run does not determine; every other value is part of the run. The
sections of a report lie inside each other (`Report.Tells`), so the calls of a composed run are
those of its parts, one after the other (`calls_bind`, `calls_within`), and each part keeps to keys
of its own.
-/

namespace WorkflowSoundness

variable {α β : Type}

/-- A key whose value is a measured time. -/
inductive Metric.IsTime : String → Prop where
  | timed (name : String) : IsTime (Metric.time name)
  | plan : IsTime Metric.planTime
  | ignoredLast (name : String) : IsTime (Metric.ignoredLast name)
  | ignoredComplete (name : String) : IsTime (Metric.ignoredComplete name)

/-- The keys of times other than that of the plan end in one of two letters, which tells others from
them. -/
theorem Metric.not_isTime {key : String} (last : key.toList.getLast? ∉ [some 'T', some 'E'])
    (other : key ≠ Metric.planTime) : ¬ Metric.IsTime key := by
  have behind : ∀ (name : String) {suffix : List Char} (some : suffix ≠ []),
      (name.toList ++ suffix).getLast? = suffix.getLast? := fun name suffix some => by
    rw [List.getLast?_append, List.getLast?_eq_some_getLast some]
    rfl
  intro isTime
  cases isTime with
  | plan => exact other rfl
  | timed name =>
    refine last ?_
    rw [Metric.time, String.toList_append, behind name (by decide)]
    decide
  | ignoredLast name =>
    refine last ?_
    rw [Metric.ignoredLast, String.toList_append, behind name (by decide)]
    decide
  | ignoredComplete name =>
    refine last ?_
    rw [Metric.ignoredComplete, String.toList_append, behind name (by decide)]
    decide

/-- A call of the reporter under the name of the graph; without a value it tells a time. -/
structure Call where
  kind : CallKind
  key : String
  value : Option Nat
  deriving DecidableEq, Repr

/-- The calls at the end of a section. -/
def Section.calls : Section → List Call
  | .timed name => [⟨.put, Metric.time name, none⟩]
  | .plan _ => [⟨.put, Metric.planTime, none⟩]
  | .ignored name =>
    [⟨.put, Metric.ignoredLast name, none⟩, ⟨.add, Metric.ignoredComplete name, none⟩]

/-- The calls for a row of events inside the running sections, of which the innermost is first. -/
def callsFrom : List Section → List Event → List Call
  | _, [] => []
  | running, .put key value :: events => ⟨.put, key, some value⟩ :: callsFrom running events
  | running, .add key delta :: events => ⟨.add, key, some delta⟩ :: callsFrom running events
  | running, .log _ _ :: events => callsFrom running events
  | running, .begins part :: events => callsFrom (part :: running) events
  | [], .ends :: events => callsFrom [] events
  | part :: running, .ends :: events => part.calls ++ callsFrom running events

/-- The keys that an event leads to calls for. -/
def Event.keys : Event → List String
  | .put key _ => [key]
  | .add key _ => [key]
  | .log _ _ => []
  | .begins part => part.calls.map Call.key
  | .ends => []

namespace Report

def calls (report : Report α) : List Call :=
  callsFrom [] report.events

/-- The report did not run into a misuse, so it has left all its sections. -/
def Left (report : Report α) : Prop :=
  ∀ cause, report.outcome ≠ .error (.misuse cause)

/-- The sections of a report end inside it, apart from those that a misuse leaves open, and its
calls are for some of the keys only. -/
structure Tells (keys : List String) (report : Report α) : Prop where
  inside : ∀ running, callsFrom running report.events = report.calls
  left : report.Left → ∀ running later,
    callsFrom running (report.events ++ later) = report.calls ++ callsFrom running later
  touches : ∀ event ∈ report.events, ∀ key ∈ event.keys, key ∈ keys

variable {keys : List String}

/-- A report that answers has left its sections. -/
theorem left_of_ok {report : Report α} {value : α} (passed : report.outcome = .ok value) :
    report.Left := by
  intro cause failed
  rw [passed] at failed
  cases failed

/-- A report either leaves all its sections or ends in a misuse. -/
theorem left_or_misused (report : Report α) :
    report.Left ∨ ∃ cause, report.outcome = .error (.misuse cause) := by
  by_cases misused : ∃ cause, report.outcome = .error (.misuse cause)
  · exact Or.inr misused
  · exact Or.inl fun cause failed => misused ⟨cause, failed⟩

theorem Tells.mono {report : Report α} {more : List String} (tells : report.Tells keys)
    (sub : keys ⊆ more) : report.Tells more :=
  ⟨tells.inside, tells.left, fun event told key touched =>
    sub (tells.touches event told key touched)⟩

/-! ### Parts of a report -/

/-- Without events there is nothing to tell. -/
theorem tells_of_silent {report : Report α} (silent : report.events = []) :
    report.Tells keys := by
  have none : report.calls = [] := by
    rw [calls, silent]
    rfl
  refine ⟨fun running => ?_, fun _ running later => ?_, ?_⟩
  · rw [none, silent]
    rfl
  · rw [none, silent]
    rfl
  · rw [silent]
    exact fun _ told => nomatch told

theorem tells_pure (value : α) : (pure value : Report α).Tells keys :=
  tells_of_silent rfl

theorem tells_ofMisuse (checked : Except Misuse α) : (ofMisuse checked).Tells keys := by
  cases checked with
  | ok value => exact tells_of_silent rfl
  | error cause => exact tells_of_silent rfl

theorem tells_ofDefect (checked : Except Defect α) : (ofDefect checked).Tells keys := by
  cases checked with
  | ok value => exact tells_of_silent rfl
  | error cause => exact tells_of_silent rfl

theorem tells_put {key : String} (listed : key ∈ keys) (value : Nat) :
    (put key value).Tells keys :=
  ⟨fun _ => rfl, fun _ _ _ => rfl,
    fun _ told _ same => by
      cases List.mem_singleton.1 told
      exact List.mem_singleton.1 same ▸ listed⟩

theorem tells_add {key : String} (listed : key ∈ keys) (delta : Nat) :
    (add key delta).Tells keys :=
  ⟨fun _ => rfl, fun _ _ _ => rfl,
    fun _ told _ same => by
      cases List.mem_singleton.1 told
      exact List.mem_singleton.1 same ▸ listed⟩

theorem tells_log (level : Level) (message : String) : (log level message).Tells keys :=
  ⟨fun _ => rfl, fun _ _ _ => rfl,
    fun _ told _ none => by
      cases List.mem_singleton.1 told
      exact nomatch none⟩

/-- The next report goes on behind the events of the first one. -/
theorem bind_of_ok {first : Report α} {value : α} (passed : first.outcome = .ok value)
    (next : α → Report β) : first >>= next =
      ⟨first.events ++ (next value).events, (next value).outcome⟩ := by
  change Report.bind first next = _
  rw [Report.bind, passed]

/-- Behind a fault nothing is told any more. -/
theorem bind_of_error {first : Report α} {fault : Fault} (failed : first.outcome = .error fault)
    (next : α → Report β) : first >>= next = ⟨first.events, .error fault⟩ := by
  change Report.bind first next = _
  rw [Report.bind, failed]

/-- The sections of the first report end inside it, so the next one makes its calls as it would
alone. -/
theorem calls_bind {first : Report α} {value : α} (tells : first.Tells keys)
    (passed : first.outcome = .ok value) (next : α → Report β) :
    (first >>= next).calls = first.calls ++ (next value).calls := by
  rw [bind_of_ok passed]
  exact tells.left (left_of_ok passed) [] _

/-- One report after the other ends its sections and keeps to the keys if both do. -/
theorem Tells.bind {first : Report α} {next : α → Report β} (early : first.Tells keys)
    (late : ∀ value, (next value).Tells keys) : (first >>= next).Tells keys := by
  cases answered : first.outcome with
  | error fault =>
    rw [bind_of_error answered]
    refine ⟨early.inside, fun left => early.left fun cause failed => left cause ?_, early.touches⟩
    rw [answered] at failed
    cases failed
    rfl
  | ok value =>
    have passes := early.left (left_of_ok answered)
    have joined := calls_bind early answered next
    refine ⟨fun running => ?_, fun left running rest => ?_, fun event told => ?_⟩
    · rw [joined, bind_of_ok answered, passes, (late value).inside]
    · rw [joined, bind_of_ok answered, List.append_assoc, passes]
      rw [bind_of_ok answered] at left
      rw [(late value).left left, List.append_assoc]
    · rw [bind_of_ok answered] at told
      rcases List.mem_append.1 told with told | told
      · exact early.touches event told
      · exact (late value).touches event told

/-- A section around a report that is left ends with it. -/
theorem within_of_left {body : Report α} (left : body.Left) (part : Section) :
    body.within part = ⟨.begins part :: body.events ++ [.ends], body.outcome⟩ := by
  unfold within
  split
  · rename_i cause failed
    exact absurd failed (left cause)
  · rfl

/-- A misuse leaves the section around it open. -/
theorem within_of_misuse {body : Report α} {cause : Misuse}
    (failed : body.outcome = .error (.misuse cause)) (part : Section) :
    body.within part = ⟨.begins part :: body.events, body.outcome⟩ := by
  unfold within
  rw [failed]

/-- The calls of a section come behind those made inside it. -/
theorem calls_within {body : Report α} (tells : body.Tells keys) (left : body.Left)
    (part : Section) : (body.within part).calls = body.calls ++ part.calls := by
  rw [within_of_left left]
  refine (tells.left left [part] [.ends]).trans ?_
  rw [callsFrom, callsFrom, List.append_nil]

/-- A section that a misuse leaves open makes no call. -/
theorem calls_within_misuse {body : Report α} (tells : body.Tells keys) {cause : Misuse}
    (failed : body.outcome = .error (.misuse cause)) (part : Section) :
    (body.within part).calls = body.calls := by
  rw [within_of_misuse failed]
  exact tells.inside [part]

/-- With a section around it a report still ends its sections and keeps to the keys, if those of the
section are among them. -/
theorem Tells.within {body : Report α} (tells : body.Tells keys) {part : Section}
    (listed : ∀ call ∈ part.calls, call.key ∈ keys) : (body.within part).Tells keys := by
  have begun : ∀ key ∈ (Event.begins part).keys, key ∈ keys := fun key touched => by
    obtain ⟨call, called, rfl⟩ := List.mem_map.1 touched
    exact listed call called
  rcases body.left_or_misused with left | ⟨cause, failed⟩
  · have joined := calls_within tells left part
    have ended : ∀ running later, callsFrom running ((body.within part).events ++ later) =
        (body.within part).calls ++ callsFrom running later := by
      intro running later
      rw [joined, within_of_left left]
      change callsFrom (part :: running) ((body.events ++ [.ends]) ++ later) = _
      rw [List.append_assoc, tells.left left, List.append_assoc]
      rfl
    refine ⟨fun running => ?_, fun _ => ended, fun event told => ?_⟩
    · have last := ended running []
      rwa [callsFrom, List.append_nil, List.append_nil] at last
    · rw [within_of_left left] at told
      rcases List.mem_append.1 told with told | told
      · rcases List.mem_cons.1 told with rfl | told
        · exact begun
        · exact tells.touches event told
      · cases List.mem_singleton.1 told
        exact fun _ none => nomatch none
  · refine ⟨fun running => ?_, fun left => ?_, fun event told => ?_⟩
    · rw [calls_within_misuse tells failed, within_of_misuse failed]
      exact tells.inside (part :: running)
    · exact absurd ((outcome_within part body).trans failed) (left cause)
    · rw [within_of_misuse failed] at told
      rcases List.mem_cons.1 told with rfl | told
      · exact begun
      · exact tells.touches event told

/-- A row of reports keeps to the keys of each. -/
theorem tells_forM {f : α → Report Unit} (each : ∀ a, (f a).Tells keys) (l : List α) :
    (l.forM f).Tells keys := by
  induction l with
  | nil => exact tells_pure ()
  | cons a l ih => exact (each a).bind fun _ => ih

end Report

namespace Run

/-- From whatever workflow it starts, the run makes calls for some of the keys only. -/
def Tells (keys : List String) (run : Run α) : Prop :=
  ∀ workflow, (run workflow).2.Tells keys

variable {keys : List String}

theorem Tells.mono {run : Run α} {more : List String} (tells : run.Tells keys) (sub : keys ⊆ more) :
    run.Tells more :=
  fun workflow => (tells workflow).mono sub

theorem tells_pure (value : α) : (pure value : Run α).Tells keys :=
  fun _ => Report.tells_pure value

theorem tells_current : Run.current.Tells keys :=
  fun workflow => Report.tells_pure workflow

theorem tells_ofReport {report : Report α} (tells : report.Tells keys) :
    (Run.ofReport report).Tells keys :=
  fun _ => tells

/-- A run after the other, which starts from the workflow that the first one leaves. -/
theorem Tells.bind {first : Run α} {next : α → Run β} (early : first.Tells keys)
    (late : ∀ value, (next value).Tells keys) : (first >>= next).Tells keys := by
  intro workflow
  have both := (early workflow).bind fun value => late value (first workflow).1
  change (Run.bind first next workflow).2.Tells keys
  change (Report.bind (first workflow).2 _).Tells keys at both
  unfold Report.bind at both
  unfold Run.bind
  revert both
  generalize first workflow = left
  obtain ⟨between, events, outcome⟩ := left
  cases outcome with
  | error fault => exact id
  | ok value => exact id

theorem Tells.within {body : Run α} (tells : body.Tells keys) {part : Section}
    (listed : ∀ call ∈ part.calls, call.key ∈ keys) : (body.within part).Tells keys :=
  fun workflow => (tells workflow).within listed

end Run

/-! ### Keys -/

/-- A call is for a key of a section that runs already or of an event in the row. -/
theorem key_of_mem_callsFrom {running : List Section} {events : List Event} {call : Call}
    (member : call ∈ callsFrom running events) :
    (∃ part ∈ running, call ∈ part.calls) ∨ ∃ event ∈ events, call.key ∈ event.keys := by
  fun_induction callsFrom running events with
  | case1 => cases member
  | case2 running key value events ih =>
    rcases List.mem_cons.1 member with rfl | member
    · exact Or.inr ⟨_, List.mem_cons_self, List.mem_singleton_self key⟩
    · exact (ih member).imp_right fun ⟨event, later, touched⟩ =>
        ⟨event, List.mem_cons_of_mem _ later, touched⟩
  | case3 running key delta events ih =>
    rcases List.mem_cons.1 member with rfl | member
    · exact Or.inr ⟨_, List.mem_cons_self, List.mem_singleton_self key⟩
    · exact (ih member).imp_right fun ⟨event, later, touched⟩ =>
        ⟨event, List.mem_cons_of_mem _ later, touched⟩
  | case4 running level message events ih =>
    exact (ih member).imp_right fun ⟨event, later, touched⟩ =>
      ⟨event, List.mem_cons_of_mem _ later, touched⟩
  | case5 running part events ih =>
    rcases ih member with ⟨other, here, called⟩ | ⟨event, later, touched⟩
    · rcases List.mem_cons.1 here with rfl | here
      · exact Or.inr ⟨_, List.mem_cons_self, List.mem_map_of_mem called⟩
      · exact Or.inl ⟨other, here, called⟩
    · exact Or.inr ⟨event, List.mem_cons_of_mem _ later, touched⟩
  | case6 events ih =>
    exact (ih member).imp_right fun ⟨event, later, touched⟩ =>
      ⟨event, List.mem_cons_of_mem _ later, touched⟩
  | case7 part running events ih =>
    rcases List.mem_append.1 member with here | member
    · exact Or.inl ⟨part, List.mem_cons_self, here⟩
    · rcases ih member with ⟨other, here, called⟩ | ⟨event, later, touched⟩
      · exact Or.inl ⟨other, List.mem_cons_of_mem _ here, called⟩
      · exact Or.inr ⟨event, List.mem_cons_of_mem _ later, touched⟩

/-- The calls of a report are for the keys it keeps to. -/
theorem Report.Tells.key_mem {keys : List String} {report : Report α} (tells : report.Tells keys)
    {call : Call} (member : call ∈ report.calls) : call.key ∈ keys := by
  rcases key_of_mem_callsFrom member with ⟨_, here, -⟩ | ⟨event, told, touched⟩
  · cases here
  · exact tells.touches event told call.key touched

/-! ### Times -/

/-- What a section tells at its end is a time. -/
theorem Section.isTime_of_mem_calls {part : Section} {call : Call} (member : call ∈ part.calls) :
    Metric.IsTime call.key := by
  cases part with
  | timed name =>
    cases List.mem_singleton.1 member
    exact .timed name
  | plan name =>
    cases List.mem_singleton.1 member
    exact .plan
  | ignored name =>
    rcases List.mem_cons.1 member with rfl | member
    · exact .ignoredLast name
    · cases List.mem_singleton.1 member
      exact .ignoredComplete name

/-- Only times are told without a value. -/
theorem isTime_of_mem_callsFrom {running : List Section} {events : List Event} {call : Call}
    (member : call ∈ callsFrom running events) (unknown : call.value = none) :
    Metric.IsTime call.key := by
  fun_induction callsFrom running events with
  | case1 => cases member
  | case2 running key value events ih =>
    rcases List.mem_cons.1 member with rfl | member
    · cases unknown
    · exact ih member
  | case3 running key delta events ih =>
    rcases List.mem_cons.1 member with rfl | member
    · cases unknown
    · exact ih member
  | case4 _ _ _ _ ih => exact ih member
  | case5 _ _ _ ih => exact ih member
  | case6 _ ih => exact ih member
  | case7 part running events ih =>
    rcases List.mem_append.1 member with here | member
    · exact Section.isTime_of_mem_calls here
    · exact ih member

end WorkflowSoundness
