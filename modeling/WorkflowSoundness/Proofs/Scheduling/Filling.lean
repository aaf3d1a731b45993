import Mathlib.Data.List.Forall2
import WorkflowSoundness.Measurement.Monitor
import WorkflowSoundness.Proofs.Scheduling.Calls
import WorkflowSoundness.Proofs.Stores

/-!
Calls on a store. When a run goes, each call that tells a time gets some value (`Fills`); the
monitor with its own clock is one way to give them values (`exists_fills_watch`). Whatever the times
are, a metric that is no time ends with the value that the calls for its key make
(`get?_serveAll_of_fills`).
-/

namespace WorkflowSoundness

/-- The call as a reporter gets it under the name of a graph, with a time where one is told. -/
structure Call.Made (graph : String) (call : Call) (made : ReporterCall) : Prop where
  kind : made.kind = call.kind
  graph : made.graph = graph
  key : made.key = call.key
  value : ∀ value, call.value = some value → made.value = value

/-- The calls as a reporter gets them. -/
def Fills (graph : String) : List Call → List ReporterCall → Prop :=
  List.Forall₂ (Call.Made graph)

/-- Some times can always be told. -/
theorem exists_fills (graph : String) (calls : List Call) : ∃ made, Fills graph calls made := by
  induction calls with
  | nil => exact ⟨[], .nil⟩
  | cons call calls ih =>
    obtain ⟨made, fills⟩ := ih
    refine ⟨⟨call.kind, graph, call.key, call.value.getD 0⟩ :: made,
      .cons ⟨rfl, rfl, rfl, ?_⟩ fills⟩
    exact fun value told => by rw [told]; rfl

/-- The value of a metric after a call for it that tells no time. -/
def Call.change (call : Call) (old : Option Nat) : Option Nat :=
  match call.kind with
  | .put => some (call.value.getD 0)
  | .add => some (old.getD 0 + call.value.getD 0)

/-- The calls for one key, in their order. -/
def callsAt (key : String) (calls : List Call) : List Call :=
  calls.filter (·.key == key)

theorem callsAt_cons_self (call : Call) (calls : List Call) :
    callsAt call.key (call :: calls) = call :: callsAt call.key calls :=
  List.filter_cons_of_pos (beq_self_eq_true call.key)

theorem callsAt_cons_of_ne {key : String} {call : Call} (other : call.key ≠ key)
    (calls : List Call) : callsAt key (call :: calls) = callsAt key calls :=
  List.filter_cons_of_neg fun same => other (beq_iff_eq.1 same)

theorem callsAt_append (key : String) (calls later : List Call) :
    callsAt key (calls ++ later) = callsAt key calls ++ callsAt key later :=
  List.filter_append ..

theorem mem_callsAt {key : String} {calls : List Call} {call : Call} :
    call ∈ callsAt key calls ↔ call ∈ calls ∧ call.key = key := by
  rw [callsAt, List.mem_filter, beq_iff_eq]

theorem callsAt_eq_nil {key : String} {calls : List Call}
    (other : ∀ call ∈ calls, call.key ≠ key) : callsAt key calls = [] :=
  List.filter_eq_nil_iff.2 fun call member same => other call member (beq_iff_eq.1 same)

section Filling

variable {name graph key : String} {calls : List Call} {made : List ReporterCall}

/-- A metric ends with the value that the calls for its key make, if none of them tells a time. -/
theorem get?_serveAll_of_fills (store : MetricStore) (fills : Fills name calls made)
    (known : ∀ call ∈ calls, call.key = key → call.value ≠ none) :
    (store.serveAll made).get? name key =
      (callsAt key calls).foldl (fun old call => call.change old) (store.get? name key) := by
  induction fills generalizing store with
  | nil => rfl
  | @cons call filled calls made first rest ih =>
    have later := ih (store.serve filled) fun other member =>
      known other (List.mem_cons_of_mem _ member)
    refine (show (store.serveAll (filled :: made)).get? name key = _ from later).trans ?_
    by_cases same : call.key = key
    · obtain ⟨value, told⟩ := Option.ne_none_iff_exists'.1 (known call List.mem_cons_self same)
      have here : (store.serve filled).get? name key = call.change (store.get? name key) := by
        have served : (store.serve filled).get? filled.graph filled.key =
          filled.change (store.get? filled.graph filled.key) := store.get?_serve_self
        rw [first.graph, first.key, same] at served
        rw [served, ReporterCall.change, Call.change, first.kind, first.value value told, told]
        rfl
      subst same
      rw [here, callsAt_cons_self, List.foldl_cons]
    · have apart : ¬ (name = filled.graph ∧ key = filled.key) := fun both =>
        same (first.key.symm.trans both.2.symm)
      rw [store.get?_serve_of_ne apart, callsAt_cons_of_ne same]

theorem get?_serveAll_of_told {told : List Call} (store : MetricStore)
    (fills : Fills name calls made) (tells : callsAt key calls = told)
    (valued : ∀ call ∈ told, call.value ≠ none) : (store.serveAll made).get? name key =
      told.foldl (fun old call => call.change old) (store.get? name key) := by
  subst tells
  exact get?_serveAll_of_fills store fills fun call member same =>
    valued call (mem_callsAt.2 ⟨member, same⟩)

/-- The metrics of other graphs stay. -/
theorem get?_serveAll_of_ne (store : MetricStore) (fills : Fills name calls made)
    (other : graph ≠ name) : (store.serveAll made).get? graph key = store.get? graph key := by
  induction fills generalizing store with
  | nil => rfl
  | @cons call filled calls made first rest ih =>
    refine (ih (store.serve filled)).trans (store.get?_serve_of_ne fun same => other ?_)
    rw [same.1, first.graph]

end Filling

namespace Monitor

variable {graph : String} {store : MetricStore}

/-- What a section tells at its end are its calls. -/
theorem exists_fills_closing (graph : String) (store : MetricStore) (part : Section)
    (elapsed ignored : Nat) :
    ∃ made, Fills graph part.calls made ∧
      closing graph part elapsed ignored (.store store) = .store (store.serveAll made) := by
  have call : ∀ (kind : CallKind) (key : String) (value : Nat),
      Call.Made graph ⟨kind, key, none⟩ ⟨kind, graph, key, value⟩ := fun _ _ _ =>
    ⟨rfl, rfl, rfl, nofun⟩
  cases part with
  | timed name => exact ⟨[⟨.put, graph, _, _⟩], .cons (call _ _ _) .nil, rfl⟩
  | plan name => exact ⟨[⟨.put, graph, _, _⟩], .cons (call _ _ _) .nil, rfl⟩
  | ignored name =>
    exact ⟨[⟨.put, graph, _, _⟩, ⟨.add, graph, _, _⟩],
      .cons (call _ _ _) (.cons (call _ _ _) .nil), rfl⟩

/-- A store that watches events gets their calls. -/
theorem exists_fills_foldl (monitor : Monitor) (events : List Event)
    (stores : monitor.reporter = .store store) :
    ∃ made, Fills graph (callsFrom (monitor.running.map RunningSection.part) events) made ∧
      (events.foldl (observe graph) monitor).reporter = .store (store.serveAll made) := by
  induction events generalizing monitor store with
  | nil =>
    rw [callsFrom.eq_def]
    exact ⟨[], .nil, stores⟩
  | cons event events ih =>
    obtain ⟨reporter, messages, clock, running⟩ := monitor
    cases stores
    cases event with
    | put key value =>
      obtain ⟨made, fills, left⟩ := ih
        (observe graph ⟨.store store, messages, clock, running⟩ (.put key value)) rfl
      rw [callsFrom]
      refine ⟨⟨.put, graph, key, value⟩ :: made, .cons ⟨rfl, rfl, rfl, ?_⟩ fills, left⟩
      exact fun _ same => Option.some.inj same
    | add key delta =>
      obtain ⟨made, fills, left⟩ := ih
        (observe graph ⟨.store store, messages, clock, running⟩ (.add key delta)) rfl
      rw [callsFrom]
      refine ⟨⟨.add, graph, key, delta⟩ :: made, .cons ⟨rfl, rfl, rfl, ?_⟩ fills, left⟩
      exact fun _ same => Option.some.inj same
    | log level message =>
      rw [callsFrom]
      exact ih (observe graph ⟨.store store, messages, clock, running⟩ (.log level message)) rfl
    | begins part =>
      rw [callsFrom]
      exact ih (observe graph ⟨.store store, messages, clock, running⟩ (.begins part)) rfl
    | ends =>
      cases running with
      | nil =>
        rw [List.map_nil, callsFrom]
        exact ih (observe graph ⟨.store store, messages, clock, []⟩ .ends) rfl
      | cons first running =>
        obtain ⟨ended, closes, closed⟩ := exists_fills_closing graph store first.part
          (clock - first.since)
          ((Reporter.store store).ignored graph first.part.name - first.ignoredBefore)
        obtain ⟨made, fills, left⟩ :=
          ih (observe graph ⟨.store store, messages, clock, first :: running⟩ .ends) closed
        rw [List.map_cons, callsFrom]
        refine ⟨ended ++ made, List.rel_append closes fills, left.trans ?_⟩
        rw [MetricStore.serveAll, MetricStore.serveAll, MetricStore.serveAll, List.foldl_append]

end Monitor

/-- A store that watches a report gets its calls, with the times that the monitor takes. -/
theorem exists_fills_watch {α : Type} (graph : String) (report : Report α) (store : MetricStore) :
    ∃ made, Fills graph report.calls made ∧
      (Reporter.store store).watch graph report.events = .store (store.serveAll made) :=
  Monitor.exists_fills_foldl ⟨.store store, [], 0, []⟩ report.events rfl

end WorkflowSoundness
