import WorkflowSoundness.Proofs.Records.Simple
import WorkflowSoundness.Workflow

/-!
Building a workflow, request by request. Whatever is asked, the records that the requests are served
on stay those of the workflow's graph (`Session.agrees_run`): they are numbered in order, list the
nodes of each kind, and hold each flow as often at its source as at its target (`Records.Sound`). A
single edit that fails leaves everything as it was (`Workflow.atomic_serve`), and after the workflow
is closed nothing changes any more (`Workflow.serve_closed`).
-/

namespace WorkflowSoundness

/-- What may be asked of a workflow under construction. -/
inductive Request where
  | addNode (kind : NodeKind)
  | addElement (node : Nat) (label : String)
  | addFlow (source target : Nat)
  | insertBetween (source target : Nat) (kind : NodeKind)
  | simplify
  | close
  deriving DecidableEq

namespace Workflow

/-- Serves a request. The answer is the number of a new node, or that of the activities that
preparing took. -/
def serve : Request → Run (Option Nat)
  | .addNode kind => do
    let before ← Run.current
    Workflow.change fun g => .ok (g.addNode kind)
    return some before.graph.order
  | .addElement node label => do
    Workflow.change fun g => g.addElement node label
    return none
  | .addFlow source target => do
    Workflow.change fun g => g.addFlow source target
    return none
  | .insertBetween source target kind => do
    let before ← Run.current
    Workflow.change fun g => g.insertBetween source target kind
    return some before.graph.order
  | .simplify => do
    let inserted ← Workflow.simplify
    return some inserted
  | .close => do
    Workflow.close
    return none

end Workflow

/-- What a request leaves behind of the records of an open workflow. -/
def Records.serve (r : Records) : Request → Records
  | .addNode kind => r.addNode kind
  | .addElement node label => (r.addElement node label).1
  | .addFlow source target => (r.addFlow source target).1
  | .insertBetween source target kind => (r.insertBetween source target kind).1
  | .simplify => r.simplify.1
  | .close => r

/-- A workflow, and the records that its requests are served on. -/
structure Session where
  workflow : Workflow
  records : Records

namespace Session

def start (name : String) : Session where
  workflow := .draft (.empty name)
  records := .empty name

/-- What a request leaves behind, whatever it is answered. A closed workflow is not edited. -/
def serve (session : Session) (request : Request) : Session where
  workflow := (Workflow.serve request session.workflow).1
  records :=
    if session.workflow.isClosed then session.records else session.records.serve request

end Session

/-! ### What a run leaves behind -/

/-- A run that fails leaves the workflow as it was. -/
def Run.Atomic {α : Type} (run : Run α) : Prop :=
  ∀ workflow fault, (run workflow).2.outcome = .error fault → (run workflow).1 = workflow

section Runs

variable {α β : Type} {workflow : Workflow}

/-- What is answered in place of a value does not change what is left behind. -/
theorem Run.state_answer (first : Run α) (answer : α → β) :
    ((first >>= fun value => pure (answer value)) workflow).1 = (first workflow).1 := by
  change (Run.bind first _ workflow).1 = _
  unfold Run.bind
  generalize first workflow = left
  obtain ⟨between, events, outcome⟩ := left
  cases outcome with
  | error fault => rfl
  | ok value => rfl

/-- An answer read off afterwards changes nothing. -/
theorem Run.Atomic.answer {first : Run α} (atomic : first.Atomic) (answer : α → β) :
    (first >>= fun value => pure (answer value)).Atomic := by
  intro workflow fault failed
  rw [Run.state_answer]
  apply atomic workflow fault
  change (Run.bind first _ workflow).2.outcome = _ at failed
  unfold Run.bind at failed
  revert failed
  generalize first workflow = left
  obtain ⟨between, events, outcome⟩ := left
  intro failed
  cases outcome with
  | error cause =>
    cases failed
    rfl
  | ok value => cases failed

/-- To look at the workflow first changes nothing. -/
theorem Run.Atomic.current {next : Workflow → Run α} (atomic : ∀ before, (next before).Atomic) :
    (Run.current >>= next).Atomic :=
  fun workflow fault failed => atomic workflow workflow fault failed

theorem Workflow.atomic_change (step : Graph → Except Defect Graph) :
    (Workflow.change step).Atomic := by
  intro workflow fault failed
  cases workflow with
  | closed c => rfl
  | draft g =>
    unfold Workflow.change at failed ⊢
    dsimp only at failed ⊢
    cases answered : step g with
    | error cause => rfl
    | ok changed =>
      rw [answered] at failed
      cases failed

theorem Workflow.atomic_close : Workflow.close.Atomic := by
  intro workflow fault failed
  cases workflow with
  | closed c => rfl
  | draft g =>
    unfold Workflow.close at failed ⊢
    dsimp only at failed ⊢
    split at failed
    · rfl
    · cases failed

end Runs

/-! ### One request -/

namespace Workflow

variable {g : Graph}

/-- Only preparing may fail after it has changed something. -/
theorem atomic_serve {request : Request} (other : request ≠ .simplify) :
    (serve request).Atomic := by
  cases request with
  | addNode kind => exact .current fun _ => (atomic_change _).answer _
  | addElement node label => exact (atomic_change _).answer _
  | addFlow source target => exact (atomic_change _).answer _
  | insertBetween source target kind => exact .current fun _ => (atomic_change _).answer _
  | simplify => exact absurd rfl other
  | close => exact atomic_close.answer _

/-- A change of a draft leaves the changed graph, or the draft as it was. -/
theorem change_draft (step : Graph → Except Defect Graph) :
    (change step (.draft g)).1 = .draft (g.after (step g)) := by
  unfold change
  dsimp only
  cases step g with
  | error cause => rfl
  | ok changed => rfl

theorem serve_change_draft {α : Type} (step : Graph → Except Defect Graph) (answer : α) :
    ((change step >>= fun _ => pure answer) (.draft g)).1 = .draft (g.after (step g)) :=
  (Run.state_answer (change step) fun _ => answer).trans (change_draft step)

theorem simplify_draft : (simplify (.draft g)).1 = .draft g.simplify.1 := by
  unfold simplify
  dsimp only
  obtain ⟨simple, outcome⟩ := g.simplify
  cases outcome with
  | error cause => rfl
  | ok _ => rfl

/-- Closing keeps the graph, whether it succeeds or not. -/
theorem graph_close : (close (.draft g)).1.graph = g := by
  unfold close
  dsimp only
  split
  · rfl
  · rfl

/-- A closed workflow stays what it is, also if it would have to be prepared. -/
theorem simplify_closed (c : ClosedGraph) : (simplify (.closed c)).1 = .closed c := by
  unfold simplify
  dsimp only
  split
  · rfl
  · rfl

/-- Nothing changes a closed workflow. -/
theorem serve_closed (request : Request) (c : ClosedGraph) :
    (serve request (.closed c)).1 = .closed c := by
  cases request with
  | addNode kind => rfl
  | addElement node label => rfl
  | addFlow source target => rfl
  | insertBetween source target kind => rfl
  | simplify => exact (Run.state_answer simplify some).trans (simplify_closed c)
  | close => rfl

/-- The records of a draft are served what the draft is served. -/
theorem records_serve (request : Request) (g : Graph) :
    g.records.serve request = (serve request (.draft g)).1.graph.records := by
  cases request with
  | addNode kind => exact (Graph.records_addNode kind).symm
  | addElement node label =>
    rw [serve, serve_change_draft, Records.serve, Graph.records_addElement]
    rfl
  | addFlow source target =>
    rw [serve, serve_change_draft, Records.serve, Graph.records_addFlow]
    rfl
  | insertBetween source target kind =>
    have left : (serve (.insertBetween source target kind) (.draft g)).1 =
        .draft (g.after (g.insertBetween source target kind)) :=
      serve_change_draft (·.insertBetween source target kind) (some g.order)
    rw [left, Records.serve, Graph.records_insertBetween]
    rfl
  | simplify =>
    have left : (serve .simplify (.draft g)).1 = .draft g.simplify.1 :=
      (Run.state_answer simplify some).trans simplify_draft
    rw [left, Records.serve, Records.records_simplify, graph]
  | close =>
    have left : (serve .close (.draft g)).1 = (close (.draft g)).1 :=
      Run.state_answer close fun _ => none
    rw [left, graph_close, Records.serve]

end Workflow

/-! ### Sound records -/

/-- Records that fit together: they are numbered in order, the table lists the nodes of each kind in
ascending order, and each flow is kept as often at its source as at its target. -/
structure Records.Sound (r : Records) : Prop where
  numbered : ∀ k (record : Record), r.nodes[k]? = some record → record.id = k
  ascending : ∀ kind, (r.byKind kind).Pairwise (· < ·)
  listed : ∀ kind k, k ∈ r.byKind kind ↔ ∃ record, r.nodes[k]? = some record ∧ record.kind = kind
  mirrored : ∀ u v, (r.successors u).count v = (r.predecessors v).count u

/-- The records of a graph meet each other: both ends of a flow know of it, and a node is listed
under its kind. -/
theorem Graph.sound_records (g : Graph) : g.records.Sound where
  numbered k record found := by
    rw [Graph.records, Records.getElem?_ofLists] at found
    obtain ⟨node, -, rfl⟩ := Option.map_eq_some_iff.1 found
    rfl
  ascending kind := List.Pairwise.filter _ List.pairwise_lt_range
  listed kind k := by
    change k ∈ (List.range g.nodes.length).filter _ ↔ _
    rw [List.mem_filter, List.mem_range, Graph.records, Records.getElem?_ofLists, beq_iff_eq,
      Option.map_eq_some_iff]
    constructor
    · rintro ⟨-, node, found, rfl⟩
      rw [found]
      exact ⟨_, rfl, rfl⟩
    · rintro ⟨record, found, rfl⟩
      obtain ⟨node, stored, rfl⟩ := Option.map_eq_some_iff.1 found
      exact ⟨(List.getElem?_eq_some_iff.1 stored).1, node, stored, rfl⟩
  mirrored u v := by
    rw [Graph.records_successors, Graph.records_predecessors, Graph.count_successors,
      Graph.count_predecessors]

/-! ### Sessions -/

namespace Session

/-- The records are those of the workflow's graph. -/
def Agrees (session : Session) : Prop :=
  session.records = session.workflow.graph.records

variable {session : Session}

theorem agrees_start (name : String) : (start name).Agrees :=
  rfl

/-- The step lemma of a session: whatever is asked for, records and graph still agree. -/
theorem Agrees.serve (agrees : session.Agrees) (request : Request) :
    (session.serve request).Agrees := by
  obtain ⟨workflow, records⟩ := session
  have agrees : records = workflow.graph.records := agrees
  subst agrees
  cases workflow with
  | closed c =>
    unfold Agrees
    simp only [Session.serve, Workflow.serve_closed]
    rfl
  | draft g => exact Workflow.records_serve request g

/-- From an empty graph on, records and graph agree after any requests. -/
theorem agrees_run (name : String) (requests : List Request) :
    (requests.foldl serve (start name)).Agrees := by
  suffices ∀ session : Session, session.Agrees → (requests.foldl serve session).Agrees from
    this (start name) (agrees_start name)
  induction requests with
  | nil => exact fun _ agrees => agrees
  | cons request requests ih => exact fun session agrees => ih _ (agrees.serve request)

/-- A failed edit leaves the records alone, as they agree with a workflow that stays. -/
theorem Agrees.serve_failed (agrees : session.Agrees) {request : Request} {fault : Fault}
    (other : request ≠ .simplify)
    (failed : (Workflow.serve request session.workflow).2.outcome = .error fault) :
    session.serve request = session := by
  have same : (session.serve request).workflow = session.workflow :=
    Workflow.atomic_serve other session.workflow fault failed
  have kept : (session.serve request).records = session.records := by
    rw [agrees.serve request, same, agrees]
  generalize session.serve request = served at same kept
  cases served
  cases session
  exact congr (congrArg Session.mk same) kept

theorem serve_closed {c : ClosedGraph} (closed : session.workflow = .closed c) (request : Request) :
    session.serve request = session := by
  obtain ⟨workflow, records⟩ := session
  have closed : workflow = .closed c := closed
  subst closed
  simp only [serve, Workflow.serve_closed]
  rfl

/-- The records of a workflow under construction, whatever has been asked and answered: they are
those of its graph and fit together, a failed edit leaves everything as it was, and a closed
workflow and its records stay. -/
theorem representation (name : String) (requests : List Request) :
    let session := requests.foldl serve (start name)
    session.records = session.workflow.graph.records ∧ session.records.Sound ∧
      (∀ request fault, request ≠ .simplify →
        (Workflow.serve request session.workflow).2.outcome = .error fault →
        session.serve request = session) ∧
      ∀ c, session.workflow = .closed c → ∀ later : List Request,
        later.foldl serve session = session := by
  intro session
  have agrees : session.Agrees := agrees_run name requests
  refine ⟨agrees, ?_, ?_, ?_⟩
  · rw [agrees]
    exact Graph.sound_records _
  · intro request fault other failed
    exact agrees.serve_failed other failed
  · intro c closed later
    induction later with
    | nil => rfl
    | cons request later ih =>
      rw [List.foldl_cons, serve_closed closed request]
      exact ih

/-- A node with two flows to itself, one of which is replaced, after a flow to a missing node has
failed. -/
def looping : List Request :=
  [.addNode .start, .addNode .merge, .addNode .finish, .addElement 1 "retry", .addFlow 0 1,
    .addFlow 1 1, .addFlow 1 2, .addFlow 1 9, .addFlow 1 1, .insertBetween 1 1 .activity]

theorem representation_looping :
    let session := looping.foldl serve (start "looping")
    let final := (looping ++ [Request.close]).foldl serve (start "looping")
    session.records.successors 1 = [2, 1, 3] ∧ session.records.predecessors 1 = [0, 1, 3] ∧
      session.records.Sound ∧ session.serve (.insertBetween 2 1 .merge) = session ∧
      (∃ c, final.workflow = .closed c) ∧
        [.simplify, .addNode .fork].foldl serve final = final := by
  intro session final
  have absent : (Workflow.serve (.insertBetween 2 1 .merge) session.workflow).2.outcome =
      .error (.defect (.malformed (.noFlow 2 1))) := rfl
  obtain ⟨c, closed⟩ : ∃ c, final.workflow = .closed c := ⟨_, rfl⟩
  obtain ⟨-, sound, failed, -⟩ := representation "looping" looping
  obtain ⟨-, -, -, stays⟩ := representation "looping" (looping ++ [Request.close])
  exact ⟨by decide, by decide, sound, failed _ _ (by decide) absent, ⟨c, closed⟩,
    stays c closed [.simplify, .addNode .fork]⟩

end Session
end WorkflowSoundness
