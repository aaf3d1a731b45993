import WorkflowSoundness.Proofs.Records.Basic

/-!
The simple shape, reached on records. The passes read neighbours and kinds off the records at hand
and insert activities one by one (`Records.simplify`). Each of them leaves the records of the graph
that the pass over the graph leaves (`Mirrors`), so the whole does (`records_simplify`).
-/

namespace WorkflowSoundness

namespace Records

/-- What an operation leaves behind, and whether it failed. -/
abbrev Outcome : Type :=
  Records × Except Defect Unit

/-- Goes on unless the operation before has failed. -/
def Outcome.andThen (done : Outcome) (next : Records → Outcome) : Outcome :=
  match done with
  | (r, .ok ()) => next r
  | (r, .error cause) => (r, .error cause)

def forEach {α : Type} (step : α → Records → Outcome) : List α → Records → Outcome
  | [], r => (r, .ok ())
  | a :: later, r => (step a r).andThen (forEach step later)

/-- Inserts activities while the target is among the successors. Each takes one entry away. -/
def separateWithin (source target : Nat) : Nat → Records → Outcome
  | 0, r => (r, .ok ())
  | rounds + 1, r =>
    if (r.successors source).contains target then
      match r.insertBetween source target .activity with
      | (inserted, .ok _) => separateWithin source target rounds inserted
      | (same, .error cause) => (same, .error cause)
    else
      (r, .ok ())

def separate (source target : Nat) (r : Records) : Outcome :=
  separateWithin source target ((r.successors source).count target) r

def nonActivities (r : Records) (nodes : List Nat) : List Nat :=
  (List.range r.nodes.length).filter fun node => nodes.contains node && !r.hasKind node .activity

def separateIncoming (node : Nat) (r : Records) : Outcome :=
  forEach (fun source => separate source node) (r.nonActivities (r.predecessors node)) r

def separateOutgoing (node : Nat) (r : Records) : Outcome :=
  forEach (fun target => separate node target) (r.nonActivities (r.successors node)) r

/-- A step at each node of some kinds, one kind after the other. -/
def pass (step : Nat → Records → Outcome) (kinds : List NodeKind) (r : Records) : Outcome :=
  forEach (fun kind r => forEach step (r.byKind kind) r) kinds r

def separateFinish (finish : Nat) (r : Records) : Outcome :=
  match (r.predecessors finish).head? with
  | none => (r, .ok ())
  | some source =>
    if r.hasKind source .activity then (r, .ok ()) else separate source finish r

def separateStart (start : Nat) (r : Records) : Outcome :=
  match (r.successors start).head? with
  | none => (r, .ok ())
  | some target =>
    if r.hasKind target .activity then (r, .ok ()) else separate start target r

def simplify (r : Records) : Outcome :=
  (pass separateIncoming [.join, .orJoin, .merge] r).andThen fun r =>
  (pass separateOutgoing [.fork, .split, .orFork] r).andThen fun r =>
    match (r.byKind .finish).head? with
    | none => (r, .error .missingEnd)
    | some finish => (separateFinish finish r).andThen fun r =>
      match (r.byKind .start).head? with
      | none => (r, .error .missingStart)
      | some start => separateStart start r

/-! ### Agreement -/

/-- On the records of a graph the operation succeeds, and leaves those of the changed graph. -/
def Mirrors (step : Records → Outcome) (change : Graph → Graph) : Prop :=
  ∀ g : Graph, step g.records = ((change g).records, .ok ())

/-- A row of operations that each mirror a change mirrors the changes one after the other. -/
theorem mirrors_forEach {α : Type} {step : α → Records → Outcome} {change : Graph → α → Graph}
    (each : ∀ a, Mirrors (step a) (change · a)) (l : List α) :
    Mirrors (forEach step l) (l.foldl change) := by
  intro g
  induction l generalizing g with
  | nil => rfl
  | cons a l ih =>
    rw [forEach, each a g]
    exact ih (change g a)

/-- Each activity takes one entry for the target away, so as many rounds as there are entries are
enough. -/
theorem records_separateWithin (source target : Nat) {rounds : Nat} {g : Graph}
    (enough : g.flows.count ⟨source, target⟩ ≤ rounds) :
    separateWithin source target rounds g.records =
      ((g.separate ⟨source, target⟩).records, .ok ()) := by
  induction rounds generalizing g with
  | zero =>
    have absent : (⟨source, target⟩ : Flow) ∉ g.flows := List.count_eq_zero.1 (Nat.le_zero.1 enough)
    rw [Graph.separate, dif_neg absent]
    rfl
  | succ rounds ih =>
    simp only [separateWithin, Graph.records_successors, List.contains_iff_mem,
      Graph.mem_successors]
    rw [Graph.separate]
    split
    · rename_i present
      have less := Graph.count_insertOn_lt present .activity
      have inserted := Graph.records_insertBetween_of_mem present .activity
      simp only [inserted]
      exact ih (Nat.le_of_lt_succ (Nat.lt_of_lt_of_le less enough))
    · rfl

/-- Activities on all flows between two nodes. -/
theorem mirrors_separate (source target : Nat) :
    Mirrors (separate source target) (·.separate ⟨source, target⟩) := by
  intro g
  rw [separate, Graph.records_successors, Graph.count_successors]
  exact records_separateWithin source target (Nat.le_refl _)

/-- Both sides visit the same neighbours, in the order of their numbers. -/
theorem records_nonActivities (g : Graph) (nodes : List Nat) :
    g.records.nonActivities nodes = g.nonActivities nodes := by
  simp only [nonActivities, Graph.length_records, Graph.records_hasKind]
  rfl

theorem mirrors_separateIncoming (node : Nat) :
    Mirrors (separateIncoming node) (·.separateIncoming node) := by
  intro g
  rw [separateIncoming, Graph.records_predecessors, records_nonActivities]
  exact mirrors_forEach (fun source => mirrors_separate source node) _ g

theorem mirrors_separateOutgoing (node : Nat) :
    Mirrors (separateOutgoing node) (·.separateOutgoing node) := by
  intro g
  rw [separateOutgoing, Graph.records_successors, records_nonActivities]
  exact mirrors_forEach (fun target => mirrors_separate node target) _ g

/-- The nodes of a kind are read off before the pass over them, on both sides. -/
theorem mirrors_pass {step : Nat → Records → Outcome} {change : Graph → Nat → Graph}
    (each : ∀ node, Mirrors (step node) (change · node)) (kinds : List NodeKind) :
    Mirrors (pass step kinds) (kinds.foldl fun g kind => (g.nodesOf kind).foldl change g) := by
  refine mirrors_forEach (fun kind g => ?_) kinds
  exact mirrors_forEach each (g.nodesOf kind) g

theorem mirrors_separateFinish (finish : Nat) :
    Mirrors (separateFinish finish) (·.separateFinish finish) := by
  intro g
  change separateFinish finish g.records = ((g.separateFinish finish).records, .ok ())
  rw [separateFinish, Graph.records_predecessors, Graph.separateFinish]
  cases (g.predecessors finish).head? with
  | none => rfl
  | some source =>
    dsimp only
    rw [Graph.records_hasKind]
    split
    · rfl
    · exact mirrors_separate source finish g

theorem mirrors_separateStart (start : Nat) :
    Mirrors (separateStart start) (·.separateStart start) := by
  intro g
  change separateStart start g.records = ((g.separateStart start).records, .ok ())
  rw [separateStart, Graph.records_successors, Graph.separateStart]
  cases (g.successors start).head? with
  | none => rfl
  | some target =>
    dsimp only
    rw [Graph.records_hasKind]
    split
    · rfl
    · exact mirrors_separate start target g

/-- Behind an operation that mirrors a change goes on what follows. -/
theorem Mirrors.andThen {step : Records → Outcome} {change : Graph → Graph}
    (mirrors : Mirrors step change) (next : Records → Outcome) (g : Graph) :
    (step g.records).andThen next = next (change g).records := by
  rw [mirrors g]
  rfl

/-- The passes around the gateways never fail. -/
theorem mirrors_separateGateways (next : Records → Outcome) (g : Graph) :
    ((pass separateIncoming [.join, .orJoin, .merge] g.records).andThen fun r =>
      (pass separateOutgoing [.fork, .split, .orFork] r).andThen next) =
        next g.separateGateways.records := by
  rw [(mirrors_pass mirrors_separateIncoming _).andThen,
    (mirrors_pass mirrors_separateOutgoing _).andThen]
  rfl

/-- Preparing the records of a graph leaves those of the graph that preparing leaves. -/
theorem records_simplify (g : Graph) :
    g.records.simplify = (g.simplify.1.records, g.simplify.2) := by
  have ofKind : ∀ (g : Graph) kind, g.records.byKind kind = g.nodesOf kind := fun _ _ => rfl
  rw [simplify, mirrors_separateGateways, ofKind, Graph.simplify]
  generalize g.separateGateways = g
  simp only [Graph.finish?]
  cases (g.nodesOf .finish).head? with
  | none => rfl
  | some finish =>
    simp only [(mirrors_separateFinish finish).andThen, ofKind, Graph.start?]
    generalize g.separateFinish finish = g
    cases (g.nodesOf .start).head? with
    | none => rfl
    | some start => exact mirrors_separateStart start g

end Records
end WorkflowSoundness
