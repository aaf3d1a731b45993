import WorkflowSoundness.Proofs.Deadlock.Exact
import WorkflowSoundness.Proofs.Halting

/-!
The deadlock dataflow as an equation system. The worklist begins with the edges that enter joins
and takes up another edge only when what follows it has changed. Still it ends with every edge in
balance, and in the least facts that are: those told by a walk to an edge that enters a join
(`holds_iff_arrives`). This needs nothing of the execution sets, and of the graph only that its
joins can be left (`solve_least`).
-/

namespace WorkflowSoundness

namespace EdgeGraph

variable {E : EdgeGraph}

theorem soleOutgoing_of_source {v : Fin E.order} {e : Fin E.size} (leaves : E.source e = v) :
    E.soleOutgoing v = .ok (E.exitOf v) := by
  cases first : (E.leaving v).first? with
  | none => exact absurd (E.mem_leaving.2 leaves) (BitSet.first?_eq_none_iff.1 first e)
  | some out => simp [soleOutgoing, exitOf, first]

theorem joins_of_left (left : ∀ v, E.kindOf v = .join → ∃ e, E.source e = v) :
    E.joins = .ok E.joinExits := by
  apply exceptMapM_eq_ok
  intro v member
  obtain ⟨e, leaves⟩ := left v (E.mem_nodesOf.1 member)
  rw [soleOutgoing_of_source leaves]
  rfl

/-- What holds of the edge that leaves a join holds of the one that a look-up finds. -/
theorem join_and_iff (left : ∀ v, E.kindOf v = .join → ∃ e, E.source e = v) {v : Fin E.order}
    {P : Fin E.size → Prop} : E.kindOf v = .join ∧ P (E.exitOf v) ↔
      E.kindOf v = .join ∧ ∃ out, E.soleOutgoing v = .ok out ∧ P out := by
  apply and_congr_right
  intro isJoin
  obtain ⟨e, leaves⟩ := left v isJoin
  rw [soleOutgoing_of_source leaves]
  simp

end EdgeGraph

namespace Dataflow

open EdgeGraph

variable {E : EdgeGraph} {execution : Execution E} {flow : Dataflow E} {e i : Fin E.size}

/-- A fact that holds arises here or is passed by a successor. -/
theorem holds_iff : Holds flow i e ↔
    (∃ s ∈ E.successors e, Holds flow i s) ∧ i ∉ flow.killed[e] ∨ i ∈ flow.generated[e] := by
  constructor
  · intro holds
    cases holds with
    | arises new => exact Or.inr new
    | passes next holds free => exact Or.inl ⟨⟨_, next, holds⟩, free⟩
  · rintro (⟨⟨s, next, holds⟩, free⟩ | new)
    · exact .passes next holds free
    · exact .arises new

/-- Facts that hold are in every table from which the equations lead no further. -/
theorem Holds.least {other : Table E.Edges E.size}
    (closed : ∀ e i : Fin E.size, (∃ s ∈ E.successors e, i ∈ other[s]) ∧ i ∉ flow.killed[e] ∨
      i ∈ flow.generated[e] → i ∈ other[e]) (holds : Holds flow i e) : i ∈ other[e] := by
  induction holds with
  | arises new => exact closed _ i (Or.inr new)
  | passes next _ free ih => exact closed _ i (Or.inl ⟨⟨_, next, ih⟩, free⟩)

/-- The worklist changes nothing but the facts. -/
theorem propagate_frame (fuel : Nat) (worklist : List (Fin E.size)) (flow : Dataflow E) :
    (propagate fuel worklist flow).value.generated = flow.generated ∧
      (propagate fuel worklist flow).value.killed = flow.killed := by
  fun_induction propagate fuel worklist flow with
  | case1 => exact ⟨rfl, rfl⟩
  | case2 => exact ⟨rfl, rfl⟩
  | case3 fuel e rest flow same grows =>
    simp only [Counted.value_bind]
    split
    · exact same
    · exact grows

/-- What it means to solve the dataflow of a family of execution sets: the edges that enter joins
generate themselves, a join's edges and those that execute the edge leaving it kill the facts of the
join, every edge is in balance, and no table in balance holds less. Told by walks, a fact `i` holds
at `e` if a walk from `e` arrives at `i`. -/
structure Solves (execution : Execution E) (flow : Dataflow E) : Prop where
  generated : ∀ e i, i ∈ flow.generated[e] ↔ i = e ∧ E.kindOf (E.target e) = .join
  killed : ∀ e i, i ∈ flow.killed[e] ↔ E.kindOf (E.target i) = .join ∧
    ∃ out, E.soleOutgoing (E.target i) = .ok out ∧
      (E.target e = E.target i ∨ e ∈ execution.executedBy[out])
  balanced : ∀ e i, i ∈ flow.facts[e] ↔
    (∃ s ∈ E.successors e, i ∈ flow.facts[s]) ∧ i ∉ flow.killed[e] ∨ i ∈ flow.generated[e]
  least : ∀ other : Table E.Edges E.size,
    (∀ e i : Fin E.size, (∃ s ∈ E.successors e, i ∈ other[s]) ∧ i ∉ flow.killed[e] ∨
      i ∈ flow.generated[e] → i ∈ other[e]) →
    ∀ e i : Fin E.size, i ∈ flow.facts[e] → i ∈ other[e]
  walks : ∀ e i, i ∈ flow.facts[e] ↔ E.kindOf (E.target i) = .join ∧
    ∃ out, E.soleOutgoing (E.target i) = .ok out ∧ Arrives execution out e i

theorem exists_solve (execution : Execution E)
    (left : ∀ v, E.kindOf v = .join → ∃ e, E.source e = v) :
    ∃ solved, solve execution = .ok solved ∧
      solved.value.generated = (rulesFor execution).generated ∧
      solved.value.killed = (rulesFor execution).killed ∧
      ∀ e i, i ∈ solved.value.facts[e] ↔ Holds (rulesFor execution) i e := by
  unfold solve
  rw [joins_of_left left]
  obtain ⟨generated, killed⟩ := propagate_frame _ _ (rulesFor execution)
  exact ⟨_, rfl, generated, killed, fun e i => mem_facts_propagate⟩

/-- Whatever the execution sets are, the worklist of a graph whose joins can be left ends by itself,
and what it ends in solves the dataflow. -/
theorem solve_least {E : EdgeGraph} (execution : Execution E)
    (left : ∀ v, E.kindOf v = .join → ∃ e, E.source e = v) :
    ∃ joins solved, E.joins = .ok joins ∧ solve execution = .ok solved ∧
      Finishes (fun rounds => do
        let flow ← joins.foldlM (addJoin execution) (initial E)
        propagate rounds (joins.flatMap fun join => (E.entering join.1).toList) flow) solved ∧
      Solves execution solved.value := by
  have listed := joins_of_left left
  obtain ⟨solved, answered, generated, killed, facts⟩ := exists_solve execution left
  have finishes := E.halts.propagating execution _ listed _ answered
  refine ⟨E.joinExits, solved, listed, answered, finishes, ?_⟩
  constructor
  case generated =>
    intro e i
    rw [generated]
    exact mem_generated_rules
  case killed =>
    intro e i
    rw [killed, mem_killed_rules]
    exact join_and_iff left
      (P := fun out => E.target e = E.target i ∨ e ∈ execution.executedBy[out])
  case balanced =>
    intro e i
    simp only [facts, generated, killed]
    exact holds_iff
  case least =>
    intro other closed e i fact
    rw [generated, killed] at closed
    exact ((facts e i).1 fact).least closed
  case walks =>
    intro e i
    rw [facts, holds_iff_arrives]
    exact join_and_iff left (P := fun out => Arrives execution out e i)

/-- Two edges leave the join 1, one to the activity that leads back to it. -/
def diverting : Graph where
  name := "diverting"
  nodes := [.start, .join, .activity, .finish].map (⟨·, []⟩)
  flows := [⟨0, 1⟩, ⟨1, 2⟩, ⟨2, 1⟩, ⟨1, 3⟩]
  flows_inside := by decide

def divertingEdges : EdgeGraph :=
  .closing diverting ⟨0, by decide⟩ ⟨2, by decide⟩

def divertingEdge (e : Nat) (inside : e < 4 := by decide) : Fin divertingEdges.size :=
  ⟨e, inside⟩

/-- Every edge executes the second edge that leaves the join, and none the first. -/
def secondExecuted : Execution divertingEdges :=
  { (Execution.empty : Execution divertingEdges) with
    executedBy := (Table.replicate _ ∅).set (divertingEdge 2) .full }

/-- The first edge that leaves the join counts: it leads back to the join although all edges execute
the second. -/
theorem solve_diverting : EdgeGraph.ofGraph diverting = .ok divertingEdges ∧
    (∀ v, divertingEdges.kindOf v = .join → ∃ e, divertingEdges.source e = v) ∧
    ∃ solved, solve secondExecuted = .ok solved ∧
      divertingEdge 3 ∈ solved.value.facts[divertingEdge 1] := by
  have left : ∀ v, divertingEdges.kindOf v = .join → ∃ e, divertingEdges.source e = v := by
    decide +kernel
  obtain ⟨_, solved, _, answered, _, solves⟩ := solve_least secondExecuted left
  refine ⟨rfl, left, solved, answered,
    (solves.walks _ _).2 ⟨by decide +kernel, divertingEdge 1, ?_, ?_⟩⟩
  · decide +kernel
  · refine ⟨[divertingEdge 1], .step (by decide +kernel) (.stay _), ?_⟩
    decide +kernel

end Dataflow
end WorkflowSoundness
