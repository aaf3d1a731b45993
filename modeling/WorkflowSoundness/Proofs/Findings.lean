import WorkflowSoundness.Plan
import WorkflowSoundness.Proofs.Closing
import WorkflowSoundness.Proofs.Reports

/-!
What the analyses find on a valid edge graph. There no edge is missing, so every analysis
succeeds, and what it answers is a plain value. `findings` collects the answers in the order in
which verification returns them (`outcome_analyze`).
-/

namespace WorkflowSoundness

/-- The first definition of each edge. -/
def Abundance.distinctEdges {E : EdgeGraph} :
    List (Abundance.Definition E) → List (Abundance.Definition E)
  | [] => []
  | definition :: later =>
    definition :: (distinctEdges later).filter fun other => other.edge != definition.edge

namespace EdgeGraph

variable (E : EdgeGraph)

/-- The least edge that leaves a node; the start edge stands in where none does. -/
def exitOf (v : Fin E.order) : Fin E.size :=
  (E.leaving v).first?.getD E.first

/-- The least edge that enters a node; the end edge stands in where none does. -/
def entryOf (v : Fin E.order) : Fin E.size :=
  (E.entering v).first?.getD E.last

/-- The joins, each with the edge that leaves it. -/
def joinExits : List (Fin E.order × Fin E.size) :=
  (E.nodesOf .join).map fun v => (v, E.exitOf v)

variable {E} {v : Fin E.order}

/-- The first member of a set with one member. -/
theorem first?_eq_of_unique {n : Nat} {s : BitSet n} {e : Fin n} (only : ∀ x, x ∈ s ↔ x = e) :
    s.first? = some e := by
  refine BitSet.first?_eq_some_iff.2 ⟨(only e).2 rfl, fun x member => ?_⟩
  exact Nat.le_of_eq (congrArg Fin.val ((only x).1 member).symm)

namespace Valid

variable (valid : E.Valid)

include valid

/-- One edge only leaves a merging node. -/
theorem source_iff (merging : (E.kindOf v).isMerging = true) (x : Fin E.size) :
    E.source x = v ↔ x = E.exitOf v := by
  obtain ⟨e, only⟩ := valid.merge_out v merging
  have first := first?_eq_of_unique fun x => (E.mem_leaving (v := v)).trans (only x)
  rw [exitOf, first]
  exact only x

/-- One edge only enters a splitting node. -/
theorem target_iff (splitting : (E.kindOf v).isSplitting = true) (x : Fin E.size) :
    E.target x = v ↔ x = E.entryOf v := by
  obtain ⟨e, only⟩ := valid.split_in v splitting
  have first := first?_eq_of_unique fun x => (E.mem_entering (v := v)).trans (only x)
  rw [entryOf, first]
  exact only x

theorem source_exitOf (merging : (E.kindOf v).isMerging = true) : E.source (E.exitOf v) = v :=
  (valid.source_iff merging _).2 rfl

theorem target_entryOf (splitting : (E.kindOf v).isSplitting = true) :
    E.target (E.entryOf v) = v :=
  (valid.target_iff splitting _).2 rfl

/-- Asking a merging node for its one outgoing edge is no misuse. -/
theorem soleOutgoing_eq (merging : (E.kindOf v).isMerging = true) :
    E.soleOutgoing v = .ok (E.exitOf v) := by
  have first := first?_eq_of_unique fun x =>
    (E.mem_leaving (v := v)).trans (valid.source_iff merging x)
  rw [soleOutgoing, first]

/-- Asking a splitting node for its one incoming edge is no misuse. -/
theorem soleIncoming_eq (splitting : (E.kindOf v).isSplitting = true) :
    E.soleIncoming v = .ok (E.entryOf v) := by
  have first := first?_eq_of_unique fun x =>
    (E.mem_entering (v := v)).trans (valid.target_iff splitting x)
  rw [soleIncoming, first]

/-- Each join has one edge that leaves it, so listing the joins is no misuse. -/
theorem joins_eq : E.joins = .ok E.joinExits := by
  refine exceptMapM_eq_ok fun v member => ?_
  have merging : (E.kindOf v).isMerging = true := by
    rw [E.mem_nodesOf.1 member]
    rfl
  rw [valid.soleOutgoing_eq merging]
  rfl

end Valid

/-! ### The answers -/

/-- The execution relation over all joins. -/
def executionOf (E : EdgeGraph) : Execution E :=
  (E.joinExits.foldlM Execution.addJoin (Execution.empty (E := E))).value

/-- Where the facts of the deadlock analysis arise, and what holds them back. -/
def dataflowRules (E : EdgeGraph) : Dataflow E :=
  (E.joinExits.foldlM (Dataflow.addJoin E.executionOf) (Dataflow.initial E)).value

/-- The least solution of the deadlock analysis. -/
def dataflowOf (E : EdgeGraph) : Dataflow E :=
  let worklist := E.joinExits.flatMap fun join => (E.entering join.1).toList
  (Dataflow.propagate (worklist.length + E.size * E.size * E.size) worklist E.dataflowRules).value

def dominanceOf (E : EdgeGraph) (direction : Direction) : Dominance E :=
  (Dominance.compute E direction).value

/-- What the abundance analysis of the graph builds on. -/
def basisOf (E : EdgeGraph) : Abundance.Basis E where
  dominance := E.dominanceOf .forward
  postDominance := E.dominanceOf .backward
  components := Components.compute E
  execution := E.executionOf

def waitFindings (E : EdgeGraph) : List (Finding E) :=
  (E.nodesOf .orJoin).map fun v => WaitingArea.finding v
    (WaitingArea.areaOf (E.dominanceOf .forward) (E.dominanceOf .backward) v (E.exitOf v))

def deadlockFindings (E : EdgeGraph) : List (Finding E) :=
  (Deadlock.scan E.dataflowOf.facts[E.first]).map (fun (i, reached) =>
    (Deadlock.normal E.executionOf E.dataflowOf (E.dominanceOf .forward) (E.target i)
      (E.exitOf (E.target i)) reached).value) ++
  E.joinExits.filterMap fun (v, out) =>
    (Deadlock.cyclic E.executionOf E.dataflowOf v out).value

/-- The definitions of one fork. -/
def definitionsOf (E : EdgeGraph) (fork : Fin E.order) : List (Abundance.Definition E) :=
  (Abundance.definitions E.basisOf fork (E.entryOf fork)).value

def bondOf (E : EdgeGraph) (fork : Fin E.order) : E.Edges :=
  (Abundance.bond (E.dominanceOf .backward) fork (E.entryOf fork)).value

/-- The meetings of one fork. -/
def meetingsOf (E : EdgeGraph) (fork : Fin E.order) : List (Abundance.Meeting E) :=
  (Abundance.distinctEdges
    ((E.definitionsOf fork).filter (Abundance.isCandidate (E.bondOf fork)))).filterMap
      fun definition => (Abundance.meeting? E.basisOf fork (E.entryOf fork)
        (Abundance.allowed E.basisOf (E.bondOf fork) definition.edge) definition).value

def abundanceFindings (E : EdgeGraph) : List (Finding E) :=
  (Abundance.forks E).flatMap fun fork =>
    (E.meetingsOf fork).map (Abundance.Meeting.finding fork)

/-- All findings in the order in which they are returned. -/
def findings (E : EdgeGraph) : List (Finding E) :=
  E.waitFindings ++ E.deadlockFindings ++ E.abundanceFindings

namespace Valid

variable (valid : E.Valid)

include valid

theorem execution_eq :
    Execution.compute E = .ok (E.joinExits.foldlM Execution.addJoin Execution.empty) := by
  rw [Execution.compute, valid.joins_eq]
  rfl

theorem outcome_execution (name : String) :
    (Analysis.execution name E).outcome =
      .ok (E.joinExits.foldlM Execution.addJoin Execution.empty) := by
  unfold Analysis.execution
  rw [Report.outcome_timed]
  refine Report.outcome_then (Report.outcome_ofMisuse valid.execution_eq) ?_
  exact Report.outcome_then (Report.outcome_forM _ fun _ _ => rfl) rfl

theorem outcome_waitingAreas (name : String) :
    (Analysis.waitingAreas name (E.dominanceOf .forward) (E.dominanceOf .backward)).outcome =
      .ok ((E.nodesOf .orJoin).map fun v => (v,
        WaitingArea.areaOf (E.dominanceOf .forward) (E.dominanceOf .backward) v (E.exitOf v))) := by
  have computed : WaitingArea.compute (E.dominanceOf .forward) (E.dominanceOf .backward) =
      .ok ((E.nodesOf .orJoin).map fun v => (v,
        WaitingArea.areaOf (E.dominanceOf .forward) (E.dominanceOf .backward) v (E.exitOf v))) := by
    refine exceptMapM_eq_ok fun v member => ?_
    have merging : (E.kindOf v).isMerging = true := by
      rw [E.mem_nodesOf.1 member]
      rfl
    rw [valid.soleOutgoing_eq merging]
    rfl
  unfold Analysis.waitingAreas
  rw [Report.outcome_timed]
  refine Report.outcome_then (Report.outcome_ofMisuse computed) ?_
  exact Report.outcome_then (Report.outcome_forM _ fun _ _ => rfl) rfl

end Valid
end EdgeGraph
end WorkflowSoundness
