import Mathlib.Data.List.Nodup
import WorkflowSoundness.Proofs.Showing
import WorkflowSoundness.Proofs.Walk

/-!
Which joins show deadlocks, and in which order. A fact at an edge is a walk to an edge that enters
a join (`starts_iff_leadsTo`). The deadlocks from the start name each join that the start edge
leads to once, by the least entering edge found (`startedJoins_ordered`), the others each join
that the edge leaving it leads back to, in the order of the joins (`printable_recurring`).
-/

namespace WorkflowSoundness

namespace Dataflow

open EdgeGraph

variable {E : EdgeGraph} {execution : Execution E} {e i : Fin E.size}

/-- A walk leads from `e` to `i`; no edge on it before `i` enters the node that `i` enters, and none
executes `out`. -/
def Arrives (execution : Execution E) (out e i : Fin E.size) : Prop :=
  ∃ before, Walk E.successors e (before ++ [i]) i ∧
    ∀ x ∈ before, E.target x ≠ E.target i ∧ x ∉ execution.executedBy[out]

theorem holds_iff_arrives : Holds (rulesFor execution) i e ↔
    E.kindOf (E.target i) = .join ∧ Arrives execution (E.exitOf (E.target i)) e i := by
  constructor
  · intro holds
    induction holds with
    | arises new =>
      obtain ⟨rfl, isJoin⟩ := mem_generated_rules.1 new
      exact ⟨isJoin, [], .stay i, by simp⟩
    | passes next _ free ih =>
      obtain ⟨isJoin, before, walk, quiet⟩ := ih
      obtain ⟨other, apart⟩ := not_or.1 fun either => free (mem_killed_rules.2 ⟨isJoin, either⟩)
      exact ⟨isJoin, _ :: before, .step next walk, List.forall_mem_cons.2 ⟨⟨other, apart⟩, quiet⟩⟩
  · rintro ⟨isJoin, before, walk, quiet⟩
    induction before generalizing e with
    | nil =>
      obtain rfl := List.mem_singleton.1 walk.first_mem
      exact .arises (mem_generated_rules.2 ⟨rfl, isJoin⟩)
    | cons x before ih =>
      obtain ⟨rfl, s, next, rest⟩ := walk.uncons (by simp)
      obtain ⟨⟨other, apart⟩, quiet⟩ := List.forall_mem_cons.1 quiet
      apply Holds.passes next (ih rest quiet)
      intro killed
      exact (mem_killed_rules.1 killed).2.elim other apart

end Dataflow

namespace Deadlock

variable {E : EdgeGraph}

/-- A walk leads from the edge `e` to the edge `i`, which enters the join; before `i` it meets no
edge that enters the join and none that executes an edge leaving it. -/
def LeadsTo (execution : Execution E) (join : Fin E.order) (e i : Fin E.size) : Prop :=
  E.target i = join ∧ ∃ before, Walk E.successors e (before ++ [i]) i ∧
    ∀ x ∈ before, E.target x ≠ join ∧
      ∀ out, E.source out = join → x ∉ execution.executedBy[out]

end Deadlock

namespace EdgeGraph

open Deadlock

variable {E : EdgeGraph} {v : Fin E.order} {e i : Fin E.size}

theorem kind_of_startedJoins (member : v ∈ E.startedJoins) : E.kindOf v = .join := by
  obtain ⟨i, rfl, starts⟩ := mem_startedJoins.1 member
  exact starts.isJoin

/-- The joins with a deadlock on a cycle, in the order of the joins. -/
theorem printable_recurring : E.recurring.map Finding.printable = (E.nodesOf .join).filter
    fun v => !(E.entering v ∩ E.dataflowOf.facts[E.exitOf v]).isEmpty := by
  have shown : ∀ v, (cyclic E.executionOf E.dataflowOf v (E.exitOf v)).value.map Finding.printable =
      Option.guard (fun v => !(E.entering v ∩ E.dataflowOf.facts[E.exitOf v]).isEmpty) v := by
    intro v
    simp only [cyclic, Counted.value_bind, Option.guard]
    split
    · rename_i empty
      refine (if_neg fun kept => ?_).symm
      simp only [empty, Bool.not_true, Bool.false_eq_true] at kept
    · rename_i some
      exact (if_pos (Bool.not_eq_true' _ ▸ Bool.eq_false_iff.2 some)).symm
  rw [recurring, List.map_filterMap, joinExits, List.filterMap_map, ← List.filterMap_eq_filter]
  exact congrArg (fun f => List.filterMap f _) (funext shown)

theorem map_deadlockFindings :
    E.deadlockFindings.map (fun finding => (finding.kind, finding.printable)) =
      E.startedJoins.map (AnnotationKind.deadlock, ·) ++
        (E.recurring.map Finding.printable).map (AnnotationKind.deadlockCycle, ·) := by
  rw [deadlockFindings_eq, List.map_append, List.map_map, List.map_map]
  congr 1
  refine List.map_congr_left fun finding member => ?_
  exact Prod.ext (mem_recurring member).1 rfl

namespace Valid

variable (valid : E.Valid)

include valid

/-- A fact at an edge tells of a walk to the edge that the fact is about. -/
theorem starts_iff_leadsTo : Starts E i e ↔
    E.kindOf (E.target i) = .join ∧ LeadsTo E.executionOf (E.target i) e i := by
  refine holds_iff_starts.symm.trans (Dataflow.holds_iff_arrives.trans ?_)
  apply and_congr_right
  intro isJoin
  have merging : (E.kindOf (E.target i)).isMerging = true := by
    rw [isJoin]
    rfl
  simp only [Dataflow.Arrives, LeadsTo, valid.source_iff merging, forall_eq, true_and]

/-- The facts of one join at an edge. -/
theorem mem_facts_of_join (isJoin : E.kindOf v = .join) :
    E.target i = v ∧ i ∈ E.dataflowOf.facts[e] ↔ LeadsTo E.executionOf v e i := by
  rw [mem_facts_iff, valid.starts_iff_leadsTo]
  constructor
  · rintro ⟨rfl, -, leads⟩
    exact leads
  · intro leads
    obtain ⟨rfl, -⟩ := id leads
    exact ⟨rfl, isJoin, leads⟩

theorem mem_startedJoins_iff : v ∈ E.startedJoins ↔
    E.kindOf v = .join ∧ ∃ i, LeadsTo E.executionOf v E.first i := by
  rw [mem_startedJoins]
  constructor
  · rintro ⟨i, rfl, starts⟩
    obtain ⟨isJoin, leads⟩ := valid.starts_iff_leadsTo.1 starts
    exact ⟨isJoin, i, leads⟩
  · rintro ⟨isJoin, i, leads⟩
    obtain ⟨rfl, -⟩ := id leads
    exact ⟨i, rfl, valid.starts_iff_leadsTo.2 ⟨isJoin, leads⟩⟩

/-- Of two joins that the start edge leads to, the one with the lesser least entering edge found
comes first. -/
theorem startedJoins_ordered : E.startedJoins.Pairwise fun v w =>
    ∃ i, LeadsTo E.executionOf v E.first i ∧
      ∀ j, LeadsTo E.executionOf w E.first j → i < j := by
  refine List.pairwise_map.2 ((ordered_scan _).imp_of_mem
    fun {former latter} left right before => ?_)
  have fact := (mem_scan.1 left).1.1
  have fact' := (mem_scan.1 right).1.1
  refine ⟨former.1, (valid.mem_facts_of_join (mem_facts_iff.1 fact).isJoin).1 ⟨rfl, fact⟩, ?_⟩
  intro j leads
  obtain ⟨there, held⟩ := (valid.mem_facts_of_join (mem_facts_iff.1 fact').isJoin).2 leads
  exact before j held there

theorem mem_recurringJoins_iff : v ∈ E.recurring.map Finding.printable ↔
    E.kindOf v = .join ∧ ∃ out, E.source out = v ∧ ∃ i, LeadsTo E.executionOf v out i := by
  have listed : v ∈ E.recurring.map Finding.printable ↔ v ∈ E.recurringJoins := by
    rw [printable_recurring]
    rfl
  rw [listed, mem_recurringJoins]
  refine and_congr_right fun isJoin => ?_
  have merging : (E.kindOf v).isMerging = true := isJoin ▸ rfl
  simp only [valid.source_iff merging, exists_eq_left]
  refine exists_congr fun i => ?_
  rw [← mem_facts_iff, valid.mem_facts_of_join isJoin]

end Valid
end EdgeGraph

namespace Deadlock

/-- On a closed valid graph the deadlock analysis names each join that the start edge leads to once,
by the least entering edge found, then each join that its own leaving edge leads to, in the order
of the joins, and no other. -/
theorem deadlocks_exact {g : Graph} {E : EdgeGraph} (accepted : g.validate = .ok ())
    (closed : EdgeGraph.ofGraph g = .ok E) (name : String) :
    ∃ execution findings, Execution.compute E = .ok execution ∧
      (Analysis.deadlocks name (Dominance.compute E .forward).value execution.value).outcome =
        .ok findings ∧
      ∃ started recurring : List (Fin E.order),
        findings.map (fun finding => (finding.kind, finding.printable)) =
          started.map (AnnotationKind.deadlock, ·) ++
            recurring.map (AnnotationKind.deadlockCycle, ·) ∧
        started.Nodup ∧
        (∀ v, v ∈ started ↔
          E.kindOf v = .join ∧ ∃ i, LeadsTo execution.value v E.first i) ∧
        (started.Pairwise fun v w => ∃ i, LeadsTo execution.value v E.first i ∧
          ∀ j, LeadsTo execution.value w E.first j → i < j) ∧
        recurring.Sublist (E.nodesOf .join) ∧
        ∀ v, v ∈ recurring ↔ E.kindOf v = .join ∧
          ∃ out, E.source out = v ∧ ∃ i, LeadsTo execution.value v out i := by
  have valid := EdgeGraph.valid_of_validate accepted closed
  refine ⟨_, E.deadlockFindings, valid.execution_eq, valid.outcome_deadlocks name,
    E.startedJoins, E.recurring.map Finding.printable, EdgeGraph.map_deadlockFindings,
    EdgeGraph.nodup_startedJoins, fun v => valid.mem_startedJoins_iff, valid.startedJoins_ordered,
    ?_, fun v => valid.mem_recurringJoins_iff⟩
  rw [EdgeGraph.printable_recurring]
  exact List.filter_sublist

/-- The join 1 waits for the edge that enters the graph and for one that only its own firing can
lead to. -/
def rejoining : Graph where
  name := "rejoining"
  nodes := [.start, .join, .split, .finish].map (⟨·, []⟩)
  flows := [⟨0, 1⟩, ⟨1, 2⟩, ⟨2, 1⟩, ⟨2, 3⟩]
  flows_inside := by decide

def rejoiningEdges : EdgeGraph :=
  .closing rejoining ⟨0, by decide⟩ ⟨3, by decide⟩

def rejoiningEdge (e : Nat) (inside : e < 4 := by decide) : Fin rejoiningEdges.size :=
  ⟨e, inside⟩

theorem deadlocks_rejoining : ∃ execution findings,
    Execution.compute rejoiningEdges = .ok execution ∧
      (Analysis.deadlocks "rejoining" (Dominance.compute rejoiningEdges .forward).value
        execution.value).outcome = .ok findings ∧
      (AnnotationKind.deadlock, ⟨1, by decide⟩) ∈
        findings.map (fun finding => (finding.kind, finding.printable)) ∧
      (AnnotationKind.deadlockCycle, ⟨1, by decide⟩) ∈
        findings.map (fun finding => (finding.kind, finding.printable)) := by
  have accepted : rejoining.validate = .ok () := by decide +kernel
  have closed : EdgeGraph.ofGraph rejoining = .ok rejoiningEdges := rfl
  have valid := EdgeGraph.valid_of_validate accepted closed
  obtain ⟨execution, findings, computed, answered, started, recurring, shown, -, isStarted, -, -,
    isRecurring⟩ := deadlocks_exact accepted closed "rejoining"
  have value : execution.value = rejoiningEdges.executionOf :=
    congrArg Counted.value (Except.ok.inj (computed.symm.trans valid.execution_eq))
  refine ⟨execution, findings, computed, answered, ?_, ?_⟩
  · rw [shown]
    refine List.mem_append_left _ (List.mem_map_of_mem ((isStarted _).2 ⟨by decide +kernel, ?_⟩))
    exact ⟨rejoiningEdge 0, by decide +kernel, [], .stay _, fun x member => absurd member
      List.not_mem_nil⟩
  · rw [shown]
    refine List.mem_append_right _ (List.mem_map_of_mem
      ((isRecurring _).2 ⟨by decide +kernel, rejoiningEdge 1, by decide +kernel, ?_⟩))
    refine ⟨rejoiningEdge 2, by decide +kernel, [rejoiningEdge 1], ?_, ?_⟩
    · exact .step (by decide +kernel) (.stay _)
    · rw [value]
      decide +kernel

end Deadlock
end WorkflowSoundness
