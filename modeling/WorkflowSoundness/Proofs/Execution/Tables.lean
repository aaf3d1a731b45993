import WorkflowSoundness.Proofs.Execution

/-!
What the two tables of the execution relation hold, edge by edge. They tell the same of every edge
that leaves no join (`Mirrored`), and the step for a join keeps this. So an edge that enters a join
is executed by the greatest set that executes it, the edge behind the join by what all entering
edges have in common, and an edge away from the joins by nothing (`execution_greatest`).
-/

namespace WorkflowSoundness

namespace Execution

variable {E : EdgeGraph} {execution : Execution E} {i out : Fin E.size} {v : Fin E.order}

/-- Of an edge that leaves no join, both tables tell the same. -/
def Mirrored (execution : Execution E) : Prop :=
  ∀ s x, E.kindOf (E.source x) ≠ .join →
    (x ∈ execution.executes[s] ↔ s ∈ execution.executedBy[x])

theorem mirrored_empty : Mirrored (empty (E := E)) := by
  intro s x _
  have none : (empty (E := E)).executes[s] = ∅ := Table.getElem_replicate _ _
  have none' : (empty (E := E)).executedBy[x] = ∅ := Table.getElem_replicate _ _
  rw [none, none']
  exact iff_of_false (BitSet.not_mem_empty x) (BitSet.not_mem_empty s)

/-- An edge that enters a join leaves none, so adding it changes both tables alike. -/
theorem Mirrored.addEntering (mirrored : Mirrored execution)
    (leaves : E.kindOf (E.source out) = .join) (apart : E.kindOf (E.source i) ≠ .join) :
    Mirrored (execution.addEntering i out).value := by
  intro s x plain
  have other : i ≠ out := fun same => apart (same ▸ leaves)
  have notOut : out ≠ x := fun same => plain (same ▸ leaves)
  rw [executes_addEntering, executedBy_addEntering _ other, mirrored s x plain]
  by_cases here : i = x
  · subst here
    rw [if_pos rfl, BitSet.mem_union]
    exact or_congr_right (and_iff_left rfl)
  · rw [if_neg here, if_neg notOut]
    exact or_iff_left fun both => here both.2.symm

/-- The edge behind the join is set apart before the join is filled in. -/
theorem Mirrored.addJoin (mirrored : Mirrored execution) (leaves : E.kindOf (E.source out) = .join)
    (apart : ∀ i, E.target i = v → E.kindOf (E.source i) ≠ .join) :
    Mirrored (execution.addJoin (v, out)).value := by
  have opened : Mirrored { execution with executedBy := execution.executedBy.set out .full } := by
    intro s x plain
    have notOut : out ≠ x := fun same => plain (same ▸ leaves)
    rw [Table.getElem_set_ne notOut]
    exact mirrored s x plain
  have filled : Mirrored ((E.entering v).toList.foldlM
      (fun (filled : Execution E) i => filled.addEntering i out)
      { execution with executedBy := execution.executedBy.set out .full }).value := by
    rw [Counted.value_foldlM]
    refine List.foldlRecOn _ _ opened fun filled kept i member => kept.addEntering leaves ?_
    exact apart i (E.mem_entering.1 (BitSet.mem_toList.1 member))
  exact filled

end Execution

namespace EdgeGraph

open Execution

variable {E : EdgeGraph} (valid : E.Valid) (simple : E.Simple) {i out x : Fin E.size}

/-- In front of a join stands an activity, so no edge enters a join and leaves one. -/
theorem Simple.source_ne_join {E : EdgeGraph} (simple : E.Simple) {i : Fin E.size}
    (enters : E.kindOf (E.target i) = .join) : E.kindOf (E.source i) ≠ .join := by
  intro leaves
  have before := simple.before i (enters ▸ rfl)
  rw [leaves] at before
  cases before

include valid simple

/-- On a simple valid graph the tables agree on all edges that leave no join. -/
theorem mirrored_executionOf : Mirrored E.executionOf := by
  unfold executionOf
  rw [Counted.value_foldlM]
  refine List.foldlRecOn _ _ mirrored_empty fun execution kept (v, out) member => ?_
  obtain ⟨isJoin, rfl⟩ := mem_joinExits.1 member
  have leaves : E.source (E.exitOf v) = v := valid.source_exitOf (by rw [isJoin]; rfl)
  refine kept.addJoin (leaves.symm ▸ isJoin) fun i enters => ?_
  exact simple.source_ne_join (enters.symm ▸ isJoin)

theorem mem_executedBy_entering (isJoin : E.kindOf (E.target i) = .join) :
    x ∈ E.executionOf.executedBy[i] ↔ x ∈ (approximate E i (E.exitOf (E.target i))).value := by
  rw [← mirrored_executionOf valid simple x i (simple.source_ne_join isJoin),
    mem_executes valid simple]
  exact and_iff_right isJoin

/-- Of other edges nothing is recorded. -/
theorem not_mem_executedBy (enters : E.kindOf (E.target i) ≠ .join)
    (leaves : E.kindOf (E.source i) ≠ .join) : x ∉ E.executionOf.executedBy[i] := by
  rw [← mirrored_executionOf valid simple x i leaves, mem_executes valid simple]
  exact fun both => enters both.1

/-- What executes an edge that enters a join is the greatest set that does. -/
theorem executedBy_greatest (isJoin : E.kindOf (E.target i) = .join)
    (leaves : E.source out = E.target i) :
    Executing E i out (· ∈ E.executionOf.executedBy[i]) ∧
      ∀ X, Executing E i out X → ∀ e, X e → e ∈ E.executionOf.executedBy[i] := by
  have plain : (E.kindOf (E.target i)).isChoosing = false := isJoin ▸ rfl
  have exit : out = E.exitOf (E.target i) := (valid.source_iff (by rw [isJoin]; rfl) out).1 leaves
  have held : (· ∈ E.executionOf.executedBy[i]) =
      (· ∈ (approximate E i (E.exitOf (E.target i))).value) :=
    funext fun e => propext (mem_executedBy_entering valid simple isJoin)
  rw [exit, held]
  simp only [mem_executedBy_entering valid simple isJoin]
  exact approximate_greatest simple.apart plain _

/-- The exit of a join is executed by what executes all its entering edges. -/
theorem mem_executedBy_leaving (isJoin : E.kindOf (E.source out) = .join) :
    x ∈ E.executionOf.executedBy[out] ↔
      ∀ i, E.target i = E.source out → x ∈ E.executionOf.executedBy[i] := by
  have exit : out = E.exitOf (E.source out) :=
    (valid.source_iff (by rw [isJoin]; rfl) out).1 rfl
  rw [congrArg (E.executionOf.executedBy[·]) exit, mem_executedBy_exitOf valid simple isJoin]
  refine forall_congr' fun i => imp_congr_right fun enters => ?_
  rw [mem_executedBy_entering valid simple (enters.symm ▸ isJoin), enters]

/-- One table is the other one read backwards. -/
theorem mem_executes_iff : i ∈ E.executionOf.executes[x] ↔
    E.kindOf (E.target i) = .join ∧ x ∈ E.executionOf.executedBy[i] := by
  rw [mem_executes valid simple]
  exact and_congr_right fun isJoin => (mem_executedBy_entering valid simple isJoin).symm

end EdgeGraph

namespace Execution

/-- On a closed valid graph of the simple shape an edge that enters a join is executed by the
greatest set of edges that leaves no way around it, the edge that leaves the join by what executes
all edges entering it, and every other edge by none; `executes` is the converse for the edges that
enter joins. -/
theorem execution_greatest {g : Graph} {E : EdgeGraph} (accepted : g.validate = .ok ())
    (closed : EdgeGraph.ofGraph g = .ok E) (simple : E.Simple) :
    ∃ execution, Execution.compute E = .ok execution ∧
      (∀ join i out, E.kindOf join = .join → E.target i = join → E.source out = join →
        Executing E i out (· ∈ execution.value.executedBy[i]) ∧
        ∀ X, Executing E i out X → ∀ e, X e → e ∈ execution.value.executedBy[i]) ∧
      (∀ join out, E.kindOf join = .join → E.source out = join → ∀ e,
        e ∈ execution.value.executedBy[out] ↔
          ∀ i, E.target i = join → e ∈ execution.value.executedBy[i]) ∧
      (∀ e, E.kindOf (E.target e) ≠ .join → E.kindOf (E.source e) ≠ .join →
        ∀ x, x ∉ execution.value.executedBy[e]) ∧
      ∀ s i, i ∈ execution.value.executes[s] ↔
        E.kindOf (E.target i) = .join ∧ s ∈ execution.value.executedBy[i] := by
  have valid := EdgeGraph.valid_of_validate accepted closed
  refine ⟨_, valid.execution_eq, ?_, ?_, ?_, ?_⟩
  · rintro join i out isJoin rfl leaves
    exact EdgeGraph.executedBy_greatest valid simple isJoin leaves
  · rintro join out isJoin rfl e
    exact EdgeGraph.mem_executedBy_leaving valid simple isJoin
  · intro e enters leaves x
    exact EdgeGraph.not_mem_executedBy valid simple enters leaves
  · intro s i
    exact EdgeGraph.mem_executes_iff valid simple

/-- One branch of the fork 2 may go around the join 8 at the choice 5. -/
def bypassing : Graph where
  name := "bypassing"
  nodes := [.start, .activity, .fork, .activity, .activity, .split, .activity, .activity, .join,
    .activity, .merge, .activity, .finish].map (⟨·, []⟩)
  flows := [⟨0, 1⟩, ⟨1, 2⟩, ⟨2, 3⟩, ⟨2, 4⟩, ⟨3, 8⟩, ⟨4, 5⟩, ⟨5, 6⟩, ⟨5, 7⟩, ⟨6, 8⟩, ⟨7, 10⟩,
    ⟨8, 9⟩, ⟨9, 10⟩, ⟨10, 11⟩, ⟨11, 12⟩]
  flows_inside := by decide

def bypassingEdges : EdgeGraph :=
  .closing bypassing ⟨0, by decide⟩ ⟨13, by decide⟩

def bypassingEdge (e : Nat) (inside : e < 14 := by decide) : Fin bypassingEdges.size :=
  ⟨e, inside⟩

theorem executes_bypassing : bypassing.validate = .ok () ∧ bypassingEdges.Simple ∧
    ∃ execution, Execution.compute bypassingEdges = .ok execution ∧
      bypassingEdge 6 ∈ execution.value.executedBy[bypassingEdge 8] ∧
      bypassingEdge 8 ∈ execution.value.executes[bypassingEdge 6] ∧
      (bypassingEdge 5 ∈ execution.value.executedBy[bypassingEdge 8] →
        bypassingEdge 7 ∈ execution.value.executedBy[bypassingEdge 8]) := by
  have accepted : bypassing.validate = .ok () := by decide +kernel
  have simple : bypassingEdges.Simple := ⟨by decide +kernel, by decide +kernel⟩
  obtain ⟨execution, computed, entering, -, -, converse⟩ :=
    execution_greatest accepted rfl simple
  obtain ⟨executing, greatest⟩ := entering ⟨8, by decide⟩ (bypassingEdge 8) (bypassingEdge 10)
    (by decide +kernel) (by decide +kernel) (by decide +kernel)
  have branch : Executing bypassingEdges (bypassingEdge 8) (bypassingEdge 10)
      fun e => e = bypassingEdge 6 ∨ e = bypassingEdge 8 := by
    refine ⟨fun e member => ?_, by decide +kernel⟩
    rcases member with rfl | rfl
    · exact Or.inr ⟨bypassingEdge 8, by decide +kernel, .stay ⟨Or.inr rfl, by decide⟩⟩
    · exact Or.inl rfl
  have inside := greatest _ branch (bypassingEdge 6) (Or.inl rfl)
  refine ⟨accepted, simple, execution, computed, inside, ?_, fun member => ?_⟩
  · exact (converse _ _).2 ⟨by decide +kernel, inside⟩
  · exact executing.choices _ _ member (by decide +kernel) (by decide +kernel)

end Execution
end WorkflowSoundness
