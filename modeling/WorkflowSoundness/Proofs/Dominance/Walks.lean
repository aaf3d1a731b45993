import WorkflowSoundness.Proofs.Dominance.Laws
import WorkflowSoundness.Proofs.Walk

/-!
The computed dominance told by walks. On the edges of any closed graph, in both directions, the
dominators of an edge that the root leads to are the edges on every walk to it, and an edge that
the root does not lead to has itself as its only one (`mem_dominatorsOf_compute_iff`). On a valid
graph the frontier of an edge holds exactly the edges at which it stops being on every walk
(`mem_frontier_compute_iff`).
-/

namespace WorkflowSoundness

namespace EdgeGraph

variable {E : EdgeGraph} {direction : Direction} {d e : Fin E.size}

theorem reached_iff_walk :
    E.Reached direction e ↔ ∃ W, Walk (E.following direction) (E.root direction) W e :=
  path_iff_walk

theorem dominates_iff_walk : E.Dominates direction d e ↔
    ∀ W, Walk (E.following direction) (E.root direction) W e → d ∈ W := by
  unfold EdgeGraph.Dominates WorkflowSoundness.Dominates
  rw [trail_iff_walk]
  constructor
  · intro none W walk
    refine Classical.byContradiction fun absent => none ⟨W, walk, fun x member same => ?_⟩
    exact absent (same ▸ member)
  · rintro all ⟨W, walk, free⟩
    exact free d (all W walk) rfl

/-- Post-dominance told by the walks to the end edge. -/
theorem dominates_backward_iff_walk :
    E.Dominates .backward d e ↔ ∀ W, Walk E.successors e W E.last → d ∈ W := by
  rw [dominates_iff_walk]
  constructor
  · intro all W walk
    have back := walk.reverse fun x y => E.mem_successors_iff_mem_predecessors.1
    exact List.mem_reverse.1 (all W.reverse back)
  · intro all W back
    have walk := back.reverse fun x y => E.mem_successors_iff_mem_predecessors.2
    exact List.mem_reverse.1 (all W.reverse walk)

namespace Valid

variable (valid : E.Valid)

include valid

theorem exists_walk_to_last (e : Fin E.size) : ∃ W, Walk E.successors e W E.last := by
  obtain ⟨W, back⟩ := reached_iff_walk.1 (valid.reached .backward e)
  exact ⟨W.reverse, back.reverse fun x y => E.mem_successors_iff_mem_predecessors.2⟩

/-- The immediate post-dominator told by the walks to the end edge. -/
theorem immediate?_backward_iff :
    (Dominance.compute E .backward).value.immediate? e = some d ↔
      d ≠ e ∧ (∀ W, Walk E.successors e W E.last → d ∈ W) ∧
        ∀ x, x ≠ e → (∀ W, Walk E.successors e W E.last → x ∈ W) →
          ∀ W, Walk E.successors d W E.last → x ∈ W := by
  rw [valid.immediate?_eq_some_iff]
  simp only [dominates_backward_iff_walk]

end Valid

end EdgeGraph

namespace Dominance

open DominatorTree

variable {E : EdgeGraph} {direction : Direction} {d e : Fin E.size}

theorem chainFrom_of_none {n : Nat} {root a : Fin n} {parents : Parents n}
    (unknown : parents[a] = none) (other : a ≠ root) {fuel : Nat} (some : 0 < fuel) :
    chainFrom root parents fuel a = [a] := by
  cases fuel with
  | zero => exact absurd some (Nat.lt_irrefl 0)
  | succ fuel => simp only [chainFrom, if_neg other, unknown]

/-- Where no walk leads, the chain of an edge does not leave it. -/
theorem chainOf_unreached (unreached : ¬ E.Reached direction e) :
    chainOf E direction (finalParents E direction) e = [e] := by
  have unknown : (finalParents E direction)[e] = none := by
    rw [← Option.not_isSome_iff_eq_none, (finalParents_spec E direction).2.1 e]
    exact unreached
  have other : e ≠ E.root direction := fun here => unreached (here ▸ .stay _)
  exact chainFrom_of_none unknown other (Nat.lt_of_le_of_lt (Nat.zero_le _) e.isLt)

theorem mem_dominatorsOf_of_unreached (unreached : ¬ E.Reached direction e) :
    d ∈ (compute E direction).value.dominatorsOf e ↔ d = e := by
  rw [dominatorsOf_compute, BitSet.mem_ofList, chainOf_unreached unreached, List.mem_singleton]

/-- The computed dominators of an edge are the edges on every walk from the root to it, or the edge
alone if there is no walk. -/
theorem mem_dominatorsOf_compute_iff (E : EdgeGraph) (direction : Direction) (d e : Fin E.size) :
    d ∈ (compute E direction).value.dominatorsOf e ↔
      (∃ W, Walk (E.following direction) (E.root direction) W e) ∧
        (∀ W, Walk (E.following direction) (E.root direction) W e → d ∈ W) ∨
      (¬ ∃ W, Walk (E.following direction) (E.root direction) W e) ∧ d = e := by
  rw [← EdgeGraph.reached_iff_walk, ← EdgeGraph.dominates_iff_walk]
  by_cases reach : E.Reached direction e
  · rw [mem_dominatorsOf_iff reach]
    constructor
    · intro dominates
      exact Or.inl ⟨reach, dominates⟩
    · rintro (⟨-, dominates⟩ | ⟨unreached, -⟩)
      · exact dominates
      · exact absurd reach unreached
  · rw [mem_dominatorsOf_of_unreached reach]
    constructor
    · intro same
      exact Or.inr ⟨reach, same⟩
    · rintro (⟨reached, -⟩ | ⟨-, same⟩)
      · exact absurd reached reach
      · exact same

/-- On a valid closed graph the frontier of an edge holds the edges of which it dominates one edge
before them and which it does not dominate strictly. -/
theorem mem_frontier_compute_iff {g : Graph} {E : EdgeGraph} (accepted : g.validate = .ok ())
    (closed : EdgeGraph.ofGraph g = .ok E) (direction : Direction) (d e : Fin E.size) :
    e ∈ (compute E direction).value.frontier d ↔
      (∃ p ∈ E.preceding direction e,
        ∀ W, Walk (E.following direction) (E.root direction) W p → d ∈ W) ∧
      ¬ (d ≠ e ∧ ∀ W, Walk (E.following direction) (E.root direction) W e → d ∈ W) := by
  have valid := EdgeGraph.valid_of_validate accepted closed
  rw [valid.mem_frontier_iff]
  simp only [EdgeGraph.dominates_iff_walk]

/-- From the split 2 an activity leads back to the merge 1. -/
def retrying : Graph where
  name := "retrying"
  nodes := [.start, .merge, .split, .activity, .finish].map (⟨·, []⟩)
  flows := [⟨0, 1⟩, ⟨1, 2⟩, ⟨2, 3⟩, ⟨2, 4⟩, ⟨3, 1⟩]
  flows_inside := by decide

def retryingEdges : EdgeGraph :=
  .closing retrying ⟨0, by decide⟩ ⟨3, by decide⟩

def retryingEdge (e : Nat) (inside : e < 5 := by decide) : Fin retryingEdges.size :=
  ⟨e, inside⟩

/-- The edge from the merge is in its own frontier, as the way back only leads over itself; the edge
that leaves the loop is not, as it is dominated strictly. -/
theorem frontier_retrying :
    retryingEdge 1 ∈ (compute retryingEdges .forward).value.frontier (retryingEdge 1) ∧
      ∀ W, Walk (retryingEdges.following .forward) (retryingEdges.root .forward) W
        (retryingEdge 3) →
        retryingEdge 1 ∈ W := by
  have accepted : retrying.validate = .ok () := by decide +kernel
  have closed : EdgeGraph.ofGraph retrying = .ok retryingEdges := rfl
  have valid := EdgeGraph.valid_of_validate accepted closed
  have every : ∀ e d, d ∈ (compute retryingEdges .forward).value.dominatorsOf e →
      ∀ W, Walk (retryingEdges.following .forward) (retryingEdges.root .forward) W e → d ∈ W :=
    fun e d inside =>
      EdgeGraph.dominates_iff_walk.1 ((mem_dominatorsOf_iff (valid.reached .forward e)).1 inside)
  constructor
  · apply (mem_frontier_compute_iff accepted closed .forward (retryingEdge 1) (retryingEdge 1)).2
    constructor
    · exact ⟨retryingEdge 4, by decide +kernel, every _ _ (by decide +kernel)⟩
    · exact fun strict => strict.1 rfl
  · exact every _ _ (by decide +kernel)

end Dominance
end WorkflowSoundness
