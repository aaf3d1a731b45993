import WorkflowSoundness.Proofs.Closing
import WorkflowSoundness.Proofs.Dominance.Exact

/-!
Laws of dominance between edges. Dominance is a partial order in which the dominators of one edge
are ordered. In a valid graph all edges are reached and nothing comes before the root, which makes
the descriptions of immediate dominators and of frontiers unconditional.
-/

namespace WorkflowSoundness.EdgeGraph

variable {E : EdgeGraph} {direction : Direction} {a b d e p : Fin E.size}

theorem Reached.trail (reach : E.Reached direction e) :
    Trail (E.following direction) (fun _ => True) (E.root direction) e :=
  BitSet.Path.trail reach

/-- A walk to an edge that `d` does not dominate may keep away from `d`. -/
theorem exists_trail (free : ¬ E.Dominates direction d e) :
    Trail (E.following direction) (· ≠ d) (E.root direction) e :=
  Classical.not_not.1 free

namespace Dominates

protected theorem refl (e : Fin E.size) : E.Dominates direction e e :=
  fun trail => trail.finish rfl

protected theorem trans (upper : E.Dominates direction a b) (lower : E.Dominates direction b e) :
    E.Dominates direction a e := fun trail =>
  (trail.avoids_or_visits b).elim (fun away => lower (away.mono fun _ => And.right)) upper

/-- Of two edges that dominate each other one is reached first. -/
protected theorem antisymm (reach : E.Reached direction a) (left : E.Dominates direction a b)
    (right : E.Dominates direction b a) : a = b := by
  refine Classical.byContradiction fun other => ?_
  rcases reach.trail.first_visit (Q := fun z => z = a ∨ z = b) (Or.inl rfl) with
    here | ⟨x, y, before, step, here, -⟩
  · rcases here with here | here
    · exact right (here ▸ .stay (here ▸ other))
    · exact left (here ▸ .stay (here ▸ Ne.symm other))
  · have out : ∀ z, (True ∧ ¬ (z = a ∨ z = b)) → z ≠ a ∧ z ≠ b := fun z away => not_or.1 away.2
    rcases here with rfl | rfl
    · exact right ((before.mono fun z away => (out z away).2).snoc step other)
    · exact left ((before.mono fun z away => (out z away).1).snoc step (Ne.symm other))

/-- A dominator that a walk to the edge keeps away from comes before that walk. -/
theorem of_trail {P : Fin E.size → Prop} (dominates : E.Dominates direction d e)
    (trail : Trail (E.following direction) P a e) (away : ∀ x, P x → x ≠ d) :
    E.Dominates direction d a :=
  fun before => dominates (before.trans (trail.mono away))

theorem before (dominates : E.Dominates direction d e) (other : d ≠ e)
    (step : p ∈ E.preceding direction e) : E.Dominates direction d p :=
  DominatorTree.dominates_before (E.mem_following_iff direction) dominates other step

theorem of_before (notRoot : e ≠ E.root direction)
    (all : ∀ p ∈ E.preceding direction e, E.Dominates direction d p) :
    E.Dominates direction d e := by
  intro trail
  rcases trail.first_visit (Q := fun z => z = e) rfl with here | ⟨x, y, before, step, rfl, -⟩
  · exact notRoot here.symm
  · exact all x ((E.mem_following_iff direction x y).1 step) (before.mono fun z => And.left)

/-- An edge does not dominate everything before it. -/
theorem exists_before (reach : E.Reached direction e) (notRoot : e ≠ E.root direction) :
    ∃ p ∈ E.preceding direction e, ¬ E.Dominates direction e p := by
  rcases reach.trail.first_visit (Q := (· = e)) rfl with root | ⟨x, y, before, into, rfl, -⟩
  · exact absurd root.symm notRoot
  · exact ⟨x, (E.mem_following_iff direction x y).1 into, fun dominates =>
      dominates (before.mono fun z => And.right)⟩

/-- Some walk to an edge meets before it only what the edge does not dominate. -/
theorem approach (reach : E.Reached direction d) :
    Trail (E.following direction) (fun z => z = d ∨ ¬ E.Dominates direction d z)
      (E.root direction) d := by
  have onwards : ∀ {a}, Trail (E.following direction) (fun _ => True) a d →
      ¬ E.Dominates direction d a →
      Trail (E.following direction) (fun z => z = d ∨ ¬ E.Dominates direction d z) a d := by
    intro a trail
    induction trail with
    | stay => exact fun _ => .stay (Or.inl rfl)
    | @step a b c _ next _ ih =>
      intro free
      by_cases here : b = c
      · exact .step (Or.inr free) next (here ▸ .stay (Or.inl rfl))
      · exact .step (Or.inr free) next (ih reach fun dominates =>
          dominates ((exists_trail free).snoc next here))
  by_cases here : E.root direction = d
  · exact here ▸ .stay (Or.inl rfl)
  · exact onwards reach.trail fun dominates => dominates (.stay here)

end Dominates

namespace Valid

variable (valid : E.Valid)

include valid

theorem not_before_root (direction : Direction) (p : Fin E.size) :
    p ∉ E.preceding direction (E.root direction) := by
  cases direction with
  | forward => exact fun step => valid.not_before_first p (E.mem_predecessors.1 step)
  | backward => exact fun step => valid.not_after_last p (E.mem_successors.1 step)

/-- The edges at which the dominance of `d` ends. -/
theorem mem_frontier_iff :
    e ∈ (Dominance.compute E direction).value.frontier d ↔
      (∃ p ∈ E.preceding direction e, E.Dominates direction d p) ∧
        ¬ (d ≠ e ∧ E.Dominates direction d e) := by
  by_cases isRoot : e = E.root direction
  · subst isRoot
    have none : E.preceding direction (E.root direction) = ∅ :=
      BitSet.ext fun p => iff_of_false (valid.not_before_root direction p) (BitSet.not_mem_empty p)
    refine iff_of_false (fun inside => ?_) fun found => ?_
    · have below := Dominance.frontier_compute.1 inside
      have few : (E.preceding direction (E.root direction)).count < 2 := by
        rw [none, BitSet.count_eq_zero_iff.2 fun x => BitSet.not_mem_empty x]
        exact Nat.two_pos
      unfold Dominance.below at below
      dsimp only at below
      split at below
      · exact absurd below List.not_mem_nil
      · rw [if_pos few] at below
        exact absurd below List.not_mem_nil
    · obtain ⟨⟨p, step, -⟩, -⟩ := found
      exact valid.not_before_root direction p step
  · rw [Dominance.mem_frontier_iff (valid.reached direction e) isRoot fun p _ =>
      valid.reached direction p]
    refine ⟨And.right, fun found => ⟨?_, found⟩⟩
    obtain ⟨⟨p, step, dominates⟩, ends⟩ := found
    refine Classical.byContradiction fun few => ?_
    have only : ∀ q ∈ E.preceding direction e, q = p := fun q other =>
      Classical.byContradiction fun apart =>
        few (BitSet.two_le_count_iff.2 ⟨q, p, other, step, apart⟩)
    have all : E.Dominates direction d e :=
      .of_before isRoot fun q other => only q other ▸ dominates
    by_cases here : d = e
    · subst here
      obtain ⟨q, other, free⟩ := Dominates.exists_before (valid.reached direction d) isRoot
      exact free (only q other ▸ dominates)
    · exact ends ⟨here, all⟩

theorem immediate?_eq_some_iff :
    (Dominance.compute E direction).value.immediate? e = some d ↔
      d ≠ e ∧ E.Dominates direction d e ∧
        ∀ x, x ≠ e → E.Dominates direction x e → E.Dominates direction x d :=
  Dominance.immediate?_eq_some_iff (valid.reached direction e)

end Valid
end WorkflowSoundness.EdgeGraph
