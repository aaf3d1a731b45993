import Mathlib.Logic.Equiv.Defs
import WorkflowSoundness.Proofs.Abundance.Dependent
import WorkflowSoundness.Proofs.Deadlock.Facts
import WorkflowSoundness.Proofs.Dominance.Laws

/-!
Closed graphs that differ in their numbers only. A renumbering takes the nodes and the edges of one
graph to those of another and keeps kinds, ends and the two outer edges; it can be read backwards,
so whatever it takes over in one direction it takes over in both. It takes over dominance, the
execution relation and the facts of the deadlock analysis.
-/

namespace WorkflowSoundness

/-- A map that keeps steps, and what the nodes have in common, takes trails to trails. -/
theorem Trail.image {n m : Nat} {next : Fin n → BitSet n} {next' : Fin m → BitSet m}
    {P : Fin n → Prop} {Q : Fin m → Prop} {a b : Fin n} (f : Fin n → Fin m)
    (steps : ∀ x y, P x → y ∈ next x → f y ∈ next' (f x)) (keeps : ∀ x, P x → Q (f x))
    (trail : Trail next P a b) : Trail next' Q (f a) (f b) := by
  induction trail with
  | stay ok => exact .stay (keeps _ ok)
  | step ok first _ ih => exact .step (keeps _ ok) (steps _ _ ok first) ih

namespace EdgeGraph

/-- The second graph is the first one with other numbers. -/
structure Renumbering (E F : EdgeGraph) where
  node : Fin E.order ≃ Fin F.order
  edge : Fin E.size ≃ Fin F.size
  source : ∀ e, F.source (edge e) = node (E.source e)
  target : ∀ e, F.target (edge e) = node (E.target e)
  kind : ∀ v, F.kindOf (node v) = E.kindOf v
  first : edge E.first = F.first
  last : edge E.last = F.last

namespace Renumbering

variable {E F : EdgeGraph}

/-- Read backwards, a renumbering is one as well. -/
def symm (r : Renumbering E F) : Renumbering F E where
  node := r.node.symm
  edge := r.edge.symm
  source := fun e => by rw [Equiv.eq_symm_apply, ← r.source, Equiv.apply_symm_apply]
  target := fun e => by rw [Equiv.eq_symm_apply, ← r.target, Equiv.apply_symm_apply]
  kind := fun v => by rw [← r.kind, Equiv.apply_symm_apply]
  first := r.edge.symm_apply_eq.2 r.first.symm
  last := r.edge.symm_apply_eq.2 r.last.symm

variable (r : Renumbering E F) {e s x d : Fin E.size} {v : Fin E.order}

theorem symm_edge (e : Fin E.size) : r.symm.edge (r.edge e) = e :=
  r.edge.symm_apply_apply e

theorem symm_node (v : Fin E.order) : r.symm.node (r.node v) = v :=
  r.node.symm_apply_apply v

/-- An edge leaves a node if and only if it does so under the other numbers. -/
theorem source_eq_iff : F.source (r.edge e) = r.node v ↔ E.source e = v := by
  rw [r.source, r.node.apply_eq_iff_eq]

theorem target_eq_iff : F.target (r.edge e) = r.node v ↔ E.target e = v := by
  rw [r.target, r.node.apply_eq_iff_eq]

/-- One edge follows another if and only if it does so under the other numbers. -/
theorem mem_successors : r.edge s ∈ F.successors (r.edge e) ↔ s ∈ E.successors e := by
  rw [F.mem_successors, E.mem_successors, r.source, r.target, r.node.apply_eq_iff_eq]

theorem mem_predecessors : r.edge s ∈ F.predecessors (r.edge e) ↔ s ∈ E.predecessors e := by
  rw [F.mem_predecessors, E.mem_predecessors, r.source, r.target, r.node.apply_eq_iff_eq]

theorem kind_source : F.kindOf (F.source (r.edge e)) = E.kindOf (E.source e) := by
  rw [r.source, r.kind]

/-- Joins, splits and merges stay what they are, so the same edges lead to them. -/
theorem kind_target : F.kindOf (F.target (r.edge e)) = E.kindOf (E.target e) := by
  rw [r.target, r.kind]

/-! ### Dominance -/

variable {direction : Direction}

/-- The analyses start from the same edge. -/
theorem root (direction : Direction) : r.edge (E.root direction) = F.root direction := by
  cases direction with
  | forward => exact r.first
  | backward => exact r.last

theorem mem_following :
    r.edge s ∈ F.following direction (r.edge e) ↔ s ∈ E.following direction e := by
  cases direction with
  | forward => exact r.mem_successors
  | backward => exact r.mem_predecessors

theorem mem_preceding :
    r.edge s ∈ F.preceding direction (r.edge e) ↔ s ∈ E.preceding direction e := by
  cases direction with
  | forward => exact r.mem_predecessors
  | backward => exact r.mem_successors

/-- Dominance is taken over: a walk around the image of an edge leads back to a walk around the
edge. -/
theorem dominates (above : E.Dominates direction d e) :
    F.Dominates direction (r.edge d) (r.edge e) := by
  intro trail
  refine above ?_
  have back := trail.image (Q := (· ≠ d)) r.symm.edge
    (fun x y _ next => r.symm.mem_following.2 next)
    fun x other same => other (same ▸ (r.symm.symm_edge x).symm)
  rwa [← r.root, r.symm_edge, r.symm_edge] at back

theorem dominates_iff :
    F.Dominates direction (r.edge d) (r.edge e) ↔ E.Dominates direction d e := by
  refine ⟨fun above => ?_, r.dominates⟩
  have back := r.symm.dominates above
  rwa [r.symm_edge, r.symm_edge] at back

section Valid

variable (validE : E.Valid) (validF : F.Valid)

include validE validF

/-- The immediate dominators agree, since dominance alone says which they are. -/
theorem immediate?_eq_some_iff : (F.dominanceOf direction).immediate? (r.edge e) = some (r.edge d) ↔
    (E.dominanceOf direction).immediate? e = some d := by
  unfold dominanceOf
  rw [validF.immediate?_eq_some_iff, validE.immediate?_eq_some_iff, r.edge.surjective.forall]
  simp only [ne_eq, r.edge.apply_eq_iff_eq, r.dominates_iff]

/-- The table of immediate dominators is the same up to the numbers. -/
theorem immediate?_eq (direction : Direction) (e : Fin E.size) :
    (F.dominanceOf direction).immediate? (r.edge e) =
      ((E.dominanceOf direction).immediate? e).map r.edge := by
  refine Option.ext fun d' => ?_
  obtain ⟨d, rfl⟩ := r.edge.surjective d'
  rw [r.immediate?_eq_some_iff validE validF, Option.map_eq_some_iff]
  simp only [r.edge.apply_eq_iff_eq, exists_eq_right]

/-- The frontiers agree: their edges are told apart by dominance and by what precedes them. -/
theorem mem_frontier : r.edge s ∈ (F.dominanceOf direction).frontier (r.edge e) ↔
    s ∈ (E.dominanceOf direction).frontier e := by
  unfold dominanceOf
  rw [validF.mem_frontier_iff, validE.mem_frontier_iff, r.edge.surjective.exists]
  simp only [ne_eq, r.edge.apply_eq_iff_eq, r.dominates_iff, r.mem_preceding]

/-- The edge that leaves a merging node is taken to the one that leaves its image. -/
theorem exitOf (merging : (E.kindOf v).isMerging = true) :
    r.edge (E.exitOf v) = F.exitOf (r.node v) := by
  refine (validF.source_iff ?_ _).1 ?_
  · rw [r.kind]
    exact merging
  · exact r.source_eq_iff.2 (validE.source_exitOf merging)

theorem entryOf (splitting : (E.kindOf v).isSplitting = true) :
    r.edge (E.entryOf v) = F.entryOf (r.node v) := by
  refine (validF.target_iff ?_ _).1 ?_
  · rw [r.kind]
    exact splitting
  · exact r.target_eq_iff.2 (validE.target_entryOf splitting)

/-! ### Execution and deadlocks -/

section Simple

variable (simpleE : E.Simple) (simpleF : F.Simple)

omit validE validF in
/-- Read backwards, what executes a join under one numbering executes it under the other. -/
theorem executing {i out : Fin E.size} {X : Fin E.size → Prop}
    (executing : Execution.Executing E i out X) :
    Execution.Executing F (r.edge i) (r.edge out) fun e => X (r.symm.edge e) := by
  refine ⟨fun e' inside => ?_, fun e' b' inside choosing leaves => ?_⟩
  · obtain ⟨e, rfl⟩ := r.edge.surjective e'
    rw [r.symm_edge] at inside
    rcases executing.walk e inside with rfl | ⟨s, next, trail⟩
    · exact Or.inl rfl
    · refine Or.inr ⟨r.edge s, r.mem_successors.2 next,
        trail.image r.edge (fun _ _ _ step => r.mem_successors.2 step) fun x both => ?_⟩
      rw [r.symm_edge]
      exact ⟨both.1, fun same => both.2 (r.edge.injective same)⟩
  · obtain ⟨e, rfl⟩ := r.edge.surjective e'
    obtain ⟨b, rfl⟩ := r.edge.surjective b'
    rw [r.symm_edge] at inside ⊢
    rw [r.kind_target] at choosing
    rw [r.source, r.target, r.node.apply_eq_iff_eq] at leaves
    exact executing.choices e b inside choosing leaves

include simpleE simpleF

omit validE validF in
/-- The edges into a join are executed by the same edges, which on both sides are the greatest set
that executes them. -/
theorem mem_approximate {i out : Fin E.size} (isJoin : E.kindOf (E.target i) = .join) :
    r.edge e ∈ (Execution.approximate F (r.edge i) (r.edge out)).value ↔
      e ∈ (Execution.approximate E i out).value := by
  rw [mem_approximate_iff simpleF (r.kind_target.trans isJoin), mem_approximate_iff simpleE isJoin]
  constructor
  · rintro ⟨X, isExecuting, inside⟩
    have back := r.symm.executing isExecuting
    rw [r.symm_edge, r.symm_edge] at back
    exact ⟨_, back, inside⟩
  · rintro ⟨X, isExecuting, inside⟩
    refine ⟨_, r.executing isExecuting, ?_⟩
    rwa [r.symm_edge]

/-- The edge behind a join keeps what executes all edges into the join; these are the same edges. -/
theorem mem_executedBy (isJoin : E.kindOf v = .join) :
    r.edge e ∈ F.executionOf.executedBy[F.exitOf (r.node v)] ↔
      e ∈ E.executionOf.executedBy[E.exitOf v] := by
  have merging : (E.kindOf v).isMerging = true := by
    rw [isJoin]
    rfl
  rw [mem_executedBy_exitOf validF simpleF ((r.kind v).trans isJoin),
    mem_executedBy_exitOf validE simpleE isJoin, r.edge.surjective.forall]
  refine forall_congr' fun i => ?_
  rw [r.target_eq_iff, ← r.exitOf validE validF merging]
  exact forall_congr' fun enters => r.mem_approximate simpleE simpleF (enters ▸ isJoin)

theorem mem_executes : r.edge e ∈ F.executionOf.executes[r.edge s] ↔
    e ∈ E.executionOf.executes[s] := by
  rw [EdgeGraph.mem_executes validF simpleF, EdgeGraph.mem_executes validE simpleE, r.kind_target]
  refine and_congr_right fun isJoin => ?_
  have merging : (E.kindOf (E.target e)).isMerging = true := by
    rw [isJoin]
    rfl
  rw [r.target, ← r.exitOf validE validF merging]
  exact r.mem_approximate simpleE simpleF isJoin

/-- A fact that spreads to an edge spreads to its image, for it is held back at the same edges. -/
theorem starts {i : Fin E.size} (starts : E.Starts i e) : F.Starts (r.edge i) (r.edge e) := by
  have isJoin := starts.isJoin
  induction starts with
  | enters => exact .enters (r.kind_target.trans isJoin)
  | leads next rest other free ih =>
    refine .leads (r.mem_successors.2 next) ih (fun same => other ?_) fun executes => free ?_
    · rw [r.target, r.target] at same
      exact r.node.injective same
    · rw [r.target] at executes
      exact (r.mem_executedBy validE validF simpleE simpleF isJoin).1 executes

/-- The deadlock analysis finds the same facts under both numberings. -/
theorem starts_iff {i : Fin E.size} : F.Starts (r.edge i) (r.edge e) ↔ E.Starts i e := by
  refine ⟨fun found => ?_, r.starts validE validF simpleE simpleF⟩
  have back := r.symm.starts validF validE simpleF simpleE found
  rwa [r.symm_edge, r.symm_edge] at back

end Simple

end Valid

/-! ### Starving joins -/

open Abundance in
/-- Read backwards, edges that can fire together can do so under the other numbers. -/
theorem firing {Z : Fin E.size → Prop} (firing : Firing E Z) :
    Firing F fun e => Z (r.symm.edge e) := by
  refine ⟨fun z' inside => ?_, fun z' inside isJoin q' enters => ?_⟩
  · obtain ⟨z, rfl⟩ := r.edge.surjective z'
    rw [r.symm_edge] at inside
    rw [← r.first]
    refine (firing.reached z inside).image r.edge (fun _ _ _ step => r.mem_successors.2 step)
      fun x isIn => ?_
    rwa [r.symm_edge]
  · obtain ⟨z, rfl⟩ := r.edge.surjective z'
    obtain ⟨q, rfl⟩ := r.edge.surjective q'
    rw [r.symm_edge] at inside ⊢
    rw [r.kind_source] at isJoin
    rw [r.source, r.target, r.node.apply_eq_iff_eq] at enters
    exact firing.joined z inside isJoin q enters

open Abundance in
/-- The same joins starve without an edge, whatever the numbers. -/
theorem mem_dependent : r.edge x ∈ (dependent (r.edge e)).value ↔ x ∈ (dependent e).value := by
  have keep : ∀ {E F : EdgeGraph} (r : Renumbering E F) {x e : Fin E.size},
      x ∈ (dependent e).value → r.edge x ∈ (dependent (r.edge e)).value := by
    intro E F r x e starves
    obtain ⟨isJoin, starves⟩ := mem_dependent_iff.1 starves
    refine mem_dependent_iff.2 ⟨r.kind_source.trans isJoin, fun Z isFiring free inside => ?_⟩
    exact starves _ (r.symm.firing isFiring) free inside
  refine ⟨fun starves => ?_, keep r⟩
  have back := keep r.symm starves
  rwa [r.symm_edge, r.symm_edge] at back

end Renumbering
end EdgeGraph
end WorkflowSoundness
