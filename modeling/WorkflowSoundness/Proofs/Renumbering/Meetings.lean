import WorkflowSoundness.Proofs.Renumbering.Basic
import WorkflowSoundness.Proofs.Showing

/-!
What a renumbering takes over of the abundance analysis: the bond of a fork, the edges allowed to
carry flow, and the number of paths that arrive at an edge, as cuts are taken over with their sizes
(`maximize_eq`). It does not take over the definitions. Where every definition that can be followed
is followed in every order, they are those that any order finds (`defined_iff_spreads`).
-/

namespace WorkflowSoundness.EdgeGraph

open Abundance

/-- Edge-disjoint paths from the fork arrive at a node in its bond that does not wait. -/
def Arrives (E : EdgeGraph) (fork : Fin E.order) (z : Fin E.size) : Prop :=
  z ∈ E.bondOf fork ∧ (E.kindOf (E.source z)).isSynchronizing = false ∧
    2 ≤ (Abundance.maximize fork (E.entryOf fork) (allowed E.basisOf (E.bondOf fork) z) z).value.1

/-- The meetings of a fork are the definitions where several paths arrive. -/
theorem exists_meeting_iff {E : EdgeGraph} {fork : Fin E.order} {z : Fin E.size} :
    (∃ meeting ∈ E.meetingsOf fork, meeting.definition.edge = z) ↔
      Defined (E.definitionsOf fork) z ∧ E.Arrives fork z := by
  constructor
  · rintro ⟨meeting, member, rfl⟩
    obtain ⟨defined, inBond, waitless⟩ := candidate_of_meeting member
    exact ⟨defined, inBond, waitless, several_of_meeting member⟩
  · rintro ⟨defined, inBond, waitless, several⟩
    exact exists_meeting defined inBond waitless several

/-! ### Definitions in any order -/

section Spreading

variable {E : EdgeGraph} {fork : Fin E.order} {e s : Fin E.size}

/-- An edge that is followed if the frontiers are looked at in some favourable order. -/
inductive Spreads (E : EdgeGraph) (fork : Fin E.order) : Fin E.size → Prop where
  | branch {e : Fin E.size} (leaves : E.source e = fork) : Spreads E fork e
  | meets {e s : Fin E.size} (before : Spreads E fork e)
      (inside : s ∈ (E.dominanceOf .forward).frontier e)
      (goesOn : (E.dominanceOf .backward).immediate? (E.entryOf fork) ≠ some s)
      (free : (E.dominanceOf .backward).immediate? e ≠ some s) : Spreads E fork s

/-- Whether the edge is followed depends on which of two edges finds it first. -/
def Contested (E : EdgeGraph) (fork : Fin E.order) (s : Fin E.size) : Prop :=
  ∃ d e, E.Spreads fork d ∧ E.Spreads fork e ∧ s ∈ (E.dominanceOf .forward).frontier d ∧
    s ∈ (E.dominanceOf .forward).frontier e ∧
    (E.dominanceOf .backward).immediate? (E.entryOf fork) ≠ some s ∧
    (E.dominanceOf .backward).immediate? d = some s ∧
    (E.dominanceOf .backward).immediate? e ≠ some s

/-- The search follows only edges that it can spread to. -/
theorem spreads_of_followed (followed : Followed (E.definitionsOf fork) e) : E.Spreads fork e := by
  have within : (∀ e, Followed (definitions E.basisOf fork (E.entryOf fork)).value e →
        E.Spreads fork e) ∧
      ∀ s, Met (definitions E.basisOf fork (E.entryOf fork)).value s → True :=
    definitions_within (fun _ leaves => .branch leaves) fun _ before _ inside =>
      ⟨trivial, fun goesOn free => .meets before inside goesOn free⟩
  exact within.1 e followed

/-- Where nothing is contested, everything that may be followed is. -/
theorem followed_iff_spreads (settled : ∀ s, ¬ E.Contested fork s) :
    Followed (E.definitionsOf fork) e ↔ E.Spreads fork e := by
  refine ⟨spreads_of_followed, fun spreads => ?_⟩
  induction spreads with
  | branch leaves => exact followed_branch leaves
  | @meets e s before inside goesOn free ih =>
    rcases followed_or_stopped (met_of_frontier ih inside) with
      followed | stops | ⟨d, found, at_, stops⟩
    · exact followed
    · exact absurd stops goesOn
    · exact absurd ⟨d, e, spreads_of_followed found, before, at_, inside, goesOn, stops, free⟩
        (settled s)

/-- If no meeting edge depends on its discoverer, the definitions can be told without the order of
the search. -/
theorem defined_iff_spreads (settled : ∀ s, ¬ E.Contested fork s) :
    Defined (E.definitionsOf fork) e ↔
      E.Spreads fork e ∨ ∃ d, E.Spreads fork d ∧ e ∈ (E.dominanceOf .forward).frontier d := by
  rw [defined_iff, followed_iff_spreads settled]
  refine or_congr_right ⟨fun met => ?_, fun ⟨d, spreads, inside⟩ => ?_⟩
  · obtain ⟨d, followed, inside⟩ := frontier_of_met met
    exact ⟨d, spreads_of_followed followed, inside⟩
  · exact met_of_frontier ((followed_iff_spreads settled).2 spreads) inside

end Spreading

namespace Renumbering

variable {E F : EdgeGraph} (r : Renumbering E F) {fork : Fin E.order} {x z : Fin E.size}

/-! ### Cuts -/

open ForkNetwork

theorem perm_edges : ((List.finRange E.size).map r.edge).Perm (List.finRange F.size) := by
  refine (List.perm_ext_iff_of_nodup ?_ (List.nodup_finRange _)).2 fun e' => ?_
  · exact (List.nodup_finRange _).map r.edge.injective
  · obtain ⟨e, rfl⟩ := r.edge.surjective e'
    exact iff_of_true (List.mem_map_of_mem (List.mem_finRange e)) (List.mem_finRange _)

/-- The branches of a fork are the same, in another order. -/
theorem perm_branches (fork : Fin E.order) :
    ((branches E fork).map r.edge).Perm (branches F (r.node fork)) := by
  refine (List.perm_ext_iff_of_nodup ?_ nodup_branches).2 fun e' => ?_
  · exact nodup_branches.map r.edge.injective
  · obtain ⟨e, rfl⟩ := r.edge.surjective e'
    rw [List.mem_map_of_injective r.edge.injective, mem_branches, mem_branches, r.source_eq_iff]

/-- The same cut in the other graph. -/
def cut (cut : Cut E) : Cut F where
  nodes := fun v => cut.nodes (r.symm.node v)
  twin := cut.twin
  branches := fun e => cut.branches (r.symm.edge e)

section Cuts

variable (cut : Cut E) (sink entry : Fin E.size)

theorem nodes_cut (v : Fin E.order) : (r.cut cut).nodes (r.node v) = cut.nodes v :=
  congrArg cut.nodes (r.symm_node v)

theorem branches_cut (e : Fin E.size) : (r.cut cut).branches (r.edge e) = cut.branches e :=
  congrArg cut.branches (r.symm_edge e)

theorem starts_cut (fork : Fin E.order) (e : Fin E.size) :
    (r.cut cut).starts (r.node fork) (r.edge e) = cut.starts fork e :=
  if_congr r.source_eq_iff (r.branches_cut cut e)
    ((congrArg (r.cut cut).nodes (r.source e)).trans (r.nodes_cut cut _))

theorem stops_cut (e : Fin E.size) :
    (r.cut cut).stops (r.edge entry) (r.edge e) = cut.stops entry e :=
  if_congr r.edge.apply_eq_iff_eq rfl
    ((congrArg (r.cut cut).nodes (r.target e)).trans (r.nodes_cut cut _))

/-- A cut taken over has the size it had, since it counts edges and these are the same. -/
theorem size_cut {room : E.Edges} {room' : F.Edges} (same : ∀ e, r.edge e ∈ room' ↔ e ∈ room) :
    (r.cut cut).size (r.node fork) room' (r.edge sink) (r.edge entry) =
      cut.size fork room sink entry := by
  have holds : ∀ e, room'.contains (r.edge e) = room.contains e := fun e => by
    rw [Bool.eq_iff_iff, BitSet.contains_iff_mem, BitSet.contains_iff_mem, same]
  have equal : ∀ e d, (r.edge e == r.edge d) = (e == d) := fun e d => by
    rw [Bool.eq_iff_iff, beq_iff_eq, beq_iff_eq, r.edge.apply_eq_iff_eq]
  unfold Cut.size
  rw [← r.perm_edges.countP_eq, ← (r.perm_branches fork).countP_eq,
    ← (r.perm_branches fork).countP_eq, List.countP_map, List.countP_map, List.countP_map]
  congr 1
  · refine List.countP_congr fun e _ => ?_
    simp only [Function.comp_apply, r.starts_cut, r.stops_cut, holds, equal, bne]
  · congr 1
    · refine List.countP_congr fun e _ => ?_
      simp only [Function.comp_apply, r.nodes_cut, r.branches_cut]
    · refine List.countP_congr fun e _ => ?_
      simp only [Function.comp_apply, r.branches_cut]
      rfl

end Cuts

/-- The least cut on one side is one on the other, so no flow gets larger. -/
theorem maximize_le (fork : Fin E.order) {room : E.Edges} {room' : F.Edges}
    (same : ∀ e, r.edge e ∈ room' ↔ e ∈ room) (entry sink : Fin E.size) :
    (Abundance.maximize (r.node fork) (r.edge entry) room' (r.edge sink)).value.1 ≤
      (Abundance.maximize fork entry room sink).value.1 := by
  obtain ⟨cut, start, stop, value⟩ := exists_size_eq_maximize fork entry room sink
  rw [value, ← r.size_cut cut sink entry same]
  exact maximize_le_size ((r.nodes_cut cut fork).trans start)
    ((r.starts_cut cut fork sink).trans stop)

/-- As many paths arrive, whatever the numbers. -/
theorem maximize_eq (fork : Fin E.order) {room : E.Edges} {room' : F.Edges}
    (same : ∀ e, r.edge e ∈ room' ↔ e ∈ room) (entry sink : Fin E.size) :
    (Abundance.maximize (r.node fork) (r.edge entry) room' (r.edge sink)).value.1 =
      (Abundance.maximize fork entry room sink).value.1 := by
  refine Nat.le_antisymm (r.maximize_le fork same entry sink) ?_
  have back : ∀ e', r.symm.edge e' ∈ room ↔ e' ∈ room' := fun e' => by
    obtain ⟨e, rfl⟩ := r.edge.surjective e'
    rw [r.symm_edge, same]
  have le := r.symm.maximize_le (r.node fork) back (r.edge entry) (r.edge sink)
  rwa [r.symm_edge, r.symm_edge, r.symm_node] at le

/-! ### What arrives -/

section Valid

variable (validE : E.Valid) (validF : F.Valid) (simpleE : E.Simple) (simpleF : F.Simple)

include validE validF

theorem bond (splitting : (E.kindOf fork).isSplitting = true) (member : x ∈ E.bondOf fork) :
    r.edge x ∈ F.bondOf (r.node fork) := by
  obtain ⟨f, leaves, trail⟩ := mem_bondOf.1 member
  refine mem_bondOf.2 ⟨r.edge f, r.source_eq_iff.2 leaves,
    trail.image r.edge (fun a b _ next => ?_) fun _ _ => trivial⟩
  rw [← r.entryOf validE validF splitting]
  split at next
  · exact absurd next (BitSet.not_mem_empty b)
  · rename_i onward
    rw [if_neg (mt (r.immediate?_eq_some_iff validE validF).1 onward)]
    exact r.mem_successors.2 next

/-- The search for the bond follows no numbers, so it finds the same edges. -/
theorem mem_bond (splitting : (E.kindOf fork).isSplitting = true) :
    r.edge x ∈ F.bondOf (r.node fork) ↔ x ∈ E.bondOf fork := by
  refine ⟨fun member => ?_, r.bond validE validF splitting⟩
  have back := r.symm.bond validF validE ((r.kind fork).symm ▸ splitting) member
  rwa [r.symm_edge, r.symm_node] at back

theorem spreads (splitting : (E.kindOf fork).isSplitting = true) (spreads : E.Spreads fork x) :
    F.Spreads (r.node fork) (r.edge x) := by
  induction spreads with
  | branch leaves => exact .branch (r.source_eq_iff.2 leaves)
  | meets _ inside goesOn free ih =>
    refine .meets ih ((r.mem_frontier validE validF).2 inside) (fun stops => goesOn ?_)
      fun stops => free ((r.immediate?_eq_some_iff validE validF).1 stops)
    rw [← r.entryOf validE validF splitting] at stops
    exact (r.immediate?_eq_some_iff validE validF).1 stops

/-- The search for definitions spreads to the same edges. -/
theorem spreads_iff (splitting : (E.kindOf fork).isSplitting = true) :
    F.Spreads (r.node fork) (r.edge x) ↔ E.Spreads fork x := by
  refine ⟨fun found => ?_, r.spreads validE validF splitting⟩
  have back := r.symm.spreads validF validE ((r.kind fork).symm ▸ splitting) found
  rwa [r.symm_edge, r.symm_node] at back

/-- The meeting edges that depend on their discoverer are the same. -/
theorem contested_iff (splitting : (E.kindOf fork).isSplitting = true) :
    F.Contested (r.node fork) (r.edge x) ↔ E.Contested fork x := by
  unfold Contested
  rw [r.edge.surjective.exists]
  refine exists_congr fun d => ?_
  rw [r.edge.surjective.exists]
  refine exists_congr fun e => ?_
  simp only [r.spreads_iff validE validF splitting, r.mem_frontier validE validF, ne_eq,
    ← r.entryOf validE validF splitting, r.immediate?_eq_some_iff validE validF]

/-- Where nothing is contested, the definitions do not depend on the numbers. -/
theorem defined_iff_defined (splitting : (E.kindOf fork).isSplitting = true)
    (settled : ∀ s, ¬ E.Contested fork s) : Defined (F.definitionsOf (r.node fork)) (r.edge x) ↔
      Defined (E.definitionsOf fork) x := by
  have settled' : ∀ s', ¬ F.Contested (r.node fork) s' := fun s' contested => by
    obtain ⟨s, rfl⟩ := r.edge.surjective s'
    exact settled s ((r.contested_iff validE validF splitting).1 contested)
  rw [defined_iff_spreads settled, defined_iff_spreads settled', r.edge.surjective.exists]
  simp only [r.spreads_iff validE validF splitting, r.mem_frontier validE validF]

include simpleE simpleF

/-- The same edges lie behind what the search spreads to. -/
theorem arrives_iff (splitting : (E.kindOf fork).isSplitting = true) :
    F.Arrives (r.node fork) (r.edge z) ↔ E.Arrives fork z := by
  have same : ∀ e, r.edge e ∈ allowed F.basisOf (F.bondOf (r.node fork)) (r.edge z) ↔
      e ∈ allowed E.basisOf (E.bondOf fork) z := fun e => by
    rw [Abundance.mem_allowed, Abundance.mem_allowed, r.mem_bond validE validF splitting,
      r.mem_dependent, r.mem_executes validE validF simpleE simpleF, r.kind_target, ne_eq,
      r.edge.apply_eq_iff_eq]
  unfold Arrives
  rw [r.mem_bond validE validF splitting, r.kind_source, ← r.entryOf validE validF splitting,
    r.maximize_eq fork same]

end Valid

end Renumbering
end WorkflowSoundness.EdgeGraph
