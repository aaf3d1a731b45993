import WorkflowSoundness.Proofs.Abundance.Cyclic
import WorkflowSoundness.Proofs.Abundance.Evidence
import WorkflowSoundness.Proofs.Abundance.Session

/-!
The paths of a flow that no later path has used again, told on the workflow. Three edges of the
network stand for a branch, and they are the edges at the node of the branch
(`touches_branchNode_iff`). A path that passes this node takes two of them, so only one path that is
kept can pass it (`disjoint_workflowPath`); the node may be an end of several paths only where the
flow is asked for at this branch. So the paths that a session answers share no edge of the workflow
but possibly the sink (`compute_paths_disjoint`).
-/

namespace WorkflowSoundness

namespace ForkNetwork

variable {E : EdgeGraph} {fork : Fin E.order} {entry sink : Fin E.size} {room : E.Edges}

/-! ### The edges at the node of a branch -/

theorem getElem?_pairs {α β : Type} (f g : α → β) (l : List α) (i : Nat) :
    (l.flatMap fun a => [f a, g a])[i]? = l[i / 2]?.map (if i % 2 = 0 then f else g) := by
  induction l generalizing i with
  | nil => simp
  | cons a l ih =>
    match i with
    | 0 => simp
    | 1 => simp
    | i + 2 =>
      have half : (i + 2) / 2 = i / 2 + 1 := by omega
      have parity : (i + 2) % 2 = i % 2 := by omega
      rw [half, parity, List.getElem?_cons_succ, ← ih i]
      rfl

/-- An edge of the network is one of the workflow or a virtual edge of a branch. -/
theorem edge_cases (i : Fin (network E fork (some entry)).size) :
    (∃ d : Fin E.size, i.val = d.val ∧ (origins E fork)[i.val]? = some d ∧
      (network E fork (some entry)).ends[i] = (startOf E fork d, stopOf E fork (some entry) d)) ∨
    ∃ k : Fin (branches E fork).length, (i.val = E.size + 2 * k ∨ i.val = E.size + 2 * k + 1) ∧
      (origins E fork)[i.val]? = some ((branches E fork).get k) ∧
      ((network E fork (some entry)).ends[i] = (place E fork fork, branchNode E fork k) ∨
        (network E fork (some entry)).ends[i] = (twin E fork, branchNode E fork k)) := by
  by_cases real : i.val < E.size
  · have inside : i.val < (List.finRange E.size).length := by simpa using real
    refine Or.inl ⟨⟨i, real⟩, rfl, ?_, ends_real (real?_eq_some_iff.2 rfl)⟩
    rw [origins, List.getElem?_append_left inside, List.getElem?_eq_getElem inside,
      List.getElem_finRange]
    rfl
  · obtain ⟨pair, same, ends⟩ : ∃ pair : Fin (order E fork) × Fin (order E fork),
        (network E fork (some entry)).ends[i] = pair ∧
          (endsList E fork (some entry))[i.val]? = some pair :=
      ⟨_, rfl, List.getElem?_eq_getElem i.isLt⟩
    have behind : ((List.finRange E.size).map fun e =>
        (startOf E fork e, stopOf E fork (some entry) e)).length ≤ i.val := by simpa using real
    rw [endsList, List.getElem?_append_right behind, getElem?_pairs, Option.map_eq_some_iff] at ends
    simp only [List.length_map, List.length_finRange] at ends
    obtain ⟨k, index, ends⟩ := ends
    obtain ⟨inside, here⟩ := List.getElem?_eq_some_iff.1 index
    rw [List.getElem_finRange] at here
    have half : (i.val - E.size) / 2 = k.val := congrArg Fin.val here
    have origin : (origins E fork)[i.val]? = some ((branches E fork).get k) := by
      have pairs := getElem?_pairs id id (branches E fork) (i.val - E.size)
      rw [half, List.getElem?_eq_getElem k.isLt, ite_self] at pairs
      have first : (List.finRange E.size).length ≤ i.val := by simpa using real
      rw [origins, List.getElem?_append_right first, List.length_finRange]
      exact pairs
    refine Or.inr ⟨k, by omega, origin, ?_⟩
    rw [same, ← ends]
    split
    · exact Or.inl rfl
    · exact Or.inr rfl

theorem branches_inj {j k : Fin (branches E fork).length} :
    (branches E fork).get j = (branches E fork).get k ↔ j = k :=
  nodup_branches.get_inj_iff

theorem branchNode_injective : Function.Injective (branchNode E fork) := by
  intro k k' same
  have values := congrArg Fin.val same
  simp only [branchNode] at values
  exact Fin.ext (by omega)

theorem place_ne_branchNode (v : Fin E.order) (k : Fin (branches E fork).length) :
    place E fork v ≠ branchNode E fork k := by
  intro same
  have values := congrArg Fin.val same
  simp only [place, branchNode] at values
  omega

theorem twin_ne_branchNode (k : Fin (branches E fork).length) :
    twin E fork ≠ branchNode E fork k := by
  intro same
  have values := congrArg Fin.val same
  simp only [twin, branchNode] at values
  omega

theorem stopOf_ne_branchNode (d : Fin E.size) (k : Fin (branches E fork).length) :
    stopOf E fork (some entry) d ≠ branchNode E fork k := by
  unfold stopOf
  split
  · exact twin_ne_branchNode k
  · exact place_ne_branchNode _ k

theorem startOf_eq_branchNode_iff {d : Fin E.size} {k : Fin (branches E fork).length} :
    startOf E fork d = branchNode E fork k ↔ d = (branches E fork).get k := by
  constructor
  · intro start
    by_cases leaves : E.source d = fork
    · obtain ⟨j, inside, rfl⟩ := List.getElem_of_mem (mem_branches.2 leaves)
      obtain rfl : ⟨j, inside⟩ = k :=
        branchNode_injective ((startOf_branch fork ⟨j, inside⟩).symm.trans start)
      rfl
    · rw [startOf_other leaves] at start
      exact absurd start (place_ne_branchNode _ k)
  · rintro rfl
    exact startOf_branch fork k

/-- The edges at the node of a branch are those that stand for the branch. -/
theorem touches_branchNode_iff {i : Fin (network E fork (some entry)).size}
    {k : Fin (branches E fork).length} :
    (network E fork (some entry)).Touches i (branchNode E fork k) ↔
      (origins E fork)[i.val]? = some ((branches E fork).get k) := by
  obtain ⟨d, -, origin, ends⟩ | ⟨j, -, origin, ends⟩ := edge_cases i
  · have starts : (network E fork (some entry)).ends[i].1 = startOf E fork d := by rw [ends]
    have stops : (network E fork (some entry)).ends[i].2 ≠ branchNode E fork k := by
      rw [ends]
      exact stopOf_ne_branchNode d k
    rw [origin, Option.some.injEq, ← startOf_eq_branchNode_iff]
    exact (or_iff_left stops).trans (Eq.congr_left starts)
  · have starts : (network E fork (some entry)).ends[i].1 ≠ branchNode E fork k := by
      obtain ends | ends := ends
      · rw [ends]
        exact place_ne_branchNode fork k
      · rw [ends]
        exact twin_ne_branchNode k
    have stops : (network E fork (some entry)).ends[i].2 = branchNode E fork j := by
      obtain ends | ends := ends
      · rw [ends]
      · rw [ends]
    rw [origin, Option.some.injEq, branches_inj, ← branchNode_injective.eq_iff]
    exact (or_iff_right starts).trans (Eq.congr_left stops)

/-- No more than three edges stand for a branch. -/
theorem length_le_three {l : List (Fin (network E fork (some entry)).size)} (once : l.Nodup)
    {k : Fin (branches E fork).length}
    (stand : ∀ i ∈ l, (origins E fork)[i.val]? = some ((branches E fork).get k)) :
    l.length ≤ 3 := by
  have inside : l.map Fin.val ⊆
      [((branches E fork).get k).val, E.size + 2 * k, E.size + 2 * k + 1] := by
    intro number member
    obtain ⟨i, listed, rfl⟩ := List.mem_map.1 member
    obtain ⟨d, number, origin, -⟩ | ⟨j, number, origin, -⟩ := edge_cases i
    · cases Option.some.inj (origin.symm.trans (stand i listed))
      simp [number]
    · have branch := Option.some.inj (origin.symm.trans (stand i listed))
      obtain rfl : j = k := branches_inj.1 branch
      simp [number]
  have few := ((once.map fun _ _ => Fin.ext).subperm inside).length_le
  simpa using few

/-- Any other edge stands for itself alone. -/
theorem number_of_other {i : Fin (network E fork (some entry)).size} {d : Fin E.size}
    (origin : (origins E fork)[i.val]? = some d) (other : E.source d ≠ fork) : i.val = d.val := by
  obtain ⟨d, number, same, -⟩ | ⟨k, -, same, -⟩ := edge_cases i
  · cases Option.some.inj (same.symm.trans origin)
    exact number
  · cases Option.some.inj (same.symm.trans origin)
    exact absurd (mem_branches.1 (List.getElem_mem k.isLt)) other

/-! ### Paths that share no edge -/

theorem mem_workflowPath {size : Nat} {path : BitSet size} {d : Fin E.size} :
    d ∈ workflowPath E fork path ↔ ∃ i ∈ path, (origins E fork)[i.val]? = some d := by
  unfold workflowPath
  rw [BitSet.mem_ofList, List.mem_filterMap]
  simp only [BitSet.mem_toList, List.getElem?_toArray]

/-- An augmenting path that runs over a branch takes two of its edges, unless it ends there. -/
theorem exists_two_of_branch {capacity flow : BitSet (network E fork (some entry)).size}
    {route : FlowNetwork.Route (network E fork (some entry))}
    (raised : (FlowNetwork.augment capacity flow (place E fork fork) (startOf E fork sink)).value =
      some route) {k : Fin (branches E fork).length} (notSink : (branches E fork).get k ≠ sink)
    (runs : (branches E fork).get k ∈ workflowPath E fork route.path) :
    ∃ i ∈ route.path, ∃ j ∈ route.path, j ≠ i ∧
      (origins E fork)[i.val]? = some ((branches E fork).get k) ∧
      (origins E fork)[j.val]? = some ((branches E fork).get k) := by
  obtain ⟨i, onPath, origin⟩ := mem_workflowPath.1 runs
  have notStart : branchNode E fork k ≠ place E fork fork := (place_ne_branchNode fork k).symm
  have notEnd : branchNode E fork k ≠ startOf E fork sink := fun same =>
    notSink (startOf_eq_branchNode_iff.1 same.symm).symm
  obtain ⟨j, alsoOn, other, touches⟩ := FlowNetwork.augment_passes (listed_network fork entry)
    raised notStart notEnd onPath (touches_branchNode_iff.2 origin)
  exact ⟨i, onPath, j, alsoOn, other, origin, touches_branchNode_iff.1 touches⟩

/-- Augmenting paths that share no edge of the network share none of the workflow, except for a
branch where they end. -/
theorem disjoint_workflowPath {capacity flow flow' : BitSet (network E fork (some entry)).size}
    {route route' : FlowNetwork.Route (network E fork (some entry))}
    (raised : (FlowNetwork.augment capacity flow (place E fork fork) (startOf E fork sink)).value =
      some route)
    (raised' : (FlowNetwork.augment capacity flow' (place E fork fork)
      (startOf E fork sink)).value = some route')
    (apart : ∀ i, i ∈ route.path → i ∉ route'.path) {d : Fin E.size}
    (left : d ∈ workflowPath E fork route.path) (right : d ∈ workflowPath E fork route'.path) :
    d = sink ∧ E.source sink = fork := by
  by_cases leaves : E.source d = fork
  · by_cases isSink : d = sink
    · exact ⟨isSink, isSink ▸ leaves⟩
    · -- Both take two of the three edges that stand for the branch, so they share one.
      obtain ⟨k, inside, rfl⟩ := List.getElem_of_mem (mem_branches.2 leaves)
      obtain ⟨i, inLeft, j, inLeft', differ, origin, origin'⟩ :=
        exists_two_of_branch (k := ⟨k, inside⟩) raised isSink left
      obtain ⟨u, inRight, v, inRight', differ', origin₂, origin₂'⟩ :=
        exists_two_of_branch (k := ⟨k, inside⟩) raised' isSink right
      have once : [i, j, u, v].Nodup := by
        have leftOnly : ∀ x ∈ route.path, x ≠ u ∧ x ≠ v := by
          intro x member
          exact ⟨fun same => apart x member (same ▸ inRight),
            fun same => apart x member (same ▸ inRight')⟩
        simp [leftOnly i inLeft, leftOnly j inLeft', differ.symm, differ'.symm]
      have stand : ∀ x ∈ [i, j, u, v],
          (origins E fork)[x.val]? = some ((branches E fork).get ⟨k, inside⟩) := by
        simp only [List.forall_mem_cons]
        exact ⟨origin, origin', origin₂, origin₂', by simp⟩
      exact absurd (length_le_three once stand) (by simp)
  · obtain ⟨i, inLeft, origin⟩ := mem_workflowPath.1 left
    obtain ⟨j, inRight, origin'⟩ := mem_workflowPath.1 right
    have same : i = j :=
      Fin.ext ((number_of_other origin leaves).trans (number_of_other origin' leaves).symm)
    exact absurd inRight (same ▸ apart i inLeft)

/-- The paths of a largest flow share no edge but possibly the sink, and there is one if there is
flow. -/
theorem paths_maximize (fork : Fin E.order) (entry : Fin E.size) (room : E.Edges)
    (sink : Fin E.size) :
    let answer := (Abundance.maximize fork entry room sink).value
    (answer.2.Pairwise fun P Q => ∀ e, e ∈ P → e ∈ Q → e = sink ∧ E.source sink = fork) ∧
      (1 ≤ answer.1 → answer.2 ≠ []) := by
  obtain ⟨raises, chain, value⟩ := exists_raises fork entry room sink
  simp only [value]
  constructor
  · rw [List.pairwise_map]
    apply (FlowNetwork.pairwise_lasting raises).imp_of_mem
    intro raise other kept kept' apart e left right
    have raised := chain.augment_met ((FlowNetwork.lasting_sublist raises).mem kept)
    have raised' := chain.augment_met ((FlowNetwork.lasting_sublist raises).mem kept')
    exact disjoint_workflowPath raised raised' apart left right
  · intro some
    rw [ne_eq, List.map_eq_nil_iff]
    apply FlowNetwork.lasting_ne_nil
    rintro rfl
    cases some

end ForkNetwork

namespace NetworkSession

/-- On a closed valid graph, whatever a session has been asked before, once it has been turned to a
fork and a sink has been taken, any two of the paths it answers have no edge in common but the
sink, and that only if it leaves the fork. If there is flow, there is a path. -/
theorem compute_paths_disjoint {g : Graph} {E : EdgeGraph} (accepted : g.validate = .ok ())
    (closed : EdgeGraph.ofGraph g = .ok E) {fork : Fin E.order}
    (forking : (E.kindOf fork).isForking = true) (session : NetworkSession E)
    (requests : List Request) (sink : Fin E.size) (allowed : E.Edges)
    (taken : ((requests.foldl serve (session.transform fork).2).setCapacities sink.val
      (allowed.toList.map Fin.val)).1 = .ok true) :
    (session.transform fork).1 = .ok () ∧
    ∃ answer, ((requests.foldl serve (session.transform fork).2).setCapacities sink.val
        (allowed.toList.map Fin.val)).2.compute.1 = .ok answer ∧
      (answer.paths.Pairwise fun P Q =>
        ∀ e, e ∈ P → e ∈ Q → e = sink ∧ E.source sink = fork) ∧
      (1 ≤ answer.value → answer.paths ≠ []) := by
  have valid := EdgeGraph.valid_of_validate accepted closed
  obtain ⟨turns, turned⟩ :=
    turned_transform valid (NodeKind.isSplitting_of_isForking forking) session
  have ready := (turned.serve_all requests).setCapacities taken
  exact ⟨turns, _, ready.answer_eq, ForkNetwork.paths_maximize fork _ allowed sink⟩

/-- The edges of `relaunching` that lead from its fork around to it. -/
def around : Abundance.relaunchingEdges.Edges :=
  .ofList [⟨1, by decide⟩, ⟨2, by decide⟩]

/-- Asked for the other branch, a session turned to the fork of `relaunching` answers the branch and
the way around to it. They share this branch only. -/
theorem compute_relaunching :
    let ready := [Request.setCapacities 2 [1], .compute].foldl serve
      ((start Abundance.relaunchingEdges).transform ⟨2, by decide⟩).2
    let asked := ready.setCapacities 3 (around.toList.map Fin.val)
    asked.1 = .ok true ∧ ∃ answer, asked.2.compute.1 = .ok answer ∧ answer.value = 2 ∧
      answer.paths = [.ofList [⟨3, by decide⟩], around.insert ⟨3, by decide⟩] ∧
      (answer.paths.Pairwise fun P Q => ∀ e, e ∈ P → e ∈ Q → e = ⟨3, by decide⟩) ∧
      answer.paths ≠ [] := by
  have accepted : Abundance.relaunching.validate = .ok () := by decide +kernel
  have closed : EdgeGraph.ofGraph Abundance.relaunching = .ok Abundance.relaunchingEdges := rfl
  have forking : (Abundance.relaunchingEdges.kindOf ⟨2, by decide⟩).isForking = true := by
    decide +kernel
  let sink : Fin Abundance.relaunchingEdges.size := ⟨3, by decide⟩
  have taken : (([Request.setCapacities 2 [1], .compute].foldl serve
      ((start Abundance.relaunchingEdges).transform ⟨2, by decide⟩).2).setCapacities sink.val
        (around.toList.map Fin.val)).1 = .ok true := by decide +kernel
  obtain ⟨-, answer, computed, apart, nonempty⟩ :=
    compute_paths_disjoint accepted closed forking (start Abundance.relaunchingEdges)
      [.setCapacities 2 [1], .compute] sink around taken
  have shown : (([Request.setCapacities 2 [1], .compute].foldl serve
      ((start Abundance.relaunchingEdges).transform ⟨2, by decide⟩).2).setCapacities sink.val
        (around.toList.map Fin.val)).2.compute.1.toOption.map
          (fun answer => (answer.value, answer.paths)) =
      some (2, [.ofList [sink], around.insert sink]) := by decide +kernel
  rw [computed] at shown
  obtain ⟨value, paths⟩ := Prod.mk.inj (Option.some.inj shown)
  have several : 1 ≤ answer.value := by
    rw [show answer.value = 2 from value]
    decide
  have branch := apart.imp fun {P Q} only e left right => (only e left right).1
  exact ⟨taken, answer, computed, value, paths, branch, nonempty several⟩

end NetworkSession
end WorkflowSoundness
