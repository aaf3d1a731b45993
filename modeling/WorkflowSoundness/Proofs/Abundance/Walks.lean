import WorkflowSoundness.Proofs.Flow.Decomposition
import WorkflowSoundness.Proofs.Showing

/-!
What a reported abundance tells. A walk through the network around a fork is a walk of the workflow
once its virtual edges are left out and the twin and the branch nodes count as the fork
(`isWalk_reals`). So a flow gives walks that share no edge (`exists_walks_maximize`): at a meeting
there are two of them, and one that goes around where the meeting is at the fork itself
(`exists_return_walk`).
-/

namespace WorkflowSoundness

namespace NodeKind

variable {kind : NodeKind}

theorem isForking_iff : kind.isForking = true ↔ kind = .fork ∨ kind = .orFork := by
  cases kind <;> decide

theorem isSynchronizing_eq_false_iff :
    kind.isSynchronizing = false ↔ kind ≠ .join ∧ kind ≠ .orJoin := by
  cases kind <;> decide

end NodeKind

namespace ForkNetwork

variable {E : EdgeGraph} {fork : Fin E.order} {entry sink : Fin E.size} {room : E.Edges}

/-- The node of the workflow that a node of the network stands for. -/
def spot (E : EdgeGraph) (fork : Fin E.order) (x : Fin (order E fork)) : Fin E.order :=
  if inside : x.val < E.order then ⟨x, inside⟩ else fork

theorem spot_place (v : Fin E.order) : spot E fork (place E fork v) = v :=
  dif_pos v.isLt

theorem spot_twin : spot E fork (twin E fork) = fork :=
  dif_neg (Nat.lt_irrefl _)

theorem spot_branchNode (k : Fin (branches E fork).length) :
    spot E fork (branchNode E fork k) = fork := by
  have outside : ¬ (branchNode E fork k).val < E.order := by
    simp only [branchNode]
    omega
  exact dif_neg outside

theorem spot_startOf (e : Fin E.size) : spot E fork (startOf E fork e) = E.source e := by
  by_cases leaves : E.source e = fork
  · obtain ⟨k, inside, rfl⟩ := List.getElem_of_mem (mem_branches.2 leaves)
    have node := startOf_branch fork ⟨k, inside⟩
    rw [Fin.getElem_fin] at node
    rw [node, spot_branchNode, leaves]
  · rw [startOf_other leaves, spot_place]

theorem spot_stopOf (enters : E.target entry = fork) (e : Fin E.size) :
    spot E fork (stopOf E fork (some entry) e) = E.target e := by
  unfold stopOf
  split
  · rename_i here
    rw [spot_twin, ← enters, Option.some.inj here]
  · exact spot_place _

/-- An edge of the network as one of the workflow, if it is not virtual. -/
def real? {size : Nat} (E : EdgeGraph) (e : Fin size) : Option (Fin E.size) :=
  if inside : e.val < E.size then some ⟨e, inside⟩ else none

theorem real?_eq_some_iff {size : Nat} {e : Fin size} {d : Fin E.size} :
    real? E e = some d ↔ e.val = d.val := by
  unfold real?
  split
  · rw [Option.some.injEq, Fin.ext_iff]
  · rename_i outside
    exact iff_of_false nofun fun same => outside (same ▸ d.isLt)

theorem real?_eq_none_iff {size : Nat} {e : Fin size} : real? E e = none ↔ E.size ≤ e.val := by
  unfold real?
  split
  · exact iff_of_false nofun (by omega)
  · exact iff_of_true rfl (by omega)

/-- An edge of the network that is one of the workflow ends where the network moves its ends to. -/
theorem ends_real {e : Fin (network E fork (some entry)).size} {d : Fin E.size}
    (real : real? E e = some d) : (network E fork (some entry)).ends[e] =
      (startOf E fork d, stopOf E fork (some entry) d) := by
  have here := real?_eq_some_iff.1 real
  have inside : e.val < ((List.finRange E.size).map fun e =>
      (startOf E fork e, stopOf E fork (some entry) e)).length := by
    rw [List.length_map, List.length_finRange, here]
    exact d.isLt
  have listed : e.val < (endsList E fork (some entry)).length := e.isLt
  have ends : (network E fork (some entry)).ends[e] = (endsList E fork (some entry))[e.val] := rfl
  rw [ends]
  simp only [endsList, List.getElem_append_left inside, List.getElem_map, List.getElem_finRange]
  simp only [here]
  rfl

/-- A virtual edge leads from the fork or its twin to the start of a branch. -/
theorem ends_virtual {e : Fin (network E fork (some entry)).size} (virtual : real? E e = none) :
    ∃ k, (network E fork (some entry)).ends[e] = (place E fork fork, branchNode E fork k) ∨
      (network E fork (some entry)).ends[e] = (twin E fork, branchNode E fork k) := by
  have behind : ((List.finRange E.size).map fun e =>
      (startOf E fork e, stopOf E fork (some entry) e)).length ≤ e.val := by
    rw [List.length_map, List.length_finRange]
    exact real?_eq_none_iff.1 virtual
  have listed : e.val < (endsList E fork (some entry)).length := e.isLt
  have ends : (network E fork (some entry)).ends[e] = (endsList E fork (some entry))[e.val] := rfl
  have member : (network E fork (some entry)).ends[e] ∈
      (List.finRange (branches E fork).length).flatMap fun k =>
        [(place E fork fork, branchNode E fork k), (twin E fork, branchNode E fork k)] := by
    rw [ends]
    simp only [endsList, List.getElem_append_right behind]
    exact List.getElem_mem _
  obtain ⟨k, -, pair⟩ := List.mem_flatMap.1 member
  exact ⟨k, (List.mem_cons.1 pair).imp_right List.mem_singleton.1⟩

/-- The edges of the workflow on a walk of the network. -/
def reals {size : Nat} (E : EdgeGraph) (W : List (Fin size)) : List (Fin E.size) :=
  W.filterMap (real? E)

/-- A walk of the network is one of the workflow. -/
theorem isWalk_reals (enters : E.target entry = fork)
    {W : List (Fin (network E fork (some entry)).size)} {x y : Fin (order E fork)}
    (walk : (network E fork (some entry)).IsWalk x W y) :
    E.IsWalk (spot E fork x) (reals E W) (spot E fork y) := by
  induction W generalizing x with
  | nil => exact congrArg (spot E fork) walk
  | cons e W ih =>
    obtain ⟨start, rest⟩ := walk
    have later := ih rest
    cases real : real? E e with
    | some d =>
      rw [ends_real real] at start later
      rw [reals, List.filterMap_cons_some real]
      refine ⟨?_, ?_⟩
      · rw [← start, spot_startOf]
      · rw [← spot_stopOf enters d]
        exact later
    | none =>
      rw [reals, List.filterMap_cons_none real]
      have stays : spot E fork (network E fork (some entry)).ends[e].2 = spot E fork x := by
        rw [← start]
        obtain ⟨k, ends | ends⟩ := ends_virtual real
        · rw [ends, spot_branchNode, spot_place]
        · rw [ends, spot_branchNode, spot_twin]
      exact stays ▸ later

theorem mem_reals {size : Nat} {W : List (Fin size)} {d : Fin E.size} :
    d ∈ reals E W ↔ ∃ e ∈ W, e.val = d.val := by
  rw [reals, List.mem_filterMap]
  exact exists_congr fun e => and_congr_right fun _ => real?_eq_some_iff

/-- A walk that repeats no network edge repeats no workflow edge. -/
theorem nodup_reals {size : Nat} {W : List (Fin size)} (once : W.Nodup) : (reals E W).Nodup := by
  refine once.filterMap fun e e' d real real' => ?_
  exact Fin.ext ((real?_eq_some_iff.1 real).trans (real?_eq_some_iff.1 real').symm)

/-- Walks that share no network edge share no workflow edge. -/
theorem disjoint_reals {size : Nat} {V W : List (Fin size)} (apart : V.Disjoint W) :
    (reals E V).Disjoint (reals E W) := by
  intro d left right
  obtain ⟨e, inV, here⟩ := mem_reals.1 left
  obtain ⟨e', inW, there⟩ := mem_reals.1 right
  exact apart inV (Fin.ext (here.trans there.symm) ▸ inW)

/-- A workflow edge may carry flow if it is the entry, or allowed and not the sink. -/
theorem mem_capacity_real {size : Nat} {e : Fin size} {d : Fin E.size} (here : e.val = d.val) :
    e ∈ capacity E size room sink entry ↔ d = entry ∨ d ∈ room ∧ d ≠ sink := by
  have inside : e.val < E.size := here ▸ d.isLt
  have same : (⟨e.val, inside⟩ : Fin E.size) = d := Fin.ext here
  rw [capacity, BitSet.mem_ofFn, dif_pos inside, same]
  simp only [Bool.or_eq_true, Bool.and_eq_true, beq_iff_eq, bne_iff_ne, BitSet.contains_iff_mem]

/-- As many walks from the fork to the source of the sink share no edge as the network carries
units. -/
theorem exists_walks_maximize (enters : E.target entry = fork) (room : E.Edges)
    (sink : Fin E.size) : ∃ walks : List (List (Fin E.size)),
      walks.length = (Abundance.maximize fork entry room sink).value.1 ∧
      (∀ W ∈ walks, E.IsWalk fork W (E.source sink) ∧ W.Nodup ∧
        ∀ e ∈ W, e = entry ∨ e ∈ room ∧ e ≠ sink) ∧
      walks.Pairwise List.Disjoint := by
  obtain ⟨feasible, -⟩ := FlowNetwork.maximize_spec (listed_network fork entry)
    (place_ne_startOf sink) (capacity E (network E fork (some entry)).size room sink entry)
  obtain ⟨walks, number, each, apart⟩ := feasible.exists_walks
  refine ⟨walks.map (reals E), ?_, fun W member => ?_, ?_⟩
  · rw [List.length_map, number, value_maximize]
  · obtain ⟨V, inside, rfl⟩ := List.mem_map.1 member
    obtain ⟨walk, once, within⟩ := each V inside
    have projected := isWalk_reals enters walk
    rw [spot_place, spot_startOf] at projected
    refine ⟨projected, nodup_reals once, fun d onWalk => ?_⟩
    obtain ⟨e, inV, here⟩ := mem_reals.1 onWalk
    exact (mem_capacity_real here).1 (feasible.within e (within e inV))
  · exact List.pairwise_map.2 (apart.imp disjoint_reals)

end ForkNetwork

namespace Abundance

open EdgeGraph

variable {E : EdgeGraph} {fork : Fin E.order} {meeting : Meeting E}

variable (valid : E.Valid) (forking : (E.kindOf fork).isForking = true)
  (member : meeting ∈ E.meetingsOf fork)

include valid forking member

/-- Two walks that share no edge arrive where a meeting is. -/
theorem exists_disjoint_walks : ∃ W₁ W₂,
    E.IsWalk fork W₁ (E.source meeting.definition.edge) ∧
      E.IsWalk fork W₂ (E.source meeting.definition.edge) ∧ (∀ x ∈ W₁, x ∉ W₂) ∧
      ∀ x, x ∈ W₁ ∨ x ∈ W₂ → x ∈ E.bondOf fork ∨ x = E.entryOf fork := by
  have enters := valid.target_entryOf (NodeKind.isSplitting_of_isForking forking)
  obtain ⟨walks, number, each, apart⟩ := ForkNetwork.exists_walks_maximize enters
    (allowed E.basisOf (E.bondOf fork) meeting.definition.edge) meeting.definition.edge
  have several := number ▸ several_of_meeting member
  match walks, several, each, apart with
  | W₁ :: W₂ :: _, _, each, apart =>
    obtain ⟨walk₁, -, within₁⟩ := each W₁ List.mem_cons_self
    obtain ⟨walk₂, -, within₂⟩ := each W₂ (List.mem_cons_of_mem W₁ List.mem_cons_self)
    have inBond : ∀ x, (x = E.entryOf fork ∨
        x ∈ allowed E.basisOf (E.bondOf fork) meeting.definition.edge ∧
          x ≠ meeting.definition.edge) → x ∈ E.bondOf fork ∨ x = E.entryOf fork := by
      intro x usable
      exact usable.symm.imp_left fun both => (mem_allowed.1 both.1).2.1
    have disjoint := (List.pairwise_cons.1 apart).1 W₂ List.mem_cons_self
    refine ⟨W₁, W₂, walk₁, walk₂, fun x left right => disjoint left right, fun x either => ?_⟩
    exact inBond x (either.elim (within₁ x) (within₂ x))

/-- A fork at which two of its paths arrive lies on a walk around. -/
theorem exists_return_walk (same : E.source meeting.definition.edge = fork) :
    ∃ W, E.IsWalk fork (W ++ [E.entryOf fork]) fork := by
  have enters := valid.target_entryOf (NodeKind.isSplitting_of_isForking forking)
  obtain ⟨d, inBond, back⟩ := exists_before_entry valid forking member same
  obtain ⟨f, leaves, path⟩ := exists_path_of_mem_bond inBond
  obtain ⟨W, walk, -⟩ := exists_walk path.trail
  rw [leaves, back] at walk
  exact ⟨W, walk.append ⟨rfl, enters⟩⟩

omit valid forking member

/-- On a closed valid graph every abundance reported is at a node that does not wait. Two walks of
the bond and the entry that share no edge lead there from the fork where it begins, or, if it is
one on a cycle, a walk leads from that fork around to its entry. -/
theorem abundances_sound {g : Graph} {E : EdgeGraph} (accepted : g.validate = .ok ())
    (closed : EdgeGraph.ofGraph g = .ok E) (name : String) :
    ∃ execution findings, Execution.compute E = .ok execution ∧
      (Analysis.abundances name
        { dominance := (Dominance.compute E .forward).value
          postDominance := (Dominance.compute E .backward).value
          components := Components.compute E
          execution := execution.value }).outcome = .ok findings ∧
      ∀ finding ∈ findings, ∃ fork entry,
        finding.opening = some fork ∧ (E.kindOf fork = .fork ∨ E.kindOf fork = .orFork) ∧
        E.soleIncoming fork = .ok entry ∧
        E.kindOf finding.printable ≠ .join ∧ E.kindOf finding.printable ≠ .orJoin ∧
        (finding.kind = .abundance ∧ (∃ W₁ W₂, W₁ ≠ [] ∧ W₂ ≠ [] ∧
            E.IsWalk fork W₁ finding.printable ∧ E.IsWalk fork W₂ finding.printable ∧
            (∀ x ∈ W₁, x ∉ W₂) ∧
            ∀ x, x ∈ W₁ ∨ x ∈ W₂ →
              x ∈ (bond (Dominance.compute E .backward).value fork entry).value ∨ x = entry) ∨
          finding.kind = .abundanceCycle ∧ ∃ W, E.IsWalk fork (W ++ [entry]) fork) := by
  have valid := EdgeGraph.valid_of_validate accepted closed
  refine ⟨_, E.abundanceFindings, valid.execution_eq, valid.outcome_abundances name, ?_⟩
  intro finding found
  obtain ⟨fork, isFork, meeting, member, rfl⟩ := mem_abundanceFindings.1 found
  have forking := mem_forks.1 isFork
  have sole := valid.soleIncoming_eq (NodeKind.isSplitting_of_isForking forking)
  obtain ⟨-, -, waitless⟩ := candidate_of_meeting member
  obtain ⟨notJoin, notOrJoin⟩ := NodeKind.isSynchronizing_eq_false_iff.1 waitless
  refine ⟨fork, E.entryOf fork, rfl, NodeKind.isForking_iff.1 forking, sole, notJoin, notOrJoin, ?_⟩
  by_cases same : E.source meeting.definition.edge = fork
  · have kind := (kind_of_meeting valid forking member).trans (if_pos same)
    exact Or.inr ⟨kind, exists_return_walk valid forking member same⟩
  · have kind := (kind_of_meeting valid forking member).trans (if_neg same)
    obtain ⟨W₁, W₂, walk₁, walk₂, apart, within⟩ := exists_disjoint_walks valid forking member
    have left := walk₁.ne_nil (Ne.symm same)
    have right := walk₂.ne_nil (Ne.symm same)
    exact Or.inl ⟨kind, W₁, W₂, left, right, walk₁, walk₂, apart, within⟩

/-- Both branches of the fork 1 lead to 2, which does not wait. -/
def doubling : Graph where
  name := "doubling"
  nodes := [.start, .fork, .merge, .finish].map (⟨·, []⟩)
  flows := [⟨0, 1⟩, ⟨1, 2⟩, ⟨1, 2⟩, ⟨2, 3⟩]
  flows_inside := by decide

def doublingEdges : EdgeGraph :=
  .closing doubling ⟨0, by decide⟩ ⟨3, by decide⟩

theorem abundances_doubling : ∃ execution findings,
    Execution.compute doublingEdges = .ok execution ∧
      (Analysis.abundances "doubling"
        { dominance := (Dominance.compute doublingEdges .forward).value
          postDominance := (Dominance.compute doublingEdges .backward).value
          components := Components.compute doublingEdges
          execution := execution.value }).outcome = .ok findings ∧
      findings.map Finding.printable = [⟨2, by decide⟩] ∧
      ∀ finding ∈ findings, finding.opening = some ⟨1, by decide⟩ := by
  have accepted : doubling.validate = .ok () := by decide +kernel
  have closed : EdgeGraph.ofGraph doubling = .ok doublingEdges := rfl
  have valid := EdgeGraph.valid_of_validate accepted closed
  obtain ⟨execution, findings, computed, answered, each⟩ :=
    abundances_sound accepted closed "doubling"
  have only : ∀ v, doublingEdges.kindOf v = .fork ∨ doublingEdges.kindOf v = .orFork →
      v = ⟨1, by decide⟩ := by
    decide +kernel
  obtain rfl := Except.ok.inj (valid.execution_eq.symm.trans computed)
  obtain rfl := Except.ok.inj ((valid.outcome_abundances "doubling").symm.trans answered)
  refine ⟨_, _, computed, answered, by decide +kernel, fun finding member => ?_⟩
  obtain ⟨fork, -, opening, forks, -⟩ := each finding member
  rw [opening, only fork forks]

end Abundance
end WorkflowSoundness
