import WorkflowSoundness.Proofs.Abundance.Walks
import WorkflowSoundness.Proofs.Flow.Augmenting

/-!
What the paths of an abundance tell. They are the augmenting paths of the flow from the fork, as
sets of workflow edges, of which no network edge is used by a later one. Where the flow is never
taken back these are as many as it has units, and each holds a walk from the fork to the node
(`abundance_paths`). A path that takes flow back runs over an edge of an earlier path, which is then
dropped; so one path may be left, and no walk may be in it (`abundance_paths_rerouted`).
-/

namespace WorkflowSoundness

namespace ForkNetwork

variable {E : EdgeGraph} {fork : Fin E.order} {entry sink : Fin E.size} {room : E.Edges}

/-- A workflow edge whose network edge is on a path is on the workflow's path. -/
theorem mem_workflowPath_of_real {size : Nat} {path : BitSet size} {e : Fin size} {d : Fin E.size}
    (onPath : e ∈ path) (real : e.val = d.val) : d ∈ workflowPath E fork path := by
  have inside : e.val < (List.finRange E.size).length := by
    rw [List.length_finRange, real]
    exact d.isLt
  have origin : (origins E fork).toArray[e.val]? = some d := by
    rw [List.getElem?_toArray, origins, List.getElem?_append_left inside,
      List.getElem?_eq_getElem inside, List.getElem_finRange]
    exact congrArg some (Fin.ext real)
  unfold workflowPath
  rw [BitSet.mem_ofList, List.mem_filterMap]
  exact ⟨e, BitSet.mem_toList.2 onPath, origin⟩

/-- A walk on a path of the network is one of the workflow on the workflow's path. -/
theorem exists_walk_workflowPath (enters : E.target entry = fork)
    {path : BitSet (network E fork (some entry)).size}
    {W : List (Fin (network E fork (some entry)).size)}
    (walk : (network E fork (some entry)).IsWalk (place E fork fork) W (startOf E fork sink))
    (within : ∀ e ∈ W, e ∈ path) :
    ∃ V, E.IsWalk fork V (E.source sink) ∧ ∀ d ∈ V, d ∈ workflowPath E fork path := by
  have projected := isWalk_reals enters walk
  rw [spot_place, spot_startOf] at projected
  refine ⟨reals E W, projected, fun d member => ?_⟩
  obtain ⟨e, inW, real⟩ := mem_reals.1 member
  exact mem_workflowPath_of_real (within e inW) real

/-- The augmentations of the flow from the fork to the source of the sink. -/
abbrev Raises (fork : Fin E.order) (entry : Fin E.size) (room : E.Edges) (sink : Fin E.size)
    (raises : List (FlowNetwork.Raise (network E fork (some entry)))) : Prop :=
  FlowNetwork.Raises (capacity E (network E fork (some entry)).size room sink entry)
    (place E fork fork) (startOf E fork sink) ∅ raises

theorem exists_raises (fork : Fin E.order) (entry : Fin E.size) (room : E.Edges)
    (sink : Fin E.size) : ∃ raises, Raises fork entry room sink raises ∧
      (Abundance.maximize fork entry room sink).value = (raises.length,
        (FlowNetwork.lasting raises).map fun raise => workflowPath E fork raise.route.path) := by
  obtain ⟨raises, chain, value, paths⟩ := FlowNetwork.maximize_raises (listed_network fork entry)
    (place_ne_startOf sink) (capacity E (network E fork (some entry)).size room sink entry)
  refine ⟨raises, chain, ?_⟩
  simp only [Abundance.maximize, Counted.value_bind, Counted.value_pure]
  rw [value, paths, List.map_map]
  rfl

end ForkNetwork

namespace Abundance

open EdgeGraph FlowNetwork

variable {E : EdgeGraph} {fork : Fin E.order} {meeting : Meeting E}

theorem paths_of_meeting (member : meeting ∈ E.meetingsOf fork) :
    meeting.paths = (maximize fork (E.entryOf fork)
      (allowed E.basisOf (E.bondOf fork) meeting.definition.edge)
        meeting.definition.edge).value.2 := by
  obtain ⟨definition, -, found⟩ := mem_meetingsOf.1 member
  simp only [meeting?, Counted.value_bind] at found
  split at found
  · cases found
  · cases found
    rfl

/-- The edges of a walk from the fork to the node are in the set. -/
def Walks (fork node : Fin E.order) (P : E.Edges) : Prop :=
  ∃ W, E.IsWalk fork W node ∧ ∀ e ∈ W, e ∈ P

/-- Nodes that no edge of the set leads out of are not left. -/
theorem Walks.inside {node : Fin E.order} {P : E.Edges} (walks : Walks fork node P)
    (S : Fin E.order → Prop) (start : S fork)
    (closed : ∀ e ∈ P, S (E.source e) → S (E.target e)) : S node := by
  obtain ⟨W, walk, within⟩ := walks
  induction W generalizing fork with
  | nil =>
    obtain rfl : fork = node := walk
    exact start
  | cons e W ih =>
    obtain ⟨rfl, rest⟩ := walk
    exact ih (closed e (within e List.mem_cons_self) start) rest fun d member =>
      within d (List.mem_cons_of_mem e member)

/-- On a closed valid graph the paths of an abundance are the augmenting paths of the flow from the
fork that are not used again. At least the last of them is there, and all of the two or more are if,
and only if, no augmenting path takes flow back. An augmenting path that takes no flow back holds a
walk from the fork to the node. -/
theorem abundance_paths {g : Graph} {E : EdgeGraph} (accepted : g.validate = .ok ())
    (closed : EdgeGraph.ofGraph g = .ok E) (name : String) :
    ∃ findings, (Analysis.abundances name E.basisOf).outcome = .ok findings ∧
      ∀ finding ∈ findings, finding.kind = .abundance → ∃ fork sink raises,
        finding.opening = some fork ∧ fork ≠ finding.printable ∧
        E.source sink = finding.printable ∧
        ForkNetwork.Raises fork (E.entryOf fork) (allowed E.basisOf (E.bondOf fork) sink) sink
          raises ∧
        (maximize fork (E.entryOf fork) (allowed E.basisOf (E.bondOf fork) sink) sink).value.1 =
          raises.length ∧
        2 ≤ raises.length ∧
        finding.paths = (lasting raises).map (fun raise =>
          ForkNetwork.workflowPath E fork raise.route.path) ∧
        finding.paths ≠ [] ∧
        (finding.paths.length = raises.length ↔ ∀ raise ∈ raises, ¬ raise.TakesBack) ∧
        (∀ raise ∈ raises, ¬ raise.TakesBack → Walks fork finding.printable
          (ForkNetwork.workflowPath E fork raise.route.path)) ∧
        ((∀ raise ∈ raises, ¬ raise.TakesBack) → 2 ≤ finding.paths.length ∧
          ∀ P ∈ finding.paths, Walks fork finding.printable P) := by
  have valid := EdgeGraph.valid_of_validate accepted closed
  refine ⟨E.abundanceFindings, valid.outcome_abundances name, fun finding found kind => ?_⟩
  obtain ⟨fork, isFork, meeting, member, rfl⟩ := mem_abundanceFindings.1 found
  have forking := mem_forks.1 isFork
  have enters := valid.target_entryOf (NodeKind.isSplitting_of_isForking forking)
  have other : fork ≠ E.source meeting.definition.edge := by
    intro same
    rw [kind_of_meeting valid forking member, if_pos same.symm] at kind
    cases kind
  obtain ⟨raises, chain, value⟩ := ForkNetwork.exists_raises fork (E.entryOf fork)
    (allowed E.basisOf (E.bondOf fork) meeting.definition.edge) meeting.definition.edge
  have listed := ForkNetwork.listed_network fork (E.entryOf fork)
  have several : 2 ≤ raises.length := by
    have two := several_of_meeting member
    rwa [value] at two
  have paths : (Meeting.finding fork meeting).paths = (lasting raises).map (fun raise =>
      ForkNetwork.workflowPath E fork raise.route.path) := by
    rw [Meeting.finding, paths_of_meeting member, value]
  have walks : ∀ raise ∈ raises, ¬ raise.TakesBack → Walks fork (E.source meeting.definition.edge)
      (ForkNetwork.workflowPath E fork raise.route.path) := by
    intro raise inside forwards
    obtain ⟨W, walk, within⟩ := chain.exists_walk listed inside forwards
    exact ForkNetwork.exists_walk_workflowPath enters walk within
  have all := chain.length_lasting_iff listed
  refine ⟨fork, meeting.definition.edge, raises, rfl, other, rfl, chain, congrArg Prod.fst value,
    several, paths, ?_, ?_, walks, fun forwards => ⟨?_, fun P onPath => ?_⟩⟩
  · rw [paths, ne_eq, List.map_eq_nil_iff]
    refine lasting_ne_nil fun empty => ?_
    rw [empty] at several
    cases several
  · rw [paths, List.length_map]
    exact all
  · rw [paths, List.length_map, all.2 forwards]
    exact several
  · rw [paths] at onPath
    obtain ⟨raise, kept, rfl⟩ := List.mem_map.1 onPath
    have inside := (lasting_sublist raises).mem kept
    exact walks raise inside (forwards raise inside)

theorem abundance_paths_doubling : ∃ findings,
    (Analysis.abundances "doubling" doublingEdges.basisOf).outcome = .ok findings ∧
      ∃ finding ∈ findings, finding.kind = .abundance ∧ 2 ≤ finding.paths.length ∧
        ∀ P ∈ finding.paths, Walks ⟨1, by decide⟩ finding.printable P := by
  have accepted : doubling.validate = .ok () := by decide +kernel
  have closed : EdgeGraph.ofGraph doubling = .ok doublingEdges := rfl
  have valid := EdgeGraph.valid_of_validate accepted closed
  obtain ⟨findings, answered, evidence⟩ := abundance_paths accepted closed "doubling"
  cases Except.ok.inj (answered.symm.trans (valid.outcome_abundances "doubling"))
  refine ⟨_, answered, ?_⟩
  have shown : doublingEdges.abundanceFindings.map (fun finding =>
      (finding.kind, finding.opening, finding.printable, finding.paths.length)) =
        [(.abundance, some ⟨1, by decide⟩, ⟨2, by decide⟩, 2)] := by decide +kernel
  obtain ⟨finding, single, same⟩ := List.map_eq_singleton_iff.1 shown
  simp only [Prod.mk.injEq] at same
  obtain ⟨kind, opening, printable, two⟩ := same
  have member : finding ∈ doublingEdges.abundanceFindings :=
    single ▸ List.mem_singleton_self finding
  obtain ⟨fork, sink, raises, opens, -, leaves, -, value, -, -, -, all, -, walks⟩ :=
    evidence finding member kind
  cases Option.some.inj (opening.symm.trans opens)
  have only : ∀ e : Fin doublingEdges.size, doublingEdges.source e = ⟨2, by decide⟩ →
      e = ⟨3, by decide⟩ := by decide +kernel
  cases only sink (leaves.trans printable)
  have units : (maximize ⟨1, by decide⟩ (doublingEdges.entryOf ⟨1, by decide⟩)
      (allowed doublingEdges.basisOf (doublingEdges.bondOf ⟨1, by decide⟩) ⟨3, by decide⟩)
        ⟨3, by decide⟩).value.1 = 2 := by decide +kernel
  obtain ⟨several, each⟩ := walks (all.1 (two.trans (units.symm.trans value)))
  exact ⟨finding, member, kind, several, each⟩

/-- The fork 1 and the split 2 each lead to the merges 4 and 6. -/
def rerouting : Graph where
  name := "rerouting"
  nodes := [.start, .fork, .split, .activity, .merge, .activity, .merge, .finish].map (⟨·, []⟩)
  flows := [⟨0, 1⟩, ⟨1, 2⟩, ⟨1, 3⟩, ⟨2, 4⟩, ⟨2, 5⟩, ⟨3, 4⟩, ⟨4, 6⟩, ⟨5, 6⟩, ⟨6, 7⟩]
  flows_inside := by decide

def reroutingEdges : EdgeGraph :=
  .closing rerouting ⟨0, by decide⟩ ⟨8, by decide⟩

def reroutingNode (v : Nat) (inside : v < 8 := by decide) : Fin reroutingEdges.order :=
  ⟨v, inside⟩

def reroutingEdge (e : Nat) (inside : e < 9 := by decide) : Fin reroutingEdges.size :=
  ⟨e, inside⟩

/-- The augmenting path from 1 over 3, 4 and back to 2, then over 5 to 6. -/
def reroutedPath : reroutingEdges.Edges :=
  .ofList [reroutingEdge 2, reroutingEdge 5, reroutingEdge 3, reroutingEdge 4, reroutingEdge 7]

/-- The first augmenting path to 6 leads over 2 and 4. The second one comes over 3 to 4, takes
back the flow from 2 to 4 and goes on over 5. So the first is dropped, and with it the edge from
4 to 6. -/
theorem abundance_paths_rerouted :
    rerouting.validate = .ok () ∧ EdgeGraph.ofGraph rerouting = .ok reroutingEdges ∧
      ∃ findings, (Analysis.abundances "rerouting" reroutingEdges.basisOf).outcome = .ok findings ∧
        ∃ finding ∈ findings, finding.kind = .abundance ∧
          finding.opening = some (reroutingNode 1) ∧ finding.printable = reroutingNode 6 ∧
          finding.paths.length < 2 ∧
          ∀ P ∈ finding.paths, ¬ Walks (reroutingNode 1) (reroutingNode 6) P := by
  have accepted : rerouting.validate = .ok () := by decide +kernel
  have closed : EdgeGraph.ofGraph rerouting = .ok reroutingEdges := rfl
  have valid := EdgeGraph.valid_of_validate accepted closed
  refine ⟨accepted, closed, _, valid.outcome_abundances "rerouting", ?_⟩
  have shown : reroutingEdges.abundanceFindings.map (fun finding =>
      (finding.kind, finding.opening, finding.printable, finding.paths)) =
        [(.abundance, some (reroutingNode 1), reroutingNode 4,
          [.ofList [reroutingEdge 1, reroutingEdge 3], .ofList [reroutingEdge 2, reroutingEdge 5]]),
        (.abundance, some (reroutingNode 1), reroutingNode 6, [reroutedPath])] := by decide +kernel
  obtain ⟨finding, member, same⟩ := List.mem_map.1
    (shown ▸ List.mem_cons_of_mem _ (List.mem_singleton_self _))
  simp only [Prod.mk.injEq] at same
  obtain ⟨kind, opening, printable, paths⟩ := same
  refine ⟨finding, member, kind, opening, printable, ?_, fun P onPath walks => ?_⟩
  · rw [paths]
    decide
  · rw [paths, List.mem_singleton] at onPath
    subst onPath
    have before := walks.inside (fun v => v ∈ [reroutingNode 1, reroutingNode 3, reroutingNode 4])
      List.mem_cons_self (by decide +kernel)
    revert before
    decide

end Abundance
end WorkflowSoundness
