import WorkflowSoundness.Proofs.Abundance.Walks

/-!
When a fork activates itself. The kind of an abundance is decided by the kind of the node and by
whether the edge that enters it lies on a cycle. No fork but the one that is looked at is a
candidate with two paths, and two paths arrive at that one only if its branches lead back to it. So
the cyclic kind says that the abundance shows at the fork where it begins, and that the edge that
enters this fork is in a component of several edges (`cyclic_iff_at_opening`).
-/

namespace WorkflowSoundness

/-- The component of an edge on a cycle holds the edges that it leads to and that lead back. -/
theorem Components.exists_component {E : EdgeGraph} {e : Fin E.size}
    (cyclic : (compute E).inCycle e = true) :
    ∃ component ∈ (compute E).groups, component.Nodup ∧ 2 ≤ component.length ∧
      ∀ f, f ∈ component ↔ BitSet.Path E.successors e f ∧ BitSet.Path E.successors f e := by
  have grouped := (grouped_compute E).1
  obtain ⟨k, found⟩ := inCycle_iff.1 cyclic
  obtain ⟨inside, member⟩ := component?_eq_some_iff.1 found
  have isGroup := List.getElem_mem inside
  refine ⟨_, isGroup, grouped.once _ isGroup, grouped.several _ isGroup, fun f => ?_⟩
  constructor
  · intro member'
    have connected := grouped.connected _ isGroup
    exact ⟨connected e member f member', connected f member' e member⟩
  · intro around
    by_cases other : e = f
    · exact other ▸ member
    · obtain ⟨j, left, right⟩ := (same_component?_iff other).2 around
      cases Option.some.inj (found.symm.trans left)
      exact (component?_eq_some_iff.1 right).2

namespace Abundance

open EdgeGraph

/-- On a closed valid graph an abundance is of the cyclic kind if and only if it shows at the fork
where it begins. Then the edge that enters this fork lies in a strongly connected component of two
edges or more. -/
theorem cyclic_iff_at_opening {g : Graph} {E : EdgeGraph} (accepted : g.validate = .ok ())
    (closed : EdgeGraph.ofGraph g = .ok E) (name : String) :
    ∃ execution findings, Execution.compute E = .ok execution ∧
      (Analysis.abundances name
        { dominance := (Dominance.compute E .forward).value
          postDominance := (Dominance.compute E .backward).value
          components := Components.compute E
          execution := execution.value }).outcome = .ok findings ∧
      ∀ finding ∈ findings, ∃ fork entry,
        finding.opening = some fork ∧ E.soleIncoming fork = .ok entry ∧
        (finding.kind = .abundance ∨ finding.kind = .abundanceCycle) ∧
        (finding.kind = .abundanceCycle ↔ finding.printable = fork) ∧
        (finding.printable = fork →
          ∃ component ∈ (Components.compute E).groups,
            entry ∈ component ∧ component.Nodup ∧ 2 ≤ component.length ∧
            ∀ e, e ∈ component ↔
              BitSet.Path E.successors entry e ∧ BitSet.Path E.successors e entry) := by
  have valid := EdgeGraph.valid_of_validate accepted closed
  refine ⟨_, E.abundanceFindings, valid.execution_eq, valid.outcome_abundances name, ?_⟩
  intro finding found
  obtain ⟨fork, isFork, meeting, member, rfl⟩ := mem_abundanceFindings.1 found
  have forking := mem_forks.1 isFork
  have sole := valid.soleIncoming_eq (NodeKind.isSplitting_of_isForking forking)
  have kind := kind_of_meeting valid forking member
  have printable : (meeting.finding fork).printable = E.source meeting.definition.edge := rfl
  refine ⟨fork, E.entryOf fork, rfl, sole, ?_, ?_, ?_⟩
  · rw [kind]
    split
    · exact Or.inr rfl
    · exact Or.inl rfl
  · rw [kind, printable]
    by_cases here : E.source meeting.definition.edge = fork
    · simp [here]
    · simp [here]
  · intro here
    have cyclic := inCycle_of_source valid forking member here
    obtain ⟨component, isGroup, once, several, around⟩ := Components.exists_component cyclic
    have own := (around (E.entryOf fork)).2 ⟨.stay _, .stay _⟩
    exact ⟨component, isGroup, own, once, several, around⟩

/-- One branch of the fork 2 leads back to it. -/
def relaunching : Graph where
  name := "relaunching"
  nodes := [.start, .merge, .fork, .finish].map (⟨·, []⟩)
  flows := [⟨0, 1⟩, ⟨1, 2⟩, ⟨2, 1⟩, ⟨2, 3⟩]
  flows_inside := by decide

def relaunchingEdges : EdgeGraph :=
  .closing relaunching ⟨0, by decide⟩ ⟨3, by decide⟩

theorem cyclic_relaunching : ∃ execution findings,
    Execution.compute relaunchingEdges = .ok execution ∧
      (Analysis.abundances "relaunching"
        { dominance := (Dominance.compute relaunchingEdges .forward).value
          postDominance := (Dominance.compute relaunchingEdges .backward).value
          components := Components.compute relaunchingEdges
          execution := execution.value }).outcome = .ok findings ∧
      findings.length = 1 ∧
      ∀ finding ∈ findings, finding.kind = .abundanceCycle ∧
        finding.opening = some ⟨2, by decide⟩ ∧ finding.printable = ⟨2, by decide⟩ ∧
        ∃ component ∈ (Components.compute relaunchingEdges).groups,
          ⟨1, by decide⟩ ∈ component ∧ 2 ≤ component.length := by
  have accepted : relaunching.validate = .ok () := by decide +kernel
  have closed : EdgeGraph.ofGraph relaunching = .ok relaunchingEdges := rfl
  have valid := EdgeGraph.valid_of_validate accepted closed
  obtain ⟨execution, findings, computed, answered, each⟩ :=
    cyclic_iff_at_opening accepted closed "relaunching"
  obtain rfl := Except.ok.inj (valid.execution_eq.symm.trans computed)
  obtain rfl := Except.ok.inj ((valid.outcome_abundances "relaunching").symm.trans answered)
  have shown : relaunchingEdges.abundanceFindings.map (fun finding =>
      (finding.kind, finding.printable)) = [(.abundanceCycle, ⟨2, by decide⟩)] := by decide +kernel
  have enters : relaunchingEdges.soleIncoming ⟨2, by decide⟩ = .ok ⟨1, by decide⟩ := by
    decide +kernel
  obtain ⟨finding, single, same⟩ := List.map_eq_singleton_iff.1 shown
  obtain ⟨kind, printable⟩ := Prod.mk.inj same
  refine ⟨_, _, computed, answered, congrArg List.length single, ?_⟩
  intro finding' member
  obtain rfl := List.mem_singleton.1 (single ▸ member)
  obtain ⟨fork, entry, opening, sole, -, cyclic, around⟩ := each finding' member
  obtain rfl := (cyclic.1 kind).symm.trans printable
  cases Except.ok.inj (enters.symm.trans sole)
  obtain ⟨component, isGroup, own, -, several, -⟩ := around printable
  exact ⟨kind, opening, printable, component, isGroup, own, several⟩

end Abundance
end WorkflowSoundness
