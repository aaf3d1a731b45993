import WorkflowSoundness.Proofs.Dominance.Walks
import WorkflowSoundness.Proofs.Showing
import WorkflowSoundness.Proofs.Verify

/-!
Which edges a waiting area holds. The search back from an or-join is held back by two dominance
relations. An edge that has fired by then ends it everywhere; an edge behind which the choice lies
ends it only past the edges that enter the or-join. Told by walks, an edge is in the area if and
only if it is `Awaited`, also where the or-join is on a cycle through the edge that leaves it
(`waitingAreas_exact`).
-/

namespace WorkflowSoundness

/-- A walk of edges leads from `e` to an edge that enters `v`. No edge of it is on every walk from
`out` to the end edge, and none before the last one, unless it is `out`, is on every walk from the
start edge to `out`. -/
def EdgeGraph.Awaited (E : EdgeGraph) (v : Fin E.order) (out e : Fin E.size) : Prop :=
  ∃ W i, Walk E.successors e (W ++ [i]) i ∧ E.target i = v ∧
    (∀ x ∈ W ++ [i], ¬ ∀ V, Walk E.successors out V E.last → x ∈ V) ∧
    ∀ x ∈ W, ¬ (x ≠ out ∧ ∀ V, Walk E.successors E.first V out → x ∈ V)

namespace EdgeGraph

variable {E : EdgeGraph} {v : Fin E.order} {out e : Fin E.size}

/-! ### The search -/

/-- A step of the search back from an or-join. -/
theorem mem_back_iff {dominance postDominance : Dominance E} {x p : Fin E.size} :
    p ∈ (E.predecessors x \ postDominance.dominatorsOf out) ∩
        BitSet.ofFn (fun y => !dominance.strictlyDominates y out) ↔
      x ∈ E.successors p ∧ p ∉ postDominance.dominatorsOf out ∧
        ¬ dominance.strictlyDominates p out = true := by
  rw [BitSet.mem_inter, BitSet.mem_sdiff, BitSet.mem_ofFn, Bool.not_eq_true', Bool.not_eq_true,
    E.mem_successors_iff_mem_predecessors, and_assoc]

/-- The search back from an or-join finds the edges it waits for. -/
theorem Valid.mem_areaOf_iff (valid : E.Valid) :
    e ∈ WaitingArea.areaOf (E.dominanceOf .forward) (E.dominanceOf .backward) v out ↔
      E.Awaited v out e := by
  have fired : ∀ x, x ∈ (E.dominanceOf .backward).dominatorsOf out ↔
      ∀ V, Walk E.successors out V E.last → x ∈ V := by
    intro x
    rw [← dominates_backward_iff_walk]
    exact Dominance.mem_dominatorsOf_iff (valid.reached .backward out)
  have decided : ∀ x, (E.dominanceOf .forward).strictlyDominates x out = true ↔
      x ≠ out ∧ ∀ V, Walk E.successors E.first V out → x ∈ V := by
    intro x
    exact (Dominance.strictlyDominates_iff (valid.reached .forward out)).trans
      (and_congr_right' dominates_iff_walk)
  have back := fun i => path_back_iff_walk (a := i) (b := e)
    (P := fun p => p ∉ (E.dominanceOf .backward).dominatorsOf out ∧
      ¬ (E.dominanceOf .forward).strictlyDominates p out = true) fun _ _ => mem_back_iff
  rw [WaitingArea.areaOf, BitSet.mem_reach_iff]
  simp only [back, BitSet.mem_toList, BitSet.mem_sdiff, E.mem_entering, fired, decided]
  constructor
  · rintro ⟨i, ⟨enters, notFired⟩, W, walk, along⟩
    refine ⟨W, i, walk, enters, ?_, fun x member => (along x member).2⟩
    simp only [List.mem_append, List.mem_singleton]
    rintro x (member | rfl)
    · exact (along x member).1
    · exact notFired
  · rintro ⟨W, i, walk, enters, free, undecided⟩
    refine ⟨i, ⟨enters, free i (by simp)⟩, W, walk, fun x member => ⟨?_, undecided x member⟩⟩
    exact free x (List.mem_append_left [i] member)

/-! ### The annotations -/

theorem filter_nodesOf {kind : NodeKind} (isKind : E.kindOf v = kind) :
    (E.nodesOf kind).filter (· == v) = [v] := by
  have once : (E.nodesOf kind).Nodup := (List.nodup_finRange _).filter _
  apply eq_singleton_of_nodup (once.filter _)
  intro u
  rw [List.mem_filter, E.mem_nodesOf, beq_iff_eq]
  exact and_iff_right_of_imp fun same => same ▸ isKind

/-- Each or-join has one waiting area. -/
theorem filter_waitingAreas (isOrJoin : E.kindOf v = .orJoin) (area : Fin E.order → E.Edges) :
    ((E.nodesOf .orJoin).map fun u => (u, area u)).filter (·.1 == v) = [(v, area v)] := by
  rw [List.filter_map]
  exact congrArg (List.map _) (filter_nodesOf isOrJoin)

/-- Among the findings of all parts, those of waiting areas are told by their kind. -/
theorem filter_selected_waiting {config : Config} (waiting : config.waitingArea = true) :
    (E.selected config).filter (fun finding => finding.kind == .waitingArea) = E.waitFindings := by
  have waits : E.waitFindings.filter (·.kind == .waitingArea) = E.waitFindings := by
    rw [List.filter_eq_self]
    intro finding member
    simp [kind_of_waits member]
  have deadlocks : E.deadlockFindings.filter (·.kind == .waitingArea) = [] := by
    rw [List.filter_eq_nil_iff]
    intro finding member waits
    have isDeadlock := isDeadlock_of_deadlocks member
    rw [beq_iff_eq.1 waits] at isDeadlock
    cases isDeadlock
  have abundances : E.abundanceFindings.filter (·.kind == .waitingArea) = [] := by
    rw [List.filter_eq_nil_iff]
    intro finding member waits
    have isAbundance := isAbundance_of_abundances member
    rw [beq_iff_eq.1 waits] at isAbundance
    cases isAbundance
  rw [selected, if_pos waiting, List.filter_append, List.filter_append, waits]
  split <;> split <;> simp [deadlocks, abundances]

end EdgeGraph

open EdgeGraph

/-- On a closed valid graph each or-join, in their order, has one waiting area, which holds exactly
the edges that are awaited there. Where waiting areas are asked for, the annotations of that kind
are one for each of them, in the same order, and each or-join shows one. -/
theorem waitingAreas_exact {g : Graph} {E : EdgeGraph} (accepted : g.validate = .ok ())
    (closed : EdgeGraph.ofGraph g = .ok E) (name : String) :
    ∃ areas, (Analysis.waitingAreas name (Dominance.compute E .forward).value
        (Dominance.compute E .backward).value).outcome = .ok areas ∧
      areas.map Prod.fst = E.nodesOf .orJoin ∧
      (∀ v area, (v, area) ∈ areas → ∃ out, E.soleOutgoing v = .ok out ∧
        (∀ x, E.source x = v ↔ x = out) ∧ ∀ e, e ∈ area ↔ E.Awaited v out e) ∧
      ∀ config : Config, config.waitingArea = true → ∃ findings,
        (Plan.analyze config name E).outcome = .ok findings ∧
        findings.filter (fun finding => finding.kind == .waitingArea) =
          areas.map (fun entry => WaitingArea.finding entry.1 entry.2) ∧
        ∀ v area, (v, area) ∈ areas →
          (findings.map Finding.plain).filter (fun note => note.isAt .waitingArea v) =
            [(WaitingArea.finding v area).plain] := by
  have valid := EdgeGraph.valid_of_validate accepted closed
  refine ⟨_, valid.outcome_waitingAreas name, ?_, ?_, ?_⟩
  · rw [List.map_map]
    exact List.map_id _
  · intro v area member
    obtain ⟨u, listed, same⟩ := List.mem_map.1 member
    cases same
    have merging : (E.kindOf v).isMerging = true := by
      rw [E.mem_nodesOf.1 listed]
      rfl
    exact ⟨E.exitOf v, valid.soleOutgoing_eq merging, valid.source_iff merging,
      fun e => valid.mem_areaOf_iff⟩
  · intro config waiting
    have kinds := filter_selected_waiting (E := E) waiting
    refine ⟨_, valid.outcome_analyze config name, ?_, ?_⟩
    · rw [kinds, waitFindings, List.map_map]
      rfl
    · intro v area member
      obtain ⟨u, listed, same⟩ := List.mem_map.1 member
      cases same
      have shows : ∀ finding : Finding E, finding.plain.isAt .waitingArea v =
          (finding.printable == v && finding.kind == .waitingArea) := by
        intro finding
        rw [Bool.eq_iff_iff, plain_isAt_iff, Bool.and_eq_true, beq_iff_eq, beq_iff_eq, Fin.ext_iff]
        exact and_comm
      rw [List.filter_map]
      simp only [Function.comp_def, shows]
      rw [← List.filter_filter, kinds, waitFindings, List.filter_map]
      exact congrArg (List.map _) (congrArg (List.map _) (filter_nodesOf (E.mem_nodesOf.1 listed)))

/-- The or-join 1 is on a cycle through the edge that leaves it. -/
def redoing : Graph where
  name := "redoing"
  nodes := [.start, .orJoin, .split, .activity, .finish].map (⟨·, []⟩)
  flows := [⟨0, 1⟩, ⟨1, 2⟩, ⟨2, 3⟩, ⟨2, 4⟩, ⟨3, 1⟩]
  flows_inside := by decide

def redoingEdges : EdgeGraph :=
  .closing redoing ⟨0, by decide⟩ ⟨3, by decide⟩

/-- The or-join of `redoing` waits for the edge from the start event, which dominates the edge that
leaves it but enters it, and for the way around, but not for the edge that leaves it. -/
theorem waitingAreas_redoing : ∃ areas,
    (Analysis.waitingAreas "redoing" (Dominance.compute redoingEdges .forward).value
      (Dominance.compute redoingEdges .backward).value).outcome = .ok areas ∧
    areas = [(⟨1, by decide⟩, .ofList [⟨0, by decide⟩, ⟨2, by decide⟩, ⟨4, by decide⟩])] ∧
    (∀ e : Fin redoingEdges.size, redoingEdges.Awaited ⟨1, by decide⟩ ⟨1, by decide⟩ e ↔
      e ≠ ⟨1, by decide⟩ ∧ e ≠ ⟨3, by decide⟩) ∧
    Config.comprehensive.waitingArea = true ∧ ∃ findings,
      (Plan.analyze .comprehensive "redoing" redoingEdges).outcome = .ok findings ∧
      (findings.filter fun finding => finding.kind == .waitingArea).length = 1 := by
  have accepted : redoing.validate = .ok () := by decide +kernel
  have closed : EdgeGraph.ofGraph redoing = .ok redoingEdges := rfl
  have valid := EdgeGraph.valid_of_validate accepted closed
  obtain ⟨areas, answered, -, exactly, shows⟩ := waitingAreas_exact accepted closed "redoing"
  obtain rfl := Except.ok.inj ((valid.outcome_waitingAreas "redoing").symm.trans answered)
  have computed : (redoingEdges.nodesOf .orJoin).map (fun v => (v,
      WaitingArea.areaOf (redoingEdges.dominanceOf .forward) (redoingEdges.dominanceOf .backward) v
        (redoingEdges.exitOf v))) =
      [(⟨1, by decide⟩, .ofList [⟨0, by decide⟩, ⟨2, by decide⟩, ⟨4, by decide⟩])] := by
    decide +kernel
  obtain ⟨findings, analyzed, annotated, -⟩ := shows .comprehensive rfl
  rw [computed] at exactly annotated
  obtain ⟨out, sole, -, members⟩ := exactly _ _ (List.mem_singleton_self _)
  have leaves : redoingEdges.soleOutgoing ⟨1, by decide⟩ = .ok ⟨1, by decide⟩ := by decide +kernel
  cases Except.ok.inj (leaves.symm.trans sole)
  refine ⟨_, answered, computed, ?_, rfl, findings, analyzed, ?_⟩
  · intro e
    rw [← members]
    revert e
    decide +kernel
  · rw [annotated]
    rfl

end WorkflowSoundness
