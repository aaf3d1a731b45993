import WorkflowSoundness.Proofs.Deadlock.Exact

/-!
What the paths of a deadlock tell. A fact that holds at the start edge holds at every dominator of
the edge that leaves the join, as a walk on which nothing holds it back passes there
(`starts_of_dominates`). From an edge at which the fact holds, the search for its path neither gets
lost nor passes another branch of the join: what it finds are the edges on walks to the entering
edge that the fact is about (`evidence_path`).
-/

namespace WorkflowSoundness

/-- The steps of a search, if none of them leaves the set, make a walk within the set. -/
theorem BitSet.Path.exists_walk {n : Nat} {step next : Fin n → BitSet n} {P : Fin n → Prop}
    (within : ∀ x y, P x → y ∈ step x → P y ∧ y ∈ next x) {a b : Fin n} (path : Path step a b)
    (start : P a) : ∃ W, Walk next a W b ∧ ∀ x ∈ W, P x := by
  induction path with
  | stay a =>
    refine ⟨[a], .stay a, fun x member => ?_⟩
    rw [List.mem_singleton.1 member]
    exact start
  | step first _ ih =>
    obtain ⟨inside, isNext⟩ := within _ _ start first
    obtain ⟨W, walk, along⟩ := ih inside
    exact ⟨_ :: W, .step isNext walk, List.forall_mem_cons.2 ⟨start, along⟩⟩

namespace EdgeGraph

variable {E : EdgeGraph} {d e i s : Fin E.size}

/-- Before its entering edge a fact is not held back. -/
theorem Starts.quiet (starts : Starts E i e) (other : e ≠ i) : E.target e ≠ E.target i ∧
    e ∉ E.executionOf.executedBy[E.exitOf (E.target i)] := by
  cases starts with
  | enters => exact absurd rfl other
  | leads _ _ enters free => exact ⟨enters, free⟩

/-- Where a fact is missing, the walks that carry it do not pass. -/
theorem Starts.trail_ne (starts : Starts E i e) (missing : ¬ Starts E i d) :
    Trail E.successors (· ≠ d) e i := by
  induction starts with
  | enters isJoin =>
    refine .stay fun same => missing ?_
    rw [← same]
    exact .enters isJoin
  | leads next rest other free ih =>
    refine .step (fun same => missing ?_) next ih
    rw [← same]
    exact .leads next rest other free

/-- What holds at the start edge holds at the dominators of the edges behind the join. -/
theorem starts_of_dominates (starts : Starts E i E.first) (next : s ∈ E.successors i)
    (dominates : E.Dominates .forward d s) (other : d ≠ s) : Starts E i d := by
  refine Classical.byContradiction fun missing => ?_
  exact dominates ((starts.trail_ne missing).snoc next (Ne.symm other))

end EdgeGraph

namespace Deadlock

open EdgeGraph

variable {E : EdgeGraph}

/-- What a path tells about the edge `i` that enters the join which `out` leaves: it begins at the
origin, has no other edge that enters the join, consists of walks from the origin to `i`, and no
edge before `i` executes the join. -/
structure Evidence (execution : Execution E) (origin out i : Fin E.size) (P : E.Edges) : Prop where
  begins : origin ∈ P
  enters : ∀ e, e ∈ P ∧ E.target e = E.source out ↔ e = i
  walks : ∀ e ∈ P, ∃ W, Walk E.successors origin W i ∧ e ∈ W ∧ ∀ x ∈ W, x ∈ P
  avoids : ∀ e ∈ P, e ≠ i → e ∉ execution.executedBy[out]

section Path

variable {origin e s i : Fin E.size}

theorem mem_path_iff : e ∈ (path E.dataflowOf origin i).value ↔
    BitSet.Path (fun x => if x = i then ∅ else
      E.successors x ∩ BitSet.ofFn fun y => E.dataflowOf.facts[y].contains i) origin e := by
  refine BitSet.mem_reach_iff.trans ?_
  simp only [List.mem_singleton, exists_eq_left]

/-- A step of the search goes on to an edge at which the fact holds. -/
theorem mem_step_iff : (s ∈ if e = i then ∅ else
    E.successors e ∩ BitSet.ofFn fun y => E.dataflowOf.facts[y].contains i) ↔
      e ≠ i ∧ s ∈ E.successors e ∧ E.Starts i s := by
  split
  · rename_i here
    exact iff_of_false (BitSet.not_mem_empty s) fun step => step.1 here
  · rename_i other
    rw [BitSet.mem_inter, BitSet.mem_ofFn, BitSet.contains_iff_mem, mem_facts_iff]
    exact (and_iff_right other).symm

theorem origin_mem_path : origin ∈ (path E.dataflowOf origin i).value :=
  mem_path_iff.2 (.stay origin)

theorem mem_path_of_next (member : e ∈ (path E.dataflowOf origin i).value) (other : e ≠ i)
    (next : s ∈ E.successors e) (starts : E.Starts i s) :
    s ∈ (path E.dataflowOf origin i).value :=
  mem_path_iff.2 ((mem_path_iff.1 member).snoc (mem_step_iff.2 ⟨other, next, starts⟩))

theorem exists_walk_from_origin (member : e ∈ (path E.dataflowOf origin i).value) :
    ∃ W, Walk E.successors origin W e ∧ ∀ x ∈ W, x ∈ (path E.dataflowOf origin i).value := by
  refine (mem_path_iff.1 member).exists_walk (fun x y inside step => ?_) origin_mem_path
  obtain ⟨other, next, starts⟩ := mem_step_iff.1 step
  exact ⟨mem_path_of_next inside other next starts, next⟩

section Carried

variable (carried : E.Starts i origin)

include carried

theorem starts_of_mem_path (member : e ∈ (path E.dataflowOf origin i).value) : E.Starts i e := by
  have held : ∀ {a b}, BitSet.Path (fun x => if x = i then ∅ else
      E.successors x ∩ BitSet.ofFn fun y => E.dataflowOf.facts[y].contains i) a b →
      E.Starts i a → E.Starts i b := by
    intro a b path
    induction path with
    | stay => exact id
    | step first _ ih => exact fun _ => ih (mem_step_iff.1 first).2.2
  exact held (mem_path_iff.1 member) carried

omit carried in
/-- Along the walk that carries the fact the search goes on up to the entering edge. -/
theorem exists_walk_to_entering (starts : E.Starts i e)
    (member : e ∈ (path E.dataflowOf origin i).value) :
    ∃ W, Walk E.successors e W i ∧ ∀ x ∈ W, x ∈ (path E.dataflowOf origin i).value := by
  induction starts with
  | enters =>
    refine ⟨[i], .stay i, fun x here => ?_⟩
    rw [List.mem_singleton.1 here]
    exact member
  | leads next rest other _ ih =>
    have notEntering := fun same => other (congrArg E.target same)
    obtain ⟨W, walk, within⟩ := ih (mem_path_of_next member notEntering next rest)
    exact ⟨_ :: W, .step next walk, List.forall_mem_cons.2 ⟨member, within⟩⟩

/-- Where the fact holds at the origin, the search finds evidence for it. -/
theorem evidence_path (valid : E.Valid) :
    Evidence E.executionOf origin (E.exitOf (E.target i)) i (path E.dataflowOf origin i).value := by
  have leaves : E.source (E.exitOf (E.target i)) = E.target i :=
    valid.source_exitOf (carried.isJoin ▸ rfl)
  have through : ∀ e ∈ (path E.dataflowOf origin i).value, ∃ W, Walk E.successors origin W i ∧
      e ∈ W ∧ ∀ x ∈ W, x ∈ (path E.dataflowOf origin i).value := by
    intro e member
    obtain ⟨V, before, left⟩ := exists_walk_from_origin member
    obtain ⟨W, after, right⟩ := exists_walk_to_entering (starts_of_mem_path carried member) member
    obtain ⟨U, walk, visits⟩ := before.trans after
    refine ⟨U, walk, (visits e).2 (Or.inl before.last_mem), fun x inside => ?_⟩
    cases (visits x).1 inside with
    | inl inV => exact left x inV
    | inr inW => exact right x inW
  refine ⟨origin_mem_path, fun e => ⟨?_, ?_⟩, through, fun e member other => ?_⟩
  · rintro ⟨member, enters⟩
    refine Classical.byContradiction fun other => ?_
    exact ((starts_of_mem_path carried member).quiet other).1 (enters.trans leaves)
  · rintro rfl
    obtain ⟨W, walk, -, within⟩ := through origin origin_mem_path
    exact ⟨within e walk.last_mem, leaves.symm⟩
  · exact ((starts_of_mem_path carried member).quiet other).2

end Carried
end Path

/-! ### Findings -/

theorem isChoosing_iff {kind : NodeKind} :
    kind.isChoosing = true ↔ kind = .split ∨ kind = .orFork := by
  cases kind <;> decide

theorem mem_failures {execution : Execution E} {P : E.Edges} {i out : Fin E.size}
    {v : Fin E.order} : v ∈ failures execution P i out ↔
      (E.kindOf v).isChoosing = true ∧ (∃ b, E.source b = v ∧ b ∉ execution.executedBy[out]) ∧
        ∃ e ∈ P, e ≠ i ∧ E.target e = v := by
  have leaves : ¬ (E.leaving v).subset execution.executedBy[out] = true ↔
      ∃ b, E.source b = v ∧ b ∉ execution.executedBy[out] := by
    rw [BitSet.subset_iff]
    simp only [E.mem_leaving, not_forall, exists_prop]
  have entered : v ∈ (P.erase i).toList.map E.target ↔ ∃ e ∈ P, e ≠ i ∧ E.target e = v := by
    simp only [List.mem_map, BitSet.mem_toList, BitSet.mem_erase]
    exact exists_congr fun e => by rw [and_comm (a := e ≠ i), and_assoc]
  rw [failures, List.mem_filter, entered, Bool.and_eq_true, Bool.not_eq_true', Bool.eq_false_iff,
    ne_eq, leaves]
  exact and_comm.trans and_assoc

/-- The paths of a diagnosis, one for each entering edge, and the choices on them. -/
theorem diagnose_spec (execution : Execution E) (flow : Dataflow E) (kind : AnnotationKind)
    (join : Fin E.order) (origin out : Fin E.size) (reached : E.Edges) :
    let finding := (diagnose execution flow kind join origin out reached).value
    finding.paths = reached.toList.map (fun i => (path flow origin i).value) ∧
      ∀ v, v ∈ finding.failure ↔
        ∃ i ∈ reached.toList, v ∈ failures execution (path flow origin i).value i out := by
  have pairs : (reached.toList.mapM fun i => (fun P => (i, P)) <$> path flow origin i).value =
      reached.toList.map fun i => (i, (path flow origin i).value) :=
    Counted.value_mapM _ _
  simp only [diagnose, Counted.value_bind, Counted.value_pure, pairs, List.map_map]
  refine ⟨rfl, fun v => ?_⟩
  rw [BitSet.mem_ofList, List.mem_flatMap]
  simp only [List.mem_map, exists_exists_and_eq_and]

/-- What a deadlock tells of how it comes about: each of the edges `reached`, those that enter the
join and are found at `asked`, has its path from `origin`, and the failures are the choices entered
on the paths that have a branch from which the join is not sure to be executed. -/
structure Explained (execution : Execution E) (solution : Dataflow E)
    (asked origin out : Fin E.size) (reached : List (Fin E.size)) (finding : Finding E) : Prop where
  ascending : reached.Pairwise (· < ·)
  found : ∀ i, i ∈ reached ↔ E.target i = finding.printable ∧ i ∈ solution.facts[asked]
  paths : List.Forall₂ (Evidence execution origin out) reached finding.paths
  failures : ∀ v, v ∈ finding.failure ↔ (E.kindOf v = .split ∨ E.kindOf v = .orFork) ∧
    (∃ b, E.source b = v ∧ b ∉ execution.executedBy[out]) ∧
      ∃ leg ∈ reached.zip finding.paths, ∃ e ∈ leg.2, e ≠ leg.1 ∧ E.target e = v

/-- A diagnosis explains its deadlock if what holds where it was asked holds at the origin too. -/
theorem explained_diagnose (valid : E.Valid) {v : Fin E.order} (kind : AnnotationKind)
    {asked origin : Fin E.size}
    (carried : ∀ i, E.target i = v → E.Starts i asked → E.Starts i origin) :
    Explained E.executionOf E.dataflowOf asked origin (E.exitOf v)
      (E.entering v ∩ E.dataflowOf.facts[asked]).toList
      (diagnose E.executionOf E.dataflowOf kind v origin (E.exitOf v)
        (E.entering v ∩ E.dataflowOf.facts[asked])).value := by
  have member : ∀ i, i ∈ (E.entering v ∩ E.dataflowOf.facts[asked]).toList ↔
      E.target i = v ∧ i ∈ E.dataflowOf.facts[asked] := by
    intro i
    rw [BitSet.mem_toList, BitSet.mem_inter, E.mem_entering]
  obtain ⟨paths, failure⟩ := diagnose_spec E.executionOf E.dataflowOf kind v origin (E.exitOf v)
    (E.entering v ∩ E.dataflowOf.facts[asked])
  refine ⟨BitSet.sorted_toList _, member, ?_, fun w => ?_⟩
  · rw [paths, List.forall₂_map_right_iff, List.forall₂_same]
    intro i inside
    obtain ⟨rfl, fact⟩ := (member i).1 inside
    exact evidence_path (carried i rfl (mem_facts_iff.1 fact)) valid
  · rw [failure, paths, ← List.map_prod_left_eq_zip]
    simp only [mem_failures, List.mem_map, exists_exists_and_eq_and, ← isChoosing_iff]
    constructor
    · rintro ⟨i, inside, chooses, avoids, entered⟩
      exact ⟨chooses, avoids, i, inside, entered⟩
    · rintro ⟨chooses, avoids, i, inside, entered⟩
      exact ⟨i, inside, chooses, avoids, entered⟩

section Findings

variable {finding : Finding E} (valid : E.Valid)

include valid

/-- The edge that leaves a join has a closest dominator, at which every fact of the join holds
that holds at the start edge. -/
theorem exists_origin {v : Fin E.order} (isJoin : E.kindOf v = .join) :
    ∃ d, (E.dominanceOf .forward).immediate? (E.exitOf v) = some d ∧
      ∀ i, E.target i = v → E.Starts i E.first → E.Starts i d := by
  have leaves : E.source (E.exitOf v) = v := valid.source_exitOf (isJoin ▸ rfl)
  have notFirst : E.exitOf v ≠ E.first := by
    intro here
    have isStart := (valid.start_iff v).2 (by rw [← here, leaves])
    rw [isJoin] at isStart
    cases isStart
  obtain ⟨d, immediate⟩ := Dominance.exists_immediate? (valid.reached .forward _) notFirst
  obtain ⟨other, dominates, -⟩ := valid.immediate?_eq_some_iff.1 immediate
  refine ⟨d, immediate, fun i enters starts => ?_⟩
  exact starts_of_dominates starts (E.mem_successors.2 (leaves.trans enters.symm)) dominates other

theorem explained_started (member : finding ∈ E.startedJoins.map E.started) :
    E.kindOf finding.printable = .join ∧ finding.kind = .deadlock ∧ ∃ origin,
      (E.dominanceOf .forward).immediate? (E.exitOf finding.printable) = some origin ∧
      ∃ reached, Explained E.executionOf E.dataflowOf E.first origin (E.exitOf finding.printable)
        reached finding := by
  obtain ⟨v, isStarted, rfl⟩ := List.mem_map.1 member
  have isJoin := kind_of_startedJoins isStarted
  obtain ⟨origin, immediate, carried⟩ := exists_origin valid isJoin
  have same : E.started v = (diagnose E.executionOf E.dataflowOf .deadlock v origin (E.exitOf v)
      (E.entering v ∩ E.dataflowOf.facts[E.first])).value := by
    simp only [started, normal, Counted.value_bind, immediate, Option.getD_some]
  exact ⟨isJoin, rfl, origin, immediate, _, same ▸ explained_diagnose valid .deadlock carried⟩

theorem explained_recurring (member : finding ∈ E.recurring) :
    E.kindOf finding.printable = .join ∧ finding.kind = .deadlockCycle ∧
      ∃ reached, Explained E.executionOf E.dataflowOf (E.exitOf finding.printable)
        (E.exitOf finding.printable) (E.exitOf finding.printable) reached finding := by
  obtain ⟨⟨v, out⟩, listed, found⟩ := List.mem_filterMap.1 member
  obtain ⟨isJoin, rfl⟩ := mem_joinExits.1 listed
  simp only [cyclic, Counted.value_bind] at found
  split at found
  · cases found
  · cases found
    exact ⟨isJoin, rfl, _, explained_diagnose valid .deadlockCycle fun _ _ => id⟩

end Findings

/-- On a closed valid graph every deadlock comes with its evidence. The facts are asked for at the
start edge, and the paths begin at the closest dominator of the edge that leaves the join; or, on a
cycle, both happens at the edge that leaves the join. -/
theorem deadlock_paths {g : Graph} {E : EdgeGraph} (accepted : g.validate = .ok ())
    (closed : EdgeGraph.ofGraph g = .ok E) (name : String) :
    ∃ execution solution findings, Execution.compute E = .ok execution ∧
      Dataflow.solve execution.value = .ok solution ∧
      (Analysis.deadlocks name (Dominance.compute E .forward).value execution.value).outcome =
        .ok findings ∧
      ∀ finding ∈ findings, E.kindOf finding.printable = .join ∧ ∃ out asked origin reached,
        (∀ e, E.source e = finding.printable ↔ e = out) ∧
        (finding.kind = .deadlock ∧ asked = E.first ∧
            (Dominance.compute E .forward).value.immediate? out = some origin ∨
          finding.kind = .deadlockCycle ∧ asked = out ∧ origin = out) ∧
        Explained execution.value solution.value asked origin out reached finding := by
  have valid := EdgeGraph.valid_of_validate accepted closed
  obtain ⟨solution, solved, value⟩ := valid.solve_eq
  refine ⟨_, solution, E.deadlockFindings, valid.execution_eq, solved,
    valid.outcome_deadlocks name, fun finding member => ?_⟩
  rw [value]
  rw [deadlockFindings_eq] at member
  cases List.mem_append.1 member with
  | inl isStarted =>
    obtain ⟨isJoin, kind, origin, immediate, reached, explained⟩ :=
      explained_started valid isStarted
    exact ⟨isJoin, _, E.first, origin, reached, valid.source_iff (isJoin ▸ rfl),
      Or.inl ⟨kind, rfl, immediate⟩, explained⟩
  | inr isRecurring =>
    obtain ⟨isJoin, kind, reached, explained⟩ := explained_recurring valid isRecurring
    exact ⟨isJoin, _, _, _, reached, valid.source_iff (isJoin ▸ rfl),
      Or.inr ⟨kind, rfl, rfl⟩, explained⟩

/-- Behind the join the split leads back to it: the edge 2 enters the join again. -/
theorem deadlock_paths_rejoining : ∃ execution solution findings,
    Execution.compute rejoiningEdges = .ok execution ∧
      Dataflow.solve execution.value = .ok solution ∧
      (Analysis.deadlocks "rejoining" (Dominance.compute rejoiningEdges .forward).value
        execution.value).outcome = .ok findings ∧
      ∃ finding ∈ findings, finding.kind = .deadlockCycle ∧ ∃ out reached,
        rejoiningEdge 2 ∈ reached ∧
          Explained execution.value solution.value out out out reached finding := by
  have accepted : rejoining.validate = .ok () := by decide +kernel
  have closed : EdgeGraph.ofGraph rejoining = .ok rejoiningEdges := rfl
  have valid := EdgeGraph.valid_of_validate accepted closed
  obtain ⟨execution, solution, findings, computed, solved, answered, evidence⟩ :=
    deadlock_paths accepted closed "rejoining"
  have value : execution.value = rejoiningEdges.executionOf :=
    congrArg Counted.value (Except.ok.inj (computed.symm.trans valid.execution_eq))
  refine ⟨execution, solution, findings, computed, solved, answered, ?_⟩
  rw [value] at solved answered
  obtain ⟨_, solvedAlso, solutionValue⟩ := valid.solve_eq
  cases Except.ok.inj (solved.symm.trans solvedAlso)
  cases Except.ok.inj (answered.symm.trans (valid.outcome_deadlocks _))
  have starts : Starts rejoiningEdges (rejoiningEdge 2) (rejoiningEdge 1) :=
    .leads (by decide +kernel) (.enters (by decide +kernel)) (by decide +kernel) (by decide +kernel)
  obtain ⟨isJoin, leads⟩ := valid.starts_iff_leadsTo.1 starts
  obtain ⟨finding, member, shows⟩ := List.mem_map.1
    (valid.mem_recurringJoins_iff.2 ⟨isJoin, rejoiningEdge 1, by decide +kernel, _, leads⟩)
  have listed : finding ∈ rejoiningEdges.deadlockFindings := List.mem_append_right _ member
  have cyclic := (mem_recurring member).1
  obtain ⟨-, out, asked, origin, reached, leaves, ⟨kind, -⟩ | ⟨-, atOut, fromOut⟩, explained⟩ :=
    evidence finding listed
  · rw [cyclic] at kind
    cases kind
  · rw [atOut, fromOut] at explained
    have isOut : rejoiningEdge 1 = out := by
      refine (leaves _).1 ?_
      rw [shows]
      decide +kernel
    refine ⟨finding, listed, cyclic, out, reached, ?_, explained⟩
    refine (explained.found _).2 ⟨shows.symm, ?_⟩
    rw [solutionValue, ← isOut]
    exact mem_facts_iff.2 starts

end Deadlock
end WorkflowSoundness
