import Mathlib.Data.List.Nodup
import WorkflowSoundness.Proofs.Abundance.Meetings
import WorkflowSoundness.Proofs.StrongComponents

/-!
Where findings show. A join shows at most one deadlock from the start, which begins where its
closest strict dominator ends (`filter_deadlocks`); a fork shows each of its meetings once
(`filter_abundances`).
-/

namespace WorkflowSoundness

/-- Whether the annotation is of the kind and shows at the node. -/
def Annotation.isAt (note : Annotation) (kind : AnnotationKind) (v : Nat) : Bool :=
  decide (note.kind = kind ∧ note.printable = v)

theorem plain_isAt_iff {E : EdgeGraph} {finding : Finding E} {kind : AnnotationKind} {v : Nat} :
    finding.plain.isAt kind v = true ↔ finding.kind = kind ∧ (finding.printable : Nat) = v :=
  decide_eq_true_iff

/-- Only one entry of a list adds anything, and that one is there once. -/
theorem flatMap_eq_singleton {α β : Type} {l : List α} (once : l.Nodup) {a : α} (member : a ∈ l)
    {f : α → List β} {b : β} (here : f a = [b]) (elsewhere : ∀ x ∈ l, x ≠ a → f x = []) :
    l.flatMap f = [b] := by
  obtain ⟨before, behind, rfl⟩ := List.append_of_mem member
  have none : ∀ {part : List α}, (∀ x ∈ part, x ∈ before ++ a :: behind ∧ x ≠ a) →
      part.flatMap f = [] := fun each =>
    List.flatMap_eq_nil_iff.2 fun x inside => elsewhere x (each x inside).1 (each x inside).2
  obtain ⟨-, right, apart⟩ := List.nodup_append.1 once
  rw [List.flatMap_append, List.flatMap_cons, here, none fun x inside => ?_,
    none fun x inside => ?_]
  · rfl
  · exact ⟨List.mem_append_right _ (List.mem_cons_of_mem _ inside),
      fun same => (List.nodup_cons.1 right).1 (same ▸ inside)⟩
  · exact ⟨List.mem_append_left _ inside, apart x inside a List.mem_cons_self⟩

namespace EdgeGraph

variable {E : EdgeGraph} {v : Fin E.order} {finding : Finding E}

theorem filter_eq_nil_of_kind {l : List (Finding E)} {kind : AnnotationKind} {v : Nat}
    (other : ∀ finding ∈ l, finding.kind ≠ kind) : l.filter (·.plain.isAt kind v) = [] := by
  exact List.filter_eq_nil_iff.2 fun finding member shows =>
    other finding member (plain_isAt_iff.1 shows).1

/-! ### Waiting areas -/

theorem kind_of_waits (member : finding ∈ E.waitFindings) : finding.kind = .waitingArea := by
  obtain ⟨v, -, rfl⟩ := List.mem_map.1 member
  rfl

theorem printable_waits : E.waitFindings.map Finding.printable = E.nodesOf .orJoin := by
  rw [waitFindings, List.map_map]
  exact List.map_id _

/-! ### Deadlocks -/

/-- The joins that the start edge leads to, as they are read. -/
def startedJoins (E : EdgeGraph) : List (Fin E.order) :=
  (Deadlock.scan E.dataflowOf.facts[E.first]).map fun read => E.target read.1

/-- The joins of the start are those whose fact holds at the first edge. -/
theorem mem_startedJoins : v ∈ E.startedJoins ↔ ∃ i, E.target i = v ∧ E.Starts i E.first := by
  refine Deadlock.mem_joins_scan.trans (exists_congr fun i => ?_)
  rw [mem_facts_iff, and_comm]

/-- The scan hits a join once. -/
theorem nodup_startedJoins : E.startedJoins.Nodup :=
  Deadlock.nodup_joins_scan _

/-- The deadlock of a join that the start edge leads to. -/
def started (E : EdgeGraph) (v : Fin E.order) : Finding E :=
  (Deadlock.normal E.executionOf E.dataflowOf (E.dominanceOf .forward) v (E.exitOf v)
    (E.entering v ∩ E.dataflowOf.facts[E.first])).value

theorem kind_started : (E.started v).kind = .deadlock :=
  rfl

theorem printable_started : (E.started v).printable = v :=
  rfl

theorem opening_started : (E.started v).opening =
    some (E.target (((E.dominanceOf .forward).immediate? (E.exitOf v)).getD (E.exitOf v))) :=
  rfl

/-- The deadlocks on cycles. -/
def recurring (E : EdgeGraph) : List (Finding E) :=
  E.joinExits.filterMap fun (v, out) =>
    (Deadlock.cyclic E.executionOf E.dataflowOf v out).value

/-- A join is reported for all its entering edges that the start edge leads to, although those
reported before have been taken out. -/
theorem deadlockFindings_eq :
    E.deadlockFindings = E.startedJoins.map E.started ++ E.recurring := by
  rw [deadlockFindings, startedJoins, List.map_map]
  congr 1
  refine List.map_congr_left fun read listed => ?_
  obtain ⟨i, reached⟩ := read
  obtain rfl := (Deadlock.mem_scan.1 listed).2
  rfl

/-- A join is reported as recurring if its fact comes round to the edge behind it. -/
theorem mem_recurring (member : finding ∈ E.recurring) : finding.kind = .deadlockCycle ∧
    ∃ i, E.target i = finding.printable ∧ E.Starts i (E.exitOf finding.printable) := by
  obtain ⟨⟨v, out⟩, isJoin, found⟩ := List.mem_filterMap.1 member
  obtain ⟨-, rfl⟩ := mem_joinExits.1 isJoin
  simp only [Deadlock.cyclic, Counted.value_bind] at found
  split at found
  · cases found
  · rename_i some
    cases found
    refine ⟨rfl, ?_⟩
    obtain ⟨i, inside⟩ := not_forall_not.1 (mt BitSet.isEmpty_iff.2 some)
    obtain ⟨enters, fact⟩ := BitSet.mem_inter.1 inside
    exact ⟨i, E.mem_entering.1 enters, mem_facts_iff.1 fact⟩

/-- The joins that the edge leaving them leads back to. -/
def recurringJoins (E : EdgeGraph) : List (Fin E.order) :=
  (E.nodesOf .join).filter fun v => !(E.entering v ∩ E.dataflowOf.facts[E.exitOf v]).isEmpty

theorem mem_recurringJoins : v ∈ E.recurringJoins ↔
    E.kindOf v = .join ∧ ∃ i, E.target i = v ∧ E.Starts i (E.exitOf v) := by
  unfold recurringJoins
  rw [List.mem_filter, E.mem_nodesOf, Bool.not_eq_true', Bool.eq_false_iff, ne_eq,
    BitSet.isEmpty_iff, not_forall_not]
  refine and_congr_right fun _ => exists_congr fun i => ?_
  rw [BitSet.mem_inter, E.mem_entering, mem_facts_iff]

/-- A join shows a deadlock only if one of its facts gets back to the start edge or around to the
edge leaving the join. -/
theorem starts_of_deadlock (member : finding ∈ E.deadlockFindings) : ∃ i,
    E.target i = finding.printable ∧
      (finding.kind = .deadlock ∧ E.Starts i E.first ∨
        finding.kind = .deadlockCycle ∧ E.Starts i (E.exitOf finding.printable)) := by
  rcases List.mem_append.1 (deadlockFindings_eq ▸ member) with member | member
  · obtain ⟨v, isStarted, rfl⟩ := List.mem_map.1 member
    obtain ⟨i, enters, starts⟩ := mem_startedJoins.1 isStarted
    exact ⟨i, enters, Or.inl ⟨rfl, starts⟩⟩
  · obtain ⟨kind, i, enters, starts⟩ := mem_recurring member
    exact ⟨i, enters, Or.inr ⟨kind, starts⟩⟩

/-- The deadlock of a join from the start is shown once. -/
theorem filter_deadlocks {i : Fin E.size} (starts : E.Starts i E.first) :
    E.deadlockFindings.filter (·.plain.isAt .deadlock (E.target i)) = [E.started (E.target i)] := by
  have ofStarted : ∀ v, (E.started v).plain.isAt .deadlock (E.target i) = true ↔ v = E.target i :=
    fun v => plain_isAt_iff.trans
      ⟨fun both => Fin.ext both.2, fun same => ⟨rfl, congrArg Fin.val same⟩⟩
  have none : E.recurring.filter (·.plain.isAt .deadlock (E.target i)) = [] :=
    filter_eq_nil_of_kind fun finding member kind => by
      rw [(mem_recurring member).1] at kind
      cases kind
  have sole : E.startedJoins.filter
      (fun v => (E.started v).plain.isAt .deadlock (E.target i)) = [E.target i] := by
    refine eq_singleton_of_nodup (nodup_startedJoins.filter _) fun v => ?_
    rw [List.mem_filter, ofStarted]
    exact ⟨And.right, fun same => ⟨same ▸ mem_startedJoins.2 ⟨i, rfl, starts⟩, same⟩⟩
  rw [deadlockFindings_eq, List.filter_append, none, List.append_nil, List.filter_map]
  exact congrArg (List.map E.started) sole

end EdgeGraph

/-! ### Abundances -/

namespace Abundance

variable {E : EdgeGraph} {fork : Fin E.order} {meeting : Meeting E}

theorem nodup_forks : (forks E).Nodup := by
  refine List.nodup_append.2 ⟨?_, ?_, fun v isFork w isOrFork same => ?_⟩
  · exact (List.nodup_finRange _).filter _
  · exact (List.nodup_finRange _).filter _
  · rw [E.mem_nodesOf] at isFork isOrFork
    rw [← same, isFork] at isOrFork
    cases isOrFork

/-- A meeting is cyclic if its edge leaves a fork that an edge of a component enters. -/
theorem cyclic_of_meeting (member : meeting ∈ E.meetingsOf fork) :
    meeting.cyclic = ((E.kindOf (E.source meeting.definition.edge)).isForking &&
      (E.entering (E.source meeting.definition.edge)).first?.any
        (Components.compute E).inCycle) := by
  obtain ⟨definition, -, found⟩ := mem_meetingsOf.1 member
  simp only [meeting?, Counted.value_bind] at found
  split at found
  · cases found
  · cases found
    rfl

section Kind

variable (valid : E.Valid) (forking : (E.kindOf fork).isForking = true)
  (member : meeting ∈ E.meetingsOf fork)

include valid forking member

omit forking in
/-- At a forking gateway two paths arrive only if it is the fork itself and lies on a cycle. -/
theorem source_of_forking (again : (E.kindOf (E.source meeting.definition.edge)).isForking = true) :
    E.source meeting.definition.edge = fork := by
  refine Classical.byContradiction fun other => ?_
  have splitting := NodeKind.isSplitting_of_isForking again
  refine absurd (ForkNetwork.maximize_sole_le (Ne.symm other) fun x enters =>
    (valid.target_iff splitting x).1 enters) (Nat.not_le_of_lt (several_of_meeting member))

omit member in
/-- The edge that enters a fork does not leave it. -/
theorem source_entryOf_ne : E.source (E.entryOf fork) ≠ fork := by
  intro loop
  have splitting := NodeKind.isSplitting_of_isForking forking
  have enters := valid.target_entryOf splitting
  have notRoot : E.entryOf fork ≠ E.root .forward := fun root =>
    valid.not_before_root .forward (E.entryOf fork)
      (root ▸ E.mem_predecessors.2 (enters.trans loop.symm))
  obtain ⟨q, before, free⟩ := EdgeGraph.Dominates.exists_before (valid.reached .forward _) notRoot
  have isEntry := (valid.target_iff splitting q).1 ((E.mem_predecessors.1 before).trans loop)
  exact free (isEntry ▸ .refl q)

/-- Where two paths arrive at the fork itself, its branches lead back to the edge that enters it. -/
theorem exists_before_entry (same : E.source meeting.definition.edge = fork) :
    ∃ d ∈ E.bondOf fork, E.target d = E.source (E.entryOf fork) := by
  refine Classical.byContradiction fun alone => ?_
  refine absurd (ForkNetwork.maximize_branch_le same (source_entryOf_ne valid forking)
    fun d allows back => ?_) (Nat.not_le_of_lt (several_of_meeting member))
  exact alone ⟨d, (mem_allowed.1 allows).2.1, back⟩

/-- Two paths that meet at their own fork have come back to it, so its entry lies in a cycle. -/
theorem inCycle_of_source (same : E.source meeting.definition.edge = fork) :
    (Components.compute E).inCycle (E.entryOf fork) = true := by
  have enters := valid.target_entryOf (NodeKind.isSplitting_of_isForking forking)
  obtain ⟨d, inBond, back⟩ := exists_before_entry valid forking member same
  obtain ⟨f, leaves, path⟩ := exists_path_of_mem_bond inBond
  exact Components.inCycle_of_path (E.mem_successors.2 (leaves.trans enters.symm))
    (fun here => source_entryOf_ne valid forking (here ▸ leaves))
    (path.snoc (E.mem_successors.2 back.symm))

/-- Hence a meeting is cyclic if and only if it is shown at its own fork. -/
theorem kind_of_meeting : (meeting.finding fork).kind =
    if E.source meeting.definition.edge = fork then .abundanceCycle else .abundance := by
  have splitting := NodeKind.isSplitting_of_isForking forking
  rw [Meeting.finding, cyclic_of_meeting member]
  by_cases same : E.source meeting.definition.edge = fork
  · have first := EdgeGraph.first?_eq_of_unique fun x =>
      (E.mem_entering (v := fork)).trans (valid.target_iff splitting x)
    rw [if_pos same, same, forking, first, Option.any_some, Bool.true_and,
      inCycle_of_source valid forking member same]
    rfl
  · have forkless := Bool.eq_false_iff.2 fun again => same (source_of_forking valid member again)
    rw [if_neg same, forkless]
    rfl

end Kind

/-- A meeting at another node than the fork is shown once, if it is the only one there. -/
theorem filter_abundances (valid : E.Valid) (forking : (E.kindOf fork).isForking = true)
    (member : meeting ∈ E.meetingsOf fork)
    (other : E.source meeting.definition.edge ≠ fork)
    (only : ∀ fork' : Fin E.order, (E.kindOf fork').isForking = true →
      ∀ meeting' ∈ E.meetingsOf fork', E.source meeting'.definition.edge =
        E.source meeting.definition.edge →
      fork' = fork ∧ meeting'.definition.edge = meeting.definition.edge) :
    E.abundanceFindings.filter (·.plain.isAt .abundance (E.source meeting.definition.edge)) =
      [meeting.finding fork] := by
  have shows : ∀ {fork' : Fin E.order}, (E.kindOf fork').isForking = true →
      ∀ meeting' ∈ E.meetingsOf fork',
      (meeting'.finding fork').plain.isAt .abundance (E.source meeting.definition.edge) = true →
        fork' = fork ∧ meeting'.definition.edge = meeting.definition.edge := by
    intro fork' isForking meeting' inside isAt
    exact only fork' isForking meeting' inside (Fin.ext (plain_isAt_iff.1 isAt).2)
  rw [EdgeGraph.abundanceFindings, List.filter_flatMap]
  refine flatMap_eq_singleton nodup_forks (EdgeGraph.mem_forks.2 forking) ?_ fun fork' isFork
    different => ?_
  · have sole : (E.meetingsOf fork).filter (fun meeting' =>
        (meeting'.finding fork).plain.isAt .abundance (E.source meeting.definition.edge)) =
        [meeting] := by
      refine eq_singleton_of_nodup ((List.Nodup.of_map _ nodup_meetingsOf).filter _)
        fun meeting' => ?_
      rw [List.mem_filter]
      constructor
      · rintro ⟨inside, isAt⟩
        exact List.inj_on_of_nodup_map nodup_meetingsOf inside member
          (shows forking meeting' inside isAt).2
      · rintro rfl
        exact ⟨member, plain_isAt_iff.2
          ⟨(kind_of_meeting valid forking member).trans (if_neg other), rfl⟩⟩
    rw [List.filter_map]
    exact congrArg (List.map (Meeting.finding fork)) sole
  · refine List.filter_eq_nil_iff.2 fun finding found isAt => different ?_
    obtain ⟨meeting', inside, rfl⟩ := List.mem_map.1 found
    exact (shows (EdgeGraph.mem_forks.1 isFork) meeting' inside isAt).1

end Abundance

/-! ### All findings -/

namespace EdgeGraph

variable {E : EdgeGraph} {finding : Finding E} {v : Nat}

theorem isDeadlock_of_deadlocks (member : finding ∈ E.deadlockFindings) :
    finding.kind.isDeadlock = true := by
  obtain ⟨i, -, ⟨kind, -⟩ | ⟨kind, -⟩⟩ := starts_of_deadlock member
  · rw [kind]
    rfl
  · rw [kind]
    rfl

theorem isAbundance_of_abundances (member : finding ∈ E.abundanceFindings) :
    finding.kind.isAbundance = true := by
  obtain ⟨fork, -, meeting, -, rfl⟩ := Abundance.mem_abundanceFindings.1 member
  unfold Abundance.Meeting.finding
  cases meeting.cyclic <;> rfl

/-- Only the deadlock analysis reports findings of its kinds. -/
theorem deadlock_of_findings (member : finding ∈ E.findings)
    (kind : finding.kind.isDeadlock = true) : finding ∈ E.deadlockFindings := by
  rcases List.mem_append.1 member with member | member
  · refine (List.mem_append.1 member).resolve_left fun waits => ?_
    rw [kind_of_waits waits] at kind
    cases kind
  · refine absurd (isAbundance_of_abundances member) ?_
    revert kind
    cases finding.kind <;> decide

/-- What is shown as a deadlock at a node comes from the deadlock analysis. -/
theorem filter_findings_deadlock : E.findings.filter (·.plain.isAt .deadlock v) =
    E.deadlockFindings.filter (·.plain.isAt .deadlock v) := by
  have waits : E.waitFindings.filter (·.plain.isAt .deadlock v) = [] :=
    filter_eq_nil_of_kind fun finding member kind => by
      rw [kind_of_waits member] at kind
      cases kind
  have abundances : E.abundanceFindings.filter (·.plain.isAt .deadlock v) = [] :=
    filter_eq_nil_of_kind fun finding member kind => by
      have isAbundance := isAbundance_of_abundances member
      rw [kind] at isAbundance
      cases isAbundance
  rw [findings, List.filter_append, List.filter_append, waits, abundances, List.append_nil,
    List.nil_append]

/-- What is shown as an abundance at a node comes from the abundance analysis. -/
theorem filter_findings_abundance : E.findings.filter (·.plain.isAt .abundance v) =
    E.abundanceFindings.filter (·.plain.isAt .abundance v) := by
  have waits : E.waitFindings.filter (·.plain.isAt .abundance v) = [] :=
    filter_eq_nil_of_kind fun finding member kind => by
      rw [kind_of_waits member] at kind
      cases kind
  have deadlocks : E.deadlockFindings.filter (·.plain.isAt .abundance v) = [] :=
    filter_eq_nil_of_kind fun finding member kind => by
      have isDeadlock := isDeadlock_of_deadlocks member
      rw [kind] at isDeadlock
      cases isDeadlock
  rw [findings, List.filter_append, List.filter_append, waits, deadlocks, List.append_nil,
    List.nil_append]

end EdgeGraph
end WorkflowSoundness
