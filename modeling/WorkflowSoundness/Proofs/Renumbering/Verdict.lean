import Mathlib.Data.List.Count
import Mathlib.Data.Prod.Basic
import WorkflowSoundness.Proofs.Renumbering.Meetings
import WorkflowSoundness.Proofs.Subdivision

/-!
What verification says of a graph with other numbers. It finds the same waiting areas and the same
deadlocks. It finds the same abundances if and only if, wherever paths arrive, the fork has a
definition under the one numbering exactly if it has one under the other (`verdicts_agree_iff`); so
it does where nothing is contested. Where something is, it may not (`verdict_depends_on_numbers`).
-/

namespace WorkflowSoundness

open Abundance

namespace EdgeGraph

/-! ### Renumberings of closed graphs -/

/-- Two tables that hold the same entries, each as often, differ by a bijection of their places. -/
theorem exists_equiv_of_perm {α : Type} {m n : Nat} {f : Fin m → α} {g : Fin n → α}
    (perm : ((List.finRange n).map g).Perm ((List.finRange m).map f)) :
    ∃ place : Fin m ≃ Fin n, ∀ i, g (place i) = f i := by
  obtain ⟨l, same, entries⟩ := exists_perm_map perm
  have length : m = l.length := by
    have lengths := congrArg List.length entries
    rw [List.length_map, List.length_map, List.length_finRange] at lengths
    exact lengths.symm
  have once : l.Nodup := same.nodup_iff.2 (List.nodup_finRange _)
  have bijective : Function.Bijective fun i : Fin m => l.get (i.cast length) := by
    refine ⟨fun i j equal => ?_, fun k => ?_⟩
    · have values := congrArg Fin.val (once.injective_get equal)
      exact Fin.ext values
    · obtain ⟨i, found⟩ := List.get_of_mem (same.mem_iff.2 (List.mem_finRange k))
      exact ⟨i.cast length.symm, found⟩
  refine ⟨.ofBijective _ bijective, fun i => ?_⟩
  have entry := List.getElem_of_eq entries (i := i.val) (by simp [← length])
  simpa using entry

/-- As many edges lead from one node to another as there are flows. -/
theorem count_ends {g : Graph} {E : EdgeGraph} (numbered : Numbered g E) (u v : Fin E.order) :
    ((List.finRange E.size).map fun e => (E.source e, E.target e)).count (u, v) =
      g.flows.count ⟨u, v⟩ := by
  rw [← numbered.flows.count_eq, List.count_eq_countP, List.count_eq_countP, List.countP_map,
    List.countP_map]
  refine List.countP_congr fun e _ => ?_
  simp [Fin.ext_iff]

/-- A bijection of the nodes of two closed graphs that keeps their kinds and the number of flows
between any two extends to the edges. -/
theorem exists_renumbering {g h : Graph} {E F : EdgeGraph} (numberedE : Numbered g E)
    (numberedF : Numbered h F) (validE : E.Valid) (validF : F.Valid)
    (node : Fin E.order ≃ Fin F.order) (kinds : ∀ v, F.kindOf (node v) = E.kindOf v)
    (flows : ∀ u v, h.flows.count ⟨node u, node v⟩ = g.flows.count ⟨u, v⟩) :
    ∃ r : Renumbering E F, r.node = node := by
  have perm : ((List.finRange F.size).map fun e => (F.source e, F.target e)).Perm
      ((List.finRange E.size).map fun e => (node (E.source e), node (E.target e))) := by
    refine List.perm_iff_count.2 fun ends => ?_
    obtain ⟨u, v⟩ := ends
    obtain ⟨u, rfl⟩ := node.surjective u
    obtain ⟨v, rfl⟩ := node.surjective v
    have injective : Function.Injective (Prod.map node node) :=
      Function.Injective.prodMap node.injective node.injective
    have moved := List.count_map_of_injective
      ((List.finRange E.size).map fun e => (E.source e, E.target e)) _ injective (u, v)
    rw [Prod.map_apply, List.map_map] at moved
    refine (count_ends numberedF _ _).trans ((flows u v).trans ?_)
    exact (count_ends numberedE u v).symm.trans moved.symm
  obtain ⟨edge, kept⟩ := exists_equiv_of_perm perm
  refine ⟨
    { node
      edge
      source := fun e => congrArg Prod.fst (kept e)
      target := fun e => congrArg Prod.snd (kept e)
      kind := kinds
      first := validF.first_only _ ?_
      last := validF.last_only _ ?_ }, rfl⟩
  · refine (validF.start_iff _).1 ((congrArg F.kindOf (congrArg Prod.fst (kept E.first))).trans ?_)
    rw [kinds, validE.start_iff]
  · refine (validF.finish_iff _).1 ((congrArg F.kindOf (congrArg Prod.snd (kept E.last))).trans ?_)
    rw [kinds, validE.finish_iff]

end EdgeGraph

/-- The kind of a finding with the nodes where it shows and begins, under other numbers. -/
def Finding.key {E : EdgeGraph} {n : Nat} (move : Fin E.order → Fin n) (finding : Finding E) :
    AnnotationKind × Fin n × Option (Fin n) :=
  (finding.kind, move finding.printable, finding.opening.map move)

namespace EdgeGraph

variable {E F : EdgeGraph}

/-! ### Waiting areas and deadlocks -/

theorem key_recurring {n : Nat} (move : Fin E.order → Fin n) :
    E.recurring.map (·.key move) = E.recurringJoins.map fun v =>
      (.deadlockCycle, move v, some (move (E.target (E.exitOf v)))) := by
  unfold recurring recurringJoins joinExits
  rw [List.filterMap_map]
  induction E.nodesOf .join with
  | nil => rfl
  | cons v l ih =>
    rw [List.filterMap_cons, List.filter_cons]
    simp only [Function.comp_apply, Deadlock.cyclic, Counted.value_bind]
    cases (E.entering v ∩ E.dataflowOf.facts[E.exitOf v]).isEmpty with
    | true => exact ih
    | false => exact congrArg (List.cons _) ih

namespace Renumbering

variable (r : Renumbering E F)

theorem perm_nodesOf (kind : NodeKind) : ((E.nodesOf kind).map r.node).Perm (F.nodesOf kind) := by
  refine (List.perm_ext_iff_of_nodup ?_ ?_).2 fun v' => ?_
  · exact ((List.nodup_finRange _).filter _).map r.node.injective
  · exact (List.nodup_finRange _).filter _
  · obtain ⟨v, rfl⟩ := r.node.surjective v'
    rw [List.mem_map_of_injective r.node.injective, E.mem_nodesOf, F.mem_nodesOf, r.kind]

theorem perm_waits :
    (E.waitFindings.map (·.key r.node)).Perm (F.waitFindings.map (·.key id)) := by
  have keys : ∀ {E : EdgeGraph} {n : Nat} (move : Fin E.order → Fin n),
      E.waitFindings.map (·.key move) =
        (E.nodesOf .orJoin).map fun v => (.waitingArea, move v, none) := fun move => by
    rw [waitFindings, List.map_map]
    rfl
  rw [keys, keys]
  have moved := (r.perm_nodesOf .orJoin).map fun v =>
    (AnnotationKind.waitingArea, id v, (none : Option (Fin F.order)))
  rwa [List.map_map] at moved

section Simple

variable (validE : E.Valid) (validF : F.Valid) (simpleE : E.Simple) (simpleF : F.Simple)

include validE validF simpleE simpleF

theorem perm_startedJoins : (E.startedJoins.map r.node).Perm F.startedJoins := by
  refine (List.perm_ext_iff_of_nodup ?_ nodup_startedJoins).2 fun v' => ?_
  · exact nodup_startedJoins.map r.node.injective
  · obtain ⟨v, rfl⟩ := r.node.surjective v'
    rw [List.mem_map_of_injective r.node.injective, mem_startedJoins, mem_startedJoins,
      r.edge.surjective.exists, ← r.first]
    simp only [r.target_eq_iff, r.starts_iff validE validF simpleE simpleF]

theorem perm_recurringJoins : (E.recurringJoins.map r.node).Perm F.recurringJoins := by
  refine (List.perm_ext_iff_of_nodup ?_ ?_).2 fun v' => ?_
  · exact (((List.nodup_finRange _).filter _).filter _).map r.node.injective
  · exact ((List.nodup_finRange _).filter _).filter _
  · obtain ⟨v, rfl⟩ := r.node.surjective v'
    rw [List.mem_map_of_injective r.node.injective, mem_recurringJoins, mem_recurringJoins, r.kind,
      r.edge.surjective.exists]
    refine and_congr_right fun isJoin => ?_
    rw [← r.exitOf validE validF (isJoin ▸ rfl)]
    simp only [r.target_eq_iff, r.starts_iff validE validF simpleE simpleF]

theorem perm_deadlocks :
    (E.deadlockFindings.map (·.key r.node)).Perm (F.deadlockFindings.map (·.key id)) := by
  rw [deadlockFindings_eq, deadlockFindings_eq, List.map_append, List.map_append, List.map_map,
    List.map_map, key_recurring, key_recurring]
  refine List.Perm.append ?_ ?_
  · have moved := (r.perm_startedJoins validE validF simpleE simpleF).map fun v =>
      (F.started v).key id
    rw [List.map_map] at moved
    refine List.Perm.trans (List.Perm.of_eq (List.map_congr_left fun v member => ?_)) moved
    obtain ⟨i, enters, starts⟩ := mem_startedJoins.1 member
    have isJoin : E.kindOf v = .join := enters ▸ starts.isJoin
    have exits : r.edge (E.exitOf v) = F.exitOf (r.node v) :=
      r.exitOf validE validF (isJoin ▸ rfl)
    simp only [Function.comp_apply, Finding.key, kind_started, printable_started, opening_started,
      ← exits, r.immediate?_eq validE validF, Option.getD_map, r.target, Option.map_some, id]
  · have moved := (r.perm_recurringJoins validE validF simpleE simpleF).map fun v =>
      (AnnotationKind.deadlockCycle, id v, some (id (F.target (F.exitOf v))))
    rw [List.map_map] at moved
    refine List.Perm.trans (List.Perm.of_eq (List.map_congr_left fun v member => ?_)) moved
    have isJoin := (mem_recurringJoins.1 member).1
    rw [Function.comp_apply, ← r.exitOf validE validF (isJoin ▸ rfl), r.target]
    rfl

end Simple

end Renumbering

/-! ### Abundances -/

/-- The fork has a definition that leaves the node. -/
def Discovers (E : EdgeGraph) (fork v : Fin E.order) : Prop :=
  ∃ z, E.source z = v ∧ Defined (E.definitionsOf fork) z

/-- The forks with the edges of their meetings. -/
def reports (E : EdgeGraph) : List (Fin E.order × Fin E.size) :=
  (Abundance.forks E).flatMap fun fork =>
    (E.meetingsOf fork).map fun meeting => (fork, meeting.definition.edge)

/-- The key of a report under other numbers. -/
def reportKey {n : Nat} (move : Fin E.order → Fin n) (report : Fin E.order × Fin E.size) :
    AnnotationKind × Fin n × Option (Fin n) :=
  (if E.source report.2 = report.1 then .abundanceCycle else .abundance,
    move (E.source report.2), some (move report.1))

section Reports

variable {fork : Fin E.order} {z : Fin E.size}

theorem mem_reports : (fork, z) ∈ E.reports ↔
    (E.kindOf fork).isForking = true ∧ Defined (E.definitionsOf fork) z ∧ E.Arrives fork z := by
  rw [← exists_meeting_iff, ← mem_forks]
  simp only [reports, List.mem_flatMap, List.mem_map, Prod.mk.injEq]
  constructor
  · rintro ⟨_, isFork, meeting, member, rfl, rfl⟩
    exact ⟨isFork, meeting, member, rfl⟩
  · rintro ⟨isFork, meeting, member, rfl⟩
    exact ⟨fork, isFork, meeting, member, rfl, rfl⟩

theorem nodup_reports : E.reports.Nodup := by
  refine List.nodup_flatMap.2 ⟨fun fork _ => ?_, nodup_forks.imp fun {fork fork'} other => ?_⟩
  · refine List.Nodup.of_map Prod.snd ?_
    rw [List.map_map]
    exact nodup_meetingsOf
  · rintro ⟨_, _⟩ left right
    obtain ⟨_, -, same⟩ := List.mem_map.1 left
    obtain ⟨_, -, same'⟩ := List.mem_map.1 right
    exact other ((congrArg Prod.fst same).trans (congrArg Prod.fst same').symm)

variable (valid : E.Valid)

include valid

theorem key_abundances {n : Nat} (move : Fin E.order → Fin n) :
    E.abundanceFindings.map (·.key move) = E.reports.map (reportKey move) := by
  unfold abundanceFindings reports
  rw [List.map_flatMap, List.map_flatMap]
  refine List.flatMap_congr fun fork isFork => ?_
  rw [List.map_map, List.map_map]
  refine List.map_congr_left fun meeting member => ?_
  rw [Function.comp_apply, Finding.key, kind_of_meeting valid (mem_forks.1 isFork) member]
  rfl

/-- The edges that leave a node are definitions together. -/
theorem defined_of_discovers (found : E.Discovers fork (E.source z)) :
    Defined (E.definitionsOf fork) z := by
  obtain ⟨z', same, defined⟩ := found
  rcases defined_iff.1 defined with followed | met
  · rcases branch_or_met followed with leaves | met
    · exact defined_iff.2 (Or.inl (followed_branch (same.symm.trans leaves)))
    · exact defined_iff.2 (Or.inr (met_of_same_source valid same met))
  · exact defined_iff.2 (Or.inr (met_of_same_source valid same met))

end Reports

namespace Renumbering

variable (r : Renumbering E F) (validE : E.Valid) (validF : F.Valid) (simpleE : E.Simple)
  (simpleF : F.Simple)

include validE validF simpleE simpleF

theorem perm_reports (agree : ∀ fork z, (E.kindOf fork).isForking = true → E.Arrives fork z →
      (Defined (E.definitionsOf fork) z ↔ Defined (F.definitionsOf (r.node fork)) (r.edge z))) :
    (E.reports.map (Prod.map r.node r.edge)).Perm F.reports := by
  have injective : Function.Injective (Prod.map r.node r.edge) :=
    Function.Injective.prodMap r.node.injective r.edge.injective
  refine (List.perm_ext_iff_of_nodup (nodup_reports.map injective) nodup_reports).2 ?_
  rintro ⟨fork', z'⟩
  obtain ⟨fork, rfl⟩ := r.node.surjective fork'
  obtain ⟨z, rfl⟩ := r.edge.surjective z'
  rw [← Prod.map_apply r.node, List.mem_map_of_injective injective, mem_reports, Prod.map_apply,
    mem_reports, r.kind]
  refine and_congr_right fun forking => ?_
  rw [r.arrives_iff validE validF simpleE simpleF (NodeKind.isSplitting_of_isForking forking)]
  exact and_congr_left fun arrives => agree fork z forking arrives

/-- A report of one graph under the numbers of the other is a definition there. -/
theorem discovers_of_key (perm : (E.abundanceFindings.map (·.key r.node)).Perm
    (F.abundanceFindings.map (·.key id))) {fork : Fin E.order} {z : Fin E.size}
    (forking : (E.kindOf fork).isForking = true) (arrives : E.Arrives fork z) :
    Defined (E.definitionsOf fork) z ↔ F.Discovers (r.node fork) (r.node (E.source z)) := by
  rw [key_abundances validE, key_abundances validF] at perm
  constructor
  · intro defined
    have inE := mem_reports.2 ⟨forking, defined, arrives⟩
    obtain ⟨⟨fork', z'⟩, inF, same⟩ := List.mem_map.1 (perm.mem_iff.1 (List.mem_map_of_mem inE))
    obtain ⟨-, found, -⟩ := mem_reports.1 inF
    simp only [reportKey, Prod.mk.injEq, id, Option.some.injEq] at same
    obtain ⟨-, source, rfl⟩ := same
    exact ⟨z', source, found⟩
  · rw [← r.source]
    intro found
    have defined := defined_of_discovers validF found
    have splitting := NodeKind.isSplitting_of_isForking forking
    have inF := mem_reports.2 ⟨(r.kind fork).symm ▸ forking, defined,
      (r.arrives_iff validE validF simpleE simpleF splitting).2 arrives⟩
    obtain ⟨⟨fork', z'⟩, inE, same⟩ := List.mem_map.1 (perm.mem_iff.2 (List.mem_map_of_mem inF))
    obtain ⟨-, here, -⟩ := mem_reports.1 inE
    simp only [reportKey, Prod.mk.injEq, id, Option.some.injEq, r.source,
      r.node.apply_eq_iff_eq] at same
    obtain ⟨-, source, rfl⟩ := same
    exact defined_of_discovers validE ⟨z', source, here⟩

/-- The same abundances are found if and only if the forks discover the same nodes among those where
paths arrive. -/
theorem perm_abundances_iff : (E.abundanceFindings.map (·.key r.node)).Perm
      (F.abundanceFindings.map (·.key id)) ↔
    ∀ fork v, (E.kindOf fork).isForking = true → (∃ z, E.source z = v ∧ E.Arrives fork z) →
      (E.Discovers fork v ↔ F.Discovers (r.node fork) (r.node v)) := by
  constructor
  · rintro perm fork _ forking ⟨z, rfl, arrives⟩
    rw [← r.discovers_of_key validE validF simpleE simpleF perm forking arrives]
    exact ⟨defined_of_discovers validE, fun defined => ⟨z, rfl, defined⟩⟩
  · intro agree
    have reports := r.perm_reports validE validF simpleE simpleF fun fork z forking arrives => by
      have both := agree fork (E.source z) forking ⟨z, rfl, arrives⟩
      rw [← r.source] at both
      exact ⟨fun defined => defined_of_discovers validF (both.1 ⟨z, rfl, defined⟩),
        fun defined => defined_of_discovers validE (both.2 ⟨r.edge z, rfl, defined⟩)⟩
    have moved := reports.map (reportKey id)
    rw [key_abundances validE, key_abundances validF]
    rw [List.map_map] at moved
    refine List.Perm.trans (List.Perm.of_eq (List.map_congr_left fun report _ => ?_)) moved
    simp only [reportKey, Function.comp_apply, Prod.map, r.source, r.node.apply_eq_iff_eq, id]

/-- Where nothing is contested, the same abundances are found. -/
theorem perm_abundances (settled : ∀ fork, (E.kindOf fork).isForking = true →
      ∀ s, ¬ E.Contested fork s) :
    (E.abundanceFindings.map (·.key r.node)).Perm (F.abundanceFindings.map (·.key id)) := by
  refine (r.perm_abundances_iff validE validF simpleE simpleF).2 fun fork v forking _ => ?_
  have splitting := NodeKind.isSplitting_of_isForking forking
  unfold Discovers
  rw [r.edge.surjective.exists]
  simp only [r.source_eq_iff, r.defined_iff_defined validE validF splitting (settled fork forking)]

end Renumbering

/-! ### Verdicts -/

theorem filter_findings_plain : E.findings.filter (fun finding => !finding.kind.isAbundance) =
    E.waitFindings ++ E.deadlockFindings := by
  have waits : E.waitFindings.filter (fun finding => !finding.kind.isAbundance) = E.waitFindings :=
    List.filter_eq_self.2 fun finding member => by
      rw [kind_of_waits member]
      rfl
  have deadlocks : E.deadlockFindings.filter (fun finding => !finding.kind.isAbundance) =
      E.deadlockFindings := List.filter_eq_self.2 fun finding member => by
    have isDeadlock := isDeadlock_of_deadlocks member
    revert isDeadlock
    cases finding.kind <;> decide
  have abundances : E.abundanceFindings.filter (fun finding => !finding.kind.isAbundance) = [] :=
    List.filter_eq_nil_iff.2 fun finding member => by
      rw [isAbundance_of_abundances member]
      exact Bool.false_ne_true
  rw [findings, List.filter_append, List.filter_append, waits, deadlocks, abundances,
    List.append_nil]

/-- An accepted graph in the simple shape is verified as it is. -/
theorem exists_verified {g : Graph} (accepted : g.validate = .ok ())
    (plain : g.simplify.1.order = g.order) (closed : EdgeGraph.ofGraph g = .ok E) :
    E.Valid ∧ E.Simple ∧
      ∃ final, verify.Ends (.draft g) (.ok (E.findings.map Finding.plain)) final := by
  obtain ⟨start, finish, rules⟩ := Graph.validate_eq_ok_iff.1 accepted
  obtain ⟨h, simplified, sub, tail⟩ := Graph.subdivided_simplify (g := g)
    (by rw [Graph.start?, rules.starts]; rfl) (by rw [Graph.finish?, rules.finishes]; rfl)
  rw [simplified] at plain
  obtain rfl := sub.eq_of_order_eq plain
  have numbered := numbered_of_ofGraph closed
  have valid := numbered.valid rules
  exact ⟨valid, numbered.simple (Graph.separated_simplify sub tail), _,
    ends_verify accepted simplified closed valid⟩

end EdgeGraph

/-- Verification of two graphs that differ in their numbers only finds the same waiting areas and
deadlocks. It finds the same abundances, and so the same of everything, if and only if the forks
discover the same nodes among those where paths arrive; and it does if nothing is contested. -/
theorem verdicts_agree_iff {g h : Graph} {E F : EdgeGraph} (acceptedG : g.validate = .ok ())
    (acceptedH : h.validate = .ok ()) (plainG : g.simplify.1.order = g.order)
    (plainH : h.simplify.1.order = h.order) (closedG : EdgeGraph.ofGraph g = .ok E)
    (closedH : EdgeGraph.ofGraph h = .ok F) (node : Fin E.order ≃ Fin F.order)
    (kinds : ∀ v, F.kindOf (node v) = E.kindOf v)
    (flows : ∀ u v, h.flows.count ⟨node u, node v⟩ = g.flows.count ⟨u, v⟩) :
    ∃ (found : List (Finding E)) (found' : List (Finding F)) (final final' : Workflow),
      verify.Ends (.draft g) (.ok (found.map Finding.plain)) final ∧
      verify.Ends (.draft h) (.ok (found'.map Finding.plain)) final' ∧
      ((found.filter fun finding => !finding.kind.isAbundance).map (·.key node)).Perm
        ((found'.filter fun finding => !finding.kind.isAbundance).map (·.key id)) ∧
      ((found.map (·.key node)).Perm (found'.map (·.key id)) ↔
        ∀ fork v, (E.kindOf fork).isForking = true → (∃ z, E.source z = v ∧ E.Arrives fork z) →
          (E.Discovers fork v ↔ F.Discovers (node fork) (node v))) ∧
      ((∀ fork, (E.kindOf fork).isForking = true → ∀ s, ¬ E.Contested fork s) →
        (found.map (·.key node)).Perm (found'.map (·.key id))) := by
  obtain ⟨validE, simpleE, final, endsG⟩ := EdgeGraph.exists_verified acceptedG plainG closedG
  obtain ⟨validF, simpleF, final', endsH⟩ := EdgeGraph.exists_verified acceptedH plainH closedH
  obtain ⟨r, rfl⟩ := EdgeGraph.exists_renumbering (EdgeGraph.numbered_of_ofGraph closedG)
    (EdgeGraph.numbered_of_ofGraph closedH) validE validF node kinds flows
  have others := r.perm_waits.append (r.perm_deadlocks validE validF simpleE simpleF)
  have whole : (E.findings.map (·.key r.node)).Perm (F.findings.map (·.key id)) ↔
      (E.abundanceFindings.map (·.key r.node)).Perm (F.abundanceFindings.map (·.key id)) := by
    simp only [EdgeGraph.findings, List.map_append]
    exact ⟨fun all => (List.perm_append_left_iff _).1 ((others.append_right _).symm.trans all),
      others.append⟩
  refine ⟨E.findings, F.findings, final, final', endsG, endsH, ?_, ?_, fun settled => ?_⟩
  · rw [EdgeGraph.filter_findings_plain, EdgeGraph.filter_findings_plain, List.map_append,
      List.map_append]
    exact others
  · exact whole.trans (r.perm_abundances_iff validE validF simpleE simpleF)
  · exact whole.2 (r.perm_abundances validE validF simpleE simpleF settled)

/-- The branches over 3 and 4 of the fork 2 meet at 6, two ways from 5 meet the last branch at 7,
and what leaves 6 and 7 meets at 8. -/
def converging : Graph where
  name := "converging"
  nodes := [.start, .activity, .fork, .activity, .activity, .activity, .activity, .activity,
    .activity, .finish].map (⟨·, []⟩)
  flows := [⟨0, 1⟩, ⟨1, 2⟩, ⟨2, 3⟩, ⟨2, 4⟩, ⟨2, 5⟩, ⟨2, 7⟩, ⟨3, 6⟩, ⟨3, 6⟩, ⟨4, 6⟩, ⟨5, 7⟩, ⟨5, 7⟩,
    ⟨6, 8⟩, ⟨7, 8⟩, ⟨8, 9⟩]
  flows_inside := by decide

/-- The same graph with the first two branches in the other order. -/
def convergingSwapped : Graph where
  name := "converging"
  nodes := converging.nodes
  flows := [⟨0, 1⟩, ⟨1, 2⟩, ⟨2, 4⟩, ⟨2, 3⟩, ⟨2, 5⟩, ⟨2, 7⟩, ⟨3, 6⟩, ⟨3, 6⟩, ⟨4, 6⟩, ⟨5, 7⟩, ⟨5, 7⟩,
    ⟨6, 8⟩, ⟨7, 8⟩, ⟨8, 9⟩]
  flows_inside := by decide

def convergingEdges : EdgeGraph :=
  .closing converging ⟨0, by decide⟩ ⟨13, by decide⟩

def convergingSwappedEdges : EdgeGraph :=
  .closing convergingSwapped ⟨0, by decide⟩ ⟨13, by decide⟩

def convergingNode (v : Nat) (inside : v < 10 := by decide) : Fin convergingEdges.order :=
  ⟨v, inside⟩

/-- No node has another number. -/
def convergingSame : Fin convergingEdges.order ≃ Fin convergingSwappedEdges.order :=
  Equiv.refl (Fin 10)

/-- Under the first numbers the edge from 6 to 8 is found from a branch that it post-dominates
immediately, and it is not followed; under the others it is found from another one and followed. So
the abundance at 8 is missed under the first. -/
theorem verdict_depends_on_numbers : ∃ (found : List (Finding convergingEdges))
    (found' : List (Finding convergingSwappedEdges)) (final final' : Workflow),
      verify.Ends (.draft converging) (.ok (found.map Finding.plain)) final ∧
      verify.Ends (.draft convergingSwapped) (.ok (found'.map Finding.plain)) final' ∧
      ¬ (found.map (·.key convergingSame)).Perm (found'.map (·.key id)) := by
  obtain ⟨found, found', final, final', ends, ends', -, exact, -⟩ :=
    verdicts_agree_iff (g := converging) (h := convergingSwapped) (E := convergingEdges)
      (F := convergingSwappedEdges) (by decide +kernel) (by decide +kernel) (by decide +kernel)
      (by decide +kernel) rfl rfl convergingSame (by decide +kernel) (by decide +kernel)
  refine ⟨found, found', final, final', ends, ends', fun same => ?_⟩
  have arrives : convergingEdges.Arrives (convergingNode 2) convergingEdges.last := by
    unfold EdgeGraph.Arrives
    decide +kernel
  have agree := exact.1 same (convergingNode 2) (convergingNode 8) (by decide +kernel)
    ⟨convergingEdges.last, by decide +kernel, arrives⟩
  revert agree
  unfold EdgeGraph.Discovers Defined
  decide +kernel

end WorkflowSoundness
