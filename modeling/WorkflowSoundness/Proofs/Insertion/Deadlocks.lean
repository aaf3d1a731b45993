import WorkflowSoundness.Proofs.Deadlock.Exact
import WorkflowSoundness.Proofs.Insertion.Basic
import WorkflowSoundness.Proofs.Preparation

/-!
An activity changes no deadlock verdict. Putting one on a flow of an accepted separated graph gives
such a graph again, and its closed form is that of the first with an activity on one edge
(`exists_insertion`). The start edge and the edges that leave joins then lead to the same joins, so
both analyses report the same joins (`deadlocks_insertBetween`).
-/

namespace WorkflowSoundness

/-- Two lists with the same images can be matched entry by entry. -/
theorem exists_matching {α β γ : Type} [DecidableEq α] [DecidableEq β] {f : α → γ} {g : β → γ}
    {as : List α} {bs : List β} (onceA : as.Nodup) (onceB : bs.Nodup)
    (same : as.map f = bs.map g) : ∃ (there : α → Option β) (back : β → Option α),
      (∀ a ∈ as, ∃ b ∈ bs, there a = some b ∧ back b = some a ∧ f a = g b) ∧
      (∀ a, a ∉ as → there a = none) ∧ (∀ b ∈ bs, ∃ a, back b = some a ∧ there a = some b) ∧
      ∀ b, b ∉ bs → back b = none := by
  have length : as.length = bs.length := by
    have lengths := congrArg List.length same
    rwa [List.length_map, List.length_map] at lengths
  have image : ∀ i (short : i < as.length) (short' : i < bs.length), f as[i] = g bs[i] := by
    intro i short short'
    have entry := List.getElem_of_eq same (i := i) (by rwa [List.length_map])
    rwa [List.getElem_map, List.getElem_map] at entry
  have thereEq : ∀ i (short : i < as.length) (short' : i < bs.length),
      bs[as.idxOf as[i]]? = some bs[i] := fun i short short' => by
    rw [onceA.idxOf_getElem i short, List.getElem?_eq_getElem short']
  have backEq : ∀ i (short : i < as.length) (short' : i < bs.length),
      as[bs.idxOf bs[i]]? = some as[i] := fun i short short' => by
    rw [onceB.idxOf_getElem i short', List.getElem?_eq_getElem short]
  refine ⟨fun a => bs[as.idxOf a]?, fun b => as[bs.idxOf b]?, fun a member => ?_,
    fun a absent => ?_, fun b member => ?_, fun b absent => ?_⟩
  · obtain ⟨i, short, rfl⟩ := List.getElem_of_mem member
    have short' : i < bs.length := length ▸ short
    exact ⟨bs[i], List.getElem_mem short', thereEq i short short', backEq i short short',
      image i short short'⟩
  · have missing : bs[as.idxOf a]? = none := by
      rw [List.idxOf_eq_length absent, List.getElem?_eq_none (Nat.le_of_eq length.symm)]
    exact missing
  · obtain ⟨i, short', rfl⟩ := List.getElem_of_mem member
    have short : i < as.length := length.symm ▸ short'
    exact ⟨as[i], backEq i short short', thereEq i short short'⟩
  · have missing : as[bs.idxOf b]? = none := by
      rw [List.idxOf_eq_length absent, List.getElem?_eq_none (Nat.le_of_eq length)]
    exact missing

namespace Graph

variable {g : Graph} {flow : Flow} (present : flow ∈ g.flows)

theorem Separated.insertOn (separated : g.Separated) :
    (g.insertOn flow present .activity).Separated := by
  have sub : Subdivided g (g.insertOn flow present .activity) := Subdivided.same.insert present
  have fresh := kind?_insertOn present .activity
  refine ⟨fun other member kind isKind merging => ?_, fun other member kind isKind splitting => ?_⟩
  · have notActivity : kind ≠ .activity := by
      rintro rfl
      cases merging
    rcases List.mem_append.1 member with old | new
    · have old := List.mem_of_mem_erase old
      rw [sub.kind?_eq (g.flows_inside _ old).1]
      exact separated.before _ old _ ((sub.kind?_iff notActivity).1 isKind) merging
    · rcases List.mem_cons.1 new with rfl | new
      · exact absurd (Option.some.inj (isKind.symm.trans fresh)) notActivity
      · obtain rfl := List.mem_singleton.1 new
        exact fresh
  · have notActivity : kind ≠ .activity := by
      rintro rfl
      cases splitting
    rcases List.mem_append.1 member with old | new
    · have old := List.mem_of_mem_erase old
      rw [sub.kind?_eq (g.flows_inside _ old).2]
      exact separated.after _ old _ ((sub.kind?_iff notActivity).1 isKind) splitting
    · rcases List.mem_cons.1 new with rfl | new
      · exact fresh
      · obtain rfl := List.mem_singleton.1 new
        exact absurd (Option.some.inj (isKind.symm.trans fresh)) notActivity

theorem insertBetween_eq {u v : Nat} (present : ⟨u, v⟩ ∈ g.flows) (kind : NodeKind) :
    g.insertBetween u v kind = .ok (g.insertOn ⟨u, v⟩ present kind) := by
  obtain ⟨source, target⟩ := g.flows_inside _ present
  have checked : ∀ {node}, node < g.nodes.length → g.checkNode node = .ok () :=
    fun inside => if_pos inside
  rw [insertBetween, checked source, checked target]
  exact dif_pos present

end Graph

namespace EdgeGraph

variable {E F : EdgeGraph}

/-- The flow that an edge is. -/
def flowOf (E : EdgeGraph) (e : Fin E.size) : Flow :=
  ⟨(E.source e).val, (E.target e).val⟩

section Insertion

variable {g : Graph} {flow : Flow} (present : flow ∈ g.flows) (numberedE : Numbered g E)
  (numberedF : Numbered (g.insertOn flow present .activity) F)

include numberedE numberedF

/-- One edge becomes two, and the others can be matched. -/
theorem exists_parts : ∃ (spot : Fin E.size) (into out : Fin F.size)
    (there : Fin E.size → Option (Fin F.size)) (back : Fin F.size → Option (Fin E.size)),
    E.flowOf spot = flow ∧ F.flowOf into = ⟨flow.source, g.order⟩ ∧
    F.flowOf out = ⟨g.order, flow.target⟩ ∧
    there spot = none ∧ back into = none ∧ back out = none ∧
    (∀ e, e = spot ∨ ∃ f, there e = some f ∧ back f = some e ∧ E.flowOf e = F.flowOf f) ∧
    ∀ f, f = into ∨ f = out ∨ ∃ e, back f = some e ∧ there e = some f := by
  obtain ⟨k, allE, flowsE⟩ :=
    exists_perm_map (numberedE.flows.trans (List.perm_cons_erase present))
  obtain ⟨l, allF, flowsF⟩ := exists_perm_map (numberedF.flows.trans List.perm_append_comm)
  obtain ⟨spot, rest, rfl, isSpot, restE⟩ := List.map_eq_cons_iff.1 flowsE
  obtain ⟨into, l, rfl, isInto, flowsF⟩ := List.map_eq_cons_iff.1 flowsF
  obtain ⟨out, rest', rfl, isOut, restF⟩ := List.map_eq_cons_iff.1 flowsF
  obtain ⟨noSpot, onceE⟩ := List.nodup_cons.1 (allE.nodup_iff.2 (List.nodup_finRange _))
  obtain ⟨noInto, onceF⟩ := List.nodup_cons.1 (allF.nodup_iff.2 (List.nodup_finRange _))
  obtain ⟨noOut, onceF⟩ := List.nodup_cons.1 onceF
  have listedE : ∀ e, e = spot ∨ e ∈ rest := fun e => by
    simpa using allE.mem_iff.2 (List.mem_finRange e)
  have listedF : ∀ f, f = into ∨ f = out ∨ f ∈ rest' := fun f => by
    simpa using allF.mem_iff.2 (List.mem_finRange f)
  obtain ⟨there, back, paired, there_none, paired', back_none⟩ :=
    exists_matching onceE onceF (restE.trans restF.symm)
  refine ⟨spot, into, out, there, back, isSpot, isInto, isOut, there_none spot noSpot,
    back_none into fun member => noInto (List.mem_cons_of_mem _ member), back_none out noOut,
    fun e => (listedE e).imp_right fun member => ?_,
    fun f => (listedF f).imp_right fun later => later.imp_right (paired' f)⟩
  obtain ⟨f, -, found⟩ := paired e member
  exact ⟨f, found⟩

/-- The closed form of the larger graph is that of the smaller with an activity on one edge. -/
theorem exists_insertion (validF : F.Valid) : Nonempty (Insertion E F) := by
  have sub : Graph.Subdivided g (g.insertOn flow present .activity) :=
    Graph.Subdivided.same.insert present
  obtain ⟨spot, into, out, there, back, isSpot, isInto, isOut, atSpot, atInto, atOut, onE, onF⟩ :=
    exists_parts present numberedE numberedF
  have sources : ∀ e, (F.source ((there e).getD into)).val = (E.source e).val := by
    intro e
    rcases onE e with rfl | ⟨f, forth, -, same⟩
    · rw [atSpot, Option.getD_none]
      exact (congrArg Flow.source isInto).trans (congrArg Flow.source isSpot).symm
    · rw [forth, Option.getD_some]
      exact (congrArg Flow.source same).symm
  refine ⟨
    { order := ?_
      kind := fun v w same => ?_
      activity := fun w isNew => ?_
      spot
      head := fun e => (there e).getD into
      tail := fun e => (there e).getD out
      origin := fun f => (back f).getD spot
      origin_head := fun e => ?_
      origin_tail := fun e => ?_
      part := fun f => ?_
      whole := fun e other => ?_
      source := sources
      target := fun e => ?_
      into := ?_
      out := ?_
      first := ?_ }⟩
  · rw [numberedF.order_eq, Graph.order_insertOn, numberedE.order_eq]
  · have known := numberedF.kind w
    rw [same, sub.kind?_eq (numberedE.lt_order v), numberedE.kind v] at known
    exact (Option.some.inj known).symm
  · have known := numberedF.kind w
    rw [isNew, numberedE.order_eq, Graph.kind?_insertOn] at known
    exact (Option.some.inj known).symm
  · rcases onE e with rfl | ⟨f, forth, back, -⟩
    · rw [atSpot, Option.getD_none, atInto, Option.getD_none]
    · rw [forth, Option.getD_some, back, Option.getD_some]
  · rcases onE e with rfl | ⟨f, forth, back, -⟩
    · rw [atSpot, Option.getD_none, atOut, Option.getD_none]
    · rw [forth, Option.getD_some, back, Option.getD_some]
  · rcases onF f with rfl | rfl | ⟨e, back, forth⟩
    · exact Or.inl (by rw [atInto, Option.getD_none, atSpot, Option.getD_none])
    · exact Or.inr (by rw [atOut, Option.getD_none, atSpot, Option.getD_none])
    · exact Or.inl (by rw [back, Option.getD_some, forth, Option.getD_some])
  · obtain ⟨f, forth, -⟩ := (onE e).resolve_left other
    rw [forth, Option.getD_some, Option.getD_some]
  · rcases onE e with rfl | ⟨f, forth, -, same⟩
    · rw [atSpot, Option.getD_none]
      exact (congrArg Flow.target isOut).trans (congrArg Flow.target isSpot).symm
    · rw [forth, Option.getD_some]
      exact (congrArg Flow.target same).symm
  · rw [atSpot, Option.getD_none]
    exact (congrArg Flow.target isInto).trans numberedE.order_eq.symm
  · rw [atSpot, Option.getD_none]
    exact (congrArg Flow.source isOut).trans numberedE.order_eq.symm
  · refine (validF.first_only _ (Fin.ext ((sources _).trans ?_))).symm
    have starts := numberedF.start
    rw [Graph.start?, sub.nodesOf_eq (by decide), ← Graph.start?, numberedE.start] at starts
    exact Option.some.inj starts

end Insertion

/-! ### The verdict -/

/-- The joins that the analysis reports, by their numbers. -/
theorem mem_deadlockFindings_iff {kind : AnnotationKind} {n : Nat} :
    (kind, n) ∈ E.deadlockFindings.map (fun finding => (finding.kind, finding.printable.val)) ↔
      ∃ v : Fin E.order, v.val = n ∧ E.kindOf v = .join ∧
        (kind = .deadlock ∧ (∃ i, E.target i = v ∧ E.Starts i E.first) ∨
          kind = .deadlockCycle ∧ ∃ i, E.target i = v ∧ E.Starts i (E.exitOf v)) := by
  have numbers : E.deadlockFindings.map (fun finding => (finding.kind, finding.printable.val)) =
      (E.deadlockFindings.map fun finding => (finding.kind, finding.printable)).map
        fun pair => (pair.1, pair.2.val) := by
    rw [List.map_map]
    rfl
  have cycle : E.recurring.map Finding.printable = E.recurringJoins := by
    rw [printable_recurring]
    rfl
  rw [numbers, map_deadlockFindings, cycle]
  simp only [List.map_append, List.map_map, List.mem_append, List.mem_map, Function.comp_apply,
    Prod.mk.injEq, mem_recurringJoins]
  constructor
  · rintro (⟨v, started, rfl, rfl⟩ | ⟨v, ⟨isJoin, around⟩, rfl, rfl⟩)
    · exact ⟨v, rfl, kind_of_startedJoins started, Or.inl ⟨rfl, mem_startedJoins.1 started⟩⟩
    · exact ⟨v, rfl, isJoin, Or.inr ⟨rfl, around⟩⟩
  · rintro ⟨v, rfl, isJoin, ⟨rfl, started⟩ | ⟨rfl, around⟩⟩
    · exact Or.inl ⟨v, mem_startedJoins.2 started, rfl, rfl⟩
    · exact Or.inr ⟨v, ⟨isJoin, around⟩, rfl, rfl⟩

namespace Insertion

variable (ins : Insertion E F) (validE : E.Valid) (validF : F.Valid) (simpleE : E.Simple)
  (simpleF : F.Simple)

include ins validE validF simpleE simpleF

theorem mem_deadlockFindings {kind : AnnotationKind} {n : Nat} :
    (kind, n) ∈ F.deadlockFindings.map (fun finding => (finding.kind, finding.printable.val)) ↔
      (kind, n) ∈ E.deadlockFindings.map fun finding => (finding.kind, finding.printable.val) := by
  have fromStart : ∀ {v}, E.kindOf v = .join →
      ((∃ j, F.target j = ins.node v ∧ F.Starts j F.first) ↔
        ∃ i, E.target i = v ∧ E.Starts i E.first) := by
    intro v isJoin
    rw [ins.first]
    refine ins.exists_starts_iff validE validF simpleE simpleF isJoin fun enters => ?_
    have before := simpleE.before E.first (by rw [enters, isJoin]; rfl)
    rw [(validE.start_iff _).2 rfl] at before
    cases before
  have around : ∀ {v}, E.kindOf v = .join →
      ((∃ j, F.target j = ins.node v ∧ F.Starts j (F.exitOf (ins.node v))) ↔
        ∃ i, E.target i = v ∧ E.Starts i (E.exitOf v)) := by
    intro v isJoin
    have merging : (E.kindOf v).isMerging = true := by
      rw [isJoin]
      rfl
    rw [ins.exitOf validE validF merging]
    refine ins.exists_starts_iff validE validF simpleE simpleF isJoin fun enters => ?_
    refine simpleE.source_ne_join (i := E.exitOf v) (enters.symm ▸ isJoin) ?_
    rw [validE.source_exitOf merging, isJoin]
  rw [mem_deadlockFindings_iff, mem_deadlockFindings_iff]
  constructor
  · rintro ⟨w, rfl, isJoin, found⟩
    obtain ⟨v, rfl⟩ := ins.exists_node (w := w) (by rw [isJoin]; decide)
    rw [ins.kind_node] at isJoin
    rw [fromStart isJoin, around isJoin] at found
    exact ⟨v, rfl, isJoin, found⟩
  · rintro ⟨v, rfl, isJoin, found⟩
    refine ⟨ins.node v, rfl, (ins.kind_node v).trans isJoin, ?_⟩
    rwa [fromStart isJoin, around isJoin]

end Insertion
end EdgeGraph

namespace Deadlock

/-- Putting an activity on any flow of an accepted graph in which activities separate the gateways
succeeds, both graphs can be closed and analysed, and the deadlock analysis reports the same joins
for both, from the start as well as on cycles. -/
theorem deadlocks_insertBetween {g : Graph} (accepted : g.validate = .ok ())
    (separated : g.Separated) {u v : Nat} (present : ⟨u, v⟩ ∈ g.flows) (name : String) :
    ∃ h E F execution execution' findings findings',
      g.insertBetween u v .activity = .ok h ∧
      EdgeGraph.ofGraph g = .ok E ∧ EdgeGraph.ofGraph h = .ok F ∧
      Execution.compute E = .ok execution ∧ Execution.compute F = .ok execution' ∧
      (Analysis.deadlocks name (Dominance.compute E .forward).value execution.value).outcome =
        .ok findings ∧
      (Analysis.deadlocks name (Dominance.compute F .forward).value execution'.value).outcome =
        .ok findings' ∧
      ∀ kind join, (kind, join) ∈ findings'.map (fun finding =>
          (finding.kind, finding.printable.val)) ↔
        (kind, join) ∈ findings.map fun finding => (finding.kind, finding.printable.val) := by
  obtain ⟨start, finish, rules⟩ := Graph.validate_eq_ok_iff.1 accepted
  have rules' := rules.insertOn present
  obtain ⟨E, closed⟩ := EdgeGraph.exists_ofGraph_of_obeys rules
  obtain ⟨F, closed'⟩ := EdgeGraph.exists_ofGraph_of_obeys rules'
  have numbered := EdgeGraph.numbered_of_ofGraph closed
  have numbered' := EdgeGraph.numbered_of_ofGraph closed'
  have valid := numbered.valid rules
  have valid' := numbered'.valid rules'
  obtain ⟨ins⟩ := EdgeGraph.exists_insertion present numbered numbered' valid'
  refine ⟨_, E, F, _, _, _, _, Graph.insertBetween_eq present .activity, closed, closed',
    valid.execution_eq, valid'.execution_eq, valid.outcome_deadlocks name,
    valid'.outcome_deadlocks name, fun kind join => ?_⟩
  exact ins.mem_deadlockFindings valid valid' (numbered.simple separated)
    (numbered'.simple (separated.insertOn present))

/-- The join 2 waits for the edge that enters the graph and for the branch over 5, which only its
own firing can lead to. -/
def awaiting : Graph where
  name := "awaiting"
  nodes := [.start, .activity, .join, .activity, .split, .activity, .activity,
    .finish].map (⟨·, []⟩)
  flows := [⟨0, 1⟩, ⟨1, 2⟩, ⟨2, 3⟩, ⟨3, 4⟩, ⟨4, 5⟩, ⟨4, 6⟩, ⟨5, 2⟩, ⟨6, 7⟩]
  flows_inside := by decide

def awaitingEdges : EdgeGraph :=
  .closing awaiting ⟨0, by decide⟩ ⟨7, by decide⟩

/-- With another activity in front of the join 2 it is still reported. -/
theorem deadlocks_awaiting : ∃ h F execution findings,
    awaiting.insertBetween 5 2 .activity = .ok h ∧ EdgeGraph.ofGraph h = .ok F ∧
      Execution.compute F = .ok execution ∧
      (Analysis.deadlocks "awaiting" (Dominance.compute F .forward).value execution.value).outcome =
        .ok findings ∧
      (AnnotationKind.deadlock, 2) ∈
        findings.map fun finding => (finding.kind, finding.printable.val) := by
  have accepted : awaiting.validate = .ok () := by decide +kernel
  have separated : awaiting.Separated := ⟨by decide +kernel, by decide +kernel⟩
  have closed : EdgeGraph.ofGraph awaiting = .ok awaitingEdges := rfl
  have valid := EdgeGraph.valid_of_validate accepted closed
  obtain ⟨h, E, F, execution, execution', findings, findings', inserted, closedE, closedF,
    computedE, computedF, answeredE, answeredF, same⟩ :=
    deadlocks_insertBetween accepted separated (u := 5) (v := 2) (by decide) "awaiting"
  obtain rfl := Except.ok.inj (closed.symm.trans closedE)
  obtain rfl := Except.ok.inj (computedE.symm.trans valid.execution_eq)
  obtain rfl := Except.ok.inj (answeredE.symm.trans (valid.outcome_deadlocks _))
  refine ⟨h, F, execution', findings', inserted, closedF, computedF, answeredF, ?_⟩
  refine (same _ _).2 (EdgeGraph.mem_deadlockFindings_iff.2
    ⟨⟨2, by decide⟩, rfl, by decide +kernel, Or.inl ⟨rfl, ⟨1, by decide⟩, by decide +kernel, ?_⟩⟩)
  refine .leads ?_ (.enters ?_) ?_ ?_ <;> decide +kernel

end Deadlock
end WorkflowSoundness
