import WorkflowSoundness.Proofs.Abundance.Definitions
import WorkflowSoundness.Proofs.Abundance.Dependent
import WorkflowSoundness.Proofs.Dominance.Laws
import WorkflowSoundness.Proofs.Flow.Crossing
import WorkflowSoundness.Proofs.Verify

/-!
When a meeting of two branches is reported. Two walks from a fork that share no edge make a meeting
of every defined edge that leaves their end (`exists_meeting`). The edge is defined unless one of
the walks has an edge that was found but never followed (`defined_of_walks`): the last followed
edges of the two walks would both dominate it. So the meeting is reported if and only if the edge
is among the definitions (`abundance_reported_iff_defined`).
-/

namespace WorkflowSoundness

namespace EdgeGraph

/-- The edges of a trail form a walk. -/
theorem exists_walk {E : EdgeGraph} {P : Fin E.size → Prop} {a b : Fin E.size}
    (trail : Trail E.successors P a b) :
    ∃ W, E.IsWalk (E.source a) W (E.target b) ∧ ∀ x ∈ W, P x := by
  induction trail with
  | @stay a ok => exact ⟨[a], ⟨rfl, rfl⟩, fun x member => List.mem_singleton.1 member ▸ ok⟩
  | @step a b c ok next _ ih =>
    obtain ⟨W, walk, along⟩ := ih
    exact ⟨a :: W, ⟨rfl, E.mem_successors.1 next ▸ walk⟩, List.forall_mem_cons.2 ⟨ok, along⟩⟩

end EdgeGraph

namespace Abundance

open EdgeGraph

variable {E : EdgeGraph} {fork : Fin E.order}

/-! ### Definitions on a walk -/

section Walks

variable (valid : E.Valid)

include valid

/-- Where a followed edge dominates one edge and the next has not been found, it dominates that as
well. -/
theorem dominates_next {d c x : Fin E.size} (followed : Followed (E.definitionsOf fork) d)
    (dominates : E.Dominates .forward d c) (next : x ∈ E.successors c)
    (unmet : ¬ Met (E.definitionsOf fork) x) : E.Dominates .forward d x := by
  refine Classical.byContradiction fun free => unmet (met_of_frontier followed ?_)
  refine valid.mem_frontier_iff.2 ⟨⟨c, ?_, dominates⟩, fun both => free both.2⟩
  exact E.mem_successors_iff_mem_predecessors.1 next

/-- The last followed edge of a walk dominates an undefined edge behind the walk. -/
theorem last_followed {l : List (Fin E.size)} {c d z : Fin E.size} {P : Fin E.size → Prop}
    (followed : Followed (E.definitionsOf fork) d) (dominates : E.Dominates .forward d c)
    (walk : E.IsWalk (E.target c) l (E.source z))
    (kept : ∀ x ∈ l, ¬ Dropped (E.definitionsOf fork) x)
    (undefined : ¬ Defined (E.definitionsOf fork) z) (trail : Trail E.successors P d c)
    (along : ∀ x ∈ l, P x) (last : P z) :
    ∃ d', (d' = d ∨ d' ∈ l) ∧ E.Dominates .forward d' z ∧ Trail E.successors P d' z := by
  induction l generalizing c d with
  | nil =>
    have next : z ∈ E.successors c := E.mem_successors.2 walk.symm
    have unmet : ¬ Met (E.definitionsOf fork) z := fun met => undefined (defined_iff.2 (Or.inr met))
    exact ⟨d, Or.inl rfl, dominates_next valid followed dominates next unmet,
      trail.snoc next last⟩
  | cons x l ih =>
    obtain ⟨leaves, rest⟩ := walk
    have next : x ∈ E.successors c := E.mem_successors.2 leaves
    have here : P x := along x List.mem_cons_self
    have later : ∀ y ∈ l, P y := fun y member => along y (List.mem_cons_of_mem x member)
    have keptLater : ∀ y ∈ l, ¬ Dropped (E.definitionsOf fork) y := fun y member =>
      kept y (List.mem_cons_of_mem x member)
    by_cases new : Followed (E.definitionsOf fork) x
    · obtain ⟨d', member, found⟩ := ih new (.refl x) rest keptLater (.stay here) later
      exact ⟨d', Or.inr (List.mem_cons.2 member), found⟩
    · have unmet : ¬ Met (E.definitionsOf fork) x := fun met =>
        kept x List.mem_cons_self ⟨met, new⟩
      obtain ⟨d', member, found⟩ := ih followed
        (dominates_next valid followed dominates next unmet) rest keptLater
        (trail.snoc next here) later
      exact ⟨d', member.imp_right (List.mem_cons_of_mem x), found⟩

theorem exists_dominator {W : List (Fin E.size)} {z : Fin E.size} (other : fork ≠ E.source z)
    (walk : E.IsWalk fork W (E.source z)) (kept : ∀ x ∈ W, ¬ Dropped (E.definitionsOf fork) x)
    (undefined : ¬ Defined (E.definitionsOf fork) z) :
    ∃ d ∈ W, E.Dominates .forward d z ∧ Trail E.successors (fun x => x ∈ W ∨ x = z) d z := by
  cases W with
  | nil => exact absurd walk other
  | cons b l =>
    obtain ⟨leaves, rest⟩ := walk
    have inside : ∀ x ∈ l, x ∈ b :: l ∨ x = z := fun x member =>
      Or.inl (List.mem_cons_of_mem b member)
    obtain ⟨d, member, found⟩ := last_followed valid (followed_branch leaves) (.refl b) rest
      (fun x member => kept x (List.mem_cons_of_mem b member)) undefined
      (.stay (Or.inl List.mem_cons_self)) inside (Or.inr rfl)
    exact ⟨d, List.mem_cons.2 member, found⟩

/-- Where two walks from a fork meet that share no edge and of which no edge was dropped, the edges
that go on are defined. -/
theorem defined_of_walks {W₁ W₂ : List (Fin E.size)} {z : Fin E.size} (other : fork ≠ E.source z)
    (walk₁ : E.IsWalk fork W₁ (E.source z)) (walk₂ : E.IsWalk fork W₂ (E.source z))
    (apart : ∀ x ∈ W₁, x ∉ W₂) (before : ∀ x, x ∈ W₁ ∨ x ∈ W₂ → x ≠ z)
    (kept : ∀ x, x ∈ W₁ ∨ x ∈ W₂ → ¬ Dropped (E.definitionsOf fork) x) :
    Defined (E.definitionsOf fork) z := by
  refine Classical.byContradiction fun undefined => ?_
  obtain ⟨d₁, member₁, dominates₁, trail₁⟩ := exists_dominator valid other walk₁
    (fun x member => kept x (Or.inl member)) undefined
  obtain ⟨d₂, member₂, dominates₂, trail₂⟩ := exists_dominator valid other walk₂
    (fun x member => kept x (Or.inr member)) undefined
  have upper : E.Dominates .forward d₂ d₁ := dominates₂.of_trail trail₁ fun x on same => by
    subst same
    exact on.elim (fun shared => apart x shared member₂) (before x (Or.inr member₂))
  have lower : E.Dominates .forward d₁ d₂ := dominates₁.of_trail trail₂ fun x on same => by
    subst same
    exact on.elim (apart x member₁) (before x (Or.inl member₁))
  have same : d₁ = d₂ := lower.antisymm (valid.reached .forward d₁) upper
  exact apart d₁ member₁ (same ▸ member₂)

/-- The edges that leave one node are found together. -/
theorem met_of_same_source {z z' : Fin E.size} (same : E.source z' = E.source z)
    (met : Met (E.definitionsOf fork) z') : Met (E.definitionsOf fork) z := by
  obtain ⟨d, followed, inside⟩ := frontier_of_met met
  refine met_of_frontier followed (valid.mem_frontier_iff.2 ?_)
  obtain ⟨⟨p, step, dominates⟩, ends⟩ := valid.mem_frontier_iff.1 inside
  have before : ∀ q, q ∈ E.predecessors z' ↔ q ∈ E.predecessors z := fun q => by
    rw [E.mem_predecessors, E.mem_predecessors, same]
  refine ⟨⟨p, (before p).1 step, dominates⟩, fun ⟨strict, all⟩ => ?_⟩
  have notRoot : z' ≠ E.root .forward := fun root =>
    valid.not_before_root .forward p (root ▸ step)
  have dominated : ∀ q ∈ E.predecessors z', E.Dominates .forward d q := fun q member =>
    all.before strict ((before q).1 member)
  by_cases here : d = z'
  · subst here
    obtain ⟨q, member, free⟩ := Dominates.exists_before (valid.reached .forward d) notRoot
    exact free (dominated q member)
  · exact ends ⟨here, .of_before notRoot dominated⟩

end Walks

/-! ### Flow along two walks -/

open ForkNetwork

/-- Two walks that share no edge carry two units. -/
theorem two_le_maximize (entry : Fin E.size) {z : Fin E.size} {room : E.Edges}
    {W₁ W₂ : List (Fin E.size)} (other : fork ≠ E.source z) (walk₁ : E.IsWalk fork W₁ (E.source z))
    (walk₂ : E.IsWalk fork W₂ (E.source z)) (apart : ∀ x ∈ W₁, x ∉ W₂)
    (usable : ∀ x, x ∈ W₁ ∨ x ∈ W₂ → x ∈ room ∧ x ≠ z ∧ x ≠ entry) :
    2 ≤ (Abundance.maximize fork entry room z).value.1 := by
  have each : ∀ W ∈ [W₁, W₂], E.IsWalk fork W (E.source z) ∧ (entry ∈ W → E.target entry = fork) ∧
      ∀ e ∈ W, e = entry ∨ e ∈ room ∧ e ≠ z := by
    intro W member
    have onWalk : E.IsWalk fork W (E.source z) ∧ ∀ e ∈ W, e ∈ W₁ ∨ e ∈ W₂ := by
      rcases List.mem_cons.1 member with rfl | member
      · exact ⟨walk₁, fun e => Or.inl⟩
      · obtain rfl := List.mem_singleton.1 member
        exact ⟨walk₂, fun e => Or.inr⟩
    obtain ⟨walk, within⟩ := onWalk
    refine ⟨walk, fun back => absurd rfl (usable entry (within entry back)).2.2, fun e inside => ?_⟩
    obtain ⟨allows, notSink, -⟩ := usable e (within e inside)
    exact Or.inr ⟨allows, notSink⟩
  exact length_le_maximize (Ne.symm other) each (List.pairwise_pair.2 fun x left right =>
    apart x left right)

/-! ### Reports -/

theorem exists_mem_distinctEdges {l : List (Definition E)} {definition : Definition E}
    (member : definition ∈ l) : ∃ found ∈ distinctEdges l, found.edge = definition.edge := by
  induction l with
  | nil => exact absurd member List.not_mem_nil
  | cons first l ih =>
    by_cases same : first.edge = definition.edge
    · exact ⟨first, List.mem_cons_self, same⟩
    · obtain ⟨found, inside, edge⟩ := ih ((List.mem_cons.1 member).resolve_left fun here =>
        same (congrArg Definition.edge here.symm))
      refine ⟨found, List.mem_cons_of_mem _ (List.mem_filter.2 ⟨inside, ?_⟩), edge⟩
      exact bne_iff_ne.2 fun equal => same (equal.symm.trans edge)

theorem mem_of_mem_distinctEdges {l : List (Definition E)} {definition : Definition E}
    (member : definition ∈ distinctEdges l) : definition ∈ l := by
  induction l with
  | nil => exact member
  | cons first l ih =>
    rcases List.mem_cons.1 member with rfl | later
    · exact List.mem_cons_self
    · exact List.mem_cons_of_mem _ (ih (List.mem_filter.1 later).1)

theorem meeting?_eq {basis : Basis E} {entry : Fin E.size} {usable : E.Edges}
    {definition : Definition E} {meeting : Meeting E}
    (found : (meeting? basis fork entry usable definition).value = some meeting) :
    meeting.definition = definition := by
  simp only [meeting?, Counted.value_bind] at found
  split at found
  · cases found
  · exact congrArg Meeting.definition (Option.some.inj found).symm

theorem exists_meeting? (basis : Basis E) {entry : Fin E.size} (usable : E.Edges)
    (definition : Definition E)
    (several : 2 ≤ (Abundance.maximize fork entry usable definition.edge).value.1) :
    ∃ meeting, (meeting? basis fork entry usable definition).value = some meeting := by
  simp only [meeting?, Counted.value_bind]
  rw [if_neg (Nat.not_lt.2 several)]
  exact ⟨_, rfl⟩

/-- A meeting of fewer than two paths is none. -/
theorem several_of_meeting? {basis : Basis E} {entry : Fin E.size} {usable : E.Edges}
    {definition : Definition E} {meeting : Meeting E}
    (found : (meeting? basis fork entry usable definition).value = some meeting) :
    2 ≤ (Abundance.maximize fork entry usable definition.edge).value.1 := by
  simp only [meeting?, Counted.value_bind] at found
  split at found
  · cases found
  · rename_i many
    exact Nat.le_of_not_lt many

theorem mem_meetingsOf {meeting : Meeting E} : meeting ∈ E.meetingsOf fork ↔
    ∃ definition ∈ distinctEdges ((E.definitionsOf fork).filter (isCandidate (E.bondOf fork))),
      (meeting? E.basisOf fork (E.entryOf fork)
        (allowed E.basisOf (E.bondOf fork) definition.edge) definition).value = some meeting :=
  List.mem_filterMap

/-- The edge that a meeting stands for is a definition in the bond whose source does not wait. -/
theorem candidate_of_meeting {meeting : Meeting E} (member : meeting ∈ E.meetingsOf fork) :
    Defined (E.definitionsOf fork) meeting.definition.edge ∧
      meeting.definition.edge ∈ E.bondOf fork ∧
      (E.kindOf (E.source meeting.definition.edge)).isSynchronizing = false := by
  obtain ⟨definition, candidate, found⟩ := mem_meetingsOf.1 member
  rw [meeting?_eq found]
  obtain ⟨inside, isOne⟩ := List.mem_filter.1 (mem_of_mem_distinctEdges candidate)
  unfold isCandidate at isOne
  rw [Bool.and_eq_true, BitSet.contains_iff_mem, Bool.not_eq_true'] at isOne
  exact ⟨⟨definition, inside, rfl⟩, isOne⟩

theorem several_of_meeting {meeting : Meeting E} (member : meeting ∈ E.meetingsOf fork) :
    2 ≤ (Abundance.maximize fork (E.entryOf fork)
      (allowed E.basisOf (E.bondOf fork) meeting.definition.edge)
      meeting.definition.edge).value.1 := by
  obtain ⟨definition, -, found⟩ := mem_meetingsOf.1 member
  exact meeting?_eq found ▸ several_of_meeting? found

theorem nodup_distinctEdges (l : List (Definition E)) :
    ((distinctEdges l).map Definition.edge).Nodup := by
  induction l with
  | nil => exact List.nodup_nil
  | cons first l ih =>
    refine List.nodup_cons.2 ⟨fun again => ?_, ih.sublist (List.filter_sublist.map _)⟩
    obtain ⟨other, inside, same⟩ := List.mem_map.1 again
    exact bne_iff_ne.1 (List.mem_filter.1 inside).2 same

/-- The meetings of a fork show at different edges. -/
theorem nodup_meetingsOf :
    ((E.meetingsOf fork).map fun meeting => meeting.definition.edge).Nodup := by
  unfold meetingsOf
  refine List.Nodup.sublist ?_ (nodup_distinctEdges
    ((E.definitionsOf fork).filter (isCandidate (E.bondOf fork))))
  generalize distinctEdges _ = l
  induction l with
  | nil => exact List.Sublist.refl []
  | cons definition l ih =>
    rw [List.filterMap_cons]
    split
    · exact ih.cons _
    · rename_i meeting found
      rw [List.map_cons, List.map_cons, meeting?_eq found]
      exact ih.cons_cons _

/-- The bond is what the branches lead to, as far as the immediate post-dominator of the entry. -/
theorem mem_bondOf {x : Fin E.size} : x ∈ E.bondOf fork ↔ ∃ f, E.source f = fork ∧
    Trail (fun e => if (E.dominanceOf .backward).immediate? (E.entryOf fork) = some e then ∅
      else E.successors e) (fun _ => True) f x := by
  unfold EdgeGraph.bondOf bond
  rw [BitSet.mem_reach_trail_iff]
  refine exists_congr fun f => and_congr_left fun _ => ?_
  rw [BitSet.mem_toList, E.mem_leaving]

theorem exists_path_of_mem_bond {x : Fin E.size} (member : x ∈ E.bondOf fork) :
    ∃ f, E.source f = fork ∧ BitSet.Path E.successors f x := by
  obtain ⟨f, leaves, trail⟩ := mem_bondOf.1 member
  refine ⟨f, leaves, Trail.path (trail.map fun a b _ _ next => ?_)⟩
  split at next
  · exact absurd next (BitSet.not_mem_empty b)
  · exact next

theorem mem_allowed {bond : E.Edges} {e x : Fin E.size} :
    x ∈ allowed E.basisOf bond e ↔ x ≠ e ∧ x ∈ bond ∧ x ∉ (dependent e).value ∧
      ¬ (x ∈ E.executionOf.executes[e] ∧ E.kindOf (E.target x) = .join) := by
  unfold allowed allowedBut
  dsimp only
  rw [BitSet.mem_erase, BitSet.mem_sdiff, BitSet.mem_union, BitSet.mem_inter, mem_atJoins_entering,
    not_or]
  rfl

theorem exists_meeting {z : Fin E.size} (defined : Defined (E.definitionsOf fork) z)
    (inBond : z ∈ E.bondOf fork)
    (waitless : (E.kindOf (E.source z)).isSynchronizing = false)
    (several : 2 ≤ (Abundance.maximize fork (E.entryOf fork)
      (allowed E.basisOf (E.bondOf fork) z) z).value.1) :
    ∃ meeting ∈ E.meetingsOf fork, meeting.definition.edge = z := by
  obtain ⟨definition, inside, rfl⟩ := defined
  have isOne : isCandidate (E.bondOf fork) definition = true := by
    unfold isCandidate
    rw [Bool.and_eq_true, BitSet.contains_iff_mem, Bool.not_eq_true']
    exact ⟨inBond, waitless⟩
  obtain ⟨first, member, same⟩ := exists_mem_distinctEdges (List.mem_filter.2 ⟨inside, isOne⟩)
  obtain ⟨meeting, found⟩ := exists_meeting? E.basisOf _ first (same ▸ several)
  refine ⟨meeting, mem_meetingsOf.2 ⟨first, member, found⟩, ?_⟩
  rw [meeting?_eq found, same]

theorem mem_abundanceFindings {finding : Finding E} : finding ∈ E.abundanceFindings ↔
    ∃ fork ∈ Abundance.forks E, ∃ meeting ∈ E.meetingsOf fork,
      Meeting.finding fork meeting = finding := by
  simp only [abundanceFindings, List.mem_flatMap, List.mem_map]

/-- On a closed valid graph, where two walks from a fork that share no edge and keep to the edges
allowed meet at another node that does not wait, the meeting is reported if and only if an edge
that goes on from there is among the fork's definitions; and it is, unless an edge of the walks was
found and then not followed. -/
theorem abundance_reported_iff_defined {g : Graph} {E : EdgeGraph} (accepted : g.validate = .ok ())
    (closed : EdgeGraph.ofGraph g = .ok E) (name : String) {fork node : Fin E.order}
    (forking : (E.kindOf fork).isForking = true) (other : fork ≠ node)
    (waitless : (E.kindOf node).isSynchronizing = false) {z : Fin E.size}
    (leaves : E.source z = node) (inBond : z ∈ E.bondOf fork) {W₁ W₂ : List (Fin E.size)}
    (walk₁ : E.IsWalk fork W₁ node) (walk₂ : E.IsWalk fork W₂ node) (apart : ∀ x ∈ W₁, x ∉ W₂)
    (usable : ∀ x, x ∈ W₁ ∨ x ∈ W₂ → x ∈ allowed E.basisOf (E.bondOf fork) z ∧
      x ≠ E.entryOf fork ∧
      (E.dominanceOf .backward).immediate? (E.entryOf fork) ≠ some x) :
    ∃ findings, (Analysis.abundances name E.basisOf).outcome = .ok findings ∧
      ((∃ finding ∈ findings, finding.opening = some fork ∧ finding.printable = node) ↔
        Defined (E.definitionsOf fork) z) ∧
      ((∀ x, x ∈ W₁ ∨ x ∈ W₂ → ¬ Dropped (E.definitionsOf fork) x) →
        ∃ finding ∈ findings, finding.opening = some fork ∧ finding.printable = node) := by
  obtain ⟨start, finish, rules⟩ := Graph.validate_eq_ok_iff.1 accepted
  have valid := (EdgeGraph.numbered_of_ofGraph closed).valid rules
  subst leaves
  have before : ∀ x, x ∈ W₁ ∨ x ∈ W₂ → x ≠ z := fun x member =>
    (BitSet.mem_erase.1 (usable x member).1).1
  have several := two_le_maximize (E.entryOf fork) other walk₁ walk₂ apart
    fun x member => ⟨(usable x member).1, before x member, (usable x member).2.1⟩
  have reported : Defined (E.definitionsOf fork) z → ∃ finding ∈ E.abundanceFindings,
      finding.opening = some fork ∧ finding.printable = E.source z := by
    intro defined
    obtain ⟨meeting, member, rfl⟩ := exists_meeting defined inBond waitless several
    exact ⟨_, mem_abundanceFindings.2 ⟨fork, mem_forks.2 forking, meeting, member, rfl⟩, rfl, rfl⟩
  refine ⟨E.abundanceFindings, valid.outcome_abundances name, ⟨?_, reported⟩, fun kept =>
    reported (defined_of_walks valid other walk₁ walk₂ apart before kept)⟩
  rintro ⟨finding, member, opening, printable⟩
  obtain ⟨_, -, meeting, inside, rfl⟩ := mem_abundanceFindings.1 member
  obtain rfl := Option.some.inj opening
  obtain ⟨defined, -⟩ := candidate_of_meeting inside
  have same : E.source meeting.definition.edge = E.source z := printable
  refine defined_iff.2 (Or.inr (met_of_same_source valid same ?_))
  rcases defined_iff.1 defined with followed | met
  · exact (branch_or_met followed).resolve_left fun here => other (here.symm.trans same)
  · exact met

/-- The fork 2 has branches over 3 and 4, which meet others at 5 and 6 and each other at 7. -/
def crossing : Graph where
  name := "crossing"
  nodes := [.start, .activity, .fork, .activity, .activity, .activity, .activity, .activity,
    .finish].map (⟨·, []⟩)
  flows := [⟨0, 1⟩, ⟨1, 2⟩, ⟨2, 3⟩, ⟨2, 4⟩, ⟨2, 5⟩, ⟨2, 6⟩, ⟨3, 5⟩, ⟨3, 5⟩, ⟨4, 6⟩, ⟨4, 6⟩, ⟨5, 7⟩,
    ⟨6, 7⟩, ⟨7, 8⟩]
  flows_inside := by decide

def crossingEdges : EdgeGraph :=
  .closing crossing ⟨0, by decide⟩ ⟨12, by decide⟩

def crossingNode (v : Nat) (inside : v < 9 := by decide) : Fin crossingEdges.order :=
  ⟨v, inside⟩

def crossingEdge (e : Nat) (inside : e < 13 := by decide) : Fin crossingEdges.size :=
  ⟨e, inside⟩

/-- The edges 10 and 11 that lead to 7 post-dominate what they are found from, so nothing looks
further, and the meeting at 7 is missed. -/
theorem crossing_meeting_unreported : ∃ findings,
    (Analysis.abundances "crossing" crossingEdges.basisOf).outcome = .ok findings ∧
      ¬ ∃ finding ∈ findings, finding.opening = some (crossingNode 2) ∧
        finding.printable = crossingNode 7 := by
  have closed : EdgeGraph.ofGraph crossing = .ok crossingEdges := rfl
  have forking : (crossingEdges.kindOf (crossingNode 2)).isForking = true := by decide +kernel
  have waitless : (crossingEdges.kindOf (crossingNode 7)).isSynchronizing = false := by
    decide +kernel
  have leaves : crossingEdges.source (crossingEdge 12) = crossingNode 7 := by decide +kernel
  have inBond : crossingEdge 12 ∈ crossingEdges.bondOf (crossingNode 2) := by decide +kernel
  have walk₁ : crossingEdges.IsWalk (crossingNode 2)
      [crossingEdge 2, crossingEdge 6, crossingEdge 10] (crossingNode 7) := by decide +kernel
  have walk₂ : crossingEdges.IsWalk (crossingNode 2)
      [crossingEdge 3, crossingEdge 8, crossingEdge 11] (crossingNode 7) := by decide +kernel
  obtain ⟨findings, answered, reported, -⟩ := abundance_reported_iff_defined
    (by decide +kernel) closed "crossing" forking (by decide +kernel) waitless leaves inBond
    walk₁ walk₂ (by decide +kernel) (by decide +kernel)
  refine ⟨findings, answered, fun found => absurd (reported.1 found) ?_⟩
  unfold Defined
  decide +kernel

end Abundance
end WorkflowSoundness
