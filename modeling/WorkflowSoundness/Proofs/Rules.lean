import Mathlib.Logic.Relation
import WorkflowSoundness.Graph.Validity

/-!
The structural rules as facts about a graph. `Obeys g start finish` says them one by one, with the
ways from start and to end as chains of flows; `validate` accepts a graph if and only if it obeys
them for some start and end event (`validate_eq_ok_iff`). It asks for the rules on the numbers of
events and flows (`Degrees`) first; what is left to ask for then is ways (`Degrees.validate_eq`).
-/

namespace WorkflowSoundness.Graph

variable {g : Graph} {u v w start finish : Nat}

/-- Flows lead from the first node to the second. -/
abbrev Way (g : Graph) : Nat → Nat → Prop :=
  Relation.ReflTransGen fun u v => (⟨u, v⟩ : Flow) ∈ g.flows

theorem mem_successors : w ∈ g.successors v ↔ (⟨v, w⟩ : Flow) ∈ g.flows := by
  simp only [successors, List.mem_map, List.mem_filter, beq_iff_eq]
  constructor
  · rintro ⟨⟨source, target⟩, ⟨member, rfl⟩, rfl⟩
    exact member
  · exact fun member => ⟨⟨v, w⟩, ⟨member, rfl⟩, rfl⟩

theorem mem_predecessors : w ∈ g.predecessors v ↔ (⟨w, v⟩ : Flow) ∈ g.flows := by
  simp only [predecessors, List.mem_map, List.mem_filter, beq_iff_eq]
  constructor
  · rintro ⟨⟨source, target⟩, ⟨member, rfl⟩, rfl⟩
    exact member
  · exact fun member => ⟨⟨w, v⟩, ⟨member, rfl⟩, rfl⟩

theorem length_successors : (g.successors v).length = g.flows.countP (·.source == v) := by
  simp [successors, List.countP_eq_length_filter]

theorem length_predecessors : (g.predecessors v).length = g.flows.countP (·.target == v) := by
  simp [predecessors, List.countP_eq_length_filter]

theorem kind?_eq_some_iff {kind : NodeKind} :
    g.kind? v = some kind ↔ ∃ inside : v < g.order, (g.nodes.get ⟨v, inside⟩).kind = kind := by
  simp only [kind?, Option.map_eq_some_iff, List.getElem?_eq_some_iff, order]
  constructor
  · rintro ⟨node, ⟨inside, rfl⟩, rfl⟩
    exact ⟨inside, rfl⟩
  · rintro ⟨inside, rfl⟩
    exact ⟨_, ⟨inside, rfl⟩, rfl⟩

theorem lt_order_of_kind? {kind : NodeKind} (known : g.kind? v = some kind) : v < g.order :=
  (kind?_eq_some_iff.1 known).1

theorem exists_kind? (inside : v < g.order) : ∃ kind, g.kind? v = some kind :=
  ⟨_, kind?_eq_some_iff.2 ⟨inside, rfl⟩⟩

theorem hasKind_iff {kind : NodeKind} : g.hasKind v kind = true ↔ g.kind? v = some kind := by
  simp [hasKind]

/-- The nodes of a kind are all nodes that have it. -/
theorem mem_nodesOf (kind : NodeKind) : v ∈ g.nodesOf kind ↔ g.kind? v = some kind := by
  simp only [nodesOf, List.mem_filter, List.mem_range, hasKind_iff]
  exact ⟨And.right, fun known => ⟨lt_order_of_kind? known, known⟩⟩

/-! ### Ways -/

theorem position?_eq_some_iff {p : Fin g.order} : g.position? v = some p ↔ p.val = v := by
  unfold position?
  split
  · simp [Fin.ext_iff, eq_comm]
  · rename_i outside
    simp only [reduceCtorEq, false_iff]
    exact fun same => outside (same ▸ p.isLt)

theorem mem_successorSet {p q : Fin g.order} :
    q ∈ g.successorSet p ↔ (⟨p, q⟩ : Flow) ∈ g.flows := by
  simp [successorSet, BitSet.mem_ofList, position?_eq_some_iff, mem_successors]

theorem mem_predecessorSet {p q : Fin g.order} :
    q ∈ g.predecessorSet p ↔ (⟨q, p⟩ : Flow) ∈ g.flows := by
  simp [predecessorSet, BitSet.mem_ofList, position?_eq_some_iff, mem_predecessors]

/-- Paths along the sets of successors are ways along the flows. -/
theorem path_successorSet_iff {p q : Fin g.order} :
    BitSet.Path g.successorSet p q ↔ g.Way p q := by
  constructor
  · intro path
    induction path with
    | stay => exact .refl
    | step first _ ih => exact .head (mem_successorSet.1 first) ih
  · intro way
    generalize same : q.val = b at way
    induction way generalizing q with
    | refl => exact Fin.ext same ▸ .stay q
    | @tail b c before flow ih =>
      subst same
      have inside := (g.flows_inside _ flow).1
      exact (ih (q := ⟨b, inside⟩) rfl).snoc (mem_successorSet.2 flow)

/-- Paths along the sets of predecessors are ways against the flows. -/
theorem path_predecessorSet_iff {p q : Fin g.order} :
    BitSet.Path g.predecessorSet p q ↔ g.Way q p := by
  constructor
  · intro path
    induction path with
    | stay => exact .refl
    | step first _ ih => exact .tail ih (mem_predecessorSet.1 first)
  · intro way
    generalize same : q.val = a at way
    induction way using Relation.ReflTransGen.head_induction_on generalizing q with
    | refl => exact Fin.ext same ▸ .stay q
    | @head a b flow after ih =>
      subst same
      have inside := (g.flows_inside _ flow).2
      exact (ih (q := ⟨b, inside⟩) rfl).snoc (mem_predecessorSet.2 flow)

/-- The search forwards finds the nodes that a way leads to. -/
theorem mem_reachable_iff {p : Fin g.order} (inside : u < g.order) :
    p ∈ g.reachable u ↔ g.Way u p := by
  have here : g.position? u = some ⟨u, inside⟩ := position?_eq_some_iff.2 rfl
  rw [reachable, here, BitSet.mem_reach_iff]
  simp [path_successorSet_iff]

/-- The search backwards finds the nodes that a way leads from. -/
theorem mem_coreachable_iff {p : Fin g.order} (inside : u < g.order) :
    p ∈ g.coreachable u ↔ g.Way p u := by
  have here : g.position? u = some ⟨u, inside⟩ := position?_eq_some_iff.2 rfl
  rw [coreachable, here, BitSet.mem_reach_iff]
  simp [path_predecessorSet_iff]

/-! ### The rules -/

/-- The structural rules, for a start and an end event. -/
structure Obeys (g : Graph) (start finish : Nat) : Prop where
  starts : g.nodesOf .start = [start]
  finishes : g.nodesOf .finish = [finish]
  start_in : g.flows.countP (·.target == start) = 0
  start_out : g.flows.countP (·.source == start) = 1
  finish_in : g.flows.countP (·.target == finish) = 1
  finish_out : g.flows.countP (·.source == finish) = 0
  split_in : ∀ v kind, g.kind? v = some kind → kind.isSplitting = true →
    g.flows.countP (·.target == v) = 1
  merge_out : ∀ v kind, g.kind? v = some kind → kind.isMerging = true →
    g.flows.countP (·.source == v) = 1
  from_start : ∀ v, v < g.order → g.Way start v
  to_finish : ∀ v, v < g.order → g.Way v finish

/-- The check answers a node only if it is the one start. -/
theorem uniqueStart_eq_ok_iff : g.uniqueStart = .ok u ↔ g.nodesOf .start = [u] := by
  unfold uniqueStart
  split <;> simp_all

theorem uniqueFinish_eq_ok_iff : g.uniqueFinish = .ok u ↔ g.nodesOf .finish = [u] := by
  unfold uniqueFinish
  split <;> simp_all

/-- A gateway passes if one flow enters it when it splits, and one leaves it when it merges. -/
theorem gatewayDefect?_eq_none_iff {kind : NodeKind} :
    g.gatewayDefect? v kind = none ↔
      (kind.isSplitting = true → g.flows.countP (·.target == v) = 1) ∧
        (kind.isMerging = true → g.flows.countP (·.source == v) = 1) := by
  dsimp only [gatewayDefect?]
  rw [length_predecessors, length_successors]
  split
  · rename_i broken
    simp only [Bool.and_eq_true, bne_iff_ne] at broken
    simp [broken.1, broken.2]
  · rename_i kept
    split
    · rename_i broken
      simp only [Bool.and_eq_true, bne_iff_ne] at broken
      simp [broken.1, broken.2]
    · rename_i kept'
      simp only [Bool.and_eq_true, bne_iff_ne, not_and, Decidable.not_not] at kept kept'
      exact ⟨fun _ => ⟨kept, kept'⟩, fun _ => rfl⟩

/-- No gateway is reported if and only if all of them pass. -/
theorem gatewayDefects_eq_nil_iff :
    g.gatewayDefects = [] ↔ ∀ v kind, g.kind? v = some kind →
      (kind.isSplitting = true → g.flows.countP (·.target == v) = 1) ∧
        (kind.isMerging = true → g.flows.countP (·.source == v) = 1) := by
  unfold gatewayDefects
  rw [List.filterMap_eq_nil_iff]
  constructor
  · intro none v kind known
    have rule := none v (List.mem_range.2 (lt_order_of_kind? known))
    rw [known, Option.bind_some] at rule
    exact gatewayDefect?_eq_none_iff.1 rule
  · intro rules v inside
    obtain ⟨kind, known⟩ := exists_kind? (List.mem_range.1 inside)
    rw [known, Option.bind_some]
    exact gatewayDefect?_eq_none_iff.2 (rules v kind known)

theorem find?_eq_none_iff_all {s : BitSet g.order} :
    ((List.finRange g.order).find? fun p => !s.contains p) = none ↔ ∀ p, p ∈ s := by
  simp [List.find?_eq_none, BitSet.contains_iff_mem]

/-- The rules on the numbers of events and flows, for a start and an end event. -/
structure Degrees (g : Graph) (start finish : Nat) : Prop where
  starts : g.nodesOf .start = [start]
  finishes : g.nodesOf .finish = [finish]
  start_in : g.flows.countP (·.target == start) = 0
  start_out : g.flows.countP (·.source == start) = 1
  finish_in : g.flows.countP (·.target == finish) = 1
  finish_out : g.flows.countP (·.source == finish) = 0
  split_in : ∀ v kind, g.kind? v = some kind → kind.isSplitting = true →
    g.flows.countP (·.target == v) = 1
  merge_out : ∀ v kind, g.kind? v = some kind → kind.isMerging = true →
    g.flows.countP (·.source == v) = 1

/-- The rules are those about degrees, and that each node lies between the start and the end. -/
theorem obeys_iff : g.Obeys start finish ↔
    g.Degrees start finish ∧ ∀ v, v < g.order → g.Way start v ∧ g.Way v finish := by
  constructor
  · intro rules
    constructor
    · exact
        { starts := rules.starts
          finishes := rules.finishes
          start_in := rules.start_in
          start_out := rules.start_out
          finish_in := rules.finish_in
          finish_out := rules.finish_out
          split_in := rules.split_in
          merge_out := rules.merge_out }
    · intro v inside
      exact ⟨rules.from_start v inside, rules.to_finish v inside⟩
  · rintro ⟨degrees, ways⟩
    exact
      { starts := degrees.starts
        finishes := degrees.finishes
        start_in := degrees.start_in
        start_out := degrees.start_out
        finish_in := degrees.finish_in
        finish_out := degrees.finish_out
        split_in := degrees.split_in
        merge_out := degrees.merge_out
        from_start := fun v inside => (ways v inside).1
        to_finish := fun v inside => (ways v inside).2 }

/-- The least node that a set lacks. -/
def lacking? (s : BitSet g.order) : Option (Fin g.order) :=
  (List.finRange g.order).find? fun p => !s.contains p

/-- None is missing from a search if and only if what it looks for holds of all nodes. -/
theorem lacking?_eq_none_iff {s : BitSet g.order} {P : Nat → Prop}
    (told : ∀ p : Fin g.order, p ∈ s ↔ P p) : lacking? s = none ↔ ∀ v, v < g.order → P v := by
  rw [lacking?, find?_eq_none_iff_all]
  constructor
  · intro all v inside
    exact (told ⟨v, inside⟩).1 (all ⟨v, inside⟩)
  · intro all p
    exact (told p).2 (all p p.isLt)

theorem lt_order_of_nodesOf {kind : NodeKind} (only : g.nodesOf kind = [v]) : v < g.order :=
  lt_order_of_kind? ((mem_nodesOf kind).1 (only ▸ List.mem_singleton_self v))

/-- With one start and one end event, the other rules are asked for in turn. -/
theorem validate_of_unique (hasStart : g.uniqueStart = .ok start)
    (hasFinish : g.uniqueFinish = .ok finish) : g.validate =
    if g.predecessors start ≠ [] ∨ (g.successors start).length ≠ 1 then
      .error (.malformed (.startDegree start))
    else if (g.predecessors finish).length ≠ 1 ∨ g.successors finish ≠ [] then
      .error (.malformed (.endDegree finish))
    else
      match g.gatewayDefects with
      | rule :: _ => .error (.malformed rule)
      | [] =>
        match lacking? (g.reachable start) with
        | some p => .error (.unreachable p)
        | none =>
          match lacking? (g.coreachable finish) with
          | some p => .error (.noPathToEnd p)
          | none => .ok () := by
  unfold validate lacking?
  rw [hasStart, hasFinish]
  simp only [bind, Except.bind, pure, Except.pure]
  split
  · rfl
  split
  · rfl
  cases g.gatewayDefects with
  | cons rule later => rfl
  | nil =>
    cases (List.finRange g.order).find? fun p => !(g.reachable start).contains p with
    | some p => rfl
    | none =>
      cases (List.finRange g.order).find? fun p => !(g.coreachable finish).contains p with
      | some p => rfl
      | none => rfl

namespace Degrees

/-- What is left to ask for is ways. -/
theorem validate_eq (degrees : g.Degrees start finish) : g.validate =
    match lacking? (g.reachable start) with
    | some p => .error (.unreachable p)
    | none =>
      match lacking? (g.coreachable finish) with
      | some p => .error (.noPathToEnd p)
      | none => .ok () := by
  have startRule : ¬ (g.predecessors start ≠ [] ∨ (g.successors start).length ≠ 1) := by
    rw [not_or, Decidable.not_not, Decidable.not_not, length_successors]
    exact ⟨List.length_eq_zero_iff.1 (length_predecessors.trans degrees.start_in),
      degrees.start_out⟩
  have finishRule : ¬ ((g.predecessors finish).length ≠ 1 ∨ g.successors finish ≠ []) := by
    rw [not_or, Decidable.not_not, Decidable.not_not, length_predecessors]
    exact ⟨degrees.finish_in,
      List.length_eq_zero_iff.1 (length_successors.trans degrees.finish_out)⟩
  have gateways : g.gatewayDefects = [] := gatewayDefects_eq_nil_iff.2 fun v kind known =>
    ⟨degrees.split_in v kind known, degrees.merge_out v kind known⟩
  rw [validate_of_unique (uniqueStart_eq_ok_iff.2 degrees.starts)
    (uniqueFinish_eq_ok_iff.2 degrees.finishes), if_neg startRule, if_neg finishRule, gateways]

theorem validate_eq_ok_iff (degrees : g.Degrees start finish) : g.validate = .ok () ↔
    (∀ v, v < g.order → g.Way start v) ∧ ∀ v, v < g.order → g.Way v finish := by
  rw [← lacking?_eq_none_iff fun p => mem_reachable_iff (lt_order_of_nodesOf degrees.starts),
    ← lacking?_eq_none_iff (P := (g.Way · finish))
      fun p => mem_coreachable_iff (lt_order_of_nodesOf degrees.finishes),
    degrees.validate_eq]
  cases lacking? (g.reachable start) with
  | some p => simp
  | none => cases lacking? (g.coreachable finish) <;> simp

end Degrees

/-- With one start and one end event, the rule that fails first is one on flows. -/
theorem degrees_or_malformed (hasStart : g.uniqueStart = .ok start)
    (hasFinish : g.uniqueFinish = .ok finish) :
    g.Degrees start finish ∨ ∃ rule, g.validate = .error (.malformed rule) := by
  rw [validate_of_unique hasStart hasFinish]
  by_cases startRule : g.predecessors start ≠ [] ∨ (g.successors start).length ≠ 1
  · rw [if_pos startRule]
    exact Or.inr ⟨_, rfl⟩
  rw [if_neg startRule]
  by_cases finishRule : (g.predecessors finish).length ≠ 1 ∨ g.successors finish ≠ []
  · rw [if_pos finishRule]
    exact Or.inr ⟨_, rfl⟩
  rw [if_neg finishRule]
  cases gateways : g.gatewayDefects with
  | cons rule later => exact Or.inr ⟨rule, rfl⟩
  | nil =>
    rw [not_or, Decidable.not_not, Decidable.not_not] at startRule finishRule
    rw [gatewayDefects_eq_nil_iff] at gateways
    apply Or.inl
    constructor
    · exact uniqueStart_eq_ok_iff.1 hasStart
    · exact uniqueFinish_eq_ok_iff.1 hasFinish
    · rw [← length_predecessors, startRule.1, List.length_nil]
    · rw [← length_successors, startRule.2]
    · rw [← length_predecessors, finishRule.1]
    · rw [← length_successors, finishRule.2, List.length_nil]
    · exact fun v kind known => (gateways v kind known).1
    · exact fun v kind known => (gateways v kind known).2

theorem validate_eq_ok_iff : g.validate = .ok () ↔ ∃ start finish, g.Obeys start finish := by
  constructor
  · intro accepted
    obtain ⟨start, finish, degrees⟩ : ∃ start finish, g.Degrees start finish := by
      cases hasStart : g.uniqueStart with
      | error cause =>
        rw [validate, hasStart] at accepted
        cases accepted
      | ok start =>
        cases hasFinish : g.uniqueFinish with
        | error cause =>
          rw [validate, hasStart, hasFinish] at accepted
          cases accepted
        | ok finish =>
          rcases degrees_or_malformed hasStart hasFinish with degrees | ⟨rule, failed⟩
          · exact ⟨start, finish, degrees⟩
          · cases failed.symm.trans accepted
    obtain ⟨forward, backward⟩ := degrees.validate_eq_ok_iff.1 accepted
    exact ⟨start, finish, obeys_iff.2 ⟨degrees, fun v inside =>
      ⟨forward v inside, backward v inside⟩⟩⟩
  · rintro ⟨start, finish, rules⟩
    exact (obeys_iff.1 rules).1.validate_eq_ok_iff.2 ⟨rules.from_start, rules.to_finish⟩

instance (g : Graph) : Decidable (g.validate = .ok ()) :=
  match g.validate with
  | .ok () => isTrue rfl
  | .error _ => isFalse fun accepted => nomatch accepted

end WorkflowSoundness.Graph
