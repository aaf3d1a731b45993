import WorkflowSoundness.EdgeGraph.OfGraph
import WorkflowSoundness.Proofs.Sets
import WorkflowSoundness.Proofs.Dominance.Exact
import WorkflowSoundness.Proofs.Rules
import WorkflowSoundness.Workflow

/-!
Closed graphs. The edges of a closed graph are the flows of the graph, each once (`Numbered`). If
the graph obeys the rules, its edges form a `Valid` edge graph, in which every edge is on a walk
from the start edge to the end edge and gateways have one edge on one side.
-/

namespace WorkflowSoundness

/-- The nodes are those of the graph and the edges are its flows. -/
structure Numbered (g : Graph) (E : EdgeGraph) : Prop where
  order_eq : E.order = g.order
  kind : ∀ v, g.kind? v.val = some (E.kindOf v)
  flows : ((List.finRange E.size).map fun e =>
    (⟨(E.source e).val, (E.target e).val⟩ : Flow)).Perm g.flows
  start : g.start? = some (E.source E.first).val
  finish : g.finish? = some (E.target E.last).val

/-- Sorting a list into buckets keeps what it holds. -/
theorem flatMap_filter_perm {α β : Type} [BEq β] [LawfulBEq β] (bucket : α → β) {keys : List β}
    (once : keys.Nodup) {l : List α} (sorted : ∀ a ∈ l, bucket a ∈ keys) :
    (keys.flatMap fun key => l.filter fun a => bucket a == key).Perm l := by
  induction keys generalizing l with
  | nil =>
    cases l with
    | nil => exact .refl []
    | cons a l => exact absurd (sorted a List.mem_cons_self) List.not_mem_nil
  | cons key keys ih =>
    obtain ⟨fresh, once⟩ := List.nodup_cons.1 once
    have rest := ih once (l := l.filter fun a => !(bucket a == key)) fun a member => by
      obtain ⟨inside, other⟩ := List.mem_filter.1 member
      rcases List.mem_cons.1 (sorted a inside) with same | later
      · simp [same] at other
      · exact later
    have narrow : (keys.flatMap fun other => l.filter fun a => bucket a == other) =
        keys.flatMap fun other =>
          (l.filter fun a => !(bucket a == key)).filter fun a => bucket a == other := by
      refine List.flatMap_congr fun other member => ?_
      rw [List.filter_filter]
      refine List.filter_congr fun a _ => ?_
      by_cases same : bucket a = other
      · have apart : other ≠ key := fun equal => fresh (equal ▸ member)
        simp [same, apart]
      · simp [same]
    rw [List.flatMap_cons, narrow]
    exact (List.Perm.append_left _ rest).trans (List.filter_append_perm _ l)

namespace Graph

variable {g : Graph}

/-- The positions are the flows with their ends found among the nodes. -/
theorem positions_map :
    g.positions.map (fun ends => (⟨ends.1.val, ends.2.val⟩ : Flow)) = g.flows := by
  unfold positions
  rw [List.map_map]
  exact List.attach_map_subtype_val g.flows

/-- Numbering the flows by their sources drops none and doubles none. -/
theorem orderedPositions_perm : g.orderedPositions.Perm g.positions :=
  flatMap_filter_perm Prod.fst (List.nodup_finRange g.order) fun _ _ => List.mem_finRange _

theorem mem_orderedPositions {v w : Fin g.order} :
    (v, w) ∈ g.orderedPositions ↔ (⟨v, w⟩ : Flow) ∈ g.flows := by
  rw [orderedPositions_perm.mem_iff, ← positions_map, List.mem_map]
  constructor
  · exact fun member => ⟨_, member, rfl⟩
  · rintro ⟨⟨x, y⟩, member, same⟩
    have left : x = v := Fin.ext (congrArg Flow.source same)
    have right : y = w := Fin.ext (congrArg Flow.target same)
    exact left ▸ right ▸ member

theorem kind?_kinds (v : Fin g.order) : g.kind? v = some g.kinds[v] := by
  refine kind?_eq_some_iff.2 ⟨v.isLt, ?_⟩
  rw [kinds, Table.getElem_ofFn]
  rfl

end Graph

namespace EdgeGraph

/-- The edge graph that closing gives, for the two edges it starts and ends with. -/
def closing (g : Graph) (first last : Fin g.orderedPositions.length) : EdgeGraph :=
  .ofEnds g.kinds (Table.ofList g.orderedPositions) first last

/-- Closing succeeds only from a start that an edge leaves to an end that an edge enters. -/
theorem ofGraph_eq_ok {g : Graph} {E : EdgeGraph} (closed : ofGraph g = .ok E) :
    ∃ first last, E = closing g first last ∧
      g.start? = some g.orderedPositions[first].1.val ∧
      g.finish? = some g.orderedPositions[last].2.val := by
  unfold ofGraph at closed
  cases hasStart : g.start? with
  | none =>
    rw [hasStart] at closed
    cases closed
  | some start =>
    cases hasFinish : g.finish? with
    | none =>
      rw [hasStart, hasFinish] at closed
      cases closed
    | some finish =>
      rw [hasStart, hasFinish] at closed
      dsimp only [pure, Except.pure, bind, Except.bind] at closed
      split at closed
      · rename_i first foundFirst
        split at closed
        · rename_i last foundLast
          refine ⟨first, last, (Except.ok.inj closed).symm, ?_, ?_⟩
          · have hit := List.find?_some foundFirst
            exact congrArg some (beq_iff_eq.1 hit).symm
          · have hit := List.find?_some foundLast
            exact congrArg some (beq_iff_eq.1 hit).symm
        · cases closed
      · cases closed

theorem numbered_of_ofGraph {g : Graph} {E : EdgeGraph} (closed : ofGraph g = .ok E) :
    Numbered g E := by
  obtain ⟨first, last, rfl, starts, finishes⟩ := ofGraph_eq_ok closed
  refine
    { order_eq := rfl
      kind := Graph.kind?_kinds
      flows := ?_
      start := starts
      finish := finishes }
  have entries : (List.finRange (closing g first last).size).map (fun e =>
      (⟨((closing g first last).source e).val, ((closing g first last).target e).val⟩ : Flow)) =
      g.orderedPositions.map fun ends => ⟨ends.1.val, ends.2.val⟩ := by
    refine List.ext_getElem (by simp [closing, ofEnds]) fun i _ _ => ?_
    rw [List.getElem_map, List.getElem_map, List.getElem_finRange]
    rfl
  rw [entries, ← Graph.positions_map]
  exact Graph.orderedPositions_perm.map _

/-- A graph can be closed if a flow leaves its first start event and one enters its first end
event. -/
theorem exists_ofGraph {g : Graph} {start finish : Nat} (starts : g.start? = some start)
    (finishes : g.finish? = some finish) {leaving entering : Flow} (leaves : leaving ∈ g.flows)
    (isStart : leaving.source = start) (enters : entering ∈ g.flows)
    (isFinish : entering.target = finish) : ∃ E, ofGraph g = .ok E := by
  have found : ∀ flow ∈ g.flows, ∃ e : Fin g.orderedPositions.length,
      g.orderedPositions[e].1.val = flow.source ∧ g.orderedPositions[e].2.val = flow.target := by
    intro flow member
    have inside := g.flows_inside flow member
    obtain ⟨i, short, entry⟩ := List.getElem_of_mem (Graph.mem_orderedPositions
      (v := ⟨flow.source, inside.1⟩) (w := ⟨flow.target, inside.2⟩) |>.2 member)
    refine ⟨⟨i, short⟩, ?_⟩
    rw [Fin.getElem_fin, entry]
    exact ⟨rfl, rfl⟩
  unfold ofGraph
  rw [starts, finishes]
  dsimp only [pure, Except.pure, bind, Except.bind]
  split
  · split
    · exact ⟨_, rfl⟩
    · rename_i none
      obtain ⟨e, -, ends⟩ := found entering enters
      exact absurd (beq_iff_eq.2 (ends.trans isFinish))
        (List.find?_eq_none.1 (Option.eq_none_iff_forall_ne_some.2 none) e (List.mem_finRange e))
  · rename_i none
    obtain ⟨e, ends, -⟩ := found leaving leaves
    exact absurd (beq_iff_eq.2 (ends.trans isStart))
      (List.find?_eq_none.1 (Option.eq_none_iff_forall_ne_some.2 none) e (List.mem_finRange e))

/-- What passes the rules can be closed. -/
theorem exists_ofGraph_of_obeys {g : Graph} {start finish : Nat} (rules : g.Obeys start finish) :
    ∃ E, ofGraph g = .ok E := by
  have starts : g.start? = some start := by
    rw [Graph.start?, rules.starts]
    rfl
  have finishes : g.finish? = some finish := by
    rw [Graph.finish?, rules.finishes]
    rfl
  obtain ⟨leaving, leaves, isStart⟩ : ∃ flow ∈ g.flows, flow.source = start := by
    have positive : 0 < g.flows.countP (·.source == start) := by
      rw [rules.start_out]
      exact Nat.one_pos
    simpa using List.countP_pos_iff.1 positive
  obtain ⟨entering, enters, isFinish⟩ : ∃ flow ∈ g.flows, flow.target = finish := by
    have positive : 0 < g.flows.countP (·.target == finish) := by
      rw [rules.finish_in]
      exact Nat.one_pos
    simpa using List.countP_pos_iff.1 positive
  exact exists_ofGraph starts finishes leaves isStart enters isFinish

end EdgeGraph

namespace Numbered

variable {g : Graph} {E : EdgeGraph} (numbered : Numbered g E)

include numbered

theorem lt_order (v : Fin E.order) : v.val < g.order :=
  Nat.lt_of_lt_of_le v.isLt (Nat.le_of_eq numbered.order_eq)

/-- The nodes of a kind are listed in the same order. -/
theorem map_nodesOf (kind : NodeKind) : (E.nodesOf kind).map Fin.val = g.nodesOf kind := by
  rw [Graph.nodesOf, ← numbered.order_eq, ← List.map_coe_finRange_eq_range, List.filter_map]
  congr 1
  refine List.filter_congr fun v _ => ?_
  rw [Bool.eq_iff_iff, beq_iff_eq, Function.comp_apply, Graph.hasKind_iff, numbered.kind,
    Option.some.injEq]

/-- A flow is an edge between the same nodes. -/
theorem mem_flows {u v : Nat} : (⟨u, v⟩ : Flow) ∈ g.flows ↔
    ∃ e, (E.source e).val = u ∧ (E.target e).val = v := by
  rw [← numbered.flows.mem_iff, List.mem_map]
  constructor
  · rintro ⟨e, -, same⟩
    exact ⟨e, congrArg Flow.source same, congrArg Flow.target same⟩
  · rintro ⟨e, rfl, rfl⟩
    exact ⟨e, List.mem_finRange e, rfl⟩

/-- As many edges enter a node as flows do. -/
theorem count_entering (v : Fin E.order) :
    (E.entering v).count = g.flows.countP (·.target == v.val) := by
  rw [← numbered.flows.countP_eq, List.countP_map, List.countP_eq_length_filter,
    BitSet.count_eq_length_toList, BitSet.toList_eq_filter]
  congr 1
  refine List.filter_congr fun e _ => ?_
  rw [Bool.eq_iff_iff, decide_eq_true_iff, E.mem_entering]
  simp [Fin.ext_iff]

/-- As many edges leave a node as flows do. -/
theorem count_leaving (v : Fin E.order) :
    (E.leaving v).count = g.flows.countP (·.source == v.val) := by
  rw [← numbered.flows.countP_eq, List.countP_map, List.countP_eq_length_filter,
    BitSet.count_eq_length_toList, BitSet.toList_eq_filter]
  congr 1
  refine List.filter_congr fun e _ => ?_
  rw [Bool.eq_iff_iff, decide_eq_true_iff, E.mem_leaving]
  simp [Fin.ext_iff]

end Numbered

/-- What the rules say about the edges of a closed graph. -/
structure EdgeGraph.Valid (E : EdgeGraph) : Prop where
  reached : ∀ direction e, E.Reached direction e
  first_only : ∀ e, E.source e = E.source E.first → e = E.first
  not_before_first : ∀ e, E.target e ≠ E.source E.first
  last_only : ∀ e, E.target e = E.target E.last → e = E.last
  not_after_last : ∀ e, E.source e ≠ E.target E.last
  start_iff : ∀ v, E.kindOf v = .start ↔ v = E.source E.first
  finish_iff : ∀ v, E.kindOf v = .finish ↔ v = E.target E.last
  split_in : ∀ v, (E.kindOf v).isSplitting = true → ∃ e, ∀ x, E.target x = v ↔ x = e
  merge_out : ∀ v, (E.kindOf v).isMerging = true → ∃ e, ∀ x, E.source x = v ↔ x = e
  entered : ∀ v, v ≠ E.source E.first → ∃ e, E.target e = v
  left : ∀ v, v ≠ E.target E.last → ∃ e, E.source e = v

/-- Activities keep gateways apart. -/
structure EdgeGraph.Simple (E : EdgeGraph) : Prop where
  before : ∀ e, (E.kindOf (E.target e)).isMerging = true → E.kindOf (E.source e) = .activity
  after : ∀ e, (E.kindOf (E.source e)).isSplitting = true → E.kindOf (E.target e) = .activity

namespace Numbered

variable {g : Graph} {E : EdgeGraph} (numbered : Numbered g E) {start finish : Nat}
  (rules : g.Obeys start finish)

include numbered rules

theorem start_eq : (E.source E.first).val = start := by
  have starts := numbered.start
  rw [Graph.start?, rules.starts] at starts
  exact (Option.some.inj starts).symm

theorem finish_eq : (E.target E.last).val = finish := by
  have finishes := numbered.finish
  rw [Graph.finish?, rules.finishes] at finishes
  exact (Option.some.inj finishes).symm

/-- No other edge leaves the start. -/
theorem first_only (e : Fin E.size) (same : E.source e = E.source E.first) : e = E.first := by
  have one := numbered.count_leaving (E.source E.first)
  rw [numbered.start_eq rules, rules.start_out] at one
  obtain ⟨only, mem⟩ := BitSet.count_eq_one_iff.1 one
  rw [(mem e).1 (E.mem_leaving.2 same), ← (mem E.first).1 (E.mem_leaving.2 rfl)]

/-- No other edge enters the end. -/
theorem last_only (e : Fin E.size) (same : E.target e = E.target E.last) : e = E.last := by
  have one := numbered.count_entering (E.target E.last)
  rw [numbered.finish_eq rules, rules.finish_in] at one
  obtain ⟨only, mem⟩ := BitSet.count_eq_one_iff.1 one
  rw [(mem e).1 (E.mem_entering.2 same), ← (mem E.last).1 (E.mem_entering.2 rfl)]

/-- A way of flows from the start event is a walk of edges from the start edge. -/
theorem path_of_way {v : Nat} (way : g.Way start v) {e : Fin E.size}
    (leaves : (E.source e).val = v) : BitSet.Path E.successors E.first e := by
  induction way generalizing e with
  | refl =>
    have here : e = E.first :=
      numbered.first_only rules e (Fin.ext (leaves.trans (numbered.start_eq rules).symm))
    exact here ▸ .stay _
  | tail _ flow ih =>
    obtain ⟨d, source, target⟩ := numbered.mem_flows.1 flow
    exact (ih source).snoc (E.mem_successors.2 (Fin.ext (leaves.trans target.symm)))

theorem back_path_of_way {v : Nat} (way : g.Way v finish) {e : Fin E.size}
    (enters : (E.target e).val = v) : BitSet.Path E.predecessors E.last e := by
  induction way using Relation.ReflTransGen.head_induction_on generalizing e with
  | refl =>
    have here : e = E.last :=
      numbered.last_only rules e (Fin.ext (enters.trans (numbered.finish_eq rules).symm))
    exact here ▸ .stay _
  | head flow _ ih =>
    obtain ⟨d, source, target⟩ := numbered.mem_flows.1 flow
    exact (ih target).snoc (E.mem_predecessors.2 (Fin.ext (enters.trans source.symm)))

/-- A closed graph that obeys the rules is valid: gateways have their one edge, and each edge lies
between the outer two. -/
theorem valid : E.Valid := by
  have starts := numbered.start_eq rules
  have finishes := numbered.finish_eq rules
  refine
    { reached := fun direction e => ?_
      first_only := numbered.first_only rules
      not_before_first := fun e => ?_
      last_only := numbered.last_only rules
      not_after_last := fun e => ?_
      start_iff := fun v => ?_
      finish_iff := fun v => ?_
      split_in := fun v splitting => ?_
      merge_out := fun v merging => ?_
      entered := fun v other => ?_
      left := fun v other => ?_ }
  · cases direction with
    | forward =>
      exact numbered.path_of_way rules (rules.from_start _ (numbered.lt_order _)) rfl
    | backward =>
      exact numbered.back_path_of_way rules (rules.to_finish _ (numbered.lt_order _)) rfl
  · have none := numbered.count_entering (E.source E.first)
    rw [starts, rules.start_in] at none
    exact fun same => BitSet.count_eq_zero_iff.1 none e (E.mem_entering.2 same)
  · have none := numbered.count_leaving (E.target E.last)
    rw [finishes, rules.finish_out] at none
    exact fun same => BitSet.count_eq_zero_iff.1 none e (E.mem_leaving.2 same)
  · have nodes := Graph.mem_nodesOf (g := g) (v := v.val) .start
    rw [rules.starts, List.mem_singleton, numbered.kind, Option.some.injEq] at nodes
    rw [← nodes, ← starts, Fin.ext_iff]
  · have nodes := Graph.mem_nodesOf (g := g) (v := v.val) .finish
    rw [rules.finishes, List.mem_singleton, numbered.kind, Option.some.injEq] at nodes
    rw [← nodes, ← finishes, Fin.ext_iff]
  · have one := numbered.count_entering v
    rw [rules.split_in v _ (numbered.kind v) splitting] at one
    simpa only [E.mem_entering] using BitSet.count_eq_one_iff.1 one
  · have one := numbered.count_leaving v
    rw [rules.merge_out v _ (numbered.kind v) merging] at one
    simpa only [E.mem_leaving] using BitSet.count_eq_one_iff.1 one
  · rcases Relation.ReflTransGen.cases_tail (rules.from_start v (numbered.lt_order v)) with
      same | ⟨u, -, flow⟩
    · exact absurd (Fin.ext (same.trans starts.symm)) other
    · obtain ⟨e, -, target⟩ := numbered.mem_flows.1 flow
      exact ⟨e, Fin.ext target⟩
  · rcases Relation.ReflTransGen.cases_head (rules.to_finish v (numbered.lt_order v)) with
      same | ⟨u, flow, -⟩
    · exact absurd (Fin.ext (same.trans finishes.symm)) other
    · obtain ⟨e, source, -⟩ := numbered.mem_flows.1 flow
      exact ⟨e, Fin.ext source⟩

end Numbered

namespace Workflow

variable {g : Graph} {E : EdgeGraph} {cause : Defect}

theorem close_of_ok (closed : EdgeGraph.ofGraph g = .ok E) :
    close (.draft g) = (.closed ⟨g, E, closed⟩, numbering g.name E) := by
  dsimp only [close]
  split
  · rename_i cause failed
    rw [closed] at failed
    cases failed
  · rename_i F numbered
    rw [closed] at numbered
    cases numbered
    rfl

theorem close_of_error (failed : EdgeGraph.ofGraph g = .error cause) :
    close (.draft g) = (.draft g, .fail (.defect cause)) := by
  dsimp only [close]
  split
  · rename_i cause found
    rw [failed] at found
    cases found
    rfl
  · rename_i F numbered
    rw [failed] at numbered
    cases numbered

end Workflow

/-- The closed form of an accepted graph is valid. -/
theorem EdgeGraph.valid_of_validate {g : Graph} {E : EdgeGraph} (accepted : g.validate = .ok ())
    (closed : ofGraph g = .ok E) : E.Valid := by
  obtain ⟨start, finish, rules⟩ := Graph.validate_eq_ok_iff.1 accepted
  exact (numbered_of_ofGraph closed).valid rules

end WorkflowSoundness
