import WorkflowSoundness.Graph.Simple
import WorkflowSoundness.Proofs.Closing

/-!
Putting activities on flows. The simple shape of a graph is reached by insertions of activities
only (`subdivided_simplify`). They keep all nodes, add nothing but activities, and no flow between
two nodes that are no activities comes into being; so once such a flow has been separated, it is
gone for good, and around the gateways none is left (`separated_simplify`).
-/

namespace WorkflowSoundness

namespace Graph

variable {g h : Graph} {u v : Nat}

section Insertion

variable {flow : Flow} (present : flow ∈ g.flows) (kind : NodeKind)

theorem nodes_insertOn : (g.insertOn flow present kind).nodes =
    g.nodes ++ [⟨kind, g.elements flow.source ++ g.elements flow.target⟩] :=
  rfl

theorem flows_insertOn : (g.insertOn flow present kind).flows =
    g.flows.erase flow ++ [⟨flow.source, g.order⟩, ⟨g.order, flow.target⟩] :=
  rfl

theorem order_insertOn : (g.insertOn flow present kind).order = g.order + 1 := by
  rw [order, nodes_insertOn, List.length_append]
  rfl

theorem kind?_insertOn : (g.insertOn flow present kind).kind? g.order = some kind := by
  have last : (g.insertOn flow present kind).nodes[g.nodes.length]? =
      some ⟨kind, g.elements flow.source ++ g.elements flow.target⟩ :=
    List.getElem?_concat_length
  exact congrArg (Option.map Node.kind) last

end Insertion

/-- The second graph is the first with activities on some of its flows. -/
inductive Subdivided (g : Graph) : Graph → Prop where
  | same : Subdivided g g
  | insert {h : Graph} (before : Subdivided g h) {flow : Flow} (present : flow ∈ h.flows) :
      Subdivided g (h.insertOn flow present .activity)

theorem Subdivided.trans {f : Graph} (first : Subdivided f g) (later : Subdivided g h) :
    Subdivided f h := by
  induction later with
  | same => exact first
  | insert _ present ih => exact ih.insert present

/-- An activity on each of the flows between two nodes. -/
theorem subdivided_separate (g : Graph) (flow : Flow) : Subdivided g (g.separate flow) := by
  fun_induction separate g flow with
  | case1 g present ih => exact (Subdivided.same.insert present).trans ih
  | case2 => exact .same

/-- A row of divisions is one. -/
theorem subdivided_foldl {α : Type} {step : Graph → α → Graph}
    (each : ∀ g a, Subdivided g (step g a)) (l : List α) (g : Graph) :
    Subdivided g (l.foldl step g) := by
  induction l generalizing g with
  | nil => exact .same
  | cons a l ih => exact (each g a).trans (ih _)

theorem subdivided_separateIncoming (g : Graph) (node : Nat) :
    Subdivided g (g.separateIncoming node) :=
  subdivided_foldl (fun g _ => subdivided_separate g _) _ g

theorem subdivided_separateOutgoing (g : Graph) (node : Nat) :
    Subdivided g (g.separateOutgoing node) :=
  subdivided_foldl (fun g _ => subdivided_separate g _) _ g

theorem subdivided_separateFinish (g : Graph) (finish : Nat) :
    Subdivided g (g.separateFinish finish) := by
  unfold separateFinish
  split
  · exact .same
  · split
    · exact .same
    · exact subdivided_separate g _

theorem subdivided_separateStart (g : Graph) (start : Nat) :
    Subdivided g (g.separateStart start) := by
  unfold separateStart
  split
  · exact .same
  · split
    · exact .same
    · exact subdivided_separate g _

/-! ### Nodes -/

namespace Subdivided

/-- Old nodes keep their numbers, and all new ones are activities. -/
theorem nodes (sub : Subdivided g h) :
    ∃ new, h.nodes = g.nodes ++ new ∧ ∀ node ∈ new, node.kind = .activity := by
  induction sub with
  | same => exact ⟨[], (List.append_nil _).symm, fun _ member => nomatch member⟩
  | @insert h _ flow present ih =>
    obtain ⟨new, all, activities⟩ := ih
    refine ⟨new ++ [⟨.activity, h.elements flow.source ++ h.elements flow.target⟩], ?_, ?_⟩
    · rw [nodes_insertOn, all, List.append_assoc]
    · refine List.forall_mem_append.2 ⟨activities, fun node member => ?_⟩
      rw [List.mem_singleton.1 member]

theorem le_order (sub : Subdivided g h) : g.order ≤ h.order := by
  obtain ⟨new, all, -⟩ := sub.nodes
  rw [order, order, all, List.length_append]
  exact Nat.le_add_right _ _

/-- Each insertion adds a node. -/
theorem eq_of_order_eq (sub : Subdivided g h) (same : h.order = g.order) : h = g := by
  cases sub with
  | same => rfl
  | @insert h before flow present =>
    have less := before.le_order
    rw [order_insertOn] at same
    omega

/-- Old nodes keep their kind. -/
theorem kind?_eq (sub : Subdivided g h) (inside : v < g.order) : h.kind? v = g.kind? v := by
  obtain ⟨new, all, -⟩ := sub.nodes
  rw [kind?, kind?, all, List.getElem?_append_left inside]

/-- Nodes other than activities have always been there. -/
theorem kind?_iff (sub : Subdivided g h) {kind : NodeKind} (other : kind ≠ .activity) :
    h.kind? v = some kind ↔ g.kind? v = some kind := by
  by_cases inside : v < g.order
  · rw [sub.kind?_eq inside]
  · obtain ⟨new, all, activities⟩ := sub.nodes
    refine ⟨fun known => ?_, fun known => absurd (lt_order_of_kind? known) inside⟩
    rw [kind?, all, List.getElem?_append_right (Nat.le_of_not_lt inside),
      Option.map_eq_some_iff] at known
    obtain ⟨node, found, rfl⟩ := known
    exact absurd (activities node (List.mem_of_getElem? found)) other

/-- So nodes of another kind are listed as before. -/
theorem nodesOf_eq (sub : Subdivided g h) {kind : NodeKind} (other : kind ≠ .activity) :
    h.nodesOf kind = g.nodesOf kind := by
  obtain ⟨k, more⟩ := Nat.exists_eq_add_of_le sub.le_order
  have old : ∀ v ∈ List.range g.order, h.hasKind v kind = g.hasKind v kind := fun v _ => by
    rw [Bool.eq_iff_iff, hasKind_iff, hasKind_iff, sub.kind?_iff other]
  have new : ∀ v ∈ (List.range k).map (g.order + ·), ¬ h.hasKind v kind = true := by
    intro v member isKind
    obtain ⟨i, -, rfl⟩ := List.mem_map.1 member
    have known := (sub.kind?_iff other).1 (hasKind_iff.1 isKind)
    have inside := lt_order_of_kind? known
    omega
  rw [nodesOf, nodesOf, more, List.range_add, List.filter_append, List.filter_eq_nil_iff.2 new,
    List.append_nil]
  exact List.filter_congr old

end Subdivided

/-! ### Direct flows -/

/-- A flow between two nodes that are no activities. -/
def Direct (g : Graph) (u v : Nat) : Prop :=
  ⟨u, v⟩ ∈ g.flows ∧ g.kind? u ≠ some .activity ∧ g.kind? v ≠ some .activity

/-- A flow that is still there has always been there. -/
theorem Subdivided.direct (sub : Subdivided g h) (direct : h.Direct u v) : g.Direct u v := by
  induction sub with
  | same => exact direct
  | @insert h before flow present ih =>
    refine ih ?_
    obtain ⟨member, left, right⟩ := direct
    have fresh := kind?_insertOn present .activity
    have once : Subdivided h (h.insertOn flow present .activity) := Subdivided.same.insert present
    rcases List.mem_append.1 member with old | new
    · have old := List.mem_of_mem_erase old
      have inside := h.flows_inside _ old
      rw [once.kind?_eq inside.1] at left
      rw [once.kind?_eq inside.2] at right
      exact ⟨old, left, right⟩
    · rcases List.mem_cons.1 new with same | new
      · have here : v = h.order := congrArg Flow.target same
        exact absurd (here ▸ fresh) right
      · have here : u = h.order := congrArg Flow.source (List.mem_singleton.1 new)
        exact absurd (here ▸ fresh) left

/-- Afterwards no flow is left between the two nodes. -/
theorem not_mem_separate (g : Graph) (flow : Flow) : flow ∉ (g.separate flow).flows := by
  fun_induction separate g flow with
  | case1 g present ih => exact ih
  | case2 g absent => exact absent

theorem mem_nonActivities {nodes : List Nat} : u ∈ g.nonActivities nodes ↔
    u < g.order ∧ u ∈ nodes ∧ g.kind? u ≠ some .activity := by
  rw [nonActivities, List.mem_filter, List.mem_range, Bool.and_eq_true, List.contains_iff_mem,
    Bool.not_eq_true', Bool.eq_false_iff, ne_eq, hasKind_iff]

/-- A row of separations leaves none of its flows direct. -/
theorem not_direct_foldl (flow : Nat → Flow) {l : List Nat} (member : u ∈ l)
    (direct : (l.foldl (fun g a => g.separate (flow a)) g).Direct (flow u).source (flow u).target) :
    False := by
  induction l generalizing g with
  | nil => cases member
  | cons a l ih =>
    have later : Subdivided (g.separate (flow a)) _ :=
      subdivided_foldl (fun g a => subdivided_separate g (flow a)) l (g.separate (flow a))
    rcases List.mem_cons.1 member with rfl | member
    · exact not_mem_separate g (flow u) (later.direct direct).1
    · exact ih member direct

/-- Every node that enters is an activity then. -/
theorem not_direct_separateIncoming : ¬ (g.separateIncoming v).Direct u v := by
  intro direct
  obtain ⟨present, left, -⟩ := (subdivided_separateIncoming g v).direct direct
  refine not_direct_foldl (fun source => ⟨source, v⟩) (mem_nonActivities.2 ⟨?_, ?_, left⟩) direct
  · exact (g.flows_inside _ present).1
  · exact mem_predecessors.2 present

/-- Every node that is entered is an activity then. -/
theorem not_direct_separateOutgoing : ¬ (g.separateOutgoing u).Direct u v := by
  intro direct
  obtain ⟨present, -, right⟩ := (subdivided_separateOutgoing g u).direct direct
  refine not_direct_foldl (fun target => ⟨u, target⟩) (mem_nonActivities.2 ⟨?_, ?_, right⟩) direct
  · exact (g.flows_inside _ present).2
  · exact mem_successors.2 present

/-! ### The simple shape -/

/-- A row of steps at nodes of a kind does at each of them what a step does. -/
theorem foldl_nodesOf {step : Graph → Nat → Graph} (each : ∀ g a, Subdivided g (step g a))
    {P : Graph → Nat → Prop} (done : ∀ g a, P (step g a) a)
    (keeps : ∀ g h a, Subdivided g h → P g a → P h a) {kinds : List NodeKind} {kind : NodeKind}
    (listed : kind ∈ kinds) (gateways : ∀ kind ∈ kinds, kind ≠ .activity)
    (isKind : g.kind? v = some kind) :
    P (kinds.foldl (fun g kind => (g.nodesOf kind).foldl step g) g) v := by
  have nodes : ∀ {l : List Nat} {g : Graph}, v ∈ l → P (l.foldl step g) v := by
    intro l
    induction l with
    | nil => exact fun member => nomatch member
    | cons a l ih =>
      intro g member
      rcases List.mem_cons.1 member with rfl | member
      · exact keeps _ _ _ (subdivided_foldl each l _) (done g v)
      · exact ih member
  induction kinds generalizing g with
  | nil => cases listed
  | cons first kinds ih =>
    have now := subdivided_foldl each (g.nodesOf first) g
    rcases List.mem_cons.1 listed with rfl | listed
    · refine keeps _ _ _ (subdivided_foldl (fun g kind => subdivided_foldl each _ g) kinds _) ?_
      exact nodes ((mem_nodesOf _).2 isKind)
    · have other := gateways kind (List.mem_cons_of_mem _ listed)
      exact ih listed (fun kind member => gateways kind (List.mem_cons_of_mem _ member))
        ((now.kind?_iff other).2 isKind)

theorem subdivided_separateGateways (g : Graph) : Subdivided g g.separateGateways := by
  unfold separateGateways
  refine (subdivided_foldl (fun g kind => ?_) _ g).trans (subdivided_foldl (fun g kind => ?_) _ _)
  · exact subdivided_foldl subdivided_separateIncoming _ g
  · exact subdivided_foldl subdivided_separateOutgoing _ g

/-- No direct flow leads into a merging gateway or out of a splitting one. -/
theorem not_direct_separateGateways (direct : g.separateGateways.Direct u v) {kind : NodeKind} :
    (g.kind? v = some kind → ¬ kind.isMerging = true) ∧
      (g.kind? u = some kind → ¬ kind.isSplitting = true) := by
  have merged := subdivided_foldl (fun g kind =>
    subdivided_foldl subdivided_separateIncoming (g.nodesOf kind) g) [.join, .orJoin, .merge] g
  have split := subdivided_foldl (fun g kind =>
    subdivided_foldl subdivided_separateOutgoing (g.nodesOf kind) g) [.fork, .split, .orFork]
    ([NodeKind.join, .orJoin, .merge].foldl
      (fun g kind => (g.nodesOf kind).foldl separateIncoming g) g)
  constructor
  · intro isKind merging
    have listed : kind ∈ [NodeKind.join, .orJoin, .merge] := by
      revert merging
      cases kind <;> decide
    have none := foldl_nodesOf subdivided_separateIncoming (P := fun g a => ¬ g.Direct u a)
      (fun _ _ => not_direct_separateIncoming)
      (fun _ _ _ sub free direct => free (sub.direct direct)) listed (by decide) isKind
    exact none (split.direct direct)
  · intro isKind splitting
    have listed : kind ∈ [NodeKind.fork, .split, .orFork] := by
      revert splitting
      cases kind <;> decide
    have other : kind ≠ .activity := by
      rintro rfl
      cases splitting
    exact foldl_nodesOf subdivided_separateOutgoing (P := fun g a => ¬ g.Direct a v)
      (fun _ _ => not_direct_separateOutgoing)
      (fun _ _ _ sub free direct => free (sub.direct direct)) listed (by decide)
      ((merged.kind?_iff other).2 isKind) direct

/-- With one start and one end event all passes are made. -/
theorem simplify_eq {start finish : Nat} (starts : g.start? = some start)
    (finishes : g.finish? = some finish) : g.simplify =
      ((g.separateGateways.separateFinish finish).separateStart start, .ok ()) := by
  have first := subdivided_separateGateways g
  have second := subdivided_separateFinish g.separateGateways finish
  have hasFinish : g.separateGateways.finish? = some finish := by
    rw [finish?, first.nodesOf_eq (by decide)]
    exact finishes
  have hasStart : (g.separateGateways.separateFinish finish).start? = some start := by
    rw [start?, (first.trans second).nodesOf_eq (by decide)]
    exact starts
  unfold simplify
  dsimp only
  rw [hasFinish]
  dsimp only
  rw [hasStart]

/-- With one start and one end event the simple shape exists, and it subdivides the graph. -/
theorem subdivided_simplify {start finish : Nat} (starts : g.start? = some start)
    (finishes : g.finish? = some finish) : ∃ h, g.simplify = (h, .ok ()) ∧ Subdivided g h ∧
      Subdivided g.separateGateways h := by
  have second := subdivided_separateFinish g.separateGateways finish
  have third := subdivided_separateStart (g.separateGateways.separateFinish finish) start
  exact ⟨_, simplify_eq starts finishes, (subdivided_separateGateways g).trans (second.trans third),
    second.trans third⟩

/-- Activities are before the merging gateways and behind the splitting ones. -/
structure Separated (g : Graph) : Prop where
  before : ∀ flow ∈ g.flows, ∀ kind ∈ g.kind? flow.target, kind.isMerging = true →
    g.kind? flow.source = some .activity
  after : ∀ flow ∈ g.flows, ∀ kind ∈ g.kind? flow.source, kind.isSplitting = true →
    g.kind? flow.target = some .activity

theorem separated_simplify (sub : Subdivided g h) (tail : Subdivided g.separateGateways h) :
    h.Separated := by
  have noActivity : ∀ {v kind}, h.kind? v = some kind → kind ≠ .activity →
      h.kind? v ≠ some .activity := fun isKind other same => by
    rw [isKind] at same
    exact other (Option.some.inj same)
  refine ⟨fun flow present kind isKind merging => ?_, fun flow present kind isKind splitting => ?_⟩
  · have other : kind ≠ .activity := by
      rintro rfl
      cases merging
    refine Classical.byContradiction fun left => ?_
    exact (not_direct_separateGateways (tail.direct ⟨present, left, noActivity isKind other⟩)).1
      ((sub.kind?_iff other).1 isKind) merging
  · have other : kind ≠ .activity := by
      rintro rfl
      cases splitting
    refine Classical.byContradiction fun right => ?_
    exact (not_direct_separateGateways (tail.direct ⟨present, noActivity isKind other, right⟩)).2
      ((sub.kind?_iff other).1 isKind) splitting

end Graph

/-- The edges of a separated graph are simple. -/
theorem Numbered.simple {g : Graph} {E : EdgeGraph} (numbered : Numbered g E)
    (separated : g.Separated) : E.Simple := by
  have flow : ∀ e, ⟨(E.source e).val, (E.target e).val⟩ ∈ g.flows := fun e =>
    numbered.mem_flows.2 ⟨e, rfl, rfl⟩
  refine ⟨fun e merging => ?_, fun e splitting => ?_⟩
  · have known := separated.before _ (flow e) _ (numbered.kind _) merging
    exact Option.some.inj ((numbered.kind _).symm.trans known)
  · have known := separated.after _ (flow e) _ (numbered.kind _) splitting
    exact Option.some.inj ((numbered.kind _).symm.trans known)

end WorkflowSoundness
