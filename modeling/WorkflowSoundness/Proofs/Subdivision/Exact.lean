import WorkflowSoundness.Proofs.Preparation
import WorkflowSoundness.Proofs.Subdivision.Divided
import WorkflowSoundness.Proofs.Verify

/-!
What preparation makes of a graph. Every pass separates flows that need an activity only
(`Prepared`), and after the last none is left (`exists_divided`). So between two nodes that were
there each flow that needs an activity has got one of its own, and nothing else is new
(`Workflow.simplify_subdivides`).
-/

namespace WorkflowSoundness.Graph

variable {g h : Graph} {flow : Flow} {on rest : List Flow} {u v : Nat}

/-! ### The flows to separate -/

/-- A flow between the neighbours that an activity has to keep apart. -/
def needsActivity (g : Graph) (flow : Flow) : Bool :=
  ([NodeKind.join, .orJoin, .merge, .finish].any (g.hasKind flow.target) &&
    !g.hasKind flow.source .activity) ||
  ([NodeKind.fork, .split, .orFork, .start].any (g.hasKind flow.source) &&
    !g.hasKind flow.target .activity)

theorem needsActivity_iff : g.needsActivity flow = true ↔
    (∃ kind, g.kind? flow.target = some kind ∧ (kind.isMerging = true ∨ kind = .finish)) ∧
        g.kind? flow.source ≠ some .activity ∨
      (∃ kind, g.kind? flow.source = some kind ∧ (kind.isSplitting = true ∨ kind = .start)) ∧
        g.kind? flow.target ≠ some .activity := by
  have merging : ∀ kind : NodeKind, kind ∈ [NodeKind.join, .orJoin, .merge, .finish] ↔
      kind.isMerging = true ∨ kind = .finish := by
    intro kind
    cases kind <;> decide
  have splitting : ∀ kind : NodeKind, kind ∈ [NodeKind.fork, .split, .orFork, .start] ↔
      kind.isSplitting = true ∨ kind = .start := by
    intro kind
    cases kind <;> decide
  simp only [needsActivity, Bool.or_eq_true, Bool.and_eq_true, Bool.not_eq_true',
    Bool.eq_false_iff, List.any_eq_true, hasKind_iff, merging, splitting, ne_eq, and_comm]

/-- A flow that needs an activity joins two other nodes. -/
theorem no_activity_of_needsActivity (needs : g.needsActivity flow = true) :
    g.kind? flow.source ≠ some .activity ∧ g.kind? flow.target ≠ some .activity := by
  cases needsActivity_iff.1 needs with
  | inl into =>
    obtain ⟨⟨kind, known, merging⟩, source⟩ := into
    refine ⟨source, fun same => ?_⟩
    cases known.symm.trans same
    simp [NodeKind.isMerging] at merging
  | inr outOf =>
    obtain ⟨⟨kind, known, splitting⟩, target⟩ := outOf
    refine ⟨fun same => ?_, target⟩
    cases known.symm.trans same
    simp [NodeKind.isSplitting] at splitting

/-- The second graph is the first with activities on flows that need one. -/
def Prepared (g h : Graph) : Prop :=
  ∃ on rest, Divided g on rest h ∧ ∀ flow ∈ on, g.needsActivity flow = true

namespace Prepared

theorem refl (g : Graph) : Prepared g g :=
  ⟨[], g.flows, .refl g, List.forall_mem_nil _⟩

theorem sub (prepared : Prepared g h) : Subdivided g h := by
  obtain ⟨on, rest, divided, -⟩ := prepared
  exact divided.sub

theorem separate (prepared : Prepared g h) (source : flow.source < g.order)
    (target : flow.target < g.order) (needs : g.needsActivity flow = true) :
    Prepared g (h.separate flow) := by
  fun_induction Graph.separate h flow with
  | case1 h present ih =>
    obtain ⟨on, rest, divided, all⟩ := prepared
    have member := divided.mem_rest present source target
    refine ih ⟨on ++ [flow], rest.erase flow, divided.insertOn present member, ?_⟩
    exact List.forall_mem_append.2 ⟨all, fun other here => List.mem_singleton.1 here ▸ needs⟩
  | case2 => exact prepared

theorem old_of_ne (prepared : Prepared g h) (inside : v < h.order)
    (other : h.kind? v ≠ some .activity) : v < g.order ∧ g.kind? v ≠ some .activity := by
  obtain ⟨on, rest, divided, -⟩ := prepared
  have old := divided.old_of_ne inside other
  exact ⟨old, divided.sub.kind?_eq old ▸ other⟩

/-- Flows into a node that the kind tells to be kept apart. -/
theorem separate_into (prepared : Prepared g h) {kind : NodeKind} (known : g.kind? v = some kind)
    (merging : kind.isMerging = true ∨ kind = .finish) (source : u < g.order)
    (other : g.kind? u ≠ some .activity) : Prepared g (h.separate ⟨u, v⟩) :=
  prepared.separate source (lt_order_of_kind? known)
    (needsActivity_iff.2 (Or.inl ⟨⟨kind, known, merging⟩, other⟩))

theorem separate_outOf (prepared : Prepared g h) {kind : NodeKind} (known : g.kind? u = some kind)
    (splitting : kind.isSplitting = true ∨ kind = .start) (target : v < g.order)
    (other : g.kind? v ≠ some .activity) : Prepared g (h.separate ⟨u, v⟩) :=
  prepared.separate (lt_order_of_kind? known) target
    (needsActivity_iff.2 (Or.inr ⟨⟨kind, known, splitting⟩, other⟩))

theorem separateIncoming (prepared : Prepared g h) {kind : NodeKind}
    (known : g.kind? v = some kind) (merging : kind.isMerging = true) :
    Prepared g (h.separateIncoming v) := by
  refine List.foldlRecOn _ _ prepared fun now prepared' u member => ?_
  obtain ⟨inside, -, isOther⟩ := mem_nonActivities.1 member
  obtain ⟨source, other⟩ := prepared.old_of_ne inside isOther
  exact prepared'.separate_into known (Or.inl merging) source other

theorem separateOutgoing (prepared : Prepared g h) {kind : NodeKind}
    (known : g.kind? u = some kind) (splitting : kind.isSplitting = true) :
    Prepared g (h.separateOutgoing u) := by
  refine List.foldlRecOn _ _ prepared fun now prepared' v member => ?_
  obtain ⟨inside, -, isOther⟩ := mem_nonActivities.1 member
  obtain ⟨target, other⟩ := prepared.old_of_ne inside isOther
  exact prepared'.separate_outOf known (Or.inl splitting) target other

/-- A pass over the gateways of some kinds. -/
theorem pass {step : Graph → Nat → Graph} {kinds : List NodeKind}
    (gateways : ∀ kind ∈ kinds, kind ≠ .activity)
    (each : ∀ kind ∈ kinds, ∀ v, g.kind? v = some kind → ∀ h, Prepared g h → Prepared g (step h v))
    (prepared : Prepared g h) :
    Prepared g (kinds.foldl (fun h kind => (h.nodesOf kind).foldl step h) h) := by
  refine List.foldlRecOn _ _ prepared fun now prepared kind listed => ?_
  refine List.foldlRecOn _ _ prepared fun later prepared' v member => ?_
  have known := (prepared.sub.kind?_iff (gateways kind listed)).1 ((mem_nodesOf kind).1 member)
  exact each kind listed v known later prepared'

theorem separateGateways (prepared : Prepared g h) : Prepared g h.separateGateways := by
  have merging : ∀ kind ∈ [NodeKind.join, .orJoin, .merge], kind.isMerging = true := by decide
  have splitting : ∀ kind ∈ [NodeKind.fork, .split, .orFork], kind.isSplitting = true := by decide
  refine pass (by decide) (fun kind listed u known now => ?_)
    (pass (by decide) (fun kind listed v known now => ?_) prepared)
  · exact fun prepared => prepared.separateOutgoing known (splitting kind listed)
  · exact fun prepared => prepared.separateIncoming known (merging kind listed)

theorem separateFinish (prepared : Prepared g h) (known : g.kind? v = some .finish) :
    Prepared g (h.separateFinish v) := by
  unfold Graph.separateFinish
  split
  · exact prepared
  · rename_i u first
    split
    · exact prepared
    · rename_i isOther
      have present := mem_predecessors.1 (List.mem_of_mem_head? first)
      obtain ⟨source, other⟩ := prepared.old_of_ne (h.flows_inside _ present).1
        fun same => isOther (hasKind_iff.2 same)
      exact prepared.separate_into known (Or.inr rfl) source other

theorem separateStart (prepared : Prepared g h) (known : g.kind? u = some .start) :
    Prepared g (h.separateStart u) := by
  unfold Graph.separateStart
  split
  · exact prepared
  · rename_i v first
    split
    · exact prepared
    · rename_i isOther
      have present := mem_successors.1 (List.mem_of_mem_head? first)
      obtain ⟨target, other⟩ := prepared.old_of_ne (h.flows_inside _ present).2
        fun same => isOther (hasKind_iff.2 same)
      exact prepared.separate_outOf known (Or.inr rfl) target other

end Prepared

/-! ### Nothing is left to separate -/

theorem not_direct_separateFinish (single : g.flows.countP (·.target == v) = 1) :
    ¬ (g.separateFinish v).Direct u v := by
  intro direct
  obtain ⟨present, left, -⟩ := (subdivided_separateFinish g v).direct direct
  rw [← length_predecessors, List.length_eq_one_iff] at single
  obtain ⟨only, sole⟩ := single
  have here : u = only := List.mem_singleton.1 (sole ▸ mem_predecessors.2 present)
  have isOther : ¬ g.hasKind only .activity = true := fun same =>
    left (here ▸ hasKind_iff.1 same)
  unfold separateFinish at direct
  simp only [sole, List.head?_cons, if_neg isOther] at direct
  exact not_mem_separate g ⟨only, v⟩ (here ▸ direct.1)

theorem not_direct_separateStart (single : g.flows.countP (·.source == u) = 1) :
    ¬ (g.separateStart u).Direct u v := by
  intro direct
  obtain ⟨present, -, right⟩ := (subdivided_separateStart g u).direct direct
  rw [← length_successors, List.length_eq_one_iff] at single
  obtain ⟨only, sole⟩ := single
  have here : v = only := List.mem_singleton.1 (sole ▸ mem_successors.2 present)
  have isOther : ¬ g.hasKind only .activity = true := fun same =>
    right (here ▸ hasKind_iff.1 same)
  unfold separateStart at direct
  simp only [sole, List.head?_cons, if_neg isOther] at direct
  exact not_mem_separate g ⟨u, only⟩ (here ▸ direct.1)

variable {start finish : Nat}

/-- After all passes no flow joins what an activity has to keep apart. -/
theorem not_direct_simplified (rules : g.Obeys start finish)
    (needs : g.needsActivity ⟨u, v⟩ = true) :
    ¬ ((g.separateGateways.separateFinish finish).separateStart start).Direct u v := by
  intro direct
  have first := subdivided_separateGateways g
  have second := subdivided_separateFinish g.separateGateways finish
  have third := subdivided_separateStart (g.separateGateways.separateFinish finish) start
  have gateways := @not_direct_separateGateways g u v ((second.trans third).direct direct)
  cases needsActivity_iff.1 needs with
  | inl into =>
    obtain ⟨⟨kind, known, merging | rfl⟩, -⟩ := into
    · exact gateways.1 known merging
    · have here : v ∈ [finish] := rules.finishes ▸ (mem_nodesOf .finish).2 known
      cases List.mem_singleton.1 here
      exact not_direct_separateFinish (rules.of_subdivided first).finish_in (third.direct direct)
  | inr outOf =>
    obtain ⟨⟨kind, known, splitting | rfl⟩, -⟩ := outOf
    · exact gateways.2 known splitting
    · have here : u ∈ [start] := rules.starts ▸ (mem_nodesOf .start).2 known
      cases List.mem_singleton.1 here
      exact not_direct_separateStart (rules.of_subdivided (first.trans second)).start_out direct

/-- Preparation puts activities on the flows that need one, and leaves the others alone. -/
theorem exists_divided (rules : g.Obeys start finish) : ∃ h on rest, g.simplify = (h, .ok ()) ∧
    Divided g on rest h ∧ (∀ flow ∈ on, g.needsActivity flow = true) ∧
      ∀ flow ∈ rest, ¬ g.needsActivity flow = true := by
  have starts : g.start? = some start := by
    rw [start?, rules.starts]
    rfl
  have finishes : g.finish? = some finish := by
    rw [finish?, rules.finishes]
    rfl
  have startKind := (mem_nodesOf _).1 (rules.starts ▸ List.mem_singleton_self start)
  have finishKind := (mem_nodesOf _).1 (rules.finishes ▸ List.mem_singleton_self finish)
  obtain ⟨on, rest, divided, all⟩ :=
    (((Prepared.refl g).separateGateways).separateFinish finishKind).separateStart startKind
  refine ⟨_, on, rest, simplify_eq starts finishes, divided, all, fun flow member needs => ?_⟩
  obtain ⟨source, target⟩ := divided.old_of_rest member
  obtain ⟨left, right⟩ := no_activity_of_needsActivity needs
  have present := divided.flows.mem_iff.2 (List.mem_append_left (legs g.order on) member)
  refine not_direct_simplified rules needs ⟨present, ?_, ?_⟩
  · rw [divided.sub.kind?_eq source]
    exact left
  · rw [divided.sub.kind?_eq target]
    exact right

/-! ### What is left and what is new -/

namespace Divided

variable (divided : Divided g on rest h)

include divided

theorem length_on (all : ∀ flow ∈ on, g.needsActivity flow = true)
    (none : ∀ flow ∈ rest, ¬ g.needsActivity flow = true) :
    on.length = g.flows.countP g.needsActivity := by
  rw [divided.parts.countP_eq, List.countP_append, List.countP_eq_length.2 all,
    List.countP_eq_zero.2 none, Nat.add_zero]

theorem count_of_needs (none : ∀ flow ∈ rest, ¬ g.needsActivity flow = true)
    (needs : g.needsActivity flow = true) :
    rest.count flow = 0 ∧ on.count flow = g.flows.count flow := by
  have stays : rest.count flow = 0 := List.count_eq_zero.2 fun member => none flow member needs
  rw [divided.parts.count_eq, List.count_append, stays]
  exact ⟨rfl, rfl⟩

theorem count_of_not_needs (all : ∀ flow ∈ on, g.needsActivity flow = true)
    (free : g.needsActivity flow = false) :
    on.count flow = 0 ∧ rest.count flow = g.flows.count flow := by
  have separated : on.count flow = 0 := List.count_eq_zero.2 fun member =>
    Bool.false_ne_true (free.symm.trans (all flow member))
  rw [divided.parts.count_eq, List.count_append, separated, Nat.zero_add]
  exact ⟨rfl, rfl⟩

/-- If no flow that stays needs an activity, none of the result does. -/
theorem simple (none : ∀ flow ∈ rest, ¬ g.needsActivity flow = true) (present : flow ∈ h.flows) :
    h.needsActivity flow = false := by
  refine Bool.eq_false_iff.2 fun needs => ?_
  obtain ⟨left, right⟩ := no_activity_of_needsActivity needs
  have source := divided.old_of_ne (h.flows_inside flow present).1 left
  have target := divided.old_of_ne (h.flows_inside flow present).2 right
  refine none flow (divided.mem_rest present source target) ?_
  have sources : h.hasKind flow.source = g.hasKind flow.source := funext fun kind => by
    rw [hasKind, hasKind, divided.sub.kind?_eq source]
  have targets : h.hasKind flow.target = g.hasKind flow.target := funext fun kind => by
    rw [hasKind, hasKind, divided.sub.kind?_eq target]
  rwa [needsActivity, sources, targets] at needs

end Divided

/-- A graph in which no flow needs an activity is prepared already. -/
theorem simplify_of_simple {start finish : Nat} (rules : g.Obeys start finish)
    (simple : ∀ flow ∈ g.flows, g.needsActivity flow = false) : g.simplify = (g, .ok ()) := by
  obtain ⟨h, on, rest, simplified, divided, all, -⟩ := exists_divided rules
  have none : on = [] := List.eq_nil_iff_forall_not_mem.2 fun flow member => by
    have present := divided.parts.mem_iff.2 (List.mem_append_left rest member)
    exact Bool.false_ne_true ((simple flow present).symm.trans (all flow member))
  have same : h.order = g.order := by
    rw [divided.order_eq, none]
    rfl
  rw [simplified, divided.sub.eq_of_order_eq same]

end WorkflowSoundness.Graph

namespace WorkflowSoundness

/-- Preparing a valid draft puts an activity of its own on each flow that needs one, and changes
nothing else: between two nodes that were there these flows have given way to as many activities,
which bear the labels of both, and all other flows are still there. -/
theorem Workflow.simplify_subdivides {g : Graph} (accepted : g.validate = .ok ()) : ∃ h,
    Workflow.simplify.Ends (.draft g) (.ok (g.flows.countP g.needsActivity)) (.draft h) ∧
      h.name = g.name ∧ (∀ v < g.order, h.nodes[v]? = g.nodes[v]?) ∧
      (∀ u < g.order, ∀ v < g.order,
        (g.needsActivity ⟨u, v⟩ = true → h.flows.count ⟨u, v⟩ = 0 ∧
          (g.newBetween h u v).length = g.flows.count ⟨u, v⟩) ∧
        (g.needsActivity ⟨u, v⟩ = false → h.flows.count ⟨u, v⟩ = g.flows.count ⟨u, v⟩ ∧
          g.newBetween h u v = []) ∧
        ∀ w ∈ g.newBetween h u v,
          h.nodes[w]? = some ⟨.activity, g.elements u ++ g.elements v⟩) ∧
      (∀ w, g.order ≤ w → w < h.order → ∃ flow ∈ g.flows, g.needsActivity flow = true ∧
        w ∈ g.newBetween h flow.source flow.target) ∧
      h.validate = .ok () ∧ (∀ flow ∈ h.flows, h.needsActivity flow = false) ∧
      Workflow.simplify.Ends (.draft h) (.ok 0) (.draft h) := by
  obtain ⟨start, finish, rules⟩ := Graph.validate_eq_ok_iff.1 accepted
  obtain ⟨h, on, rest, simplified, divided, all, none⟩ := Graph.exists_divided rules
  have simple : ∀ flow ∈ h.flows, h.needsActivity flow = false :=
    fun _ present => divided.simple none present
  have rulesAgain := rules.of_subdivided divided.sub
  refine ⟨h, ?_, divided.name, fun v old => divided.getElem?_old old, fun u source v target => ?_,
    fun w new inside => ?_, Graph.validate_eq_ok_iff.2 ⟨start, finish, rulesAgain⟩, simple, ?_⟩
  · have number : h.order - g.order = g.flows.countP g.needsActivity := by
      rw [divided.order_eq, Nat.add_sub_cancel_left, divided.length_on all none]
    rw [← number]
    exact ends_simplify simplified
  · refine ⟨fun needs => ?_, fun free => ?_, fun w member => divided.activity_of_newBetween member⟩
    · obtain ⟨stays, separated⟩ := divided.count_of_needs none needs
      rw [divided.count_old source target, divided.length_newBetween]
      exact ⟨stays, separated⟩
    · obtain ⟨separated, stays⟩ := divided.count_of_not_needs all free
      rw [divided.count_old source target, ← List.length_eq_zero_iff, divided.length_newBetween]
      exact ⟨stays, separated⟩
  · obtain ⟨flow, member, between, -⟩ := divided.exists_newBetween new inside
    exact ⟨flow, divided.parts.mem_iff.2 (List.mem_append_left rest member), all flow member,
      between⟩
  · have again := ends_simplify (Graph.simplify_of_simple rulesAgain simple)
    rwa [Nat.sub_self] at again

/-- Both flows between the fork 1 and the join 3 need an activity, those around 2 have one. -/
def Graph.abutting : Graph where
  name := "abutting"
  nodes := [⟨.start, []⟩, ⟨.fork, ["ship"]⟩, ⟨.activity, []⟩, ⟨.join, ["bill"]⟩, ⟨.finish, []⟩]
  flows := [⟨0, 1⟩, ⟨1, 3⟩, ⟨1, 2⟩, ⟨1, 3⟩, ⟨2, 3⟩, ⟨3, 4⟩]
  flows_inside := by decide

theorem Workflow.simplify_subdivides_abutting : ∃ h,
    Workflow.simplify.Ends (.draft .abutting) (.ok 4) (.draft h) ∧ h.flows.count ⟨1, 3⟩ = 0 ∧
      (Graph.abutting.newBetween h 1 3).length = 2 ∧
      (∀ w ∈ Graph.abutting.newBetween h 1 3, h.nodes[w]? = some ⟨.activity, ["ship", "bill"]⟩) ∧
      h.flows.count ⟨2, 3⟩ = 1 ∧ Workflow.simplify.Ends (.draft h) (.ok 0) (.draft h) := by
  have accepted : Graph.abutting.validate = .ok () := by decide +kernel
  obtain ⟨h, ends, -, -, between, -, -, -, again⟩ := Workflow.simplify_subdivides accepted
  obtain ⟨needs, -, labels⟩ := between 1 (by decide) 3 (by decide)
  obtain ⟨-, free, -⟩ := between 2 (by decide) 3 (by decide)
  obtain ⟨gone, two⟩ := needs (by decide)
  obtain ⟨stays, -⟩ := free (by decide)
  exact ⟨h, ends, gone, two, labels, stays, again⟩

end WorkflowSoundness
