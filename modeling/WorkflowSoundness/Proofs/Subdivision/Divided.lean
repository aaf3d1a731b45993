import WorkflowSoundness.Proofs.Subdivision

/-!
A graph with activities on some of its flows, up to the order of the flows: each of those flows is
replaced by two, with an activity between them that bears the labels of both ends, and the others
stay (`Divided`). Inserting one activity more keeps this form (`Divided.insertOn`), and from it can
be read how many flows are left between two nodes that were there (`Divided.count_old`) and how many
activities have come between them (`Divided.length_newBetween`).
-/

namespace WorkflowSoundness.Graph

/-! ### Graphs with activities on some flows -/

/-- The activity that goes on a flow. -/
def activityOn (g : Graph) (flow : Flow) : Node :=
  ⟨.activity, g.elements flow.source ++ g.elements flow.target⟩

/-- The two flows that take the place of each of a list, over nodes numbered from `w` on. -/
def legs : Nat → List Flow → List Flow
  | _, [] => []
  | w, flow :: later => ⟨flow.source, w⟩ :: ⟨w, flow.target⟩ :: legs (w + 1) later

theorem legs_concat (w : Nat) (on : List Flow) (flow : Flow) : legs w (on ++ [flow]) =
    legs w on ++ [⟨flow.source, w + on.length⟩, ⟨w + on.length, flow.target⟩] := by
  induction on generalizing w with
  | nil => rfl
  | cons first on ih =>
    simp only [List.cons_append, legs, ih, List.length_cons, Nat.add_assoc, Nat.add_comm 1]

/-- The legs of a flow lead from its source to the new node and from there to its target. -/
theorem mem_legs {w : Nat} {on : List Flow} {leg : Flow} : leg ∈ legs w on ↔
    ∃ i flow, on[i]? = some flow ∧ (leg = ⟨flow.source, w + i⟩ ∨ leg = ⟨w + i, flow.target⟩) := by
  induction on generalizing w with
  | nil => simp [legs]
  | cons first on ih =>
    rw [legs, List.mem_cons, List.mem_cons, ih]
    constructor
    · rintro (here | here | ⟨i, flow, listed, here⟩)
      · exact ⟨0, first, rfl, Or.inl here⟩
      · exact ⟨0, first, rfl, Or.inr here⟩
      · rw [Nat.add_assoc, Nat.add_comm 1] at here
        exact ⟨i + 1, flow, listed, here⟩
    · rintro ⟨i, flow, listed, here⟩
      cases i with
      | zero =>
        cases Option.some.inj listed
        exact here.imp_right Or.inl
      | succ i =>
        refine Or.inr (Or.inr ⟨i, flow, listed, ?_⟩)
        rw [Nat.add_assoc, Nat.add_comm 1]
        exact here

/-- At each of the nodes between meet the two flows over it, if the others are numbered below. -/
theorem filter_legs {on : List Flow} {flow : Flow} {k w i : Nat} (above : k ≤ w)
    (below : ∀ flow ∈ on, flow.source < k ∧ flow.target < k) (listed : on[i]? = some flow) :
    (legs w on).filter (·.target == w + i) = [⟨flow.source, w + i⟩] ∧
      (legs w on).filter (·.source == w + i) = [⟨w + i, flow.target⟩] := by
  induction on generalizing w i with
  | nil => cases listed
  | cons first on ih =>
    obtain ⟨⟨source, target⟩, belowLater⟩ := List.forall_mem_cons.1 below
    cases i with
    | zero =>
      cases Option.some.inj listed
      have later : ∀ leg ∈ legs (w + 1) on, leg.target ≠ w ∧ leg.source ≠ w := by
        intro leg member
        obtain ⟨i, other, among, leads⟩ := mem_legs.1 member
        have low := belowLater other (List.mem_of_getElem? among)
        cases leads with
        | inl here =>
          subst here
          exact ⟨by simp only; omega, by simp only; omega⟩
        | inr here =>
          subst here
          exact ⟨by simp only; omega, by simp only; omega⟩
      have into : (legs (w + 1) on).filter (·.target == w) = [] :=
        List.filter_eq_nil_iff.2 fun leg member here => (later leg member).1 (beq_iff_eq.1 here)
      have outOf : (legs (w + 1) on).filter (·.source == w) = [] :=
        List.filter_eq_nil_iff.2 fun leg member here => (later leg member).2 (beq_iff_eq.1 here)
      simp [legs, into, outOf, Nat.ne_of_lt (Nat.lt_of_lt_of_le source above),
        Nat.ne_of_lt (Nat.lt_of_lt_of_le target above)]
    | succ i =>
      have next := ih (Nat.le_succ_of_le above) belowLater listed
      rw [Nat.succ_add_eq_add_succ] at next
      have high : k ≤ w + (i + 1) := Nat.le_trans above (Nat.le_add_right _ _)
      simp [legs, next, Nat.ne_of_lt (Nat.lt_of_lt_of_le source high),
        Nat.ne_of_lt (Nat.lt_of_lt_of_le target high)]

variable {g h : Graph} {flow : Flow} {on rest : List Flow} {u v w : Nat}

/-- The second graph is the first with an activity on each flow of the first list, while those of
the second list stay. -/
structure Divided (g : Graph) (on rest : List Flow) (h : Graph) : Prop where
  sub : Subdivided g h
  name : h.name = g.name
  parts : g.flows.Perm (on ++ rest)
  nodes : h.nodes = g.nodes ++ on.map g.activityOn
  flows : h.flows.Perm (rest ++ legs g.order on)

namespace Divided

theorem refl (g : Graph) : Divided g [] g.flows g where
  sub := .same
  name := rfl
  parts := .refl _
  nodes := (List.append_nil _).symm
  flows := by
    rw [legs, List.append_nil]

variable (divided : Divided g on rest h)

include divided

/-- There is a new node for each divided flow. -/
theorem order_eq : h.order = g.order + on.length := by
  rw [order, order, divided.nodes, List.length_append, List.length_map]

/-- Old nodes stay as they are. -/
theorem getElem?_old (old : v < g.order) : h.nodes[v]? = g.nodes[v]? := by
  rw [divided.nodes, List.getElem?_append_left old]

/-- New nodes are numbered in the order in which the flows are divided. -/
theorem getElem?_new {i : Nat} (listed : on[i]? = some flow) :
    h.nodes[g.order + i]? = some (g.activityOn flow) := by
  rw [divided.nodes, order, List.getElem?_append_right (Nat.le_add_right _ _),
    Nat.add_sub_cancel_left, List.getElem?_map, listed]
  rfl

theorem elements_eq (old : v < g.order) : h.elements v = g.elements v := by
  rw [elements, elements, divided.getElem?_old old]

/-- A node that is no activity has been there before. -/
theorem old_of_ne (inside : v < h.order) (other : h.kind? v ≠ some .activity) : v < g.order := by
  obtain ⟨kind, known⟩ := exists_kind? inside
  have isOther : kind ≠ .activity := fun same => other (same ▸ known)
  exact lt_order_of_kind? ((divided.sub.kind?_iff isOther).1 known)

theorem old_of_on (member : flow ∈ on) : flow.source < g.order ∧ flow.target < g.order :=
  g.flows_inside flow (divided.parts.mem_iff.2 (List.mem_append_left _ member))

theorem old_of_rest (member : flow ∈ rest) : flow.source < g.order ∧ flow.target < g.order :=
  g.flows_inside flow (divided.parts.mem_iff.2 (List.mem_append_right _ member))

/-- A flow between nodes that were there is one of those that stay. -/
theorem mem_rest (present : flow ∈ h.flows) (source : flow.source < g.order)
    (target : flow.target < g.order) : flow ∈ rest := by
  cases List.mem_append.1 (divided.flows.mem_iff.1 present) with
  | inl member => exact member
  | inr member =>
    obtain ⟨i, other, -, rfl | rfl⟩ := mem_legs.1 member
    · exact absurd target (Nat.not_lt.2 (Nat.le_add_right _ _))
    · exact absurd source (Nat.not_lt.2 (Nat.le_add_right _ _))

/-- Dividing one more flow. -/
theorem insertOn (present : flow ∈ h.flows) (member : flow ∈ rest) :
    Divided g (on ++ [flow]) (rest.erase flow) (h.insertOn flow present .activity) := by
  obtain ⟨source, target⟩ := divided.old_of_rest member
  have labels : h.activityOn flow = g.activityOn flow := by
    rw [activityOn, activityOn, divided.elements_eq source, divided.elements_eq target]
  refine ⟨divided.sub.insert present, divided.name, ?_, ?_, ?_⟩
  · refine divided.parts.trans ?_
    rw [List.append_assoc]
    exact (List.perm_cons_erase member).append_left on
  · rw [nodes_insertOn, divided.nodes, List.map_append, List.append_assoc]
    exact congrArg (fun node => g.nodes ++ (on.map g.activityOn ++ [node])) labels
  · rw [flows_insertOn, legs_concat, ← List.append_assoc, divided.order_eq]
    refine List.Perm.append_right _ ((divided.flows.erase flow).trans ?_)
    rw [List.erase_append_left _ member]

/-! ### The flows of the result -/

/-- Between nodes that were there the flows that stay are all there is. -/
theorem count_old (source : u < g.order) (target : v < g.order) :
    h.flows.count ⟨u, v⟩ = rest.count ⟨u, v⟩ := by
  have none : (legs g.order on).count ⟨u, v⟩ = 0 := by
    refine List.count_eq_zero.2 fun member => ?_
    obtain ⟨i, other, -, leads | leads⟩ := mem_legs.1 member
    · have here : v = g.order + i := congrArg Flow.target leads
      omega
    · have here : u = g.order + i := congrArg Flow.source leads
      omega
  rw [divided.flows.count_eq, List.count_append, none, Nat.add_zero]

/-- A new node is entered from the source of its flow only. -/
theorem predecessors_new {i : Nat} (listed : on[i]? = some flow) :
    h.predecessors (g.order + i) = [flow.source] := by
  have kept : rest.filter (·.target == g.order + i) = [] := by
    refine List.filter_eq_nil_iff.2 fun other member enters => ?_
    have old := (divided.old_of_rest member).2
    have here := beq_iff_eq.1 enters
    omega
  have entering := divided.flows.filter (·.target == g.order + i)
  rw [List.filter_append, kept, List.nil_append,
    (filter_legs (Nat.le_refl _) (fun _ => divided.old_of_on) listed).1] at entering
  rw [predecessors, List.perm_singleton.1 entering]
  rfl

/-- A new node leads to the target of its flow only. -/
theorem successors_new {i : Nat} (listed : on[i]? = some flow) :
    h.successors (g.order + i) = [flow.target] := by
  have kept : rest.filter (·.source == g.order + i) = [] := by
    refine List.filter_eq_nil_iff.2 fun other member leaves => ?_
    have old := (divided.old_of_rest member).1
    have here := beq_iff_eq.1 leaves
    omega
  have leaving := divided.flows.filter (·.source == g.order + i)
  rw [List.filter_append, kept, List.nil_append,
    (filter_legs (Nat.le_refl _) (fun _ => divided.old_of_on) listed).2] at leaving
  rw [successors, List.perm_singleton.1 leaving]
  rfl

end Divided

/-! ### What is between two nodes -/

/-- The nodes of the second graph that the first lacks and that stand between two of its nodes. -/
def newBetween (g h : Graph) (u v : Nat) : List Nat :=
  (List.range' g.order (h.order - g.order)).filter fun w =>
    h.predecessors w == [u] && h.successors w == [v]

/-- The positions at which a flow is in a list are as many as it occurs in it. -/
theorem countP_range {p : Nat → Bool}
    (same : ∀ i other, on[i]? = some other → p i = (other == flow)) :
    (List.range on.length).countP p = on.count flow := by
  induction on generalizing p with
  | nil => rfl
  | cons first on ih =>
    have later : (List.range on.length).countP (p ∘ Nat.succ) = on.count flow :=
      ih fun i other listed => same (i + 1) other listed
    rw [List.length_cons, List.range_succ_eq_map, List.countP_cons, List.countP_map, later,
      same 0 first rfl, List.count_cons]

namespace Divided

variable (divided : Divided g on rest h)

include divided

theorem newBetween_eq : g.newBetween h u v =
    (List.range' g.order on.length).filter fun w =>
      h.predecessors w == [u] && h.successors w == [v] := by
  rw [newBetween, divided.order_eq, Nat.add_sub_cancel_left]

/-- Between two nodes there are as many new ones as flows divided. -/
theorem length_newBetween : (g.newBetween h u v).length = on.count ⟨u, v⟩ := by
  rw [divided.newBetween_eq, ← List.countP_eq_length_filter, List.range'_eq_map_range,
    List.countP_map]
  refine countP_range fun i other listed => ?_
  rw [Function.comp_apply, divided.predecessors_new listed, divided.successors_new listed,
    Bool.eq_iff_iff]
  cases other
  simp

theorem mem_newBetween {i : Nat} (listed : on[i]? = some flow) :
    g.order + i ∈ g.newBetween h flow.source flow.target := by
  have inside : i < on.length := (List.getElem?_eq_some_iff.1 listed).1
  rw [divided.newBetween_eq, List.mem_filter, divided.predecessors_new listed,
    divided.successors_new listed]
  exact ⟨List.mem_range'_1.2 ⟨Nat.le_add_right _ _, Nat.add_lt_add_left inside _⟩, by simp⟩

/-- Each new node is between the ends of a flow that got an activity. -/
theorem exists_newBetween (new : g.order ≤ w) (inside : w < h.order) :
    ∃ flow ∈ on, w ∈ g.newBetween h flow.source flow.target ∧
      h.nodes[w]? = some (g.activityOn flow) := by
  obtain ⟨i, rfl⟩ := Nat.exists_eq_add_of_le new
  rw [divided.order_eq] at inside
  have listed := List.getElem?_eq_getElem (Nat.lt_of_add_lt_add_left inside)
  exact ⟨_, List.getElem_mem _, divided.mem_newBetween listed, divided.getElem?_new listed⟩

/-- A new node has the labels of both its neighbours. -/
theorem activity_of_newBetween (member : w ∈ g.newBetween h u v) :
    h.nodes[w]? = some (g.activityOn ⟨u, v⟩) := by
  obtain ⟨range, between⟩ := List.mem_filter.1 member
  obtain ⟨predecessors, successors⟩ := Bool.and_eq_true_iff.1 between
  obtain ⟨new, inside⟩ := List.mem_range'_1.1 range
  obtain ⟨flow, -, here, node⟩ := divided.exists_newBetween new (by omega)
  obtain ⟨predecessors', successors'⟩ := Bool.and_eq_true_iff.1 (List.mem_filter.1 here).2
  have source := (beq_iff_eq.1 predecessors).symm.trans (beq_iff_eq.1 predecessors')
  have target := (beq_iff_eq.1 successors).symm.trans (beq_iff_eq.1 successors')
  rw [node, (List.cons.inj source).1, (List.cons.inj target).1]

end Divided
end WorkflowSoundness.Graph
