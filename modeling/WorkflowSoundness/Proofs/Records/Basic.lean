import WorkflowSoundness.Graph.Simple
import WorkflowSoundness.Proofs.Rules

/-!
A graph kept in records. A record has the number of its node and lists the neighbours on both sides,
and a table lists the nodes of each kind; so a flow is kept twice, and an operation edits several
lists. `Graph.records` reads the records off a graph, and each operation on the records leaves those
of the graph that the operation on the graph leaves (`records_addFlow`, `records_insertBetween`,
`records_simplify`).
-/

namespace WorkflowSoundness

/-- A node with its neighbours, one entry for each flow. -/
@[ext] structure Record where
  id : Nat
  kind : NodeKind
  elements : List String
  predecessors : List Nat
  successors : List Nat

/-- The records of a graph, and the nodes of each kind. -/
@[ext] structure Records where
  name : String
  nodes : List Record
  byKind : NodeKind → List Nat

namespace Records

variable (r : Records)

def empty (name : String) : Records where
  name
  nodes := []
  byKind _ := []

def successors (node : Nat) : List Nat :=
  (r.nodes[node]?.map Record.successors).getD []

def predecessors (node : Nat) : List Nat :=
  (r.nodes[node]?.map Record.predecessors).getD []

def elements (node : Nat) : List String :=
  (r.nodes[node]?.map Record.elements).getD []

def hasKind (node : Nat) (kind : NodeKind) : Bool :=
  r.nodes[node]?.map Record.kind == some kind

def update (node : Nat) (change : Record → Record) : Records :=
  { r with nodes := r.nodes.modify node change }

/-! ### Operations -/

/-- The new node is the last one, also in the list of its kind. -/
def addNode (kind : NodeKind) : Records where
  name := r.name
  nodes := r.nodes ++ [⟨r.nodes.length, kind, [], [], []⟩]
  byKind other := if other = kind then r.byKind other ++ [r.nodes.length] else r.byKind other

def checkNode (node : Nat) : Except Defect Unit :=
  if node < r.nodes.length then .ok () else .error (.unknownNode node)

/-- Each end of the flow takes the other one behind its neighbours. -/
def link (source target : Nat) : Records :=
  (r.update source fun record => { record with successors := record.successors ++ [target] }).update
    target fun record => { record with predecessors := record.predecessors ++ [source] }

/-- Each end of the flow drops the first entry of the other one. -/
def unlink (source target : Nat) : Records :=
  (r.update source fun record =>
    { record with successors := record.successors.erase target }).update
    target fun record => { record with predecessors := record.predecessors.erase source }

def addElement (node : Nat) (label : String) : Records × Except Defect Unit :=
  match r.checkNode node with
  | .error cause => (r, .error cause)
  | .ok () =>
    (r.update node fun record => { record with elements := record.elements ++ [label] }, .ok ())

def addFlow (source target : Nat) : Records × Except Defect Unit :=
  match r.checkNode source, r.checkNode target with
  | .error cause, _ => (r, .error cause)
  | .ok (), .error cause => (r, .error cause)
  | .ok (), .ok () => (r.link source target, .ok ())

/-- The node between, whose labels are read when it is there already. -/
def insert (source target : Nat) (kind : NodeKind) : Records :=
  let new := r.nodes.length
  let grown := (r.unlink source target).addNode kind
  let labels := grown.elements source ++ grown.elements target
  ((grown.update new fun record => { record with elements := labels }).link source new).link
    new target

def insertBetween (source target : Nat) (kind : NodeKind) : Records × Except Defect Nat :=
  match r.checkNode source, r.checkNode target with
  | .error cause, _ => (r, .error cause)
  | .ok (), .error cause => (r, .error cause)
  | .ok (), .ok () =>
    if (r.successors source).contains target then
      (r.insert source target kind, .ok r.nodes.length)
    else
      (r, .error (.malformed (.noFlow source target)))

/-! ### Reading records off lists -/

/-- The nodes at the far ends of the flows whose near end is a node. -/
def neighbours (near far : Flow → Nat) (flows : List Flow) (node : Nat) : List Nat :=
  (flows.filter fun flow => near flow == node).map far

/-- The records of some nodes with flows between them. -/
def ofLists (name : String) (nodes : List Node) (flows : List Flow) : Records where
  name
  nodes := nodes.mapIdx fun k node =>
    ⟨k, node.kind, node.elements, neighbours Flow.target Flow.source flows k,
      neighbours Flow.source Flow.target flows k⟩
  byKind kind := (List.range nodes.length).filter fun k => nodes[k]?.map Node.kind == some kind

section Neighbours

variable {near far : Flow → Nat} {flows : List Flow} {k : Nat}

/-- A flow in front of the others lists its far end in front. -/
theorem neighbours_cons (flow : Flow) : neighbours near far (flow :: flows) k =
    if near flow = k then far flow :: neighbours near far flows k
    else neighbours near far flows k := by
  by_cases here : near flow = k
  · simp [neighbours, here]
  · simp [neighbours, here]

/-- A flow behind the others lists its far end behind. -/
theorem neighbours_concat (flow : Flow) : neighbours near far (flows ++ [flow]) k =
    if near flow = k then neighbours near far flows k ++ [far flow]
    else neighbours near far flows k := by
  by_cases here : near flow = k
  · simp [neighbours, here]
  · simp [neighbours, here]

/-- Without its first occurrence a flow's far end is listed without its first occurrence. -/
theorem neighbours_erase (ends : ∀ f f', near f = near f' → far f = far f' → f = f') (flow : Flow) :
    neighbours near far (flows.erase flow) k =
      if near flow = k then (neighbours near far flows k).erase (far flow)
      else neighbours near far flows k := by
  induction flows with
  | nil => simp [neighbours]
  | cons first flows ih =>
    by_cases same : first = flow
    · subst same
      rw [List.erase_cons_head, neighbours_cons]
      split
      · rw [List.erase_cons_head]
      · rfl
    · rw [List.erase_cons_tail (by simpa using same), neighbours_cons, neighbours_cons, ih]
      by_cases leaves : near first = k
      · rw [if_pos leaves, if_pos leaves]
        split
        · rename_i here
          have other : far first ≠ far flow := fun equal =>
            same (ends first flow (leaves.trans here.symm) equal)
          rw [List.erase_cons_tail (by simpa using other)]
        · rfl
      · rw [if_neg leaves, if_neg leaves]

/-- A node that no flow has as its near end has no neighbours on that side. -/
theorem neighbours_eq_nil (far_away : ∀ flow ∈ flows, near flow ≠ k) :
    neighbours near far flows k = [] := by
  rw [neighbours, List.filter_eq_nil_iff.2 fun flow member here =>
    far_away flow member (beq_iff_eq.1 here)]
  rfl

end Neighbours

theorem eq_of_ends {flow flow' : Flow} (source : flow.source = flow'.source)
    (target : flow.target = flow'.target) : flow = flow' := by
  cases flow
  cases flow'
  simp_all

section Lists

variable {name : String} {nodes : List Node} {flows : List Flow} {source target k : Nat}

/-- A change at one node leaves the other records as they are. -/
theorem getElem?_update (r : Records) (node : Nat) (change : Record → Record) (k : Nat) :
    (r.update node change).nodes[k]? =
      r.nodes[k]?.map fun record => if node = k then change record else record := by
  exact List.getElem?_modify change node r.nodes k

theorem getElem?_ofLists : (ofLists name nodes flows).nodes[k]? = nodes[k]?.map fun node =>
    ⟨k, node.kind, node.elements, neighbours Flow.target Flow.source flows k,
      neighbours Flow.source Flow.target flows k⟩ :=
  List.getElem?_mapIdx

/-- Entering a flow at both ends makes the records of the flows with one more behind. -/
theorem ofLists_link : (ofLists name nodes flows).link source target =
    ofLists name nodes (flows ++ [⟨source, target⟩]) := by
  refine Records.ext rfl (List.ext_getElem? fun k => ?_) rfl
  rw [link, getElem?_update, getElem?_update, getElem?_ofLists, getElem?_ofLists, Option.map_map,
    Option.map_map, neighbours_concat, neighbours_concat]
  congr 1
  funext node
  simp only [Function.comp_apply]
  split <;> split <;> rfl

/-- Dropping a flow at both ends makes the records of the flows without the first such flow. -/
theorem ofLists_unlink : (ofLists name nodes flows).unlink source target =
    ofLists name nodes (flows.erase ⟨source, target⟩) := by
  refine Records.ext rfl (List.ext_getElem? fun k => ?_) rfl
  rw [unlink, getElem?_update, getElem?_update, getElem?_ofLists, getElem?_ofLists, Option.map_map,
    Option.map_map, neighbours_erase fun _ _ => eq_of_ends,
    neighbours_erase fun _ _ near far => eq_of_ends far near]
  congr 1
  funext node
  simp only [Function.comp_apply]
  split <;> split <;> rfl

theorem modify_concat {α : Type} (l : List α) (a : α) (change : α → α) :
    (l ++ [a]).modify l.length change = l ++ [change a] := by
  induction l with
  | nil => rfl
  | cons b l ih => exact congrArg (b :: ·) ih

theorem length_ofLists : (ofLists name nodes flows).nodes.length = nodes.length :=
  List.length_mapIdx

/-- A new node has no neighbours yet. -/
theorem ofLists_addNode (kind : NodeKind)
    (inside : ∀ flow ∈ flows, flow.source < nodes.length ∧ flow.target < nodes.length) :
    (ofLists name nodes flows).addNode kind = ofLists name (nodes ++ [⟨kind, []⟩]) flows := by
  have noSources : neighbours Flow.target Flow.source flows nodes.length = [] :=
    neighbours_eq_nil fun flow member => Nat.ne_of_lt (inside flow member).2
  have noTargets : neighbours Flow.source Flow.target flows nodes.length = [] :=
    neighbours_eq_nil fun flow member => Nat.ne_of_lt (inside flow member).1
  refine Records.ext rfl ?_ (funext fun other => ?_)
  · rw [addNode, length_ofLists]
    simp only [ofLists, List.mapIdx_append, List.mapIdx_cons, List.mapIdx_nil, Nat.zero_add,
      noSources, noTargets]
  · have old : ∀ k ∈ List.range nodes.length,
        ((nodes ++ [(⟨kind, []⟩ : Node)])[k]?.map Node.kind == some other) =
          (nodes[k]?.map Node.kind == some other) := by
      intro k member
      rw [List.getElem?_append_left (List.mem_range.1 member)]
    have new : (nodes ++ [(⟨kind, []⟩ : Node)])[nodes.length]?.map Node.kind = some kind := by
      rw [List.getElem?_concat_length]
      rfl
    simp only [addNode, ofLists, List.length_mapIdx, List.length_append, List.length_singleton,
      List.range_succ, List.filter_append, List.filter_congr old]
    by_cases here : other = kind
    · rw [if_pos here, List.filter_cons_of_pos (by rw [new, here]; exact beq_self_eq_true _)]
      rfl
    · rw [if_neg here, List.filter_cons_of_neg (by rw [new]; simpa using Ne.symm here)]
      exact (List.append_nil _).symm

/-- New labels for a node leave the kinds alone, and with them the nodes of each kind. -/
theorem ofLists_relabel (node : Nat) (relabel : List String → List String) :
    ((ofLists name nodes flows).update node fun record =>
      { record with elements := relabel record.elements }) =
      ofLists name (nodes.modify node fun old => { old with elements := relabel old.elements })
        flows := by
  refine Records.ext rfl (List.ext_getElem? fun k => ?_) (funext fun kind => ?_)
  · rw [getElem?_update, getElem?_ofLists, getElem?_ofLists, List.getElem?_modify, Option.map_map]
    cases nodes[k]? with
    | none => rfl
    | some found =>
      simp only [Option.map_some, Function.comp_apply, Option.map_eq_map]
      split <;> rfl
  · have same : ∀ k : Nat, (nodes.modify node fun old =>
        { old with elements := relabel old.elements })[k]?.map Node.kind =
          nodes[k]?.map Node.kind := by
      intro k
      rw [List.getElem?_modify]
      cases nodes[k]? with
      | none => rfl
      | some found =>
        simp only [Option.map_eq_map, Option.map_some]
        split <;> rfl
    simp only [ofLists, update, List.length_modify, same]

theorem elements_ofLists : (ofLists name nodes flows).elements k =
    (nodes[k]?.map Node.elements).getD [] := by
  rw [elements, getElem?_ofLists, Option.map_map]
  rfl

end Lists
end Records

namespace Graph

open Records

variable (g : Graph)

/-- The records of a graph. -/
def records : Records :=
  .ofLists g.name g.nodes g.flows

/-- What a failed operation leaves behind is what was there. -/
def after (outcome : Except Defect Graph) : Graph :=
  match outcome with
  | .ok changed => changed
  | .error _ => g

variable {g} {source target node : Nat}

theorem length_records : g.records.nodes.length = g.order :=
  length_ofLists

/-- The successors are stored as the targets of the flows out of the node, in their order. -/
theorem records_successors (node : Nat) : g.records.successors node = g.successors node := by
  rw [Records.successors, records, getElem?_ofLists, Option.map_map]
  cases found : g.nodes[node]? with
  | some _ => rfl
  | none =>
    have outside := List.getElem?_eq_none_iff.1 found
    refine (neighbours_eq_nil fun flow member here => ?_).symm
    have inside := (g.flows_inside flow member).1
    omega

/-- The predecessors are stored as the sources of the flows into the node, in their order. -/
theorem records_predecessors (node : Nat) : g.records.predecessors node = g.predecessors node := by
  rw [Records.predecessors, records, getElem?_ofLists, Option.map_map]
  cases found : g.nodes[node]? with
  | some _ => rfl
  | none =>
    have outside := List.getElem?_eq_none_iff.1 found
    refine (neighbours_eq_nil fun flow member here => ?_).symm
    have inside := (g.flows_inside flow member).2
    omega

theorem records_hasKind (node : Nat) : g.records.hasKind node = g.hasKind node := by
  funext kind
  rw [Records.hasKind, records, getElem?_ofLists, Option.map_map]
  rfl

theorem records_checkNode (node : Nat) : g.records.checkNode node = g.checkNode node := by
  rw [Records.checkNode, length_records]
  rfl

/-- A node has an entry for a successor for each flow between the two. -/
theorem count_successors (g : Graph) (source target : Nat) :
    (g.successors source).count target = g.flows.count ⟨source, target⟩ := by
  rw [successors, List.count_eq_countP, List.countP_map, List.countP_filter, List.count_eq_countP]
  refine List.countP_congr fun flow _ => ?_
  cases flow
  simp [and_comm]

/-- A node has an entry for a predecessor for each flow between the two. -/
theorem count_predecessors (g : Graph) (source target : Nat) :
    (g.predecessors target).count source = g.flows.count ⟨source, target⟩ := by
  rw [predecessors, List.count_eq_countP, List.countP_map, List.countP_filter, List.count_eq_countP]
  refine List.countP_congr fun flow _ => ?_
  cases flow
  simp

/-! ### Operations -/

/-- No flow has the new number as an end, so the records of the other nodes stay. -/
theorem records_addNode (kind : NodeKind) : (g.addNode kind).records = g.records.addNode kind :=
  (ofLists_addNode kind g.flows_inside).symm

/-- A label behind those of a node reaches its record, or the same defect is answered and nothing
changes. -/
theorem records_addElement (node : Nat) (label : String) : g.records.addElement node label =
    ((g.after (g.addElement node label)).records, (g.addElement node label).map fun _ => ()) := by
  rw [Records.addElement, records_checkNode, addElement]
  cases g.checkNode node with
  | error cause => rfl
  | ok _ => exact congrArg (·, Except.ok ()) (ofLists_relabel node (· ++ [label]))

/-- A flow reaches the records at both its ends, or the same defect is answered and nothing
changes. -/
theorem records_addFlow (source target : Nat) : g.records.addFlow source target =
    ((g.after (g.addFlow source target)).records, (g.addFlow source target).map fun _ => ()) := by
  simp only [Records.addFlow, Records.checkNode, length_records, addFlow]
  by_cases left : source < g.order
  · by_cases right : target < g.order
    · rw [if_pos left, if_pos right, dif_pos ⟨left, right⟩]
      exact congrArg (·, Except.ok ()) ofLists_link
    · rw [if_pos left, if_neg right, dif_neg fun both => right both.2, if_pos left]
      rfl
  · rw [if_neg left, dif_neg fun both => left both.1, if_neg left]
    rfl

/-- Inserting on a flow unlinks its ends, appends the node with the labels of both, and links it to
each. -/
theorem records_insertOn {flow : Flow} (present : flow ∈ g.flows) (kind : NodeKind) :
    g.records.insert flow.source flow.target kind = (g.insertOn flow present kind).records := by
  obtain ⟨source, target⟩ := g.flows_inside flow present
  have inside : ∀ other ∈ g.flows.erase flow,
      other.source < g.nodes.length ∧ other.target < g.nodes.length :=
    fun other member => g.flows_inside other (List.mem_of_mem_erase member)
  have grown : (g.records.unlink flow.source flow.target).addNode kind =
      ofLists g.name (g.nodes ++ [⟨kind, []⟩]) (g.flows.erase flow) := by
    rw [records, ofLists_unlink, ofLists_addNode kind inside]
  have labels : ∀ {k : Nat}, k < g.nodes.length →
      ((g.nodes ++ [(⟨kind, []⟩ : Node)])[k]?.map Node.elements).getD [] = g.elements k := by
    intro k old
    rw [List.getElem?_append_left old]
    rfl
  unfold Records.insert
  simp only [grown, elements_ofLists, labels source, labels target, length_records, order]
  rw [ofLists_relabel g.nodes.length fun _ => _, modify_concat, ofLists_link, ofLists_link,
    List.append_assoc]
  rfl

/-- Between nodes with a flow the insertion succeeds and answers the number of the new node. -/
theorem records_insertBetween_of_mem (present : (⟨source, target⟩ : Flow) ∈ g.flows)
    (kind : NodeKind) : g.records.insertBetween source target kind =
      ((g.insertOn ⟨source, target⟩ present kind).records, .ok g.order) := by
  have left : g.checkNode source = .ok () := if_pos (g.flows_inside _ present).1
  have right : g.checkNode target = .ok () := if_pos (g.flows_inside _ present).2
  have listed : (g.successors source).contains target = true :=
    List.contains_iff_mem.2 (mem_successors.2 present)
  rw [Records.insertBetween, records_checkNode, records_checkNode, left, right, records_successors]
  simp only [if_pos listed, records_insertOn present kind, length_records]

/-- Both insertions answer the same defect and change nothing, or insert the same node. -/
theorem records_insertBetween (source target : Nat) (kind : NodeKind) :
    g.records.insertBetween source target kind =
      ((g.after (g.insertBetween source target kind)).records,
        (g.insertBetween source target kind).map fun _ => g.order) := by
  simp only [Records.insertBetween, records_checkNode, insertBetween, records_successors,
    List.contains_iff_mem, mem_successors, length_records]
  cases g.checkNode source with
  | error cause => rfl
  | ok _ =>
    cases g.checkNode target with
    | error cause => rfl
    | ok _ =>
      by_cases present : (⟨source, target⟩ : Flow) ∈ g.flows
      · rw [if_pos present, records_insertOn present kind]
        simp only [bind, Except.bind, dif_pos present]
        rfl
      · rw [if_neg present]
        simp only [bind, Except.bind, dif_neg present]
        rfl

end Graph
end WorkflowSoundness
