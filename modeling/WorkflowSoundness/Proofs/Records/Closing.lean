import Mathlib.Data.List.FinRange
import Mathlib.Data.List.Indexes
import WorkflowSoundness.Measurement.Monitor
import WorkflowSoundness.Proofs.Closing
import WorkflowSoundness.Proofs.Records.Session

/-!
Closing a workflow, told on its records. A loop over the records and the successors of each fills
three tables: the edges, under running numbers, and at each node the numbers of the edges that enter
and leave it (`Records.edgeTables`). The tables are those of a list of pairs (`EdgeTables.ofPairs`),
one for each entry of a successor list, and these are the edges of the closed graph
(`Graph.records_close`). So the edges are the flows, each once, under the numbers from 0
(`Records.NumberedBy`), and closing a workflow under construction gives them or leaves everything as
it was (`Session.close_numbers`).
-/

namespace WorkflowSoundness

/-- An edge with its number and the nodes that it joins. -/
structure EdgeEntry where
  id : Nat
  source : Nat
  target : Nat
  deriving DecidableEq

/-- The edges in the order of their numbers, and at each node the numbers of those that enter and
leave it. -/
@[ext] structure EdgeTables where
  edges : List EdgeEntry
  incoming : Nat → List Nat
  outgoing : Nat → List Nat

namespace EdgeTables

def empty : EdgeTables where
  edges := []
  incoming _ := []
  outgoing _ := []

/-- A new edge gets the next number. -/
def add (tables : EdgeTables) (source target : Nat) : EdgeTables :=
  let id := tables.edges.length
  { edges := tables.edges ++ [⟨id, source, target⟩]
    incoming := fun v => if v = target then tables.incoming v ++ [id] else tables.incoming v
    outgoing := fun v => if v = source then tables.outgoing v ++ [id] else tables.outgoing v }

/-- The positions of the pairs that have a node on one side. -/
def positionsOf (side : Nat × Nat → Nat) (pairs : List (Nat × Nat)) (v : Nat) : List Nat :=
  (List.range pairs.length).filter fun k => pairs[k]?.map side == some v

/-- The tables of edges of which the two ends are listed. -/
def ofPairs (pairs : List (Nat × Nat)) : EdgeTables where
  edges := pairs.mapIdx fun k ends => ⟨k, ends.1, ends.2⟩
  incoming := positionsOf Prod.snd pairs
  outgoing := positionsOf Prod.fst pairs

variable {side : Nat × Nat → Nat} {pairs : List (Nat × Nat)} {ends : Nat × Nat} {v : Nat}

theorem ofPairs_nil : ofPairs [] = empty :=
  rfl

theorem incoming_ofPairs : (ofPairs pairs).incoming = positionsOf Prod.snd pairs :=
  rfl

theorem outgoing_ofPairs : (ofPairs pairs).outgoing = positionsOf Prod.fst pairs :=
  rfl

/-- One more pair of ends takes the next number, which goes behind those of its node. -/
theorem positionsOf_concat : positionsOf side (pairs ++ [ends]) v =
    if v = side ends then positionsOf side pairs v ++ [pairs.length]
    else positionsOf side pairs v := by
  have old : ∀ k ∈ List.range pairs.length,
      ((pairs ++ [ends])[k]?.map side == some v) = (pairs[k]?.map side == some v) := by
    intro k inside
    rw [List.getElem?_append_left (List.mem_range.1 inside)]
  unfold positionsOf
  rw [List.length_append, List.length_singleton, List.range_succ, List.filter_append,
    List.filter_congr old]
  by_cases here : v = side ends
  · simp [here]
  · simp [here, Ne.symm here]

/-- Positions below a bound, where the pairs are told by a function. -/
theorem positionsOf_map {n : Nat} (f : Fin n → Nat × Nat) :
    positionsOf side ((List.finRange n).map f) v =
      ((List.finRange n).filter fun k => side (f k) == v).map Fin.val := by
  have length : ((List.finRange n).map f).length = n := by simp
  rw [positionsOf, length, ← List.map_coe_finRange_eq_range, List.filter_map]
  congr 1
  apply List.filter_congr
  intro k _
  simp

/-- The first edge at a node is the least one that has the node there. -/
theorem head?_positionsOf {n : Nat} (f : Fin n → Nat × Nat) :
    (positionsOf side ((List.finRange n).map f) v).head? =
      ((List.finRange n).find? fun k => side (f k) == v).map Fin.val := by
  rw [positionsOf_map, List.head?_map, List.head?_filter]

/-- One step of the loop makes the tables of the pairs with one more behind. -/
theorem ofPairs_add (source target : Nat) :
    (ofPairs pairs).add source target = ofPairs (pairs ++ [(source, target)]) := by
  have number : (ofPairs pairs).edges.length = pairs.length := List.length_mapIdx
  apply EdgeTables.ext
  · simp [add, ofPairs]
  · funext v
    simp only [add, number, incoming_ofPairs, outgoing_ofPairs, positionsOf_concat]
  · funext v
    simp only [add, number, incoming_ofPairs, outgoing_ofPairs, positionsOf_concat]

/-- The loop over the remaining pairs makes the tables of all pairs. -/
theorem ofPairs_foldl (more : List (Nat × Nat)) :
    more.foldl (fun tables ends => tables.add ends.1 ends.2) (ofPairs pairs) =
      ofPairs (pairs ++ more) := by
  induction more generalizing pairs with
  | nil => simp
  | cons ends more ih =>
    rw [List.foldl_cons, ofPairs_add, ih, List.append_assoc]
    rfl

end EdgeTables

namespace Records

variable (r : Records)

/-- The successor entries of all records, in their order. -/
def pairs : List (Nat × Nat) :=
  r.nodes.flatMap fun record => record.successors.map fun target => (record.id, target)

/-- One edge for each successor entry, record by record. -/
def edgeTables : EdgeTables :=
  r.nodes.foldl (fun tables record =>
    record.successors.foldl (fun tables target => tables.add record.id target) tables) .empty

/-- Both loops together are one over all entries. -/
theorem edgeTables_eq : r.edgeTables = .ofPairs r.pairs := by
  have whole : r.edgeTables =
      r.pairs.foldl (fun tables ends => tables.add ends.1 ends.2) .empty := by
    rw [pairs, List.foldl_flatMap]
    simp only [List.foldl_map]
    rfl
  rw [whole, ← EdgeTables.ofPairs_nil, EdgeTables.ofPairs_foldl, List.nil_append]

/-- The tables, and the least edges at the first start and the first end event. -/
structure Listing where
  tables : EdgeTables
  first : Nat
  last : Nat

/-- Numbers the edges and looks for the two that the graph starts and ends with. -/
def close : Except Defect Listing := do
  let some start := (r.byKind .start).head? | throw .missingStart
  let some finish := (r.byKind .finish).head? | throw .missingEnd
  let tables := r.edgeTables
  let some first := (tables.outgoing start).head? | throw (.malformed (.noEdge start .outgoing))
  let some last := (tables.incoming finish).head? | throw (.malformed (.noEdge finish .incoming))
  return ⟨tables, first, last⟩

variable {r}

/-- Closing succeeds only with one node at each outer end that has an edge there. -/
theorem close_eq_ok {c : Listing} (passed : r.close = .ok c) : c.tables = r.edgeTables ∧
    ∃ start finish, (r.byKind .start).head? = some start ∧
      (r.byKind .finish).head? = some finish ∧
      (r.edgeTables.outgoing start).head? = some c.first ∧
      (r.edgeTables.incoming finish).head? = some c.last := by
  unfold close at passed
  cases starts : (r.byKind .start).head? with
  | none => simp [starts] at passed
  | some start =>
    cases finishes : (r.byKind .finish).head? with
    | none => simp [starts, finishes] at passed
    | some finish =>
      cases leaves : (r.edgeTables.outgoing start).head? with
      | none => simp [starts, finishes, leaves] at passed
      | some first =>
        cases enters : (r.edgeTables.incoming finish).head? with
        | none => simp [starts, finishes, leaves, enters] at passed
        | some last =>
          obtain rfl : (⟨r.edgeTables, first, last⟩ : Listing) = c := by
            simpa [starts, finishes, leaves, enters, pure, Except.pure] using passed
          exact ⟨rfl, start, finish, rfl, rfl, leaves, enters⟩

end Records

/-! ### The edges of the closed graph -/

namespace EdgeGraph

/-- The ends of the edges in the order of their numbers. -/
def pairs (E : EdgeGraph) : List (Nat × Nat) :=
  (List.finRange E.size).map fun e => ((E.source e).val, (E.target e).val)

/-- What closing has found. -/
def listing (E : EdgeGraph) : Records.Listing where
  tables := .ofPairs E.pairs
  first := E.first
  last := E.last

end EdgeGraph

namespace Graph

variable {g : Graph}

/-- The successor entries of a record are the edges that its node gets. -/
theorem map_filter_positions (v : Fin g.order) :
    (g.positions.filter fun ends => ends.1 == v).map (fun ends => (ends.1.val, ends.2.val)) =
      (g.successors v).map fun target => (v.val, target) := by
  have same : g.positions.filter (fun ends => ends.1 == v) =
      g.positions.filter fun ends => ends.1.val == v.val := by
    apply List.filter_congr
    intro ends _
    rw [Bool.eq_iff_iff, beq_iff_eq, beq_iff_eq, Fin.ext_iff]
  rw [successors, ← positions_map, List.filter_map, List.map_map, List.map_map, same]
  apply List.map_congr_left
  intro ends member
  have here : ends.1.val = v.val := beq_iff_eq.1 (List.mem_filter.1 member).2
  simp [here]

/-- The pairs read off the records are the ends of the edges in the order of their numbers. -/
theorem pairs_records (g : Graph) : g.records.pairs =
    (List.finRange g.orderedPositions.length).map fun e =>
      ((g.orderedPositions.get e).1.val, (g.orderedPositions.get e).2.val) := by
  have ordered : g.records.pairs =
      g.orderedPositions.map fun ends => (ends.1.val, ends.2.val) := by
    unfold orderedPositions
    rw [List.map_flatMap, Records.pairs, records, Records.ofLists, List.mapIdx_eq_ofFn,
      List.ofFn_eq_map, List.flatMap_map]
    apply List.flatMap_congr
    intro v _
    exact (map_filter_positions v).symm
  rw [ordered]
  apply List.ext_getElem
  · simp
  · intro i _ _
    simp

/-- The closed records are the edge graph of the graph, or lack the same. -/
theorem records_close (g : Graph) :
    g.records.close = (EdgeGraph.ofGraph g).map EdgeGraph.listing := by
  have starts : (g.records.byKind .start).head? = g.start? := rfl
  have finishes : (g.records.byKind .finish).head? = g.finish? := rfl
  unfold Records.close EdgeGraph.ofGraph
  rw [starts, finishes, Records.edgeTables_eq, pairs_records]
  cases g.start? with
  | none => rfl
  | some start =>
    cases g.finish? with
    | none => rfl
    | some finish =>
      dsimp only [pure, Except.pure, bind, Except.bind]
      simp only [EdgeTables.outgoing_ofPairs, EdgeTables.incoming_ofPairs,
        EdgeTables.head?_positionsOf, Table.getElem_ofList]
      cases (List.finRange g.orderedPositions.length).find? fun e =>
          g.orderedPositions[e].1.val == start with
      | none => rfl
      | some first =>
        cases (List.finRange g.orderedPositions.length).find? fun e =>
            g.orderedPositions[e].2.val == finish with
        | none => rfl
        | some last => rfl

end Graph

/-- What the edges of a closed graph are to the records of the graph. -/
structure Records.NumberedBy (r : Records) (E : EdgeGraph) : Prop where
  /-- Records have the numbers of their places. -/
  nodes : E.order = r.nodes.length ∧
    ∀ k (record : Record), r.nodes[k]? = some record → record.id = k
  /-- Edges have the numbers of their places. -/
  numbers : ∀ k (entry : EdgeEntry), r.edgeTables.edges[k]? = some entry → entry.id = k
  edges : r.edgeTables.edges = (List.finRange E.size).map fun e =>
    ⟨e.val, (E.source e).val, (E.target e).val⟩
  /-- The edges are the successor entries, node by node. -/
  ends : (List.finRange E.size).map (fun e => ((E.source e).val, (E.target e).val)) =
    r.nodes.flatMap fun record => record.successors.map fun target => (record.id, target)
  outgoing : ∀ v : Fin E.order, r.edgeTables.outgoing v = (E.leaving v).toList.map Fin.val
  incoming : ∀ v : Fin E.order, r.edgeTables.incoming v = (E.entering v).toList.map Fin.val
  leaving : ∀ v e, e ∈ E.leaving v ↔ E.source e = v
  entering : ∀ v e, e ∈ E.entering v ↔ E.target e = v
  out_degree : ∀ v, (E.leaving v).count = (r.successors v.val).length
  in_degree : ∀ v, (E.entering v).count = (r.predecessors v.val).length
  left_once : ∀ e, ∃! v, e ∈ E.leaving v
  entered_once : ∀ e, ∃! v, e ∈ E.entering v
  /-- The start edge is the least one that leaves the first start event. -/
  first : ∃ start : Fin E.order, (r.byKind .start).head? = some start.val ∧
    (E.leaving start).first? = some E.first
  /-- The end edge is the least one that enters the first end event. -/
  last : ∃ finish : Fin E.order, (r.byKind .finish).head? = some finish.val ∧
    (E.entering finish).first? = some E.last

namespace EdgeGraph

variable {g : Graph} {E : EdgeGraph}

/-- The positions of a node on one side are the edges that end there on this side. -/
theorem positionsOf_pairs {side : Nat × Nat → Nat} {place : Fin E.size → Fin E.order}
    (ends : ∀ e, side ((E.source e).val, (E.target e).val) = (place e).val)
    {v : Fin E.order} {edges : E.Edges} (members : ∀ e, e ∈ edges ↔ place e = v) :
    EdgeTables.positionsOf side E.pairs v.val = edges.toList.map Fin.val := by
  rw [pairs, EdgeTables.positionsOf_map, BitSet.toList_eq_filter]
  congr 1
  apply List.filter_congr
  intro e _
  rw [Bool.eq_iff_iff, beq_iff_eq, decide_eq_true_iff, members, ends, Fin.ext_iff]

theorem first?_of_head? {n : Nat} {s : BitSet n} {e : Fin n}
    (head : (s.toList.map Fin.val).head? = some e.val) : s.first? = some e := by
  rw [List.head?_map, BitSet.head?_toList, Option.map_eq_some_iff] at head
  obtain ⟨x, first, same⟩ := head
  rw [first, Fin.ext same]

theorem pairs_of_ofGraph (closed : ofGraph g = .ok E) : g.records.pairs = E.pairs := by
  obtain ⟨first, last, rfl, -, -⟩ := ofGraph_eq_ok closed
  exact Graph.pairs_records g

/-- An edge is stored at its own number. -/
theorem id_of_ofPairs {l : List (Nat × Nat)} {k : Nat} {entry : EdgeEntry}
    (found : (EdgeTables.ofPairs l).edges[k]? = some entry) : entry.id = k := by
  rw [EdgeTables.ofPairs, List.getElem?_mapIdx, Option.map_eq_some_iff] at found
  obtain ⟨ends, -, rfl⟩ := found
  rfl

theorem edges_ofPairs_pairs (E : EdgeGraph) : (EdgeTables.ofPairs E.pairs).edges =
    (List.finRange E.size).map fun e => ⟨e.val, (E.source e).val, (E.target e).val⟩ := by
  apply List.ext_getElem
  · simp [EdgeTables.ofPairs, pairs]
  · intro i _ _
    simp [EdgeTables.ofPairs, pairs]

/-- The tables made from the records hold the ends and the lists of the closed graph. -/
theorem numberedBy_of_ofGraph (closed : ofGraph g = .ok E) : g.records.NumberedBy E := by
  have numbered := numbered_of_ofGraph closed
  have passed : g.records.close = .ok E.listing := by
    rw [Graph.records_close, closed]
    rfl
  obtain ⟨tables, start, finish, starts, finishes, leaves, enters⟩ := Records.close_eq_ok passed
  have tables : g.records.edgeTables = .ofPairs E.pairs := tables.symm
  have outgoing : ∀ v : Fin E.order, g.records.edgeTables.outgoing v =
      (E.leaving v).toList.map Fin.val := by
    intro v
    rw [tables]
    exact positionsOf_pairs (fun _ => rfl) fun _ => E.mem_leaving
  have incoming : ∀ v : Fin E.order, g.records.edgeTables.incoming v =
      (E.entering v).toList.map Fin.val := by
    intro v
    rw [tables]
    exact positionsOf_pairs (fun _ => rfl) fun _ => E.mem_entering
  refine
    { nodes := ⟨numbered.order_eq.trans Graph.length_records.symm, g.sound_records.numbered⟩
      numbers := fun k entry found => id_of_ofPairs (tables ▸ found)
      edges := tables ▸ edges_ofPairs_pairs E
      ends := (pairs_of_ofGraph closed).symm
      outgoing
      incoming
      leaving := fun v e => E.mem_leaving
      entering := fun v e => E.mem_entering
      out_degree := ?_
      in_degree := ?_
      left_once := fun e =>
        ⟨E.source e, E.mem_leaving.2 rfl, fun v member => (E.mem_leaving.1 member).symm⟩
      entered_once := fun e =>
        ⟨E.target e, E.mem_entering.2 rfl, fun v member => (E.mem_entering.1 member).symm⟩
      first := ?_
      last := ?_ }
  · intro v
    rw [numbered.count_leaving, Graph.records_successors, Graph.successors, List.length_map,
      List.countP_eq_length_filter]
  · intro v
    rw [numbered.count_entering, Graph.records_predecessors, Graph.predecessors, List.length_map,
      List.countP_eq_length_filter]
  · obtain rfl := Option.some.inj (starts.symm.trans numbered.start)
    rw [outgoing] at leaves
    exact ⟨_, starts, first?_of_head? leaves⟩
  · obtain rfl := Option.some.inj (finishes.symm.trans numbered.finish)
    rw [incoming] at enters
    exact ⟨_, finishes, first?_of_head? enters⟩

/-- Closing keeps the number of flows. -/
theorem size_of_ofGraph (closed : ofGraph g = .ok E) : E.size = g.flows.length := by
  rw [← (numbered_of_ofGraph closed).flows.length_eq, List.length_map, List.length_finRange]

end EdgeGraph

namespace Session

/-- Closing a workflow under construction, whatever has been asked before. If it succeeds, the graph
stays as it is, its edges number the entries of the successor lists, and a reporter is told how many
flows there are and nothing else. If it fails, everything stays as it was, and no reporter is told
anything. -/
theorem close_numbers (name : String) (requests : List Request) (g : Graph)
    (building : (requests.foldl serve (start name)).workflow = .draft g) :
    let session := requests.foldl serve (start name)
    let closing := Workflow.close session.workflow
    (closing.2.outcome = .ok () → ∃ c, closing.1 = .closed c ∧ c.graph = g ∧
      session.records.NumberedBy c.edges ∧ Numbered g c.edges ∧
      c.edges.size = g.flows.length ∧
      ∀ reporter : Reporter, reporter.watch g.name closing.2.events =
        reporter.put g.name Metric.edges g.flows.length) ∧
    ∀ fault, closing.2.outcome = .error fault → closing.1 = session.workflow ∧
      session.serve .close = session ∧
      (∃ cause, fault = .defect cause ∧ session.records.close = .error cause) ∧
      ∀ reporter : Reporter, reporter.watch g.name closing.2.events = reporter := by
  intro session closing
  have records : session.records = g.records := by
    rw [show session.records = session.workflow.graph.records from agrees_run name requests]
    exact congrArg (fun workflow => workflow.graph.records) building
  have same : closing = Workflow.close (.draft g) := congrArg Workflow.close building
  rw [same, records]
  cases outcome : EdgeGraph.ofGraph g with
  | error cause =>
    have lacking : g.records.close = .error cause := by
      rw [Graph.records_close, outcome]
      rfl
    rw [Workflow.close_of_error outcome]
    constructor
    · intro passed
      cases passed
    · intro fault failed
      cases failed
      have refused : (Workflow.serve .close session.workflow).2.outcome =
          .error (.defect cause) := by
        change (Run.bind Workflow.close (fun _ => pure none) session.workflow).2.outcome = _
        rw [building, Run.bind, Workflow.close_of_error outcome]
        rfl
      have stays := (agrees_run name requests).serve_failed (by decide) refused
      exact ⟨building.symm, stays, ⟨cause, rfl, lacking⟩, fun reporter => rfl⟩
  | ok E =>
    rw [Workflow.close_of_ok outcome]
    constructor
    · intro _
      have size := EdgeGraph.size_of_ofGraph outcome
      refine ⟨_, rfl, rfl, EdgeGraph.numberedBy_of_ofGraph outcome,
        EdgeGraph.numbered_of_ofGraph outcome, size, fun reporter => ?_⟩
      rw [← size]
      rfl
    · intro fault failed
      cases failed

/-- The flow to the end event is there twice; of the two flows from 1 to itself one is divided. -/
def repeating : List Request :=
  looping ++ [.addFlow 1 2]

theorem close_numbers_repeating :
    let session := repeating.foldl serve (start "repeating")
    let unlinked := (repeating.take 4).foldl serve (start "repeating")
    (∃ c, (Workflow.close session.workflow).1 = .closed c ∧ session.records.NumberedBy c.edges ∧
      c.edges.pairs = [(0, 1), (1, 2), (1, 1), (1, 3), (1, 2), (3, 1)] ∧ c.edges.last.val = 1) ∧
    unlinked.serve .close = unlinked ∧
      unlinked.records.close = .error (.malformed (.noEdge 0 .outgoing)) := by
  intro session unlinked
  have building : session.workflow = .draft session.workflow.graph := rfl
  have begun : unlinked.workflow = .draft unlinked.workflow.graph := rfl
  obtain ⟨succeeds, -⟩ := close_numbers "repeating" repeating _ building
  obtain ⟨-, fails⟩ := close_numbers "repeating" (repeating.take 4) _ begun
  obtain ⟨c, closed, -, numbers, -⟩ := succeeds rfl
  obtain ⟨-, stays, ⟨cause, same, lacking⟩, -⟩ :=
    fails (.defect (.malformed (.noEdge 0 .outgoing))) rfl
  cases same
  have pairs : c.edges.pairs = [(0, 1), (1, 2), (1, 1), (1, 3), (1, 2), (3, 1)] :=
    numbers.ends.trans (by decide)
  have last : c.edges.last.val = 1 := by
    obtain ⟨finish, isFinish, least⟩ := numbers.last
    have two : 2 = finish.val := Option.some.inj isFinish
    have listed := congrArg List.head? (numbers.incoming finish)
    rw [← two, List.head?_map, BitSet.head?_toList, least] at listed
    exact (Option.some.inj listed).symm
  exact ⟨⟨c, closed, numbers, pairs, last⟩, stays, lacking⟩

end Session
end WorkflowSoundness
