import WorkflowSoundness.BitSet.Scan
import WorkflowSoundness.Fault
import WorkflowSoundness.Table

/-!
The edges of a closed workflow graph. Nodes and edges are positions below `order` and
`size`, so looking one up cannot fail. The predecessors of an edge are the edges that enter
its source, the successors those that leave its target.
-/

namespace WorkflowSoundness

/-- The edges of a graph with `order` nodes and `size` edges. -/
structure EdgeGraph where
  order : Nat
  size : Nat
  kind : Table NodeKind order
  ends : Table (Fin order × Fin order) size
  incoming : Table (BitSet size) order
  outgoing : Table (BitSet size) order
  /-- The edge that leaves the start event. -/
  first : Fin size
  /-- The edge that enters the end event. -/
  last : Fin size
  mem_incoming : ∀ (v : Fin order) (e : Fin size), e ∈ incoming[v] ↔ ends[e].2 = v
  mem_outgoing : ∀ (v : Fin order) (e : Fin size), e ∈ outgoing[v] ↔ ends[e].1 = v

namespace EdgeGraph

/-- The incidence sets that a list of edges determines. -/
def ofEnds {order size : Nat} (kind : Table NodeKind order)
    (ends : Table (Fin order × Fin order) size) (first last : Fin size) : EdgeGraph where
  order
  size
  kind
  ends
  incoming := Table.ofFn fun v => .ofFn fun e => ends[e].2 == v
  outgoing := Table.ofFn fun v => .ofFn fun e => ends[e].1 == v
  first
  last
  mem_incoming := by simp [BitSet.mem_ofFn]
  mem_outgoing := by simp [BitSet.mem_ofFn]

variable (E : EdgeGraph)

/-- A set of edges. -/
abbrev Edges : Type :=
  BitSet E.size

/-- The node that an edge leaves. -/
def source (e : Fin E.size) : Fin E.order :=
  E.ends[e].1

/-- The node that an edge enters. -/
def target (e : Fin E.size) : Fin E.order :=
  E.ends[e].2

def kindOf (v : Fin E.order) : NodeKind :=
  E.kind[v]

/-- The edges that enter a node. -/
def entering (v : Fin E.order) : E.Edges :=
  E.incoming[v]

/-- The edges that leave a node. -/
def leaving (v : Fin E.order) : E.Edges :=
  E.outgoing[v]

theorem mem_entering {v : Fin E.order} {e : Fin E.size} :
    e ∈ E.entering v ↔ E.target e = v :=
  E.mem_incoming v e

theorem mem_leaving {v : Fin E.order} {e : Fin E.size} :
    e ∈ E.leaving v ↔ E.source e = v :=
  E.mem_outgoing v e

/-- The edges that enter the source of an edge. -/
def predecessors (e : Fin E.size) : E.Edges :=
  E.entering (E.source e)

/-- The edges that leave the target of an edge. -/
def successors (e : Fin E.size) : E.Edges :=
  E.leaving (E.target e)

theorem mem_predecessors {e p : Fin E.size} :
    p ∈ E.predecessors e ↔ E.target p = E.source e :=
  E.mem_entering

theorem mem_successors {e s : Fin E.size} : s ∈ E.successors e ↔ E.source s = E.target e :=
  E.mem_leaving

theorem mem_successors_iff_mem_predecessors {e s : Fin E.size} :
    s ∈ E.successors e ↔ e ∈ E.predecessors s := by
  rw [mem_successors, mem_predecessors, eq_comm]

/-- The nodes of one kind, in ascending order. -/
def nodesOf (kind : NodeKind) : List (Fin E.order) :=
  (List.finRange E.order).filter fun v => E.kindOf v == kind

theorem mem_nodesOf {kind : NodeKind} {v : Fin E.order} :
    v ∈ E.nodesOf kind ↔ E.kindOf v = kind := by
  simp [nodesOf]

/-- The least edge that enters a node, its only one at a splitting gateway. -/
def soleIncoming (v : Fin E.order) : Except Misuse (Fin E.size) :=
  match (E.entering v).first? with
  | some e => .ok e
  | none => .error (.noEdge v .incoming)

/-- The least edge that leaves a node, its only one at a merging gateway. -/
def soleOutgoing (v : Fin E.order) : Except Misuse (Fin E.size) :=
  match (E.leaving v).first? with
  | some e => .ok e
  | none => .error (.noEdge v .outgoing)

/-- A number as a node, if there is one of that number. -/
def node (v : Nat) : Except Misuse (Fin E.order) :=
  if inside : v < E.order then .ok ⟨v, inside⟩ else .error .indexOutOfBounds

/-- A number as an edge, if there is one of that number. -/
def edge (e : Nat) : Except Misuse (Fin E.size) :=
  if inside : e < E.size then .ok ⟨e, inside⟩ else .error .indexOutOfBounds

/-- An edge with its number and the nodes that it joins. -/
def edgeLine (e : Fin E.size) : String :=
  WorkflowSoundness.edgeLine e (E.source e) (E.target e)

end EdgeGraph
end WorkflowSoundness
