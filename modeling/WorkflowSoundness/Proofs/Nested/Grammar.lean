import WorkflowSoundness.Graph.Basic

/-!
Well-nested processes. Between the start and the end event stands a sequence of activities, blocks
and loops; a block is opened by a splitting gateway, closed by a merging one, and has one or more
branches in between, which are sequences again. A loop is a merge and a split with one sequence
from the merge to the split and one back.

A part of a process is a sequence or the bundle of the branches of one block. Nodes are named by
their numbers; each flow carries a mark, which says nothing in a process as such, and is the
number of an edge where the process is read off a closed graph.
-/

namespace WorkflowSoundness

/-- The gateways that may open a block. -/
abbrev Opening : Type :=
  { kind : NodeKind // kind.isSplitting = true }

/-- The gateways that may close a block. -/
abbrev Closing : Type :=
  { kind : NodeKind // kind.isMerging = true }

inductive Shape where
  | sequence
  | bundle

/-- A sequence begins with the flow into its first element, and the flow behind its last element
ends it. -/
inductive Part (ε : Type) : Shape → Type where
  | flow (e : ε) : Part ε .sequence
  | activity (e : ε) (v : Nat) (rest : Part ε .sequence) : Part ε .sequence
  | block (e : ε) (opening : Opening) (opens : Nat) (branches : Part ε .bundle)
      (closing : Closing) (closes : Nat) (rest : Part ε .sequence) : Part ε .sequence
  | loop (e : ε) (merge split : Nat) (body back rest : Part ε .sequence) : Part ε .sequence
  | one (branch : Part ε .sequence) : Part ε .bundle
  | more (branch : Part ε .sequence) (others : Part ε .bundle) : Part ε .bundle

/-- A node with the flows that enter and leave it. -/
structure Station (ε : Type) where
  node : Nat
  kind : NodeKind
  ins : List ε
  outs : List ε

/-- The two gateways of a block and the number of its branches. -/
structure Block where
  opening : Opening
  opens : Nat
  closing : Closing
  closes : Nat
  width : Nat
  deriving DecidableEq

/-- The gateways belong together. -/
def Block.Matched (block : Block) : Prop :=
  block.opening.val.counterpart = some block.closing.val

instance (block : Block) : Decidable block.Matched :=
  inferInstanceAs (Decidable (_ = _))

namespace Part

variable {ε : Type} {shape : Shape}

/-- The flows that lead into a part. -/
def firsts : {shape : Shape} → Part ε shape → List ε
  | _, .flow e => [e]
  | _, .activity e _ _ => [e]
  | _, .block e _ _ _ _ _ _ => [e]
  | _, .loop e _ _ _ _ _ => [e]
  | _, .one branch => branch.firsts
  | _, .more branch others => branch.firsts ++ others.firsts

/-- The flows that lead out of a part. -/
def lasts : {shape : Shape} → Part ε shape → List ε
  | _, .flow e => [e]
  | _, .activity _ _ rest => rest.lasts
  | _, .block _ _ _ _ _ _ rest => rest.lasts
  | _, .loop _ _ _ _ _ rest => rest.lasts
  | _, .one branch => branch.lasts
  | _, .more branch others => branch.lasts ++ others.lasts

/-- The flows of a part between two nodes, in the order in which it is read. -/
def arcs : {shape : Shape} → Part ε shape → (source target : Nat) → List (ε × Flow)
  | _, .flow e, u, w => [(e, ⟨u, w⟩)]
  | _, .activity e v rest, u, w => (e, ⟨u, v⟩) :: rest.arcs v w
  | _, .block e _ opens branches _ closes rest, u, w =>
    (e, ⟨u, opens⟩) :: (branches.arcs opens closes ++ rest.arcs closes w)
  | _, .loop e merge split body back rest, u, w =>
    (e, ⟨u, merge⟩) :: (body.arcs merge split ++ (back.arcs split merge ++ rest.arcs split w))
  | _, .one branch, u, w => branch.arcs u w
  | _, .more branch others, u, w => branch.arcs u w ++ others.arcs u w

/-- The nodes inside a part. -/
def stations : {shape : Shape} → Part ε shape → List (Station ε)
  | _, .flow _ => []
  | _, .activity e v rest => ⟨v, .activity, [e], rest.firsts⟩ :: rest.stations
  | _, .block e opening opens branches closing closes rest =>
    ⟨opens, opening, [e], branches.firsts⟩ :: ⟨closes, closing, branches.lasts, rest.firsts⟩ ::
      (branches.stations ++ rest.stations)
  | _, .loop e merge split body back rest =>
    ⟨merge, .merge, e :: back.lasts, body.firsts⟩ ::
      ⟨split, .split, body.lasts, back.firsts ++ rest.firsts⟩ ::
        (body.stations ++ (back.stations ++ rest.stations))
  | _, .one branch => branch.stations
  | _, .more branch others => branch.stations ++ others.stations

/-- The blocks inside a part, also those inside other blocks. -/
def blocks : {shape : Shape} → Part ε shape → List Block
  | _, .flow _ => []
  | _, .activity _ _ rest => rest.blocks
  | _, .block _ opening opens branches closing closes rest =>
    ⟨opening, opens, closing, closes, branches.firsts.length⟩ :: (branches.blocks ++ rest.blocks)
  | _, .loop _ _ _ body back rest => body.blocks ++ (back.blocks ++ rest.blocks)
  | _, .one branch => branch.blocks
  | _, .more branch others => branch.blocks ++ others.blocks

end Part

/-- A process runs from its start event through its body to its end event. -/
structure Process (ε : Type) where
  start : Nat
  finish : Nat
  body : Part ε .sequence

namespace Process

variable {ε : Type} (p : Process ε)

def arcs : List (ε × Flow) :=
  p.body.arcs p.start p.finish

def stations : List (Station ε) :=
  ⟨p.start, .start, [], p.body.firsts⟩ :: ⟨p.finish, .finish, p.body.lasts, []⟩ :: p.body.stations

def blocks : List Block :=
  p.body.blocks

/-- The graph has the nodes and the flows of the process, in any order. -/
structure Draws (p : Process Unit) (g : Graph) : Prop where
  nodes : (p.stations.map fun station => (station.node, station.kind)).Perm
    (g.nodes.zipIdx.map fun numbered => (numbered.2, numbered.1.kind))
  flows : (p.arcs.map Prod.snd).Perm g.flows

end Process
end WorkflowSoundness
