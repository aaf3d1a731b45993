import Mathlib.Data.List.Nodup
import WorkflowSoundness.Proofs.Closing
import WorkflowSoundness.Proofs.Nested.Grammar

/-!
A process read off a closed graph. Where a process draws a graph, the edges of the closed graph can
be put in place of its flows (`exists_fits`); then the flows that enter and leave each node of the
process are exactly the edges that enter and leave that node of the graph.
-/

namespace WorkflowSoundness

namespace Part

variable {ε δ : Type} {shape : Shape}

/-- The marks of a part in the order in which it is read. -/
def edges : {shape : Shape} → Part ε shape → List ε
  | _, .flow e => [e]
  | _, .activity e _ rest => e :: rest.edges
  | _, .block e _ _ branches _ _ rest => e :: (branches.edges ++ rest.edges)
  | _, .loop e _ _ body back rest => e :: (body.edges ++ (back.edges ++ rest.edges))
  | _, .one branch => branch.edges
  | _, .more branch others => branch.edges ++ others.edges

/-- Each edge of a part is the mark of one arc, in the same order. -/
theorem map_fst_arcs (b : Part ε shape) (u w : Nat) : (b.arcs u w).map Prod.fst = b.edges := by
  induction b generalizing u w with
  | flow => rfl
  | activity e v rest ih => simp only [arcs, edges, List.map_cons, ih]
  | block e _ _ branches _ _ rest ihBranches ih =>
    simp only [arcs, edges, List.map_cons, List.map_append, ihBranches, ih]
  | loop e _ _ body back rest ihBody ihBack ih =>
    simp only [arcs, edges, List.map_cons, List.map_append, ihBody, ihBack, ih]
  | one branch ih => exact ih u w
  | more branch others ih ihOthers => simp only [arcs, edges, List.map_append, ih, ihOthers]

/-! ### Other marks -/

/-- The two parts differ only in their marks. -/
structure Alike (b : Part ε shape) (c : Part δ shape) : Prop where
  width : b.firsts.length = c.firsts.length
  flows : ∀ u w, (b.arcs u w).map Prod.snd = (c.arcs u w).map Prod.snd
  nodes : (b.stations.map fun station => (station.node, station.kind)) =
    c.stations.map fun station => (station.node, station.kind)
  blocks : b.blocks = c.blocks

/-- The marks of a part can be exchanged for those of any list that is as long. -/
theorem exists_alike (b : Part ε shape) (l : List δ) (enough : l.length = b.edges.length) :
    ∃ c : Part δ shape, c.edges = l ∧ Alike b c := by
  induction b generalizing l with
  | flow e =>
    obtain ⟨d, rfl⟩ := List.length_eq_one_iff.1 enough
    exact ⟨.flow d, rfl, ⟨rfl, fun _ _ => rfl, rfl, rfl⟩⟩
  | activity e v rest ih =>
    obtain ⟨d, l, rfl⟩ := List.exists_cons_of_length_eq_add_one enough
    obtain ⟨rest', edges, alike⟩ := ih l (Nat.succ.inj enough)
    refine ⟨.activity d v rest', congrArg (d :: ·) edges, rfl, fun u w => ?_, ?_, alike.blocks⟩
    · simp only [arcs, List.map_cons, alike.flows]
    · simp only [stations, List.map_cons, alike.nodes]
  | block e opening opens branches closing closes rest ihBranches ih =>
    obtain ⟨d, l, rfl⟩ := List.exists_cons_of_length_eq_add_one enough
    have total := Nat.succ.inj enough
    rw [List.length_append] at total
    obtain ⟨branches', edgesBranches, alikeBranches⟩ :=
      ihBranches (l.take branches.edges.length) (by rw [List.length_take]; omega)
    obtain ⟨rest', edges, alike⟩ :=
      ih (l.drop branches.edges.length) (by rw [List.length_drop]; omega)
    refine ⟨.block d opening opens branches' closing closes rest', ?_, rfl, fun u w => ?_, ?_, ?_⟩
    · simp only [Part.edges, edgesBranches, edges, List.take_append_drop]
    · simp only [arcs, List.map_cons, List.map_append, alikeBranches.flows, alike.flows]
    · simp only [stations, List.map_cons, List.map_append, alikeBranches.nodes, alike.nodes]
    · simp only [Part.blocks, alikeBranches.width, alikeBranches.blocks, alike.blocks]
  | loop e merge split body back rest ihBody ihBack ih =>
    obtain ⟨d, l, rfl⟩ := List.exists_cons_of_length_eq_add_one enough
    have total := Nat.succ.inj enough
    rw [List.length_append, List.length_append] at total
    obtain ⟨body', edgesBody, alikeBody⟩ :=
      ihBody (l.take body.edges.length) (by rw [List.length_take]; omega)
    obtain ⟨back', edgesBack, alikeBack⟩ :=
      ihBack ((l.drop body.edges.length).take back.edges.length) (by
        rw [List.length_take, List.length_drop]; omega)
    obtain ⟨rest', edges, alike⟩ :=
      ih ((l.drop body.edges.length).drop back.edges.length) (by
        rw [List.length_drop, List.length_drop]; omega)
    refine ⟨.loop d merge split body' back' rest', ?_, rfl, fun u w => ?_, ?_, ?_⟩
    · simp only [Part.edges, edgesBody, edgesBack, edges, List.take_append_drop]
    · simp only [arcs, List.map_cons, List.map_append, alikeBody.flows, alikeBack.flows,
        alike.flows]
    · simp only [stations, List.map_cons, List.map_append, alikeBody.nodes, alikeBack.nodes,
        alike.nodes]
    · simp only [Part.blocks, alikeBody.blocks, alikeBack.blocks, alike.blocks]
  | one branch ih =>
    obtain ⟨branch', edges, alike⟩ := ih l enough
    exact ⟨.one branch', edges, alike.width, alike.flows, alike.nodes, alike.blocks⟩
  | more branch others ih ihOthers =>
    rw [Part.edges, List.length_append] at enough
    obtain ⟨branch', edges, alike⟩ :=
      ih (l.take branch.edges.length) (by rw [List.length_take]; omega)
    obtain ⟨others', edgesOthers, alikeOthers⟩ :=
      ihOthers (l.drop branch.edges.length) (by rw [List.length_drop]; omega)
    refine ⟨.more branch' others', ?_, ?_, fun u w => ?_, ?_, ?_⟩
    · simp only [Part.edges, edgesOthers, edges, List.take_append_drop]
    · simp only [firsts, List.length_append, alike.width, alikeOthers.width]
    · simp only [arcs, List.map_append, alike.flows, alikeOthers.flows]
    · simp only [stations, List.map_append, alike.nodes, alikeOthers.nodes]
    · simp only [Part.blocks, alike.blocks, alikeOthers.blocks]

/-! ### Ends of flows -/

/-- The first edges leave the node that the part hangs on. -/
theorem arc_of_firsts (b : Part ε shape) {u w : Nat} {e : ε} (first : e ∈ b.firsts) :
    ∃ v, (e, ⟨u, v⟩) ∈ b.arcs u w := by
  induction b with
  | flow | activity | block | loop =>
    obtain rfl := List.mem_singleton.1 first
    exact ⟨_, List.mem_cons_self⟩
  | one _ ih => exact ih first
  | more _ _ ih ihOthers =>
    rcases List.mem_append.1 first with first | first
    · obtain ⟨v, arc⟩ := ih first
      exact ⟨v, List.mem_append_left _ arc⟩
    · obtain ⟨v, arc⟩ := ihOthers first
      exact ⟨v, List.mem_append_right _ arc⟩

/-- The last edges enter the node that the part leads to. -/
theorem arc_of_lasts (b : Part ε shape) {u w : Nat} {e : ε} (last : e ∈ b.lasts) :
    ∃ v, (e, ⟨v, w⟩) ∈ b.arcs u w := by
  induction b generalizing u with
  | flow =>
    obtain rfl := List.mem_singleton.1 last
    exact ⟨_, List.mem_cons_self⟩
  | activity _ _ _ ih =>
    obtain ⟨v, arc⟩ := ih last
    exact ⟨v, List.mem_cons_of_mem _ arc⟩
  | block _ _ _ _ _ _ _ _ ih =>
    obtain ⟨v, arc⟩ := ih last
    exact ⟨v, List.mem_cons_of_mem _ (List.mem_append_right _ arc)⟩
  | loop _ _ _ _ _ _ _ _ ih =>
    obtain ⟨v, arc⟩ := ih last
    exact ⟨v, List.mem_cons_of_mem _ (List.mem_append_right _ (List.mem_append_right _ arc))⟩
  | one _ ih => exact ih last
  | more _ _ ih ihOthers =>
    rcases List.mem_append.1 last with last | last
    · obtain ⟨v, arc⟩ := ih last
      exact ⟨v, List.mem_append_left _ arc⟩
    · obtain ⟨v, arc⟩ := ihOthers last
      exact ⟨v, List.mem_append_right _ arc⟩

/-- Among the arcs are all flows of the station, with its node at their end. -/
def Attached (arcs : List (ε × Flow)) (station : Station ε) : Prop :=
  (∀ e ∈ station.ins, ∃ v, (e, ⟨v, station.node⟩) ∈ arcs) ∧
  ∀ e ∈ station.outs, ∃ v, (e, ⟨station.node, v⟩) ∈ arcs

theorem Attached.mono {l l' : List (ε × Flow)} {station : Station ε} (within : l ⊆ l')
    (attached : Attached l station) : Attached l' station :=
  ⟨fun e enters => (attached.1 e enters).imp fun _ arc => within arc,
    fun e leaves => (attached.2 e leaves).imp fun _ arc => within arc⟩

theorem attached_arcs (b : Part ε shape) {u w : Nat} {station : Station ε}
    (member : station ∈ b.stations) : Attached (b.arcs u w) station := by
  induction b generalizing u w with
  | flow => cases member
  | activity d v rest ih =>
    have inRest : rest.arcs v w ⊆ (activity d v rest).arcs u w := List.subset_cons_self _ _
    rcases List.mem_cons.1 member with rfl | member
    · refine ⟨fun e enters => ?_, fun e leaves => ?_⟩
      · obtain rfl := List.mem_singleton.1 enters
        exact ⟨u, List.mem_cons_self⟩
      · exact (arc_of_firsts rest leaves).imp fun _ arc => inRest arc
    · exact .mono inRest (ih member)
  | block d opening opens branches closing closes rest ihBranches ih =>
    have later : branches.arcs opens closes ++ rest.arcs closes w ⊆
        (block d opening opens branches closing closes rest).arcs u w := List.subset_cons_self _ _
    have inBranches := List.Subset.trans (List.subset_append_left _ _) later
    have inRest := List.Subset.trans (List.subset_append_right _ _) later
    simp only [stations, List.mem_cons, List.mem_append] at member
    rcases member with rfl | rfl | member | member
    · refine ⟨fun e enters => ?_, fun e leaves => ?_⟩
      · obtain rfl := List.mem_singleton.1 enters
        exact ⟨u, List.mem_cons_self⟩
      · exact (arc_of_firsts branches leaves).imp fun _ arc => inBranches arc
    · exact ⟨fun e enters => (arc_of_lasts branches enters).imp fun _ arc => inBranches arc,
        fun e leaves => (arc_of_firsts rest leaves).imp fun _ arc => inRest arc⟩
    · exact .mono inBranches (ihBranches member)
    · exact .mono inRest (ih member)
  | loop d merge split body back rest ihBody ihBack ih =>
    have later : body.arcs merge split ++ (back.arcs split merge ++ rest.arcs split w) ⊆
        (loop d merge split body back rest).arcs u w := List.subset_cons_self _ _
    have inBody := List.Subset.trans (List.subset_append_left _ _) later
    have behind := List.Subset.trans (List.subset_append_right _ _) later
    have inBack := List.Subset.trans (List.subset_append_left _ _) behind
    have inRest := List.Subset.trans (List.subset_append_right _ _) behind
    simp only [stations, List.mem_cons, List.mem_append] at member
    rcases member with rfl | rfl | member | member | member
    · refine ⟨fun e enters => ?_, fun e leaves => ?_⟩
      · rcases List.mem_cons.1 enters with rfl | enters
        · exact ⟨u, List.mem_cons_self⟩
        · exact (arc_of_lasts back enters).imp fun _ arc => inBack arc
      · exact (arc_of_firsts body leaves).imp fun _ arc => inBody arc
    · refine ⟨fun e enters => (arc_of_lasts body enters).imp fun _ arc => inBody arc,
        fun e leaves => ?_⟩
      rcases List.mem_append.1 leaves with leaves | leaves
      · exact (arc_of_firsts back leaves).imp fun _ arc => inBack arc
      · exact (arc_of_firsts rest leaves).imp fun _ arc => inRest arc
    · exact .mono inBody (ihBody member)
    · exact .mono inBack (ihBack member)
    · exact .mono inRest (ih member)
  | one _ ih => exact ih member
  | more _ _ ih ihOthers =>
    rcases List.mem_append.1 member with member | member
    · exact .mono (List.subset_append_left _ _) (ih member)
    · exact .mono (List.subset_append_right _ _) (ihOthers member)

theorem mem_edges_of_arc {b : Part ε shape} {u w : Nat} {arc : ε × Flow}
    (member : arc ∈ b.arcs u w) : arc.1 ∈ b.edges :=
  b.map_fst_arcs u w ▸ List.mem_map_of_mem member

theorem firsts_subset (b : Part ε shape) : b.firsts ⊆ b.edges := fun _ first => by
  obtain ⟨v, arc⟩ := b.arc_of_firsts (u := 0) (w := 0) first
  exact mem_edges_of_arc arc

theorem lasts_subset (b : Part ε shape) : b.lasts ⊆ b.edges := fun _ last => by
  obtain ⟨v, arc⟩ := b.arc_of_lasts (u := 0) (w := 0) last
  exact mem_edges_of_arc arc

theorem ins_subset (b : Part ε shape) {station : Station ε} (member : station ∈ b.stations) :
    station.ins ⊆ b.edges := fun _ enters => by
  obtain ⟨v, arc⟩ := (b.attached_arcs (u := 0) (w := 0) member).1 _ enters
  exact mem_edges_of_arc arc

theorem outs_subset (b : Part ε shape) {station : Station ε} (member : station ∈ b.stations) :
    station.outs ⊆ b.edges := fun _ leaves => by
  obtain ⟨v, arc⟩ := (b.attached_arcs (u := 0) (w := 0) member).2 _ leaves
  exact mem_edges_of_arc arc

/-- A flow of a part leads into the part or leaves a node inside. -/
theorem firsts_or_outs (b : Part ε shape) {e : ε} (inside : e ∈ b.edges) :
    e ∈ b.firsts ∨ ∃ station ∈ b.stations, e ∈ station.outs := by
  induction b with
  | flow => exact Or.inl inside
  | activity d v rest ih =>
    simp only [firsts, stations, List.mem_cons, exists_eq_or_imp, List.not_mem_nil, or_false]
    exact (List.mem_cons.1 inside).imp_right ih
  | block d _ _ branches _ _ rest ihBranches ih =>
    simp only [firsts, stations, List.mem_cons, List.mem_append, or_and_right, exists_or,
      exists_eq_left, List.not_mem_nil, or_false]
    simp only [edges, List.mem_cons, List.mem_append] at inside
    rcases inside with here | inside | inside
    · exact Or.inl here
    · exact Or.inr ((ihBranches inside).imp_right fun found => Or.inr (Or.inl found))
    · exact Or.inr (Or.inr ((ih inside).imp_right Or.inr))
  | loop d _ _ body back rest ihBody ihBack ih =>
    simp only [firsts, stations, List.mem_cons, List.mem_append, or_and_right, exists_or,
      exists_eq_left, List.not_mem_nil, or_false]
    simp only [edges, List.mem_cons, List.mem_append] at inside
    rcases inside with here | inside | inside | inside
    · exact Or.inl here
    · exact Or.inr ((ihBody inside).imp_right fun found => Or.inr (Or.inl found))
    · exact Or.inr (Or.inr ((ihBack inside).imp Or.inl fun found => Or.inr (Or.inl found)))
    · exact Or.inr (Or.inr ((ih inside).imp Or.inr fun found => Or.inr (Or.inr found)))
  | one _ ih => exact ih inside
  | more _ _ ih ihOthers =>
    simp only [firsts, stations, List.mem_append, or_and_right, exists_or]
    rcases List.mem_append.1 inside with inside | inside
    · exact (ih inside).imp Or.inl Or.inl
    · exact (ihOthers inside).imp Or.inr Or.inr

/-- A flow of a part leads out of the part or enters a node inside. -/
theorem lasts_or_ins (b : Part ε shape) {e : ε} (inside : e ∈ b.edges) :
    e ∈ b.lasts ∨ ∃ station ∈ b.stations, e ∈ station.ins := by
  induction b with
  | flow => exact Or.inl inside
  | activity d v rest ih =>
    simp only [lasts, stations, List.mem_cons, exists_eq_or_imp, List.not_mem_nil, or_false]
    rcases List.mem_cons.1 inside with here | inside
    · exact Or.inr (Or.inl here)
    · exact (ih inside).imp_right Or.inr
  | block d _ _ branches _ _ rest ihBranches ih =>
    simp only [lasts, stations, List.mem_cons, List.mem_append, or_and_right, exists_or,
      exists_eq_left, List.not_mem_nil, or_false]
    simp only [edges, List.mem_cons, List.mem_append] at inside
    rcases inside with here | inside | inside
    · exact Or.inr (Or.inl here)
    · exact Or.inr (Or.inr ((ihBranches inside).imp_right Or.inl))
    · exact (ih inside).imp_right fun found => Or.inr (Or.inr (Or.inr found))
  | loop d _ _ body back rest ihBody ihBack ih =>
    simp only [lasts, stations, List.mem_cons, List.mem_append, or_and_right, exists_or,
      exists_eq_left]
    simp only [edges, List.mem_cons, List.mem_append] at inside
    rcases inside with here | inside | inside | inside
    · exact Or.inr (Or.inl (Or.inl here))
    · exact Or.inr (Or.inr ((ihBody inside).imp_right Or.inl))
    · exact Or.inr ((ihBack inside).imp Or.inr fun found => Or.inr (Or.inr (Or.inl found)))
    · exact (ih inside).imp_right fun found => Or.inr (Or.inr (Or.inr (Or.inr found)))
  | one _ ih => exact ih inside
  | more _ _ ih ihOthers =>
    simp only [lasts, stations, List.mem_append, or_and_right, exists_or]
    rcases List.mem_append.1 inside with inside | inside
    · exact (ih inside).imp Or.inl Or.inl
    · exact (ihOthers inside).imp Or.inr Or.inr

end Part

/-! ### Processes on the edges of a graph -/

/-- A node with the kind and the edges that it has in the graph. -/
structure EdgeGraph.Stands (E : EdgeGraph) (station : Station (Fin E.size)) : Prop where
  inside : station.node < E.order
  kind : E.kindOf ⟨station.node, inside⟩ = station.kind
  ins : ∀ e, (E.target e).val = station.node ↔ e ∈ station.ins
  outs : ∀ e, (E.source e).val = station.node ↔ e ∈ station.outs

/-- All nodes and edges of the graph are in their places in the process. -/
structure Process.Fits {E : EdgeGraph} (p : Process (Fin E.size)) : Prop where
  once : p.body.edges.Nodup
  all : ∀ e, e ∈ p.body.edges
  covers : ∀ v : Fin E.order, ∃ station ∈ p.stations, station.node = v.val
  stands : ∀ station ∈ p.stations, E.Stands station

section Reading

variable {g : Graph} {E : EdgeGraph} {p : Process Unit} (numbered : Numbered g E)
  (draws : p.Draws g)

include draws in
theorem Process.Draws.nodup_nodes : (p.stations.map Station.node).Nodup := by
  have nodes := draws.nodes.map Prod.fst
  rw [List.map_map, List.map_map] at nodes
  refine nodes.nodup_iff.2 ?_
  have range : g.nodes.zipIdx.map (Prod.fst ∘ fun numbered : Node × Nat =>
      (numbered.2, numbered.1.kind)) = List.range' 0 g.nodes.length :=
    List.zipIdx_map_snd 0 g.nodes
  rw [range]
  exact List.nodup_range'

include draws in
/-- The stations are the nodes of the graph, with their kinds. -/
theorem Process.Draws.mem_nodes {v : Nat} {kind : NodeKind} :
    (v, kind) ∈ p.stations.map (fun station => (station.node, station.kind)) ↔
      g.kind? v = some kind := by
  rw [draws.nodes.mem_iff, List.mem_map, Graph.kind?, Option.map_eq_some_iff]
  constructor
  · rintro ⟨⟨node, w⟩, member, same⟩
    obtain ⟨rfl, rfl⟩ := Prod.mk.inj same
    exact ⟨node, List.mem_zipIdx_iff_getElem?.1 member, rfl⟩
  · rintro ⟨node, known, rfl⟩
    exact ⟨(node, v), List.mem_zipIdx_iff_getElem?.2 known, rfl⟩

namespace Process

/-- A flow of a process leaves one of its nodes. -/
theorem mem_outs {ε : Type} (p : Process ε) {e : ε} (inside : e ∈ p.body.edges) :
    ∃ station ∈ p.stations, e ∈ station.outs := by
  rcases p.body.firsts_or_outs inside with first | ⟨station, member, leaves⟩
  · exact ⟨_, List.mem_cons_self, first⟩
  · exact ⟨station, List.mem_cons_of_mem _ (List.mem_cons_of_mem _ member), leaves⟩

theorem mem_ins {ε : Type} (p : Process ε) {e : ε} (inside : e ∈ p.body.edges) :
    ∃ station ∈ p.stations, e ∈ station.ins := by
  rcases p.body.lasts_or_ins inside with last | ⟨station, member, enters⟩
  · exact ⟨_, List.mem_cons_of_mem _ List.mem_cons_self, last⟩
  · exact ⟨station, List.mem_cons_of_mem _ (List.mem_cons_of_mem _ member), enters⟩

theorem attached_arcs {ε : Type} (p : Process ε) {station : Station ε}
    (member : station ∈ p.stations) : Part.Attached p.arcs station := by
  rcases List.mem_cons.1 member with rfl | member
  · exact ⟨fun e enters => (nomatch enters), fun e leaves => p.body.arc_of_firsts leaves⟩
  rcases List.mem_cons.1 member with rfl | member
  · exact ⟨fun e enters => p.body.arc_of_lasts enters, fun e leaves => (nomatch leaves)⟩
  · exact p.body.attached_arcs member

end Process

include numbered draws in
/-- A process with the nodes of one that draws the graph fits if its flows are the edges. -/
theorem Process.Draws.fits_of_arcs {q : Process (Fin E.size)}
    (perm : q.body.edges.Perm (List.finRange E.size))
    (nodes : q.stations.map (fun station => (station.node, station.kind)) =
      p.stations.map fun station => (station.node, station.kind))
    (arcs : ∀ arc ∈ q.arcs, arc.2 = (⟨(E.source arc.1).val, (E.target arc.1).val⟩ : Flow)) :
    q.Fits := by
  have once : (q.stations.map Station.node).Nodup := by
    have firsts := congrArg (List.map Prod.fst) nodes
    rw [List.map_map, List.map_map] at firsts
    have asNodes : q.stations.map Station.node = p.stations.map Station.node := firsts
    exact asNodes ▸ draws.nodup_nodes
  have target : ∀ st ∈ q.stations, ∀ e ∈ st.ins, (E.target e).val = st.node := by
    intro st member e enters
    obtain ⟨v, arc⟩ := (q.attached_arcs member).1 e enters
    exact (congrArg Flow.target (arcs _ arc)).symm
  have source : ∀ st ∈ q.stations, ∀ e ∈ st.outs, (E.source e).val = st.node := by
    intro st member e leaves
    obtain ⟨v, arc⟩ := (q.attached_arcs member).2 e leaves
    exact (congrArg Flow.source (arcs _ arc)).symm
  have all : ∀ e, e ∈ q.body.edges := fun e => perm.mem_iff.2 (List.mem_finRange e)
  refine
    { once := perm.nodup_iff.2 (List.nodup_finRange _)
      all
      covers := fun v => ?_
      stands := fun st member => ?_ }
  · have known := draws.mem_nodes.2 (numbered.kind v)
    rw [← nodes] at known
    obtain ⟨st, member, same⟩ := List.mem_map.1 known
    exact ⟨st, member, congrArg Prod.fst same⟩
  · have known : g.kind? st.node = some st.kind := by
      refine draws.mem_nodes.1 ?_
      rw [← nodes]
      exact List.mem_map.2 ⟨st, member, rfl⟩
    have inside : st.node < E.order := numbered.order_eq ▸ Graph.lt_order_of_kind? known
    have unique : ∀ other ∈ q.stations, other.node = st.node → other = st := fun other isOther =>
      List.inj_on_of_nodup_map once isOther member
    refine ⟨inside, ?_, fun e => ⟨fun enters => ?_, target st member e⟩, fun e =>
      ⟨fun leaves => ?_, source st member e⟩⟩
    · exact Option.some.inj ((numbered.kind ⟨st.node, inside⟩).symm.trans known)
    · obtain ⟨other, isOther, found⟩ := q.mem_ins (all e)
      exact unique other isOther ((target other isOther e found).symm.trans enters) ▸ found
    · obtain ⟨other, isOther, found⟩ := q.mem_outs (all e)
      exact unique other isOther ((source other isOther e found).symm.trans leaves) ▸ found

include numbered draws in
/-- The edges of a closed graph can take the places of the flows of a process that draws it. -/
theorem exists_fits : ∃ q : Process (Fin E.size), q.Fits ∧ q.start = p.start ∧
    q.finish = p.finish ∧ q.blocks = p.blocks := by
  obtain ⟨l, same, ends⟩ := exists_perm_map (numbered.flows.trans draws.flows.symm)
  have enough : l.length = p.body.edges.length := by
    have lengths := congrArg List.length ends
    rw [List.length_map, List.length_map] at lengths
    rw [lengths, ← p.body.map_fst_arcs p.start p.finish, List.length_map]
    rfl
  obtain ⟨body, rfl, alike⟩ := p.body.exists_alike l enough
  refine ⟨⟨p.start, p.finish, body⟩, ?_, rfl, rfl, alike.blocks.symm⟩
  refine draws.fits_of_arcs numbered same ?_ ?_
  · simp only [Process.stations, List.map_cons, alike.nodes]
  · have both : (body.arcs p.start p.finish).map Prod.snd =
        ((body.arcs p.start p.finish).map Prod.fst).map fun e =>
          (⟨(E.source e).val, (E.target e).val⟩ : Flow) := by
      rw [Part.map_fst_arcs, ends, ← alike.flows]
      rfl
    rw [List.map_map] at both
    exact List.map_inj_left.1 both

end Reading
end WorkflowSoundness
