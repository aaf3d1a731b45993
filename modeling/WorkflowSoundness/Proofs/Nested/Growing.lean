import WorkflowSoundness.Proofs.Nested.Rules
import WorkflowSoundness.Proofs.Subdivision

/-!
Processes with activities put on their flows. An activity can be put on any flow of a process
without a change to its blocks (`exists_grown`), so what is made of the graph of a process by
insertions of activities is drawn by a process with the same blocks (`Draws.subdivided`).
-/

namespace WorkflowSoundness

/-- With `k` added the first list holds what the second holds with `m` added. -/
def Exchanged {α : Type} (k m left right : List α) : Prop :=
  (left ++ k).Perm (right ++ m)

namespace Exchanged

variable {α : Type} {k m left right : List α}

theorem before (exchanged : Exchanged k m left right) (l : List α) :
    Exchanged k m (l ++ left) (l ++ right) := by
  unfold Exchanged at exchanged ⊢
  rw [List.append_assoc, List.append_assoc]
  exact exchanged.append_left l

theorem behind (exchanged : Exchanged k m left right) (l : List α) :
    Exchanged k m (left ++ l) (right ++ l) := by
  unfold Exchanged at exchanged ⊢
  have swap : ∀ a b : List α, ((a ++ l) ++ b).Perm ((a ++ b) ++ l) := fun a b => by
    rw [List.append_assoc, List.append_assoc]
    exact List.perm_append_comm.append_left a
  exact (swap left k).trans ((exchanged.append_right l).trans (swap right m).symm)

theorem cons (exchanged : Exchanged k m left right) (a : α) :
    Exchanged k m (a :: left) (a :: right) :=
  exchanged.before [a]

end Exchanged

namespace Part

variable {shape : Shape}

def flows (b : Part Unit shape) (u w : Nat) : List Flow :=
  (b.arcs u w).map Prod.snd

def nodes (b : Part Unit shape) : List (Nat × NodeKind) :=
  b.stations.map fun station => (station.node, station.kind)

/-- The second part is the first with the activity `n` on one of its flows. -/
structure Grown (b c : Part Unit shape) (u w n : Nat) (flow : Flow) : Prop where
  flows : Exchanged [⟨flow.source, n⟩, ⟨n, flow.target⟩] [flow] (b.flows u w) (c.flows u w)
  nodes : Exchanged [(n, NodeKind.activity)] [] b.nodes c.nodes
  width : c.firsts.length = b.firsts.length
  blocks : c.blocks = b.blocks

/-- The activity may come first in a sequence. -/
theorem exists_grown_first (b : Part Unit .sequence) (u w n : Nat) :
    ∃ t T, b.flows u w = ⟨u, t⟩ :: T ∧ b.Grown (.activity () n b) u w n ⟨u, t⟩ := by
  obtain ⟨t, T, head⟩ : ∃ t T, ∀ u, b.flows u w = ⟨u, t⟩ :: T := by
    cases b <;> exact ⟨_, _, fun _ => rfl⟩
  refine ⟨t, T, head u, ?_, ?_, ?_, rfl⟩
  · have later : (activity () n b).flows u w = ⟨u, n⟩ :: ⟨n, t⟩ :: T :=
      congrArg (List.cons _) (head n)
    rw [head, later]
    refine List.perm_iff_count.2 fun x => ?_
    simp only [List.count_append, List.count_cons, List.count_nil]
    omega
  · unfold Exchanged
    rw [List.append_nil]
    exact List.perm_append_singleton (n, NodeKind.activity) b.nodes
  · rw [b.firsts_eq]
    rfl

theorem exists_grown (b : Part Unit shape) {u w : Nat} (n : Nat) {flow : Flow}
    (member : flow ∈ b.flows u w) : ∃ c, b.Grown c u w n flow := by
  -- The flow in front of a sequence gets the activity; any other one lies in a smaller part, which
  -- grows while the parts beside it stay.
  have first : ∀ {b : Part Unit .sequence} {u w t : Nat} {T : List Flow},
      b.flows u w = ⟨u, t⟩ :: T → flow = ⟨u, t⟩ → ∃ c, b.Grown c u w n flow := by
    rintro b u w t T head rfl
    obtain ⟨t', T', head', grown⟩ := b.exists_grown_first u w n
    rw [head] at head'
    obtain ⟨same, -⟩ := List.cons.inj head'
    exact ⟨_, same.symm ▸ grown⟩
  induction b generalizing u w with
  | flow e => exact first rfl (List.mem_singleton.1 member)
  | activity e v rest ih =>
    rcases List.mem_cons.1 member with here | member
    · exact first rfl here
    · obtain ⟨c, grown⟩ := ih (u := v) (w := w) member
      exact ⟨.activity e v c, grown.flows.cons _, grown.nodes.cons _, rfl, grown.blocks⟩
  | block e opening opens branches closing closes rest ihBranches ih =>
    rcases List.mem_cons.1 member with here | member
    · exact first rfl here
    rw [List.map_append] at member
    rcases List.mem_append.1 member with member | member
    · obtain ⟨c, grown⟩ := ihBranches (u := opens) (w := closes) member
      refine ⟨.block e opening opens c closing closes rest, ?_, ?_, rfl, ?_⟩
      · simp only [flows, arcs, List.map_cons, List.map_append]
        exact (grown.flows.behind _).cons _
      · simp only [nodes, stations, List.map_cons, List.map_append]
        exact ((grown.nodes.behind _).cons _).cons _
      · simp only [Part.blocks, grown.blocks, grown.width]
    · obtain ⟨c, grown⟩ := ih (u := closes) (w := w) member
      refine ⟨.block e opening opens branches closing closes c, ?_, ?_, rfl, ?_⟩
      · simp only [flows, arcs, List.map_cons, List.map_append]
        exact (grown.flows.before _).cons _
      · simp only [nodes, stations, List.map_cons, List.map_append]
        exact ((grown.nodes.before _).cons _).cons _
      · simp only [Part.blocks, grown.blocks]
  | loop e merge split body back rest ihBody ihBack ih =>
    rcases List.mem_cons.1 member with here | member
    · exact first rfl here
    rw [List.map_append, List.map_append] at member
    rcases List.mem_append.1 member with member | member
    · obtain ⟨c, grown⟩ := ihBody (u := merge) (w := split) member
      refine ⟨.loop e merge split c back rest, ?_, ?_, rfl, ?_⟩
      · simp only [flows, arcs, List.map_cons, List.map_append]
        exact (grown.flows.behind _).cons _
      · simp only [nodes, stations, List.map_cons, List.map_append]
        exact ((grown.nodes.behind _).cons _).cons _
      · simp only [Part.blocks, grown.blocks]
    rcases List.mem_append.1 member with member | member
    · obtain ⟨c, grown⟩ := ihBack (u := split) (w := merge) member
      refine ⟨.loop e merge split body c rest, ?_, ?_, rfl, ?_⟩
      · simp only [flows, arcs, List.map_cons, List.map_append]
        exact ((grown.flows.behind _).before _).cons _
      · simp only [nodes, stations, List.map_cons, List.map_append]
        exact (((grown.nodes.behind _).before _).cons _).cons _
      · simp only [Part.blocks, grown.blocks]
    · obtain ⟨c, grown⟩ := ih (u := split) (w := w) member
      refine ⟨.loop e merge split body back c, ?_, ?_, rfl, ?_⟩
      · simp only [flows, arcs, List.map_cons, List.map_append]
        exact ((grown.flows.before _).before _).cons _
      · simp only [nodes, stations, List.map_cons, List.map_append]
        exact (((grown.nodes.before _).before _).cons _).cons _
      · simp only [Part.blocks, grown.blocks]
  | one branch ih =>
    obtain ⟨c, grown⟩ := ih member
    exact ⟨.one c, grown.flows, grown.nodes, grown.width, grown.blocks⟩
  | more branch others ih ihOthers =>
    rw [flows, arcs, List.map_append] at member
    rcases List.mem_append.1 member with member | member
    · obtain ⟨c, grown⟩ := ih (u := u) (w := w) member
      refine ⟨.more c others, ?_, ?_, ?_, ?_⟩
      · simp only [flows, arcs, List.map_append]
        exact grown.flows.behind _
      · simp only [nodes, stations, List.map_append]
        exact grown.nodes.behind _
      · simp only [firsts, List.length_append, grown.width]
      · simp only [Part.blocks, grown.blocks]
    · obtain ⟨c, grown⟩ := ihOthers (u := u) (w := w) member
      refine ⟨.more branch c, ?_, ?_, ?_, ?_⟩
      · simp only [flows, arcs, List.map_append]
        exact grown.flows.before _
      · simp only [nodes, stations, List.map_append]
        exact grown.nodes.before _
      · simp only [firsts, List.length_append, grown.width]
      · simp only [Part.blocks, grown.blocks]

end Part

namespace Process.Draws

variable {p : Process Unit} {g h : Graph}

/-- With an activity on one of its flows the graph is drawn by a process with the same blocks. -/
theorem inserted (draws : p.Draws g) {flow : Flow} (present : flow ∈ g.flows) :
    ∃ q : Process Unit, q.Draws (g.insertOn flow present .activity) ∧ q.blocks = p.blocks := by
  obtain ⟨body, grown⟩ := p.body.exists_grown g.order (draws.flows.mem_iff.2 present)
  refine ⟨⟨p.start, p.finish, body⟩, ⟨?_, ?_⟩, grown.blocks⟩
  · have numbered : (g.insertOn flow present .activity).nodes.zipIdx.map
        (fun numbered => (numbered.2, numbered.1.kind)) =
        (g.nodes.zipIdx.map fun numbered => (numbered.2, numbered.1.kind)) ++
          [(g.order, .activity)] := by
      rw [Graph.nodes_insertOn, List.zipIdx_append, List.map_append, Nat.zero_add]
      rfl
    rw [numbered]
    have later := (grown.nodes.cons (p.finish, .finish)).cons (p.start, .start)
    unfold Exchanged at later
    rw [List.append_nil] at later
    exact later.symm.trans (draws.nodes.append_right _)
  · have all : (p.body.flows p.start p.finish).Perm (flow :: g.flows.erase flow) :=
      draws.flows.trans (List.perm_cons_erase present)
    have exchanged := grown.flows
    unfold Exchanged at exchanged
    have both := exchanged.symm.trans (all.append_right _)
    refine (List.perm_append_right_iff [flow]).1 (both.trans ?_)
    rw [Graph.flows_insertOn]
    exact (List.perm_append_singleton flow _).symm

theorem subdivided (draws : p.Draws g) (sub : Graph.Subdivided g h) :
    ∃ q : Process Unit, q.Draws h ∧ q.blocks = p.blocks := by
  induction sub with
  | same => exact ⟨p, draws, rfl⟩
  | insert _ present ih =>
    obtain ⟨q, drawsBefore, same⟩ := ih
    obtain ⟨r, drawsAfter, blocks⟩ := drawsBefore.inserted present
    exact ⟨r, drawsAfter, blocks.trans same⟩

end Process.Draws
end WorkflowSoundness
