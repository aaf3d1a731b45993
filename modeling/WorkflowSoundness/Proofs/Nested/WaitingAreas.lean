import WorkflowSoundness.Proofs.Nested.Verdict
import WorkflowSoundness.Proofs.WaitingAreas

/-!
Waiting areas of the or-joins of blocks. No edge inside a block of several branches dominates or
post-dominates the edge that leaves the block, while the edge that enters the block does dominate
it. So the search back from the or-join takes in all branches and stops where the block begins
(`mem_areaOf_closer`), whatever is around the block.
-/

namespace WorkflowSoundness

/-- The edge lies on a walk from the node `u` to the node `w` that passes neither in between. -/
def EdgeGraph.Between (E : EdgeGraph) (u w : Nat) (e : Fin E.size) : Prop :=
  ∃ first last, (E.source first).val = u ∧ (E.target last).val = w ∧
    Trail E.successors (fun x => (E.target x).val ≠ u ∧ (E.source x).val ≠ w) first e ∧
      Trail E.successors (fun x => (E.target x).val ≠ u ∧ (E.source x).val ≠ w) e last

namespace Frame.Stands

variable {E : EdgeGraph} {frame : Frame (Fin E.size)} (stands : frame.Stands) {e : Fin E.size}

include stands

/-- The branches of a block are what lies between its gateways. -/
theorem mem_branches_iff :
    e ∈ frame.branches.edges ↔ E.Between frame.block.opens frame.block.closes e := by
  constructor
  · intro inside
    have apart : ∀ x ∈ frame.branches.edges, (E.target x).val ≠ frame.block.opens ∧
        (E.source x).val ≠ frame.block.closes := fun x within =>
      ⟨fun opens => stands.entry_outside (stands.target_eq_opener.1 (Fin.ext opens) ▸ within),
        fun closes => stands.exit_outside (stands.source_eq_closer.1 (Fin.ext closes) ▸ within)⟩
    obtain ⟨⟨first, opens, before⟩, last, closes, after⟩ := stands.branches.trails e inside
    exact ⟨first, last, congrArg Fin.val (stands.source_eq_opener.2 opens),
      congrArg Fin.val (stands.target_eq_closer.2 closes), before.mono apart, after.mono apart⟩
  · rintro ⟨first, last, opens, -, before, -⟩
    have start := frame.branches.firsts_subset (stands.source_eq_opener.1 (Fin.ext opens))
    clear opens
    induction before with
    | stay => exact start
    | step _ next rest ih =>
      refine ih (stands.branches.next_inside start (fun closes => rest.start.2 ?_) next)
      rw [E.mem_successors.1 next]
      exact congrArg Fin.val (stands.target_eq_closer.2 closes)

variable (valid : E.Valid)

include valid

/-- A walk from the exit of a block to the end event need not come into the block again. -/
theorem not_fired (inside : e ∈ frame.branches.edges) :
    e ∉ (E.dominanceOf .backward).dominatorsOf frame.exit := by
  intro fired
  obtain ⟨body, member, within⟩ := exists_body inside
  have behind := (stands.region member).reverse.entry_dominates valid within
  have same := ((Dominance.mem_dominatorsOf_iff (valid.reached .backward _)).1 fired).antisymm
    (valid.reached .backward _) behind
  exact stands.exit_outside (same ▸ inside)

variable (several : 2 ≤ frame.branches.firsts.length)

include several

theorem not_strictlyDominates (inside : e ∈ frame.branches.edges) :
    ¬ (E.dominanceOf .forward).strictlyDominates e frame.exit = true := by
  intro dominates
  obtain ⟨body, member, within⟩ := exists_body inside
  obtain ⟨body', member', other⟩ := stands.exists_other several body
  exact (stands.region member).not_dominates_exit (stands.region member')
    (stands.apart member member' other) valid within
    ((Dominance.strictlyDominates_iff (valid.reached .forward _)).1 dominates).2

omit several in
theorem entry_strictlyDominates :
    (E.dominanceOf .forward).strictlyDominates frame.entry frame.exit = true := by
  obtain ⟨f, first⟩ := frame.branches.exists_first
  obtain ⟨body, member, -⟩ := exists_body (frame.branches.firsts_subset first)
  have region := stands.region member
  exact (Dominance.strictlyDominates_iff (valid.reached .forward _)).2
    ⟨region.entry_ne_exit valid stands.closed, region.entry_dominates_exit valid stands.closed⟩

/-- The search back from the closing gateway finds the branches of the block. -/
theorem mem_areaOf_closer :
    e ∈ WaitingArea.areaOf (E.dominanceOf .forward) (E.dominanceOf .backward) stands.closer
      frame.exit ↔ e ∈ frame.branches.edges := by
  have seed : ∀ {a}, a ∈ (E.entering stands.closer \
      (E.dominanceOf .backward).dominatorsOf frame.exit).toList ↔ a ∈ frame.branches.lasts := by
    intro a
    rw [BitSet.mem_toList, BitSet.mem_sdiff, E.mem_entering, stands.target_eq_closer]
    exact and_iff_left_of_imp fun last =>
      stands.not_fired valid (frame.branches.lasts_subset last)
  rw [WaitingArea.areaOf, BitSet.mem_reach_trail_iff]
  constructor
  · rintro ⟨a, last, trail⟩
    have inside := frame.branches.lasts_subset (seed.1 last)
    clear last
    induction trail with
    | stay => exact inside
    | @step a p _ _ back _ ih =>
      obtain ⟨next, -, free⟩ := EdgeGraph.mem_back_iff.1 back
      refine ih (stands.branches.before_inside inside (fun first => free ?_) next)
      have entry := stands.opens.ins_of_next first next
      exact List.mem_singleton.1 entry ▸ stands.entry_strictlyDominates valid
  · intro inside
    obtain ⟨-, l, last, trail⟩ := stands.branches.trails e inside
    have back : Trail E.predecessors (· ∈ frame.branches.edges) l e :=
      trail.reverse fun _ _ => E.mem_successors_iff_mem_predecessors.1
    refine ⟨l, seed.2 last,
      Trail.mono (back.map fun a p _ within previous => ?_) fun _ _ => trivial⟩
    exact EdgeGraph.mem_back_iff.2 ⟨E.mem_successors_iff_mem_predecessors.2 previous,
      stands.not_fired valid within, stands.not_strictlyDominates valid several within⟩

end Frame.Stands

section Blocks

variable {p : Process Unit} {g : Graph}

/-- On the prepared and closed graph of a process, the waiting area of the or-join of a block of
several branches is the inside of the block: its branches, which are what lies between the two
gateways. -/
theorem waitingArea_block (draws : p.Draws g) {block : Block} (member : block ∈ p.blocks)
    (several : 2 ≤ block.width) (isOrJoin : block.closing.val = .orJoin) :
    ∃ (c : ClosedGraph) (q : Process (Fin c.edges.size)) (frame : Frame (Fin c.edges.size))
      (areas : List (Fin c.edges.order × c.edges.Edges)) (v : Fin c.edges.order)
      (area : c.edges.Edges),
      (do let _ ← Workflow.simplify; Workflow.close : Run Unit).Ends (.draft g) (.ok ())
          (.closed c) ∧
        (q.Fits ∧ q.blocks = p.blocks ∧ frame ∈ q.body.frames ∧ frame.block = block) ∧
        (Analysis.waitingAreas c.graph.name (c.edges.dominanceOf .forward)
          (c.edges.dominanceOf .backward)).outcome = .ok areas ∧
        (v.val = block.closes ∧ areas.filter (·.1 == v) = [(v, area)]) ∧
        ∀ e, (e ∈ area ↔ e ∈ frame.branches.edges) ∧
          (e ∈ area ↔ c.edges.Between block.opens block.closes e) := by
  obtain ⟨h, E, q, simplified, closed, -, valid, -, fits, blocks, -⟩ := draws.exists_prepared
  rw [← blocks] at member
  obtain ⟨frame, inside, rfl⟩ := Part.mem_blocks.1 member
  have stands := fits.frame_stands inside
  rw [Part.width_of_mem_frames inside] at several
  have kind : E.kindOf stands.closer = .orJoin := stands.kind_closer.trans isOrJoin
  have inArea : ∀ e, e ∈ WaitingArea.areaOf (E.dominanceOf .forward) (E.dominanceOf .backward)
      stands.closer (E.exitOf stands.closer) ↔ e ∈ frame.branches.edges := fun e => by
    rw [stands.exitOf_closer valid]
    exact stands.mem_areaOf_closer valid several
  refine ⟨⟨h, E, closed⟩, q, frame, _, stands.closer, _, ?_, ⟨fits, blocks, inside, rfl⟩,
    valid.outcome_waitingAreas _, ⟨rfl, EdgeGraph.filter_waitingAreas kind _⟩, fun e => ?_⟩
  · exact (ends_simplify simplified).bind (ends_close closed)
  · exact ⟨inArea e, (inArea e).trans stands.mem_branches_iff⟩

/-- In the nested process the or-join 7 waits for what lies between it and the or-fork 2. -/
theorem waitingArea_nested_orJoin : ∃ (c : ClosedGraph)
    (areas : List (Fin c.edges.order × c.edges.Edges)) (v : Fin c.edges.order)
    (area : c.edges.Edges),
    (do let _ ← Workflow.simplify; Workflow.close : Run Unit).Ends
        (.draft (nestedGraph ⟨.orJoin, rfl⟩)) (.ok ()) (.closed c) ∧
      (Analysis.waitingAreas c.graph.name (c.edges.dominanceOf .forward)
        (c.edges.dominanceOf .backward)).outcome = .ok areas ∧
      (v.val = 7 ∧ areas.filter (·.1 == v) = [(v, area)]) ∧
      ∀ e, e ∈ area ↔ c.edges.Between 2 7 e := by
  have member : ⟨⟨.orFork, rfl⟩, 2, ⟨.orJoin, rfl⟩, 7, 2⟩ ∈ (nested ⟨.orJoin, rfl⟩).blocks := by
    decide
  obtain ⟨c, _, _, areas, v, area, ends, -, found, here, inside⟩ :=
    waitingArea_block (p := nested ⟨.orJoin, rfl⟩) (g := nestedGraph ⟨.orJoin, rfl⟩)
      ⟨by decide, by decide⟩ member (by decide) rfl
  exact ⟨c, areas, v, area, ends, found, here, fun e => (inside e).2⟩

end Blocks
end WorkflowSoundness
