import Mathlib.Data.List.Pairwise
import WorkflowSoundness.Proofs.Dominance.Region
import WorkflowSoundness.Proofs.Findings
import WorkflowSoundness.Proofs.Nested.Regions

/-!
The blocks of a process on the edges of a graph. A frame is a block with the edge that enters it,
its branches and the edge that leaves it; each of its branches is a region of the graph, which is
entered and left by one edge.
-/

namespace WorkflowSoundness

/-- A block with the edges around and inside it. -/
structure Frame (ε : Type) where
  block : Block
  entry : ε
  branches : Part ε .bundle
  exit : ε

namespace Part

variable {ε : Type} {shape : Shape}

/-- The flow that a sequence begins with, and that the first sequence of a bundle does. -/
def first : {shape : Shape} → Part ε shape → ε
  | _, .flow e => e
  | _, .activity e _ _ => e
  | _, .block e _ _ _ _ _ _ => e
  | _, .loop e _ _ _ _ _ => e
  | _, .one branch => branch.first
  | _, .more branch _ => branch.first

/-- The flow that a sequence ends with, and that the first sequence of a bundle does. -/
def last : {shape : Shape} → Part ε shape → ε
  | _, .flow e => e
  | _, .activity _ _ rest => rest.last
  | _, .block _ _ _ _ _ _ rest => rest.last
  | _, .loop _ _ _ _ _ rest => rest.last
  | _, .one branch => branch.last
  | _, .more branch _ => branch.last

/-- The sequences side by side in a part. -/
def bodies : {shape : Shape} → Part ε shape → List (Part ε .sequence)
  | _, .flow e => [.flow e]
  | _, .activity e v rest => [.activity e v rest]
  | _, .block e opening opens branches closing closes rest =>
    [.block e opening opens branches closing closes rest]
  | _, .loop e merge split body back rest => [.loop e merge split body back rest]
  | _, .one branch => [branch]
  | _, .more branch others => branch :: others.bodies

/-- A sequence begins with one edge. -/
theorem firsts_eq (b : Part ε .sequence) : b.firsts = [b.first] := by
  cases b <;> rfl

theorem lasts_eq : ∀ b : Part ε .sequence, b.lasts = [b.last]
  | .flow _ => rfl
  | .activity _ _ rest => rest.lasts_eq
  | .block _ _ _ _ _ _ rest => rest.lasts_eq
  | .loop _ _ _ _ _ rest => rest.lasts_eq

theorem first_mem (b : Part ε .sequence) : b.first ∈ b.edges :=
  b.firsts_subset (b.firsts_eq ▸ List.mem_singleton_self _)

theorem last_mem (b : Part ε .sequence) : b.last ∈ b.edges :=
  b.lasts_subset (b.lasts_eq ▸ List.mem_singleton_self _)

theorem firsts_bundle : ∀ b : Part ε .bundle, b.firsts = b.bodies.map first
  | .one branch => branch.firsts_eq
  | .more branch others => by
    rw [firsts, branch.firsts_eq, others.firsts_bundle]
    rfl

theorem lasts_bundle : ∀ b : Part ε .bundle, b.lasts = b.bodies.map last
  | .one branch => branch.lasts_eq
  | .more branch others => by
    rw [lasts, branch.lasts_eq, others.lasts_bundle]
    rfl

/-- The edges of the branches are those of the bodies, one after the other. -/
theorem edges_bundle : ∀ b : Part ε .bundle, b.edges = b.bodies.flatMap edges
  | .one branch => by
    rw [edges, bodies, List.flatMap_cons, List.flatMap_nil, List.append_nil]
  | .more branch others => by
    rw [edges, others.edges_bundle]
    rfl

theorem stations_bundle : ∀ b : Part ε .bundle, b.stations = b.bodies.flatMap stations
  | .one branch => by
    rw [stations, bodies, List.flatMap_cons, List.flatMap_nil, List.append_nil]
  | .more branch others => by
    rw [stations, others.stations_bundle]
    rfl

/-- The blocks inside a part with the edges around and inside them. -/
def frames : {shape : Shape} → Part ε shape → List (Frame ε)
  | _, .flow _ => []
  | _, .activity _ _ rest => rest.frames
  | _, .block e opening opens branches closing closes rest =>
    ⟨⟨opening, opens, closing, closes, branches.firsts.length⟩, e, branches, rest.first⟩ ::
      (branches.frames ++ rest.frames)
  | _, .loop _ _ _ body back rest => body.frames ++ (back.frames ++ rest.frames)
  | _, .one branch => branch.frames
  | _, .more branch others => branch.frames ++ others.frames

/-- There is a frame for each block of a part. -/
theorem map_block_frames (b : Part ε shape) : b.frames.map Frame.block = b.blocks := by
  induction b with
  | flow => rfl
  | activity _ _ _ ih => exact ih
  | block _ _ _ _ _ _ _ ihBranches ih =>
    simp only [frames, blocks, List.map_cons, List.map_append, ihBranches, ih]
  | loop _ _ _ _ _ _ ihBody ihBack ih =>
    simp only [frames, blocks, List.map_append, ihBody, ihBack, ih]
  | one _ ih => exact ih
  | more _ _ ih ihOthers => simp only [frames, blocks, List.map_append, ih, ihOthers]

/-- The edges of a block stand among those of the part in their order, so none is listed twice. -/
theorem sublist_of_mem_frames {b : Part ε shape} {frame : Frame ε} (member : frame ∈ b.frames) :
    (frame.entry :: (frame.branches.edges ++ [frame.exit])).Sublist b.edges := by
  induction b with
  | flow => cases member
  | activity _ _ _ ih => exact (ih member).cons _
  | block d _ _ branches _ _ rest ihBranches ih =>
    rcases List.mem_cons.1 member with rfl | member
    · exact ((List.Sublist.refl _).append (List.singleton_sublist.2 rest.first_mem)).cons_cons d
    · rcases List.mem_append.1 member with member | member
      · exact ((ihBranches member).trans (List.sublist_append_left _ _)).cons d
      · exact ((ih member).trans (List.sublist_append_right _ _)).cons d
  | loop d _ _ _ _ _ ihBody ihBack ih =>
    refine List.Sublist.cons d ?_
    rcases List.mem_append.1 member with member | member
    · exact (ihBody member).trans (List.sublist_append_left _ _)
    refine List.Sublist.trans ?_ (List.sublist_append_right _ _)
    rcases List.mem_append.1 member with member | member
    · exact (ihBack member).trans (List.sublist_append_left _ _)
    · exact (ih member).trans (List.sublist_append_right _ _)
  | one _ ih => exact ih member
  | more _ _ ih ihOthers =>
    rcases List.mem_append.1 member with member | member
    · exact (ih member).trans (List.sublist_append_left _ _)
    · exact (ihOthers member).trans (List.sublist_append_right _ _)

/-- The two gateways of a block and the nodes between them are inside. -/
theorem stations_of_mem_frames {b : Part ε shape} {frame : Frame ε} (member : frame ∈ b.frames) :
    ∀ station, station ∈ (⟨frame.block.opens, frame.block.opening, [frame.entry],
        frame.branches.firsts⟩ : Station ε) ::
      ⟨frame.block.closes, frame.block.closing, frame.branches.lasts, [frame.exit]⟩ ::
        frame.branches.stations → station ∈ b.stations := by
  intro station inside
  induction b with
  | flow => cases member
  | activity _ _ _ ih => exact List.mem_cons_of_mem _ (ih member)
  | block d _ _ branches _ _ rest ihBranches ih =>
    rcases List.mem_cons.1 member with rfl | member
    · simp only [stations, List.mem_cons, List.mem_append, rest.firsts_eq] at inside ⊢
      exact inside.imp_right (Or.imp_right Or.inl)
    · refine List.mem_cons_of_mem _ (List.mem_cons_of_mem _ (List.mem_append.2 ?_))
      exact (List.mem_append.1 member).imp ihBranches ih
  | loop d _ _ _ _ _ ihBody ihBack ih =>
    refine List.mem_cons_of_mem _ (List.mem_cons_of_mem _ (List.mem_append.2 ?_))
    refine (List.mem_append.1 member).imp ihBody fun member => List.mem_append.2 ?_
    exact (List.mem_append.1 member).imp ihBack ih
  | one _ ih => exact ih member
  | more _ _ ih ihOthers =>
    exact List.mem_append.2 ((List.mem_append.1 member).imp ih ihOthers)

end Part

/-- The gateways, the branches and the edges of a block are in their places. -/
structure Frame.Stands {E : EdgeGraph} (frame : Frame (Fin E.size)) : Prop where
  opens : E.Stands ⟨frame.block.opens, frame.block.opening, [frame.entry], frame.branches.firsts⟩
  closes : E.Stands ⟨frame.block.closes, frame.block.closing, frame.branches.lasts, [frame.exit]⟩
  branches : frame.branches.Stands
  once : (frame.entry :: (frame.branches.edges ++ [frame.exit])).Nodup

theorem Part.Stands.frame {E : EdgeGraph} {shape : Shape} {b : Part (Fin E.size) shape}
    (stands : b.Stands) (once : b.edges.Nodup) {frame : Frame (Fin E.size)}
    (member : frame ∈ b.frames) : frame.Stands where
  opens := stands _ (stations_of_mem_frames member _ List.mem_cons_self)
  closes := stands _ (stations_of_mem_frames member _ (List.mem_cons_of_mem _ List.mem_cons_self))
  branches := fun station inside => stands _ (stations_of_mem_frames member station
    (List.mem_cons_of_mem _ (List.mem_cons_of_mem _ inside)))
  once := (sublist_of_mem_frames member).nodup once

namespace Frame.Stands

variable {E : EdgeGraph} {frame : Frame (Fin E.size)} (stands : frame.Stands)

include stands

/-- The edge into a block lies in none of its branches. -/
theorem entry_outside : frame.entry ∉ frame.branches.edges := fun inside =>
  (List.nodup_cons.1 stands.once).1 (List.mem_append_left _ inside)

theorem exit_outside : frame.exit ∉ frame.branches.edges := fun inside =>
  (List.nodup_append.1 (List.nodup_cons.1 stands.once).2).2.2 _ inside _
    (List.mem_singleton_self _) rfl

theorem nodup_branches : frame.branches.edges.Nodup :=
  (List.nodup_append.1 (List.nodup_cons.1 stands.once).2).1

variable {body body' : Part (Fin E.size) .sequence}

omit stands in
/-- A branch lies in its block. -/
theorem edges_subset (member : body ∈ frame.branches.bodies) : body.edges ⊆ frame.branches.edges :=
  fun _ inside => frame.branches.edges_bundle ▸ List.mem_flatMap.2 ⟨body, member, inside⟩

omit stands in
theorem first_mem (member : body ∈ frame.branches.bodies) : body.first ∈ frame.branches.firsts :=
  frame.branches.firsts_bundle ▸ List.mem_map_of_mem member

omit stands in
theorem last_mem (member : body ∈ frame.branches.bodies) : body.last ∈ frame.branches.lasts :=
  frame.branches.lasts_bundle ▸ List.mem_map_of_mem member

/-- Each branch of a block is a region. -/
theorem region (member : body ∈ frame.branches.bodies) :
    E.Region .forward frame.entry body.first body.last frame.exit (· ∈ body.edges) := by
  have within : body.Stands := fun station inside => stands.branches station
    (frame.branches.stations_bundle ▸ List.mem_flatMap.2 ⟨body, member, inside⟩)
  refine
    { enters := stands.opens.next (List.mem_singleton_self _) (first_mem member)
      leaves := stands.closes.next (last_mem member) (List.mem_singleton_self _)
      first_inside := body.first_mem
      last_inside := body.last_mem
      entry_outside := fun inside => stands.entry_outside (edges_subset member inside)
      exit_outside := fun inside => stands.exit_outside (edges_subset member inside)
      before_first := fun step =>
        List.mem_singleton.1 (stands.opens.ins_of_next (first_mem member) step)
      before := fun inside other step => within.before_inside inside (fun first => other ?_) step
      after_last := fun step =>
        List.mem_singleton.1 (stands.closes.outs_of_next (last_mem member) step)
      after := fun inside other step => within.next_inside inside (fun last => other ?_) step
      from_first := fun inside => ?_
      to_last := fun inside => ?_ }
  · exact List.mem_singleton.1 (body.firsts_eq ▸ first)
  · exact List.mem_singleton.1 (body.lasts_eq ▸ last)
  · obtain ⟨⟨f, first, trail⟩, -⟩ := within.trails _ inside
    exact List.mem_singleton.1 (body.firsts_eq ▸ first) ▸ trail
  · obtain ⟨-, l, last, trail⟩ := within.trails _ inside
    exact List.mem_singleton.1 (body.lasts_eq ▸ last) ▸ trail

/-- Every edge into the closing gateway ends a branch. -/
theorem exists_last {p : Fin E.size} (step : frame.exit ∈ E.successors p) :
    ∃ body ∈ frame.branches.bodies, body.last = p :=
  List.mem_map.1 (frame.branches.lasts_bundle ▸
    stands.closes.ins_of_next (List.mem_singleton_self _) step)

/-- What follows the edge into a block is the first edge of a branch. -/
theorem exists_first {s : Fin E.size} (step : s ∈ E.successors frame.entry) :
    ∃ body ∈ frame.branches.bodies, body.first = s :=
  List.mem_map.1 (frame.branches.firsts_bundle ▸
    stands.opens.outs_of_next (List.mem_singleton_self _) step)

/-- What comes before the edge behind a block lies in a branch, which is a region between the
two. -/
theorem closed (p : Fin E.size) (step : frame.exit ∈ E.following .forward p) :
    ∃ first last R, E.Region .forward frame.entry first last frame.exit R ∧ R p := by
  obtain ⟨body, member, rfl⟩ := stands.exists_last step
  exact ⟨_, _, _, stands.region member, body.last_mem⟩

/-- What comes behind the edge into a block lies in a branch, which is a region seen backwards
too. -/
theorem opened (s : Fin E.size) (step : frame.entry ∈ E.following .backward s) :
    ∃ first last R, E.Region .backward frame.exit first last frame.entry R ∧ R s := by
  obtain ⟨body, member, rfl⟩ := stands.exists_first
    (E.mem_successors_iff_mem_predecessors.2 step)
  exact ⟨_, _, _, (stands.region member).reverse, body.first_mem⟩

/-- Different branches share no edge. -/
theorem apart (left : body ∈ frame.branches.bodies) (right : body' ∈ frame.branches.bodies)
    (other : body ≠ body') : ∀ x ∈ body.edges, x ∉ body'.edges := by
  have once := stands.nodup_branches
  rw [frame.branches.edges_bundle, List.nodup_flatMap] at once
  have : Std.Symm (Function.onFun List.Disjoint
      fun b : Part (Fin E.size) .sequence => b.edges) :=
    ⟨fun _ _ apart x left right => apart right left⟩
  exact fun x inside inside' => once.2.forall left right other inside inside'

/-- A block of several branches has another one beside each. -/
theorem exists_other (several : 2 ≤ frame.branches.firsts.length)
    (body : Part (Fin E.size) .sequence) : ∃ body' ∈ frame.branches.bodies, body ≠ body' := by
  have once := stands.nodup_branches
  rw [frame.branches.edges_bundle, List.nodup_flatMap] at once
  have apart := once.2
  rw [frame.branches.firsts_bundle, List.length_map] at several
  match bodies : frame.branches.bodies, several with
  | b :: c :: rest, _ =>
    rw [bodies] at apart
    by_cases here : body = b
    · refine ⟨c, List.mem_cons_of_mem _ List.mem_cons_self, fun same => ?_⟩
      have disjoint := (List.pairwise_cons.1 apart).1 c List.mem_cons_self
      exact disjoint b.first_mem ((here.symm.trans same) ▸ b.first_mem)
    · exact ⟨b, List.mem_cons_self, here⟩

/-! ### The gateways of a block -/

/-- The node that opens the block. -/
def opener : Fin E.order :=
  ⟨frame.block.opens, stands.opens.inside⟩

/-- The node that closes the block. -/
def closer : Fin E.order :=
  ⟨frame.block.closes, stands.closes.inside⟩

theorem kind_opener : E.kindOf stands.opener = frame.block.opening :=
  stands.opens.kind

theorem kind_closer : E.kindOf stands.closer = frame.block.closing :=
  stands.closes.kind

variable {e : Fin E.size}

theorem target_eq_opener : E.target e = stands.opener ↔ e = frame.entry :=
  Fin.ext_iff.trans ((stands.opens.ins e).trans List.mem_singleton)

theorem source_eq_opener : E.source e = stands.opener ↔ e ∈ frame.branches.firsts :=
  Fin.ext_iff.trans (stands.opens.outs e)

theorem target_eq_closer : E.target e = stands.closer ↔ e ∈ frame.branches.lasts :=
  Fin.ext_iff.trans (stands.closes.ins e)

theorem source_eq_closer : E.source e = stands.closer ↔ e = frame.exit :=
  Fin.ext_iff.trans ((stands.closes.outs e).trans List.mem_singleton)

/-- The two gateways of a block differ, since branches with edges lie between them. -/
theorem opener_ne_closer : stands.opener ≠ stands.closer := fun same => by
  have opens := frame.block.opening.property
  have closes := frame.block.closing.property
  rw [← stands.kind_opener, same, stands.kind_closer] at opens
  revert opens closes
  cases frame.block.closing.val <;> decide

section Valid

variable (valid : E.Valid)

include valid

/-- The edge behind a block is the one that leaves its closing gateway. -/
theorem exitOf_closer : E.exitOf stands.closer = frame.exit := by
  have merging : (E.kindOf stands.closer).isMerging = true :=
    stands.kind_closer ▸ frame.block.closing.property
  exact ((valid.source_iff merging frame.exit).1 (stands.source_eq_closer.2 rfl)).symm

/-- The edge into a block is the one that enters its opening gateway. -/
theorem entryOf_opener : E.entryOf stands.opener = frame.entry := by
  have splitting : (E.kindOf stands.opener).isSplitting = true :=
    stands.kind_opener ▸ frame.block.opening.property
  exact ((valid.target_iff splitting frame.entry).1 (stands.target_eq_opener.2 rfl)).symm

theorem first_outside : E.first ∉ frame.branches.edges := fun inside => by
  rw [frame.branches.edges_bundle, List.mem_flatMap] at inside
  obtain ⟨body, member, inside⟩ := inside
  exact (stands.region member).not_root valid inside

end Valid

omit stands in
/-- An edge inside a block lies in one of the branches. -/
theorem exists_body (inside : e ∈ frame.branches.edges) :
    ∃ body ∈ frame.branches.bodies, e ∈ body.edges :=
  List.mem_flatMap.1 (frame.branches.edges_bundle ▸ inside)

theorem body_stands {body : Part (Fin E.size) .sequence} (member : body ∈ frame.branches.bodies) :
    body.Stands := fun station inside => stands.branches station
  (frame.branches.stations_bundle ▸ List.mem_flatMap.2 ⟨body, member, inside⟩)

end Frame.Stands
end WorkflowSoundness
