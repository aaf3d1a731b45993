import WorkflowSoundness.Proofs.Abundance.Meetings
import WorkflowSoundness.Proofs.Nested.Passing
import WorkflowSoundness.Proofs.Nested.Rules

/-!
The meetings of blocks. The bond of a block that a fork opens is the block itself, its definitions
are its branches and its exit, and at a branch only one path arrives; so its branches meet at the
exit or not at all (`edge_of_meeting`). They do meet there unless the closing gateway waits
(`exists_meeting_exit`): nothing inside the block starves without the exit, and the exit executes
no join inside.
-/

namespace WorkflowSoundness

open Abundance

namespace Frame.Stands

variable {E : EdgeGraph} {frame : Frame (Fin E.size)} (stands : frame.Stands) (valid : E.Valid)

include stands valid

section Several

variable (several : 2 ≤ frame.branches.firsts.length)

include several

omit valid in
theorem exists_two : ∃ body ∈ frame.branches.bodies, ∃ body' ∈ frame.branches.bodies,
    ∀ x ∈ body.edges, x ∉ body'.edges := by
  obtain ⟨body, member⟩ : ∃ body, body ∈ frame.branches.bodies := by
    rw [frame.branches.firsts_bundle, List.length_map] at several
    exact List.exists_mem_of_length_pos (Nat.lt_of_lt_of_le Nat.two_pos several)
  obtain ⟨other, isOther, different⟩ := stands.exists_other several body
  exact ⟨body, member, other, isOther, stands.apart member isOther different⟩

/-- With several branches the exit is the immediate post-dominator of the entry. -/
theorem immediate?_entry : (E.dominanceOf .backward).immediate? frame.entry = some frame.exit := by
  obtain ⟨body, member, other, isOther, apart⟩ := stands.exists_two several
  exact (stands.region member).reverse.immediate?_exit (stands.region isOther).reverse apart valid
    stands.opened

/-- With several branches the entry is the immediate dominator of the exit. -/
theorem immediate?_exit : (E.dominanceOf .forward).immediate? frame.exit = some frame.entry := by
  obtain ⟨body, member, other, isOther, apart⟩ := stands.exists_two several
  exact (stands.region member).immediate?_exit (stands.region isOther) apart valid stands.closed

/-- The frontier of the first edge of a branch is the exit alone. -/
theorem mem_frontier_first {body : Part (Fin E.size) .sequence}
    (member : body ∈ frame.branches.bodies) {e : Fin E.size} :
    e ∈ (E.dominanceOf .forward).frontier body.first ↔ e = frame.exit := by
  obtain ⟨other, isOther, different⟩ := stands.exists_other several body
  exact (stands.region member).mem_frontier_first_iff (stands.region isOther)
    (stands.apart member isOther different) valid

end Several

/-- The exit does not lead back to the entry at once. -/
theorem entry_not_next (thin : E.Thin) : frame.entry ∉ E.successors frame.exit := by
  intro next
  obtain ⟨body, member⟩ : ∃ body, body ∈ frame.branches.bodies := by
    obtain ⟨e, first⟩ := frame.branches.exists_first
    rw [frame.branches.firsts_bundle] at first
    obtain ⟨body, member, -⟩ := List.mem_map.1 first
    exact ⟨body, member⟩
  have region := stands.region member
  have other := region.entry_ne_exit valid stands.closed
  have meet := E.mem_successors.1 next
  rcases thin (E.target frame.exit) with ⟨e, sole⟩ | ⟨e, sole⟩
  · have exits := sole frame.exit rfl
    have dominates : E.Dominates .forward frame.exit frame.entry := by
      refine .of_before (fun root => ?_) fun q before => ?_
      · exact valid.not_before_root .forward frame.exit
          (root ▸ E.mem_successors_iff_mem_predecessors.1 next)
      · rw [exits, ← sole q ((E.mem_predecessors.1 before).trans meet)]
        exact .refl q
    exact other ((region.entry_dominates_exit valid stands.closed).antisymm
      (valid.reached .forward _) dominates)
  · have enters := sole frame.entry meet
    have dominates : E.Dominates .backward frame.entry frame.exit := by
      refine .of_before (fun root => ?_) fun q after => ?_
      · exact valid.not_before_root .backward frame.entry (root ▸ next)
      · rw [enters, ← sole q (E.mem_successors.1 after)]
        exact .refl q
    exact other (dominates.antisymm (valid.reached .backward _)
      (region.reverse.entry_dominates_exit valid stands.opened))

/-! ### The bond -/

omit valid in
/-- From inside one stays inside or comes to the exit. -/
theorem next_inside {e s : Fin E.size} (inside : e ∈ frame.branches.edges)
    (next : s ∈ E.successors e) : s ∈ frame.branches.edges ∨ s = frame.exit := by
  obtain ⟨body, member, within⟩ := exists_body inside
  by_cases isLast : e = body.last
  · exact Or.inr ((stands.region member).after_last (isLast ▸ next))
  · exact Or.inl (edges_subset member ((stands.region member).after within isLast next))

theorem mem_bond {x : Fin E.size} : x ∈ E.bondOf stands.opener ↔ ∃ f ∈ frame.branches.firsts,
    Trail (fun e => if (E.dominanceOf .backward).immediate? frame.entry = some e then ∅
      else E.successors e) (fun _ => True) f x := by
  rw [Abundance.mem_bondOf, stands.entryOf_opener valid]
  exact exists_congr fun f => and_congr_left fun _ => stands.source_eq_opener

omit stands valid in
theorem several_or_single (frame : Frame (Fin E.size)) : 2 ≤ frame.branches.firsts.length ∨
    ∃ body, frame.branches.bodies = [body] := by
  rw [frame.branches.firsts_bundle, List.length_map]
  match bodies : frame.branches.bodies with
  | [] =>
    obtain ⟨e, first⟩ := frame.branches.exists_first
    rw [frame.branches.firsts_bundle, bodies] at first
    cases first
  | [body] => exact Or.inr ⟨body, rfl⟩
  | _ :: _ :: rest => exact Or.inl (Nat.le_add_left 2 rest.length)

theorem immediate?_entry_single {body : Part (Fin E.size) .sequence}
    (single : frame.branches.bodies = [body]) :
    (E.dominanceOf .backward).immediate? frame.entry = some body.first := by
  refine valid.immediate?_of_sole fun q => ?_
  have member : body ∈ frame.branches.bodies := single ▸ List.mem_cons_self
  constructor
  · intro next
    obtain ⟨other, isOther, rfl⟩ :=
      stands.exists_first (E.mem_successors_iff_mem_predecessors.2 next)
    rw [single] at isOther
    exact congrArg Part.first (List.mem_singleton.1 isOther)
  · rintro rfl
    exact E.mem_successors_iff_mem_predecessors.1 (stands.region member).enters

/-- The bond of a single branch ends with its first edge. -/
theorem eq_first_of_mem_bond {body : Part (Fin E.size) .sequence}
    (single : frame.branches.bodies = [body]) {x : Fin E.size}
    (member : x ∈ E.bondOf stands.opener) : x = body.first := by
  obtain ⟨f, first, trail⟩ := (stands.mem_bond valid).1 member
  rw [stands.immediate?_entry_single valid single] at trail
  rw [frame.branches.firsts_bundle, single, List.map_cons, List.map_nil,
    List.mem_singleton] at first
  cases trail with
  | stay => exact first
  | step _ next _ =>
    rw [if_pos (congrArg some first.symm)] at next
    exact absurd next (BitSet.not_mem_empty _)

theorem inside_of_mem_bond {x : Fin E.size} (member : x ∈ E.bondOf stands.opener) :
    x ∈ frame.branches.edges ∨ x = frame.exit := by
  obtain ⟨f, first, trail⟩ := (stands.mem_bond valid).1 member
  have start : f ∈ frame.branches.edges ∨ f = frame.exit :=
    Or.inl (frame.branches.firsts_subset first)
  rcases several_or_single frame with several | ⟨body, single⟩
  · rw [stands.immediate?_entry valid several] at trail
    clear first member
    induction trail with
    | stay => exact start
    | @step a b c _ next _ ih =>
      refine ih ?_
      by_cases here : some frame.exit = some a
      · rw [if_pos here] at next
        exact absurd next (BitSet.not_mem_empty b)
      · rw [if_neg here] at next
        have notLast := start.resolve_right fun same => here (congrArg some same.symm)
        exact stands.next_inside notLast next
  · exact Or.inl (stands.eq_first_of_mem_bond valid single member ▸
      frame.branches.firsts_subset (first_mem (single ▸ List.mem_cons_self)))

/-- The bond of several branches holds them all and the exit. -/
theorem mem_bond_of_several (several : 2 ≤ frame.branches.firsts.length) {x : Fin E.size}
    (inside : x ∈ frame.branches.edges ∨ x = frame.exit) : x ∈ E.bondOf stands.opener := by
  have onward : ∀ {a b : Fin E.size}, a ∈ frame.branches.edges → b ∈ E.successors a →
      b ∈ (if some frame.exit = some a then ∅ else E.successors a : E.Edges) := by
    intro a b within next
    have other : ¬ some frame.exit = some a := fun same =>
      stands.exit_outside (Option.some.inj same ▸ within)
    rwa [if_neg other]
  have reached : ∀ {body : Part (Fin E.size) .sequence}, body ∈ frame.branches.bodies →
      ∀ {y}, y ∈ body.edges → Trail (fun e => if some frame.exit = some e then ∅
        else E.successors e : Fin E.size → E.Edges) (fun _ => True) body.first y := by
    intro body member y within
    refine (((stands.region member).from_first within).map fun a b inA _ next => ?_).mono
      fun _ _ => trivial
    exact onward (edges_subset member inA) next
  rw [stands.mem_bond valid, stands.immediate?_entry valid several]
  rcases inside with inside | rfl
  · obtain ⟨body, member, within⟩ := exists_body inside
    exact ⟨body.first, first_mem member, reached member within⟩
  · obtain ⟨body, member, -⟩ := stands.exists_two several
    exact ⟨body.first, first_mem member, (reached member body.last_mem).snoc
      (onward (edges_subset member body.last_mem) (stands.region member).leaves) trivial⟩

/-! ### Paths to a branch -/

/-- At a branch only one path arrives, as nothing in the block leads back to the entry. -/
theorem maximize_first_le (thin : E.Thin) {room : E.Edges}
    (within : ∀ x ∈ room, x ∈ E.bondOf stands.opener) {sink : Fin E.size}
    (first : sink ∈ frame.branches.firsts) :
    (Abundance.maximize stands.opener frame.entry room sink).value.1 ≤ 1 := by
  refine ForkNetwork.maximize_branch_le (stands.source_eq_opener.2 first) (fun same => ?_)
    fun d member same => ?_
  · exact stands.entry_outside (frame.branches.firsts_subset (stands.source_eq_opener.1 same))
  · have next : frame.entry ∈ E.successors d := E.mem_successors.2 same.symm
    rcases stands.inside_of_mem_bond valid (within d member) with inside | rfl
    · rcases stands.next_inside inside next with again | isExit
      · exact stands.entry_outside again
      · obtain ⟨body, isBody, -⟩ := exists_body inside
        exact (stands.region isBody).entry_ne_exit valid stands.closed isExit
    · exact stands.entry_not_next valid thin next

/-! ### Meetings -/

/-- A block of several branches has no definitions but these and the exit. -/
theorem defined_inside (several : 2 ≤ frame.branches.firsts.length) {e : Fin E.size}
    (defined : Defined (E.definitionsOf stands.opener) e) :
    e ∈ frame.branches.firsts ∨ e = frame.exit := by
  have within : (∀ d, Followed (E.definitionsOf stands.opener) d → E.source d = stands.opener) ∧
      ∀ d, Met (E.definitionsOf stands.opener) d → d = frame.exit :=
    definitions_within (fun _ leaves => leaves) fun e leaves s inside => by
      have first := stands.source_eq_opener.1 leaves
      rw [frame.branches.firsts_bundle] at first
      obtain ⟨body, member, rfl⟩ := List.mem_map.1 first
      have isExit := (stands.mem_frontier_first valid several member).1 inside
      refine ⟨isExit, fun goesOn => absurd ?_ goesOn⟩
      rw [stands.entryOf_opener valid, isExit]
      exact stands.immediate?_entry valid several
  rcases defined_iff.1 defined with followed | met
  · exact Or.inl (stands.source_eq_opener.1 (within.1 e followed))
  · exact Or.inr (within.2 e met)

/-- The branches of a block meet at its exit if they meet at all. -/
theorem edge_of_meeting (thin : E.Thin) {meeting : Meeting E}
    (member : meeting ∈ E.meetingsOf stands.opener) : meeting.definition.edge = frame.exit := by
  obtain ⟨defined, inBond, -⟩ := candidate_of_meeting member
  have notFirst : meeting.definition.edge ∉ frame.branches.firsts := fun first => by
    have many := several_of_meeting member
    rw [stands.entryOf_opener valid] at many
    exact absurd (stands.maximize_first_le valid thin (fun x allows => (mem_allowed.1 allows).2.1)
      first) (Nat.not_le_of_lt many)
  rcases several_or_single frame with several | ⟨body, single⟩
  · exact (stands.defined_inside valid several defined).resolve_left notFirst
  · refine absurd ?_ notFirst
    rw [stands.eq_first_of_mem_bond valid single inBond]
    exact first_mem (single ▸ List.mem_cons_self)

theorem several_of_meeting (thin : E.Thin) {meeting : Meeting E}
    (member : meeting ∈ E.meetingsOf stands.opener) : 2 ≤ frame.branches.firsts.length := by
  refine (several_or_single frame).resolve_right fun ⟨body, single⟩ => stands.exit_outside ?_
  rw [← stands.edge_of_meeting valid thin member,
    stands.eq_first_of_mem_bond valid single (candidate_of_meeting member).2.1]
  exact frame.branches.firsts_subset (first_mem (single ▸ List.mem_cons_self))

end Frame.Stands

/-! ### A fork and a merge -/

namespace Process.Fits

variable {E : EdgeGraph} {p : Process (Fin E.size)} (fits : p.Fits) (valid : E.Valid)

include fits valid

theorem first_eq : E.first = p.body.first := by
  have stands := fits.stands _ List.mem_cons_self
  have starts := (valid.start_iff ⟨p.start, stands.inside⟩).1 stands.kind
  have first := (stands.outs E.first).1 (congrArg Fin.val starts).symm
  rwa [p.body.firsts_eq, List.mem_singleton] at first

theorem last_eq : E.last = p.body.last := by
  have stands := fits.stands _ (List.mem_cons_of_mem _ List.mem_cons_self)
  have ends := (valid.finish_iff ⟨p.finish, stands.inside⟩).1 stands.kind
  have last := (stands.ins E.last).1 (congrArg Fin.val ends).symm
  rwa [p.body.lasts_eq, List.mem_singleton] at last

/-- The place of an edge in the order in which the process is read. -/
def place (p : Process (Fin E.size)) (e : Fin E.size) : Nat :=
  p.body.edges.idxOf e

omit valid in
/-- What is read earlier has a lower place. -/
theorem place_lt {x y : Fin E.size} (before : [x, y].Sublist p.body.edges) :
    place p x < place p y := by
  obtain ⟨l₁, l₂, split, left, right⟩ := List.cons_sublist_iff.1 before
  have right := List.singleton_sublist.1 right
  have once := fits.once
  unfold place
  rw [split] at once ⊢
  have apart : y ∉ l₁ := fun again => (List.nodup_append.1 once).2.2 y again y right rfl
  rw [List.idxOf_append_of_mem left, List.idxOf_append_of_notMem apart]
  exact Nat.lt_of_lt_of_le (List.idxOf_lt_length_of_mem left) (Nat.le_add_right _ _)

/-- The edges that are read before another one fire without it. -/
theorem firing_before (e : Fin E.size) : Firing E fun x => place p x < place p e := by
  have outs : ∀ {z}, z ∉ p.body.firsts → ∃ station ∈ p.body.stations, z ∈ station.outs :=
    fun notFirst => (p.body.firsts_or_outs (fits.all _)).resolve_left notFirst
  refine ⟨fun z before => ?_, fun z before isJoin q enters => ?_⟩
  · induction rank : place p z using Nat.strongRecOn generalizing z with
    | ind n ih =>
      subst rank
      by_cases first : z ∈ p.body.firsts
      · rw [p.body.firsts_eq, List.mem_singleton] at first
        rw [fits.first_eq valid, first]
        exact .stay (first ▸ before)
      · obtain ⟨station, member, leaves⟩ := outs first
        obtain ⟨q, enters, order⟩ := (Part.ordered member leaves).1
        have earlier := fits.place_lt order
        have trail := ih _ earlier q (Nat.lt_trans earlier before) rfl
        exact trail.snoc ((fits.body_stands station member).next enters leaves) before
  · have notFirst : z ∉ p.body.firsts := fun first => by
      have stands := fits.stands _ List.mem_cons_self
      have source : E.source z = ⟨p.start, stands.inside⟩ := Fin.ext ((stands.outs z).2 first)
      rw [source, stands.kind] at isJoin
      cases isJoin
    obtain ⟨station, member, leaves⟩ := outs notFirst
    have stands := fits.body_stands station member
    have source : E.source z = ⟨station.node, stands.inside⟩ := Fin.ext ((stands.outs z).2 leaves)
    rw [source] at isJoin enters
    have order := (Part.ordered member leaves).2 (stands.kind.symm.trans isJoin) q
      ((stands.ins q).1 (congrArg Fin.val enters))
    exact Nat.lt_trans (fits.place_lt order) before

variable {frame : Frame (Fin E.size)} (member : frame ∈ p.body.frames)

include member

omit valid in
theorem frame_stands : frame.Stands :=
  Part.Stands.frame fits.body_stands fits.once member

/-- Nothing inside a block starves without its exit. -/
theorem not_dependent {x : Fin E.size} (inside : x ∈ frame.branches.edges) :
    x ∉ (dependent frame.exit).value := by
  intro starves
  have order : [x, frame.exit].Sublist p.body.edges :=
    (Part.pair_sublist inside (List.mem_singleton_self _)).trans
      ((List.sublist_cons_self _ _).trans (Part.sublist_of_mem_frames member))
  exact (mem_dependent_iff.1 starves).2 _ (fits.firing_before valid frame.exit)
    (Nat.lt_irrefl _) (fits.place_lt order)

/-- The exit of a block executes no join inside it. -/
theorem not_executes (simple : E.Simple) {x : Fin E.size} (inside : x ∈ frame.branches.edges) :
    x ∉ E.executionOf.executes[frame.exit] := by
  intro executes
  obtain ⟨isJoin, found⟩ := (EdgeGraph.mem_executes valid simple).1 executes
  obtain ⟨X, executing, exits⟩ := (EdgeGraph.mem_approximate_iff simple isJoin).1 found
  obtain ⟨l, last, atLast, other⟩ :=
    Part.Stands.escapes executing fits.body_stands fits.once member inside exits
  rw [p.body.lasts_eq, List.mem_singleton, ← fits.last_eq valid] at last
  obtain ⟨s, next, -⟩ := (executing.walk l atLast).resolve_left other
  exact valid.not_after_last s (last ▸ E.mem_successors.1 next)

/-- The branches of a block meet at a closing gateway that does not wait. -/
theorem exists_meeting_exit (simple : E.Simple) (several : 2 ≤ frame.branches.firsts.length)
    (waitless : frame.block.closing.val.isSynchronizing = false) :
    ∃ meeting ∈ E.meetingsOf (fits.frame_stands member).opener,
      meeting.definition.edge = frame.exit := by
  have stands := fits.frame_stands member
  obtain ⟨body, isBody, body', isBody', apart⟩ := stands.exists_two several
  have source : E.source frame.exit = stands.closer := stands.source_eq_closer.2 rfl
  have walkOf : ∀ {body : Part (Fin E.size) .sequence}, body ∈ frame.branches.bodies →
      ∃ W, E.IsWalk stands.opener W (E.source frame.exit) ∧ ∀ x ∈ W, x ∈ body.edges := by
    intro body isBody
    obtain ⟨W, walk, along⟩ :=
      EdgeGraph.exists_walk ((stands.region isBody).from_first body.last_mem)
    rw [stands.source_eq_opener.2 (Frame.Stands.first_mem isBody),
      stands.target_eq_closer.2 (Frame.Stands.last_mem isBody), ← source] at walk
    exact ⟨W, walk, along⟩
  obtain ⟨W, walk, along⟩ := walkOf isBody
  obtain ⟨W', walk', along'⟩ := walkOf isBody'
  have defined : Defined (E.definitionsOf stands.opener) frame.exit := by
    refine defined_iff.2 (Or.inr (met_of_frontier (followed_branch (e := body.first) ?_) ?_))
    · exact stands.source_eq_opener.2 (Frame.Stands.first_mem isBody)
    · exact (stands.mem_frontier_first valid several isBody).2 rfl
  refine exists_meeting defined (stands.mem_bond_of_several valid several (Or.inr rfl)) ?_ ?_
  · rw [source, stands.kind_closer]
    exact waitless
  · rw [stands.entryOf_opener valid]
    refine two_le_maximize frame.entry ?_ walk walk' (fun x left right => ?_) fun x either => ?_
    · exact source ▸ stands.opener_ne_closer
    · exact apart x (along x left) (along' x right)
    · have inside : x ∈ frame.branches.edges := either.elim
        (fun on => Frame.Stands.edges_subset isBody (along x on))
        fun on => Frame.Stands.edges_subset isBody' (along' x on)
      have notExit : x ≠ frame.exit := fun same => stands.exit_outside (same ▸ inside)
      refine ⟨mem_allowed.2 ⟨notExit, ?_, fits.not_dependent valid member inside, fun both => ?_⟩,
        notExit, fun same => stands.entry_outside (same ▸ inside)⟩
      · exact stands.mem_bond_of_several valid several (Or.inl inside)
      · exact fits.not_executes valid member simple inside both.1

end Process.Fits
end WorkflowSoundness
