import WorkflowSoundness.Proofs.Nested.Passing
import WorkflowSoundness.Proofs.Deadlock.Facts

/-!
The deadlocks of blocks. The entry of a block from a fork to a join executes the join, so no fact
of the join gets out of the block (`inside_of_starts`). Where a choice opens the block, no edge
executes more than one branch; then nothing executes the join, and its facts get back to the start
edge (`exists_starts`).
-/

namespace WorkflowSoundness

namespace Frame.Stands

variable {E : EdgeGraph} {frame : Frame (Fin E.size)} (stands : frame.Stands) {e : Fin E.size}

include stands

/-! ### A fork and a join -/

section Executed

variable (isFork : frame.block.opening.val = .fork) (isJoin : frame.block.closing.val = .join)

include isFork isJoin

/-- The entry and a branch execute the last edge of the branch. -/
theorem executing_branch {body : Part (Fin E.size) .sequence}
    (member : body ∈ frame.branches.bodies) :
    Execution.Executing E body.last frame.exit fun x => x = frame.entry ∨ x ∈ body.edges := by
  have region := stands.region member
  have notExit : ∀ x ∈ body.edges, x ≠ frame.exit := fun x inside same =>
    region.exit_outside (same ▸ inside)
  have within : ∀ {x}, x ∈ body.edges → Trail E.successors
      (fun y => (y = frame.entry ∨ y ∈ body.edges) ∧ y ≠ frame.exit) x body.last := fun inside =>
    (region.to_last inside).mono fun y here => ⟨Or.inr here, notExit y here⟩
  refine ⟨fun x inside => ?_, fun x b inside choosing leaves => ?_⟩
  · rcases inside with rfl | inside
    · exact Or.inr ⟨body.first, region.enters, within body.first_mem⟩
    · cases within inside with
      | stay => exact Or.inl rfl
      | step _ next rest => exact Or.inr ⟨_, next, rest⟩
  · rcases inside with rfl | inside
    · rw [stands.target_eq_opener.2 rfl, stands.kind_opener, isFork] at choosing
      cases choosing
    · refine Or.inr (region.after inside (fun isLast => ?_) (E.mem_successors.2 leaves))
      rw [isLast, stands.target_eq_closer.2 (last_mem member), stands.kind_closer,
        isJoin] at choosing
      cases choosing

variable (valid : E.Valid) (simple : E.Simple)

include valid simple

theorem entry_executes : frame.entry ∈ E.executionOf.executedBy[E.exitOf stands.closer] := by
  have waits : E.kindOf stands.closer = .join := stands.kind_closer.trans isJoin
  refine (EdgeGraph.mem_executedBy_exitOf valid simple waits).2 fun i enters => ?_
  obtain ⟨body, member, rfl⟩ := List.mem_map.1
    (frame.branches.lasts_bundle ▸ stands.target_eq_closer.1 enters)
  rw [EdgeGraph.mem_approximate_iff simple (enters ▸ waits), stands.exitOf_closer valid]
  exact ⟨_, stands.executing_branch isFork isJoin member, Or.inl rfl⟩

/-- The facts of the join stay between the two gateways. -/
theorem inside_of_starts {i : Fin E.size} (enters : E.target i = stands.closer)
    (starts : E.Starts i e) : e ∈ frame.branches.edges := by
  induction starts with
  | enters => exact frame.branches.lasts_subset (stands.target_eq_closer.1 enters)
  | @leads e s next _ _ free ih =>
    obtain ⟨body, member, inside⟩ := exists_body ih
    by_cases within : e ∈ body.edges
    · exact edges_subset member within
    · obtain ⟨rfl, -⟩ := (stands.region member).into within inside next
      rw [enters] at free
      exact absurd (stands.entry_executes isFork isJoin valid simple) free

end Executed

/-! ### A choice and a join -/

section Starving

variable (isChoice : frame.block.opening.val.isChoosing = true)
  (isJoin : frame.block.closing.val = .join) (several : 2 ≤ frame.branches.firsts.length)
  (valid : E.Valid) (simple : E.Simple)

include isChoice several in
/-- What executes the end of a branch is inside the branch. -/
theorem executing_inside {body : Part (Fin E.size) .sequence} {X : Fin E.size → Prop}
    (member : body ∈ frame.branches.bodies)
    (executing : Execution.Executing E body.last frame.exit X) : ∀ x, X x → x ∈ body.edges := by
  refine fun x isIn => Classical.byContradiction fun outside => ?_
  have region := stands.region member
  have trail : Trail E.successors X x body.last := by
    rcases executing.walk x isIn with rfl | ⟨s, next, rest⟩
    · exact absurd body.last_mem outside
    · exact .step isIn next (rest.mono fun _ => And.left)
  have atEntry : X frame.entry := (region.enter trail outside body.last_mem).1.finish
  obtain ⟨other, isOther, different⟩ := stands.exists_other several body
  have opens : E.target frame.entry = stands.opener := stands.target_eq_opener.2 rfl
  have atFirst : X other.first := by
    refine executing.choices frame.entry other.first atEntry ?_ ?_
    · rw [opens, stands.kind_opener]
      exact isChoice
    · rw [opens]
      exact stands.source_eq_opener.2 (first_mem isOther)
  have away : body.last ∉ other.edges := stands.apart member isOther different _ body.last_mem
  obtain ⟨l, last, atLast, notEnd⟩ := Part.Stands.passes_away executing
    (stands.body_stands isOther) away ⟨_, other.firsts_eq ▸ List.mem_singleton_self _, atFirst⟩
  rw [other.lasts_eq, List.mem_singleton] at last
  subst last
  obtain ⟨s, next, rest⟩ := (executing.walk other.last atLast).resolve_left notEnd
  exact rest.start.2 ((stands.region isOther).after_last next)

include isChoice isJoin several valid simple

theorem not_executedBy (x : Fin E.size) :
    x ∉ E.executionOf.executedBy[E.exitOf stands.closer] := by
  intro executes
  have waits : E.kindOf stands.closer = .join := stands.kind_closer.trans isJoin
  rw [EdgeGraph.mem_executedBy_exitOf valid simple waits] at executes
  have inside : ∀ body ∈ frame.branches.bodies, x ∈ body.edges := fun body member => by
    have enters : E.target body.last = stands.closer := stands.target_eq_closer.2 (last_mem member)
    have found := executes body.last enters
    rw [EdgeGraph.mem_approximate_iff simple (enters ▸ waits), stands.exitOf_closer valid] at found
    obtain ⟨X, executing, isIn⟩ := found
    exact stands.executing_inside isChoice several member executing x isIn
  obtain ⟨body, member⟩ : ∃ body, body ∈ frame.branches.bodies := by
    rw [frame.branches.firsts_bundle, List.length_map] at several
    exact List.exists_mem_of_length_pos (Nat.lt_of_lt_of_le Nat.two_pos several)
  obtain ⟨other, isOther, different⟩ := stands.exists_other several body
  exact stands.apart member isOther different x (inside body member) (inside other isOther)

/-- The join starves: a fact of it gets back to the start edge. -/
theorem exists_starts : ∃ i, E.target i = stands.closer ∧ E.Starts i E.first := by
  obtain ⟨body, member⟩ : ∃ body, body ∈ frame.branches.bodies := by
    rw [frame.branches.firsts_bundle, List.length_map] at several
    exact List.exists_mem_of_length_pos (Nat.lt_of_lt_of_le Nat.two_pos several)
  have region := stands.region member
  have ends : E.target body.last = stands.closer := stands.target_eq_closer.2 (last_mem member)
  have waits : E.kindOf (E.target body.last) = .join := by
    rw [ends, stands.kind_closer]
    exact isJoin
  have free : ∀ x, x ∉ E.executionOf.executedBy[E.exitOf (E.target body.last)] := fun x => by
    rw [ends]
    exact stands.not_executedBy isChoice isJoin several valid simple x
  refine ⟨body.last, ends, ?_⟩
  -- From the last edge of the branch to its first, from there to the entry, and to the start edge.
  have atFirst : E.Starts body.last body.first := by
    refine .of_trail (region.to_last body.first_mem) (.enters waits) fun x inside other => ?_
    refine ⟨fun same => other ?_, free x⟩
    rw [ends, stands.target_eq_closer, frame.branches.lasts_bundle, List.mem_map] at same
    obtain ⟨body', isBody, rfl⟩ := same
    refine congrArg Part.last (Classical.byContradiction fun different => ?_)
    exact stands.apart member isBody (Ne.symm different) _ inside body'.last_mem
  have atEntry : E.Starts body.last frame.entry := by
    refine .leads region.enters atFirst (fun same => ?_) (free _)
    rw [ends, stands.target_eq_opener.2 rfl] at same
    exact stands.opener_ne_closer same
  refine .of_trail (EdgeGraph.Dominates.approach (valid.reached .forward frame.entry)) atEntry
    fun x way other => ⟨fun same => ?_, free x⟩
  rw [ends, stands.target_eq_closer] at same
  obtain ⟨body', isBody, inside⟩ := exists_body (frame.branches.lasts_subset same)
  exact way.resolve_left other ((stands.region isBody).entry_dominates valid inside)

end Starving

end Frame.Stands
end WorkflowSoundness
