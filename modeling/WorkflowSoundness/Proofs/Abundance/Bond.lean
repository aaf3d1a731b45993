import WorkflowSoundness.Proofs.Dominance.Walks
import WorkflowSoundness.Proofs.Findings

/-!
The region of a fork. The bond is found by a search that does not go on from the immediate
post-dominator of the edge into the fork, so its edges are the ends of the walks that meet this edge
at most at their end (`mem_bond_iff`). Behind the edge into the fork such a walk can be followed on
to the end edge only over the post-dominator, however it winds (`crossed_of_walk`). So the bond is
bounded by the post-dominator, which is in it (`bond_exact`).
-/

namespace WorkflowSoundness.Abundance

variable {E : EdgeGraph} {fork : Fin E.order} {entry f x z : Fin E.size}
  {before W : List (Fin E.size)}

/-- What lies between a fork, which only `entry` leads into, and the edge `z`, the closest edge that
every walk from `entry` to the end edge meets after it. -/
structure ForkRegion (E : EdgeGraph) (fork : Fin E.order) (entry z : Fin E.size) (bond : E.Edges) :
    Prop where
  entered : ∀ e, E.target e = fork ↔ e = entry
  other : z ≠ entry
  every : ∀ W, Walk E.successors entry W E.last → z ∈ W
  closest : ∀ x, x ≠ entry → (∀ W, Walk E.successors entry W E.last → x ∈ W) →
    ∀ W, Walk E.successors z W E.last → x ∈ W
  /-- Its edges end the walks that begin with a branch and meet `z` at most at the end. -/
  reached : ∀ x, x ∈ bond ↔ ∃ f before, E.source f = fork ∧
    Walk E.successors f (before ++ [x]) x ∧ z ∉ before
  bounded : z ∈ bond
  crossed : ∀ x ∈ bond, ∀ W, Walk E.successors x W E.last → z ∈ W

theorem mem_bond_iff (immediate : (Dominance.compute E .backward).value.immediate? entry = some z) :
    x ∈ (bond (Dominance.compute E .backward).value fork entry).value ↔
      ∃ f before, E.source f = fork ∧ Walk E.successors f (before ++ [x]) x ∧ z ∉ before := by
  have onwards : ∀ a b : Fin E.size,
      b ∈ (if some z = some a then ∅ else E.successors a) ↔ b ∈ E.successors a ∧ a ≠ z := by
    intro a b
    by_cases here : z = a
    · subst here
      simp [BitSet.not_mem_empty]
    · simp [here, Ne.symm here]
  unfold bond
  rw [BitSet.mem_reach_iff, immediate]
  simp only [BitSet.mem_toList, E.mem_leaving, path_until_iff_walk onwards, exists_and_left]
  have free : ∀ before : List (Fin E.size), (∀ x ∈ before, x ≠ z) ↔ z ∉ before := by
    intro before
    exact List.forall_mem_ne'
  simp only [free]

/-- From the end of a walk that has not met `z` before, every walk to the end edge meets `z`. -/
theorem crossed_of_walk (other : z ≠ entry)
    (every : ∀ W, Walk E.successors entry W E.last → z ∈ W) (branch : f ∈ E.successors entry)
    (walk : Walk E.successors f (before ++ [x]) x) (free : z ∉ before)
    (onwards : Walk E.successors x W E.last) : z ∈ W := by
  obtain ⟨U, whole, visits⟩ := walk.trans onwards
  have met := every (entry :: U) (.step branch whole)
  rcases (visits z).1 ((List.mem_cons.1 met).resolve_left other) with early | late
  · rcases List.mem_append.1 early with inside | here
    · exact absurd inside free
    · obtain rfl := List.mem_singleton.1 here
      exact onwards.first_mem
  · exact late

/-- A branch leads to `z`, as it leads to the end edge. -/
theorem bounded_of_every (other : z ≠ entry)
    (every : ∀ W, Walk E.successors entry W E.last → z ∈ W) (branch : f ∈ E.successors entry)
    (onwards : Walk E.successors f W E.last) :
    ∃ before, Walk E.successors f (before ++ [z]) z ∧ z ∉ before := by
  have met := every (entry :: W) (.step branch onwards)
  exact onwards.until_first ((List.mem_cons.1 met).resolve_left other)

theorem exists_branch (valid : E.Valid) (forking : (E.kindOf fork).isForking = true) :
    ∃ f, E.source f = fork := by
  apply valid.left
  rintro rfl
  rw [(valid.finish_iff _).2 rfl] at forking
  cases forking

/-- On a closed valid graph the bond of a fork is its own region. It holds exactly the edges that
end a walk which begins with a branch of the fork and meets the immediate post-dominator of the edge
into the fork at most at the end. This post-dominator is in the bond, and every walk from an edge of
the bond to the end edge passes it. -/
theorem bond_exact {g : Graph} {E : EdgeGraph} (accepted : g.validate = .ok ())
    (closed : EdgeGraph.ofGraph g = .ok E) {fork : Fin E.order}
    (forking : (E.kindOf fork).isForking = true) : ∃ entry z, E.soleIncoming fork = .ok entry ∧
      (Dominance.compute E .backward).value.immediate? entry = some z ∧
      ForkRegion E fork entry z (bond (Dominance.compute E .backward).value fork entry).value := by
  have valid := EdgeGraph.valid_of_validate accepted closed
  have splitting := NodeKind.isSplitting_of_isForking forking
  have enters := valid.target_entryOf splitting
  have follows : ∀ f, E.source f = fork → f ∈ E.successors (E.entryOf fork) :=
    fun f leaves => E.mem_successors.2 (leaves.trans enters.symm)
  obtain ⟨f, leaves⟩ := exists_branch valid forking
  have notLast : E.entryOf fork ≠ E.last := by
    intro last
    rw [last] at enters
    exact valid.not_after_last f (leaves.trans enters.symm)
  obtain ⟨z, immediate⟩ := Dominance.exists_immediate? (valid.reached .backward _) notLast
  obtain ⟨other, every, closest⟩ := valid.immediate?_backward_iff.1 immediate
  refine ⟨E.entryOf fork, z, valid.soleIncoming_eq splitting, immediate, ?_⟩
  refine
    { entered := valid.target_iff splitting
      other
      every
      closest
      reached := fun x => mem_bond_iff immediate
      bounded := ?bounded
      crossed := ?crossed }
  case bounded =>
    obtain ⟨W, onwards⟩ := valid.exists_walk_to_last f
    obtain ⟨before, walk, free⟩ := bounded_of_every other every (follows f leaves) onwards
    exact (mem_bond_iff immediate).2 ⟨f, before, leaves, walk, free⟩
  case crossed =>
    intro x inside W onwards
    obtain ⟨f, before, leaves, walk, free⟩ := (mem_bond_iff immediate).1 inside
    exact crossed_of_walk other every (follows f leaves) walk free onwards

/-- One branch of the fork 2 leads back to it, the other one on to 3. -/
def rewinding : Graph where
  name := "rewinding"
  nodes := [.start, .merge, .fork, .activity, .finish].map (⟨·, []⟩)
  flows := [⟨0, 1⟩, ⟨1, 2⟩, ⟨2, 1⟩, ⟨2, 3⟩, ⟨3, 4⟩]
  flows_inside := by decide

def rewindingEdges : EdgeGraph :=
  .closing rewinding ⟨0, by decide⟩ ⟨4, by decide⟩

def rewindingEdge (e : Nat) (inside : e < 5 := by decide) : Fin rewindingEdges.size :=
  ⟨e, inside⟩

/-- The bond of the fork leads around the loop, over the edge into the fork again, and is bounded by
the branch that leads on. -/
theorem bond_rewinding :
    rewinding.validate = .ok () ∧ EdgeGraph.ofGraph rewinding = .ok rewindingEdges ∧
      ForkRegion rewindingEdges ⟨2, by decide⟩ (rewindingEdge 1) (rewindingEdge 3)
        (.ofList [rewindingEdge 1, rewindingEdge 2, rewindingEdge 3]) := by
  have accepted : rewinding.validate = .ok () := by decide +kernel
  have closed : EdgeGraph.ofGraph rewinding = .ok rewindingEdges := rfl
  have forking : (rewindingEdges.kindOf ⟨2, by decide⟩).isForking = true := rfl
  have entered : rewindingEdges.soleIncoming ⟨2, by decide⟩ = .ok (rewindingEdge 1) := by
    decide +kernel
  obtain ⟨entry, z, sole, immediate, region⟩ := bond_exact accepted closed forking
  obtain rfl := Except.ok.inj (entered.symm.trans sole)
  obtain rfl : rewindingEdge 3 = z := by
    apply Option.some.inj
    rw [← immediate]
    decide +kernel
  have found : (bond (Dominance.compute rewindingEdges .backward).value ⟨2, by decide⟩
      (rewindingEdge 1)).value = .ofList [rewindingEdge 1, rewindingEdge 2, rewindingEdge 3] := by
    decide +kernel
  rw [found] at region
  exact ⟨accepted, closed, region⟩

end WorkflowSoundness.Abundance
