import WorkflowSoundness.BitSet.Scan

/-!
Depth-first search as the list of its steps. The search starts from each root that is
still new, looks at the successors of an index in the given order, and leaves an index when
all of them have been looked at. What an analysis wants to know of a search it reads off
the steps.
-/

namespace WorkflowSoundness.DepthFirst

variable {n : Nat}

/-- One step of a search. -/
inductive Step (n : Nat) where
  /-- The index is new; it was found from its parent, or is a root. -/
  | enter (a : Fin n) (parent : Option (Fin n))
  /-- A successor that is not new. -/
  | look (a successor : Fin n)
  | leave (a : Fin n) (parent : Option (Fin n))
  deriving DecidableEq, Repr

/-- An index being searched, with the successors still to be looked at. -/
structure Frame (n : Nat) where
  index : Fin n
  pending : List (Fin n)

/-- The innermost frame comes first. -/
def stepsFrom (next : Fin n → BitSet n) (roots : List (Fin n)) (frames : List (Frame n))
    (seen : BitSet n) : List (Step n) :=
  match frames with
  | [] =>
    match roots with
    | [] => []
    | root :: later =>
      if root ∈ seen then
        stepsFrom next later [] seen
      else
        .enter root none :: stepsFrom next later [⟨root, (next root).toList⟩] (seen.insert root)
  | ⟨a, []⟩ :: outer =>
    .leave a (outer.head?.map Frame.index) :: stepsFrom next roots outer seen
  | ⟨a, s :: pending⟩ :: outer =>
    if s ∈ seen then
      .look a s :: stepsFrom next roots (⟨a, pending⟩ :: outer) seen
    else
      .enter s (some a) ::
        stepsFrom next roots (⟨s, (next s).toList⟩ :: ⟨a, pending⟩ :: outer) (seen.insert s)
termination_by
  seen.room * (n + 2) + (frames.flatMap Frame.pending).length + frames.length + roots.length
decreasing_by
  · simp
  · rename_i fresh
    have used := BitSet.room_insert_lt fresh
    have few := (next root).length_toList_le
    have bound : (seen.insert root).room * (n + 2) + (n + 2) ≤ seen.room * (n + 2) := by
      rw [← Nat.succ_mul]
      exact Nat.mul_le_mul_right _ used
    simp
    omega
  · simp
  · simp
  · rename_i fresh
    have used := BitSet.room_insert_lt fresh
    have few := (next s).length_toList_le
    have bound : (seen.insert s).room * (n + 2) + (n + 2) ≤ seen.room * (n + 2) := by
      rw [← Nat.succ_mul]
      exact Nat.mul_le_mul_right _ used
    simp
    omega

/-- The steps of a search in which nothing has been seen yet. -/
def steps (next : Fin n → BitSet n) (roots : List (Fin n)) : List (Step n) :=
  stepsFrom next roots [] ∅

def Step.left? : Step n → Option (Fin n)
  | .leave a _ => some a
  | _ => none

/-- The indices in the order in which the search leaves them. -/
def postOrder (steps : List (Step n)) : List (Fin n) :=
  steps.filterMap Step.left?

end WorkflowSoundness.DepthFirst
