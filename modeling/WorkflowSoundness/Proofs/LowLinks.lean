import Mathlib.Data.List.Nodup
import WorkflowSoundness.Proofs.StrongComponents

/-!
What the numbers and low links tell in the end. Every edge gets one of the numbers from 0 on, each
number once. A low link is always the number of an edge that leads to its own edge and back, for
what is in no component leads back to the innermost frame (`Linked.path_to_innermost`); and an edge
that is left with its own number has the least number of all that it leads to and back
(`Marked.leave`). Neither changes once the edge has been left, so the final tables say the same
(`lowLinks_exact`).
-/

namespace WorkflowSoundness

namespace Components

open DepthFirst

variable {n : Nat} {next : Fin n → BitSet n} {frames outer : List (DepthFirst.Frame n)}
  {seen : BitSet n} {progress : Progress n} {a s x : Fin n} {pending : List (Fin n)}

namespace Linked

/-- Everything in no component leads back to the innermost frame. -/
theorem path_to_innermost (linked : Linked next (⟨a, pending⟩ :: outer) seen progress)
    (member : x ∈ progress.unassigned) : BitSet.Path next x a := by
  induction rank : progress.index[x] using Nat.strongRecOn generalizing x with
  | ind k ih =>
    subst rank
    by_cases isOpen : x ∈
        (⟨a, pending⟩ :: outer : List (DepthFirst.Frame n)).map DepthFirst.Frame.index
    · exact linked.path_of_frame isOpen
    · obtain ⟨y, inside, before, path⟩ := linked.back x member isOpen
      exact path.trans (ih _ before inside rfl)

/-- What is on a cycle with an edge whose low link is its number has been entered since. -/
theorem since_of_cycle (linked : Linked next (⟨a, []⟩ :: outer) seen progress)
    (root : progress.lowLink[a] = progress.index[a]) {y : Fin n} (there : BitSet.Path next x y)
    (back : BitSet.Path next y a) (member : x ∈ progress.unassigned)
    (since : progress.index[a] ≤ progress.index[x]) :
    y ∈ progress.unassigned ∧ progress.index[a] ≤ progress.index[y] := by
  induction there with
  | stay => exact ⟨member, since⟩
  | @step x t y step rest ih =>
    obtain ⟨old, bound⟩ := linked.stays root member since step
    by_cases isKnown : t ∈ progress.unassigned
    · exact ih back isKnown (bound isKnown)
    · exact absurd (rest.trans back)
        (linked.not_path old isKnown (linked.opened a List.mem_cons_self))

end Linked

/-- What the numbers and low links say of all that has been entered. -/
structure Marked (next : Fin n → BitSet n) (frames : List (DepthFirst.Frame n)) (seen : BitSet n)
    (progress : Progress n) : Prop extends Linked next frames seen progress where
  numbers : ∀ k, k < progress.entered ↔ ∃ x ∈ seen, progress.index[x] = k
  distinct : ∀ x ∈ seen, ∀ y ∈ seen, progress.index[x] = progress.index[y] → x = y
  lowest : ∀ x ∈ seen, progress.lowLink[x] ≤ progress.index[x]
  tied : ∀ x ∈ seen, ∃ y ∈ seen,
    progress.index[y] = progress.lowLink[x] ∧ BitSet.Path next x y ∧ BitSet.Path next y x
  least : ∀ x ∈ seen, x ∉ frames.map DepthFirst.Frame.index →
    progress.lowLink[x] = progress.index[x] → ∀ y, BitSet.Path next x y → BitSet.Path next y x →
      y ∈ seen ∧ progress.index[x] ≤ progress.index[y]

section Lower

variable {b : Fin n} {bound : Nat}

theorem lowLink_lower_of_ne (other : x ≠ b) :
    (progress.lower b bound).lowLink[x] = progress.lowLink[x] :=
  Table.getElem_set_ne (Ne.symm other) _

theorem lowLink_lower_le_self (progress : Progress n) (b x : Fin n) (bound : Nat) :
    (progress.lower b bound).lowLink[x] ≤ progress.lowLink[x] := by
  by_cases here : x = b
  · subst here
    unfold Progress.lower
    rw [Table.getElem_set_self]
    exact Nat.min_le_left _ _
  · exact Nat.le_of_eq (lowLink_lower_of_ne here)

/-- A low link may be lowered to the number of something that its edge leads to and back. -/
theorem tied_lower (tied : ∀ x ∈ seen, ∃ y ∈ seen, progress.index[y] = progress.lowLink[x] ∧
      BitSet.Path next x y ∧ BitSet.Path next y x)
    (known : bound < progress.lowLink[b] → ∃ y ∈ seen, progress.index[y] = bound ∧
      BitSet.Path next b y ∧ BitSet.Path next y b) :
    ∀ x ∈ seen, ∃ y ∈ seen, progress.index[y] = (progress.lower b bound).lowLink[x] ∧
      BitSet.Path next x y ∧ BitSet.Path next y x := by
  intro x old
  by_cases here : x = b
  · subst here
    unfold Progress.lower
    rw [Table.getElem_set_self]
    rcases Nat.lt_or_ge bound progress.lowLink[x] with less | more
    · rw [Nat.min_eq_right (Nat.le_of_lt less)]
      exact known less
    · rw [Nat.min_eq_left more]
      exact tied x old
  · rw [lowLink_lower_of_ne here]
    exact tied x old

end Lower

section Leave

theorem tables_leave_none (progress : Progress n) (a : Fin n) :
    (progress.advance (.leave a none)).index = progress.index ∧
      (progress.advance (.leave a none)).lowLink = progress.lowLink ∧
      (progress.advance (.leave a none)).entered = progress.entered := by
  unfold Progress.advance
  dsimp only
  split
  · exact ⟨rfl, rfl, rfl⟩
  · exact ⟨rfl, rfl, rfl⟩

theorem tables_leave_some (progress : Progress n) (a p : Fin n) :
    (progress.advance (.leave a (some p))).index = progress.index ∧
      (progress.advance (.leave a (some p))).lowLink =
        (progress.lower p progress.lowLink[a]).lowLink ∧
      (progress.advance (.leave a (some p))).entered = progress.entered := by
  unfold Progress.advance
  dsimp only
  split
  · exact ⟨rfl, rfl, rfl⟩
  · exact ⟨rfl, rfl, rfl⟩

theorem unassigned_leave (parent : Option (Fin n))
    (notRoot : progress.lowLink[a] ≠ progress.index[a]) :
    (progress.advance (.leave a parent)).unassigned = progress.unassigned := by
  unfold Progress.advance
  dsimp only
  rw [if_neg notRoot]
  cases parent with
  | none => rfl
  | some p => rfl

end Leave

namespace Marked

theorem initial : Marked next [] ∅ (.initial n) where
  toLinked := .initial
  numbers := by simp [Progress.initial, BitSet.not_mem_empty]
  distinct := fun x old => absurd old (BitSet.not_mem_empty x)
  lowest := fun x old => absurd old (BitSet.not_mem_empty x)
  tied := fun x old => absurd old (BitSet.not_mem_empty x)
  least := fun x old => absurd old (BitSet.not_mem_empty x)

section Enter

variable (marked : Marked next frames seen progress) (fresh : s ∉ seen) (parent : Option (Fin n))

include marked fresh

theorem index_enter_of_old_lt (old : x ∈ seen) :
    (progress.advance (.enter s parent)).index[x] <
      (progress.advance (.enter s parent)).index[s] := by
  rw [index_enter_of_old fresh parent old, index_enter_self]
  exact (marked.numbers _).2 ⟨x, old, rfl⟩

/-- A new index gets the next number. -/
theorem enter {inner : List (DepthFirst.Frame n)}
    (same : inner.map DepthFirst.Frame.index = frames.map DepthFirst.Frame.index)
    (linked : Linked next (⟨s, (next s).toList⟩ :: inner) (seen.insert s)
      (progress.advance (.enter s parent))) :
    Marked next (⟨s, (next s).toList⟩ :: inner) (seen.insert s)
      (progress.advance (.enter s parent)) := by
  have index : ∀ x ∈ seen, (progress.advance (.enter s parent)).index[x] = progress.index[x] :=
    fun x old => index_enter_of_old fresh parent old
  have lowLink : ∀ x ∈ seen,
      (progress.advance (.enter s parent)).lowLink[x] = progress.lowLink[x] :=
    fun x old => lowLink_enter_of_old fresh parent old
  -- Everything else has kept its number, and these are all lower than the new one.
  have below := fun x (old : x ∈ seen) => marked.index_enter_of_old_lt fresh parent old
  have first := index_enter_self progress s parent
  have second := lowLink_enter_self progress s parent
  refine { linked with
    numbers := ?numbers, distinct := ?distinct, lowest := ?lowest, tied := ?tied, least := ?least }
  case numbers =>
    intro k
    change k < progress.entered + 1 ↔ _
    constructor
    · intro less
      rcases Nat.lt_succ_iff_lt_or_eq.1 less with less | rfl
      · obtain ⟨x, old, number⟩ := (marked.numbers k).1 less
        exact ⟨x, BitSet.mem_insert.2 (Or.inr old), (index x old).trans number⟩
      · exact ⟨s, BitSet.mem_insert.2 (Or.inl rfl), first⟩
    · rintro ⟨x, member, rfl⟩
      rcases BitSet.mem_insert.1 member with rfl | old
      · rw [first]
        exact Nat.lt_succ_self _
      · rw [index x old]
        exact Nat.lt_succ_of_lt ((marked.numbers _).2 ⟨x, old, rfl⟩)
  case distinct =>
    intro x isX y isY number
    rcases BitSet.mem_insert.1 isX with rfl | oldX
    · rcases BitSet.mem_insert.1 isY with rfl | oldY
      · rfl
      · exact absurd number.symm (Nat.ne_of_lt (below y oldY))
    · rcases BitSet.mem_insert.1 isY with rfl | oldY
      · exact absurd number (Nat.ne_of_lt (below x oldX))
      · rw [index x oldX, index y oldY] at number
        exact marked.distinct x oldX y oldY number
  case lowest =>
    intro x member
    rcases BitSet.mem_insert.1 member with rfl | old
    · exact Nat.le_of_eq (second.trans first.symm)
    · rw [index x old, lowLink x old]
      exact marked.lowest x old
  case tied =>
    intro x member
    rcases BitSet.mem_insert.1 member with rfl | old
    · exact ⟨x, member, first.trans second.symm, .stay x, .stay x⟩
    · obtain ⟨y, oldY, number, there, back⟩ := marked.tied x old
      refine ⟨y, BitSet.mem_insert.2 (Or.inr oldY), ?_, there, back⟩
      rw [index y oldY, lowLink x old]
      exact number
  case least =>
    intro x member closed root y there back
    rw [List.map_cons, List.mem_cons, same, not_or] at closed
    have old := (BitSet.mem_insert.1 member).resolve_left closed.1
    rw [index x old, lowLink x old] at root
    obtain ⟨oldY, order⟩ := marked.least x old closed.2 root y there back
    rw [index x old, index y oldY]
    exact ⟨BitSet.mem_insert.2 (Or.inr oldY), order⟩

end Enter

/-- The innermost frame has looked at a successor that is not new. -/
theorem look (marked : Marked next (⟨a, s :: pending⟩ :: outer) seen progress) (old : s ∈ seen) :
    Marked next (⟨a, pending⟩ :: outer) seen (progress.advance (.look a s)) := by
  have linked := marked.toLinked.look old
  unfold Progress.advance at linked ⊢
  dsimp only at linked ⊢
  split at linked
  · rename_i inside
    rw [if_pos inside]
    have isKnown := List.contains_iff_mem.1 inside
    have back := marked.toLinked.path_to_innermost isKnown
    have there := marked.toLinked.leads a List.mem_cons_self
    exact
      { linked with
        numbers := marked.numbers
        distinct := marked.distinct
        lowest := fun x member =>
          Nat.le_trans (lowLink_lower_le_self progress a x _) (marked.lowest x member)
        tied := tied_lower marked.tied fun _ => ⟨s, old, rfl, there, back⟩
        least := fun x member closed root => by
          have other : x ≠ a := fun here => closed (here ▸ List.mem_cons_self)
          rw [lowLink_lower_of_ne other] at root
          exact marked.least x member closed root }
  · rename_i outside
    rw [if_neg outside]
    exact
      { linked with
        numbers := marked.numbers
        distinct := marked.distinct
        lowest := marked.lowest
        tied := marked.tied
        least := marked.least }

/-- An edge that is left with its own number has the least number of all that it leads to and
back. -/
theorem least_of_root (marked : Marked next (⟨a, []⟩ :: outer) seen progress)
    (root : progress.lowLink[a] = progress.index[a]) (y : Fin n) (there : BitSet.Path next a y)
    (back : BitSet.Path next y a) : y ∈ seen ∧ progress.index[a] ≤ progress.index[y] := by
  have isOpen := marked.opened a List.mem_cons_self
  obtain ⟨member, since⟩ := marked.since_of_cycle root there back isOpen (Nat.le_refl _)
  exact ⟨(marked.known y member).1, since⟩

/-- An edge that does not close a component leads to its parent and back. -/
theorem tied_parent {p : Fin n} {later : List (Fin n)}
    (marked : Marked next (⟨a, []⟩ :: ⟨p, later⟩ :: outer) seen progress)
    (less : progress.lowLink[a] < progress.lowLink[p]) : ∃ y ∈ seen,
      progress.index[y] = progress.lowLink[a] ∧ BitSet.Path next p y ∧ BitSet.Path next y p := by
  have isOpen := marked.opened a List.mem_cons_self
  have isFrame : p ∈
      (⟨a, []⟩ :: ⟨p, later⟩ :: outer : List (DepthFirst.Frame n)).map DepthFirst.Frame.index :=
    List.mem_cons_of_mem a List.mem_cons_self
  have above : progress.index[p] < progress.index[a] :=
    (List.pairwise_cons.1 marked.nested).1 p List.mem_cons_self
  have notRoot : progress.lowLink[a] ≠ progress.index[a] := by
    have low := marked.low p (marked.opened p isFrame)
    omega
  have descends := marked.path_of_frame isFrame
  have climbs : BitSet.Path next a p := by
    apply marked.toLinked.leave.path_to_innermost
    rw [unassigned_leave _ notRoot]
    exact isOpen
  obtain ⟨y, old, number, there, back⟩ := marked.tied a (marked.known a isOpen).1
  exact ⟨y, old, number, descends.trans there, back.trans climbs⟩

/-- The innermost frame has looked at all its successors and is left. -/
theorem leave (marked : Marked next (⟨a, []⟩ :: outer) seen progress) :
    Marked next outer seen
      (progress.advance (.leave a (outer.head?.map DepthFirst.Frame.index))) := by
  have linked := marked.toLinked.leave
  cases outer with
  | nil =>
    obtain ⟨index, lowLink, entered⟩ := tables_leave_none progress a
    rw [List.head?_nil, Option.map_none] at linked ⊢
    refine { linked with
      numbers := ?numbers, distinct := ?distinct, lowest := ?lowest, tied := ?tied,
      least := ?least }
    all_goals simp only [index, lowLink, entered]
    case numbers => exact marked.numbers
    case distinct => exact marked.distinct
    case lowest => exact marked.lowest
    case tied => exact marked.tied
    case least =>
      intro x old _ root
      by_cases here : x = a
      · subst here
        exact marked.least_of_root root
      · exact marked.least x old (by simpa using here) root
  | cons frame outer =>
    obtain ⟨p, later⟩ := frame
    obtain ⟨index, lowLink, entered⟩ := tables_leave_some progress a p
    rw [List.head?_cons, Option.map_some] at linked ⊢
    refine { linked with
      numbers := ?numbers, distinct := ?distinct, lowest := ?lowest, tied := ?tied,
      least := ?least }
    all_goals simp only [index, lowLink, entered]
    case numbers => exact marked.numbers
    case distinct => exact marked.distinct
    case lowest =>
      intro x old
      exact Nat.le_trans (lowLink_lower_le_self progress p x _) (marked.lowest x old)
    case tied => exact tied_lower marked.tied marked.tied_parent
    case least =>
      intro x old closed root
      have other : x ≠ p := fun here => closed (here ▸ List.mem_cons_self)
      rw [lowLink_lower_of_ne other] at root
      by_cases here : x = a
      · subst here
        exact marked.least_of_root root
      · exact marked.least x old (List.not_mem_cons_of_ne_of_not_mem here closed) root

theorem invariant : Invariant next Progress.advance (Marked next) where
  start := fun marked fresh =>
    marked.enter fresh none rfl (Linked.invariant.start marked.toLinked fresh)
  enter := fun {a _ _ _ _ _} marked fresh =>
    marked.enter fresh (some a) rfl (Linked.invariant.enter marked.toLinked fresh)
  look := look
  leave := leave

end Marked

theorem perm_index (marked : Marked next frames seen progress) (all : ∀ x, x ∈ seen) :
    ((List.finRange n).map fun x => progress.index[x]).Perm (List.range n) := by
  have once : ((List.finRange n).map fun x => progress.index[x]).Nodup := by
    apply List.Nodup.map _ (List.nodup_finRange n)
    intro x y number
    exact marked.distinct x (all x) y (all y) number
  have perm : ((List.finRange n).map fun x => progress.index[x]).Perm
      (List.range progress.entered) := by
    apply (List.perm_ext_iff_of_nodup once List.nodup_range).2
    intro k
    simp [marked.numbers, all]
  have size := perm.length_eq
  rw [List.length_map, List.length_finRange, List.length_range] at size
  rwa [← size] at perm

/-- On any closed graph the discovery numbers of the edges are those from 0 on, each once. The low
link of an edge is at most its number and is the number of an edge that it leads to and that leads
back to it; it is the number of the edge itself if and only if that is the least of all these. -/
theorem lowLinks_exact (E : EdgeGraph) :
    let components := compute E
    ((List.finRange E.size).map fun e => components.index[e]).Perm (List.range E.size) ∧
      ∀ e : Fin E.size, components.lowLink[e] ≤ components.index[e] ∧
        (∃ f : Fin E.size, components.index[f] = components.lowLink[e] ∧
          BitSet.Path E.successors e f ∧ BitSet.Path E.successors f e) ∧
        (components.lowLink[e] = components.index[e] ↔
          ∀ f : Fin E.size, BitSet.Path E.successors e f → BitSet.Path E.successors f e →
            components.index[e] ≤ components.index[f]) := by
  intro components
  obtain ⟨final, marked, -, found⟩ :=
    Marked.invariant.run .initial (List.finRange E.size)
  have all : ∀ e, e ∈ final := fun e => found e (List.mem_finRange e)
  refine ⟨perm_index marked all, fun e => ?_⟩
  obtain ⟨f, -, number, there, back⟩ := marked.tied e (all e)
  have low := marked.lowest e (all e)
  refine ⟨low, ⟨f, number, there, back⟩, ?_, ?_⟩
  · intro root f there back
    exact (marked.least e (all e) List.not_mem_nil root f there back).2
  · intro least
    exact Nat.le_antisymm low (Nat.le_trans (least f there back) (Nat.le_of_eq number))

/-- The loop over 2 and 3 lies within the one over 1 to 4. -/
def encircling : Graph where
  name := "encircling"
  nodes := [.start, .merge, .merge, .split, .split, .finish].map (⟨·, []⟩)
  flows := [⟨0, 1⟩, ⟨1, 2⟩, ⟨2, 3⟩, ⟨3, 4⟩, ⟨3, 2⟩, ⟨4, 1⟩, ⟨4, 5⟩]
  flows_inside := by decide

def encirclingEdges : EdgeGraph :=
  .closing encircling ⟨0, by decide⟩ ⟨6, by decide⟩

def encirclingEdge (e : Nat) (inside : e < 7 := by decide) : Fin encirclingEdges.size :=
  ⟨e, inside⟩

/-- The edge that closes the inner loop has the number of that loop's first edge as its low link,
although the edge that the outer loop begins with has a lower number. -/
theorem lowLinks_encircling :
    let components := compute encirclingEdges
    components.lowLink[encirclingEdge 4] = 2 ∧
      (∃ f, components.index[f] = 2 ∧ BitSet.Path encirclingEdges.successors (encirclingEdge 4) f ∧
        BitSet.Path encirclingEdges.successors f (encirclingEdge 4)) ∧
      components.lowLink[encirclingEdge 1] = 1 ∧
      ∀ f, BitSet.Path encirclingEdges.successors (encirclingEdge 1) f →
        BitSet.Path encirclingEdges.successors f (encirclingEdge 1) → 1 ≤ components.index[f] := by
  intro components
  have inner : components.lowLink[encirclingEdge 4] = 2 := by decide +kernel
  have outer : components.lowLink[encirclingEdge 1] = 1 := by decide +kernel
  have number : components.index[encirclingEdge 1] = 1 := by decide +kernel
  obtain ⟨-, exact⟩ := lowLinks_exact encirclingEdges
  obtain ⟨-, ⟨f, same, there, back⟩, -⟩ := exact (encirclingEdge 4)
  refine ⟨inner, ⟨f, same.trans inner, there, back⟩, outer, ?_⟩
  intro f there back
  have root := (exact (encirclingEdge 1)).2.2.1 (outer.trans number.symm)
  exact Nat.le_trans (Nat.le_of_eq number.symm) (root f there back)

end Components
end WorkflowSoundness
