import WorkflowSoundness.Proofs.IndexSets.Elements

/-!
Reading a set element by element. A scan finds the least element from a position on
(`next?_eq_some_iff`, `next?_eq_none_iff`), also from a position that the words do not have. An
iterator scans again behind what it has found; its calls answer the elements in ascending order,
each once, and after them nothing (`scan_exact`).
-/

namespace WorkflowSoundness.IndexSet

variable {s : IndexSet} {i j : Nat}

theorem next?_eq_some_iff : s.next? i = some j ↔
    j ∈ s.elements ∧ i ≤ j ∧ ∀ k ∈ s.elements, i ≤ k → j ≤ k := by
  rw [next?, Option.map_eq_some_iff]
  constructor
  · rintro ⟨j, found, rfl⟩
    obtain ⟨member, lower, least⟩ := BitSet.next?_eq_some_iff.1 found
    refine ⟨mem_members.1 member, lower, ?_⟩
    intro k member from_i
    obtain ⟨inside, member⟩ := mem_elements.1 member
    exact least ⟨k, inside⟩ member from_i
  · rintro ⟨member, lower, least⟩
    obtain ⟨inside, member⟩ := mem_elements.1 member
    refine ⟨⟨j, inside⟩, BitSet.next?_eq_some_iff.2 ⟨member, lower, ?_⟩, rfl⟩
    intro k kept from_i
    exact least k (mem_members.1 kept) from_i

theorem next?_eq_none_iff : s.next? i = none ↔ ∀ k ∈ s.elements, k < i := by
  rw [next?, Option.map_eq_none_iff, BitSet.next?_eq_none_iff]
  constructor
  · intro below k member
    obtain ⟨inside, member⟩ := mem_elements.1 member
    exact below ⟨k, inside⟩ member
  · intro below k member
    exact below k (mem_members.1 member)

/-! ### Iterators -/

/-- One call of an iterator: its answer, and the position from which the next call scans. -/
def advance (s : IndexSet) (position : Nat) : Option Nat × Nat :=
  match s.next? position with
  | some j => (some j, j + 1)
  | none => (none, position)

/-- What a row of calls answers. -/
def answersFrom (s : IndexSet) : (calls position : Nat) → List (Option Nat)
  | 0, _ => []
  | calls + 1, position =>
    (s.advance position).1 :: s.answersFrom calls (s.advance position).2

/-- The elements that are still to come at a position. -/
def upcoming (s : IndexSet) (position : Nat) : List Nat :=
  (s.members.membersFrom position).map Fin.val

theorem upcoming_of_none (none : s.next? i = none) : s.upcoming i = [] := by
  rw [next?, Option.map_eq_none_iff] at none
  rw [upcoming, BitSet.membersFrom]
  split
  · rfl
  · rename_i found
    rw [none] at found
    cases found

theorem upcoming_of_some (some : s.next? i = some j) :
    s.upcoming i = j :: s.upcoming (j + 1) := by
  obtain ⟨j, found, rfl⟩ := Option.map_eq_some_iff.1 some
  rw [upcoming, BitSet.membersFrom]
  split
  · rename_i none
    rw [found] at none
    cases none
  · rename_i other
    rw [found] at other
    cases other
    rfl

/-- One call answers the first of the upcoming elements and leaves the others. -/
theorem advance_upcoming (s : IndexSet) (position : Nat) :
    (s.advance position).1 = (s.upcoming position).head? ∧
      s.upcoming (s.advance position).2 = (s.upcoming position).tail := by
  unfold advance
  cases found : s.next? position with
  | none =>
    dsimp only
    rw [upcoming_of_none found]
    exact ⟨rfl, rfl⟩
  | some j =>
    rw [upcoming_of_some found]
    exact ⟨rfl, rfl⟩

theorem answersFrom_eq (s : IndexSet) (calls position : Nat) :
    s.answersFrom calls position = (List.range calls).map fun k => (s.upcoming position)[k]? := by
  induction calls generalizing position with
  | zero => rfl
  | succ calls ih =>
    obtain ⟨answer, rest⟩ := s.advance_upcoming position
    rw [answersFrom, ih, answer, rest, List.range_succ_eq_map, List.map_cons, List.map_map,
      List.head?_eq_getElem?]
    simp only [List.getElem?_tail, Function.comp_def]

/-- A scan finds the least element from any position on, and nothing if there is none. The listing
ascends, holds exactly the elements and is as long as their count, and an iterator's calls answer
it entry by entry and then nothing. -/
theorem scan_exact (s : IndexSet) :
    (∀ i j, s.next? i = some j ↔ j ∈ s.elements ∧ i ≤ j ∧ ∀ k ∈ s.elements, i ≤ k → j ≤ k) ∧
      (∀ i, s.next? i = none ↔ ∀ k ∈ s.elements, k < i) ∧
      s.toList.Pairwise (· < ·) ∧ (∀ i, i ∈ s.toList ↔ i ∈ s.elements) ∧
      s.toList.length = s.count ∧
      ∀ calls, s.answersFrom calls 0 = (List.range calls).map fun k => s.toList[k]? :=
  ⟨fun _ _ => next?_eq_some_iff, fun _ => next?_eq_none_iff, s.sorted_toList, fun _ => mem_toList,
    s.length_toList, fun calls => s.answersFrom_eq calls 0⟩

end WorkflowSoundness.IndexSet
