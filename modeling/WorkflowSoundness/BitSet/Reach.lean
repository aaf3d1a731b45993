import WorkflowSoundness.BitSet.Scan

/-!
What can be reached by steps. `Path next a b` says that some steps of `next` lead from `a`
to `b`; `reach next seeds` holds exactly the indices that a path from a seed ends in
(`mem_reach_iff`).
-/

namespace WorkflowSoundness.BitSet

variable {n : Nat}

/-- Some steps of `next`, possibly none, lead from the first index to the second. -/
inductive Path (next : Fin n → BitSet n) : Fin n → Fin n → Prop where
  | stay (a : Fin n) : Path next a a
  | step {a b c : Fin n} (first : b ∈ next a) (rest : Path next b c) : Path next a c

namespace Path

variable {next : Fin n → BitSet n} {a b c : Fin n}

theorem trans (left : Path next a b) (right : Path next b c) : Path next a c := by
  induction left with
  | stay => exact right
  | step first _ ih => exact .step first (ih right)

theorem snoc (left : Path next a b) (last : c ∈ next b) : Path next a c :=
  left.trans (.step last (.stay c))

end Path

/-- Takes the last seen index first; an index already seen is not expanded again. -/
def reachFrom (next : Fin n → BitSet n) (todo : List (Fin n)) (seen : BitSet n) : BitSet n :=
  match todo with
  | [] => seen
  | a :: rest =>
    if a ∈ seen then
      reachFrom next rest seen
    else
      reachFrom next ((next a).toList ++ rest) (seen.insert a)
termination_by seen.room * (n + 1) + todo.length
decreasing_by
  · simp
  · rename_i fresh
    have used := room_insert_lt fresh
    have few := (next a).length_toList_le
    have bound : (seen.insert a).room * (n + 1) + (n + 1) ≤ seen.room * (n + 1) := by
      rw [← Nat.succ_mul]
      exact Nat.mul_le_mul_right _ used
    simp only [List.length_append, List.length_cons]
    omega

/-- What the seeds lead to, themselves included. -/
def reach (next : Fin n → BitSet n) (seeds : List (Fin n)) : BitSet n :=
  reachFrom next seeds ∅

theorem reachFrom_sound {next : Fin n → BitSet n} {todo : List (Fin n)} {seen : BitSet n}
    {c : Fin n} (reached : c ∈ reachFrom next todo seen) :
    c ∈ seen ∨ ∃ a ∈ todo, Path next a c := by
  fun_induction reachFrom next todo seen with
  | case1 seen => exact Or.inl reached
  | case2 seen a rest _ ih =>
    rcases ih reached with old | ⟨b, later, path⟩
    · exact Or.inl old
    · exact Or.inr ⟨b, List.mem_cons_of_mem _ later, path⟩
  | case3 seen a rest _ ih =>
    rcases ih reached with old | ⟨b, later, path⟩
    · rcases mem_insert.1 old with rfl | old
      · exact Or.inr ⟨c, List.mem_cons_self, .stay c⟩
      · exact Or.inl old
    · rcases List.mem_append.1 later with first | later
      · exact Or.inr ⟨a, List.mem_cons_self, .step (mem_toList.1 first) path⟩
      · exact Or.inr ⟨b, List.mem_cons_of_mem _ later, path⟩

theorem reachFrom_complete {next : Fin n → BitSet n} {todo : List (Fin n)} {seen : BitSet n}
    (closed : ∀ a ∈ seen, ∀ b ∈ next a, b ∈ seen ∨ b ∈ todo) :
    (∀ a, a ∈ seen ∨ a ∈ todo → a ∈ reachFrom next todo seen) ∧
      ∀ a ∈ reachFrom next todo seen, ∀ b ∈ next a, b ∈ reachFrom next todo seen := by
  fun_induction reachFrom next todo seen with
  | case1 seen =>
    refine ⟨fun a member => by simpa using member, fun a member b step => ?_⟩
    simpa using closed a member b step
  | case2 seen a rest old ih =>
    obtain ⟨keeps, steps⟩ := ih fun b member c step => by
      rcases closed b member c step with inside | later
      · exact Or.inl inside
      · rcases List.mem_cons.1 later with rfl | later
        · exact Or.inl old
        · exact Or.inr later
    refine ⟨fun b member => keeps b ?_, steps⟩
    rcases member with inside | later
    · exact Or.inl inside
    · rcases List.mem_cons.1 later with rfl | later
      · exact Or.inl old
      · exact Or.inr later
  | case3 seen a rest _ ih =>
    obtain ⟨keeps, steps⟩ := ih fun b member c step => by
      rcases mem_insert.1 member with rfl | inside
      · exact Or.inr (List.mem_append_left _ (mem_toList.2 step))
      · rcases closed b inside c step with inside | later
        · exact Or.inl (mem_insert.2 (Or.inr inside))
        · rcases List.mem_cons.1 later with rfl | later
          · exact Or.inl (mem_insert.2 (Or.inl rfl))
          · exact Or.inr (List.mem_append_right _ later)
    refine ⟨fun b member => keeps b ?_, steps⟩
    rcases member with inside | later
    · exact Or.inl (mem_insert.2 (Or.inr inside))
    · rcases List.mem_cons.1 later with rfl | later
      · exact Or.inl (mem_insert.2 (Or.inl rfl))
      · exact Or.inr (List.mem_append_right _ later)

theorem mem_reach_iff {next : Fin n → BitSet n} {seeds : List (Fin n)} {c : Fin n} :
    c ∈ reach next seeds ↔ ∃ a ∈ seeds, Path next a c := by
  constructor
  · intro reached
    rcases reachFrom_sound reached with inside | found
    · exact absurd inside (not_mem_empty c)
    · exact found
  · rintro ⟨a, seed, path⟩
    obtain ⟨keeps, steps⟩ := @reachFrom_complete n next seeds ∅
      fun b inside => absurd inside (not_mem_empty b)
    have start := keeps a (Or.inr seed)
    clear seed keeps
    induction path with
    | stay => exact start
    | step first _ ih => exact ih (steps _ start _ first)

end WorkflowSoundness.BitSet
