import WorkflowSoundness.Dominance.Basic

/-!
Climbing a table of parents. In a table that is a tree up to what is known so far, the climbs
from one index meet those from another in a nearest common index, and `meet` and `nearest` find
it (`meet_spec`, `nearest_spec`).
-/

namespace WorkflowSoundness.DominatorTree

variable {n : Nat} {rank : Fin n → Nat} {root : Fin n} {parents : Parents n} {a b c : Fin n}

/-- The second index is the first one or lies above it. -/
inductive Climb (parents : Parents n) : Fin n → Fin n → Prop where
  | stay (a : Fin n) : Climb parents a a
  | up {a b c : Fin n} (above : parents[a] = some b) (other : a ≠ b) (rest : Climb parents b c) :
      Climb parents a c

/-- A table of parents whose known indices form a tree that rises in rank towards the root. -/
structure Rooted (rank : Fin n → Nat) (root : Fin n) (parents : Parents n) : Prop where
  root_parent : parents[root] = some root
  rises : ∀ a b : Fin n, parents[a] = some b → a ≠ root → rank a < rank b
  known_parent : ∀ a b : Fin n, parents[a] = some b → parents[b].isSome = true
  rank_lt : ∀ a : Fin n, parents[a].isSome = true → rank a < n
  rank_inj : ∀ a b : Fin n, parents[a].isSome = true → parents[b].isSome = true →
    rank a = rank b → a = b

namespace Climb

theorem trans (left : Climb parents a b) (right : Climb parents b c) : Climb parents a c := by
  induction left with
  | stay => exact right
  | up above other _ ih => exact .up above other (ih right)

/-- Above a strict ancestor lies the parent. -/
theorem of_parent (climb : Climb parents a c) (above : parents[a] = some b) (strict : a ≠ c) :
    Climb parents b c := by
  cases climb with
  | stay => exact absurd rfl strict
  | up above' _ rest =>
    rw [above] at above'
    exact Option.some.inj above' ▸ rest

/-- Two indices above the same one lie above each other. -/
theorem linear (left : Climb parents a b) (right : Climb parents a c) :
    Climb parents b c ∨ Climb parents c b := by
  induction left with
  | stay => exact Or.inl right
  | @up a d b above other rest ih =>
    by_cases same : a = c
    · exact Or.inr (same ▸ .up above other rest)
    · exact ih (right.of_parent above same)

end Climb

namespace Rooted

variable (tree : Rooted rank root parents)
include tree

theorem known_root : parents[root].isSome = true := by
  rw [tree.root_parent]
  rfl

theorem known_climb (climb : Climb parents a b) (known : parents[a].isSome = true) :
    parents[b].isSome = true := by
  induction climb with
  | stay => exact known
  | up above _ _ ih => exact ih (tree.known_parent _ _ above)

theorem ne_root_of_up (above : parents[a] = some b) (other : a ≠ b) : a ≠ root := by
  rintro rfl
  rw [tree.root_parent] at above
  exact other (Option.some.inj above)

theorem ne_parent (above : parents[a] = some b) (other : a ≠ root) : a ≠ b := fun same =>
  Nat.ne_of_lt (tree.rises a b above other) (congrArg rank same)

theorem climb_root (climb : Climb parents root a) : a = root := by
  cases climb with
  | stay => rfl
  | up above other _ => exact absurd rfl (tree.ne_root_of_up above other)

theorem rank_le (climb : Climb parents a b) : rank a ≤ rank b := by
  induction climb with
  | stay => exact Nat.le_refl _
  | up above other _ ih =>
    exact Nat.le_trans (Nat.le_of_lt (tree.rises _ _ above (tree.ne_root_of_up above other))) ih

theorem rank_lt_of_ne (climb : Climb parents a b) (other : a ≠ b) : rank a < rank b := by
  cases climb with
  | stay => exact absurd rfl other
  | up above different rest =>
    exact Nat.lt_of_lt_of_le (tree.rises _ _ above (tree.ne_root_of_up above different))
      (tree.rank_le rest)

theorem antisymm (left : Climb parents a b) (right : Climb parents b a) : a = b :=
  Classical.byContradiction fun other => by
    have strict := tree.rank_lt_of_ne left other
    have back := tree.rank_le right
    omega

/-- On one climb, the rank tells which index lies above the other. -/
theorem climb_of_rank_le (left : Climb parents a b) (right : Climb parents a c)
    (lower : rank b ≤ rank c) : Climb parents b c := by
  rcases left.linear right with found | swapped
  · exact found
  · by_cases same : c = b
    · exact same ▸ .stay c
    · have strict := tree.rank_lt_of_ne swapped same
      omega

/-- Everything known lies below the root. -/
theorem climb_to_root (known : parents[a].isSome = true) : Climb parents a root := by
  induction h : n - rank a using Nat.strongRecOn generalizing a with
  | _ k ih =>
    by_cases here : a = root
    · exact here ▸ .stay a
    · obtain ⟨b, above⟩ := Option.isSome_iff_exists.1 known
      have higher := tree.rises a b above here
      have bound := tree.rank_lt a known
      exact .up above (tree.ne_parent above here)
        (ih (n - rank b) (by omega) (tree.known_parent a b above) rfl)

/-- In a tree, the lower of two different indices has a parent, which ranks higher. -/
theorem exists_above (knownA : parents[a].isSome = true) (knownB : parents[b].isSome = true)
    (lower : rank a < rank b) : ∃ above, parents[a] = some above ∧
      parents[above].isSome = true ∧ rank a < rank above ∧ rank above < n := by
  obtain ⟨above, parent⟩ := Option.isSome_iff_exists.1 knownA
  have known := tree.known_parent a above parent
  refine ⟨above, parent, known, tree.rises a above parent ?_, tree.rank_lt above known⟩
  rintro rfl
  exact Nat.not_lt_of_le (tree.rank_le (tree.climb_to_root knownB)) lower

/-- What lies above two indices is not the lower of them, so it lies above its parent. -/
theorem climb_above {x : Fin n} (lower : rank a < rank b) (parent : parents[a] = some c)
    (left : Climb parents a x) (right : Climb parents b x) : Climb parents c x := by
  refine left.of_parent parent fun same => ?_
  subst same
  exact Nat.not_lt_of_le (tree.rank_le right) lower

/-- `meet` finds the nearest index above both. -/
theorem meet_spec (fuel : Nat) (knownA : parents[a].isSome = true)
    (knownB : parents[b].isSome = true) (enough : (n - rank a) + (n - rank b) ≤ fuel) :
    Climb parents a (meet rank parents fuel a b).value ∧
      Climb parents b (meet rank parents fuel a b).value ∧
      ∀ x, Climb parents a x → Climb parents b x →
        Climb parents (meet rank parents fuel a b).value x := by
  have boundA := tree.rank_lt a knownA
  induction fuel generalizing a b with
  | zero => omega
  | succ fuel ih =>
    unfold meet
    by_cases same : a = b
    · subst same
      simp only [if_true, Counted.value_pure]
      exact ⟨.stay a, .stay a, fun x left _ => left⟩
    -- the lower of the two climbs, and what lies above both is not lost
    have distinct : rank a ≠ rank b := fun equal => same (tree.rank_inj a b knownA knownB equal)
    by_cases lower : rank a < rank b
    · obtain ⟨above, parent, known, higher, bound⟩ := tree.exists_above knownA knownB lower
      have other : a ≠ above := fun equal => Nat.ne_of_lt higher (congrArg rank equal)
      obtain ⟨left, right, least⟩ := ih known knownB (by omega) bound
      simp only [if_neg same, if_pos lower, parent, Counted.value_bind]
      exact ⟨.up parent other left, right, fun x fromA fromB =>
        least x (tree.climb_above lower parent fromA fromB) fromB⟩
    · have lower' : rank b < rank a := by omega
      obtain ⟨above, parent, known, higher, bound⟩ := tree.exists_above knownB knownA lower'
      have other : b ≠ above := fun equal => Nat.ne_of_lt higher (congrArg rank equal)
      obtain ⟨left, right, least⟩ := ih knownA known (by omega) boundA
      simp only [if_neg same, if_neg lower, parent, Counted.value_bind]
      exact ⟨left, .up parent other right, fun x fromA fromB =>
        least x fromA (tree.climb_above lower' parent fromB fromA)⟩

/-- A run of meetings from `d` on. -/
theorem foldl_meet_spec {d : Fin n} (known : parents[d].isSome = true) (l : List (Fin n))
    (allKnown : ∀ p ∈ l, parents[p].isSome = true) :
    ∃ m, l.foldl (fun found p => (match found with
        | none => (pure (some p) : Counted (Option (Fin n)))
        | some d => some <$> meet rank parents (2 * n) p d).value) (some d) = some m ∧
      parents[m].isSome = true ∧ Climb parents d m ∧ (∀ p ∈ l, Climb parents p m) ∧
      ∀ x, Climb parents d x → (∀ p ∈ l, Climb parents p x) → Climb parents m x := by
  induction l generalizing d with
  | nil => exact ⟨d, rfl, known, .stay d, by simp, fun x above _ => above⟩
  | cons p l ih =>
    have knownP := allKnown p List.mem_cons_self
    obtain ⟨left, right, least⟩ := tree.meet_spec (2 * n) knownP known (by omega)
    obtain ⟨m, value, knownM, above, aboveAll, lowest⟩ :=
      ih (tree.known_climb left knownP) fun q member => allKnown q (List.mem_cons_of_mem p member)
    refine ⟨m, value, knownM, right.trans above, fun q member => ?_, fun x fromD fromAll => ?_⟩
    · rcases List.mem_cons.1 member with rfl | member
      · exact left.trans above
      · exact aboveAll q member
    · exact lowest x (least x (fromAll p List.mem_cons_self) fromD) fun q member =>
        fromAll q (List.mem_cons_of_mem p member)

/-- `nearest` finds the nearest index above all those of the list that are known, if there are
any. -/
theorem nearest_spec (l : List (Fin n)) :
    ((nearest rank parents l).value = none ∧ ∀ p ∈ l, parents[p] = none) ∨
      ∃ m, (nearest rank parents l).value = some m ∧ parents[m].isSome = true ∧
        (∃ p ∈ l, parents[p].isSome = true) ∧
        (∀ p ∈ l, parents[p].isSome = true → Climb parents p m) ∧
        ∀ x, (∀ p ∈ l, parents[p].isSome = true → Climb parents p x) → Climb parents m x := by
  unfold nearest
  rw [Counted.value_foldlM]
  cases filtered : l.filter fun p => parents[p].isSome with
  | nil =>
    refine Or.inl ⟨rfl, fun p member => ?_⟩
    have gone := List.filter_eq_nil_iff.1 filtered p member
    simpa using gone
  | cons p rest =>
    have members : ∀ q, q ∈ p :: rest ↔ q ∈ l ∧ parents[q].isSome = true := by
      intro q
      rw [← filtered, List.mem_filter]
    obtain ⟨inside, known⟩ := (members p).1 List.mem_cons_self
    obtain ⟨m, value, knownM, above, aboveAll, lowest⟩ :=
      tree.foldl_meet_spec known rest fun q member =>
        ((members q).1 (List.mem_cons_of_mem p member)).2
    refine Or.inr ⟨m, value, knownM, ⟨p, inside, known⟩, fun q member knownQ => ?_,
      fun x common => ?_⟩
    · rcases List.mem_cons.1 ((members q).2 ⟨member, knownQ⟩) with rfl | later
      · exact above
      · exact aboveAll q later
    · refine lowest x (common p inside known) fun q member => ?_
      obtain ⟨insideQ, knownQ⟩ := (members q).1 (List.mem_cons_of_mem p member)
      exact common q insideQ knownQ

/-- The list of an index and its parents holds what lies above the index. -/
theorem mem_chainFrom_iff {fuel : Nat} (known : parents[a].isSome = true)
    (enough : n - rank a ≤ fuel) {x : Fin n} :
    x ∈ chainFrom root parents fuel a ↔ Climb parents a x := by
  have bound := tree.rank_lt a known
  induction fuel generalizing a with
  | zero => omega
  | succ fuel ih =>
    unfold chainFrom
    by_cases here : a = root
    · subst here
      rw [if_pos rfl, List.mem_singleton]
      exact ⟨fun same => same ▸ .stay x, fun climb => tree.climb_root climb⟩
    · obtain ⟨b, above⟩ := Option.isSome_iff_exists.1 known
      have higher := tree.rises a b above here
      have other := tree.ne_parent above here
      have knownB := tree.known_parent a b above
      rw [if_neg here]
      simp only [above, List.mem_cons]
      have rest : x ∈ chainFrom root parents fuel b ↔ Climb parents b x :=
        ih knownB (by omega) (tree.rank_lt b knownB)
      rw [rest]
      constructor
      · rintro (same | climb)
        · exact same ▸ .stay x
        · exact .up above other climb
      · intro climb
        by_cases same : x = a
        · exact Or.inl same
        · exact Or.inr (climb.of_parent above (Ne.symm same))

end Rooted
end WorkflowSoundness.DominatorTree
