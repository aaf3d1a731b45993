import WorkflowSoundness.Proofs.Trail

/-!
Walks with the list of what they visit. A trail that keeps to a property is a walk whose whole list
does (`trail_iff_walk`), and a search that is held back by a property finds walks of which all
before the last satisfies it, onwards (`path_until_iff_walk`) and back (`path_back_iff_walk`).
Claims about every walk can then be read on lists.
-/

namespace WorkflowSoundness

variable {n : Nat}

/-- Steps of `next` lead through the indices of the list, the first and the last of which are the
two ends. -/
inductive Walk (next : Fin n → BitSet n) : Fin n → List (Fin n) → Fin n → Prop where
  | stay (a : Fin n) : Walk next a [a] a
  | step {a b c : Fin n} {W : List (Fin n)} (first : b ∈ next a) (rest : Walk next b W c) :
      Walk next a (a :: W) c

namespace Walk

variable {next : Fin n → BitSet n} {P : Fin n → Prop} {a b : Fin n} {W : List (Fin n)}

theorem last_mem (walk : Walk next a W b) : b ∈ W := by
  induction walk with
  | stay a => exact List.mem_singleton_self a
  | step _ _ ih => exact List.mem_cons_of_mem _ ih

theorem first_mem (walk : Walk next a W b) : a ∈ W := by
  cases walk with
  | stay => exact List.mem_singleton_self a
  | step => exact List.mem_cons_self

/-- A walk whose list goes on has a first step. -/
theorem uncons {x : Fin n} (walk : Walk next a (x :: W) b) (more : W ≠ []) :
    x = a ∧ ∃ s ∈ next a, Walk next s W b := by
  cases walk with
  | stay => exact absurd rfl more
  | step first rest => exact ⟨rfl, _, first, rest⟩

/-- Two walks that meet make one, which visits what either does. -/
theorem trans {c : Fin n} {V : List (Fin n)} (left : Walk next a V b) (right : Walk next b W c) :
    ∃ U, Walk next a U c ∧ ∀ x, x ∈ U ↔ x ∈ V ∨ x ∈ W := by
  induction left with
  | stay a =>
    refine ⟨W, right, fun x => ⟨Or.inr, ?_⟩⟩
    rintro (here | member)
    · exact List.mem_singleton.1 here ▸ right.first_mem
    · exact member
  | @step a _ _ V first _ ih =>
    obtain ⟨U, walk, visits⟩ := ih right
    refine ⟨a :: U, .step first walk, fun x => ?_⟩
    simp only [List.mem_cons, visits, or_assoc]

theorem snoc {c : Fin n} (walk : Walk next a W b) (last : c ∈ next b) :
    Walk next a (W ++ [c]) c := by
  induction walk with
  | stay a => exact .step last (.stay c)
  | step first _ ih => exact .step first (ih last)

/-- Read backwards, a walk is one of the opposite steps. -/
theorem reverse {back : Fin n → BitSet n} (opposite : ∀ x y, y ∈ next x → x ∈ back y)
    (walk : Walk next a W b) : Walk back b W.reverse a := by
  induction walk with
  | stay a => exact .stay a
  | step first _ ih =>
    rw [List.reverse_cons]
    exact ih.snoc (opposite _ _ first)

/-- A walk that visits `z` has a beginning that ends at `z` and visits it only there. -/
theorem until_first {z : Fin n} (walk : Walk next a W b) (member : z ∈ W) :
    ∃ before, Walk next a (before ++ [z]) z ∧ z ∉ before := by
  induction walk with
  | stay a =>
    obtain rfl := List.mem_singleton.1 member
    exact ⟨[], .stay z, List.not_mem_nil⟩
  | @step a _ _ _ first _ ih =>
    by_cases here : a = z
    · subst here
      exact ⟨[], .stay a, List.not_mem_nil⟩
    · have later := (List.mem_cons.1 member).resolve_left (Ne.symm here)
      obtain ⟨before, walk, free⟩ := ih later
      exact ⟨a :: before, .step first walk, List.not_mem_cons_of_ne_of_not_mem (Ne.symm here) free⟩

theorem trail (walk : Walk next a W b) (along : ∀ x ∈ W, P x) : Trail next P a b := by
  induction walk with
  | stay a => exact .stay (along a List.mem_cons_self)
  | step first _ ih =>
    exact .step (along _ List.mem_cons_self) first
      (ih fun x member => along x (List.mem_cons_of_mem _ member))

end Walk

variable {next : Fin n → BitSet n} {P : Fin n → Prop} {a b : Fin n}

theorem trail_iff_walk : Trail next P a b ↔ ∃ W, Walk next a W b ∧ ∀ x ∈ W, P x := by
  constructor
  · intro trail
    induction trail with
    | @stay a ok => exact ⟨[a], .stay a, fun x member => List.mem_singleton.1 member ▸ ok⟩
    | step ok first _ ih =>
      obtain ⟨W, walk, along⟩ := ih
      exact ⟨_ :: W, .step first walk, List.forall_mem_cons.2 ⟨ok, along⟩⟩
  · rintro ⟨W, walk, along⟩
    exact walk.trail along

theorem path_iff_walk : BitSet.Path next a b ↔ ∃ W, Walk next a W b := by
  constructor
  · intro path
    obtain ⟨W, walk, -⟩ := trail_iff_walk.1 path.trail
    exact ⟨W, walk⟩
  · rintro ⟨W, walk⟩
    exact (walk.trail (P := fun _ => True) fun _ _ => trivial).path

/-- Steps that are taken only from what satisfies `P` lead along walks of which all before the last
does. -/
theorem path_until_iff_walk {onward : Fin n → BitSet n}
    (step : ∀ x y, y ∈ onward x ↔ y ∈ next x ∧ P x) :
    BitSet.Path onward a b ↔ ∃ W, Walk next a (W ++ [b]) b ∧ ∀ x ∈ W, P x := by
  constructor
  · intro path
    induction path with
    | stay a => exact ⟨[], .stay a, by simp⟩
    | @step a s _ first _ ih =>
      obtain ⟨W, walk, along⟩ := ih
      obtain ⟨onwards, ok⟩ := (step a s).1 first
      exact ⟨a :: W, .step onwards walk, List.forall_mem_cons.2 ⟨ok, along⟩⟩
  · rintro ⟨W, walk, along⟩
    induction W generalizing a with
    | nil =>
      obtain rfl := List.mem_singleton.1 walk.first_mem
      exact .stay a
    | cons x W ih =>
      obtain ⟨rfl, s, first, rest⟩ := walk.uncons (by simp)
      obtain ⟨ok, along⟩ := List.forall_mem_cons.1 along
      exact .step ((step x s).2 ⟨first, ok⟩) (ih rest along)

/-- Steps back to what satisfies `P` are taken along a walk of which all before the last does. -/
theorem path_back_iff_walk {back : Fin n → BitSet n} (step : ∀ x p, p ∈ back x ↔ x ∈ next p ∧ P p) :
    BitSet.Path back a b ↔ ∃ W, Walk next b (W ++ [a]) a ∧ ∀ x ∈ W, P x := by
  -- the same steps taken onwards
  have opposite : ∀ p x, x ∈ BitSet.ofFn (fun x => (back x).contains p) ↔ p ∈ back x := by
    intro p x
    rw [BitSet.mem_ofFn, BitSet.contains_iff_mem]
  rw [← path_until_iff_walk fun p x => (opposite p x).trans (step x p)]
  constructor
  · intro path
    exact (path.trail.reverse fun x p => (opposite p x).2).path
  · intro path
    exact (path.trail.reverse fun p x => (opposite p x).1).path

end WorkflowSoundness
