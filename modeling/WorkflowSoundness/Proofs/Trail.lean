import WorkflowSoundness.BitSet.Reach

/-!
Walks that keep to a property. `Trail next P a b` says that steps of `next` lead from `a` to
`b` and that everything on the way, both ends included, satisfies `P`. Searches that are held
back by a set, dominance and the reach of a region are all told by trails.
-/

namespace WorkflowSoundness

variable {n : Nat}

/-- Some steps of `next`, possibly none, lead from the first index to the second through indices
that satisfy `P`. -/
inductive Trail (next : Fin n → BitSet n) (P : Fin n → Prop) : Fin n → Fin n → Prop where
  | stay {a : Fin n} (ok : P a) : Trail next P a a
  | step {a b c : Fin n} (ok : P a) (first : b ∈ next a) (rest : Trail next P b c) :
      Trail next P a c

namespace Trail

variable {next back : Fin n → BitSet n} {P Q : Fin n → Prop} {a b c : Fin n}

theorem start (trail : Trail next P a b) : P a := by
  cases trail <;> assumption

theorem finish (trail : Trail next P a b) : P b := by
  induction trail with
  | stay ok => exact ok
  | step _ _ _ ih => exact ih

theorem trans (left : Trail next P a b) (right : Trail next P b c) : Trail next P a c := by
  induction left with
  | stay => exact right
  | step ok first _ ih => exact .step ok first (ih right)

theorem snoc (left : Trail next P a b) (last : c ∈ next b) (ok : P c) : Trail next P a c :=
  left.trans (.step left.finish last (.stay ok))

theorem mono (trail : Trail next P a b) (weaker : ∀ x, P x → Q x) : Trail next Q a b := by
  induction trail with
  | stay ok => exact .stay (weaker _ ok)
  | step ok first _ ih => exact .step (weaker _ ok) first ih

/-- A trail of a graph with fewer steps, as long as the steps that are taken stay. -/
theorem map (trail : Trail next P a b)
    (keeps : ∀ x y, P x → P y → y ∈ next x → y ∈ back x) : Trail back P a b := by
  induction trail with
  | stay ok => exact .stay ok
  | step ok first rest ih => exact .step ok (keeps _ _ ok rest.start first) ih

/-- Read backwards, a trail is one of the opposite steps. -/
theorem reverse (opposite : ∀ x y, y ∈ next x → x ∈ back y) (trail : Trail next P a b) :
    Trail back P b a := by
  induction trail with
  | stay ok => exact .stay ok
  | step ok first rest ih => exact ih.snoc (opposite _ _ first) ok

/-- A trail that starts inside `Q` and ends outside crosses over somewhere; up to there it stays
inside. -/
theorem leave (trail : Trail next P a b) (inside : Q a) (outside : ¬ Q b) :
    ∃ x y, Trail next (fun z => P z ∧ Q z) a x ∧ y ∈ next x ∧ ¬ Q y ∧ Trail next P y b := by
  induction trail with
  | stay => exact absurd inside outside
  | @step a b c ok first rest ih =>
    by_cases member : Q b
    · obtain ⟨x, y, before, crossing, out, after⟩ := ih member outside
      exact ⟨x, y, .step ⟨ok, inside⟩ first before, crossing, out, after⟩
    · exact ⟨a, b, .stay ⟨ok, inside⟩, first, member, rest⟩

/-- A trail that ends inside `Q` is inside all along or comes in for a last time. -/
theorem inside_or_enter (trail : Trail next P a b) (inside : Q b) :
    Trail next (fun z => P z ∧ Q z) a b ∨
      ∃ x y, Trail next P a x ∧ ¬ Q x ∧ y ∈ next x ∧ Trail next (fun z => P z ∧ Q z) y b := by
  induction trail with
  | stay ok => exact Or.inl (.stay ⟨ok, inside⟩)
  | @step a b c ok first rest ih =>
    rcases ih inside with stays | ⟨x, y, before, out, crossing, after⟩
    · by_cases member : Q a
      · exact Or.inl (.step ⟨ok, member⟩ first stays)
      · exact Or.inr ⟨a, b, .stay ok, member, first, stays⟩
    · exact Or.inr ⟨x, y, .step ok first before, out, crossing, after⟩

theorem enter (trail : Trail next P a b) (outside : ¬ Q a) (inside : Q b) :
    ∃ x y, Trail next P a x ∧ ¬ Q x ∧ y ∈ next x ∧ Trail next (fun z => P z ∧ Q z) y b :=
  (trail.inside_or_enter inside).resolve_left fun stays => outside stays.start.2

/-- Up to the first index that satisfies `Q` a trail avoids it. -/
theorem first_visit (trail : Trail next P a b) (inside : Q b) :
    (Q a) ∨ ∃ x y, Trail next (fun z => P z ∧ ¬ Q z) a x ∧ y ∈ next x ∧ Q y ∧
      Trail next P y b := by
  by_cases member : Q a
  · exact Or.inl member
  · obtain ⟨x, y, before, crossing, within, after⟩ :=
      trail.leave (Q := fun z => ¬ Q z) member fun out => out inside
    exact Or.inr ⟨x, y, before, crossing, Classical.byContradiction within, after⟩

/-- A trail keeps away from an index or visits it. -/
theorem avoids_or_visits (trail : Trail next P a c) (b : Fin n) :
    Trail next (fun z => P z ∧ z ≠ b) a c ∨ Trail next P a b := by
  induction trail with
  | @stay x ok =>
    by_cases here : x = b
    · exact Or.inr (here ▸ .stay ok)
    · exact Or.inl (.stay ⟨ok, here⟩)
  | @step x y z ok first rest ih =>
    by_cases here : x = b
    · exact Or.inr (here ▸ .stay ok)
    · exact ih.imp (.step ⟨ok, here⟩ first) (.step ok first)

end Trail

theorem BitSet.Path.trail {next : Fin n → BitSet n} {a b : Fin n} (path : Path next a b) :
    Trail next (fun _ => True) a b := by
  induction path with
  | stay a => exact .stay trivial
  | step first _ ih => exact .step trivial first ih

theorem Trail.path {next : Fin n → BitSet n} {P : Fin n → Prop} {a b : Fin n}
    (trail : Trail next P a b) : BitSet.Path next a b := by
  induction trail with
  | stay => exact .stay _
  | step _ first _ ih => exact .step first ih

/-- What a search within a set reaches from one of its seeds. -/
theorem BitSet.mem_reach_trail_iff {next : Fin n → BitSet n} {seeds : List (Fin n)} {c : Fin n} :
    c ∈ reach next seeds ↔ ∃ a ∈ seeds, Trail next (fun _ => True) a c := by
  rw [mem_reach_iff]
  exact ⟨fun ⟨a, seed, path⟩ => ⟨a, seed, path.trail⟩, fun ⟨a, seed, trail⟩ =>
    ⟨a, seed, trail.path⟩⟩

end WorkflowSoundness
