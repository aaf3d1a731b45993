import WorkflowSoundness.BitSet.Reach
import WorkflowSoundness.DepthFirst

/-!
The order in which a depth-first search leaves what it finds. A search from one root leaves
exactly what the root leads to, each index once (`mem_postOrder_iff`, `nodup_postOrder`), and
everything but the root before some index that leads to it (`exists_parent`).
-/

namespace WorkflowSoundness.DepthFirst

variable {n : Nat} {next : Fin n → BitSet n} {roots : List (Fin n)} {frames : List (Frame n)}
  {seen : BitSet n}

@[simp] theorem postOrder_enter (a : Fin n) (parent : Option (Fin n)) (later : List (Step n)) :
    postOrder (.enter a parent :: later) = postOrder later :=
  rfl

@[simp] theorem postOrder_look (a s : Fin n) (later : List (Step n)) :
    postOrder (.look a s :: later) = postOrder later :=
  rfl

@[simp] theorem postOrder_leave (a : Fin n) (parent : Option (Fin n)) (later : List (Step n)) :
    postOrder (.leave a parent :: later) = a :: postOrder later :=
  rfl

/-- The open frames are left from the innermost to the outermost. -/
theorem frames_sublist_postOrder (next : Fin n → BitSet n) (roots : List (Fin n))
    (frames : List (Frame n)) (seen : BitSet n) :
    (frames.map Frame.index).Sublist (postOrder (stepsFrom next roots frames seen)) := by
  fun_induction stepsFrom next roots frames seen with
  | case1 => exact List.nil_sublist _
  | case2 => exact List.nil_sublist _
  | case3 => exact List.nil_sublist _
  | case4 roots seen a outer ih => exact ih.cons_cons a
  | case5 roots seen a s pending outer _ ih => exact ih
  | case6 roots seen a s pending outer _ ih => exact (List.sublist_cons_self s _).trans ih

theorem new_of_mem_postOrder {x : Fin n}
    (left : x ∈ postOrder (stepsFrom next roots frames seen)) :
    x ∈ frames.map Frame.index ∨ x ∉ seen := by
  fun_induction stepsFrom next roots frames seen with
  | case1 => simp [postOrder] at left
  | case2 seen root later _ ih => exact ih left
  | case3 seen root later fresh ih =>
    rcases ih left with here | new
    · rw [List.map_singleton, List.mem_singleton] at here
      exact Or.inr (here ▸ fresh)
    · exact Or.inr fun old => new (BitSet.mem_insert.2 (Or.inr old))
  | case4 roots seen a outer ih =>
    rcases List.mem_cons.1 left with rfl | left
    · exact Or.inl List.mem_cons_self
    · exact (ih left).imp_left (List.mem_cons_of_mem a)
  | case5 roots seen a s pending outer _ ih => exact ih left
  | case6 roots seen a s pending outer fresh ih =>
    rcases ih left with open_ | new
    · rcases List.mem_cons.1 open_ with rfl | outside
      · exact Or.inr fresh
      · exact Or.inl outside
    · exact Or.inr fun old => new (BitSet.mem_insert.2 (Or.inr old))

theorem nodup_postOrder_stepsFrom (distinct : (frames.map Frame.index).Nodup)
    (known : ∀ a ∈ frames.map Frame.index, a ∈ seen) :
    (postOrder (stepsFrom next roots frames seen)).Nodup := by
  fun_induction stepsFrom next roots frames seen with
  | case1 => exact List.nodup_nil
  | case2 seen root later _ ih => exact ih distinct known
  | case3 seen root later fresh ih =>
    refine ih (by simp) fun a member => ?_
    rw [List.map_singleton, List.mem_singleton] at member
    exact BitSet.mem_insert.2 (Or.inl member)
  | case4 roots seen a outer ih =>
    obtain ⟨new, rest⟩ := List.nodup_cons.1 distinct
    refine List.nodup_cons.2 ⟨fun again => ?_, ih rest fun b member =>
      known b (List.mem_cons_of_mem a member)⟩
    rcases new_of_mem_postOrder again with outside | unseen
    · exact new outside
    · exact unseen (known a List.mem_cons_self)
  | case5 roots seen a s pending outer _ ih => exact ih distinct known
  | case6 roots seen a s pending outer fresh ih =>
    refine ih (List.nodup_cons.2 ⟨fun old => fresh (known s old), distinct⟩) fun b member => ?_
    rcases List.mem_cons.1 member with rfl | old
    · exact BitSet.mem_insert.2 (Or.inl rfl)
    · exact BitSet.mem_insert.2 (Or.inr (known b old))

/-- What is neither an open frame nor a root is left before the index that it was found from. -/
theorem parent_of_mem_postOrder {x : Fin n}
    (steps : ∀ frame ∈ frames, ∀ s ∈ frame.pending, s ∈ next frame.index)
    (left : x ∈ postOrder (stepsFrom next roots frames seen)) :
    x ∈ frames.map Frame.index ∨ x ∈ roots ∨
      ∃ p, x ∈ next p ∧ [x, p].Sublist (postOrder (stepsFrom next roots frames seen)) := by
  fun_induction stepsFrom next roots frames seen with
  | case1 => simp [postOrder] at left
  | case2 seen root later _ ih =>
    exact (ih (by simp) left).imp_right fun found => found.imp_left (List.mem_cons_of_mem root)
  | case3 seen root later _ ih =>
    rcases ih (by simp [BitSet.mem_toList]) left with here | other
    · rw [List.map_singleton, List.mem_singleton] at here
      exact Or.inr (Or.inl (here ▸ List.mem_cons_self))
    · exact Or.inr (other.imp_left (List.mem_cons_of_mem root))
  | case4 roots seen a outer ih =>
    rcases List.mem_cons.1 left with rfl | left
    · exact Or.inl List.mem_cons_self
    · rcases ih (fun frame member => steps frame (List.mem_cons_of_mem _ member)) left with
        outside | root | ⟨p, step, order⟩
      · exact Or.inl (List.mem_cons_of_mem a outside)
      · exact Or.inr (Or.inl root)
      · exact Or.inr (Or.inr ⟨p, step, order.trans (List.sublist_cons_self a _)⟩)
  | case5 roots seen a s pending outer _ ih =>
    refine ih (fun frame member t later => ?_) left
    rcases List.mem_cons.1 member with rfl | member
    · exact steps _ List.mem_cons_self t (List.mem_cons_of_mem s later)
    · exact steps frame (List.mem_cons_of_mem _ member) t later
  | case6 roots seen a s pending outer _ ih =>
    have kept : ∀ frame ∈ (⟨s, (next s).toList⟩ :: ⟨a, pending⟩ :: outer : List (Frame n)),
        ∀ t ∈ frame.pending, t ∈ next frame.index := by
      intro frame member t later
      rcases List.mem_cons.1 member with rfl | member
      · exact BitSet.mem_toList.1 later
      · rcases List.mem_cons.1 member with rfl | member
        · exact steps _ List.mem_cons_self t (List.mem_cons_of_mem s later)
        · exact steps frame (List.mem_cons_of_mem _ member) t later
    rcases ih kept left with opened | other
    · rcases List.mem_cons.1 opened with rfl | outside
      · -- the new index is left before the frame that it was found from
        have order := frames_sublist_postOrder next roots
          (⟨x, (next x).toList⟩ :: ⟨a, pending⟩ :: outer) (seen.insert x)
        refine Or.inr (Or.inr ⟨a, steps _ List.mem_cons_self x List.mem_cons_self, ?_⟩)
        exact (((List.nil_sublist _).cons_cons a).cons_cons x).trans order
      · exact Or.inl outside
    · exact Or.inr other

/-- What an entered index adds to the seen ones is left later. -/
theorem seen_or_left {l : List (Fin n)} {s y : Fin n} (entered : s ∈ l)
    (either : y ∈ seen.insert s ∨ y ∈ l) : y ∈ seen ∨ y ∈ l := by
  rcases either with inside | left
  · rcases BitSet.mem_insert.1 inside with rfl | old
    · exact Or.inr entered
    · exact Or.inl old
  · exact Or.inr left

/-- The innermost frame goes on behind a successor that has been seen by then. -/
theorem covered_next {a s : Fin n} {pending : List (Fin n)} {outer : List (Frame n)}
    {seen' : BitSet n} (grown : ∀ y ∈ seen, y ∈ seen') (known : s ∈ seen')
    (covered : ∀ frame ∈ (⟨a, s :: pending⟩ :: outer : List (Frame n)), ∀ y ∈ next frame.index,
      y ∈ frame.pending ∨ y ∈ seen) :
    ∀ frame ∈ (⟨a, pending⟩ :: outer : List (Frame n)), ∀ y ∈ next frame.index,
      y ∈ frame.pending ∨ y ∈ seen' := by
  intro frame member y step
  rcases List.mem_cons.1 member with rfl | member
  · rcases covered _ List.mem_cons_self y step with waiting | inside
    · rcases List.mem_cons.1 waiting with rfl | waiting
      · exact Or.inr known
      · exact Or.inl waiting
    · exact Or.inr (grown y inside)
  · exact (covered frame (List.mem_cons_of_mem _ member) y step).imp_right (grown y)

/-- Nothing that a left index leads to is missed, and no root. -/
theorem postOrder_closed
    (covered : ∀ frame ∈ frames, ∀ y ∈ next frame.index, y ∈ frame.pending ∨ y ∈ seen) :
    (∀ x ∈ postOrder (stepsFrom next roots frames seen), ∀ y ∈ next x,
        y ∈ seen ∨ y ∈ postOrder (stepsFrom next roots frames seen)) ∧
      ∀ r ∈ roots, r ∈ seen ∨ r ∈ postOrder (stepsFrom next roots frames seen) := by
  fun_induction stepsFrom next roots frames seen with
  | case1 => simp [postOrder]
  | case2 seen root later old ih =>
    obtain ⟨steps, starts⟩ := ih (by simp)
    exact ⟨steps, List.forall_mem_cons.2 ⟨Or.inl old, starts⟩⟩
  | case3 seen root later fresh ih =>
    obtain ⟨steps, starts⟩ := ih fun frame member y step => by
      rw [List.mem_singleton] at member
      subst member
      exact Or.inl (BitSet.mem_toList.2 step)
    have entered := (frames_sublist_postOrder next later [⟨root, (next root).toList⟩]
      (seen.insert root)).subset List.mem_cons_self
    refine ⟨fun x left y step => seen_or_left entered (steps x left y step), ?_⟩
    exact List.forall_mem_cons.2
      ⟨Or.inr entered, fun r member => seen_or_left entered (starts r member)⟩
  | case4 roots seen a outer ih =>
    obtain ⟨steps, starts⟩ := ih fun frame member => covered frame (List.mem_cons_of_mem _ member)
    refine ⟨fun x left y step => ?_, fun r member => (starts r member).imp_right
      (List.mem_cons_of_mem a)⟩
    rcases List.mem_cons.1 left with rfl | left
    · exact Or.inl ((covered _ List.mem_cons_self y step).resolve_left List.not_mem_nil)
    · exact (steps x left y step).imp_right (List.mem_cons_of_mem a)
  | case5 roots seen a s pending outer old ih => exact ih (covered_next (fun _ => id) old covered)
  | case6 roots seen a s pending outer fresh ih =>
    have grown : ∀ y ∈ seen, y ∈ seen.insert s := fun y old => BitSet.mem_insert.2 (Or.inr old)
    have opened := covered_next grown (BitSet.mem_insert.2 (Or.inl rfl)) covered
    obtain ⟨steps, starts⟩ := ih (List.forall_mem_cons.2
      ⟨fun y step => Or.inl (BitSet.mem_toList.2 step), opened⟩)
    have entered := (frames_sublist_postOrder next roots
      (⟨s, (next s).toList⟩ :: ⟨a, pending⟩ :: outer) (seen.insert s)).subset List.mem_cons_self
    exact ⟨fun x left y step => seen_or_left entered (steps x left y step), fun r member =>
      seen_or_left entered (starts r member)⟩

theorem reached_of_path {l : List (Fin n)} (closed : ∀ a ∈ l, ∀ b ∈ next a, b ∈ l)
    {a b : Fin n} (start : a ∈ l) (path : BitSet.Path next a b) : b ∈ l := by
  induction path with
  | stay => exact start
  | step first _ ih => exact ih (closed _ start _ first)

theorem mem_of_sublist_after {x p : Fin n} {before after : List (Fin n)} (fresh : x ∉ before)
    (order : [x, p].Sublist (before ++ x :: after)) : p ∈ after := by
  induction before with
  | nil =>
    rcases List.sublist_cons_iff.1 order with skipped | ⟨rest, same, kept⟩
    · exact skipped.subset (List.mem_cons_of_mem x List.mem_cons_self)
    · cases same
      exact kept.subset List.mem_cons_self
  | cons y before ih =>
    obtain ⟨other, fresh⟩ := not_or.1 (fun old => fresh (List.mem_cons.2 old))
    rcases List.sublist_cons_iff.1 order with skipped | ⟨rest, same, _⟩
    · exact ih fresh skipped
    · cases same
      exact absurd rfl other

/-! ### A search from one root -/

section Rooted

variable (next : Fin n → BitSet n) (root : Fin n)

theorem nodup_postOrder (roots : List (Fin n)) : (postOrder (steps next roots)).Nodup :=
  nodup_postOrder_stepsFrom List.nodup_nil (by simp)

/-- Everything but the root is left before some index that leads to it. -/
theorem exists_parent {x : Fin n} (left : x ∈ postOrder (steps next [root])) (other : x ≠ root) :
    ∃ p, x ∈ next p ∧ [x, p].Sublist (postOrder (steps next [root])) := by
  rcases parent_of_mem_postOrder (by simp) left with outside | here | found
  · simp at outside
  · exact absurd (List.mem_singleton.1 here) other
  · exact found

theorem root_mem_postOrder : root ∈ postOrder (steps next [root]) :=
  ((postOrder_closed (by simp)).2 root List.mem_cons_self).resolve_left (BitSet.not_mem_empty root)

theorem path_of_mem_postOrder {x : Fin n} (left : x ∈ postOrder (steps next [root])) :
    BitSet.Path next root x := by
  -- climbing from parent to parent moves towards the end of the order
  obtain ⟨before, after, split⟩ := List.append_of_mem left
  induction h : after.length using Nat.strongRecOn generalizing x before after with
  | _ k ih =>
    by_cases here : x = root
    · exact here ▸ .stay x
    · obtain ⟨p, step, order⟩ := exists_parent next root left here
      have once := nodup_postOrder next [root]
      rw [split] at order once
      have fresh : x ∉ before := fun old =>
        (List.nodup_append.1 once).2.2 x old x List.mem_cons_self rfl
      have later : p ∈ after := mem_of_sublist_after fresh order
      obtain ⟨middle, rest, split'⟩ := List.append_of_mem later
      have whole : postOrder (steps next [root]) = (before ++ x :: middle) ++ p :: rest := by
        rw [split, split', List.append_assoc, List.cons_append]
      have shorter : rest.length < k := by
        rw [← h, split', List.length_append, List.length_cons]
        omega
      have member : p ∈ postOrder (steps next [root]) := by
        rw [whole]
        exact List.mem_append_right _ List.mem_cons_self
      exact (ih rest.length shorter member (before ++ x :: middle) rest whole rfl).snoc step

theorem mem_postOrder_iff {x : Fin n} :
    x ∈ postOrder (steps next [root]) ↔ BitSet.Path next root x := by
  refine ⟨path_of_mem_postOrder next root, fun path => ?_⟩
  have closed : ∀ a ∈ postOrder (steps next [root]), ∀ b ∈ next a,
      b ∈ (∅ : BitSet n) ∨ b ∈ postOrder (steps next [root]) := (postOrder_closed (by simp)).1
  have start := root_mem_postOrder next root
  exact reached_of_path (fun a left b step =>
    (closed a left b step).resolve_left (BitSet.not_mem_empty b)) start path

end Rooted

end WorkflowSoundness.DepthFirst
