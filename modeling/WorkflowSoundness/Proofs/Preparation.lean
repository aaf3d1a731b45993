import WorkflowSoundness.Proofs.Subdivision

/-!
Preparation keeps the structural rules. An activity on a flow changes how many flows leave or enter
no node that was there (`countP_insertOn`), and the ways of the graph lead over it
(`way_insertOn`). So a graph that obeys the rules still does in the simple shape
(`Obeys.of_subdivided`).
-/

namespace WorkflowSoundness.Graph

variable {g h : Graph} {flow : Flow} {u v start finish : Nat}

section Insertion

variable (present : flow ∈ g.flows)

/-- The two flows that replace one count as that flow, at its ends. -/
theorem countP_insertOn (p : Flow → Bool) :
    (g.insertOn flow present .activity).flows.countP p + [flow].countP p =
      g.flows.countP p + [⟨flow.source, g.order⟩, ⟨g.order, flow.target⟩].countP p := by
  have parts : g.flows.countP p = ([flow] ++ g.flows.erase flow).countP p :=
    (List.perm_cons_erase present).countP_eq p
  rw [flows_insertOn, parts, List.countP_append, List.countP_append]
  omega

theorem countP_target_insertOn (old : v ≠ g.order) :
    (g.insertOn flow present .activity).flows.countP (·.target == v) =
      g.flows.countP (·.target == v) := by
  have counted := countP_insertOn present (·.target == v)
  have new : (g.order == v) = false := beq_eq_false_iff_ne.2 (Ne.symm old)
  simp only [List.countP_cons, List.countP_nil, new] at counted
  simpa using counted

theorem countP_source_insertOn (old : v ≠ g.order) :
    (g.insertOn flow present .activity).flows.countP (·.source == v) =
      g.flows.countP (·.source == v) := by
  have counted := countP_insertOn present (·.source == v)
  have new : (g.order == v) = false := beq_eq_false_iff_ne.2 (Ne.symm old)
  simp only [List.countP_cons, List.countP_nil, new] at counted
  simpa using counted

theorem flow_to_inserted : ⟨flow.source, g.order⟩ ∈ (g.insertOn flow present .activity).flows :=
  List.mem_append_right _ List.mem_cons_self

theorem flow_from_inserted : ⟨g.order, flow.target⟩ ∈ (g.insertOn flow present .activity).flows :=
  List.mem_append_right _ (List.mem_cons_of_mem _ List.mem_cons_self)

/-- Ways go on, over the new node if need be. -/
theorem way_insertOn (way : g.Way u v) : (g.insertOn flow present .activity).Way u v := by
  induction way with
  | refl => exact .refl
  | @tail b c _ step ih =>
    by_cases here : (⟨b, c⟩ : Flow) = flow
    · subst here
      exact (ih.tail (flow_to_inserted present)).tail (flow_from_inserted present)
    · exact ih.tail (List.mem_append_left _ ((List.mem_erase_of_ne here).2 step))

theorem Obeys.insertOn (rules : g.Obeys start finish) :
    (g.insertOn flow present .activity).Obeys start finish := by
  have sub : Subdivided g (g.insertOn flow present .activity) := Subdivided.same.insert present
  have ends := g.flows_inside flow present
  have inside : ∀ {v kind}, g.kind? v = some kind → v ≠ g.order := fun known =>
    Nat.ne_of_lt (lt_order_of_kind? known)
  have startKind := (mem_nodesOf _).1 (rules.starts ▸ List.mem_singleton_self start)
  have finishKind := (mem_nodesOf _).1 (rules.finishes ▸ List.mem_singleton_self finish)
  have gateway : ∀ {v kind}, (g.insertOn flow present .activity).kind? v = some kind →
      kind ≠ .activity → g.kind? v = some kind := fun known other => (sub.kind?_iff other).1 known
  refine
    { starts := (sub.nodesOf_eq (by decide)).trans rules.starts
      finishes := (sub.nodesOf_eq (by decide)).trans rules.finishes
      start_in := (countP_target_insertOn present (inside startKind)).trans rules.start_in
      start_out := (countP_source_insertOn present (inside startKind)).trans rules.start_out
      finish_in := (countP_target_insertOn present (inside finishKind)).trans rules.finish_in
      finish_out := (countP_source_insertOn present (inside finishKind)).trans rules.finish_out
      split_in := fun v kind known splitting => ?_
      merge_out := fun v kind known merging => ?_
      from_start := fun v within => ?_
      to_finish := fun v within => ?_ }
  · have old := gateway known (by rintro rfl; cases splitting)
    exact (countP_target_insertOn present (inside old)).trans (rules.split_in v kind old splitting)
  · have old := gateway known (by rintro rfl; cases merging)
    exact (countP_source_insertOn present (inside old)).trans (rules.merge_out v kind old merging)
  · rw [order_insertOn] at within
    rcases Nat.lt_succ_iff_lt_or_eq.1 within with old | rfl
    · exact way_insertOn present (rules.from_start v old)
    · exact (way_insertOn present (rules.from_start _ ends.1)).tail (flow_to_inserted present)
  · rw [order_insertOn] at within
    rcases Nat.lt_succ_iff_lt_or_eq.1 within with old | rfl
    · exact way_insertOn present (rules.to_finish v old)
    · exact (way_insertOn present (rules.to_finish _ ends.2)).head (flow_from_inserted present)

end Insertion

theorem Obeys.of_subdivided (rules : g.Obeys start finish) (sub : Subdivided g h) :
    h.Obeys start finish := by
  induction sub with
  | same => exact rules
  | insert _ present ih => exact ih.insertOn present

/-- Preparing an accepted graph succeeds, and the simple shape is accepted. -/
theorem exists_simplify (accepted : g.validate = .ok ()) :
    ∃ simple, g.simplify = (simple, .ok ()) ∧ simple.validate = .ok () := by
  obtain ⟨start, finish, rules⟩ := validate_eq_ok_iff.1 accepted
  obtain ⟨simple, simplified, sub, -⟩ := subdivided_simplify (g := g)
    (by rw [start?, rules.starts]; rfl) (by rw [finish?, rules.finishes]; rfl)
  exact ⟨simple, simplified, validate_eq_ok_iff.2 ⟨start, finish, rules.of_subdivided sub⟩⟩

end WorkflowSoundness.Graph
