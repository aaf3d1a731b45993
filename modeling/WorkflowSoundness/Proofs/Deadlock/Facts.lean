import WorkflowSoundness.Proofs.Execution

/-!
What the deadlock dataflow solves. The facts that hold are those that arise at an edge or hold at a
successor and are not held back (`Holds`); the worklist ends in exactly these (`propagate_spec`).
For the edges of a graph this says that a walk leads to an edge that enters a join and meets on the
way neither another one nor an edge that executes the join (`mem_facts_iff`).
-/

namespace WorkflowSoundness

namespace Dataflow

variable {E : EdgeGraph} {flow : Dataflow E} {e i : Fin E.size}

/-- The least facts that the equations of a dataflow admit. -/
inductive Holds (flow : Dataflow E) (i : Fin E.size) : Fin E.size → Prop where
  | arises {e : Fin E.size} (new : i ∈ flow.generated[e]) : Holds flow i e
  | passes {e s : Fin E.size} (next : s ∈ E.successors e) (holds : Holds flow i s)
      (free : i ∉ flow.killed[e]) : Holds flow i e

theorem mem_foldl_union {n m : Nat} {t : Table (BitSet m) n} {l : List (Fin n)} {s : BitSet m}
    {x : Fin m} :
    x ∈ l.foldl (fun found a => found ∪ t[a]) s ↔ x ∈ s ∨ ∃ a ∈ l, x ∈ t[a] := by
  induction l generalizing s with
  | nil => simp
  | cons a l ih =>
    rw [List.foldl_cons, ih, BitSet.mem_union, or_assoc]
    simp only [List.mem_cons, exists_eq_or_imp]

/-- One step of the dataflow: what holds at a successor and is not held back, and what is new. -/
theorem mem_inflow : i ∈ flow.inflow e ↔
    (∃ s ∈ E.successors e, i ∈ flow.facts[s]) ∧ i ∉ flow.killed[e] ∨ i ∈ flow.generated[e] := by
  unfold inflow
  rw [BitSet.mem_union, BitSet.mem_sdiff, mem_foldl_union]
  simp only [BitSet.not_mem_empty, false_or, BitSet.mem_toList]

/-- How many facts could still come to hold. -/
def unheld (flow : Dataflow E) : Nat :=
  ((List.finRange E.size).map fun e => flow.facts[e].room).sum

/-- At most every fact is missing at every edge. -/
theorem unheld_le (flow : Dataflow E) : unheld flow ≤ E.size * E.size :=
  sum_finRange_le fun e => BitSet.room_le flow.facts[e]

theorem room_lt_of_grown {n : Nat} {s t : BitSet n} (grown : s ∪ t ≠ s) :
    (s ∪ t).room < s.room := by
  have seen := BitSet.room_union (s := s) (t := t)
  have some : (t \ s).count ≠ 0 := fun zero => grown <| BitSet.ext fun x => by
    rw [BitSet.mem_union]
    refine ⟨fun either => either.elim id fun new => ?_, Or.inl⟩
    refine Classical.byContradiction fun old => ?_
    exact BitSet.count_eq_zero_iff.1 zero x (BitSet.mem_sdiff.2 ⟨new, old⟩)
  omega

/-- A round that adds a fact leaves fewer to come. -/
theorem unheld_set_lt {extra : E.Edges} (grown : flow.facts[e] ∪ extra ≠ flow.facts[e]) :
    unheld { flow with facts := flow.facts.set e (flow.facts[e] ∪ extra) } < unheld flow := by
  have strict : ((flow.facts.set e (flow.facts[e] ∪ extra))[e]).room < flow.facts[e].room := by
    rw [Table.getElem_set_self]
    exact room_lt_of_grown grown
  refine sum_finRange_lt strict fun d other => ?_
  rw [Table.getElem_set_ne other]

/-- The facts found hold, and where some may be missing the worklist has the edge. -/
structure Partial (flow : Dataflow E) (worklist : List (Fin E.size)) : Prop where
  sound : ∀ e i, i ∈ flow.facts[e] → Holds flow i e
  settled : ∀ e, e ∉ worklist → ∀ i ∈ flow.inflow e, i ∈ flow.facts[e]

/-- Once nothing is left to do, the facts found are those that hold. -/
theorem Partial.holds_iff (state : Partial flow []) :
    i ∈ flow.facts[e] ↔ Holds flow i e := by
  refine ⟨state.sound e i, fun holds => ?_⟩
  induction holds with
  | @arises e new => exact state.settled e List.not_mem_nil i (mem_inflow.2 (Or.inr new))
  | @passes e s next _ free ih =>
    exact state.settled e List.not_mem_nil i (mem_inflow.2 (Or.inl ⟨⟨s, next, ih⟩, free⟩))

/-- An edge at which nothing new holds can be taken off the worklist. -/
theorem Partial.skip {worklist : List (Fin E.size)} (state : Partial flow (e :: worklist))
    (same : flow.facts[e] ∪ flow.inflow e = flow.facts[e]) : Partial flow worklist where
  sound := state.sound
  settled d absent j inside := by
    by_cases here : d = e
    · subst here
      rw [← same]
      exact BitSet.mem_union.2 (Or.inr inside)
    · exact state.settled d (fun member => (List.mem_cons.1 member).elim here absent) j inside

theorem holds_of_same (flow : Dataflow E) {other : Dataflow E}
    (generated : other.generated = flow.generated) (killed : other.killed = flow.killed)
    (holds : Holds flow i e) : Holds other i e := by
  induction holds with
  | arises new => exact .arises (generated ▸ new)
  | passes next _ free ih => exact .passes next ih (killed ▸ free)

/-- New facts at an edge can only matter to the edges before it, which go on the worklist. -/
theorem Partial.grow {worklist : List (Fin E.size)} (state : Partial flow (e :: worklist)) :
    Partial { flow with facts := flow.facts.set e (flow.facts[e] ∪ flow.inflow e) }
      (worklist ++ (E.predecessors e).toList) := by
  have factsIff : ∀ d j, j ∈ (flow.facts.set e (flow.facts[e] ∪ flow.inflow e))[d] ↔
      j ∈ flow.facts[d] ∨ e = d ∧ j ∈ flow.inflow e := by
    intro d j
    by_cases here : e = d
    · subst here
      rw [Table.getElem_set_self, BitSet.mem_union]
      exact or_congr_right (and_iff_right rfl).symm
    · rw [Table.getElem_set_ne here]
      exact ⟨Or.inl, fun either => either.resolve_right fun both => here both.1⟩
  refine { sound := fun d j inside => ?_, settled := fun d absent j inside => ?_ }
  · refine holds_of_same flow rfl rfl ?_
    rcases (factsIff d j).1 inside with old | ⟨rfl, new⟩
    · exact state.sound d j old
    · rcases mem_inflow.1 new with ⟨⟨s, next, fact⟩, free⟩ | new
      · exact .passes next (state.sound s j fact) free
      · exact .arises new
  · obtain ⟨notLater, notBefore⟩ := not_or.1 fun member => absent (List.mem_append.2 member)
    refine (factsIff d j).2 ?_
    have old : j ∈ flow.inflow d := by
      refine mem_inflow.2 ((mem_inflow.1 inside).imp_left fun both => ⟨?_, both.2⟩)
      obtain ⟨s, next, fact⟩ := both.1
      rcases (factsIff s j).1 fact with fact | ⟨rfl, -⟩
      · exact ⟨s, next, fact⟩
      · exact absurd (BitSet.mem_toList.2 (E.mem_successors_iff_mem_predecessors.1 next)) notBefore
    by_cases here : e = d
    · exact Or.inr ⟨here, here ▸ old⟩
    · refine Or.inl (state.settled d (fun member => ?_) j old)
      exact (List.mem_cons.1 member).elim (fun same => here same.symm) notLater

/-- The worklist ends in the least facts. -/
theorem propagate_spec {fuel : Nat} {worklist : List (Fin E.size)}
    (enough : worklist.length + unheld flow * E.size ≤ fuel) (state : Partial flow worklist) :
    i ∈ (propagate fuel worklist flow).value.facts[e] ↔ Holds flow i e := by
  induction fuel generalizing worklist flow with
  | zero =>
    have empty : worklist = [] := List.length_eq_zero_iff.1 (by omega)
    subst empty
    exact state.holds_iff
  | succ fuel ih =>
    cases worklist with
    | nil => exact state.holds_iff
    | cons d worklist =>
      rw [List.length_cons] at enough
      simp only [propagate, Counted.value_bind]
      split
      · rename_i same
        exact ih (by omega) (state.skip same)
      · rename_i grown
        have less := unheld_set_lt grown
        have few := (E.predecessors d).length_toList_le
        have room : unheld { flow with facts := flow.facts.set d (flow.facts[d] ∪ flow.inflow d) } *
            E.size + E.size ≤ unheld flow * E.size := by
          rw [← Nat.succ_mul]
          exact Nat.mul_le_mul_right _ less
        rw [ih (by rw [List.length_append]; omega) state.grow]
        exact ⟨holds_of_same _ rfl rfl, holds_of_same _ rfl rfl⟩

/-! ### The joins of a graph -/

variable {execution : Execution E}

/-- A join adds a fact at each of the edges into it. -/
theorem mem_generated_addJoin {v : Fin E.order} {out : Fin E.size} :
    i ∈ (addJoin execution flow (v, out)).value.generated[e] ↔
      i ∈ flow.generated[e] ∨ E.target e = v ∧ i = e := by
  have fold := mem_foldl_set (fun a set => BitSet.insert set a) (fun a x => x = a)
    (fun _ _ _ => BitSet.mem_insert.trans or_comm) (l := (E.entering v).toList)
    (t := flow.generated) (a := e) (x := i)
  rw [BitSet.mem_toList, E.mem_entering] at fold
  exact fold

/-- A join holds its facts back at all edges into it and at those that execute it. -/
theorem mem_killed_addJoin {v : Fin E.order} {out : Fin E.size} :
    i ∈ (addJoin execution flow (v, out)).value.killed[e] ↔ i ∈ flow.killed[e] ∨
      E.target i = v ∧ (E.target e = v ∨ e ∈ execution.executedBy[out]) := by
  have add : ∀ (_ : Fin E.size) s x, x ∈ s ∪ E.entering v ↔ x ∈ s ∨ E.target x = v :=
    fun _ s x => BitSet.mem_union.trans (or_congr_right E.mem_entering)
  have first := mem_foldl_set (fun _ set => set ∪ E.entering v) (fun _ x => E.target x = v) add
    (l := (E.entering v).toList) (t := flow.killed) (a := e) (x := i)
  have second := mem_foldl_set (fun _ set => set ∪ E.entering v) (fun _ x => E.target x = v) add
    (l := (execution.executedBy[out]).toList)
    (t := (E.entering v).toList.foldl (killAt (E.entering v)) flow.killed) (a := e) (x := i)
  refine second.trans ?_
  rw [BitSet.mem_toList]
  refine (or_congr_left first).trans ?_
  rw [BitSet.mem_toList, E.mem_entering, or_assoc]
  refine or_congr_right ?_
  rw [← or_and_right, and_comm]

theorem foldl_addJoin_spec (flow : Dataflow E) (joins : List (Fin E.order × Fin E.size)) :
    let final := (joins.foldlM (addJoin execution) flow).value
    final.facts = flow.facts ∧
    (∀ e i, i ∈ final.generated[e] ↔ i ∈ flow.generated[e] ∨
      ∃ j ∈ joins, E.target e = j.1 ∧ i = e) ∧
    ∀ e i, i ∈ final.killed[e] ↔ i ∈ flow.killed[e] ∨
      ∃ j ∈ joins, E.target i = j.1 ∧ (E.target e = j.1 ∨ e ∈ execution.executedBy[j.2]) := by
  induction joins generalizing flow with
  | nil => simp
  | cons join joins ih =>
    obtain ⟨v, out⟩ := join
    obtain ⟨facts, generated, killed⟩ := ih (addJoin execution flow (v, out)).value
    simp only [List.foldlM_cons, Counted.value_bind]
    refine ⟨facts, fun e i => ?_, fun e i => ?_⟩
    · rw [generated, mem_generated_addJoin, or_assoc]
      simp only [List.mem_cons, exists_eq_or_imp]
    · rw [killed, mem_killed_addJoin, or_assoc]
      simp only [List.mem_cons, exists_eq_or_imp]

end Dataflow

namespace EdgeGraph

variable {E : EdgeGraph}

/-- A walk from an edge to `i`, which enters a join, that meets on the way no edge entering the join
and none that executes the edge leaving it. -/
inductive Starts (E : EdgeGraph) (i : Fin E.size) : Fin E.size → Prop where
  | enters (isJoin : E.kindOf (E.target i) = .join) : Starts E i i
  | leads {e s : Fin E.size} (next : s ∈ E.successors e) (rest : Starts E i s)
      (other : E.target e ≠ E.target i)
      (free : e ∉ E.executionOf.executedBy[E.exitOf (E.target i)]) : Starts E i e

theorem Starts.isJoin {i e : Fin E.size} (starts : Starts E i e) :
    E.kindOf (E.target i) = .join := by
  induction starts with
  | enters isJoin => exact isJoin
  | leads _ _ _ _ ih => exact ih

/-- A fact holds all along a walk that nothing on the way holds back. -/
theorem Starts.of_trail {P : Fin E.size → Prop} {i e s : Fin E.size}
    (trail : Trail E.successors P e s) (starts : Starts E i s)
    (quiet : ∀ x, P x → x ≠ s → E.target x ≠ E.target i ∧
      x ∉ E.executionOf.executedBy[E.exitOf (E.target i)]) : Starts E i e := by
  induction trail with
  | stay => exact starts
  | @step a b c ok next rest ih =>
    by_cases here : a = c
    · exact here ▸ starts
    · obtain ⟨other, free⟩ := quiet a ok here
      exact .leads next (ih starts quiet) other free

/-- What the joins of a graph put down for a family of execution sets. -/
def rulesFor (execution : Execution E) : Dataflow E :=
  (E.joinExits.foldlM (Dataflow.addJoin execution) (Dataflow.initial E)).value

section Rules

variable {execution : Execution E} {e i : Fin E.size}

theorem mem_initial : i ∉ (Table.replicate E.size (∅ : E.Edges))[e] := by
  rw [Table.getElem_replicate]
  exact BitSet.not_mem_empty i

theorem not_mem_facts_rules : i ∉ (rulesFor execution).facts[e] := by
  rw [rulesFor, (Dataflow.foldl_addJoin_spec _ E.joinExits).1]
  exact mem_initial

/-- A fact arises at its own edge if this enters a join. -/
theorem mem_generated_rules :
    i ∈ (rulesFor execution).generated[e] ↔ i = e ∧ E.kindOf (E.target e) = .join := by
  refine ((Dataflow.foldl_addJoin_spec _ E.joinExits).2.1 e i).trans ⟨?_, fun both => Or.inr ?_⟩
  · rintro (old | ⟨⟨v, out⟩, member, here, rfl⟩)
    · exact absurd old mem_initial
    · exact ⟨rfl, here ▸ (mem_joinExits.1 member).1⟩
  · exact ⟨(_, E.exitOf (E.target e)), mem_joinExits.2 ⟨both.2, rfl⟩, rfl, both.1⟩

/-- A fact is held back at the edges into its join and at those that execute the join. -/
theorem mem_killed_rules :
    i ∈ (rulesFor execution).killed[e] ↔ E.kindOf (E.target i) = .join ∧
      (E.target e = E.target i ∨ e ∈ execution.executedBy[E.exitOf (E.target i)]) := by
  refine ((Dataflow.foldl_addJoin_spec _ E.joinExits).2.2 e i).trans ⟨?_, fun both => Or.inr ?_⟩
  · rintro (old | ⟨⟨v, out⟩, member, here, either⟩)
    · exact absurd old mem_initial
    · obtain ⟨isJoin, rfl⟩ := mem_joinExits.1 member
      have here : E.target i = v := here
      subst here
      exact ⟨isJoin, either⟩
  · exact ⟨(_, E.exitOf (E.target i)), mem_joinExits.2 ⟨both.1, rfl⟩, rfl, both.2⟩

/-- The worklist that begins with the edges entering joins ends in the least facts. -/
theorem mem_facts_propagate :
    let worklist := E.joinExits.flatMap fun join => (E.entering join.1).toList
    i ∈ (Dataflow.propagate (worklist.length + E.size * E.size * E.size) worklist
      (rulesFor execution)).value.facts[e] ↔ (rulesFor execution).Holds i e := by
  intro worklist
  apply Dataflow.propagate_spec
  · exact Nat.add_le_add_left (Nat.mul_le_mul_right _ (Dataflow.unheld_le _)) _
  constructor
  · intro d j inside
    exact absurd inside not_mem_facts_rules
  · intro d absent j inside
    rcases Dataflow.mem_inflow.1 inside with ⟨⟨s, -, fact⟩, -⟩ | new
    · exact absurd fact not_mem_facts_rules
    · refine absurd (List.mem_flatMap.2 ⟨(E.target d, E.exitOf (E.target d)), ?_, ?_⟩) absent
      · exact mem_joinExits.2 ⟨(mem_generated_rules.1 new).2, rfl⟩
      · exact BitSet.mem_toList.2 (E.mem_entering.2 rfl)

end Rules

theorem holds_iff_starts {e i : Fin E.size} : E.dataflowRules.Holds i e ↔ Starts E i e := by
  constructor
  · intro holds
    have isJoin : E.kindOf (E.target i) = .join := by
      induction holds with
      | arises new =>
        obtain ⟨rfl, isJoin⟩ := mem_generated_rules.1 new
        exact isJoin
      | passes _ _ _ ih => exact ih
    induction holds with
    | arises new =>
      obtain ⟨rfl, -⟩ := mem_generated_rules.1 new
      exact .enters isJoin
    | passes next _ free ih =>
      obtain ⟨other, apart⟩ := not_or.1 fun either => free (mem_killed_rules.2 ⟨isJoin, either⟩)
      exact .leads next ih other apart
  · intro starts
    induction starts with
    | enters isJoin => exact .arises (mem_generated_rules.2 ⟨rfl, isJoin⟩)
    | leads next _ other free ih =>
      exact .passes next ih fun killed => (mem_killed_rules.1 killed).2.elim other free

/-- The worklist ends in the facts that a walk from the edge leads to. -/
theorem mem_facts_iff {e i : Fin E.size} : i ∈ E.dataflowOf.facts[e] ↔ Starts E i e :=
  mem_facts_propagate.trans holds_iff_starts

end EdgeGraph
end WorkflowSoundness
