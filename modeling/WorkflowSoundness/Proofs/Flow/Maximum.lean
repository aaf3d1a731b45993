import WorkflowSoundness.Proofs.Flow.Tracing

/-!
Flow and cuts. The surplus of a set of nodes is what flow leads out of it less what flow leads into
it. A feasible flow has its value as the surplus of every set with the source and without the
sink, so no cut is smaller than the value; where the search for another path ends, it leaves a
cut that the flow fills. `maximize` answers the size of a smallest cut (`maximize_le_cut`,
`exists_cut_eq_maximize`).
-/

namespace WorkflowSoundness.FlowNetwork

/-- Two predicates that differ at one place of a list. -/
theorem countP_eq_add_one {α : Type} {l : List α} (once : l.Nodup) {a : α} (member : a ∈ l)
    {p q : α → Bool} (new : q a = true) (old : p a = false) (same : ∀ b, b ≠ a → q b = p b) :
    l.countP q = l.countP p + 1 := by
  induction l with
  | nil => exact absurd member List.not_mem_nil
  | cons b l ih =>
    obtain ⟨fresh, once⟩ := List.nodup_cons.1 once
    by_cases here : b = a
    · subst here
      have rest : l.countP q = l.countP p := List.countP_congr fun c later => by
        rw [same c fun equal => fresh (equal ▸ later)]
      rw [List.countP_cons_of_pos new, List.countP_cons_of_neg (by simp [old]), rest]
    · have later := ih once ((List.mem_cons.1 member).resolve_left (Ne.symm here))
      rw [List.countP_cons, List.countP_cons, later, same b here, Nat.add_right_comm]

variable {net : FlowNetwork}

/-- How many of the given edges lead out of a set of nodes. -/
def crossing (edges : BitSet net.size) (S : Fin net.order → Bool) : Nat :=
  (List.finRange net.size).countP fun e =>
    edges.contains e && (S net.ends[e].1 && !S net.ends[e].2)

/-- What leads out of a set of nodes less what leads into it. -/
def surplus (flow : BitSet net.size) (S : Fin net.order → Bool) : Int :=
  crossing flow S - crossing flow fun v => !S v

/-- One for the members of a set. -/
def weight (S : Fin net.order → Bool) (v : Fin net.order) : Int :=
  if S v then 1 else 0

variable {capacity flow : BitSet net.size} {source sink : Fin net.order} {value : Nat}
  {S : Fin net.order → Bool}

theorem contains_insert_self (flow : BitSet net.size) (e : Fin net.size) :
    (flow.insert e).contains e = true :=
  BitSet.contains_iff_mem.2 (BitSet.mem_insert.2 (Or.inl rfl))

theorem contains_insert_ne {e d : Fin net.size} (other : d ≠ e) :
    (flow.insert e).contains d = flow.contains d := by
  rw [Bool.eq_iff_iff, BitSet.contains_iff_mem, BitSet.contains_iff_mem, BitSet.mem_insert]
  exact or_iff_right other

/-- One more edge crosses a set once if it leads out of it. -/
theorem crossing_insert {e : Fin net.size} (free : e ∉ flow) (S : Fin net.order → Bool) :
    crossing (flow.insert e) S =
      crossing flow S + if S net.ends[e].1 && !S net.ends[e].2 then 1 else 0 := by
  have old : flow.contains e = false := Bool.eq_false_iff.2 free
  unfold crossing
  split
  · rename_i leads
    refine countP_eq_add_one (List.nodup_finRange _) (List.mem_finRange e) ?_ ?_ fun d other => ?_
    · rw [contains_insert_self, leads, Bool.true_and]
    · rw [old, Bool.false_and]
    · rw [contains_insert_ne other]
  · rename_i stays
    refine List.countP_congr fun d _ => ?_
    by_cases here : d = e
    · subst here
      rw [Bool.eq_false_iff.2 stays, Bool.and_false, Bool.and_false]
    · rw [contains_insert_ne here]

/-- One more edge with flow adds to the surplus of a set what its ends weigh. -/
theorem surplus_insert {e : Fin net.size} (free : e ∉ flow) (S : Fin net.order → Bool) :
    surplus (flow.insert e) S =
      surplus flow S + (weight S net.ends[e].1 - weight S net.ends[e].2) := by
  unfold surplus weight
  rw [crossing_insert free, crossing_insert free]
  cases S net.ends[e].1 <;> cases S net.ends[e].2 <;> simp <;> omega

/-- An edge that loses its flow takes this back. -/
theorem surplus_erase {e : Fin net.size} (carries : e ∈ flow) (S : Fin net.order → Bool) :
    surplus (flow.erase e) S =
      surplus flow S + (weight S net.ends[e].2 - weight S net.ends[e].1) := by
  have free : e ∉ flow.erase e := fun member => (BitSet.mem_erase.1 member).1 rfl
  have whole : (flow.erase e).insert e = flow := BitSet.ext fun d => by
    rw [BitSet.mem_insert, BitSet.mem_erase]
    by_cases here : d = e
    · exact iff_of_true (Or.inl here) (here ▸ carries)
    · exact (or_iff_right here).trans (and_iff_right here)
  have step := surplus_insert free S
  rw [whole] at step
  omega

theorem surplus_empty (S : Fin net.order → Bool) : surplus (∅ : BitSet net.size) S = 0 := by
  have none : ∀ T : Fin net.order → Bool, crossing (∅ : BitSet net.size) T = 0 := fun T => by
    refine List.countP_eq_zero.2 fun e _ leads => ?_
    exact BitSet.not_mem_empty e (Bool.and_eq_true_iff.1 leads).1
  rw [surplus, none, none]
  rfl

theorem crossing_mono (within : ∀ e ∈ flow, e ∈ capacity) (S : Fin net.order → Bool) :
    crossing flow S ≤ crossing capacity S := by
  refine List.countP_mono_left fun e _ leads => ?_
  obtain ⟨carries, out⟩ := Bool.and_eq_true_iff.1 leads
  exact Bool.and_eq_true_iff.2 ⟨within e carries, out⟩

/-- A flow of the given value from the source to the sink. -/
structure Feasible (capacity : BitSet net.size) (source sink : Fin net.order) (value : Nat)
    (flow : BitSet net.size) : Prop where
  within : ∀ e ∈ flow, e ∈ capacity
  surplus : ∀ S, surplus flow S = value * (weight S source - weight S sink)

theorem feasible_empty : Feasible capacity source sink 0 ∅ where
  within e member := absurd member (BitSet.not_mem_empty e)
  surplus S := by simp [surplus_empty]

/-- A flow through a cut is no larger than the cut. -/
theorem Feasible.le_cut (feasible : Feasible capacity source sink value flow)
    (start : S source = true) (stop : S sink = false) : value ≤ crossing capacity S := by
  have through := feasible.surplus S
  simp only [FlowNetwork.surplus, weight, start, stop, if_true, Bool.false_eq_true, if_false]
    at through
  have most := crossing_mono feasible.within S
  omega

/-- A set that no residual edge leads out of is a cut that the flow fills. -/
theorem Feasible.eq_cut (feasible : Feasible capacity source sink value flow)
    (start : S source = true) (stop : S sink = false)
    (closed : ∀ e u v, Residual capacity flow e u v → S u = true → S v = true) :
    value = crossing capacity S := by
  have through := feasible.surplus S
  simp only [FlowNetwork.surplus, weight, start, stop, if_true, Bool.false_eq_true, if_false]
    at through
  have full : crossing flow S = crossing capacity S := by
    refine List.countP_congr fun e _ => ?_
    simp only [Bool.and_eq_true, Bool.not_eq_true', BitSet.contains_iff_mem]
    refine and_congr_left fun leads => ⟨feasible.within e, fun room => ?_⟩
    refine Classical.byContradiction fun free => ?_
    exact Bool.false_ne_true
      (leads.2.symm.trans (closed e _ _ (Or.inl ⟨rfl, room, free⟩) leads.1))
  have none : (crossing flow fun v => !S v) = 0 := by
    refine List.countP_eq_zero.2 fun e _ leads => ?_
    simp only [Bool.and_eq_true, Bool.not_eq_true', BitSet.contains_iff_mem, Bool.not_not] at leads
    exact Bool.false_ne_true
      (leads.2.1.symm.trans (closed e _ _ (Or.inr ⟨rfl, leads.1⟩) leads.2.2))
  rw [full, none] at through
  omega

/-! ### Augmenting -/

namespace Traced

variable {via : Table (Option (Fin net.size)) net.order} {v : Fin net.order}
  {W : List (Fin net.size)}

/-- An edge of a way back that gets flow has room for it. -/
theorem mem_capacity (traced : Traced via capacity flow source v W) {e : Fin net.size}
    (member : e ∈ W) (free : e ∉ flow) : e ∈ capacity := by
  obtain ⟨x, y, -, -, residual, -⟩ := traced.exists_back member
  exact residual.elim (fun forwards => forwards.2.1) fun backwards => absurd backwards.2 free

/-- To turn over a way back is to move one unit along it. -/
theorem surplus_turned (traced : Traced via capacity flow source v W) {turned : BitSet net.size}
    (on : ∀ d ∈ W, d ∈ turned ↔ d ∉ flow) (off : ∀ d, d ∉ W → (d ∈ turned ↔ d ∈ flow))
    (S : Fin net.order → Bool) :
    surplus turned S = surplus flow S + (weight S source - weight S v) := by
  have once := traced.nodup
  induction traced generalizing turned with
  | root =>
    have same : turned = flow := BitSet.ext fun d => off d List.not_mem_nil
    rw [same, Int.sub_self, Int.add_zero]
  | @back u v e W foundBy residual apart rest ih =>
    obtain ⟨fresh, once⟩ := List.nodup_cons.1 once
    -- before the last edge was turned over
    have before : ∀ {F : BitSet net.size}, (e ∈ F ↔ e ∈ flow) →
        (∀ d, d ≠ e → (d ∈ F ↔ d ∈ turned)) →
        surplus F S = surplus flow S + (weight S source - weight S u) := by
      intro F here others
      refine ih (fun d member => ?_) (fun d absent => ?_) once
      · have other : d ≠ e := fun same => fresh (same ▸ member)
        exact (others d other).trans (on d (List.mem_cons_of_mem e member))
      · by_cases same : d = e
        · exact same ▸ here
        · exact (others d same).trans (off d (List.not_mem_cons_of_ne_of_not_mem same absent))
    rcases residual with ⟨ends, -, free⟩ | ⟨ends, carries⟩
    · have gets : e ∈ turned := (on e List.mem_cons_self).2 free
      have step := surplus_erase gets S
      rw [ends, before (iff_of_false (fun member => (BitSet.mem_erase.1 member).1 rfl) free)
        fun d other => BitSet.mem_erase.trans (and_iff_right other)] at step
      dsimp only at step
      omega
    · have loses : e ∉ turned := fun member => (on e List.mem_cons_self).1 member carries
      have step := surplus_insert loses S
      rw [ends, before (iff_of_true (BitSet.mem_insert.2 (Or.inl rfl)) carries)
        fun d other => BitSet.mem_insert.trans (or_iff_right other)] at step
      dsimp only at step
      omega

end Traced

/-- Either the flow gains a unit, or a set with the source and without the sink is closed. -/
theorem augment_spec (listed : Listed net) (apart : source ≠ sink)
    (feasible : Feasible capacity source sink value flow) :
    match (augment capacity flow source sink).value with
    | some route => Feasible capacity source sink (value + 1) route.flow
    | none => ∃ S : Fin net.order → Bool, S source = true ∧ S sink = false ∧
        ∀ e u v, Residual capacity flow e u v → S u = true → S v = true := by
  obtain ⟨done, ordered, outcome⟩ := search_spec listed capacity flow source sink
  simp only [augment, Counted.value_bind]
  generalize (Search.run (net.arcs capacity flow) (· == sink) net.order (.from source)).value =
    search at ordered outcome
  by_cases member : sink ∈ search.found
  · obtain ⟨before, after, split⟩ := List.append_of_mem ((ordered.found sink).1 member)
    obtain ⟨e, u, -, via, -⟩ := ordered.back before sink after split (Ne.symm apart)
    obtain ⟨W, traced, short⟩ := exists_traced ordered split
    rw [if_neg (by simp [apart, via])]
    have start : (⟨sink, ∅, flow⟩ : Route net).origin = sink := rfl
    obtain ⟨-, -, on, off⟩ :=
      traced.follow start (Nat.le_trans short (ordered.length_before_le split))
    refine ⟨fun d carries => ?_, fun S => ?_⟩
    · by_cases onWay : d ∈ W
      · exact traced.mem_capacity onWay ((on d onWay).1 carries)
      · exact feasible.within d ((off d onWay).1 carries)
    · rw [traced.surplus_turned on off S, feasible.surplus S, Int.natCast_add, Int.add_mul]
      simp
  · rw [if_pos (Or.inr (ordered.unseen sink member))]
    refine ⟨search.found.contains, ordered.source_found, Bool.eq_false_iff.2 member, ?_⟩
    exact (outcome.resolve_left member).1

/-! ### The maximum -/

/-- No flow is worth more than there are edges. -/
theorem Feasible.value_le (feasible : Feasible capacity source sink value flow)
    (apart : source ≠ sink) : value ≤ net.size := by
  have cut := feasible.le_cut (S := (· == source)) (beq_self_eq_true source)
    (beq_eq_false_iff_ne.2 (Ne.symm apart))
  have few : crossing capacity (· == source) ≤ (List.finRange net.size).length :=
    List.countP_le_length
  rw [List.length_finRange] at few
  omega

/-- The run lemma: raising ends with a feasible flow and a set that no residual edge leads out
of. -/
theorem maximizeFrom_spec (listed : Listed net) (apart : source ≠ sink) {fuel : Nat}
    {result : Result net} (enough : net.size < fuel + result.value)
    (feasible : Feasible capacity source sink result.value result.flow) :
    let final := (maximizeFrom capacity source sink fuel result).value
    Feasible capacity source sink final.value final.flow ∧
      ∃ S : Fin net.order → Bool, S source = true ∧ S sink = false ∧
        ∀ e u v, Residual capacity final.flow e u v → S u = true → S v = true := by
  induction fuel generalizing result with
  | zero =>
    have bound := feasible.value_le apart
    omega
  | succ fuel ih =>
    have step := augment_spec listed apart feasible
    simp only [maximizeFrom, Counted.value_bind]
    split at step
    · rename_i route found
      rw [found]
      refine ih ?_ step
      simp only [Result.raise]
      omega
    · rename_i stops
      rw [stops]
      exact ⟨feasible, step⟩

theorem maximize_spec (listed : Listed net) (apart : source ≠ sink)
    (capacity : BitSet net.size) :
    let final := (maximize capacity ∅ source sink).value
    Feasible capacity source sink final.value final.flow ∧
      ∃ S : Fin net.order → Bool, S source = true ∧ S sink = false ∧
        ∀ e u v, Residual capacity final.flow e u v → S u = true → S v = true :=
  maximizeFrom_spec listed apart (by simp only; omega) feasible_empty

/-- Weak duality: no cut is crossed by less than the flow. -/
theorem maximize_le_cut (listed : Listed net) (start : S source = true) (stop : S sink = false) :
    (maximize capacity ∅ source sink).value.value ≤ crossing capacity S := by
  have apart : source ≠ sink := fun same =>
    Bool.false_ne_true (stop.symm.trans (same ▸ start))
  exact (maximize_spec listed apart capacity).1.le_cut start stop

/-- Strong duality: some cut is crossed by no more than the flow. -/
theorem exists_cut_eq_maximize (listed : Listed net) (apart : source ≠ sink)
    (capacity : BitSet net.size) :
    ∃ S : Fin net.order → Bool, S source = true ∧ S sink = false ∧
      (maximize capacity ∅ source sink).value.value = crossing capacity S := by
  obtain ⟨feasible, S, start, stop, closed⟩ := maximize_spec listed apart capacity
  exact ⟨S, start, stop, feasible.eq_cut start stop closed⟩

end WorkflowSoundness.FlowNetwork
