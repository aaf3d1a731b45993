import WorkflowSoundness.Proofs.Flow.Maximum

/-!
What a flow is made of. A flow with a value has a walk from the source to the sink among its edges,
as otherwise the nodes that its edges lead to would be a set that loses nothing (`exists_walk`).
The walk can be taken without a repeated edge, and without its edges a flow of one less is left
(`Feasible.without`). So a flow consists of as many walks without a common edge as its value says
(`Feasible.exists_walks`).
-/

namespace WorkflowSoundness.FlowNetwork

/-- The edges of a list lead one after another from the first node to the second. -/
def IsWalk (net : FlowNetwork) : Fin net.order → List (Fin net.size) → Fin net.order → Prop
  | u, [], v => u = v
  | u, e :: later, v => net.ends[e].1 = u ∧ net.IsWalk net.ends[e].2 later v

variable {net : FlowNetwork} {capacity flow : BitSet net.size} {source sink u v w : Fin net.order}
  {value : Nat} {W : List (Fin net.size)}

namespace IsWalk

theorem append {V : List (Fin net.size)} (left : net.IsWalk u W v) (right : net.IsWalk v V w) :
    net.IsWalk u (W ++ V) w := by
  induction W generalizing u with
  | nil =>
    obtain rfl : u = v := left
    exact right
  | cons e W ih => exact ⟨left.1, ih left.2⟩

/-- What comes from an edge on is a walk from where that edge starts. -/
theorem drop {before later : List (Fin net.size)} {e : Fin net.size}
    (walk : net.IsWalk u (before ++ e :: later) v) : net.IsWalk net.ends[e].1 (e :: later) v := by
  induction before generalizing u with
  | nil => exact ⟨rfl, walk.2⟩
  | cons d before ih => exact ih walk.2

/-- A walk that comes back to an edge can leave out what is between. -/
theorem exists_nodup (walk : net.IsWalk u W v) :
    ∃ V, net.IsWalk u V v ∧ V.Nodup ∧ ∀ e ∈ V, e ∈ W := by
  induction W generalizing u with
  | nil => exact ⟨[], walk, List.nodup_nil, fun e member => member⟩
  | cons e W ih =>
    obtain ⟨V, rest, once, within⟩ := ih walk.2
    by_cases again : e ∈ V
    · obtain ⟨before, later, rfl⟩ := List.append_of_mem again
      refine ⟨e :: later, walk.1 ▸ rest.drop, (List.nodup_append.1 once).2.1, fun d member => ?_⟩
      exact List.mem_cons_of_mem e (within d (List.mem_append_right before member))
    · refine ⟨e :: V, ⟨walk.1, rest⟩, List.nodup_cons.2 ⟨again, once⟩, fun d member => ?_⟩
      exact (List.mem_cons.1 member).elim (fun same => same ▸ List.mem_cons_self)
        fun later => List.mem_cons_of_mem e (within d later)

end IsWalk

/-- A flow with a value leads from the source to the sink. -/
theorem Feasible.exists_walk (feasible : Feasible capacity source sink (value + 1) flow) :
    ∃ W, net.IsWalk source W sink ∧ ∀ e ∈ W, e ∈ flow := by
  classical
  let led : Fin net.order → Prop := fun v => ∃ W, net.IsWalk source W v ∧ ∀ e ∈ W, e ∈ flow
  refine Classical.byContradiction fun apart => ?_
  have start : led source := ⟨[], rfl, fun e member => absurd member List.not_mem_nil⟩
  have through := feasible.surplus fun v => decide (led v)
  have none : crossing flow (fun v => decide (led v)) = 0 := by
    refine List.countP_eq_zero.2 fun e _ leads => ?_
    simp only [Bool.and_eq_true, Bool.not_eq_true', decide_eq_true_iff, decide_eq_false_iff_not,
      BitSet.contains_iff_mem] at leads
    obtain ⟨carries, ⟨W, walk, within⟩, out⟩ := leads
    refine out ⟨W ++ [e], walk.append ⟨rfl, rfl⟩, fun d member => ?_⟩
    exact (List.mem_append.1 member).elim (within d) fun last =>
      List.mem_singleton.1 last ▸ carries
  simp only [FlowNetwork.surplus, none, weight, decide_eq_true start,
    decide_eq_false (p := led sink) apart, if_true, Bool.false_eq_true, if_false] at through
  omega

/-- What is left of a set of edges without those of a list. -/
def without (flow : BitSet net.size) (W : List (Fin net.size)) : BitSet net.size :=
  W.foldl BitSet.erase flow

theorem mem_without {e : Fin net.size} : e ∈ without flow W ↔ e ∈ flow ∧ e ∉ W := by
  unfold without
  induction W generalizing flow with
  | nil => simp
  | cons d W ih =>
    rw [List.foldl_cons, ih, BitSet.mem_erase, List.mem_cons, not_or]
    exact ⟨fun ⟨⟨other, inside⟩, out⟩ => ⟨inside, other, out⟩,
      fun ⟨inside, other, out⟩ => ⟨⟨other, inside⟩, out⟩⟩

/-- Taking away a walk takes one unit from its start to its end. -/
theorem surplus_without (walk : net.IsWalk u W v) (once : W.Nodup) (within : ∀ e ∈ W, e ∈ flow)
    (S : Fin net.order → Bool) :
    surplus (without flow W) S = surplus flow S + (weight S v - weight S u) := by
  induction W generalizing u flow with
  | nil =>
    obtain rfl : u = v := walk
    simp [without]
  | cons e W ih =>
    obtain ⟨rfl, rest⟩ := walk
    obtain ⟨new, once⟩ := List.nodup_cons.1 once
    have kept : ∀ d ∈ W, d ∈ flow.erase e := fun d member => BitSet.mem_erase.2
      ⟨fun same => new (same ▸ member), within d (List.mem_cons_of_mem e member)⟩
    have later := ih rest once kept
    rw [surplus_erase (within e List.mem_cons_self)] at later
    exact later.trans (by omega)

theorem Feasible.without (feasible : Feasible capacity source sink (value + 1) flow)
    (walk : net.IsWalk source W sink) (once : W.Nodup) (within : ∀ e ∈ W, e ∈ flow) :
    Feasible capacity source sink value (FlowNetwork.without flow W) where
  within e member := feasible.within e (mem_without.1 member).1
  surplus S := by
    rw [surplus_without walk once within, feasible.surplus, Int.natCast_add, Int.add_mul]
    omega

/-- A flow of some value has as many walks from the source to the sink that share no edge. -/
theorem Feasible.exists_walks (feasible : Feasible capacity source sink value flow) :
    ∃ walks : List (List (Fin net.size)), walks.length = value ∧
      (∀ W ∈ walks, net.IsWalk source W sink ∧ W.Nodup ∧ ∀ e ∈ W, e ∈ flow) ∧
      walks.Pairwise List.Disjoint := by
  induction value generalizing flow with
  | zero => exact ⟨[], rfl, fun W member => absurd member List.not_mem_nil, .nil⟩
  | succ value ih =>
    obtain ⟨W, walk, within⟩ := feasible.exists_walk
    obtain ⟨V, walk, once, part⟩ := walk.exists_nodup
    have inFlow : ∀ e ∈ V, e ∈ flow := fun e member => within e (part e member)
    obtain ⟨walks, number, each, apart⟩ := ih (feasible.without walk once inFlow)
    refine ⟨V :: walks, congrArg (· + 1) number, ?_, ?_⟩
    · refine List.forall_mem_cons.2 ⟨⟨walk, once, inFlow⟩, fun W member => ?_⟩
      obtain ⟨leads, single, left⟩ := each W member
      exact ⟨leads, single, fun e inside => (mem_without.1 (left e inside)).1⟩
    · refine List.pairwise_cons.2 ⟨fun W member e inside also => ?_, apart⟩
      exact (mem_without.1 ((each W member).2.2 e also)).2 inside

end WorkflowSoundness.FlowNetwork
