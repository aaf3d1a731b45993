import WorkflowSoundness.Proofs.Abundance.Candidates
import WorkflowSoundness.Proofs.Closing
import WorkflowSoundness.Proofs.Sets
import WorkflowSoundness.Proofs.Trail

/-!
The joins that starve without an edge. A set of edges fires if the start edge leads to each of them
within the set and no join of it lacks an edge (`Firing`). The rounds of `settle` end in the
greatest set that fires without the edge (`settle_without`), whatever the order in which they take
the joins, and the edges behind joins that are not in it are the dependent ones. Asked for them
after whatever has been asked before, a memo answers the same, without a visit if it has been asked
for this edge (`dependent_starved`).
-/

namespace WorkflowSoundness.Abundance

variable {E : EdgeGraph} {allowed : E.Edges}

/-- Tokens of the start edge get to every edge of the set, and at a join of it along all edges. -/
structure Firing (E : EdgeGraph) (Z : Fin E.size → Prop) : Prop where
  reached : ∀ z, Z z → Trail E.successors Z E.first z
  joined : ∀ z, Z z → E.kindOf (E.source z) = .join → ∀ q, E.target q = E.source z → Z q

theorem mem_reachable {x : Fin E.size} :
    x ∈ (reachable allowed).value ↔ Trail E.successors (· ∈ allowed) E.first x := by
  unfold reachable
  dsimp only
  split
  · rename_i start
    rw [BitSet.mem_reach_trail_iff]
    constructor
    · rintro ⟨a, seed, trail⟩
      obtain rfl := List.mem_singleton.1 seed
      clear seed
      have within : ∀ {a c : Fin E.size}, Trail (fun e => E.successors e ∩ allowed) (fun _ => True)
          a c → a ∈ allowed → Trail E.successors (· ∈ allowed) a c := by
        intro a c trail
        induction trail with
        | stay => exact .stay
        | step _ first _ ih =>
          obtain ⟨next, inside⟩ := BitSet.mem_inter.1 first
          exact fun here => .step here next (ih inside)
      exact within trail start
    · intro trail
      refine ⟨E.first, List.mem_singleton_self _, (trail.map fun a b _ inside next => ?_).mono
        fun _ _ => trivial⟩
      exact BitSet.mem_inter.2 ⟨next, inside⟩
  · rename_i start
    exact iff_of_false (BitSet.not_mem_empty x) fun trail => start trail.start

theorem mem_starve {v : Fin E.order} {x : Fin E.size} :
    x ∈ starve allowed v ↔ x ∈ allowed ∧ (E.source x = v → ∀ q, E.target q = v → q ∈ allowed) := by
  unfold starve
  split
  · rename_i all
    refine (and_iff_left fun _ q enters => ?_).symm
    exact BitSet.subset_iff.1 all q (E.mem_entering.2 enters)
  · rename_i lacks
    rw [BitSet.mem_sdiff, E.mem_leaving]
    refine and_congr_right fun _ => ⟨fun other same => absurd same other, fun fed same => ?_⟩
    exact lacks (BitSet.subset_iff.2 fun q member => fed same q (E.mem_entering.1 member))

theorem foldl_starve_subset {joins : List (Fin E.order)} {s : E.Edges} {x : Fin E.size}
    (kept : x ∈ joins.foldl starve s) : x ∈ s := by
  induction joins generalizing s with
  | nil => exact kept
  | cons v joins ih => exact (mem_starve.1 (ih kept)).1

/-- Where no join loses its exit, none lacks an edge. -/
theorem fed_of_foldl_starve {joins : List (Fin E.order)} {s : E.Edges}
    (stable : joins.foldl starve s = s) {v : Fin E.order} (member : v ∈ joins) {x : Fin E.size}
    (inside : x ∈ s) (leaves : E.source x = v) : ∀ q, E.target q = v → q ∈ s := by
  induction joins generalizing s with
  | nil => cases member
  | cons w joins ih =>
    have same : starve s w = s := BitSet.ext fun y =>
      ⟨fun kept => (mem_starve.1 kept).1, fun here => foldl_starve_subset
        (show y ∈ joins.foldl starve (starve s w) from stable.symm ▸ here)⟩
    rcases List.mem_cons.1 member with rfl | member
    · exact (mem_starve.1 (same.symm ▸ inside)).2 leaves
    · have rest : joins.foldl starve (starve s w) = s := stable
      rw [same] at rest
      exact ih rest member inside

section Greatest

variable {Z : Fin E.size → Prop} (firing : Firing E Z)

include firing

theorem Firing.le_foldl_starve {joins : List (Fin E.order)}
    (areJoins : ∀ v ∈ joins, E.kindOf v = .join) {s : E.Edges} (within : ∀ z, Z z → z ∈ s) :
    ∀ z, Z z → z ∈ joins.foldl starve s := by
  induction joins generalizing s with
  | nil => exact within
  | cons v joins ih =>
    refine ih (fun w member => areJoins w (List.mem_cons_of_mem v member)) fun z inside => ?_
    refine mem_starve.2 ⟨within z inside, fun leaves q enters => within q ?_⟩
    exact firing.joined z inside (leaves ▸ areJoins v List.mem_cons_self) q
      (enters.trans leaves.symm)

/-- A round keeps every firing set. -/
theorem Firing.le_settleOver {joins : List (Fin E.order)}
    (areJoins : ∀ v ∈ joins, E.kindOf v = .join) {fuel : Nat} (within : ∀ z, Z z → z ∈ allowed) :
    ∀ z, Z z → z ∈ (settleOver joins fuel allowed).value := by
  induction fuel generalizing allowed with
  | zero => exact within
  | succ fuel ih =>
    simp only [settleOver, Counted.value_bind]
    have kept : ∀ z, Z z → z ∈ joins.foldl starve (allowed ∩ (reachable allowed).value) :=
      firing.le_foldl_starve areJoins fun z inside =>
        BitSet.mem_inter.2 ⟨within z inside,
          mem_reachable.2 ((firing.reached z inside).mono within)⟩
    split
    · exact kept
    · exact ih kept

end Greatest

section Rounds

variable {joins : List (Fin E.order)}

/-- What a round keeps has been allowed and reached. -/
theorem of_mem_round {x : Fin E.size}
    (kept : x ∈ joins.foldl starve (allowed ∩ (reachable allowed).value)) :
    x ∈ allowed ∧ x ∈ (reachable allowed).value :=
  BitSet.mem_inter.1 (foldl_starve_subset kept)

theorem settleOver_subset {fuel : Nat} {x : Fin E.size}
    (kept : x ∈ (settleOver joins fuel allowed).value) : x ∈ allowed := by
  induction fuel generalizing allowed with
  | zero => exact kept
  | succ fuel ih =>
    simp only [settleOver, Counted.value_bind] at kept
    split at kept
    · exact (of_mem_round kept).1
    · exact (of_mem_round (ih kept)).1

/-- A round that leaves as many edges as there were leaves the same ones. -/
theorem round_eq_of_count
    (same : (joins.foldl starve (allowed ∩ (reachable allowed).value)).count = allowed.count) :
    joins.foldl starve (allowed ∩ (reachable allowed).value) = allowed := by
  by_contra changed
  have less := BitSet.count_lt_of_subset (fun y inside => (of_mem_round inside).1) changed
  omega

/-- A set that a round leaves as it is fires. -/
theorem firing_of_round_eq (allJoins : ∀ v, E.kindOf v = .join → v ∈ joins)
    (stable : joins.foldl starve (allowed ∩ (reachable allowed).value) = allowed) :
    Firing E (· ∈ allowed) := by
  have reached : ∀ y, y ∈ allowed → y ∈ (reachable allowed).value := by
    intro y inside
    rw [← stable] at inside
    exact (of_mem_round inside).2
  have found : allowed ∩ (reachable allowed).value = allowed := by
    refine BitSet.ext fun y => ?_
    rw [BitSet.mem_inter]
    exact and_iff_left_of_imp (reached y)
  rw [found] at stable
  refine ⟨fun z inside => mem_reachable.1 (reached z inside), ?_⟩
  intro z inside isJoin q enters
  exact fed_of_foldl_starve stable (allJoins _ isJoin) inside rfl q enters

/-- Each round but the last loses an edge, so the last one is reached. -/
theorem settleOver_firing (allJoins : ∀ v, E.kindOf v = .join → v ∈ joins) {fuel : Nat}
    (enough : allowed.count < fuel) : Firing E (· ∈ (settleOver joins fuel allowed).value) := by
  induction fuel generalizing allowed with
  | zero => exact absurd enough (Nat.not_lt_zero _)
  | succ fuel ih =>
    simp only [settleOver, Counted.value_bind]
    split
    · rename_i same
      have stable := round_eq_of_count same
      simp only [Counted.value_pure, stable]
      exact firing_of_round_eq allJoins stable
    · rename_i changed
      refine ih (Nat.lt_of_lt_of_le ?_ (Nat.le_of_lt_succ enough))
      exact BitSet.count_lt_of_subset (fun y inside => (of_mem_round inside).1) fun same =>
        changed (congrArg BitSet.count same)

theorem mem_endsOver {ends : Fin E.order → E.Edges} {x : Fin E.size} :
    x ∈ endsOver joins ends ↔ ∃ v ∈ joins, x ∈ ends v := by
  have fold : ∀ {l : List (Fin E.order)} {s : E.Edges},
      x ∈ l.foldl (fun edges join => edges ∪ ends join) s ↔ x ∈ s ∨ ∃ v ∈ l, x ∈ ends v := by
    intro l
    induction l with
    | nil => simp
    | cons v l ih =>
      intro s
      rw [List.foldl_cons, ih, BitSet.mem_union, or_assoc]
      simp only [List.mem_cons, exists_eq_or_imp]
  unfold endsOver
  rw [fold]
  simp only [BitSet.not_mem_empty, false_or]

/-- The greatest set of edges that fires without `e`. -/
structure FiresWithout (e : Fin E.size) (R : E.Edges) : Prop where
  without : e ∉ R
  firing : Firing E (· ∈ R)
  greatest : ∀ Z : Fin E.size → Prop, ¬ Z e → Firing E Z → ∀ z, Z z → z ∈ R

section AllJoins

variable (areJoins : ∀ v, v ∈ joins ↔ E.kindOf v = .join) {e : Fin E.size}

include areJoins

/-- The rounds end in that set. -/
theorem settleOver_without :
    FiresWithout e (settleOver joins (E.size + 1) (BitSet.full.erase e)).value where
  without kept := (BitSet.mem_erase.1 (settleOver_subset kept)).1 rfl
  firing := settleOver_firing (fun v => (areJoins v).2) (Nat.lt_succ_of_le (BitSet.count_le _))
  greatest Z without firing := by
    refine firing.le_settleOver (fun v => (areJoins v).1) fun z inside => ?_
    exact BitSet.mem_erase.2 ⟨fun same => without (same ▸ inside), BitSet.mem_full z⟩

theorem mem_dependentOver_iff {R : E.Edges} (fires : FiresWithout e R) {x : Fin E.size} :
    x ∈ (dependentOver joins e).value ↔ E.kindOf (E.source x) = .join ∧ x ∉ R := by
  have leaves : x ∈ endsOver joins E.leaving ↔ E.kindOf (E.source x) = .join := by
    simp only [mem_endsOver, E.mem_leaving, areJoins]
    exact ⟨fun ⟨v, isJoin, leaves⟩ => leaves ▸ isJoin, fun isJoin => ⟨_, isJoin, rfl⟩⟩
  have settled := settleOver_without areJoins (e := e)
  have same : x ∈ (settleOver joins (E.size + 1) (BitSet.full.erase e)).value ↔ x ∈ R :=
    ⟨fires.greatest _ settled.without settled.firing x,
      settled.greatest _ fires.without fires.firing x⟩
  simp only [dependentOver, Counted.value_bind, Counted.value_pure]
  rw [BitSet.mem_inter, BitSet.mem_sdiff, leaves, same, and_comm]
  exact and_congr_right fun _ => and_iff_right (BitSet.mem_full x)

end AllJoins

end Rounds

theorem mem_atJoins {ends : Fin E.order → E.Edges} {x : Fin E.size} :
    x ∈ atJoins ends ↔ ∃ v, E.kindOf v = .join ∧ x ∈ ends v := by
  simp only [atJoins, mem_endsOver, E.mem_nodesOf]

theorem mem_atJoins_entering {x : Fin E.size} :
    x ∈ atJoins E.entering ↔ E.kindOf (E.target x) = .join := by
  simp only [mem_atJoins, E.mem_entering]
  exact ⟨fun ⟨v, isJoin, enters⟩ => enters ▸ isJoin, fun isJoin => ⟨_, isJoin, rfl⟩⟩

theorem settle_without (e : Fin E.size) :
    FiresWithout e (settle (E.size + 1) (BitSet.full.erase e)).value :=
  settleOver_without fun _ => E.mem_nodesOf

/-- The edge behind a join depends on `e` if it is in no firing set without `e`. -/
theorem mem_dependent_iff {e x : Fin E.size} :
    x ∈ (dependent e).value ↔
      E.kindOf (E.source x) = .join ∧ ∀ Z, Firing E Z → ¬ Z e → ¬ Z x := by
  have settled := settle_without e
  rw [dependent, mem_dependentOver_iff (fun _ => E.mem_nodesOf) settled]
  refine and_congr_right fun _ => ⟨fun outside Z firing without inside => ?_, fun none => ?_⟩
  · exact outside (settled.greatest Z without firing x inside)
  · exact none _ settled.firing settled.without

/-- The edges that depend on `e` are those behind joins that are not in the greatest set that fires
without `e`, in whatever order the rounds take the joins. However often an analysis has asked for
this and for other edges, it answers the same set, and determines it once. -/
theorem dependent_starved (E : EdgeGraph) (e : Fin E.size) : ∃ R : E.Edges, FiresWithout e R ∧
    (∀ x, x ∈ (dependent e).value ↔ E.kindOf (E.source x) = .join ∧ x ∉ R) ∧
    (∀ joins : List (Fin E.order), (∀ v, v ∈ joins ↔ E.kindOf v = .join) →
      (dependentOver joins e).value = (dependent e).value) ∧
    ∀ asked : List (Fin E.size), ((Memo.after asked).ask e).value.1 = (dependent e).value ∧
      (e ∈ asked → ((Memo.after asked).ask e).visits = 0) := by
  have settled := settle_without e
  have members : ∀ x, x ∈ (dependent e).value ↔ _ := fun x =>
    mem_dependentOver_iff (fun _ => E.mem_nodesOf) settled
  refine ⟨_, settled, members, fun joins areJoins => BitSet.ext fun x => ?_, fun asked => ?_⟩
  · rw [mem_dependentOver_iff areJoins settled, members]
  · refine ⟨((Memo.sound_after asked).ask e).1, fun before => ?_⟩
    obtain ⟨found, known⟩ := Memo.known_after before
    exact Memo.visits_ask known

/-- The joins 2 and 3 wait for each other, and each for a branch of the fork 1. -/
def entangled : Graph where
  name := "entangled"
  nodes := [.start, .fork, .join, .join, .fork, .fork, .merge, .finish].map (⟨·, []⟩)
  flows := [⟨0, 1⟩, ⟨1, 2⟩, ⟨1, 3⟩, ⟨2, 4⟩, ⟨3, 5⟩, ⟨4, 3⟩, ⟨4, 6⟩, ⟨5, 2⟩, ⟨5, 6⟩, ⟨6, 7⟩]
  flows_inside := by decide

def entangledEdges : EdgeGraph :=
  .closing entangled ⟨0, by decide⟩ ⟨9, by decide⟩

/-- Without the branch to the join 2 both joins starve, the other one because nothing comes from
2 any more, although the rounds look at 3 before 2. -/
theorem dependent_entangled : entangled.validate = .ok () ∧
    EdgeGraph.ofGraph entangled = .ok entangledEdges ∧
    ∃ R : entangledEdges.Edges, FiresWithout ⟨1, by decide⟩ R ∧
      (∀ x : Fin entangledEdges.size, x.val = 3 ∨ x.val = 4 → x ∉ R) ∧
      (∀ v : Fin entangledEdges.order, v ∈ [⟨3, by decide⟩, ⟨2, by decide⟩] ↔
        entangledEdges.kindOf v = .join) ∧
      (dependentOver [⟨3, by decide⟩, ⟨2, by decide⟩] ⟨1, by decide⟩).value =
        (.ofList [⟨3, by decide⟩, ⟨4, by decide⟩] : entangledEdges.Edges) := by
  obtain ⟨R, fires, members, orders, -⟩ := dependent_starved entangledEdges ⟨1, by decide⟩
  have joins : ∀ v : Fin entangledEdges.order, v ∈ [⟨3, by decide⟩, ⟨2, by decide⟩] ↔
      entangledEdges.kindOf v = .join := by decide +kernel
  have value : (dependent ⟨1, by decide⟩).value =
      (.ofList [⟨3, by decide⟩, ⟨4, by decide⟩] : entangledEdges.Edges) := by decide +kernel
  refine ⟨by decide +kernel, rfl, R, fires, fun x which => ?_, joins, (orders _ joins).trans value⟩
  have starves : x ∈ (dependent ⟨1, by decide⟩).value := by
    rw [value, BitSet.mem_ofList, List.mem_pair]
    exact which.imp Fin.ext Fin.ext
  exact ((members x).1 starves).2

end WorkflowSoundness.Abundance
