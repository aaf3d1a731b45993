import WorkflowSoundness.Proofs.Flow.Fork

/-!
Walks of the workflow against cuts of the network around a fork. A walk that starts at the fork and
ends on the other side of a cut crosses it at one of its edges, at a branch perhaps on one of the
two virtual edges (`exists_crossing`). So a cut is at least as large as a set of walks without a
common edge, and so is the flow (`length_le_maximize`). At a branch the flow is two or one, as the
walks lead back to the entry or do not (`two_le_maximize_branch_iff`).
-/

namespace WorkflowSoundness

namespace EdgeGraph

/-- The edges of a list lead one after another from the first node to the second. -/
def IsWalk (E : EdgeGraph) : Fin E.order → List (Fin E.size) → Fin E.order → Prop
  | u, [], v => u = v
  | u, e :: later, v => E.source e = u ∧ E.IsWalk (E.target e) later v

instance decidableIsWalk (E : EdgeGraph) :
    ∀ (u : Fin E.order) (l : List (Fin E.size)) (v : Fin E.order), Decidable (E.IsWalk u l v)
  | u, [], v => inferInstanceAs (Decidable (u = v))
  | u, e :: later, v =>
    have := decidableIsWalk E (E.target e) later v
    inferInstanceAs (Decidable (E.source e = u ∧ E.IsWalk (E.target e) later v))

namespace IsWalk

variable {E : EdgeGraph} {u v w : Fin E.order} {V W : List (Fin E.size)}

theorem append (left : E.IsWalk u V v) (right : E.IsWalk v W w) : E.IsWalk u (V ++ W) w := by
  induction V generalizing u with
  | nil =>
    obtain rfl : u = v := left
    exact right
  | cons e V ih => exact ⟨left.1, ih left.2⟩

theorem ne_nil (walk : E.IsWalk u W v) (other : u ≠ v) : W ≠ [] := by
  rintro rfl
  exact other walk

/-- Without its last edge a walk ends where that edge starts. -/
theorem dropLast {e : Fin E.size} (walk : E.IsWalk u (W ++ [e]) v) : E.IsWalk u W (E.source e) := by
  induction W generalizing u with
  | nil => exact walk.1.symm
  | cons d W ih => exact ⟨walk.1, ih walk.2⟩

/-- Up to where it first arrives, a walk does not leave its last node. -/
theorem takeWhile (walk : E.IsWalk u W v) :
    E.IsWalk u (W.takeWhile fun e => E.source e != v) v := by
  induction W generalizing u with
  | nil => exact walk
  | cons e W ih =>
    obtain ⟨rfl, rest⟩ := walk
    by_cases arrived : E.source e = v
    · rw [List.takeWhile_cons_of_neg (by simp [arrived])]
      exact arrived
    · rw [List.takeWhile_cons_of_pos (by simp [arrived])]
      exact ⟨rfl, ih rest⟩

end IsWalk
end EdgeGraph

/-- Lists without a common entry that each have an entry of some kind are not more than there are
of that kind. -/
theorem length_le_countP {α : Type} {lists : List (List α)} {all : List α} {p : α → Bool}
    (apart : lists.Pairwise List.Disjoint) (each : ∀ l ∈ lists, ∃ a ∈ l, a ∈ all ∧ p a = true) :
    lists.length ≤ all.countP p := by
  obtain ⟨chosen, number, once, kept⟩ : ∃ chosen : List α, chosen.length = lists.length ∧
      chosen.Nodup ∧ ∀ a ∈ chosen, (∃ l ∈ lists, a ∈ l) ∧ a ∈ all ∧ p a = true := by
    induction lists with
    | nil => exact ⟨[], rfl, List.nodup_nil, by simp⟩
    | cons l lists ih =>
      obtain ⟨disjoint, apart⟩ := List.pairwise_cons.1 apart
      obtain ⟨chosen, number, once, kept⟩ :=
        ih apart fun l' member => each l' (List.mem_cons_of_mem l member)
      obtain ⟨a, here, kind⟩ := each l List.mem_cons_self
      refine ⟨a :: chosen, congrArg (· + 1) number, List.nodup_cons.2 ⟨fun again => ?_, once⟩, ?_⟩
      · obtain ⟨⟨l', member, there⟩, -⟩ := kept a again
        exact disjoint l' member here there
      · intro b member
        cases List.mem_cons.1 member with
        | inl same => exact same ▸ ⟨⟨l, List.mem_cons_self, here⟩, kind⟩
        | inr later =>
          obtain ⟨⟨l', inside, there⟩, kind⟩ := kept b later
          exact ⟨⟨l', List.mem_cons_of_mem l inside, there⟩, kind⟩
  have within : chosen.Subperm (all.filter p) :=
    List.subperm_of_subset once fun a member => List.mem_filter.2 (kept a member).2
  rw [← number, List.countP_eq_length_filter]
  exact within.length_le

theorem two_le_countP {α : Type} [BEq α] [LawfulBEq α] {l : List α} {p : α → Bool} {a b : α}
    (left : a ∈ l) (right : b ∈ l) (other : a ≠ b) (pa : p a = true) (pb : p b = true) :
    2 ≤ l.countP p := by
  rw [List.countP_eq_length_filter]
  have sub : [a, b].Subperm (l.filter p) :=
    List.subperm_of_subset (List.pairwise_pair.2 other) fun c member => by
      rcases List.mem_cons.1 member with rfl | member
      · exact List.mem_filter.2 ⟨left, pa⟩
      · exact List.mem_singleton.1 member ▸ List.mem_filter.2 ⟨right, pb⟩
  exact sub.length_le

theorem countP_or_le {α : Type} (p q : α → Bool) (l : List α) :
    l.countP (fun a => p a || q a) ≤ l.countP p + l.countP q := by
  induction l with
  | nil => simp
  | cons a l ih =>
    simp only [List.countP_cons]
    cases p a <;> cases q a <;> simp <;> omega

namespace ForkNetwork

variable {E : EdgeGraph} {fork : Fin E.order} {entry sink : Fin E.size} {room : E.Edges}

namespace Cut

/-- Whether an edge with room leads out of the side of the fork. -/
def leads (fork : Fin E.order) (room : E.Edges) (sink entry : Fin E.size) (cut : Cut E)
    (e : Fin E.size) : Bool :=
  (e == entry || (room.contains e && e != sink)) && (cut.starts fork e && !cut.stops entry e)

/-- Whether an edge is a branch on the far side of the cut. -/
def forsakes (fork : Fin E.order) (cut : Cut E) (e : Fin E.size) : Bool :=
  E.source e == fork && !cut.branches e

variable {cut : Cut E}

theorem size_eq : cut.size fork room sink entry =
    (List.finRange E.size).countP (cut.leads fork room sink entry) +
      ((List.finRange E.size).countP (fun e => cut.nodes fork && cut.forsakes fork e) +
        (List.finRange E.size).countP fun e => cut.twin && cut.forsakes fork e) := by
  have listed : ∀ side : Bool,
      (ForkNetwork.branches E fork).countP (fun b => side && !cut.branches b) =
        (List.finRange E.size).countP fun e => side && cut.forsakes fork e := by
    intro side
    rw [ForkNetwork.branches, BitSet.toList_eq_filter, List.countP_filter]
    refine List.countP_congr fun e _ => ?_
    simp only [forsakes, Bool.and_eq_true, decide_eq_true_iff, beq_iff_eq, E.mem_leaving]
    tauto
  rw [size, listed, listed]
  rfl

/-- Whether a walk may cross the cut at an edge. -/
def crosses (fork : Fin E.order) (room : E.Edges) (sink entry : Fin E.size) (cut : Cut E)
    (e : Fin E.size) : Bool :=
  cut.leads fork room sink entry e ||
    (cut.nodes fork && cut.forsakes fork e || cut.twin && cut.forsakes fork e)

theorem countP_crosses_le :
    (List.finRange E.size).countP (cut.crosses fork room sink entry) ≤
      cut.size fork room sink entry := by
  rw [size_eq]
  refine Nat.le_trans (countP_or_le _ _ _) ?_
  exact Nat.add_le_add_left (countP_or_le _ _ _) _

end Cut

/-- A walk from the side of the fork crosses the cut or ends on that side; at the fork itself the
side is that of the fork or that of the twin. -/
theorem exists_crossing {cut : Cut E} {u v : Fin E.order} {W : List (Fin E.size)}
    (walk : E.IsWalk u W v) (usable : ∀ e ∈ W, e = entry ∨ e ∈ room ∧ e ≠ sink)
    (enters : entry ∈ W → E.target entry = fork)
    (here : u = fork → cut.nodes fork = true ∨ cut.twin = true)
    (elsewhere : u ≠ fork → cut.nodes u = true) (other : v ≠ fork) :
    (∃ e ∈ W, cut.crosses fork room sink entry e = true) ∨ cut.nodes v = true := by
  induction W generalizing u with
  | nil =>
    obtain rfl : u = v := walk
    exact Or.inr (elsewhere other)
  | cons e W ih =>
    obtain ⟨rfl, rest⟩ := walk
    cases crossing : cut.crosses fork room sink entry e with
    | true => exact Or.inl ⟨e, List.mem_cons_self, crossing⟩
    | false =>
      -- An edge that does not cross starts on the side of the fork and keeps to it.
      obtain ⟨inside, direct, again⟩ : cut.leads fork room sink entry e = false ∧
          (cut.nodes fork && cut.forsakes fork e) = false ∧
          (cut.twin && cut.forsakes fork e) = false := by
        simpa only [Cut.crosses, Bool.or_eq_false_iff] using crossing
      have starts : cut.starts fork e = true := by
        unfold Cut.starts
        split
        · rename_i leaves
          have kept : cut.forsakes fork e = false := by
            cases here leaves with
            | inl side => rwa [side, Bool.true_and] at direct
            | inr side => rwa [side, Bool.true_and] at again
          simpa [Cut.forsakes, leaves] using kept
        · rename_i away
          exact elsewhere away
      have stops : cut.stops entry e = true := by
        have hasRoom : (e == entry || (room.contains e && e != sink)) = true := by
          simpa [BitSet.contains_iff_mem] using usable e List.mem_cons_self
        rwa [Cut.leads, hasRoom, starts, Bool.true_and, Bool.true_and,
          Bool.not_eq_false'] at inside
      have later := ih rest (fun d member => usable d (List.mem_cons_of_mem e member))
        fun member => enters (List.mem_cons_of_mem e member)
      refine (later ?_ ?_).imp_left fun ⟨d, member, crossing⟩ =>
        ⟨d, List.mem_cons_of_mem e member, crossing⟩
      · intro back
        unfold Cut.stops at stops
        split at stops
        · exact Or.inr stops
        · exact Or.inl (back ▸ stops)
      · intro away
        unfold Cut.stops at stops
        split at stops
        · rename_i isEntry
          exact absurd (enters (isEntry ▸ List.mem_cons_self)) (isEntry ▸ away)
        · exact stops

/-- Walks from the fork to the source of the sink that share no edge are not more than the network
carries units. -/
theorem length_le_maximize (other : E.source sink ≠ fork) {walks : List (List (Fin E.size))}
    (each : ∀ W ∈ walks, E.IsWalk fork W (E.source sink) ∧ (entry ∈ W → E.target entry = fork) ∧
      ∀ e ∈ W, e = entry ∨ e ∈ room ∧ e ≠ sink)
    (apart : walks.Pairwise List.Disjoint) :
    walks.length ≤ (Abundance.maximize fork entry room sink).value.1 := by
  obtain ⟨cut, start, stop, value⟩ := exists_size_eq_maximize fork entry room sink
  rw [Cut.starts, if_neg other] at stop
  rw [value]
  refine Nat.le_trans (length_le_countP apart fun W member => ?_) Cut.countP_crosses_le
  obtain ⟨walk, enters, usable⟩ := each W member
  cases exists_crossing walk usable enters (fun _ => Or.inl start) (absurd rfl) other with
  | inl found =>
    obtain ⟨e, inside, crossing⟩ := found
    exact ⟨e, inside, List.mem_finRange e, crossing⟩
  | inr side =>
    rw [stop] at side
    cases side

/-! ### At a branch -/

section Branch

variable (leaves : E.source sink = fork)

include leaves

theorem Cut.forsakes_sink {cut : Cut E} (stop : cut.starts fork sink = false) :
    cut.forsakes fork sink = true := by
  rw [Cut.starts, if_pos leaves] at stop
  simp [Cut.forsakes, leaves, stop]

/-- From its side of the cut one virtual edge leads to the branch. -/
theorem Cut.countP_forsakes_pos {cut : Cut E} (stop : cut.starts fork sink = false) {side : Bool}
    (here : side = true) :
    0 < (List.finRange E.size).countP fun e => side && cut.forsakes fork e := by
  refine List.countP_pos_iff.2 ⟨sink, List.mem_finRange sink, ?_⟩
  rw [here, Cut.forsakes_sink leaves stop]
  rfl

omit leaves in
/-- If all other branches are on the side of the fork, no more than one does. -/
theorem Cut.countP_forsakes_le {cut : Cut E} (others : ∀ b, cut.branches b = (b != sink))
    (side : Bool) : (List.finRange E.size).countP (fun e => side && cut.forsakes fork e) ≤ 1 := by
  refine countP_le_one (a := sink) (List.nodup_finRange _) fun e _ beyond => ?_
  simp only [Cut.forsakes, others, Bool.and_eq_true, Bool.not_eq_true',
    bne_eq_false_iff_eq] at beyond
  exact beyond.2.2

/-- The virtual edge from the fork leads to the branch. -/
theorem one_le_maximize_branch :
    1 ≤ (Abundance.maximize fork entry room sink).value.1 := by
  obtain ⟨cut, start, stop, value⟩ := exists_size_eq_maximize fork entry room sink
  have direct := Cut.countP_forsakes_pos leaves stop start
  rw [value, Cut.size_eq]
  omega

/-- Nothing but the two virtual edges leads to a branch. -/
theorem maximize_branch_le_two :
    (Abundance.maximize fork entry room sink).value.1 ≤ 2 := by
  let cut : Cut E :=
    { nodes := fun _ => true
      twin := true
      branches := fun b => b != sink }
  have stop : cut.starts fork sink = false := by
    rw [Cut.starts, if_pos leaves]
    exact bne_self_eq_false sink
  have inside : (List.finRange E.size).countP (cut.leads fork room sink entry) = 0 := by
    refine List.countP_eq_zero.2 fun e _ => ?_
    simp [Cut.leads, Cut.stops, cut]
  have only : (List.finRange E.size).countP (fun e => true && cut.forsakes fork e) ≤ 1 :=
    Cut.countP_forsakes_le (fun _ => rfl) true
  refine Nat.le_trans (maximize_le_size rfl stop) ?_
  rw [Cut.size_eq, inside]
  exact Nat.le_trans (Nat.le_of_eq (Nat.zero_add _)) (Nat.add_le_add only only)

variable (enters : E.target entry = fork) (apart : E.source entry ≠ fork)

include enters apart

theorem two_le_maximize_branch {W : List (Fin E.size)} (walk : E.IsWalk fork W (E.source entry))
    (usable : ∀ e ∈ W, e = entry ∨ e ∈ room ∧ e ≠ sink) :
    2 ≤ (Abundance.maximize fork entry room sink).value.1 := by
  obtain ⟨cut, start, stop, value⟩ := exists_size_eq_maximize fork entry room sink
  have beyond := Cut.forsakes_sink leaves stop
  have entryOther : entry ≠ sink := fun same => apart (same ▸ leaves)
  have direct : (cut.nodes fork && cut.forsakes fork sink) = true := by
    rw [start, beyond]
    rfl
  have both : ∀ e, e ≠ sink → cut.crosses fork room sink entry e = true →
      2 ≤ cut.size fork room sink entry := by
    intro e other crossing
    refine Nat.le_trans (two_le_countP (List.mem_finRange e) (List.mem_finRange sink) other
      crossing ?_) Cut.countP_crosses_le
    simp [Cut.crosses, direct]
  rw [value]
  cases exists_crossing walk usable (fun _ => enters) (fun _ => Or.inl start) (absurd rfl)
    apart with
  | inl found =>
    obtain ⟨e, member, crossing⟩ := found
    refine both e ?_ crossing
    cases usable e member with
    | inl isEntry => exact isEntry ▸ entryOther
    | inr allows => exact allows.2
  | inr arrives =>
    cases returns : cut.twin with
    | true =>
      have once := Cut.countP_forsakes_pos leaves stop start
      have again := Cut.countP_forsakes_pos leaves stop returns
      rw [Cut.size_eq]
      omega
    | false =>
      refine both entry entryOther ?_
      simp [Cut.crosses, Cut.leads, Cut.starts, Cut.stops, apart, arrives, returns]

omit enters apart in
/-- Without a walk around, the nodes that walks lead to from the fork are a cut that only the branch
crosses. -/
theorem exists_walk_of_two_le (two : 2 ≤ (Abundance.maximize fork entry room sink).value.1) :
    ∃ W, E.IsWalk fork W (E.source entry) ∧ ∀ e ∈ W, e = entry ∨ e ∈ room ∧ e ≠ sink := by
  classical
  let led : Fin E.order → Prop := fun v =>
    ∃ W, E.IsWalk fork W v ∧ ∀ e ∈ W, e = entry ∨ e ∈ room ∧ e ≠ sink
  refine Classical.byContradiction fun alone => ?_
  let cut : Cut E :=
    { nodes := fun v => decide (led v)
      twin := false
      branches := fun b => b != sink }
  have start : led fork := ⟨[], rfl, fun e member => absurd member List.not_mem_nil⟩
  have stop : cut.starts fork sink = false := by
    rw [Cut.starts, if_pos leaves]
    exact bne_self_eq_false sink
  have follows : ∀ e, led (E.source e) → e ∈ room ∧ e ≠ sink → led (E.target e) := by
    rintro e ⟨W, walk, usable⟩ allows
    refine ⟨W ++ [e], walk.append ⟨rfl, rfl⟩, List.forall_mem_append.2 ⟨usable, ?_⟩⟩
    intro d member
    exact Or.inr (List.mem_singleton.1 member ▸ allows)
  have inside : (List.finRange E.size).countP (cut.leads fork room sink entry) = 0 := by
    refine List.countP_eq_zero.2 fun e _ leads => ?_
    simp only [Cut.leads, Bool.and_eq_true, Bool.or_eq_true, Bool.not_eq_true', beq_iff_eq,
      bne_iff_ne, BitSet.contains_iff_mem] at leads
    obtain ⟨allows, starts, stops⟩ := leads
    have source : led (E.source e) := by
      unfold Cut.starts at starts
      split at starts
      · rename_i here
        exact here.symm ▸ start
      · exact of_decide_eq_true starts
    by_cases isEntry : e = entry
    · rw [isEntry] at source
      exact alone source
    · rw [Cut.stops, if_neg (Ne.symm isEntry)] at stops
      exact of_decide_eq_false stops (follows e source (allows.resolve_left isEntry))
  have only : (List.finRange E.size).countP (fun e => cut.nodes fork && cut.forsakes fork e) ≤ 1 :=
    Cut.countP_forsakes_le (fun _ => rfl) _
  have never : (List.finRange E.size).countP (fun e => cut.twin && cut.forsakes fork e) = 0 :=
    List.countP_eq_zero.2 fun e _ => Bool.false_ne_true
  have small : (Abundance.maximize fork entry room sink).value.1 ≤ 1 := by
    refine Nat.le_trans (maximize_le_size (decide_eq_true start) stop) ?_
    rw [Cut.size_eq, inside, never]
    omega
  omega

end Branch

end ForkNetwork
end WorkflowSoundness
