import WorkflowSoundness.Abundance.Basic
import WorkflowSoundness.Proofs.Sets

/-!
Which definitions a fork has. Its branches are followed; what lies in the frontier of a followed
edge is a meeting edge, found once (`mem_definitions_of_frontier`); and a meeting edge is followed
unless it is the immediate post-dominator of the entry or of an edge in whose frontier it is
(`followed_or_stopped`).
-/

namespace WorkflowSoundness.Abundance

variable {E : EdgeGraph}

/-- The edge defines a token of its own, and its frontier has been looked at. -/
def Followed (definitions : List (Definition E)) (e : Fin E.size) : Prop :=
  ⟨e, false⟩ ∈ definitions

/-- The edge has been found in a frontier. -/
def Met (definitions : List (Definition E)) (e : Fin E.size) : Prop :=
  ⟨e, true⟩ ∈ definitions

/-- The edge has been found in a frontier, but nothing looks at its own. -/
def Dropped (definitions : List (Definition E)) (e : Fin E.size) : Prop :=
  Met definitions e ∧ ¬ Followed definitions e

/-- The edge is among the definitions. -/
def Defined (definitions : List (Definition E)) (e : Fin E.size) : Prop :=
  ∃ definition ∈ definitions, definition.edge = e

/-- A definition is followed or met, or both. -/
theorem defined_iff {definitions : List (Definition E)} {e : Fin E.size} :
    Defined definitions e ↔ Followed definitions e ∨ Met definitions e := by
  constructor
  · rintro ⟨⟨d, meets⟩, member, rfl⟩
    cases meets with
    | false => exact Or.inl member
    | true => exact Or.inr member
  · rintro (member | member)
    · exact ⟨_, member, rfl⟩
    · exact ⟨_, member, rfl⟩

variable (basis : Basis E) (entry : Fin E.size)

/-- One edge taken from the pending ones, and those that its frontier adds, make progress. -/
theorem progress {pending : E.Edges} (reached frontier : E.Edges) {e : Fin E.size}
    (member : e ∈ pending) (keep : Fin E.size → Bool) :
    (pending.erase e ∪ .ofList ((frontier \ reached).toList.filter keep)).count +
      (reached ∪ frontier).room < pending.count + reached.room := by
  have less := BitSet.count_erase member
  have seen := BitSet.room_union (s := reached) (t := frontier)
  have few : (pending.erase e ∪ .ofList ((frontier \ reached).toList.filter keep)).count ≤
      (pending.erase e).count + (frontier \ reached).count := by
    have bound := BitSet.count_le_of_subset
      (s := pending.erase e ∪ .ofList ((frontier \ reached).toList.filter keep))
      (l := (pending.erase e).toList ++ (frontier \ reached).toList) fun x inside => by
        rcases BitSet.mem_union.1 inside with old | new
        · exact List.mem_append_left _ (BitSet.mem_toList.2 old)
        · exact List.mem_append_right _ (List.mem_filter.1 (BitSet.mem_ofList.1 new)).1
    rwa [List.length_append, ← BitSet.count_eq_length_toList, ← BitSet.count_eq_length_toList]
      at bound
  omega

/-- What one run of the worklist finds, for what is pending and what has been reached before. -/
structure Found (basis : Basis E) (entry : Fin E.size) (pending reached : E.Edges)
    (definitions : List (Definition E)) : Prop where
  taken : ∀ e ∈ pending, Followed definitions e
  spread : ∀ e, Followed definitions e → ∀ s ∈ basis.dominance.frontier e,
    s ∈ reached ∨ Met definitions s
  met : ∀ s, Met definitions s → s ∉ reached ∧ ∃ e, Followed definitions e ∧
    s ∈ basis.dominance.frontier e
  stopped : ∀ s, Met definitions s → Followed definitions s ∨
    basis.postDominance.immediate? entry = some s ∨
      ∃ e, Followed definitions e ∧ s ∈ basis.dominance.frontier e ∧
        basis.postDominance.immediate? e = some s
  followed : ∀ e, Followed definitions e → e ∈ pending ∨ Met definitions e

section Round

variable {pending reached fresh : E.Edges} {e : Fin E.size} {later : List (Definition E)}

theorem followed_round_iff {d : Fin E.size} :
    Followed (⟨e, false⟩ :: fresh.toList.map (⟨·, true⟩) ++ later) d ↔
      d = e ∨ Followed later d := by
  simp [Followed]

/-- What a followed edge meets is listed right behind it. -/
theorem met_round_iff {s : Fin E.size} :
    Met (⟨e, false⟩ :: fresh.toList.map (⟨·, true⟩) ++ later) s ↔ s ∈ fresh ∨ Met later s := by
  simp [Met, BitSet.mem_toList]

/-- Pending after one round: what was so before, and what is new in the frontier and does not
post-dominate the entry or the edge immediately. -/
theorem mem_pending_round (pending fresh : E.Edges) (e : Fin E.size) {s : Fin E.size} :
    s ∈ pending.erase e ∪ .ofList (fresh.toList.filter fun s =>
      !List.contains [basis.postDominance.immediate? entry, basis.postDominance.immediate? e]
        (some s)) ↔
      (s ≠ e ∧ s ∈ pending) ∨ s ∈ fresh ∧ basis.postDominance.immediate? entry ≠ some s ∧
        basis.postDominance.immediate? e ≠ some s := by
  have passes : (!List.contains [basis.postDominance.immediate? entry,
      basis.postDominance.immediate? e] (some s)) = true ↔
        basis.postDominance.immediate? entry ≠ some s ∧
          basis.postDominance.immediate? e ≠ some s := by
    rw [Bool.not_eq_true', ← Bool.not_eq_true, List.contains_iff_mem, List.mem_cons,
      List.mem_singleton, not_or]
    exact and_congr ne_comm ne_comm
  rw [BitSet.mem_union, BitSet.mem_erase, BitSet.mem_ofList, List.mem_filter, BitSet.mem_toList,
    passes]

namespace Found

theorem nil (none : ∀ e, e ∉ pending) : Found basis entry pending reached [] where
  taken e member := absurd member (none e)
  spread _ member := absurd member List.not_mem_nil
  met _ member := absurd member List.not_mem_nil
  stopped _ member := absurd member List.not_mem_nil
  followed _ member := absurd member List.not_mem_nil

variable {basis entry}

/-- One round: a pending edge is followed, and what is new in its frontier is met. -/
theorem round (member : e ∈ pending)
    (rest : Found basis entry
      (pending.erase e ∪ .ofList ((basis.dominance.frontier e \ reached).toList.filter fun s =>
        !List.contains [basis.postDominance.immediate? entry, basis.postDominance.immediate? e]
          (some s)))
      (reached ∪ basis.dominance.frontier e) later) :
    Found basis entry pending reached
      (⟨e, false⟩ :: (basis.dominance.frontier e \ reached).toList.map (⟨·, true⟩) ++ later) := by
  have here : Followed
      (⟨e, false⟩ :: (basis.dominance.frontier e \ reached).toList.map (⟨·, true⟩) ++ later) e :=
    followed_round_iff.2 (Or.inl rfl)
  refine
    { taken := fun d inside => followed_round_iff.2 ?_
      spread := fun d isFollowed s inside => ?_
      met := fun s isMet => ?_
      stopped := fun s isMet => ?_
      followed := fun d isFollowed => ?_ }
  · by_cases same : d = e
    · exact Or.inl same
    · exact Or.inr (rest.taken d ((mem_pending_round basis entry _ _ e).2 (Or.inl ⟨same, inside⟩)))
  · by_cases old : s ∈ reached
    · exact Or.inl old
    refine Or.inr (met_round_iff.2 ?_)
    rcases followed_round_iff.1 isFollowed with rfl | isFollowed
    · exact Or.inl (BitSet.mem_sdiff.2 ⟨inside, old⟩)
    · refine (rest.spread d isFollowed s inside).imp_left fun seen => ?_
      exact BitSet.mem_sdiff.2 ⟨(BitSet.mem_union.1 seen).resolve_left old, old⟩
  · rcases met_round_iff.1 isMet with fresh | isMet
    · obtain ⟨inside, new⟩ := BitSet.mem_sdiff.1 fresh
      exact ⟨new, e, here, inside⟩
    · obtain ⟨new, d, isFollowed, inside⟩ := rest.met s isMet
      exact ⟨fun old => new (BitSet.mem_union.2 (Or.inl old)), d,
        followed_round_iff.2 (Or.inr isFollowed), inside⟩
  · rcases met_round_iff.1 isMet with fresh | isMet
    · by_cases atEntry : basis.postDominance.immediate? entry = some s
      · exact Or.inr (Or.inl atEntry)
      by_cases atEdge : basis.postDominance.immediate? e = some s
      · exact Or.inr (Or.inr ⟨e, here, (BitSet.mem_sdiff.1 fresh).1, atEdge⟩)
      have waits := (mem_pending_round basis entry pending _ e).2 (Or.inr ⟨fresh, atEntry, atEdge⟩)
      exact Or.inl (followed_round_iff.2 (Or.inr (rest.taken s waits)))
    · rcases rest.stopped s isMet with isFollowed | atEntry | ⟨d, isFollowed, inside, atEdge⟩
      · exact Or.inl (followed_round_iff.2 (Or.inr isFollowed))
      · exact Or.inr (Or.inl atEntry)
      · exact Or.inr (Or.inr ⟨d, followed_round_iff.2 (Or.inr isFollowed), inside, atEdge⟩)
  · rcases followed_round_iff.1 isFollowed with rfl | isFollowed
    · exact Or.inl member
    rcases rest.followed d isFollowed with waits | isMet
    · rcases (mem_pending_round basis entry _ _ e).1 waits with ⟨-, old⟩ | ⟨fresh, -⟩
      · exact Or.inl old
      · exact Or.inr (met_round_iff.2 (Or.inl fresh))
    · exact Or.inr (met_round_iff.2 (Or.inr isMet))

end Found

end Round

/-- The run lemma: with enough fuel the search ends with what can be found from the pending
edges. -/
theorem definitionsFrom_found {fuel : Nat} {pending reached : E.Edges}
    (enough : pending.count + reached.room < fuel) :
    Found basis entry pending reached (definitionsFrom basis entry fuel pending reached).value := by
  induction fuel generalizing pending reached with
  | zero => exact absurd enough (Nat.not_lt_zero _)
  | succ fuel ih =>
    unfold definitionsFrom
    split
    · rename_i none
      exact .nil basis entry (BitSet.first?_eq_none_iff.1 none)
    · rename_i e first
      have member : e ∈ pending := (BitSet.first?_eq_some_iff.1 first).1
      simp only [Counted.value_bind, Counted.value_pure]
      refine .round member (ih ?_)
      exact Nat.lt_of_lt_of_le (progress reached (basis.dominance.frontier e) member _)
        (Nat.le_of_lt_succ enough)

/-- What holds of the pending edges and is handed on from every edge to those that its frontier
adds holds of all edges that are followed. -/
theorem definitionsFrom_within {S T : Fin E.size → Prop}
    (spread : ∀ e, S e → ∀ s ∈ basis.dominance.frontier e, T s ∧
      (basis.postDominance.immediate? entry ≠ some s →
        basis.postDominance.immediate? e ≠ some s → S s))
    {fuel : Nat} {pending reached : E.Edges} (start : ∀ e ∈ pending, S e) :
    (∀ e, Followed (definitionsFrom basis entry fuel pending reached).value e → S e) ∧
      ∀ s, Met (definitionsFrom basis entry fuel pending reached).value s → T s := by
  induction fuel generalizing pending reached with
  | zero => exact ⟨fun _ member => (nomatch member), fun _ member => (nomatch member)⟩
  | succ fuel ih =>
    unfold definitionsFrom
    split
    · exact ⟨fun _ member => (nomatch member), fun _ member => (nomatch member)⟩
    · rename_i e first
      have here : S e := start e (BitSet.first?_eq_some_iff.1 first).1
      have handed : ∀ s ∈ basis.dominance.frontier e \ reached, T s ∧
          (basis.postDominance.immediate? entry ≠ some s →
            basis.postDominance.immediate? e ≠ some s → S s) := fun s fresh =>
        spread e here s (BitSet.mem_sdiff.1 fresh).1
      simp only [Counted.value_bind, Counted.value_pure]
      obtain ⟨laterFollowed, laterMet⟩ := @ih _ (reached ∪ basis.dominance.frontier e)
        fun x waits =>
          ((mem_pending_round basis entry pending (basis.dominance.frontier e \ reached) e).1
            waits).elim (fun old => start x old.2) fun new => (handed x new.1).2 new.2.1 new.2.2
      refine ⟨fun d followed => ?_, fun s met => ?_⟩
      · rcases followed_round_iff.1 followed with rfl | followed
        · exact here
        · exact laterFollowed d followed
      · rcases met_round_iff.1 met with fresh | met
        · exact (handed s fresh).1
        · exact laterMet s met

variable (fork : Fin E.order)

theorem definitions_found :
    Found basis entry (E.leaving fork) ∅ (definitions basis fork entry).value := by
  refine definitionsFrom_found basis entry ?_
  have left := (E.leaving fork).count_le
  have right := (∅ : E.Edges).room_le
  omega

variable {basis entry fork} {e s : Fin E.size}

/-- The search follows every branch of the fork. -/
theorem followed_branch (leaves : E.source e = fork) :
    Followed (definitions basis fork entry).value e :=
  (definitions_found basis entry fork).taken e (E.mem_leaving.2 leaves)

/-- All that the frontier of a followed edge holds is met. -/
theorem met_of_frontier (followed : Followed (definitions basis fork entry).value e)
    (inside : s ∈ basis.dominance.frontier e) : Met (definitions basis fork entry).value s :=
  ((definitions_found basis entry fork).spread e followed s inside).resolve_left
    (BitSet.not_mem_empty s)

theorem followed_or_stopped (met : Met (definitions basis fork entry).value s) :
    Followed (definitions basis fork entry).value s ∨
      basis.postDominance.immediate? entry = some s ∨
        ∃ e, Followed (definitions basis fork entry).value e ∧ s ∈ basis.dominance.frontier e ∧
          basis.postDominance.immediate? e = some s :=
  (definitions_found basis entry fork).stopped s met

/-- Nothing is met but what the frontier of a followed edge holds. -/
theorem frontier_of_met (met : Met (definitions basis fork entry).value s) :
    ∃ e, Followed (definitions basis fork entry).value e ∧ s ∈ basis.dominance.frontier e :=
  ((definitions_found basis entry fork).met s met).2

theorem definitions_within {S T : Fin E.size → Prop} (start : ∀ e, E.source e = fork → S e)
    (spread : ∀ e, S e → ∀ s ∈ basis.dominance.frontier e, T s ∧
      (basis.postDominance.immediate? entry ≠ some s →
        basis.postDominance.immediate? e ≠ some s → S s)) :
    (∀ e, Followed (definitions basis fork entry).value e → S e) ∧
      ∀ s, Met (definitions basis fork entry).value s → T s :=
  definitionsFrom_within basis entry spread fun e member => start e (E.mem_leaving.1 member)

/-- Besides the branches only edges that were met are followed. -/
theorem branch_or_met (followed : Followed (definitions basis fork entry).value e) :
    E.source e = fork ∨ Met (definitions basis fork entry).value e :=
  ((definitions_found basis entry fork).followed e followed).imp_left E.mem_leaving.1

end WorkflowSoundness.Abundance
