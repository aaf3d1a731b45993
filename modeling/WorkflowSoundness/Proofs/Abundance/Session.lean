import WorkflowSoundness.Abundance.Session
import WorkflowSoundness.Proofs.Abundance.Walks

/-!
What a session answers. Between two turns it is told capacities and asked for flows, and no such
request changes what it has been turned to (`Turned.serve`). A new sink clears the flow and gives
room to exactly the edges allowed, the entry and the virtual edges (`Turned.setCapacities`), so
`compute` then answers the largest flow from the fork to the source of the sink
(`Turned.compute`). Behind the fork that is the largest number of walks that share no edge, and at a
branch of the fork it says whether a walk leads around to the entry (`compute_counts_walks`).
-/

namespace WorkflowSoundness

namespace NetworkSession

variable {E : EdgeGraph} {session : NetworkSession E} {fork : Fin E.order} {entry sink : Fin E.size}
  {allowed : E.Edges}

/-- What a session may be asked between two turns. -/
inductive Request where
  | setCapacities (sink : Nat) (allowed : List Nat)
  | compute

/-- What a request leaves behind, whatever it is answered. -/
def serve (session : NetworkSession E) : Request → NetworkSession E
  | .setCapacities sink allowed => (session.setCapacities sink allowed).2
  | .compute => session.compute.2

/-- The last turn was to the fork, which `entry` enters. -/
structure Turned (session : NetworkSession E) (fork : Fin E.order) (entry : Fin E.size) : Prop where
  shown : session.shown = some fork
  turn : ∃ capacity flow, session.turn = some ⟨fork, entry, capacity, flow⟩

/-- Only the capacity of the turn is filled. -/
theorem fill_eq (session : NetworkSession E) (turn : Turn E) (sink : Nat) (allowed : List Nat) :
    ∃ capacity, (session.fill turn sink allowed).2.1 = { turn with capacity } := by
  unfold fill
  split
  · exact ⟨_, rfl⟩
  · exact ⟨_, rfl⟩

theorem Turned.serve (turned : Turned session fork entry) (request : Request) :
    Turned (session.serve request) fork entry := by
  obtain ⟨shown, capacity, flow, turn⟩ := turned
  cases request with
  | setCapacities sink allowed =>
    simp only [NetworkSession.serve, setCapacities, shown, turn]
    split
    · split
      · exact ⟨shown, capacity, flow, turn⟩
      · obtain ⟨filled, same⟩ := fill_eq session
          (⟨fork, entry, capacity, ∅⟩ : Turn E) sink allowed
        exact ⟨rfl, filled, ∅, congrArg some same⟩
    · exact ⟨shown, capacity, flow, turn⟩
  | compute =>
    simp only [NetworkSession.serve, compute, shown, turn, if_true]
    refine ⟨rfl, ?_⟩
    simp only [computeIn]
    split
    · exact ⟨_, _, rfl⟩
    · exact ⟨_, _, rfl⟩

theorem Turned.serve_all (turned : Turned session fork entry) (requests : List Request) :
    Turned (requests.foldl NetworkSession.serve session) fork entry := by
  induction requests generalizing session with
  | nil => exact turned
  | cons request requests ih => exact ih (turned.serve request)

/-- A gateway that splits has an entry to turn to. -/
theorem turned_transform (valid : E.Valid) (splitting : (E.kindOf fork).isSplitting = true)
    (session : NetworkSession E) : (session.transform fork).1 = .ok () ∧
      Turned (session.transform fork).2 fork (E.entryOf fork) := by
  unfold transform
  rw [valid.soleIncoming_eq splitting]
  exact ⟨rfl, rfl, ∅, ∅, rfl⟩

/-! ### Capacities -/

/-- Edges in range are all taken in. -/
theorem permit_spec {size : Nat} {edges : List Nat} (inside : ∀ e ∈ edges, e < size)
    (capacity : BitSet size) : (permit capacity edges).1 = .ok () ∧
      ∀ x, x ∈ (permit capacity edges).2.1 ↔ x ∈ capacity ∨ x.val ∈ edges := by
  induction edges generalizing capacity with
  | nil => simp [permit]
  | cons e edges ih =>
    have here : e < size := inside e List.mem_cons_self
    obtain ⟨taken, members⟩ := ih (fun d member => inside d (List.mem_cons_of_mem e member))
      (capacity.insert ⟨e, here⟩)
    simp only [permit, dif_pos here]
    refine ⟨taken, fun x => (members x).trans ?_⟩
    rw [BitSet.mem_insert, List.mem_cons, Fin.ext_iff]
    tauto

theorem length_endsList : (ForkNetwork.endsList E fork (some entry)).length =
    (ForkNetwork.origins E fork).length := by
  simp [ForkNetwork.endsList, ForkNetwork.origins, List.length_flatMap]

/-- The capacity of the network, by the numbers of the edges. -/
theorem mem_capacity_iff {size : Nat} {x : Fin size} :
    x ∈ ForkNetwork.capacity E size allowed sink entry ↔
      (x.val ∈ allowed.toList.map Fin.val ∧ x.val ≠ sink.val) ∨ x.val = entry.val ∨
        E.size ≤ x.val := by
  by_cases isReal : x.val < E.size
  · have here : x.val = (⟨x.val, isReal⟩ : Fin E.size).val := rfl
    have listed : x.val ∈ allowed.toList.map Fin.val ↔
        (⟨x.val, isReal⟩ : Fin E.size) ∈ allowed := by
      rw [← BitSet.mem_toList, List.mem_map]
      constructor
      · rintro ⟨d, member, same⟩
        exact (Fin.ext same : d = ⟨x.val, isReal⟩) ▸ member
      · intro member
        exact ⟨_, member, rfl⟩
    rw [ForkNetwork.mem_capacity_real here, listed, Fin.ext_iff, ne_eq, Fin.ext_iff]
    simp only [Nat.not_le.2 isReal, or_false]
    exact or_comm
  · have behind := Nat.not_lt.1 isReal
    refine iff_of_true ?_ (Or.inr (Or.inr behind))
    rw [ForkNetwork.capacity, BitSet.mem_ofFn, dif_neg isReal]

/-- The edges allowed get room, then `sink` loses it, then the entry and the virtual edges get
it. -/
theorem fill_spec (shown : session.shown = some fork)
    (capacity : BitSet (ForkNetwork.network E fork (some entry)).size) :
    let filled := session.fill ⟨fork, entry, capacity, ∅⟩ sink.val (allowed.toList.map Fin.val)
    filled.1 = .ok () ∧
      filled.2.1 = ⟨fork, entry, ForkNetwork.capacity E _ allowed sink entry, ∅⟩ := by
  have size : session.edgeCount = (ForkNetwork.network E fork (some entry)).size := by
    rw [edgeCount, shown]
    exact length_endsList.symm
  have few : E.size ≤ (ForkNetwork.network E fork (some entry)).size := by
    have parts : (ForkNetwork.network E fork (some entry)).size =
      (ForkNetwork.endsList E fork (some entry)).length := rfl
    rw [parts, ForkNetwork.endsList, List.length_append, List.length_map, List.length_finRange]
    omega
  have real : ∀ e ∈ allowed.toList.map Fin.val,
      e < (ForkNetwork.network E fork (some entry)).size := by
    intro e member
    obtain ⟨d, -, rfl⟩ := List.mem_map.1 member
    exact Nat.lt_of_lt_of_le d.isLt few
  have always : ∀ e ∈ entry.val :: List.range' E.size (session.edgeCount - E.size),
      e < (ForkNetwork.network E fork (some entry)).size := by
    intro e member
    rw [List.mem_cons, List.mem_range'_1] at member
    have bound := entry.isLt
    omega
  have first := permit_spec real ∅
  unfold fill
  generalize permit ∅ (allowed.toList.map Fin.val) = step at first
  obtain ⟨outcome, taken, visits⟩ := step
  obtain ⟨rfl, takenIff⟩ := first
  have second := permit_spec always (taken \ .ofFn fun e => e.val == sink.val)
  dsimp only
  generalize permit (taken \ .ofFn fun e => e.val == sink.val)
    (entry.val :: List.range' E.size (session.edgeCount - E.size)) = step at second
  obtain ⟨outcome, final, visits'⟩ := step
  obtain ⟨rfl, finalIff⟩ := second
  have same : final = ForkNetwork.capacity E _ allowed sink entry := by
    refine BitSet.ext fun x => ?_
    have bound := x.isLt
    have ranged : x.val ∈ List.range' E.size (session.edgeCount - E.size) ↔ E.size ≤ x.val := by
      rw [List.mem_range'_1]
      omega
    rw [finalIff, mem_capacity_iff, BitSet.mem_sdiff, takenIff, BitSet.mem_ofFn, List.mem_cons,
      ranged, beq_iff_eq]
    simp only [BitSet.not_mem_empty, false_or, ne_eq]
  exact ⟨rfl, same ▸ rfl⟩

/-- Everything is set for the flow from the fork to the source of the sink. -/
structure Ready (session : NetworkSession E) (fork : Fin E.order) (entry sink : Fin E.size)
    (allowed : E.Edges) : Prop where
  shown : session.shown = some fork
  turn : session.turn = some ⟨fork, entry, ForkNetwork.capacity E _ allowed sink entry, ∅⟩
  source : session.source = fork
  sink : session.sink = (ForkNetwork.startOf E fork sink).val

theorem Turned.setCapacities (turned : Turned session fork entry)
    (fresh : (session.setCapacities sink.val (allowed.toList.map Fin.val)).1 = .ok true) :
    Ready (session.setCapacities sink.val (allowed.toList.map Fin.val)).2 fork entry sink
      allowed := by
  obtain ⟨shown, capacity, flow, turn⟩ := turned
  revert fresh
  simp only [NetworkSession.setCapacities, shown, turn, dif_pos sink.isLt]
  split
  · intro fresh
    cases fresh
  · intro _
    exact ⟨rfl, congrArg some (fill_spec shown capacity).2, rfl, rfl⟩

/-- The answer is the flow that the abundance analysis computes. -/
theorem Ready.answer_eq (ready : Ready session fork entry sink allowed) :
    session.compute.1 = .ok ⟨(Abundance.maximize fork entry allowed sink).value.1,
      (Abundance.maximize fork entry allowed sink).value.2⟩ := by
  obtain ⟨shown, turn, source, isSink⟩ := ready
  have inside : session.sink < (ForkNetwork.network E fork (some entry)).order :=
    isSink ▸ (ForkNetwork.startOf E fork sink).isLt
  have target : (⟨session.sink, inside⟩ : Fin (ForkNetwork.network E fork (some entry)).order) =
      ForkNetwork.startOf E fork sink := Fin.ext isSink
  simp only [NetworkSession.compute, shown, turn, if_true, computeIn, dif_pos inside]
  rw [source, target]
  rfl

theorem Ready.compute (ready : Ready session fork entry sink allowed) :
    ∃ answer, session.compute.1 = .ok answer ∧
      answer.value = (Abundance.maximize fork entry allowed sink).value.1 :=
  ⟨_, ready.answer_eq, rfl⟩

end NetworkSession

namespace ForkNetwork

variable {E : EdgeGraph} {fork : Fin E.order} {entry sink : Fin E.size} {allowed : E.Edges}

/-- Walks of the workflow from the fork to a node that keep to the edges allowed and the entry,
never take the sink, and share no edge. -/
structure Disperse (fork : Fin E.order) (entry sink : Fin E.size) (allowed : E.Edges)
    (walks : List (List (Fin E.size))) : Prop where
  walk : ∀ W ∈ walks, E.IsWalk fork W (E.source sink)
  within : ∀ W ∈ walks, ∀ e ∈ W, (e ∈ allowed ∨ e = entry) ∧ e ≠ sink
  apart : walks.Pairwise List.Disjoint

theorem Disperse.length_le (enters : E.target entry = fork) (other : E.source sink ≠ fork)
    {walks : List (List (Fin E.size))} (disperse : Disperse fork entry sink allowed walks) :
    walks.length ≤ (Abundance.maximize fork entry allowed sink).value.1 := by
  refine length_le_maximize other (fun W member => ?_) disperse.apart
  refine ⟨disperse.walk W member, fun _ => enters, fun e inside => ?_⟩
  obtain ⟨allows, notSink⟩ := disperse.within W member e inside
  exact allows.symm.imp_right fun isAllowed => ⟨isAllowed, notSink⟩

/-- The walks of a largest flow are cut off where they first arrive, so they do not go on over the
entry if that is the sink. -/
theorem exists_disperse (enters : E.target entry = fork) (allowed : E.Edges) (sink : Fin E.size) :
    ∃ walks, Disperse fork entry sink allowed walks ∧
      walks.length = (Abundance.maximize fork entry allowed sink).value.1 := by
  obtain ⟨walks, number, each, apart⟩ := exists_walks_maximize enters allowed sink
  let arrive : List (Fin E.size) → List (Fin E.size) :=
    fun W => W.takeWhile fun e => E.source e != E.source sink
  have part : ∀ W, ∀ e ∈ arrive W, e ∈ W := fun W e member =>
    (List.takeWhile_prefix _).subset member
  refine ⟨walks.map arrive, ⟨fun W member => ?_, fun W member e inside => ?_, ?_⟩, ?_⟩
  · obtain ⟨V, listed, rfl⟩ := List.mem_map.1 member
    exact (each V listed).1.takeWhile
  · obtain ⟨V, listed, rfl⟩ := List.mem_map.1 member
    have before : (E.source e != E.source sink) = true :=
      List.all_eq_true.1 List.all_takeWhile e inside
    have notSink : e ≠ sink := fun same => bne_iff_ne.1 before (congrArg E.source same)
    refine ⟨?_, notSink⟩
    cases (each V listed).2.2 e (part V e inside) with
    | inl isEntry => exact Or.inr isEntry
    | inr allows => exact Or.inl allows.1
  · refine List.pairwise_map.2 (apart.imp fun {V W} disjoint e left right => ?_)
    exact disjoint (part V e left) (part W e right)
  · rw [List.length_map, number]

/-- At a branch the flow is two if a walk leads around to the entry, else one. -/
theorem maximize_branch (enters : E.target entry = fork) (apart : E.source entry ≠ fork)
    (leaves : E.source sink = fork) :
    ((∃ W, E.IsWalk fork (W ++ [entry]) fork ∧
        ∀ e ∈ W ++ [entry], (e ∈ allowed ∨ e = entry) ∧ e ≠ sink) →
      (Abundance.maximize fork entry allowed sink).value.1 = 2) ∧
    ((¬ ∃ W, E.IsWalk fork (W ++ [entry]) fork ∧
        ∀ e ∈ W ++ [entry], (e ∈ allowed ∨ e = entry) ∧ e ≠ sink) →
      (Abundance.maximize fork entry allowed sink).value.1 = 1) := by
  have low : 1 ≤ (Abundance.maximize fork entry allowed sink).value.1 :=
    one_le_maximize_branch leaves
  have high : (Abundance.maximize fork entry allowed sink).value.1 ≤ 2 :=
    maximize_branch_le_two leaves
  have entryOther : entry ≠ sink := fun same => apart (same ▸ leaves)
  constructor
  · rintro ⟨W, around, within⟩
    have two := two_le_maximize_branch leaves enters apart around.dropLast fun e member => by
      obtain ⟨allows, notSink⟩ := within e (List.mem_append_left _ member)
      exact allows.symm.imp_right fun isAllowed => ⟨isAllowed, notSink⟩
    omega
  · intro alone
    refine Nat.le_antisymm (Nat.not_lt.1 fun two => alone ?_) low
    obtain ⟨W, walk, usable⟩ := exists_walk_of_two_le leaves two
    have last : E.IsWalk (E.source entry) [entry] fork := ⟨rfl, enters⟩
    refine ⟨W, walk.append last, fun e member => ?_⟩
    cases List.mem_append.1 member with
    | inl before =>
      cases usable e before with
      | inl isEntry => exact ⟨Or.inr isEntry, isEntry ▸ entryOther⟩
      | inr allows => exact ⟨Or.inl allows.1, allows.2⟩
    | inr last =>
      obtain rfl := List.mem_singleton.1 last
      exact ⟨Or.inr rfl, entryOther⟩

end ForkNetwork

namespace NetworkSession

/-- On a closed valid graph, whatever a session has been asked before, once it has been turned to a
fork and been set to a sink that it has not been asked for since, it answers the flow. If the sink
does not leave the fork, that is the largest number of walks from the fork to the source of the
sink that keep to the edges allowed and the edge entering the fork, never take the sink and share
no edge. If it does, it is two if a walk leads from the fork over another branch around to the
edge that enters it, and one otherwise. -/
theorem compute_counts_walks {g : Graph} {E : EdgeGraph} (accepted : g.validate = .ok ())
    (closed : EdgeGraph.ofGraph g = .ok E) {fork : Fin E.order}
    (forking : (E.kindOf fork).isForking = true) (session : NetworkSession E)
    (requests : List Request) (sink : Fin E.size) (allowed : E.Edges)
    (fresh : ((requests.foldl serve (session.transform fork).2).setCapacities sink.val
      (allowed.toList.map Fin.val)).1 = .ok true) :
    ∃ entry answer, (session.transform fork).1 = .ok () ∧ E.soleIncoming fork = .ok entry ∧
      ((requests.foldl serve (session.transform fork).2).setCapacities sink.val
        (allowed.toList.map Fin.val)).2.compute.1 = .ok answer ∧
      (E.source sink ≠ fork →
        (∃ walks, ForkNetwork.Disperse fork entry sink allowed walks ∧
          walks.length = answer.value) ∧
        ∀ walks, ForkNetwork.Disperse fork entry sink allowed walks →
          walks.length ≤ answer.value) ∧
      (E.source sink = fork →
        ((∃ W, E.IsWalk fork (W ++ [entry]) fork ∧
            ∀ e ∈ W ++ [entry], (e ∈ allowed ∨ e = entry) ∧ e ≠ sink) → answer.value = 2) ∧
        ((¬ ∃ W, E.IsWalk fork (W ++ [entry]) fork ∧
            ∀ e ∈ W ++ [entry], (e ∈ allowed ∨ e = entry) ∧ e ≠ sink) → answer.value = 1)) := by
  have valid := EdgeGraph.valid_of_validate accepted closed
  have splitting := NodeKind.isSplitting_of_isForking forking
  have enters := valid.target_entryOf splitting
  obtain ⟨turns, turned⟩ := turned_transform valid splitting session
  obtain ⟨answer, computed, value⟩ := ((turned.serve_all requests).setCapacities fresh).compute
  refine ⟨E.entryOf fork, answer, turns, valid.soleIncoming_eq splitting, computed, ?_, ?_⟩
  · intro other
    rw [value]
    exact ⟨ForkNetwork.exists_disperse enters allowed sink,
      fun walks disperse => disperse.length_le enters other⟩
  · intro leaves
    rw [value]
    exact ForkNetwork.maximize_branch enters (Abundance.source_entryOf_ne valid forking) leaves

/-- The two branches of the fork of `doubling`. -/
def doubled : Abundance.doublingEdges.Edges :=
  .ofList [⟨1, by decide⟩, ⟨2, by decide⟩]

/-- Although it has been asked for the first branch before, a session turned to the fork of
`doubling` finds both branches for the edge behind them. -/
theorem compute_doubling :
    let ready := [Request.setCapacities 1 [2], .compute].foldl serve
      ((start Abundance.doublingEdges).transform ⟨1, by decide⟩).2
    let asked := ready.setCapacities 3 (doubled.toList.map Fin.val)
    asked.1 = .ok true ∧ ∃ answer, asked.2.compute.1 = .ok answer ∧ 2 ≤ answer.value := by
  have accepted : Abundance.doubling.validate = .ok () := by decide +kernel
  have closed : EdgeGraph.ofGraph Abundance.doubling = .ok Abundance.doublingEdges := rfl
  have forking : (Abundance.doublingEdges.kindOf ⟨1, by decide⟩).isForking = true := by
    decide +kernel
  let sink : Fin Abundance.doublingEdges.size := ⟨3, by decide⟩
  have fresh : (([Request.setCapacities 1 [2], .compute].foldl serve
      ((start Abundance.doublingEdges).transform ⟨1, by decide⟩).2).setCapacities sink.val
        (doubled.toList.map Fin.val)).1 = .ok true := by decide +kernel
  obtain ⟨entry, answer, -, -, computed, elsewhere, -⟩ :=
    compute_counts_walks accepted closed forking (start Abundance.doublingEdges)
      [.setCapacities 1 [2], .compute] sink doubled fresh
  obtain ⟨-, most⟩ := elsewhere (by decide +kernel)
  refine ⟨fresh, answer, computed, most [[⟨1, by decide⟩], [⟨2, by decide⟩]] ?_⟩
  have allows : ∀ W ∈ ([[⟨1, by decide⟩], [⟨2, by decide⟩]] :
      List (List (Fin Abundance.doublingEdges.size))), ∀ e ∈ W, e ∈ doubled ∧ e ≠ sink := by
    decide +kernel
  refine ⟨by decide +kernel, fun W member e inside => ?_, List.pairwise_pair.2 (by simp)⟩
  exact (allows W member e inside).imp_left Or.inl

end NetworkSession
end WorkflowSoundness
