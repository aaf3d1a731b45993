import WorkflowSoundness.Abundance.Basic
import WorkflowSoundness.Proofs.Flow.Maximum

/-!
Cuts of the network around a fork, told on the workflow: which nodes, which branches and whether
the twin lie on the side of the fork. The size of a cut is counted over the edges of the workflow
and twice over the branches, so the answer of `Abundance.maximize` is a smallest such size
(`maximize_le_size`, `exists_size_eq_maximize`).
-/

namespace WorkflowSoundness.ForkNetwork

variable {E : EdgeGraph} {fork : Fin E.order} {entry sink : Fin E.size} {room : E.Edges}

/-- What lies on the side of the fork. -/
structure Cut (E : EdgeGraph) where
  nodes : Fin E.order → Bool
  twin : Bool
  branches : Fin E.size → Bool

namespace Cut

/-- Whether an edge starts on the side of the fork. -/
def starts (fork : Fin E.order) (cut : Cut E) (e : Fin E.size) : Bool :=
  if E.source e = fork then cut.branches e else cut.nodes (E.source e)

/-- Whether an edge stops on the side of the fork. -/
def stops (entry : Fin E.size) (cut : Cut E) (e : Fin E.size) : Bool :=
  if entry = e then cut.twin else cut.nodes (E.target e)

/-- The edges with room that lead out of the side of the fork, virtual ones included. -/
def size (fork : Fin E.order) (room : E.Edges) (sink entry : Fin E.size) (cut : Cut E) : Nat :=
  ((List.finRange E.size).countP fun e =>
    (e == entry || (room.contains e && e != sink)) && (cut.starts fork e && !cut.stops entry e)) +
  ((ForkNetwork.branches E fork).countP (fun b => cut.nodes fork && !cut.branches b) +
    (ForkNetwork.branches E fork).countP fun b => cut.twin && !cut.branches b)

end Cut

theorem mem_branches {b : Fin E.size} : b ∈ branches E fork ↔ E.source b = fork := by
  rw [branches, BitSet.mem_toList, E.mem_leaving]

theorem nodup_branches : (branches E fork).Nodup :=
  BitSet.nodup_toList _

/-- A branch starts at its own node, which the virtual edges lead to. -/
theorem startOf_branch (fork : Fin E.order) (k : Fin (branches E fork).length) :
    startOf E fork (branches E fork)[k] = branchNode E fork k := by
  have leaves : E.source (branches E fork)[k] = fork :=
    mem_branches.1 (List.getElem_mem k.isLt)
  have index : (branches E fork).finIdxOf? (branches E fork)[k] = some k := by
    rw [List.finIdxOf?_eq_some_iff]
    refine ⟨rfl, fun j lower same => ?_⟩
    exact List.pairwise_iff_getElem.1 nodup_branches j k (Nat.lt_trans lower k.isLt) k.isLt lower
      same
  rw [startOf, if_pos leaves, index]

/-- An edge that is no branch starts where it does in the workflow. -/
theorem startOf_other {e : Fin E.size} (other : E.source e ≠ fork) :
    startOf E fork e = place E fork (E.source e) :=
  if_neg other

/-! ### Counting over the edges of the network -/

/-- An edge of the network: whether it has room, and its ends. -/
abbrev Entry (E : EdgeGraph) (fork : Fin E.order) : Type :=
  Bool × Fin (order E fork) × Fin (order E fork)

/-- The edges of the network in the order of their numbers. -/
def entries (E : EdgeGraph) (fork : Fin E.order) (room : E.Edges) (sink entry : Fin E.size) :
    List (Entry E fork) :=
  (List.finRange E.size).map (fun e =>
    (e == entry || (room.contains e && e != sink), startOf E fork e,
      stopOf E fork (some entry) e)) ++
  (List.finRange (branches E fork).length).flatMap fun k =>
    [(true, place E fork fork, branchNode E fork k), (true, twin E fork, branchNode E fork k)]

/-- The entries stand in the order in which the network numbers its edges. -/
theorem map_snd_entries (room : E.Edges) (sink entry : Fin E.size) :
    (entries E fork room sink entry).map Prod.snd = endsList E fork (some entry) := by
  simp only [entries, endsList, List.map_append, List.map_map, List.map_flatMap, List.map_cons,
    List.map_nil]
  rfl

/-- An entry has room if and only if the capacity has its edge. -/
theorem entries_room {i : Nat} (inside : i < (entries E fork room sink entry).length)
    (short : i < (network E fork (some entry)).size) :
    ((entries E fork room sink entry)[i]).1 =
      (capacity E (network E fork (some entry)).size room sink entry).contains ⟨i, short⟩ := by
  rw [Bool.eq_iff_iff, BitSet.contains_iff_mem, capacity, BitSet.mem_ofFn]
  by_cases real : i < E.size
  · have first : i < ((List.finRange E.size).map fun e =>
        (e == entry || (room.contains e && e != sink), startOf E fork e,
          stopOf E fork (some entry) e)).length := by
      simpa using real
    simp only [entries, List.getElem_append_left first, List.getElem_map, List.getElem_finRange,
      dif_pos real]
    rfl
  · simp only [dif_neg real, iff_true]
    have later : ∀ x ∈ (List.finRange (branches E fork).length).flatMap (fun k =>
        [((true, place E fork fork, branchNode E fork k) : Entry E fork),
          (true, twin E fork, branchNode E fork k)]), x.1 = true := by
      intro x member
      obtain ⟨k, -, pair⟩ := List.mem_flatMap.1 member
      rcases List.mem_cons.1 pair with rfl | pair
      · rfl
      · rw [List.mem_singleton.1 pair]
    have behind : ((List.finRange E.size).map fun e =>
        ((e == entry || (room.contains e && e != sink), startOf E fork e,
          stopOf E fork (some entry) e) : Entry E fork)).length ≤ i := by
      simpa using real
    refine later _ ?_
    simp only [entries, List.getElem_append_right behind]
    exact List.getElem_mem _

theorem map_finRange_entries :
    (List.finRange (network E fork (some entry)).size).map (fun e =>
      (((capacity E (network E fork (some entry)).size room sink entry).contains e,
        (network E fork (some entry)).ends[e]) : Entry E fork)) =
      entries E fork room sink entry := by
  have lengths : (entries E fork room sink entry).length =
      (endsList E fork (some entry)).length := by
    rw [← map_snd_entries room sink entry, List.length_map]
  refine List.ext_getElem ?_ fun i short inside => ?_
  · rw [List.length_map, List.length_finRange]
    exact lengths.symm
  have here : i < (network E fork (some entry)).size := by simpa using short
  have listed : i < (endsList E fork (some entry)).length := here
  have ends : (endsList E fork (some entry))[i] = ((entries E fork room sink entry)[i]).2 := by
    simp only [← map_snd_entries room sink entry, List.getElem_map]
  rw [List.getElem_map, List.getElem_finRange]
  exact Prod.ext (entries_room inside here).symm ends

/-- Of pairs made from a list, each side can be counted alone. -/
theorem countP_pairs {α β : Type} (p : β → Bool) (x y : α → β) (l : List α) :
    (l.flatMap fun a => [x a, y a]).countP p =
      l.countP (fun a => p (x a)) + l.countP fun a => p (y a) := by
  induction l with
  | nil => rfl
  | cons a l ih =>
    rw [List.flatMap_cons, List.countP_append, ih]
    simp only [List.countP_cons, List.countP_nil]
    omega

theorem countP_positions {α : Type} (l : List α) (p : α → Bool) :
    (List.finRange l.length).countP (fun k => p (l.get k)) = l.countP p := by
  have entries : (List.finRange l.length).map l.get = l :=
    List.ext_getElem (by simp) fun i _ _ => by simp
  conv_rhs => rw [← entries]
  rw [List.countP_map]
  rfl

/-- The cut of the workflow that a cut of the network gives. -/
def cutOf (S : Fin (order E fork) → Bool) : Cut E where
  nodes v := S (place E fork v)
  twin := S (twin E fork)
  branches e := S (startOf E fork e)

/-- What crosses a set of network nodes is what the cut of the workflow says. -/
theorem crossing_eq_size (S : Fin (order E fork) → Bool) :
    @FlowNetwork.crossing (network E fork (some entry))
      (capacity E (network E fork (some entry)).size room sink entry) S =
      (cutOf S).size fork room sink entry := by
  have counted : @FlowNetwork.crossing (network E fork (some entry))
      (capacity E (network E fork (some entry)).size room sink entry) S =
      (entries E fork room sink entry).countP fun x => x.1 && (S x.2.1 && !S x.2.2) := by
    rw [← map_finRange_entries, List.countP_map]
    rfl
  have start : ∀ e, (cutOf S).starts fork e = S (startOf E fork e) := fun e => by
    unfold Cut.starts
    split
    · rfl
    · rename_i other
      rw [startOf_other other]
      rfl
  have stop : ∀ e, (cutOf S).stops entry e = S (stopOf E fork (some entry) e) := fun e => by
    unfold Cut.stops stopOf
    by_cases here : entry = e
    · rw [if_pos here, if_pos (congrArg some here)]
      rfl
    · rw [if_neg here, if_neg fun same => here (Option.some.inj same)]
      rfl
  rw [counted, entries, List.countP_append, List.countP_map, countP_pairs, Cut.size,
    ← countP_positions (branches E fork), ← countP_positions (branches E fork)]
  simp only [start, stop, Function.comp_def, Bool.true_and]
  simp only [cutOf, List.get_eq_getElem, ← Fin.getElem_fin, startOf_branch]

/-- The cut of the network that a cut of the workflow gives. -/
def networkCut (fork : Fin E.order) (cut : Cut E) (x : Fin (order E fork)) : Bool :=
  if inside : x.val < E.order then
    cut.nodes ⟨x, inside⟩
  else if branch : x.val - (E.order + 1) < (branches E fork).length then
    if x.val = E.order then cut.twin else cut.branches (branches E fork)[x.val - (E.order + 1)]
  else
    cut.twin

theorem networkCut_place (cut : Cut E) (v : Fin E.order) :
    networkCut fork cut (place E fork v) = cut.nodes v := by
  unfold networkCut place
  rw [dif_pos v.isLt]

theorem networkCut_twin (cut : Cut E) : networkCut fork cut (twin E fork) = cut.twin := by
  unfold networkCut twin
  rw [dif_neg (Nat.lt_irrefl _)]
  simp

theorem networkCut_startOf_branch (cut : Cut E) {b : Fin E.size} (leaves : E.source b = fork) :
    networkCut fork cut (startOf E fork b) = cut.branches b := by
  obtain ⟨k, inside, rfl⟩ := List.getElem_of_mem (mem_branches.2 leaves)
  have place := startOf_branch fork ⟨k, inside⟩
  rw [Fin.getElem_fin] at place
  rw [place]
  unfold networkCut branchNode
  have behind : ¬ E.order + 1 + k < E.order := by omega
  have index : E.order + 1 + k - (E.order + 1) = k := by omega
  have other : ¬ E.order + 1 + k = E.order := by omega
  simp only [dif_neg behind, index, dif_pos inside, if_neg other]

/-- Carried over to the network and back, a cut keeps its size. -/
theorem size_cutOf_networkCut (cut : Cut E) :
    (cutOf (networkCut fork cut)).size fork room sink entry = cut.size fork room sink entry := by
  have nodes : (cutOf (networkCut fork cut)).nodes = cut.nodes :=
    funext fun v => networkCut_place cut v
  have twin : (cutOf (networkCut fork cut)).twin = cut.twin := networkCut_twin cut
  have branch : ∀ b, E.source b = fork →
      (cutOf (networkCut fork cut)).branches b = cut.branches b :=
    fun b leaves => networkCut_startOf_branch cut leaves
  have start : ∀ e, (cutOf (networkCut fork cut)).starts fork e = cut.starts fork e := fun e => by
    unfold Cut.starts
    split
    · rename_i leaves
      exact branch e leaves
    · rw [nodes]
  have stop : ∀ e, (cutOf (networkCut fork cut)).stops entry e = cut.stops entry e := fun e => by
    unfold Cut.stops
    rw [nodes, twin]
  unfold Cut.size
  simp only [start, stop, nodes, twin]
  have same : ∀ side : Bool, (branches E fork).countP
      (fun b => side && !(cutOf (networkCut fork cut)).branches b) =
      (branches E fork).countP fun b => side && !cut.branches b := fun side =>
    List.countP_congr fun b member => by rw [branch b (mem_branches.1 member)]
  rw [same, same]

/-! ### The answer of the network -/

theorem listed_network (fork : Fin E.order) (entry : Fin E.size) :
    FlowNetwork.Listed (network E fork (some entry)) :=
  FlowNetwork.listed_ofEnds _ _ _

theorem value_maximize :
    (Abundance.maximize fork entry room sink).value.1 =
      (@FlowNetwork.maximize (network E fork (some entry))
        (capacity E (network E fork (some entry)).size room sink entry) ∅
        (place E fork fork) (startOf E fork sink)).value.value :=
  rfl

/-- The sink is behind the fork, also if the fork is its source. -/
theorem place_ne_startOf (sink : Fin E.size) : place E fork fork ≠ startOf E fork sink := by
  intro same
  by_cases leaves : E.source sink = fork
  · obtain ⟨k, inside, rfl⟩ := List.getElem_of_mem (mem_branches.2 leaves)
    have node := startOf_branch fork ⟨k, inside⟩
    rw [Fin.getElem_fin] at node
    rw [node] at same
    have values := congrArg Fin.val same
    simp only [place, branchNode] at values
    have bound := fork.isLt
    omega
  · rw [startOf_other leaves] at same
    exact leaves (Fin.ext (Fin.mk.inj same)).symm

/-- Weak duality in the workflow: no cut is smaller than the flow. -/
theorem maximize_le_size {cut : Cut E} (start : cut.nodes fork = true)
    (stop : cut.starts fork sink = false) :
    (Abundance.maximize fork entry room sink).value.1 ≤ cut.size fork room sink entry := by
  rw [value_maximize, ← size_cutOf_networkCut, ← crossing_eq_size]
  refine FlowNetwork.maximize_le_cut (listed_network fork entry) ?_ ?_
  · exact (networkCut_place cut fork).trans start
  · unfold Cut.starts at stop
    split at stop
    · rename_i leaves
      exact (networkCut_startOf_branch cut leaves).trans stop
    · rename_i other
      rw [startOf_other other]
      exact (networkCut_place cut _).trans stop

/-- The flow ends at a cut of its own size. -/
theorem exists_size_eq_maximize (fork : Fin E.order) (entry : Fin E.size) (room : E.Edges)
    (sink : Fin E.size) :
    ∃ cut : Cut E, cut.nodes fork = true ∧ cut.starts fork sink = false ∧
      (Abundance.maximize fork entry room sink).value.1 = cut.size fork room sink entry := by
  obtain ⟨S, start, stop, value⟩ := FlowNetwork.exists_cut_eq_maximize
    (listed_network fork entry) (place_ne_startOf sink)
    (capacity E (network E fork (some entry)).size room sink entry)
  refine ⟨cutOf S, start, ?_, ?_⟩
  · unfold Cut.starts
    split
    · exact stop
    · rename_i other
      rw [startOf_other other] at stop
      exact stop
  · exact value_maximize.trans (value.trans (crossing_eq_size S))

/-! ### Where only one path arrives -/

theorem countP_le_one {α : Type} {l : List α} (once : l.Nodup) {p : α → Bool} {a : α}
    (only : ∀ x ∈ l, p x = true → x = a) : l.countP p ≤ 1 := by
  rw [List.countP_eq_length_filter]
  have within : (l.filter p).Subperm [a] := by
    refine List.subperm_of_subset (once.filter p) fun x member => ?_
    obtain ⟨inside, holds⟩ := List.mem_filter.1 member
    exact List.mem_singleton.2 (only x inside holds)
  exact within.length_le

/-- At a branch only the path over the fork itself arrives, if nothing leads back to the entry. -/
theorem maximize_branch_le (leaves : E.source sink = fork) (apart : E.source entry ≠ fork)
    (away : ∀ d ∈ room, E.target d ≠ E.source entry) :
    (Abundance.maximize fork entry room sink).value.1 ≤ 1 := by
  classical
  let cut : Cut E :=
    { nodes := fun v => decide (v = fork ∨ ∃ d ∈ room, E.target d = v)
      twin := false
      branches := fun b => b != sink }
  have start : cut.nodes fork = true := decide_eq_true (Or.inl rfl)
  have stop : cut.starts fork sink = false := by
    rw [Cut.starts, if_pos leaves]
    exact bne_self_eq_false sink
  have behind : cut.starts fork entry = false := by
    rw [Cut.starts, if_neg apart]
    exact decide_eq_false fun either =>
      either.elim apart fun ⟨d, member, same⟩ => away d member same
  have none : ((List.finRange E.size).countP fun e =>
      (e == entry || (room.contains e && e != sink)) &&
        (cut.starts fork e && !cut.stops entry e)) = 0 := by
    refine List.countP_eq_zero.2 fun e _ crosses => ?_
    rw [Bool.and_eq_true, Bool.and_eq_true] at crosses
    obtain ⟨usable, starts, stops⟩ := crosses
    by_cases here : e = entry
    · rw [here, behind] at starts
      cases starts
    · have inRoom : e ∈ room := by
        rw [beq_false_of_ne here, Bool.false_or, Bool.and_eq_true] at usable
        exact BitSet.contains_iff_mem.1 usable.1
      have inside : cut.stops entry e = true := by
        rw [Cut.stops, if_neg (Ne.symm here)]
        exact decide_eq_true (Or.inr ⟨e, inRoom, rfl⟩)
      rw [inside] at stops
      cases stops
  have twin : ((branches E fork).countP fun b => cut.twin && !cut.branches b) = 0 :=
    List.countP_eq_zero.2 fun b _ => Bool.false_ne_true
  refine Nat.le_trans (maximize_le_size start stop) ?_
  rw [Cut.size, none, twin, Nat.zero_add, Nat.add_zero]
  refine countP_le_one (a := sink) nodup_branches fun b _ out => ?_
  rw [Bool.and_eq_true, Bool.not_eq_true'] at out
  exact Classical.byContradiction fun other =>
    absurd out.2 (ne_true_of_eq_false · (bne_iff_ne.2 other))

/-- At a node that one edge enters only one path arrives, unless it is the fork. -/
theorem maximize_sole_le (other : fork ≠ E.source sink) {d : Fin E.size}
    (sole : ∀ x, E.target x = E.source sink → x = d) :
    (Abundance.maximize fork entry room sink).value.1 ≤ 1 := by
  let cut : Cut E :=
    { nodes := fun v => v != E.source sink
      twin := true
      branches := fun _ => true }
  have start : cut.nodes fork = true := bne_iff_ne.2 other
  have stop : cut.starts fork sink = false := by
    rw [Cut.starts, if_neg (Ne.symm other)]
    exact bne_self_eq_false _
  have direct : ((branches E fork).countP fun b => cut.nodes fork && !cut.branches b) = 0 :=
    List.countP_eq_zero.2 fun b _ out => by
      rw [Bool.and_eq_true] at out
      cases out.2
  have again : ((branches E fork).countP fun b => cut.twin && !cut.branches b) = 0 :=
    List.countP_eq_zero.2 fun b _ => Bool.false_ne_true
  refine Nat.le_trans (maximize_le_size start stop) ?_
  rw [Cut.size, direct, again, Nat.add_zero]
  refine countP_le_one (a := d) (List.nodup_finRange _) fun e _ crosses => sole e ?_
  rw [Bool.and_eq_true, Bool.and_eq_true, Bool.not_eq_true'] at crosses
  have stops := crosses.2.2
  rw [Cut.stops] at stops
  split at stops
  · cases stops
  · exact Classical.byContradiction fun free =>
      absurd stops (ne_of_eq_of_ne (bne_iff_ne.2 free) (Bool.noConfusion ·))

end WorkflowSoundness.ForkNetwork
