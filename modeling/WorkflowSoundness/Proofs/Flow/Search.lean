import Mathlib.Data.List.Perm.Subperm
import WorkflowSoundness.FlowNetwork

/-!
Breadth-first search for an augmenting path. Nodes are listed in the order in which the search
finds them, first those it has gone on from and then its queue (`Ordered`). Every node but the
source was found over a residual edge from a node listed before it, so following a search back
ends at the source. A search that finds no goal has gone on from all it found, so no residual
edge leads out of what it found (`run_spec`).
-/

namespace WorkflowSoundness.FlowNetwork

variable {net : FlowNetwork}

/-- The incidence lists hold the edges at each node. -/
structure Listed (net : FlowNetwork) : Prop where
  outgoing : ∀ (v : Fin net.order) e, e ∈ net.outgoing[v] ↔ net.ends[e].1 = v
  incoming : ∀ (v : Fin net.order) e, e ∈ net.incoming[v] ↔ net.ends[e].2 = v

theorem listed_ofEnds (order size : Nat) (ends : Table (Fin order × Fin order) size) :
    Listed (ofEnds order size ends) where
  outgoing v e := by
    rw [show (ofEnds order size ends).outgoing[v] = _ from getElem_listedBy _ v]
    exact List.mem_filter.trans ⟨fun member => beq_iff_eq.1 member.2, fun here =>
      ⟨List.mem_finRange _, beq_iff_eq.2 here⟩⟩
  incoming v e := by
    rw [show (ofEnds order size ends).incoming[v] = _ from getElem_listedBy _ v]
    exact List.mem_filter.trans ⟨fun member => beq_iff_eq.1 member.2, fun here =>
      ⟨List.mem_finRange _, beq_iff_eq.2 here⟩⟩

/-- An edge by which a search may go from `u` to `v`. -/
def Residual (capacity flow : BitSet net.size) (e : Fin net.size) (u v : Fin net.order) : Prop :=
  (net.ends[e] = (u, v) ∧ e ∈ capacity ∧ e ∉ flow) ∨ (net.ends[e] = (v, u) ∧ e ∈ flow)

theorem exists_arc_iff (listed : Listed net) {capacity flow : BitSet net.size} {e : Fin net.size}
    {u v : Fin net.order} :
    (∃ arc ∈ net.arcs capacity flow u, arc.edge = e ∧ arc.far = v ∧ arc.usable = true) ↔
      Residual capacity flow e u v := by
  simp only [arcs, List.mem_append, List.mem_map]
  constructor
  · rintro ⟨arc, ⟨d, listedOut, rfl⟩ | ⟨d, listedIn, rfl⟩, rfl, rfl, usable⟩
    · simp only [Bool.and_eq_true, Bool.not_eq_true', Bool.eq_false_iff, ne_eq,
        BitSet.contains_iff_mem] at usable
      exact Or.inl ⟨Prod.ext ((listed.outgoing u d).1 listedOut) rfl, usable⟩
    · exact Or.inr ⟨Prod.ext rfl ((listed.incoming u d).1 listedIn), usable⟩
  · rintro (⟨ends, room, free⟩ | ⟨ends, carries⟩)
    · refine ⟨_, Or.inl ⟨e, (listed.outgoing u e).2 (congrArg Prod.fst ends), rfl⟩, rfl,
        congrArg Prod.snd ends, ?_⟩
      simp only [Bool.and_eq_true, Bool.not_eq_true', Bool.eq_false_iff, ne_eq,
        BitSet.contains_iff_mem]
      exact ⟨room, free⟩
    · exact ⟨_, Or.inr ⟨e, (listed.incoming u e).2 (congrArg Prod.snd ends), rfl⟩, rfl,
        congrArg Prod.fst ends, carries⟩

namespace Search

variable {leads : Fin net.size → Fin net.order → Fin net.order → Prop} {source : Fin net.order}
  {search : Search net} {done : List (Fin net.order)}

/-- The state of a search that has gone on from the nodes in `done`. -/
structure Ordered (leads : Fin net.size → Fin net.order → Fin net.order → Prop)
    (source : Fin net.order) (done : List (Fin net.order)) (search : Search net) : Prop where
  once : (done ++ search.queue).Nodup
  found : ∀ v, v ∈ search.found ↔ v ∈ done ++ search.queue
  source_found : source ∈ search.found
  source_via : search.via[source] = none
  unseen : ∀ v, v ∉ search.found → search.via[v] = none
  back : ∀ before v after, done ++ search.queue = before ++ v :: after → v ≠ source →
    ∃ e, ∃ u ∈ before, search.via[v] = some e ∧ leads e u v

theorem ordered_from (source : Fin net.order) : Ordered leads source [] (.from source) where
  once := List.pairwise_singleton _ source
  found v := by
    simp only [Search.from, List.nil_append, List.mem_singleton, BitSet.mem_insert]
    exact ⟨fun member => member.resolve_right (BitSet.not_mem_empty v), Or.inl⟩
  source_found := BitSet.mem_insert.2 (Or.inl rfl)
  source_via := Table.getElem_replicate _ _
  unseen v _ := Table.getElem_replicate _ _
  back before v after split other := by
    have member : v ∈ [source] := by
      rw [show [source] = before ++ v :: after from split]
      exact List.mem_append_right _ List.mem_cons_self
    exact absurd (List.mem_singleton.1 member) other

/-- Taking in a new node keeps the order. -/
theorem Ordered.add (ordered : Ordered leads source done search) {u : Fin net.order}
    (went : u ∈ done) {arc : net.Arc} (step : leads arc.edge u arc.far)
    (fresh : arc.far ∉ search.found) : Ordered leads source done (search.add arc) := by
  have new : arc.far ∉ done ++ search.queue := fun member => fresh ((ordered.found _).2 member)
  have listed : done ++ (search.add arc).queue = (done ++ search.queue) ++ [arc.far] :=
    (List.append_assoc _ _ _).symm
  have kept : ∀ v, v ≠ arc.far → (search.add arc).via[v] = search.via[v] := fun v other =>
    Table.getElem_set_ne (Ne.symm other) _
  have sourceOld : source ≠ arc.far := fun same => fresh (same ▸ ordered.source_found)
  refine
    { once := ?_
      found := fun v => ?_
      source_found := BitSet.mem_insert.2 (Or.inr ordered.source_found)
      source_via := (kept source sourceOld).trans ordered.source_via
      unseen := fun v absent => ?_
      back := fun before v after split other => ?_ }
  · rw [listed]
    refine List.nodup_append.2 ⟨ordered.once, List.pairwise_singleton _ _, ?_⟩
    rintro v member w single rfl
    exact new (List.mem_singleton.1 single ▸ member)
  · rw [listed, List.mem_append, List.mem_singleton, ← ordered.found]
    exact BitSet.mem_insert.trans or_comm
  · obtain ⟨other, absent⟩ := not_or.1 fun member => absent (BitSet.mem_insert.2 member)
    exact (kept v other).trans (ordered.unseen v absent)
  · rw [listed] at split
    rcases List.eq_nil_or_concat after with rfl | ⟨initial, last, rfl⟩
    · obtain ⟨rfl, last⟩ := List.append_inj' split rfl
      have here : arc.far = v := List.head_eq_of_cons_eq last
      subst here
      exact ⟨arc.edge, u, List.mem_append_left _ went, Table.getElem_set_self _ _ _, step⟩
    · rw [List.concat_eq_append, ← List.cons_append, ← List.append_assoc] at split
      obtain ⟨old, -⟩ := List.append_inj' split rfl
      obtain ⟨e, w, earlier, via, leadsTo⟩ := ordered.back before v initial old other
      have member : v ∈ done ++ search.queue := by
        rw [old]
        exact List.mem_append_right _ List.mem_cons_self
      refine ⟨e, w, earlier, (kept v fun same => new (same ▸ member)).trans via, leadsTo⟩

/-- Going on from the first node of the queue keeps the order. -/
theorem Ordered.advance (ordered : Ordered leads source done search) {v : Fin net.order}
    {queue : List (Fin net.order)} (waiting : search.queue = v :: queue) :
    Ordered leads source (done ++ [v]) { search with queue } :=
  have listed : (done ++ [v]) ++ queue = done ++ search.queue := by
    rw [waiting, List.append_assoc, List.singleton_append]
  { once := listed ▸ ordered.once
    found := fun w => listed ▸ ordered.found w
    source_found := ordered.source_found
    source_via := ordered.source_via
    unseen := ordered.unseen
    back := fun before w after split => ordered.back before w after (listed.symm.trans split) }

theorem Ordered.length_le (ordered : Ordered leads source done search) :
    done.length + search.queue.length ≤ net.order := by
  have all : (done ++ search.queue).length ≤ (List.finRange net.order).length :=
    (List.subperm_of_subset ordered.once fun v _ => List.mem_finRange v).length_le
  rwa [List.length_finRange, List.length_append] at all

theorem Ordered.length_before_le (ordered : Ordered leads source done search)
    {before after : List (Fin net.order)} {v : Fin net.order}
    (split : done ++ search.queue = before ++ v :: after) : before.length ≤ net.order := by
  have all := ordered.length_le
  rw [← List.length_append, split, List.length_append] at all
  omega

/-- Looking at ways on from a node that the search has gone on from. -/
theorem scan_spec (isGoal : Fin net.order → Bool) {u : Fin net.order} (went : u ∈ done)
    (arcs : List net.Arc) (leadOn : ∀ arc ∈ arcs, arc.usable = true → leads arc.edge u arc.far)
    (ordered : Ordered leads source done search) :
    let (goal, scanned) := (scan isGoal arcs search).value
    Ordered leads source done scanned ∧ (∀ v ∈ search.found, v ∈ scanned.found) ∧
      (goal = true → ∃ v ∈ scanned.found, isGoal v = true) ∧
      (goal = false → (∀ arc ∈ arcs, arc.usable = true → arc.far ∈ scanned.found) ∧
        ∀ v ∈ scanned.found, v ∉ search.found → isGoal v = false) := by
  induction arcs generalizing search with
  | nil =>
    refine ⟨ordered, fun v member => member, fun none => (nomatch none), fun _ => ⟨?_, ?_⟩⟩
    · exact fun arc member => absurd member List.not_mem_nil
    · exact fun v member absent => absurd member absent
  | cons arc later ih =>
    simp only [scan, Counted.value_bind]
    split
    · rename_i takes
      simp only [Bool.and_eq_true, Bool.not_eq_true', Bool.eq_false_iff, ne_eq,
        BitSet.contains_iff_mem] at takes
      have added := ordered.add went (leadOn arc List.mem_cons_self takes.1) takes.2
      have grows : ∀ v ∈ search.found, v ∈ (search.add arc).found := fun v member =>
        BitSet.mem_insert.2 (Or.inr member)
      have taken : arc.far ∈ (search.add arc).found := BitSet.mem_insert.2 (Or.inl rfl)
      split
      · rename_i reached
        exact ⟨added, grows, fun _ => ⟨arc.far, taken, reached⟩, fun none => nomatch none⟩
      · rename_i missed
        obtain ⟨final, keeps, hit, closed⟩ :=
          ih (fun other member => leadOn other (List.mem_cons_of_mem _ member)) added
        refine ⟨final, fun v member => keeps v (grows v member), hit, fun none => ?_⟩
        obtain ⟨all, misses⟩ := closed none
        refine ⟨fun other member usable => ?_, fun v member absent => ?_⟩
        · rcases List.mem_cons.1 member with rfl | member
          · exact keeps _ taken
          · exact all other member usable
        · by_cases here : v = arc.far
          · exact here ▸ Bool.eq_false_iff.2 missed
          · exact misses v member fun old =>
              (BitSet.mem_insert.1 old).elim here absent
    · rename_i leaves
      obtain ⟨final, keeps, hit, closed⟩ :=
        ih (fun other member => leadOn other (List.mem_cons_of_mem _ member)) ordered
      refine ⟨final, keeps, hit, fun none => ⟨fun other member usable => ?_, (closed none).2⟩⟩
      rcases List.mem_cons.1 member with rfl | member
      · simp only [usable, Bool.true_and, Bool.not_eq_true', Bool.eq_false_iff, ne_eq,
          Decidable.not_not, BitSet.contains_iff_mem] at leaves
        exact keeps _ leaves
      · exact (closed none).1 other member usable

/-- A search finds a goal, or it finds a set that no usable arc leads out of. -/
theorem run_spec {arcs : Fin net.order → List net.Arc} (isGoal : Fin net.order → Bool)
    (leadOn : ∀ u, ∀ arc ∈ arcs u, arc.usable = true → leads arc.edge u arc.far) {fuel : Nat}
    (enough : net.order ≤ fuel + done.length) (ordered : Ordered leads source done search)
    (closed : ∀ u ∈ done, ∀ arc ∈ arcs u, arc.usable = true → arc.far ∈ search.found)
    (missed : ∀ v ∈ search.found, v ≠ source → isGoal v = false) :
    let final := (run arcs isGoal fuel search).value
    ∃ done, Ordered leads source done final ∧
      ((∃ v ∈ final.found, isGoal v = true) ∨
        (∀ u ∈ final.found, ∀ arc ∈ arcs u, arc.usable = true → arc.far ∈ final.found) ∧
          ∀ v ∈ final.found, v ≠ source → isGoal v = false) := by
  -- Without a queue the search has gone on from all that it has found.
  have settled : search.queue = [] → ∀ u ∈ search.found, u ∈ done := fun empty u member => by
    have listed := (ordered.found u).1 member
    rwa [empty, List.append_nil] at listed
  induction fuel generalizing search done with
  | zero =>
    have all := ordered.length_le
    have empty : search.queue = [] := List.length_eq_zero_iff.1 (by omega)
    exact ⟨done, ordered, Or.inr ⟨fun u member => closed u (settled empty u member), missed⟩⟩
  | succ fuel ih =>
    simp only [run]
    split
    · rename_i empty
      exact ⟨done, ordered, Or.inr ⟨fun u member => closed u (settled empty u member), missed⟩⟩
    · rename_i v queue waiting
      have moved := ordered.advance waiting
      have went : v ∈ done ++ [v] := List.mem_append_right _ (List.mem_singleton_self v)
      have scanned := scan_spec isGoal went (arcs v) (leadOn v) moved
      simp only [Counted.value_bind]
      revert scanned
      generalize (scan isGoal (arcs v) { search with queue }).value = outcome
      obtain ⟨goal, final⟩ := outcome
      rintro ⟨order, keeps, hit, closes⟩
      cases goal with
      | true => exact ⟨_, order, Or.inl (hit rfl)⟩
      | false =>
        obtain ⟨all, misses⟩ := closes rfl
        refine ih ?_ order (fun u member arc listedArc usable => ?_)
          (fun w member other => ?_) fun empty u member => ?_
        · rw [List.length_append, List.length_singleton]
          omega
        · rcases List.mem_append.1 member with old | here
          · exact keeps _ (closed u old arc listedArc usable)
          · exact all arc (List.mem_singleton.1 here ▸ listedArc) usable
        · by_cases old : w ∈ search.found
          · exact missed w old other
          · exact misses w member old
        · have within := (order.found u).1 member
          rwa [empty, List.append_nil] at within

end Search

/-- A search over the residual edges finds the goal, or a set that no such edge leads out of. -/
theorem search_spec (listed : Listed net) (capacity flow : BitSet net.size)
    (source goal : Fin net.order) :
    let final := (Search.run (net.arcs capacity flow) (· == goal) net.order (.from source)).value
    ∃ done, Search.Ordered (Residual capacity flow) source done final ∧
      (goal ∈ final.found ∨
        (∀ e u v, Residual capacity flow e u v → u ∈ final.found → v ∈ final.found) ∧
          (goal ∈ final.found → goal = source)) := by
  have leadOn : ∀ u, ∀ arc ∈ net.arcs capacity flow u, arc.usable = true →
      Residual capacity flow arc.edge u arc.far := fun u arc member usable =>
    (exists_arc_iff listed).1 ⟨arc, member, rfl, rfl, usable⟩
  obtain ⟨done, ordered, outcome⟩ := Search.run_spec (· == goal) leadOn
    (Nat.le_refl net.order) (Search.ordered_from source)
    (fun u member => absurd member List.not_mem_nil)
    fun v member other => absurd (BitSet.mem_insert.1 member) fun found =>
      found.elim other (BitSet.not_mem_empty v)
  refine ⟨done, ordered, outcome.imp ?_ ?_⟩
  · rintro ⟨v, member, isGoal⟩
    exact beq_iff_eq.1 isGoal ▸ member
  · rintro ⟨closed, misses⟩
    refine ⟨fun e u v residual inside => ?_, fun member => ?_⟩
    · obtain ⟨arc, listedArc, -, rfl, usable⟩ := (exists_arc_iff listed).2 residual
      exact closed u inside arc listedArc usable
    · refine Classical.byContradiction fun other => ?_
      exact Bool.false_ne_true ((misses goal member other).symm.trans (beq_self_eq_true goal))

end WorkflowSoundness.FlowNetwork
