import WorkflowSoundness.Proofs.Flow.Search

/-!
Following a search back. The edges by which a search came to a node, from the last one to the
source, are its way back (`Traced`). Every node that has been found has one (`exists_traced`) and no
other (`Traced.unique`), and no edge is on it twice (`Traced.nodup`). To follow the search is to
collect the edges of the way back and turn them over (`Traced.follow`): those without flow get
some, those with flow lose it.
-/

namespace WorkflowSoundness.FlowNetwork

variable {net : FlowNetwork} {capacity flow : BitSet net.size} {source sink : Fin net.order}

/-- One of the ends of an edge. -/
def Touches (net : FlowNetwork) (e : Fin net.size) (x : Fin net.order) : Prop :=
  net.ends[e].1 = x ∨ net.ends[e].2 = x

theorem Residual.touches_iff {e : Fin net.size} {u v x : Fin net.order}
    (residual : Residual capacity flow e u v) : net.Touches e x ↔ x = u ∨ x = v := by
  unfold Touches
  cases residual with
  | inl forwards =>
    rw [forwards.1]
    simp only [eq_comm]
  | inr backwards =>
    rw [backwards.1]
    simp only [eq_comm, or_comm]

/-- The edges by which a search came to a node, from the last one back to the source. -/
inductive Traced (via : Table (Option (Fin net.size)) net.order) (capacity flow : BitSet net.size)
    (source : Fin net.order) : Fin net.order → List (Fin net.size) → Prop where
  | root (top : via[source] = none) : Traced via capacity flow source source []
  | back {u v : Fin net.order} {e : Fin net.size} {W : List (Fin net.size)}
      (foundBy : via[v] = some e) (residual : Residual capacity flow e u v) (apart : u ≠ v)
      (rest : Traced via capacity flow source u W) : Traced via capacity flow source v (e :: W)

/-- Each node that a search found can be followed back. -/
theorem exists_traced {search : Search net} {done : List (Fin net.order)}
    (ordered : Search.Ordered (Residual capacity flow) source done search)
    {before after : List (Fin net.order)} {v : Fin net.order}
    (split : done ++ search.queue = before ++ v :: after) :
    ∃ W, Traced search.via capacity flow source v W ∧ W.length ≤ before.length := by
  induction size : before.length using Nat.strongRecOn generalizing before after v with
  | ind n ih =>
    by_cases top : v = source
    · subst top
      exact ⟨[], .root ordered.source_via, Nat.zero_le _⟩
    · obtain ⟨e, u, earlier, foundBy, residual⟩ := ordered.back before v after split top
      have apart : u ≠ v := by
        have once := ordered.once
        rw [split] at once
        exact fun same => (List.nodup_append.1 once).2.2 u earlier v List.mem_cons_self same
      obtain ⟨front, between, rfl⟩ := List.append_of_mem earlier
      rw [List.length_append, List.length_cons] at size
      rw [List.append_assoc, List.cons_append] at split
      obtain ⟨W, rest, short⟩ := ih front.length (by omega) split rfl
      refine ⟨e :: W, .back foundBy residual apart rest, ?_⟩
      rw [List.length_cons]
      omega

namespace Traced

variable {via : Table (Option (Fin net.size)) net.order} {v : Fin net.order}
  {W : List (Fin net.size)}

theorem stops {route : Route net} (top : via[route.origin] = none) (rounds : Nat) :
    trace via rounds route = route := by
  cases rounds with
  | zero => rfl
  | succ rounds => simp only [trace, top]

/-- One step back turns over the edge by which the node was found. -/
theorem step {route : Route net} {e : Fin net.size} {u : Fin net.order}
    (foundBy : via[route.origin] = some e) (residual : Residual capacity flow e u route.origin)
    (apart : u ≠ route.origin) :
    ∃ next : Route net, next.origin = u ∧ next.path = route.path.insert e ∧
      (∀ d, d ∈ next.flow ↔ if d = e then d ∉ flow else d ∈ route.flow) ∧
      ∀ rounds, trace via (rounds + 1) route = trace via rounds next := by
  simp only [trace, foundBy]
  cases residual with
  | inl forwards =>
    obtain ⟨ends, -, free⟩ := forwards
    have target : net.ends[e].2 = route.origin := congrArg Prod.snd ends
    refine ⟨⟨net.ends[e].1, route.path.insert e, route.flow.insert e⟩, congrArg Prod.fst ends, rfl,
      fun d => ?_, fun rounds => if_pos target⟩
    split
    · rename_i here
      exact iff_of_true (BitSet.mem_insert.2 (Or.inl here)) (here ▸ free)
    · rename_i other
      exact BitSet.mem_insert.trans (or_iff_right other)
  | inr backwards =>
    obtain ⟨ends, carries⟩ := backwards
    have target : net.ends[e].2 = u := congrArg Prod.snd ends
    refine ⟨⟨net.ends[e].2, route.path.insert e, route.flow.erase e⟩, target, rfl, fun d => ?_,
      fun rounds => if_neg fun same => apart (target.symm.trans same)⟩
    split
    · rename_i here
      exact iff_of_false (fun member => (BitSet.mem_erase.1 member).1 here) fun free =>
        free (here ▸ carries)
    · rename_i other
      exact BitSet.mem_erase.trans (and_iff_right other)

/-- Following a search back collects the edges and turns them over. -/
theorem follow (traced : Traced via capacity flow source v W) {route : Route net}
    (here : route.origin = v) {fuel : Nat} (enough : W.length ≤ fuel) :
    (trace via fuel route).origin = source ∧
      (∀ d, d ∈ (trace via fuel route).path ↔ d ∈ W ∨ d ∈ route.path) ∧
      (∀ d ∈ W, d ∈ (trace via fuel route).flow ↔ d ∉ flow) ∧
      ∀ d, d ∉ W → (d ∈ (trace via fuel route).flow ↔ d ∈ route.flow) := by
  induction traced generalizing route fuel with
  | root top =>
    rw [stops (here ▸ top)]
    refine ⟨here, fun d => ?_, fun d member => ?_, fun d _ => Iff.rfl⟩
    · simp
    · cases member
  | @back u v e W foundBy residual apart rest ih =>
    subst here
    obtain ⟨next, origin, path, turned, go⟩ := step foundBy residual apart
    cases fuel with
    | zero => exact absurd enough (Nat.not_succ_le_zero _)
    | succ fuel =>
      obtain ⟨source, paths, turns, keeps⟩ := ih origin (Nat.le_of_succ_le_succ enough)
      rw [go]
      refine ⟨source, fun d => ?_, fun d member => ?_, fun d absent => ?_⟩
      · rw [paths, path, BitSet.mem_insert, List.mem_cons]
        exact or_left_comm.trans or_assoc.symm
      · by_cases later : d ∈ W
        · exact turns d later
        · rw [keeps d later, turned, if_pos ((List.mem_cons.1 member).resolve_right later)]
      · obtain ⟨other, notLater⟩ := not_or.1 (mt List.mem_cons.2 absent)
        rw [keeps d notLater, turned, if_neg other]

/-- There is one way back from each node. -/
theorem unique (traced : Traced via capacity flow source v W) {V : List (Fin net.size)}
    (other : Traced via capacity flow source v V) : W = V := by
  induction traced generalizing V with
  | root top =>
    cases other with
    | root => rfl
    | back foundBy =>
      rw [top] at foundBy
      cases foundBy
  | @back u v e W foundBy residual apart rest ih =>
    cases other with
    | root top =>
      rw [top] at foundBy
      cases foundBy
    | @back w _ d V again residual' apart' rest' =>
      cases Option.some.inj (foundBy.symm.trans again)
      have touches : net.Touches e w := residual'.touches_iff.2 (Or.inl rfl)
      obtain rfl : w = u := (residual.touches_iff.1 touches).resolve_right apart'
      rw [ih rest']

/-- Every edge of a way back led to some node, from where the rest of it goes on. -/
theorem exists_back (traced : Traced via capacity flow source v W) {e : Fin net.size}
    (member : e ∈ W) : ∃ x y V, via[x] = some e ∧ Residual capacity flow e y x ∧ y ≠ x ∧
      Traced via capacity flow source y V ∧ V.length < W.length := by
  induction traced with
  | root => cases member
  | @back u v last W foundBy residual apart rest ih =>
    rcases List.mem_cons.1 member with rfl | member
    · exact ⟨v, u, W, foundBy, residual, apart, rest, Nat.lt_succ_self _⟩
    · obtain ⟨x, y, V, found, residual', apart', back, shorter⟩ := ih member
      exact ⟨x, y, V, found, residual', apart', back, Nat.lt_succ_of_lt shorter⟩

/-- No edge is on a way back twice, or else the way back would be a part of itself. -/
theorem nodup (traced : Traced via capacity flow source v W) : W.Nodup := by
  induction traced with
  | root => exact List.nodup_nil
  | @back u v e W foundBy residual apart rest ih =>
    refine List.nodup_cons.2 ⟨fun again => ?_, ih⟩
    obtain ⟨x, y, V, found, residual', apart', back, shorter⟩ := rest.exists_back again
    have whole : ∀ {U}, Traced via capacity flow source v U → U.length = W.length + 1 :=
      fun other => congrArg List.length (other.unique (.back foundBy residual apart rest))
    have endX : net.Touches e x := residual'.touches_iff.2 (Or.inr rfl)
    have endY : net.Touches e y := residual'.touches_iff.2 (Or.inl rfl)
    rcases residual.touches_iff.1 endX with rfl | rfl
    · obtain rfl : y = v := (residual.touches_iff.1 endY).resolve_left apart'
      have long := whole back
      omega
    · have long := whole (.back found residual' apart' back)
      rw [List.length_cons] at long
      omega

end Traced

end WorkflowSoundness.FlowNetwork
