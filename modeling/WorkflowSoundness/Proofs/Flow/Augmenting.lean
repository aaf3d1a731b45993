import WorkflowSoundness.Proofs.Flow.Decomposition

/-!
How a flow is raised. An augmenting path turns over what it runs along: its edges without flow get
some, its edges with flow lose it (`augment_path`). It comes to a node between its ends by one edge
and leaves it by another (`augment_passes`). `Raises` lists the augmentations of a flow, each with
the flow it meets. A path that takes no flow back is a walk (`Raises.exists_walk`); and of all the
paths each one is kept if, and only if, none takes flow back (`Raises.length_lasting_iff`).
-/

namespace WorkflowSoundness.FlowNetwork

variable {net : FlowNetwork} {capacity flow : BitSet net.size} {source sink : Fin net.order}

namespace Traced

variable {via : Table (Option (Fin net.size)) net.order} {v : Fin net.order}
  {W : List (Fin net.size)}

/-- Where no flow is taken back, the way back is a walk. -/
theorem isWalk (traced : Traced via capacity flow source v W) (free : ∀ e ∈ W, e ∉ flow) :
    net.IsWalk source W.reverse v := by
  induction traced with
  | root => exact rfl
  | @back u v e W _ residual _ _ ih =>
    have before := ih fun d member => free d (List.mem_cons_of_mem e member)
    rw [List.reverse_cons]
    refine before.append ?_
    cases residual with
    | inl forwards =>
      obtain ⟨ends, -⟩ := forwards
      exact ⟨congrArg Prod.fst ends, congrArg Prod.snd ends⟩
    | inr backwards => exact absurd backwards.2 (free e List.mem_cons_self)

/-- Where the way back passes a node, it comes by one edge and leaves by another. -/
theorem exists_other (traced : Traced via capacity flow source v W) {x : Fin net.order}
    (notSource : x ≠ source) (notEnd : x ≠ v) {e : Fin net.size} (member : e ∈ W)
    (touches : net.Touches e x) : ∃ d ∈ W, d ≠ e ∧ net.Touches d x := by
  induction traced with
  | root => cases member
  | @back u v last W foundBy residual apart rest ih =>
    by_cases here : x = u
    · subst here
      cases rest with
      | root => exact absurd rfl notSource
      | @back w _ before V found residual' apart' rest' =>
        have lastTouches : net.Touches last x := residual.touches_iff.2 (Or.inl rfl)
        have beforeTouches : net.Touches before x := residual'.touches_iff.2 (Or.inr rfl)
        have way := Traced.back foundBy residual apart (.back found residual' apart' rest')
        have differ : before ≠ last := fun same =>
          (List.nodup_cons.1 way.nodup).1 (same ▸ List.mem_cons_self)
        by_cases isLast : e = last
        · subst isLast
          exact ⟨before, by simp, differ, beforeTouches⟩
        · exact ⟨last, by simp, Ne.symm isLast, lastTouches⟩
    · have notLast : e ≠ last := by
        rintro rfl
        exact (residual.touches_iff.1 touches).elim here notEnd
      have inRest : e ∈ W := (List.mem_cons.1 member).resolve_left notLast
      obtain ⟨d, inW, other, also⟩ := ih here inRest
      exact ⟨d, List.mem_cons_of_mem last inW, other, also⟩

end Traced

/-! ### One augmentation -/

/-- An augmenting path is the way back that a search leaves from the sink. -/
theorem augment_traced (listed : Listed net) {route : Route net}
    (raised : (augment capacity flow source sink).value = some route) :
    ∃ via W, Traced via capacity flow source sink W ∧ (∀ e, e ∈ route.path ↔ e ∈ W) ∧
      ∀ e, e ∈ route.flow ↔ if e ∈ route.path then e ∉ flow else e ∈ flow := by
  obtain ⟨done, ordered, -⟩ := search_spec listed capacity flow source sink
  simp only [augment, Counted.value_bind] at raised
  generalize (Search.run (net.arcs capacity flow) (· == sink) net.order (.from source)).value =
    search at ordered raised
  split at raised
  · cases raised
  · rename_i missing
    cases raised
    have found : sink ∈ search.found := Classical.byContradiction fun absent =>
      missing (Or.inr (ordered.unseen sink absent))
    obtain ⟨before, after, split⟩ := List.append_of_mem ((ordered.found sink).1 found)
    obtain ⟨W, traced, short⟩ := exists_traced ordered split
    have start : (⟨sink, ∅, flow⟩ : Route net).origin = sink := rfl
    obtain ⟨-, paths, turns, keeps⟩ :=
      traced.follow start (Nat.le_trans short (ordered.length_before_le split))
    have path : ∀ e, e ∈ (trace search.via net.order ⟨sink, ∅, flow⟩).path ↔ e ∈ W := by
      intro e
      rw [paths]
      exact or_iff_left (BitSet.not_mem_empty e)
    refine ⟨search.via, W, traced, path, fun e => ?_⟩
    split
    · rename_i onPath
      exact turns e ((path e).1 onPath)
    · rename_i off
      exact keeps e (mt (path e).2 off)

/-- An augmenting path turns over its edges. If it takes no flow back, it is a walk. -/
theorem augment_path (listed : Listed net) {route : Route net}
    (raised : (augment capacity flow source sink).value = some route) :
    (∀ e, e ∈ route.flow ↔ if e ∈ route.path then e ∉ flow else e ∈ flow) ∧
      ((∀ e ∈ route.path, e ∉ flow) →
        ∃ W, net.IsWalk source W sink ∧ ∀ e ∈ W, e ∈ route.path) := by
  obtain ⟨via, W, traced, path, turns⟩ := augment_traced listed raised
  refine ⟨turns, fun free => ⟨W.reverse, ?_, fun e member => ?_⟩⟩
  · exact traced.isWalk fun e member => free e ((path e).2 member)
  · exact (path e).2 (List.mem_reverse.1 member)

/-- An augmenting path that touches a node between its ends touches it by another edge, too. -/
theorem augment_passes (listed : Listed net) {route : Route net}
    (raised : (augment capacity flow source sink).value = some route) {x : Fin net.order}
    (notSource : x ≠ source) (notSink : x ≠ sink) {e : Fin net.size} (onPath : e ∈ route.path)
    (touches : net.Touches e x) : ∃ d ∈ route.path, d ≠ e ∧ net.Touches d x := by
  obtain ⟨via, W, traced, path, -⟩ := augment_traced listed raised
  obtain ⟨d, inW, other, also⟩ := traced.exists_other notSource notSink ((path e).1 onPath) touches
  exact ⟨d, (path d).2 inW, other, also⟩

/-! ### All augmentations -/

/-- An augmentation: the flow that it meets, and the route along which it raises the flow. -/
structure Raise (net : FlowNetwork) where
  met : BitSet net.size
  route : Route net

/-- The path runs over an edge with flow. -/
def Raise.TakesBack (raise : Raise net) : Prop :=
  ∃ e ∈ raise.route.path, e ∈ raise.met

/-- The augmentations of a flow, one after the other until there is none. -/
inductive Raises (capacity : BitSet net.size) (source sink : Fin net.order) :
    BitSet net.size → List (Raise net) → Prop where
  | full {flow : BitSet net.size} (none : (augment capacity flow source sink).value = none) :
      Raises capacity source sink flow []
  | more {flow : BitSet net.size} {route : Route net} {raises : List (Raise net)}
      (raised : (augment capacity flow source sink).value = some route)
      (rest : Raises capacity source sink route.flow raises) :
      Raises capacity source sink flow (⟨flow, route⟩ :: raises)

/-- The augmentations of which no edge is used by a later one. -/
def lasting : List (Raise net) → List (Raise net)
  | [] => []
  | raise :: later =>
    if later.any (fun other => raise.route.path.intersects other.route.path) then
      lasting later
    else
      raise :: lasting later

theorem lasting_sublist (raises : List (Raise net)) : (lasting raises).Sublist raises := by
  induction raises with
  | nil => exact .slnil
  | cons raise later ih =>
    unfold lasting
    split
    · exact ih.cons raise
    · exact ih.cons_cons raise

/-- The augmentations that are kept share no edge. -/
theorem pairwise_lasting (raises : List (Raise net)) : (lasting raises).Pairwise fun raise other =>
    ∀ e, e ∈ raise.route.path → e ∉ other.route.path := by
  induction raises with
  | nil => exact .nil
  | cons raise later ih =>
    unfold lasting
    split
    · exact ih
    · rename_i apart
      refine .cons (fun other kept e left right => apart ?_) ih
      exact List.any_eq_true.2
        ⟨other, (lasting_sublist later).mem kept, BitSet.intersects_iff.2 ⟨e, left, right⟩⟩

/-- The last augmentation is kept. -/
theorem lasting_ne_nil {raises : List (Raise net)} (some : raises ≠ []) : lasting raises ≠ [] := by
  induction raises with
  | nil => exact absurd rfl some
  | cons raise later ih =>
    unfold lasting
    split
    · rename_i again
      refine ih fun empty => ?_
      rw [empty] at again
      cases again
    · exact List.cons_ne_nil _ _

theorem length_lasting_lt {raise : Raise net} {later : List (Raise net)} {e : Fin net.size}
    {other : Raise net} (member : other ∈ later) (left : e ∈ raise.route.path)
    (right : e ∈ other.route.path) : (lasting (raise :: later)).length ≤ later.length := by
  have again : later.any (fun other => raise.route.path.intersects other.route.path) = true :=
    List.any_eq_true.2 ⟨other, member, BitSet.intersects_iff.2 ⟨e, left, right⟩⟩
  rw [lasting, if_pos again]
  exact (lasting_sublist later).length_le

namespace Raises

variable {raises : List (Raise net)} {raise : Raise net} {e : Fin net.size}

/-- Each augmentation is the one that the flow it meets has room for. -/
theorem augment_met (chain : Raises capacity source sink flow raises) (member : raise ∈ raises) :
    (augment capacity raise.met source sink).value = some raise.route := by
  induction chain with
  | full => cases member
  | more raised _ ih =>
    cases List.mem_cons.1 member with
    | inl here =>
      subst here
      exact raised
    | inr later => exact ih later

theorem exists_walk (listed : Listed net) (chain : Raises capacity source sink flow raises)
    (member : raise ∈ raises) (forwards : ¬ raise.TakesBack) :
    ∃ W, net.IsWalk source W sink ∧ ∀ e ∈ W, e ∈ raise.route.path :=
  (augment_path listed (chain.augment_met member)).2 fun e onPath met => forwards ⟨e, onPath, met⟩

/-- While none takes flow back, the edges with flow stay unused. -/
theorem unused (listed : Listed net) (chain : Raises capacity source sink flow raises)
    (forwards : ∀ raise ∈ raises, ¬ raise.TakesBack) (carries : e ∈ flow)
    (member : raise ∈ raises) : e ∉ raise.route.path := by
  induction chain with
  | full => cases member
  | @more flow route later raised rest ih =>
    have free : e ∉ route.path := fun onPath =>
      forwards _ List.mem_cons_self ⟨e, onPath, carries⟩
    cases List.mem_cons.1 member with
    | inl here => exact here ▸ free
    | inr inLater =>
      refine ih (fun other inside => forwards other (List.mem_cons_of_mem _ inside)) ?_ inLater
      rw [(augment_path listed raised).1, if_neg free]
      exact carries

theorem lasting_eq_self (listed : Listed net) (chain : Raises capacity source sink flow raises)
    (forwards : ∀ raise ∈ raises, ¬ raise.TakesBack) : lasting raises = raises := by
  induction chain with
  | full => rfl
  | @more flow route later raised rest ih =>
    have laterForwards := fun raise inside => forwards raise (List.mem_cons_of_mem _ inside)
    have apart : ¬ later.any (fun other => route.path.intersects other.route.path) = true := by
      intro meets
      obtain ⟨other, inLater, both⟩ := List.any_eq_true.1 meets
      obtain ⟨e, left, right⟩ := BitSet.intersects_iff.1 both
      refine rest.unused listed laterForwards ?_ inLater right
      rw [(augment_path listed raised).1, if_pos left]
      exact fun carries => forwards _ List.mem_cons_self ⟨e, left, carries⟩
    rw [lasting, if_neg apart, ih laterForwards]

/-- Flow that is met has been there before, or one of the earlier paths brought it. -/
theorem length_lasting_lt_of_met (listed : Listed net)
    (chain : Raises capacity source sink flow raises) (member : raise ∈ raises)
    (met : e ∈ raise.met) (onPath : e ∈ raise.route.path) :
    e ∈ flow ∨ (lasting raises).length < raises.length := by
  induction chain with
  | full => cases member
  | @more flow route later raised rest ih =>
    cases List.mem_cons.1 member with
    | inl here =>
      subst here
      exact Or.inl met
    | inr inLater =>
      by_cases used : e ∈ route.path
      · exact Or.inr (Nat.lt_succ_of_le (length_lasting_lt inLater used onPath))
      · cases ih inLater with
        | inl carries =>
          rw [(augment_path listed raised).1, if_neg used] at carries
          exact Or.inl carries
        | inr fewer =>
          refine Or.inr ?_
          unfold lasting
          split
          · exact Nat.lt_succ_of_lt fewer
          · exact Nat.succ_lt_succ fewer

/-- All paths are kept if, and only if, none takes flow back. -/
theorem length_lasting_iff (listed : Listed net) (chain : Raises capacity source sink ∅ raises) :
    (lasting raises).length = raises.length ↔ ∀ raise ∈ raises, ¬ raise.TakesBack := by
  constructor
  · rintro all raise member ⟨e, onPath, met⟩
    cases chain.length_lasting_lt_of_met listed member met onPath with
    | inl carries => exact BitSet.not_mem_empty e carries
    | inr fewer => exact absurd all (Nat.ne_of_lt fewer)
  · intro forwards
    rw [chain.lasting_eq_self listed forwards]

end Raises

/-! ### The result -/

/-- What a result is after further augmentations. -/
theorem foldl_raise (raises : List (Raise net)) (result : Result net) :
    let final := raises.foldl (fun result raise => result.raise raise.route) result
    final.value = result.value + raises.length ∧
      final.paths = (result.paths.filter fun old =>
        raises.all fun raise => !old.intersects raise.route.path) ++
          (lasting raises).map fun raise => raise.route.path := by
  induction raises generalizing result with
  | nil =>
    refine ⟨rfl, ?_⟩
    simp [lasting]
  | cons raise later ih =>
    obtain ⟨value, paths⟩ := ih (result.raise raise.route)
    refine ⟨?_, ?_⟩
    · have one : (result.raise raise.route).value = result.value + 1 := rfl
      rw [List.foldl_cons, value, List.length_cons, one]
      omega
    · have kept : (result.raise raise.route).paths = result.paths.filter
          (fun old => !old.intersects raise.route.path) ++ [raise.route.path] := rfl
      rw [List.foldl_cons, paths, kept, List.filter_append, List.filter_filter, List.append_assoc]
      congr 1
      · simp only [List.all_cons, Bool.and_comm]
      · have same : (later.all fun other => !raise.route.path.intersects other.route.path) =
            !later.any fun other => raise.route.path.intersects other.route.path :=
          List.not_any_eq_all_not.symm
        rw [List.filter_singleton, same, lasting]
        cases later.any fun other => raise.route.path.intersects other.route.path with
        | true => rfl
        | false => rfl

theorem maximizeFrom_raises (listed : Listed net) (apart : source ≠ sink) {fuel : Nat}
    {result : Result net} (enough : net.size < fuel + result.value)
    (feasible : Feasible capacity source sink result.value result.flow) :
    ∃ raises, Raises capacity source sink result.flow raises ∧
      (maximizeFrom capacity source sink fuel result).value =
        raises.foldl (fun result raise => result.raise raise.route) result := by
  induction fuel generalizing result with
  | zero =>
    have bound := feasible.value_le apart
    omega
  | succ fuel ih =>
    have step := augment_spec listed apart feasible
    simp only [maximizeFrom, Counted.value_bind]
    split at step
    · rename_i route found
      have one : (result.raise route).value = result.value + 1 := rfl
      have raised : Feasible capacity source sink (result.raise route).value
        (result.raise route).flow := step
      obtain ⟨raises, chain, value⟩ := ih (by omega) raised
      refine ⟨⟨result.flow, route⟩ :: raises, .more found chain, ?_⟩
      rw [found]
      exact value
    · rename_i stops
      refine ⟨[], .full stops, ?_⟩
      rw [stops]
      rfl

/-- The paths of a maximum flow are the augmenting paths of which no edge is used by a later one. -/
theorem maximize_raises (listed : Listed net) (apart : source ≠ sink)
    (capacity : BitSet net.size) : ∃ raises, Raises capacity source sink ∅ raises ∧
      (maximize capacity ∅ source sink).value.value = raises.length ∧
      (maximize capacity ∅ source sink).value.paths =
        (lasting raises).map fun raise => raise.route.path := by
  let empty : Result net := ⟨0, ∅, []⟩
  have feasible : Feasible capacity source sink empty.value empty.flow := feasible_empty
  have enough : net.size < net.size + 1 + empty.value := Nat.lt_succ_self _
  obtain ⟨raises, chain, result⟩ := maximizeFrom_raises listed apart enough feasible
  obtain ⟨value, paths⟩ := foldl_raise raises empty
  refine ⟨raises, chain, ?_, ?_⟩
  · rw [maximize, result, value]
    exact Nat.zero_add _
  · rw [maximize, result, paths]
    rfl

end WorkflowSoundness.FlowNetwork
