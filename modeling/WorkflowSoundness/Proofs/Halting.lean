import WorkflowSoundness.Proofs.Abundance.Definitions
import WorkflowSoundness.Proofs.Abundance.Dependent
import WorkflowSoundness.Proofs.Deadlock.Facts
import WorkflowSoundness.Proofs.Dominance.Exact
import WorkflowSoundness.Proofs.Flow.Augmenting
import WorkflowSoundness.Proofs.Flow.Fork

/-!
Why every loop of the analyses ends. A loop that is given a number of rounds has enough of them if
more do not change anything, neither what it answers nor how many visits it counts (`Enough`). Each
loop has a measure that a round lowers, and starts with more rounds than that. Two fingers that
climb the tree of a pass never come to an index without a parent (`meet_halts`), and a path is
followed back to its source (`Traced.enough`). So on every edge graph each computation answers what
its loop answers however many rounds it is given (`EdgeGraph.halts`).
-/

namespace WorkflowSoundness

/-- The loop ends by itself within the rounds. Every round but the last counts a visit, adds to the
answer or takes from what is left to do, so a loop that was cut short would go on with more. -/
def Enough {α : Type} (loop : Nat → α) (rounds : Nat) : Prop :=
  ∀ more, loop (rounds + more) = loop rounds

/-- The loop ends by itself and answers the result. -/
def Finishes {α : Type} (loop : Nat → α) (result : α) : Prop :=
  ∃ rounds, Enough loop rounds ∧ loop rounds = result

theorem Counted.bind_congr {α β : Type} {first : Counted α} {next next' : α → Counted β}
    (same : next first.value = next' first.value) : (first >>= next) = first >>= next' := by
  change (⟨(next first.value).value, _⟩ : Counted β) = ⟨(next' first.value).value, _⟩
  rw [same]

/-! ### Dominance -/

namespace DominatorTree

variable {n : Nat} {next before : Fin n → BitSet n} {root : Fin n} {rank : Fin n → Nat}
  {found : Fin n → Fin n} {order : List (Fin n)} {parents : Parents n}

/-- The lower of two fingers climbs to its parent until both meet. -/
inductive Meets (rank : Fin n → Nat) (parents : Parents n) : Fin n → Fin n → Fin n → Prop where
  | same (a : Fin n) : Meets rank parents a a a
  | left {a b c above : Fin n} (lower : rank a < rank b) (parent : parents[a] = some above)
      (rest : Meets rank parents above b c) : Meets rank parents a b c
  | right {a b c above : Fin n} (lower : rank b < rank a) (parent : parents[b] = some above)
      (rest : Meets rank parents a above c) : Meets rank parents a b c

/-- The lower of two different fingers climbs, and there is less left to climb. -/
theorem Rooted.meet_step (tree : Rooted rank root parents) {a b : Fin n}
    (knownA : parents[a].isSome = true) (knownB : parents[b].isSome = true) (other : a ≠ b) :
    ∃ a' b', parents[a'].isSome = true ∧ parents[b'].isSome = true ∧
      (n - rank a') + (n - rank b') < (n - rank a) + (n - rank b) ∧
      (∀ c, Meets rank parents a' b' c → Meets rank parents a b c) ∧
      ∀ rounds, meet rank parents (rounds + 1) a b =
        Counted.tick 1 >>= fun _ => meet rank parents rounds a' b' := by
  have distinct : rank a ≠ rank b := fun equal => other (tree.rank_inj a b knownA knownB equal)
  by_cases lower : rank a < rank b
  · obtain ⟨above, parent, known, higher, bound⟩ := tree.exists_above knownA knownB lower
    refine ⟨above, b, known, knownB, by omega, fun c => .left lower parent, fun rounds => ?_⟩
    simp only [meet, if_neg other, if_pos lower, parent]
  · have lower' : rank b < rank a := by omega
    obtain ⟨above, parent, known, higher, bound⟩ := tree.exists_above knownB knownA lower'
    refine ⟨a, above, knownA, known, by omega, fun c => .right lower' parent, fun rounds => ?_⟩
    simp only [meet, if_neg other, if_neg lower, parent]

/-- Each step of two climbs lifts one of them, so the distance to the root bounds their number. -/
theorem meet_halts (tree : Rooted rank root parents) {fuel : Nat} {a b : Fin n}
    (knownA : parents[a].isSome = true) (knownB : parents[b].isSome = true)
    (enough : (n - rank a) + (n - rank b) ≤ fuel) :
    Enough (fun rounds => meet rank parents rounds a b) fuel ∧
      Meets rank parents a b (meet rank parents fuel a b).value := by
  induction fuel generalizing a b with
  | zero =>
    have bound := tree.rank_lt a knownA
    omega
  | succ fuel ih =>
    by_cases same : a = b
    · subst same
      have here : ∀ rounds, meet rank parents (rounds + 1) a a = pure a := fun _ => if_pos rfl
      refine ⟨fun more => ?_, ?_⟩
      · simp only [Nat.add_right_comm fuel 1 more, here]
      · rw [here]
        exact .same a
    · obtain ⟨a', b', knownA', knownB', less, meets, step⟩ := tree.meet_step knownA knownB same
      obtain ⟨steady, met⟩ := ih knownA' knownB' (by omega)
      refine ⟨fun more => ?_, ?_⟩
      · simp only [Nat.add_right_comm fuel 1 more, step]
        exact Counted.bind_congr (steady more)
      · rw [step]
        exact meets _ met

/-- What `nearest` does with one more index, if each two fingers get a number of rounds. -/
def nearer (rank : Fin n → Nat) (parents : Parents n) (rounds : Nat) (found : Option (Fin n))
    (p : Fin n) : Counted (Option (Fin n)) :=
  match found with
  | none => pure (some p)
  | some d => some <$> meet rank parents rounds p d

def nearestWithin (rank : Fin n → Nat) (parents : Parents n) (before : List (Fin n))
    (rounds : Nat) : Counted (Option (Fin n)) :=
  (before.filter fun p => parents[p].isSome).foldlM (nearer rank parents rounds) none

/-- Whatever is found has a parent again. -/
theorem nearer_enough (tree : Rooted rank root parents) {found : Option (Fin n)} {p : Fin n}
    (knownP : parents[p].isSome = true) (known : ∀ d ∈ found, parents[d].isSome = true) :
    Enough (fun rounds => nearer rank parents rounds found p) (2 * n) ∧
      ∀ d ∈ (nearer rank parents (2 * n) found p).value, parents[d].isSome = true := by
  cases found with
  | none =>
    refine ⟨fun more => rfl, fun d same => ?_⟩
    exact Option.some.inj same ▸ knownP
  | some d =>
    have knownD := known d rfl
    have climbs : (n - rank p) + (n - rank d) ≤ 2 * n := by omega
    obtain ⟨steady, -⟩ := meet_halts tree knownP knownD climbs
    refine ⟨fun more => congrArg (some <$> ·) (steady more), fun m same => ?_⟩
    obtain ⟨climb, -⟩ := tree.meet_spec (2 * n) knownP knownD climbs
    exact Option.some.inj same ▸ tree.known_climb climb knownP

theorem nearest_enough (tree : Rooted rank root parents) (before : List (Fin n)) :
    Enough (nearestWithin rank parents before) (2 * n) := by
  have takes : ∀ (l : List (Fin n)) (found : Option (Fin n)),
      (∀ p ∈ l, parents[p].isSome = true) → (∀ d ∈ found, parents[d].isSome = true) →
      Enough (fun rounds => l.foldlM (nearer rank parents rounds) found) (2 * n) := by
    intro l
    induction l with
    | nil =>
      intro found _ _ more
      rfl
    | cons p l ih =>
      intro found all known more
      obtain ⟨knownP, rest⟩ := List.forall_mem_cons.1 all
      obtain ⟨steady, known'⟩ := nearer_enough tree knownP known
      simp only [List.foldlM_cons]
      rw [show nearer rank parents (2 * n + more) found p = _ from steady more]
      exact Counted.bind_congr (ih _ rest known' more)
  exact takes _ none (fun p member => (List.mem_filter.1 member).2) fun d none => nomatch none

/-- The tables that the passes go through, each with what the pass still has to look at. -/
inductive Arises (rank : Fin n → Nat) (before : Fin n → BitSet n) (order : List (Fin n))
    (initial : Parents n) : Parents n → List (Fin n) → Prop where
  | start : Arises rank before order initial initial order
  | look {parents : Parents n} {a : Fin n} {pending : List (Fin n)}
      (earlier : Arises rank before order initial parents (a :: pending)) :
      Arises rank before order initial (improve rank before parents a).value pending
  | again {parents : Parents n} (earlier : Arises rank before order initial parents []) :
      Arises rank before order initial parents order

theorem Arises.spec (numbering : Numbering next before root rank found order)
    {pending : List (Fin n)} (arises : Arises rank before order
      ((Table.replicate n none).set root (some root)) parents pending) :
    Partial next before root rank found parents ∧ Underway order root found pending parents ∧
      pending <:+ order := by
  induction arises with
  | start => exact ⟨initial_partial numbering, initial_underway, List.suffix_refl order⟩
  | look _ ih =>
    obtain ⟨state, underway, suffix⟩ := ih
    obtain ⟨m, value, state', underway', -⟩ := improve_spec numbering state underway suffix
    rw [value]
    exact ⟨state', underway', (List.suffix_cons _ _).trans suffix⟩
  | again _ ih =>
    obtain ⟨state, underway, -⟩ := ih
    exact ⟨state, underway.again, List.suffix_refl order⟩

theorem settle_enough (numbering : Numbering next before root rank found order)
    (state : Partial next before root rank found parents)
    (underway : Underway order root found order parents) {fuel : Nat}
    (enough : n * n < weight rank parents + fuel) :
    Enough (fun rounds => settle rank before order rounds parents) fuel := by
  intro more
  induction fuel generalizing parents with
  | zero => exact absurd enough (Nat.not_lt_of_le (weight_le state.toRooted))
  | succ fuel ih =>
    obtain ⟨state', underway', progress⟩ :=
      pass_spec numbering state underway (List.suffix_refl order)
    simp only [Nat.add_right_comm fuel 1 more, settle]
    refine Counted.bind_congr ?_
    split
    · rfl
    · rename_i changed
      have risen := progress.resolve_left changed
      exact ih state' underway'.again (by omega)

/-- A chain climbs to ever higher ranks. -/
theorem chainFrom_enough (tree : Rooted rank root parents) (a : Fin n) :
    Enough (fun rounds => chainFrom root parents rounds a) n := by
  have climbs : ∀ fuel (a : Fin n), parents[a].isSome = true → n - rank a ≤ fuel →
      Enough (fun rounds => chainFrom root parents rounds a) fuel := by
    intro fuel
    induction fuel with
    | zero =>
      intro a known enough
      have bound := tree.rank_lt a known
      omega
    | succ fuel ih =>
      intro a known enough more
      obtain ⟨above, parent⟩ := Option.isSome_iff_exists.1 known
      simp only [Nat.add_right_comm fuel 1 more, chainFrom, parent]
      split
      · rfl
      · rename_i other
        have higher := tree.rises a above parent other
        have bound := tree.rank_lt a known
        exact congrArg (a :: ·) (ih above (tree.known_parent a above parent) (by omega) more)
  cases known : parents[a].isSome with
  | true => exact climbs n a known (Nat.sub_le _ _)
  | false =>
    intro more
    have unknown := Option.not_isSome_iff_eq_none.1 (Bool.eq_false_iff.1 known)
    obtain ⟨k, rfl⟩ : ∃ k, n = k + 1 := ⟨n - 1, by have := a.isLt; omega⟩
    simp only [Nat.add_right_comm k 1 more, chainFrom, unknown]

end DominatorTree

/-! ### Execution and deadlocks -/

section Worklists

variable {E : EdgeGraph}

/-- A round that is not the last drops a branch. -/
theorem Execution.narrow_enough (i out : Fin E.size) {fuel : Nat} {allowed branches : E.Edges}
    (enough : branches.count < fuel) :
    Enough (fun rounds => narrow E i out rounds allowed branches) fuel := by
  intro more
  induction fuel generalizing allowed branches with
  | zero => exact absurd enough (Nat.not_lt_zero _)
  | succ fuel ih =>
    simp only [Nat.add_right_comm fuel 1 more, narrow]
    refine Counted.bind_congr (Counted.bind_congr ?_)
    split
    · rfl
    · rename_i some
      refine ih (Nat.lt_of_lt_of_le ?_ (Nat.le_of_lt_succ enough))
      refine count_sdiff_leaving_lt (fun v way => ?_) some
      obtain ⟨b, lost, leaves⟩ := mem_choicesOf.1 way
      exact ⟨b, (BitSet.mem_inter.1 lost).2, leaves⟩

/-- A step takes an edge off the worklist, and puts some on only with a new fact. -/
theorem Dataflow.propagate_enough {fuel : Nat} {worklist : List (Fin E.size)} {flow : Dataflow E}
    (enough : worklist.length + unheld flow * E.size ≤ fuel) :
    Enough (fun rounds => propagate rounds worklist flow) fuel := by
  intro more
  induction fuel generalizing worklist flow with
  | zero =>
    have empty : worklist = [] := List.length_eq_zero_iff.1 (by omega)
    subst empty
    cases 0 + more <;> rfl
  | succ fuel ih =>
    cases worklist with
    | nil =>
      simp only [Nat.add_right_comm fuel 1 more, propagate]
    | cons e worklist =>
      rw [List.length_cons] at enough
      simp only [Nat.add_right_comm fuel 1 more, propagate]
      refine Counted.bind_congr ?_
      split
      · exact ih (by omega)
      · rename_i grown
        have less := unheld_set_lt grown
        have few := (E.predecessors e).length_toList_le
        have room : unheld { flow with facts := flow.facts.set e (flow.facts[e] ∪ flow.inflow e) } *
            E.size + E.size ≤ unheld flow * E.size := by
          rw [← Nat.succ_mul]
          exact Nat.mul_le_mul_right _ less
        exact ih (by rw [List.length_append]; omega)

end Worklists

/-! ### Abundances -/

namespace Abundance

variable {E : EdgeGraph}

theorem settle_enough {fuel : Nat} {allowed : E.Edges} (enough : allowed.count < fuel) :
    Enough (fun rounds => settle rounds allowed) fuel := by
  intro more
  induction fuel generalizing allowed with
  | zero => exact absurd enough (Nat.not_lt_zero _)
  | succ fuel ih =>
    simp only [Nat.add_right_comm fuel 1 more, settle, settleOver]
    refine Counted.bind_congr (Counted.bind_congr ?_)
    split
    · rfl
    · rename_i changed
      refine ih (Nat.lt_of_lt_of_le ?_ (Nat.le_of_lt_succ enough))
      exact BitSet.count_lt_of_subset (fun x kept => (of_mem_round kept).1) fun same =>
        changed (congrArg BitSet.count same)

/-- A step follows a pending edge, and only an edge not reached yet becomes pending. -/
theorem definitionsFrom_enough (basis : Basis E) (entry : Fin E.size) {fuel : Nat}
    {pending reached : E.Edges} (enough : pending.count + reached.room < fuel) :
    Enough (fun rounds => definitionsFrom basis entry rounds pending reached) fuel := by
  intro more
  induction fuel generalizing pending reached with
  | zero => exact absurd enough (Nat.not_lt_zero _)
  | succ fuel ih =>
    simp only [Nat.add_right_comm fuel 1 more, definitionsFrom]
    split
    · rfl
    · rename_i e first
      have member : e ∈ pending := (BitSet.first?_eq_some_iff.1 first).1
      refine Counted.bind_congr ?_
      refine congrArg (· >>= _) (ih (Nat.lt_of_lt_of_le ?_ (Nat.le_of_lt_succ enough)))
      exact progress reached (basis.dominance.frontier e) member _

end Abundance

/-! ### Flow -/

namespace FlowNetwork

variable {net : FlowNetwork} {capacity flow : BitSet net.size} {source sink : Fin net.order}

/-- The search is done with each node once. -/
theorem Search.run_enough {arcs : Fin net.order → List net.Arc} (isGoal : Fin net.order → Bool)
    {done : List (Fin net.order)} {search : Search net} {fuel : Nat}
    (enough : net.order ≤ fuel + done.length)
    (ordered : Ordered (fun _ _ _ => True) source done search) :
    Enough (fun rounds => Search.run arcs isGoal rounds search) fuel := by
  intro more
  induction fuel generalizing search done with
  | zero =>
    have all := ordered.length_le
    have empty : search.queue = [] := List.length_eq_zero_iff.1 (by omega)
    rw [Nat.zero_add]
    cases more with
    | zero => rfl
    | succ more => simp only [Search.run, empty]
  | succ fuel ih =>
    simp only [Nat.add_right_comm fuel 1 more, Search.run]
    split
    · rfl
    · rename_i v queue waiting
      refine Counted.bind_congr ?_
      have went : v ∈ done ++ [v] := List.mem_append_right _ (List.mem_singleton_self v)
      have scanned := scan_spec isGoal went (arcs v) (fun _ _ _ => trivial)
        (ordered.advance waiting)
      revert scanned
      generalize (Search.scan isGoal (arcs v) { search with queue }).value = outcome
      obtain ⟨goal, final⟩ := outcome
      rintro ⟨order, -⟩
      cases goal with
      | true => rfl
      | false =>
        refine ih ?_ order
        rw [List.length_append, List.length_singleton]
        omega

/-- A search is followed back in as many rounds as there are edges on the way. -/
theorem Traced.enough {via : Table (Option (Fin net.size)) net.order} {v : Fin net.order}
    {W : List (Fin net.size)} (traced : Traced via capacity flow source v W) {route : Route net}
    (here : route.origin = v) {fuel : Nat} (short : W.length ≤ fuel) :
    Enough (fun rounds => trace via rounds route) fuel := by
  intro more
  induction traced generalizing route fuel with
  | root top => simp only [stops (here ▸ top)]
  | back foundBy residual apart _ ih =>
    subst here
    obtain ⟨next, origin, -, -, go⟩ := step foundBy residual apart
    cases fuel with
    | zero => exact absurd short (Nat.not_succ_le_zero _)
    | succ fuel =>
      simp only [Nat.add_right_comm fuel 1 more, go]
      exact ih origin (Nat.le_of_succ_le_succ short)

/-- `augment`, if its search and the way back get a number of rounds. -/
def augmentWithin (capacity flow : BitSet net.size) (source sink : Fin net.order) (rounds : Nat) :
    Counted (Option (Route net)) := do
  let search ← Search.run (net.arcs capacity flow) (· == sink) rounds (.from source)
  if source = sink ∨ search.via[sink] = none then
    return none
  else
    return some (trace search.via rounds ⟨sink, ∅, flow⟩)

/-- What the search found at the sink is followed back to the source. -/
theorem found_or_traced (listed : Listed net) (capacity flow : BitSet net.size)
    (source sink : Fin net.order) :
    let search := (Search.run (net.arcs capacity flow) (· == sink) net.order (.from source)).value
    search.via[sink] = none ∨
      Enough (fun rounds => trace search.via rounds ⟨sink, ∅, flow⟩) net.order ∧
        (trace search.via net.order ⟨sink, ∅, flow⟩).origin = source := by
  intro search
  obtain ⟨done, ordered, -⟩ := search_spec listed capacity flow source sink
  by_cases member : sink ∈ search.found
  · obtain ⟨before, after, split⟩ := List.append_of_mem ((ordered.found sink).1 member)
    obtain ⟨W, traced, short⟩ := exists_traced ordered split
    have few := Nat.le_trans short (ordered.length_before_le split)
    exact Or.inr ⟨traced.enough rfl few, (traced.follow rfl few).1⟩
  · exact Or.inl (ordered.unseen sink member)

theorem augment_enough (listed : Listed net) (capacity flow : BitSet net.size)
    (source sink : Fin net.order) : Enough (augmentWithin capacity flow source sink) net.order := by
  intro more
  have searched :
      Search.run (net.arcs capacity flow) (· == sink) (net.order + more) (.from source) =
        Search.run (net.arcs capacity flow) (· == sink) net.order (.from source) :=
    Search.run_enough _ (Nat.le_refl _) (Search.ordered_from source) more
  unfold augmentWithin
  rw [searched]
  refine Counted.bind_congr ?_
  rcases found_or_traced listed capacity flow source sink with none | ⟨steady, -⟩
  · rw [if_pos (Or.inr none), if_pos (Or.inr none)]
  · rw [show trace _ (net.order + more) _ = _ from steady more]

theorem augment_origin (listed : Listed net) {route : Route net}
    (raised : (augment capacity flow source sink).value = some route) : route.origin = source := by
  simp only [augment, Counted.value_bind] at raised
  split at raised
  · cases raised
  · rename_i some
    rcases found_or_traced listed capacity flow source sink with none | ⟨-, ends⟩
    · exact absurd (Or.inr none) some
    · exact Option.some.inj raised ▸ ends

/-- No flow is worth more than there are edges, and each raise adds one. -/
theorem maximizeFrom_enough (listed : Listed net) (apart : source ≠ sink) {fuel : Nat}
    {result : Result net} (enough : net.size < fuel + result.value)
    (feasible : Feasible capacity source sink result.value result.flow) :
    Enough (fun rounds => maximizeFrom capacity source sink rounds result) fuel := by
  intro more
  induction fuel generalizing result with
  | zero =>
    have bound := feasible.value_le apart
    omega
  | succ fuel ih =>
    have step := augment_spec listed apart feasible
    simp only [Nat.add_right_comm fuel 1 more, maximizeFrom]
    refine Counted.bind_congr ?_
    split at step
    · rename_i route found
      rw [found]
      refine ih ?_ step
      simp only [Result.raise]
      omega
    · rename_i stops
      rw [stops]

end FlowNetwork

/-! ### Every edge graph -/

namespace EdgeGraph

/-- No loop over the edges is cut short: each computation answers what its loop ends in by itself.
No finger comes to an edge without a parent, and every augmenting path leads back to the source. -/
structure Halts (E : EdgeGraph) : Prop where
  passes : ∀ direction, Finishes
    (fun rounds => DominatorTree.settle (Dominance.rankOf E direction) (E.preceding direction)
      (Dominance.passed E direction) rounds (Dominance.rootOnly E direction))
    (Dominance.parentsOf E direction (Dominance.postOrder E direction))
  nearing : ∀ direction parents pending, DominatorTree.Arises (Dominance.rankOf E direction)
    (E.preceding direction) (Dominance.passed E direction) (Dominance.rootOnly E direction)
    parents pending → ∀ before, Finishes
      (DominatorTree.nearestWithin (Dominance.rankOf E direction) parents before)
      (DominatorTree.nearest (Dominance.rankOf E direction) parents before)
  fingers : ∀ direction parents pending, DominatorTree.Arises (Dominance.rankOf E direction)
    (E.preceding direction) (Dominance.passed E direction) (Dominance.rootOnly E direction)
    parents pending → ∀ a b : Fin E.size, parents[a].isSome = true → parents[b].isSome = true →
      ∃ met, DominatorTree.Meets (Dominance.rankOf E direction) parents a b met.value ∧
        Finishes
          (fun rounds => DominatorTree.meet (Dominance.rankOf E direction) parents rounds a b) met
  chains : ∀ direction e, Finishes
    (fun rounds => DominatorTree.chainFrom (E.root direction)
      (Dominance.compute E direction).value.parents rounds e)
    (Dominance.chainOf E direction (Dominance.compute E direction).value.parents e)
  narrowing : ∀ i out, Finishes
    (fun rounds => Execution.narrow E i out rounds .full E.choiceBranches)
    (Execution.approximate E i out)
  propagating : ∀ (execution : Execution E) joins, E.joins = .ok joins → ∀ solved,
    Dataflow.solve execution = .ok solved → Finishes
      (fun rounds => do
        let flow ← joins.foldlM (Dataflow.addJoin execution) (Dataflow.initial E)
        Dataflow.propagate rounds (joins.flatMap fun join => (E.entering join.1).toList) flow)
      solved
  starving : ∀ e : Fin E.size, Finishes
    (fun rounds => do
      let firing ← Abundance.settle rounds (BitSet.full.erase e)
      return (BitSet.full \ firing) ∩ Abundance.atJoins E.leaving)
    (Abundance.dependent e)
  defining : ∀ (basis : Abundance.Basis E) fork entry, Finishes
    (fun rounds => Abundance.definitionsFrom basis entry rounds (E.leaving fork) ∅)
    (Abundance.definitions basis fork entry)
  augmenting : ∀ fork entry (capacity flow : BitSet (ForkNetwork.network E fork (some entry)).size)
    source sink, Finishes (FlowNetwork.augmentWithin capacity flow source sink)
      (FlowNetwork.augment capacity flow source sink)
  tracing : ∀ fork entry (capacity flow : BitSet (ForkNetwork.network E fork (some entry)).size)
    source sink route, (FlowNetwork.augment capacity flow source sink).value = some route →
      route.origin = source
  maximizing : ∀ fork entry room sink,
    let net := ForkNetwork.network E fork (some entry)
    let capacity := ForkNetwork.capacity E net.size room sink entry
    let source := ForkNetwork.place E fork fork
    Finishes
      (fun rounds => FlowNetwork.maximizeFrom capacity source (ForkNetwork.startOf E fork sink)
        rounds ⟨0, ∅, []⟩)
      (FlowNetwork.maximize capacity ∅ source (ForkNetwork.startOf E fork sink))

theorem halts (E : EdgeGraph) : E.Halts where
  passes direction := by
    obtain ⟨found, numbering⟩ := Dominance.exists_numbering E direction
    refine ⟨_, ?_, (Dominance.parentsOf_eq E direction).symm⟩
    exact DominatorTree.settle_enough numbering (DominatorTree.initial_partial numbering)
      DominatorTree.initial_underway (by omega)
  nearing direction parents pending arises before := by
    obtain ⟨found, numbering⟩ := Dominance.exists_numbering E direction
    obtain ⟨state, -⟩ := arises.spec numbering
    exact ⟨_, DominatorTree.nearest_enough state.toRooted before, rfl⟩
  fingers direction parents pending arises a b knownA knownB := by
    obtain ⟨found, numbering⟩ := Dominance.exists_numbering E direction
    obtain ⟨state, -⟩ := arises.spec numbering
    obtain ⟨enough, meets⟩ :=
      DominatorTree.meet_halts state.toRooted knownA knownB (Nat.le_refl _)
    exact ⟨_, meets, _, enough, rfl⟩
  chains direction e :=
    ⟨_, DominatorTree.chainFrom_enough (Dominance.finalParents_spec E direction).1 e, rfl⟩
  narrowing i out :=
    ⟨_, Execution.narrow_enough i out (Nat.lt_succ_of_le (BitSet.count_le _)), rfl⟩
  propagating execution joins listed solved answered := by
    rw [Dataflow.solve, listed] at answered
    obtain rfl := Except.ok.inj answered
    refine ⟨_, fun more => Counted.bind_congr (Dataflow.propagate_enough ?_ more), rfl⟩
    exact Nat.add_le_add_left (Nat.mul_le_mul_right _ (Dataflow.unheld_le _)) _
  starving e := by
    refine ⟨E.size + 1, fun more => ?_, rfl⟩
    exact congrArg (· >>= _)
      (Abundance.settle_enough (Nat.lt_succ_of_le (BitSet.count_le _)) more)
  defining basis fork entry := by
    refine ⟨_, Abundance.definitionsFrom_enough basis entry ?_, rfl⟩
    have few := (E.leaving fork).count_le
    have all := BitSet.room_le (∅ : E.Edges)
    omega
  augmenting fork entry capacity flow source sink :=
    ⟨_, FlowNetwork.augment_enough (ForkNetwork.listed_network fork entry) capacity flow
      source sink,
      rfl⟩
  tracing fork entry capacity flow source sink route raised :=
    FlowNetwork.augment_origin (ForkNetwork.listed_network fork entry) raised
  maximizing fork entry room sink := by
    refine ⟨_, ?_, rfl⟩
    exact FlowNetwork.maximizeFrom_enough (ForkNetwork.listed_network fork entry)
      (ForkNetwork.place_ne_startOf sink) (by simp only; omega) FlowNetwork.feasible_empty

end EdgeGraph
end WorkflowSoundness
