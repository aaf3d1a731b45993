import WorkflowSoundness.Proofs.Dominance.Chain
import WorkflowSoundness.Proofs.Halting

/-!
Why the loops over the dominator tree end, told by what they go by. The numbers of the edges that
the root leads to are those below their count, with the root last. Whatever table the passes have
come to, a parent has a parent too, the root leads to it, and it has a higher number than its child
(`DominatorTree.Arises.spec`); looking at one more edge leaves every parent or raises it. So two
fingers meet, a pass is the last one at some time, and every walk up the parents comes to its end
(`loops_end`).
-/

namespace WorkflowSoundness

namespace DominatorTree

variable {n : Nat} {next before : Fin n → BitSet n} {root : Fin n} {rank : Fin n → Nat}
  {found : Fin n → Fin n} {order pending : List (Fin n)} {parents : Parents n} {a p d : Fin n}

/-- A walk up from an index takes every index it comes to. It ends before `top`, at the root, or
where there is no parent. -/
inductive Runs (root : Fin n) (parents : Parents n) (top : Fin n) :
    Fin n → List (Fin n) → Prop where
  | met : Runs root parents top top []
  | root (other : root ≠ top) : Runs root parents top root [root]
  | lost {a : Fin n} (other : a ≠ top) (unknown : parents[a] = none) : Runs root parents top a [a]
  | up {a b : Fin n} {L : List (Fin n)} (other : a ≠ top) (notRoot : a ≠ root)
      (above : parents[a] = some b) (rest : Runs root parents top b L) :
      Runs root parents top a (a :: L)

/-- What has been found among the indices before is compared with the next one that has a parent. -/
theorem nearest_concat {earlier : List (Fin n)} (known : parents[p].isSome = true)
    (nearest : (nearest rank parents earlier).value = some d) :
    (DominatorTree.nearest rank parents (earlier ++ [p])).value =
      some (meet rank parents (2 * n) p d).value := by
  unfold DominatorTree.nearest at nearest ⊢
  rw [List.filter_append, List.foldlM_append, Counted.value_bind, nearest]
  simp only [List.filter_cons, known, if_true, List.filter_nil, List.foldlM_cons, List.foldlM_nil]
  rfl

theorem Rooted.known_nearest (tree : Rooted rank root parents) {earlier : List (Fin n)}
    (nearest : (nearest rank parents earlier).value = some d) : parents[d].isSome = true := by
  rcases tree.nearest_spec earlier with ⟨none, -⟩ | ⟨m, value, known, -⟩
  · rw [none] at nearest
    cases nearest
  · rw [value] at nearest
    obtain rfl := Option.some.inj nearest
    exact known

theorem Ascent.runs (tree : Rooted rank root parents) (top : Fin n) {L : List (Fin n)}
    (ascent : Ascent root parents a L) : Runs root parents top a (L.takeWhile (· != top)) := by
  induction ascent with
  | top =>
    by_cases here : root = top
    · subst here
      simpa using Runs.met
    · simpa [here] using Runs.root here
  | @up a b L above apart rest ih =>
    by_cases here : a = top
    · subst here
      simpa using Runs.met
    · simpa [here] using Runs.up here (tree.ne_root_of_up above apart) above ih

/-- The walk up the parents, from an index with a parent or without one. -/
theorem Rooted.runs (tree : Rooted rank root parents) (top a : Fin n) :
    Runs root parents top a ((chainFrom root parents n a).takeWhile (· != top)) := by
  cases parent : parents[a] with
  | some b =>
    have known : parents[a].isSome = true := by rw [parent]; rfl
    exact (tree.ascent_chainFrom known (Nat.sub_le _ _)).runs tree top
  | none =>
    have other : a ≠ root := by
      rintro rfl
      rw [tree.root_parent] at parent
      cases parent
    rw [Dominance.chainFrom_of_none parent other (Nat.lt_of_le_of_lt (Nat.zero_le _) a.isLt)]
    by_cases here : a = top
    · subst here
      simpa using Runs.met
    · simpa [here] using Runs.lost here parent

/-- Looking at one more index leaves every parent or raises it. -/
theorem Arises.raises (numbering : Numbering next before root rank found order)
    (arises : Arises rank before order ((Table.replicate n none).set root (some root)) parents
      (a :: pending)) {e q : Fin n} (parent : parents[e] = some q) :
    ∃ q', (improve rank before parents a).value[e] = some q' ∧ (q = q' ∨ rank q < rank q') := by
  obtain ⟨state, underway, suffix⟩ := arises.spec numbering
  obtain ⟨m, value, -, -, raised⟩ := improve_spec numbering state underway suffix
  rw [value]
  by_cases here : a = e
  · subst here
    exact ⟨m, Table.getElem_set_self _ _ _, raised q parent⟩
  · exact ⟨q, (Table.getElem_set_ne here _).trans parent, Or.inl rfl⟩

/-- A pass goes through such tables only. -/
theorem Arises.pass {initial : Parents n}
    (arises : Arises rank before order initial parents pending) :
    Arises rank before order initial (pass rank before pending parents).value [] := by
  induction pending generalizing parents with
  | nil =>
    unfold DominatorTree.pass
    rw [Counted.value_foldlM]
    exact arises
  | cons a pending ih =>
    rw [pass_cons]
    exact ih arises.look

theorem Arises.settle {initial : Parents n}
    (arises : Arises rank before order initial parents order) (rounds : Nat) :
    Arises rank before order initial (settle rank before order rounds parents).value order := by
  induction rounds generalizing parents with
  | zero => exact arises
  | succ rounds ih =>
    unfold DominatorTree.settle
    rw [Counted.value_bind]
    split
    · exact arises
    · exact ih arises.pass.again

end DominatorTree

namespace Dominance

open DominatorTree

variable {E : EdgeGraph} {direction : Direction} {e : Fin E.size} {k : Nat}

theorem rank_eq_some_iff :
    (compute E direction).value.rank[e] = some k ↔ (postOrder E direction)[k]? = some e := by
  have entry : (compute E direction).value.rank[e] = (postOrder E direction).idxOf? e :=
    Table.getElem_ofFn _ e
  have once : (postOrder E direction).Nodup := DepthFirst.nodup_postOrder _ _
  rw [entry]
  constructor
  · intro position
    obtain ⟨inside, here, -⟩ := List.idxOf?_eq_some_iff.1 position
    rw [List.getElem?_eq_getElem inside, here]
  · intro here
    obtain ⟨inside, rfl⟩ := List.getElem?_eq_some_iff.1 here
    exact DepthFirst.idxOf?_getElem once inside

theorem rankOf_of_rank (number : (compute E direction).value.rank[e] = some k) :
    rankOf E direction e = k := by
  change ((compute E direction).value.rank[e]).getD E.size = k
  rw [number]
  rfl

theorem exists_rank_iff :
    (∃ k, (compute E direction).value.rank[e] = some k) ↔ E.Reached direction e := by
  have listed : e ∈ postOrder E direction ↔ E.Reached direction e :=
    DepthFirst.mem_postOrder_iff (E.following direction) (E.root direction)
  rw [← listed, List.mem_iff_getElem?]
  simp only [rank_eq_some_iff]

/-- The root has the highest number, and every number up to it is taken. -/
theorem exists_last_rank (E : EdgeGraph) (direction : Direction) :
    ∃ m, (compute E direction).value.rank[E.root direction] = some m ∧
      ∀ k, k ≤ m ↔ ∃ e : Fin E.size, (compute E direction).value.rank[e] = some k := by
  obtain ⟨tree, known, -⟩ := finalParents_spec E direction
  obtain ⟨m, last⟩ := exists_rank_iff.2 (.stay (E.root direction))
  refine ⟨m, last, fun k => ⟨fun low => ?_, ?_⟩⟩
  · obtain ⟨inside, -⟩ := List.getElem?_eq_some_iff.1 (rank_eq_some_iff.1 last)
    have within : k < (postOrder E direction).length := Nat.lt_of_le_of_lt low inside
    exact ⟨_, rank_eq_some_iff.2 (List.getElem?_eq_getElem within)⟩
  · rintro ⟨e, number⟩
    have isKnown := (known e).2 (exists_rank_iff.1 ⟨k, number⟩)
    have bound := tree.rank_le (tree.climb_to_root isKnown)
    rwa [rankOf_of_rank number, rankOf_of_rank last] at bound

/-- The tables that the passes of one direction go through, each with the edges that the pass still
has to look at. -/
def Passes (E : EdgeGraph) (direction : Direction) : Parents E.size → List (Fin E.size) → Prop :=
  Arises (rankOf E direction) (E.preceding direction) (passed E direction) (rootOnly E direction)

/-- What the loops of one direction go by, and that each of them ends. -/
structure Ends (E : EdgeGraph) (direction : Direction) : Prop where
  /-- The edges that the root leads to have a number, the others have none. -/
  numbered : ∀ e : Fin E.size, (∃ k, (compute E direction).value.rank[e] = some k) ↔
    ∃ W, Walk (E.following direction) (E.root direction) W e
  distinct : ∀ (e f : Fin E.size) (k : Nat), (compute E direction).value.rank[e] = some k →
    (compute E direction).value.rank[f] = some k → e = f
  /-- The numbers are those from 0 on, and the root has the last. -/
  last : ∃ m, (compute E direction).value.rank[E.root direction] = some m ∧
    ∀ k, k ≤ m ↔ ∃ e : Fin E.size, (compute E direction).value.rank[e] = some k
  computed : Passes E direction (compute E direction).value.parents (passed E direction)
  rising : ∀ parents pending, Passes E direction parents pending →
    ∀ e d : Fin E.size, parents[e] = some d → e ≠ E.root direction →
      parents[d].isSome = true ∧ (∃ W, Walk (E.following direction) (E.root direction) W d) ∧
        ∃ k l, (compute E direction).value.rank[e] = some k ∧
          (compute E direction).value.rank[d] = some l ∧ k < l
  raising : ∀ parents a pending, Passes E direction parents (a :: pending) →
    ∀ e q : Fin E.size, parents[e] = some q → ∃ q',
      (improve (rankOf E direction) (E.preceding direction) parents a).value[e] = some q' ∧
        (q = q' ∨ rankOf E direction q < rankOf E direction q')
  /-- What comes before an edge is compared with what has been found so far: the lower one climbs
  from parent to parent until both meet. -/
  comparing : ∀ parents a pending, Passes E direction parents (a :: pending) →
    ∀ earlier (p : Fin E.size) later, (E.preceding direction a).toList = earlier ++ p :: later →
      parents[p].isSome = true →
      ∀ d, (nearest (rankOf E direction) parents earlier).value = some d →
        (nearest (rankOf E direction) parents (earlier ++ [p])).value =
            some (meet (rankOf E direction) parents (2 * E.size) p d).value ∧
          Meets (rankOf E direction) parents p d
            (meet (rankOf E direction) parents (2 * E.size) p d).value ∧
          Enough (fun rounds => meet (rankOf E direction) parents rounds p d) (2 * E.size)
  passes : Finishes
    (fun rounds => settle (rankOf E direction) (E.preceding direction) (passed E direction) rounds
      (rootOnly E direction))
    (parentsOf E direction (postOrder E direction))
  frontiers : ∀ e top : Fin E.size, (compute E direction).value.parents[e] = some top →
    ∀ p ∈ E.preceding direction e,
      Runs (E.root direction) (compute E direction).value.parents top p
        (((compute E direction).value.chain p).takeWhile (· != top))
  chains : ∀ e, Finishes
    (fun rounds => chainFrom (E.root direction) (compute E direction).value.parents rounds e)
    ((compute E direction).value.chain e)

/-- The loops over the dominator tree end on the edges of any closed graph, in both directions. -/
theorem loops_end (E : EdgeGraph) (direction : Direction) : Ends E direction := by
  obtain ⟨found, numbering⟩ := exists_numbering E direction
  refine
    { numbered := fun e => exists_rank_iff.trans EdgeGraph.reached_iff_walk
      distinct := ?distinct
      last := exists_last_rank E direction
      computed := Arises.start.settle _
      rising := ?rising
      raising := ?raising
      comparing := ?comparing
      passes := E.halts.passes direction
      frontiers := ?frontiers
      chains := E.halts.chains direction }
  case distinct =>
    intro e f k left right
    rw [rank_eq_some_iff] at left right
    exact Option.some.inj (left.symm.trans right)
  case rising =>
    intro parents pending arises e d parent other
    obtain ⟨state, -⟩ := Arises.spec numbering arises
    have known := state.known_parent e d parent
    have reachE := state.reached e (by rw [parent]; rfl)
    have reachD := state.reached d known
    obtain ⟨k, numberE⟩ := exists_rank_iff.2 reachE
    obtain ⟨l, numberD⟩ := exists_rank_iff.2 reachD
    have higher := state.rises e d parent other
    rw [rankOf_of_rank numberE, rankOf_of_rank numberD] at higher
    exact ⟨known, EdgeGraph.reached_iff_walk.1 reachD, k, l, numberE, numberD, higher⟩
  case raising =>
    intro parents a pending arises e q parent
    exact Arises.raises numbering arises parent
  case comparing =>
    intro parents a pending arises earlier p later _ known d nearest
    obtain ⟨state, -⟩ := Arises.spec numbering arises
    have climbs : (E.size - rankOf E direction p) + (E.size - rankOf E direction d) ≤
        2 * E.size := by omega
    obtain ⟨enough, meets⟩ :=
      meet_halts state.toRooted known (state.toRooted.known_nearest nearest) climbs
    exact ⟨nearest_concat known nearest, meets, enough⟩
  case frontiers =>
    intro e top _ p _
    exact (finalParents_spec E direction).1.runs top p

/-- The start leads into the loop over 1 and 2, and so does 4, which nothing leads to. -/
def straying : Graph where
  name := "straying"
  nodes := [.start, .merge, .split, .finish, .activity].map (⟨·, []⟩)
  flows := [⟨0, 1⟩, ⟨1, 2⟩, ⟨2, 1⟩, ⟨2, 3⟩, ⟨4, 1⟩]
  flows_inside := by decide

def strayingEdges : EdgeGraph :=
  .closing straying ⟨0, by decide⟩ ⟨3, by decide⟩

def strayingEdge (e : Nat) (inside : e < 5 := by decide) : Fin strayingEdges.size :=
  ⟨e, inside⟩

/-- When the edge into the loop is looked at once more, the edge that closes the loop is compared
with the first edge and climbs to it; the edge that nothing leads to is left out. -/
theorem loops_end_straying :
    let dominance := (compute strayingEdges .forward).value
    dominance.rank[strayingEdge 4] = none ∧
      Passes strayingEdges .forward dominance.parents
        [strayingEdge 1, strayingEdge 3, strayingEdge 2] ∧
      Meets (rankOf strayingEdges .forward) dominance.parents (strayingEdge 2) (strayingEdge 0)
        (strayingEdge 0) := by
  intro dominance
  have ends := loops_end strayingEdges .forward
  have order : passed strayingEdges .forward =
      [strayingEdge 1, strayingEdge 3, strayingEdge 2] := by decide +kernel
  have computed := ends.computed
  rw [order] at computed
  have before : (strayingEdges.preceding .forward (strayingEdge 1)).toList =
      [strayingEdge 0] ++ strayingEdge 2 :: [strayingEdge 4] := by decide +kernel
  obtain ⟨-, meets, -⟩ := ends.comparing _ _ _ computed _ _ _ before (by decide +kernel)
    (strayingEdge 0) (by decide +kernel)
  have met : (meet (rankOf strayingEdges .forward) dominance.parents (2 * strayingEdges.size)
      (strayingEdge 2) (strayingEdge 0)).value = strayingEdge 0 := by decide +kernel
  rw [met] at meets
  exact ⟨by decide +kernel, computed, meets⟩

end Dominance
end WorkflowSoundness
