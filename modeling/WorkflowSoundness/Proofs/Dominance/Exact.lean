import Mathlib.Data.List.Perm.Subperm
import WorkflowSoundness.Proofs.Dominance.Settle
import WorkflowSoundness.Proofs.PostOrder

/-!
What the computed dominance means. For an edge that some walk from the root reaches, the computed
dominators are the edges on every such walk (`mem_dominatorsOf_iff`), the immediate dominator is
the strict dominator that all others dominate (`immediate?_eq_some_iff`), and the frontier of an
edge holds the edges at which its dominance ends (`mem_frontier_iff`).
-/

namespace WorkflowSoundness

namespace DepthFirst

variable {n : Nat}

/-- The position in an order, or `n` for what is not there. -/
def rankIn (order : List (Fin n)) (a : Fin n) : Nat :=
  (order.idxOf? a).getD n

theorem idxOf?_getElem {order : List (Fin n)} (once : order.Nodup) {i : Nat}
    (inside : i < order.length) : order.idxOf? order[i] = some i := by
  refine List.idxOf?_eq_some_iff.2 ⟨inside, rfl, fun j lower same => ?_⟩
  exact List.pairwise_iff_getElem.1 once j i (Nat.lt_trans lower inside) inside lower same

theorem rankIn_getElem {order : List (Fin n)} (once : order.Nodup) {i : Nat}
    (inside : i < order.length) : rankIn order order[i] = i := by
  rw [rankIn, idxOf?_getElem once inside]
  rfl

/-- A list without repetitions is ranked in its order. -/
theorem pairwise_rankIn {order : List (Fin n)} (once : order.Nodup) :
    order.Pairwise fun a b => rankIn order a < rankIn order b := by
  rw [List.pairwise_iff_getElem]
  intro i j insideI insideJ lower
  rw [rankIn_getElem once, rankIn_getElem once]
  exact lower

theorem rankIn_lt {order : List (Fin n)} (once : order.Nodup) {a : Fin n} (member : a ∈ order) :
    rankIn order a < n := by
  obtain ⟨i, inside, rfl⟩ := List.getElem_of_mem member
  rw [rankIn_getElem once]
  have short : order.length ≤ (List.finRange n).length :=
    (List.subperm_of_subset once fun x _ => List.mem_finRange x).length_le
  rw [List.length_finRange] at short
  omega

theorem rankIn_inj {order : List (Fin n)} (once : order.Nodup) {a b : Fin n}
    (left : a ∈ order) (right : b ∈ order) (same : rankIn order a = rankIn order b) : a = b := by
  obtain ⟨i, insideI, rfl⟩ := List.getElem_of_mem left
  obtain ⟨j, insideJ, rfl⟩ := List.getElem_of_mem right
  rw [rankIn_getElem once, rankIn_getElem once] at same
  subst same
  rfl

open DominatorTree in
/-- A search from the root gives a numbering. -/
theorem exists_numbering {next before : Fin n → BitSet n} (root : Fin n)
    (opposite : ∀ a b, b ∈ next a ↔ a ∈ before b) :
    ∃ found, Numbering next before root (rankIn (postOrder (steps next [root]))) found
      ((postOrder (steps next [root])).reverse.filter (· != root)) := by
  have once := nodup_postOrder next [root]
  have parents : ∀ a, ∃ p, BitSet.Path next root a → a ≠ root →
      p ∈ before a ∧ BitSet.Path next root p ∧
        rankIn (postOrder (steps next [root])) a < rankIn (postOrder (steps next [root])) p := by
    intro a
    by_cases reach : BitSet.Path next root a
    · by_cases here : a = root
      · exact ⟨a, fun _ other => absurd here other⟩
      · obtain ⟨p, step, order⟩ := exists_parent next root
          ((mem_postOrder_iff next root).2 reach) here
        have later := (List.pairwise_cons.1 ((pairwise_rankIn once).sublist order)).1 p
          List.mem_cons_self
        refine ⟨p, fun _ _ => ⟨(opposite p a).1 step, ?_, later⟩⟩
        exact (mem_postOrder_iff next root).1
          (order.subset (List.mem_cons_of_mem a List.mem_cons_self))
    · exact ⟨a, fun reached => absurd reached reach⟩
  refine ⟨fun a => Classical.choose (parents a), ?_⟩
  refine
    { opposite
      rank_lt := fun a reach => rankIn_lt once ((mem_postOrder_iff next root).2 reach)
      rank_inj := fun a b reachA reachB => rankIn_inj once
        ((mem_postOrder_iff next root).2 reachA) ((mem_postOrder_iff next root).2 reachB)
      found_before := fun a => Classical.choose_spec (parents a)
      mem_order := fun a => ?_
      sorted := ?_ }
  · rw [List.mem_filter, List.mem_reverse, mem_postOrder_iff, bne_iff_ne]
  · exact (List.pairwise_reverse.2 (pairwise_rankIn once)).filter _

end DepthFirst

namespace DominatorTree

variable {n : Nat} {next before : Fin n → BitSet n} {root : Fin n} {rank : Fin n → Nat}
  {found : Fin n → Fin n} {order : List (Fin n)}

/-- At first only the root is known. -/
theorem initial_partial (numbering : Numbering next before root rank found order) :
    Partial next before root rank found
      ((Table.replicate n none).set root (some root) : Parents n) := by
  have only : ∀ a b : Fin n, ((Table.replicate n none).set root (some root) : Parents n)[a] =
      some b → a = root ∧ b = root := by
    intro a b parent
    by_cases here : root = a
    · subst here
      rw [Table.getElem_set_self] at parent
      exact ⟨rfl, (Option.some.inj parent).symm⟩
    · rw [Table.getElem_set_ne here, Table.getElem_replicate] at parent
      cases parent
  have known : ∀ a : Fin n, ((Table.replicate n none).set root (some root) : Parents n)[a].isSome =
      true → a = root := by
    intro a isKnown
    obtain ⟨b, parent⟩ := Option.isSome_iff_exists.1 isKnown
    exact (only a b parent).1
  refine
    { root_parent := Table.getElem_set_self _ _ _
      rises := fun a b parent other => absurd (only a b parent).1 other
      known_parent := fun a b parent => ?_
      rank_lt := fun a isKnown => ?_
      rank_inj := fun a b knownA knownB _ => (known a knownA).trans (known b knownB).symm
      reached := fun a isKnown => ?_
      detour := fun a b parent other => absurd (only a b parent).1 other
      dominated := fun a d isKnown dominates => ?_
      found_known := fun a isKnown other => absurd (known a isKnown) other
      bound := fun a q x parent other => absurd (only a q parent).1 other
      side := fun a q x parent other => absurd (only a q parent).1 other }
  · rw [(only a b parent).2, Table.getElem_set_self]
    rfl
  · rw [known a isKnown]
    exact numbering.rank_lt root (.stay root)
  · rw [known a isKnown]
    exact .stay root
  · have here := known a isKnown
    subst here
    have same : d = a := Classical.byContradiction fun other =>
      dominates (.stay (Ne.symm other))
    exact same ▸ .stay _

theorem initial_underway : Underway order root found order
    ((Table.replicate n none).set root (some root) : Parents n) where
  known _ inOrder gone := absurd inOrder gone
  fresh _ _ parent other _ := by
    rw [Table.getElem_set_ne (Ne.symm other), Table.getElem_replicate] at parent
    cases parent

/-- What the passes end in. -/
theorem settled (numbering : Numbering next before root rank found order) (fuel : Nat)
    (enough : n * n < fuel) :
    let final := (settle rank before order fuel
      ((Table.replicate n none).set root (some root))).value
    Partial next before root rank found final ∧
      (∀ e, BitSet.Path next root e → final[e].isSome = true) ∧
      ∀ e d, BitSet.Path next root e → (Climb final e d ↔ Dominates next root d e) := by
  intro final
  have initial := initial_partial numbering
  obtain ⟨state, underway, stable⟩ := settle_spec numbering initial initial_underway
    (Nat.lt_of_lt_of_le enough (Nat.le_add_left _ _))
  refine ⟨state, fun e reach => ?_, fun e d reach =>
    climb_iff_dominates numbering state underway stable reach⟩
  by_cases here : e = root
  · exact here ▸ state.known_root
  · exact underway.known e ((numbering.mem_order e).2 ⟨reach, here⟩) List.not_mem_nil

/-- Below `top`, a chain holds what lies above its start and not above `top`. -/
theorem mem_takeWhile_chainFrom_iff {parents : Parents n} (tree : Rooted rank root parents)
    {fuel : Nat} {a top : Fin n} (known : parents[a].isSome = true) (enough : n - rank a ≤ fuel)
    (above : Climb parents a top) {d : Fin n} :
    d ∈ (chainFrom root parents fuel a).takeWhile (· != top) ↔
      Climb parents a d ∧ ¬ Climb parents top d := by
  have bound := tree.rank_lt a known
  induction fuel generalizing a with
  | zero => omega
  | succ fuel ih =>
    unfold chainFrom
    by_cases here : a = top
    · subst here
      have none : ∀ l : List (Fin n), (a :: l).takeWhile (· != a) = [] := by simp
      split
      · rw [none]
        simp
      · split
        · rw [none]
          simp
        · rw [none]
          simp
    · have notRoot : a ≠ root := fun same => by
        subst same
        exact here (tree.climb_root above).symm
      obtain ⟨b, parent⟩ := Option.isSome_iff_exists.1 known
      have higher := tree.rises a b parent notRoot
      have other := tree.ne_parent parent notRoot
      have knownB := tree.known_parent a b parent
      have rest : d ∈ (chainFrom root parents fuel b).takeWhile (· != top) ↔
          Climb parents b d ∧ ¬ Climb parents top d :=
        ih knownB (by omega) (above.of_parent parent here) (tree.rank_lt b knownB)
      have kept : (a != top) = true := bne_iff_ne.2 here
      rw [if_neg notRoot]
      simp only [parent, List.takeWhile_cons, kept, if_true, List.mem_cons, rest]
      constructor
      · rintro (rfl | ⟨climb, out⟩)
        · exact ⟨.stay d, fun back => here (tree.antisymm above back)⟩
        · exact ⟨.up parent other climb, out⟩
      · rintro ⟨climb, out⟩
        by_cases same : d = a
        · exact Or.inl same
        · exact Or.inr ⟨climb.of_parent parent (Ne.symm same), out⟩

end DominatorTree

namespace EdgeGraph

variable (E : EdgeGraph) (direction : Direction)

theorem mem_following_iff (a b : Fin E.size) :
    b ∈ E.following direction a ↔ a ∈ E.preceding direction b := by
  cases direction with
  | forward => exact E.mem_successors_iff_mem_predecessors
  | backward => exact E.mem_successors_iff_mem_predecessors.symm

/-- Some walk from the root of the direction leads to the edge. -/
def Reached (e : Fin E.size) : Prop :=
  BitSet.Path (E.following direction) (E.root direction) e

/-- Every walk from the root of the direction to `e` passes `d`. -/
def Dominates (d e : Fin E.size) : Prop :=
  WorkflowSoundness.Dominates (E.following direction) (E.root direction) d e

end EdgeGraph

namespace Dominance

open DominatorTree

variable (E : EdgeGraph) (direction : Direction)

/-- The edges in the order in which the search from the root leaves them. -/
def postOrder : List (Fin E.size) :=
  DepthFirst.postOrder (search E direction).value

def rankOf (e : Fin E.size) : Nat :=
  (ranksOf E (postOrder E direction))[e].getD E.size

/-- The edges that a pass looks at, in its order. -/
def passed : List (Fin E.size) :=
  (postOrder E direction).reverse.filter (· != E.root direction)

/-- The parents before the first pass. -/
def rootOnly : Parents E.size :=
  (Table.replicate E.size none).set (E.root direction) (some (E.root direction))

theorem parentsOf_eq : parentsOf E direction (postOrder E direction) =
    settle (rankOf E direction) (E.preceding direction) (passed E direction)
      (E.size * E.size + 1) (rootOnly E direction) :=
  rfl

theorem rankOf_eq : rankOf E direction = DepthFirst.rankIn (postOrder E direction) := by
  funext e
  simp [rankOf, ranksOf, DepthFirst.rankIn]

theorem exists_numbering : ∃ found, Numbering (E.following direction)
    (E.preceding direction) (E.root direction) (rankOf E direction) found (passed E direction) := by
  obtain ⟨found, numbering⟩ := DepthFirst.exists_numbering (E.root direction)
    (E.mem_following_iff direction)
  rw [rankOf_eq]
  exact ⟨found, numbering⟩

/-- The parents that the computation ends in. -/
def finalParents : Parents E.size :=
  (parentsOf E direction (DepthFirst.postOrder (search E direction).value)).value

theorem compute_parents : (compute E direction).value.parents = finalParents E direction :=
  rfl

/-- The passes end in a tree of exactly the reached edges, in which an edge lies below what
dominates it. -/
theorem finalParents_spec :
    Rooted (rankOf E direction) (E.root direction) (finalParents E direction) ∧
      (∀ e, (finalParents E direction)[e].isSome = true ↔ E.Reached direction e) ∧
      ∀ e d, E.Reached direction e →
        (Climb (finalParents E direction) e d ↔ E.Dominates direction d e) := by
  obtain ⟨found, numbering⟩ := exists_numbering E direction
  obtain ⟨state, known, exact⟩ := settled numbering (E.size * E.size + 1) (by omega)
  exact ⟨state.toRooted, fun e => ⟨state.reached e, known e⟩, exact⟩

variable {E direction} {e d : Fin E.size}

theorem dominatorsOf_compute :
    (compute E direction).value.dominatorsOf e =
      .ofList (chainOf E direction (finalParents E direction) e) := by
  simp only [dominatorsOf, compute, Counted.value_bind, Counted.value_pure]
  exact Table.getElem_ofFn _ e

theorem frontier_compute :
    e ∈ (compute E direction).value.frontier d ↔
      d ∈ below E direction (finalParents E direction) e := by
  have entry : (compute E direction).value.frontier d =
      .ofFn fun e => (below E direction (finalParents E direction) e).contains d := by
    simp only [frontier, compute, Counted.value_bind, Counted.value_pure, frontiersOf]
    rw [Table.getElem_ofFn]
    congr 1
    funext e
    rw [Table.getElem_ofFn]
    rfl
  rw [entry, BitSet.mem_ofFn, List.contains_iff_mem]

/-- The dominators of an edge are the edges on every walk to it. -/
theorem mem_dominatorsOf_iff (reach : E.Reached direction e) :
    d ∈ (compute E direction).value.dominatorsOf e ↔ E.Dominates direction d e := by
  obtain ⟨tree, known, exact⟩ := finalParents_spec E direction
  have isKnown := (known e).2 reach
  rw [dominatorsOf_compute, BitSet.mem_ofList, chainOf,
    tree.mem_chainFrom_iff isKnown (Nat.sub_le _ _), exact e d reach]

theorem strictlyDominates_iff (reach : E.Reached direction e) :
    (compute E direction).value.strictlyDominates d e = true ↔
      d ≠ e ∧ E.Dominates direction d e := by
  rw [strictlyDominates, Bool.and_eq_true, bne_iff_ne, dominates, BitSet.contains_iff_mem,
    mem_dominatorsOf_iff reach]

/-- The immediate dominator is the strict dominator that all strict dominators dominate. -/
theorem immediate?_eq_some_iff (reach : E.Reached direction e) :
    (compute E direction).value.immediate? e = some d ↔
      d ≠ e ∧ E.Dominates direction d e ∧
        ∀ x, x ≠ e → E.Dominates direction x e → E.Dominates direction x d := by
  obtain ⟨tree, known, exact⟩ := finalParents_spec E direction
  have climbs := fun x => exact e x reach
  have isKnown := (known e).2 reach
  unfold immediate?
  rw [compute_parents]
  by_cases here : e = E.root direction
  · have isRoot : e = (compute E direction).value.root := here
    rw [if_pos isRoot]
    constructor
    · intro none
      cases none
    · rintro ⟨other, dominates, -⟩
      have climb := (climbs d).2 dominates
      rw [here] at climb other
      exact absurd (tree.climb_root climb) other
  · have notRoot : ¬ e = (compute E direction).value.root := here
    rw [if_neg notRoot]
    obtain ⟨top, parent⟩ := Option.isSome_iff_exists.1 isKnown
    have apart := tree.ne_parent parent here
    have reachTop := (known top).1 (tree.known_parent e top parent)
    have above : ∀ x, x ≠ e → E.Dominates direction x e → E.Dominates direction x top := by
      intro x other dominates
      exact (exact top x reachTop).1 (((climbs x).2 dominates).of_parent parent (Ne.symm other))
    rw [parent]
    constructor
    · intro same
      have here : d = top := (Option.some.inj same).symm
      rw [here]
      exact ⟨Ne.symm apart, (climbs top).1 (.up parent apart (.stay top)), above⟩
    · rintro ⟨other, dominates, least⟩
      have up : Climb (finalParents E direction) top d :=
        ((climbs d).2 dominates).of_parent parent (Ne.symm other)
      have topDominates := (climbs top).1 (.up parent apart (.stay top))
      have reachD := (known d).1 (tree.known_climb up (tree.known_parent e top parent))
      have down := (exact d top reachD).2 (least top (Ne.symm apart) topDominates)
      rw [tree.antisymm up down]

theorem immediate?_root : (compute E direction).value.immediate? (E.root direction) = none := by
  unfold immediate?
  exact if_pos rfl

/-- A reached edge has an immediate dominator unless it is the root. -/
theorem exists_immediate? (reach : E.Reached direction e) (other : e ≠ E.root direction) :
    ∃ d, (compute E direction).value.immediate? e = some d := by
  obtain ⟨tree, known, -⟩ := finalParents_spec E direction
  obtain ⟨top, parent⟩ := Option.isSome_iff_exists.1 ((known e).2 reach)
  refine ⟨top, ?_⟩
  unfold immediate?
  rw [compute_parents, parent]
  exact if_neg other

/-- An edge with at least two edges before it is in the frontier of what dominates one of them
and does not dominate it strictly. -/
theorem mem_frontier_iff (reach : E.Reached direction e) (other : e ≠ E.root direction)
    (before : ∀ p ∈ E.preceding direction e, E.Reached direction p) :
    e ∈ (compute E direction).value.frontier d ↔
      2 ≤ (E.preceding direction e).count ∧
        (∃ p ∈ E.preceding direction e, E.Dominates direction d p) ∧
        ¬ (d ≠ e ∧ E.Dominates direction d e) := by
  obtain ⟨tree, known, exact⟩ := finalParents_spec E direction
  obtain ⟨top, parent⟩ := Option.isSome_iff_exists.1 ((known e).2 reach)
  have higher := tree.rises e top parent other
  have apart := tree.ne_parent parent other
  -- The climb from an edge before `e` comes to the parent of `e` and is cut off there, above which
  -- lies what dominates `e` strictly.
  have aboveTop : ∀ x, Climb (finalParents E direction) top x ↔
      x ≠ e ∧ E.Dominates direction x e := by
    intro x
    constructor
    · intro climb
      refine ⟨fun same => ?_, (exact e x reach).1 (.up parent apart climb)⟩
      subst same
      have := tree.rank_le climb
      omega
    · rintro ⟨strict, dominates⟩
      exact ((exact e x reach).2 dominates).of_parent parent (Ne.symm strict)
  have topBefore : ∀ p ∈ E.preceding direction e, Climb (finalParents E direction) p top := by
    intro p step
    refine (exact p top (before p step)).2 ?_
    exact dominates_before (E.mem_following_iff direction) ((aboveTop top).1 (.stay top)).2
      (Ne.symm apart) step
  rw [frontier_compute]
  unfold below
  simp only [parent]
  by_cases few : (E.preceding direction e).count < 2
  · rw [if_pos few]
    simp only [List.not_mem_nil, false_iff, not_and]
    intro many
    omega
  · rw [if_neg few, List.mem_flatMap]
    constructor
    · rintro ⟨p, member, inside⟩
      have step := BitSet.mem_toList.1 member
      obtain ⟨climb, out⟩ := (mem_takeWhile_chainFrom_iff tree ((known p).2 (before p step))
        (Nat.sub_le _ _) (topBefore p step)).1 inside
      exact ⟨by omega, ⟨p, step, (exact p d (before p step)).1 climb⟩, fun strict =>
        out ((aboveTop d).2 strict)⟩
    · rintro ⟨_, ⟨p, step, dominates⟩, out⟩
      refine ⟨p, BitSet.mem_toList.2 step, ?_⟩
      exact (mem_takeWhile_chainFrom_iff tree ((known p).2 (before p step)) (Nat.sub_le _ _)
        (topBefore p step)).2 ⟨(exact p d (before p step)).2 dominates, fun climb =>
          out ((aboveTop d).1 climb)⟩

end Dominance
end WorkflowSoundness
