import WorkflowSoundness.Proofs.Dominance.Walks

/-!
The dominator tree. The list of an index and its parents climbs to the root (`Ascent`), so it names
each strict ancestor once and the nearer one first. Read on the computed parents, the immediate
dominator of an edge is the closest of the other edges on every walk to it, and its chain lists its
dominators in the order in which they dominate each other (`dominator_tree`). The same sets of
dominators are collected in one pass in reverse post-order (`dominators_eq_collect`).
-/

namespace WorkflowSoundness

namespace DominatorTree

variable {n : Nat} {rank : Fin n → Nat} {root : Fin n} {parents : Parents n} {a : Fin n}
  {L : List (Fin n)}

/-- The list leads from an index over its parents to the root. -/
inductive Ascent (root : Fin n) (parents : Parents n) : Fin n → List (Fin n) → Prop where
  | top : Ascent root parents root [root]
  | up {a b : Fin n} {L : List (Fin n)} (above : parents[a] = some b) (other : a ≠ b)
      (rest : Ascent root parents b L) : Ascent root parents a (a :: L)

namespace Ascent

theorem head?_eq (ascent : Ascent root parents a L) : L.head? = some a := by
  cases ascent <;> rfl

theorem getLast?_eq (ascent : Ascent root parents a L) : L.getLast? = some root := by
  induction ascent with
  | top => rfl
  | up _ _ _ ih => simp [List.getLast?_cons, ih]

theorem climb (ascent : Ascent root parents a L) {x : Fin n} (member : x ∈ L) :
    Climb parents a x := by
  induction ascent with
  | top =>
    rw [List.mem_singleton.1 member]
    exact .stay root
  | up above other _ ih =>
    rcases List.mem_cons.1 member with rfl | later
    · exact .stay x
    · exact .up above other (ih later)

/-- What comes later in the list is a strict ancestor of what comes before. -/
theorem pairwise (tree : Rooted rank root parents) (ascent : Ascent root parents a L) :
    L.Pairwise fun x y => x ≠ y ∧ Climb parents x y := by
  induction ascent with
  | top => exact List.pairwise_singleton _ _
  | @up a b L above other rest ih =>
    apply List.Pairwise.cons _ ih
    intro y member
    have higher : Climb parents b y := rest.climb member
    constructor
    · rintro rfl
      have rises := tree.rises a b above (tree.ne_root_of_up above other)
      have falls := tree.rank_le higher
      omega
    · exact .up above other higher

end Ascent

/-- The steps left to the root bound the length of the list. -/
theorem Rooted.ascent_chainFrom (tree : Rooted rank root parents) {fuel : Nat}
    (known : parents[a].isSome = true) (enough : n - rank a ≤ fuel) :
    Ascent root parents a (chainFrom root parents fuel a) := by
  have bound := tree.rank_lt a known
  induction fuel generalizing a with
  | zero => omega
  | succ fuel ih =>
    unfold chainFrom
    by_cases here : a = root
    · rw [if_pos here, here]
      exact .top
    · obtain ⟨b, above⟩ := Option.isSome_iff_exists.1 known
      have rises := tree.rises a b above here
      have other := tree.ne_parent above here
      have knownB := tree.known_parent a b above
      simp only [if_neg here, above]
      exact .up above other (ih knownB (by omega) (tree.rank_lt b knownB))

/-! ### Collecting dominators in one pass -/

/-- What an index has, and what its parent has collected. -/
def inherited (parents : Parents n) (sets : Table (BitSet n) n) (a : Fin n) : BitSet n :=
  match parents[a] with
  | none => sets[a]
  | some above => if above = a then sets[a] else sets[a] ∪ sets[above]

def takeOver (parents : Parents n) (sets : Table (BitSet n) n) (a : Fin n) :
    Table (BitSet n) n :=
  sets.set a ((inherited parents sets a).insert a)

/-- One pass over the indices in `order`; in the end every index has itself. -/
def collect (parents : Parents n) (order : List (Fin n)) : Table (BitSet n) n :=
  let sets := order.foldl (takeOver parents) (.replicate n ∅)
  .ofFn fun a => sets[a].insert a

/-- During the pass, what has been passed has its ancestors, the rest has nothing. -/
structure Collecting (parents : Parents n) (pending : List (Fin n))
    (sets : Table (BitSet n) n) : Prop where
  passed : ∀ a, parents[a].isSome = true → a ∉ pending → ∀ x, x ∈ sets[a] ↔ Climb parents a x
  fresh : ∀ a, parents[a] = none ∨ a ∈ pending → ∀ x, x ∉ sets[a]

namespace Collecting

variable {pending : List (Fin n)} {sets : Table (BitSet n) n}

/-- Parents come before what they are parents of, so their sets are complete. -/
theorem mem_inherited (tree : Rooted rank root parents)
    (collecting : Collecting parents (a :: pending) sets)
    (known : parents[a].isSome = true) (later : ∀ b ∈ pending, rank b < rank a) {x : Fin n} :
    x ∈ inherited parents sets a ↔ a ≠ x ∧ Climb parents a x := by
  have empty : ∀ y, y ∉ sets[a] := collecting.fresh a (Or.inr List.mem_cons_self)
  obtain ⟨above, parent⟩ := Option.isSome_iff_exists.1 known
  simp only [inherited, parent]
  by_cases own : above = a
  · rw [if_pos own]
    apply iff_of_false (empty x)
    rintro ⟨other, climb⟩
    cases climb with
    | stay => exact other rfl
    | up above' apart _ =>
      rw [parent, own] at above'
      exact apart (Option.some.inj above')
  · have rises := tree.rises a above parent (tree.ne_root_of_up parent (Ne.symm own))
    have gone : above ∉ a :: pending := by
      intro member
      rcases List.mem_cons.1 member with same | member
      · exact own same
      · have falls := later above member
        omega
    rw [if_neg own, BitSet.mem_union,
      collecting.passed above (tree.known_parent a above parent) gone x]
    constructor
    · rintro (inside | climb)
      · exact absurd inside (empty x)
      · constructor
        · rintro rfl
          have falls := tree.rank_le climb
          omega
        · exact .up parent (Ne.symm own) climb
    · rintro ⟨other, climb⟩
      exact Or.inr (climb.of_parent parent other)

theorem takeOver (tree : Rooted rank root parents)
    (collecting : Collecting parents (a :: pending) sets)
    (known : parents[a].isSome = true) (later : ∀ b ∈ pending, rank b < rank a) :
    Collecting parents pending (takeOver parents sets a) where
  passed b knownB gone x := by
    by_cases here : a = b
    · subst here
      rw [DominatorTree.takeOver, Table.getElem_set_self, BitSet.mem_insert,
        collecting.mem_inherited tree known later]
      constructor
      · rintro (rfl | ⟨-, climb⟩)
        · exact .stay x
        · exact climb
      · intro climb
        by_cases own : a = x
        · exact Or.inl own.symm
        · exact Or.inr ⟨own, climb⟩
    · rw [DominatorTree.takeOver, Table.getElem_set_ne here]
      apply collecting.passed b knownB
      intro member
      rcases List.mem_cons.1 member with same | member
      · exact here same.symm
      · exact gone member
  fresh b waits x := by
    have here : a ≠ b := by
      rintro rfl
      rcases waits with unknown | member
      · rw [unknown] at known
        cases known
      · exact Nat.lt_irrefl _ (later a member)
    rw [DominatorTree.takeOver, Table.getElem_set_ne here]
    exact collecting.fresh b (waits.imp_right (List.mem_cons_of_mem a)) x

theorem foldl (tree : Rooted rank root parents) (collecting : Collecting parents pending sets)
    (known : ∀ a ∈ pending, parents[a].isSome = true)
    (falling : pending.Pairwise fun a b => rank b < rank a) :
    Collecting parents [] (pending.foldl (DominatorTree.takeOver parents) sets) := by
  induction pending generalizing sets with
  | nil => exact collecting
  | cons a pending ih =>
    obtain ⟨later, falling⟩ := List.pairwise_cons.1 falling
    have next := collecting.takeOver tree (known a List.mem_cons_self) later
    exact ih next (fun b member => known b (List.mem_cons_of_mem a member)) falling

end Collecting

/-- If the order lists all that is known with falling ranks, an index collects its ancestors. -/
theorem Rooted.mem_collect_iff (tree : Rooted rank root parents) {order : List (Fin n)}
    (listed : ∀ a, a ∈ order ↔ parents[a].isSome = true)
    (falling : order.Pairwise fun a b => rank b < rank a) {x : Fin n} :
    x ∈ (collect parents order)[a] ↔ Climb parents a x ∧ parents[a].isSome = true ∨
      parents[a] = none ∧ x = a := by
  have initial : Collecting parents order (.replicate n ∅) := by
    constructor
    · intro b known gone
      exact absurd ((listed b).2 known) gone
    · intro b _ y
      rw [Table.getElem_replicate]
      exact BitSet.not_mem_empty y
  have final := initial.foldl tree (fun b member => (listed b).1 member) falling
  unfold collect
  simp only [Table.getElem_ofFn, BitSet.mem_insert]
  cases known : parents[a] with
  | none =>
    have nothing := final.fresh a (Or.inl known) x
    simp [nothing]
  | some above =>
    have isKnown : parents[a].isSome = true := by rw [known]; rfl
    rw [final.passed a isKnown List.not_mem_nil x]
    constructor
    · rintro (rfl | climb)
      · exact Or.inl ⟨.stay x, rfl⟩
      · exact Or.inl ⟨climb, rfl⟩
    · rintro (⟨climb, -⟩ | ⟨none, -⟩)
      · exact Or.inr climb
      · cases none

end DominatorTree

namespace EdgeGraph

/-- Of the other edges on every walk from the root to `e`, all of which are on every walk to `d`
too, `d` is the last one met. -/
structure ImmediatelyDominates (E : EdgeGraph) (direction : Direction) (d e : Fin E.size) :
    Prop where
  other : d ≠ e
  every : ∀ W, Walk (E.following direction) (E.root direction) W e → d ∈ W
  closest : ∀ x, x ≠ e → (∀ W, Walk (E.following direction) (E.root direction) W e → x ∈ W) →
    ∀ W, Walk (E.following direction) (E.root direction) W d → x ∈ W

end EdgeGraph

namespace Dominance

open DominatorTree

variable {E : EdgeGraph} {direction : Direction} {d e : Fin E.size}

theorem falling_postOrder : (postOrder E direction).reverse.Pairwise fun a b =>
    rankOf E direction b < rankOf E direction a := by
  rw [List.pairwise_reverse, rankOf_eq]
  exact DepthFirst.pairwise_rankIn (DepthFirst.nodup_postOrder _ _)

/-- One pass over the edges in reverse post-order collects the dominators of every edge. -/
theorem dominators_eq_collect (E : EdgeGraph) (direction : Direction) :
    (compute E direction).value.dominators =
      collect (finalParents E direction) (postOrder E direction).reverse := by
  obtain ⟨tree, known, -⟩ := finalParents_spec E direction
  have listed : ∀ e, e ∈ (postOrder E direction).reverse ↔
      (finalParents E direction)[e].isSome = true := by
    intro e
    rw [List.mem_reverse, known]
    exact DepthFirst.mem_postOrder_iff (E.following direction) (E.root direction)
  apply Table.ext
  intro e
  apply BitSet.ext
  intro d
  rw [tree.mem_collect_iff listed falling_postOrder]
  change d ∈ (compute E direction).value.dominatorsOf e ↔ _
  by_cases reach : E.Reached direction e
  · have isKnown := (known e).2 reach
    rw [dominatorsOf_compute, BitSet.mem_ofList, chainOf,
      tree.mem_chainFrom_iff isKnown (Nat.sub_le _ _)]
    simp [isKnown, Option.isSome_iff_ne_none.1 isKnown]
  · have unknown : (finalParents E direction)[e] = none := by
      rw [← Option.not_isSome_iff_eq_none, known]
      exact reach
    simp [mem_dominatorsOf_of_unreached reach, unknown]

theorem immediate?_eq_some_iff_closest (reach : E.Reached direction e) :
    (compute E direction).value.immediate? e = some d ↔ E.ImmediatelyDominates direction d e := by
  rw [immediate?_eq_some_iff reach]
  simp only [EdgeGraph.dominates_iff_walk]
  constructor
  · rintro ⟨other, every, closest⟩
    exact ⟨other, every, closest⟩
  · rintro ⟨other, every, closest⟩
    exact ⟨other, every, closest⟩

theorem mem_chain_iff : d ∈ (compute E direction).value.chain e ↔
    d ∈ (compute E direction).value.dominatorsOf e := by
  rw [dominatorsOf_compute, BitSet.mem_ofList]
  rfl

theorem ascent_chain (reach : E.Reached direction e) :
    Ascent (E.root direction) (finalParents E direction) e
      ((compute E direction).value.chain e) := by
  obtain ⟨tree, known, -⟩ := finalParents_spec E direction
  exact tree.ascent_chainFrom ((known e).2 reach) (Nat.sub_le _ _)

/-- In a chain every edge is dominated by those behind it, and no edge comes twice. -/
theorem pairwise_chain (reach : E.Reached direction e) :
    ((compute E direction).value.chain e).Pairwise fun a b => a ≠ b ∧
      ∀ W, Walk (E.following direction) (E.root direction) W a → b ∈ W := by
  obtain ⟨tree, known, exact⟩ := finalParents_spec E direction
  have ascent := ascent_chain reach
  apply (ascent.pairwise tree).imp_of_mem
  rintro a b member - ⟨other, climb⟩
  have isKnown := tree.known_climb (ascent.climb member) ((known e).2 reach)
  have dominates := (exact a b ((known a).1 isKnown)).1 climb
  exact ⟨other, EdgeGraph.dominates_iff_walk.1 dominates⟩

/-- The computed immediate dominators form the dominator tree. On the edges of any closed graph and
in both directions, the root has none, and any other edge that the root leads to has the one edge
that dominates it immediately. Its chain leads from the edge to the root over its dominators, each
once, and each of them is dominated by those behind it. -/
theorem dominator_tree (E : EdgeGraph) (direction : Direction) (e : Fin E.size)
    (reach : ∃ W, Walk (E.following direction) (E.root direction) W e) :
    let dominance := (compute E direction).value
    (e = E.root direction → dominance.immediate? e = none) ∧
      (e ≠ E.root direction → ∃ d, dominance.immediate? e = some d ∧
        ∀ x, E.ImmediatelyDominates direction x e ↔ x = d) ∧
      (∀ d, d ∈ dominance.chain e ↔ d ∈ dominance.dominatorsOf e) ∧
      (dominance.chain e).Nodup ∧
      (dominance.chain e).head? = some e ∧
      (dominance.chain e).getLast? = some (E.root direction) ∧
      (dominance.chain e).Pairwise fun a b =>
        ∀ W, Walk (E.following direction) (E.root direction) W a → b ∈ W := by
  intro dominance
  have reached : E.Reached direction e := EdgeGraph.reached_iff_walk.2 reach
  have ascent := ascent_chain reached
  have ordered := pairwise_chain reached
  refine ⟨?_, ?_, fun d => mem_chain_iff, ?_, ascent.head?_eq, ascent.getLast?_eq, ?_⟩
  · rintro rfl
    exact immediate?_root
  · intro other
    obtain ⟨d, immediate⟩ := exists_immediate? reached other
    refine ⟨d, immediate, fun x => ?_⟩
    rw [← immediate?_eq_some_iff_closest reached, immediate, Option.some.injEq, eq_comm]
  · exact ordered.imp And.left
  · exact ordered.imp And.right

/-- Backwards the chain of the edge into the loop leads around the loop and out of it. -/
theorem dominator_tree_retrying :
    let dominance := (compute retryingEdges .backward).value
    (∃ W, Walk (retryingEdges.following .backward) (retryingEdges.root .backward) W
        (retryingEdge 2)) ∧
      dominance.chain (retryingEdge 2) =
        [retryingEdge 2, retryingEdge 4, retryingEdge 1, retryingEdge 3] ∧
      (∃ d, dominance.immediate? (retryingEdge 2) = some d ∧
        ∀ x, retryingEdges.ImmediatelyDominates .backward x (retryingEdge 2) ↔ x = d) ∧
      ∀ W, Walk (retryingEdges.following .backward) (retryingEdges.root .backward) W
        (retryingEdge 2) → retryingEdge 1 ∈ W := by
  intro dominance
  have reach : ∃ W, Walk (retryingEdges.following .backward) (retryingEdges.root .backward) W
      (retryingEdge 2) :=
    ⟨[retryingEdge 3, retryingEdge 1, retryingEdge 4, retryingEdge 2],
      .step (by decide +kernel) (.step (by decide +kernel) (.step (by decide +kernel) (.stay _)))⟩
  have listed : dominance.chain (retryingEdge 2) =
      [retryingEdge 2, retryingEdge 4, retryingEdge 1, retryingEdge 3] := by
    decide +kernel
  obtain ⟨-, tree, -, -, -, -, ordered⟩ :=
    dominator_tree retryingEdges .backward (retryingEdge 2) reach
  have behind : [retryingEdge 2, retryingEdge 4, retryingEdge 1, retryingEdge 3].Pairwise fun a b =>
      ∀ W, Walk (retryingEdges.following .backward) (retryingEdges.root .backward) W a → b ∈ W :=
    listed ▸ ordered
  refine ⟨reach, listed, tree (by decide), ?_⟩
  exact (List.pairwise_cons.1 behind).1 (retryingEdge 1) (by decide)

end Dominance
end WorkflowSoundness
