import WorkflowSoundness.Proofs.Sets
import WorkflowSoundness.Proofs.Findings
import WorkflowSoundness.Proofs.Trail

/-!
What the execution relation holds. A set of edges executes `i` if every edge of it has a walk
within the set to `i` and no choice offers a way out of it (`Executing`). Where no branch of a
choice enters a choice, `approximate` is the greatest such set (`approximate_greatest`), and what
executes the edge behind a join is what all entering edges have in common
(`mem_executedBy_exitOf`).
-/

namespace WorkflowSoundness

namespace Execution

variable {E : EdgeGraph} {i out : Fin E.size}

/-- Once an edge of the set has fired, no choice keeps `i` from firing; `out` may only be where a
walk begins. -/
structure Executing (E : EdgeGraph) (i out : Fin E.size) (X : Fin E.size → Prop) : Prop where
  walk : ∀ e, X e → e = i ∨ ∃ s ∈ E.successors e, Trail E.successors (fun x => X x ∧ x ≠ out) s i
  choices : ∀ e b, X e → (E.kindOf (E.target e)).isChoosing = true → E.source b = E.target e → X b

section Search

variable {allowed : E.Edges}

/-- What the search back finds from one edge. -/
def stepBack (out : Fin E.size) (allowed : E.Edges) (e : Fin E.size) : E.Edges :=
  if e = out then ∅ else E.predecessors e ∩ allowed

theorem mem_stepBack {x y : Fin E.size} :
    y ∈ stepBack out allowed x ↔ x ≠ out ∧ y ∈ allowed ∧ x ∈ E.successors y := by
  unfold stepBack
  by_cases here : x = out
  · simp [here, BitSet.not_mem_empty]
  · rw [if_neg here, BitSet.mem_inter, ← E.mem_successors_iff_mem_predecessors]
    exact ⟨fun both => ⟨here, both.2, both.1⟩, fun both => ⟨both.2.2, both.2.1⟩⟩

theorem mem_backwards_iff_path {x : Fin E.size} :
    x ∈ (backwards E i out allowed).value ↔ BitSet.Path (stepBack out allowed) i x := by
  have reached : x ∈ (backwards E i out allowed).value ↔
      ∃ seed ∈ [i], BitSet.Path (stepBack out allowed) seed x := BitSet.mem_reach_iff
  rw [reached]
  simp

/-- Turned round, a path of the search is a walk of found edges. -/
theorem trail_of_path {u v : Fin E.size} (start : BitSet.Path (stepBack out allowed) i u)
    (path : BitSet.Path (stepBack out allowed) u v) (other : v ≠ out) :
    Trail E.successors (fun y => y ∈ (backwards E i out allowed).value ∧ y ≠ out) v u := by
  induction path with
  | stay a => exact .stay ⟨mem_backwards_iff_path.2 start, other⟩
  | @step a b c first rest ih =>
    obtain ⟨apart, -, follows⟩ := mem_stepBack.1 first
    have later := ih (start.snoc first) other
    exact later.trans (.step later.finish follows (.stay ⟨mem_backwards_iff_path.2 start, apart⟩))

/-- The search finds the edges with a walk of allowed edges to `i` that passes `out` at most
first. -/
theorem mem_backwards {e : Fin E.size} :
    e ∈ (backwards E i out allowed).value ↔
      e = i ∨ e ∈ allowed ∧ ∃ s ∈ E.successors e,
        Trail E.successors (fun x => x ∈ (backwards E i out allowed).value ∧ x ≠ out) s i := by
  constructor
  · intro member
    have whole := (mem_backwards_iff_path.1 member).trail
    rcases whole.first_visit (Q := fun z => z = e) rfl with here | ⟨y, z, before, last, rfl, -⟩
    · exact Or.inl here.symm
    · obtain ⟨notOut, inside, follows⟩ := mem_stepBack.1 last
      exact Or.inr ⟨inside, y, follows, trail_of_path (.stay i) before.path notOut⟩
  · rintro (rfl | ⟨inside, s, follows, trail⟩)
    · exact mem_backwards_iff_path.2 (.stay e)
    · have found := mem_backwards_iff_path.1 trail.start.1
      exact mem_backwards_iff_path.2
        (found.snoc (mem_stepBack.2 ⟨trail.start.2, inside, follows⟩))

end Search

/-- An executing set within the allowed edges is found. -/
theorem Executing.le_backwards {X : Fin E.size → Prop} (executing : Executing E i out X)
    {allowed : E.Edges} (within : ∀ e, X e → e ∈ allowed) {e : Fin E.size} (member : X e) :
    e ∈ (backwards E i out allowed).value := by
  have along : ∀ {s}, Trail E.successors (fun x => X x ∧ x ≠ out) s i →
      Trail E.successors (fun x => x ∈ (backwards E i out allowed).value ∧ x ≠ out) s i := by
    intro s trail
    generalize same : i = j at trail
    induction trail with
    | stay ok =>
      subst same
      exact .stay ⟨mem_backwards.2 (Or.inl rfl), ok.2⟩
    | @step a b c ok first rest ih =>
      subst same
      have later := ih rfl
      exact .step ⟨mem_backwards.2 (Or.inr ⟨within _ ok.1, b, first, later⟩), ok.2⟩ first later
  rcases executing.walk e member with here | ⟨s, follows, trail⟩
  · exact mem_backwards.2 (Or.inl here)
  · exact mem_backwards.2 (Or.inr ⟨within e member, s, follows, along trail⟩)

theorem mem_foldl_sdiff {n : Nat} {α : Type} {f : α → BitSet n} {l : List α} {s : BitSet n}
    {x : Fin n} : x ∈ l.foldl (fun kept a => kept \ f a) s ↔ x ∈ s ∧ ∀ a ∈ l, x ∉ f a := by
  induction l generalizing s with
  | nil => simp
  | cons a l ih =>
    rw [List.foldl_cons, ih, BitSet.mem_sdiff]
    simp [and_assoc]

/-- Between two rounds: branches not yet given up are allowed, and into a choice with a branch given
up leads no allowed edge. -/
structure Narrowing (E : EdgeGraph) (i : Fin E.size) (allowed branches : E.Edges) : Prop where
  target : i ∈ allowed
  choosing : ∀ b ∈ branches, (E.kindOf (E.source b)).isChoosing = true
  kept : ∀ b ∈ branches, b ∈ allowed
  closed : ∀ e b, e ∈ allowed → (E.kindOf (E.target e)).isChoosing = true →
    E.source b = E.target e → b ∈ branches

theorem leaving_source (b b' : Fin E.size) :
    b' ∈ E.leaving (E.source b) ↔ E.source b' = E.source b :=
  E.mem_leaving

/-- Reading the branches while those of each choice met are taken out finds every choice. -/
theorem mem_choicesOf {branches : E.Edges} {v : Fin E.order} :
    v ∈ choicesOf E branches ↔ ∃ b ∈ branches, E.source b = v :=
  BitSet.mem_keys_sweep leaving_source

/-- No choice is found twice. -/
theorem nodup_choicesOf (branches : E.Edges) : (choicesOf E branches).Nodup :=
  BitSet.nodup_keys_sweep leaving_source

/-- The choices that offer a way around: those with a branch that is not among the found edges. -/
def WaysAround (found branches : E.Edges) (ways : List (Fin E.order)) : Prop :=
  ∀ v, v ∈ ways ↔ ∃ b ∈ branches, E.source b = v ∧ b ∉ found

theorem WaysAround.left {found branches : E.Edges} {ways : List (Fin E.order)}
    (around : WaysAround found branches ways) :
    ∀ v ∈ ways, ∃ b ∈ branches, E.source b = v := fun v way =>
  let ⟨b, member, leaves, _⟩ := (around v).1 way
  ⟨b, member, leaves⟩

/-- Giving up the branches of a choice leaves fewer branches. -/
theorem count_sdiff_leaving_lt {branches : E.Edges} {ways : List (Fin E.order)}
    (left : ∀ v ∈ ways, ∃ b ∈ branches, E.source b = v) (some : ways ≠ []) :
    (ways.foldl (fun kept v => kept \ E.leaving v) branches).count < branches.count := by
  obtain ⟨v, way⟩ := List.exists_mem_of_ne_nil ways some
  obtain ⟨b, member, leaves⟩ := left v way
  refine BitSet.count_lt_of_subset (fun x inside => (mem_foldl_sdiff.1 inside).1) fun same => ?_
  rw [← same] at member
  exact (mem_foldl_sdiff.1 member).2 v way (E.mem_leaving.2 leaves)

/-- An executing set enters no choice that offers a way around. -/
theorem Executing.le_round {X : Fin E.size → Prop} (executing : Executing E i out X)
    {found branches : E.Edges} {ways : List (Fin E.order)}
    (around : WaysAround found branches ways)
    (choosing : ∀ b ∈ branches, (E.kindOf (E.source b)).isChoosing = true)
    (within : ∀ e, X e → e ∈ found) {e : Fin E.size} (member : X e) :
    e ∈ ways.foldl (fun kept v => kept \ E.entering v) found := by
  refine mem_foldl_sdiff.2 ⟨within e member, fun v way enters => ?_⟩
  obtain ⟨b, branch, leaves, lost⟩ := (around v).1 way
  have here := E.mem_entering.1 enters
  have isChoice : (E.kindOf (E.target e)).isChoosing = true := by
    rw [here, ← leaves]
    exact choosing b branch
  exact lost (within b (executing.choices e b member isChoice (leaves.trans here.symm)))

namespace Narrowing

variable {allowed branches : E.Edges} (state : Narrowing E i allowed branches)

include state

theorem found_subset {e : Fin E.size} (member : e ∈ (backwards E i out allowed).value) :
    e ∈ allowed :=
  (mem_backwards.1 member).elim (fun here => here ▸ state.target) And.left

/-- The choices read in a round are those with a branch that the search has lost. -/
theorem waysAround (out : Fin E.size) :
    WaysAround (backwards E i out allowed).value branches
      (choicesOf E ((allowed \ (backwards E i out allowed).value) ∩ branches)) := by
  intro v
  rw [mem_choicesOf]
  refine exists_congr fun b => ?_
  rw [BitSet.mem_inter, BitSet.mem_sdiff]
  constructor
  · rintro ⟨⟨⟨-, lost⟩, member⟩, leaves⟩
    exact ⟨member, leaves, lost⟩
  · rintro ⟨member, leaves, lost⟩
    exact ⟨⟨⟨state.kept b member, lost⟩, member⟩, leaves⟩

/-- Where no choice offers a way around, what has been found executes. -/
theorem executing (none : WaysAround (backwards E i out allowed).value branches []) :
    Executing E i out (· ∈ (backwards E i out allowed).value) where
  walk e member := (mem_backwards.1 member).imp_right And.right
  choices e b member choosing leaves := Classical.byContradiction fun lost => by
    have branch := state.closed e b (state.found_subset member) choosing leaves
    exact absurd ((none _).2 ⟨b, branch, rfl, lost⟩) List.not_mem_nil

end Narrowing

section Narrow

variable (apart : ∀ e : Fin E.size, (E.kindOf (E.source e)).isChoosing = true →
    (E.kindOf (E.target e)).isChoosing = false)
  (plain : (E.kindOf (E.target i)).isChoosing = false)

include apart plain

/-- One round: no edge into a choice that offers a way around is allowed any more. -/
theorem Narrowing.round {allowed branches : E.Edges} (state : Narrowing E i allowed branches)
    {ways : List (Fin E.order)}
    (around : WaysAround (backwards E i out allowed).value branches ways) :
    Narrowing E i
      (ways.foldl (fun kept v => kept \ E.entering v) (backwards E i out allowed).value)
      (ways.foldl (fun kept v => kept \ E.leaving v) branches) := by
  have choosing : ∀ v ∈ ways, (E.kindOf v).isChoosing = true := fun v way => by
    obtain ⟨b, member, rfl, -⟩ := (around v).1 way
    exact state.choosing b member
  refine
    { target := mem_foldl_sdiff.2 ⟨mem_backwards.2 (Or.inl rfl), fun v way enters => ?_⟩
      choosing := fun b member => state.choosing b (mem_foldl_sdiff.1 member).1
      kept := fun b member => ?_
      closed := fun e b member isChoice leaves => ?_ }
  · have isChoice := choosing v way
    rw [← E.mem_entering.1 enters, plain] at isChoice
    exact Bool.false_ne_true isChoice
  · obtain ⟨old, outside⟩ := mem_foldl_sdiff.1 member
    refine mem_foldl_sdiff.2 ⟨Classical.byContradiction fun lost => ?_, fun v way enters => ?_⟩
    · exact outside _ ((around _).2 ⟨b, old, rfl, lost⟩) (E.mem_leaving.2 rfl)
    · have isChoice := choosing v way
      rw [← E.mem_entering.1 enters, apart b (state.choosing b old)] at isChoice
      exact Bool.false_ne_true isChoice
  · obtain ⟨found, outside⟩ := mem_foldl_sdiff.1 member
    refine mem_foldl_sdiff.2
      ⟨state.closed e b (state.found_subset found) isChoice leaves, fun v way exits => ?_⟩
    have here : E.target e = v := leaves.symm.trans (E.mem_leaving.1 exits)
    exact outside v way (E.mem_entering.2 here)

/-- The run lemma: the rounds end in the greatest executing set among the allowed edges. -/
theorem narrow_greatest (out : Fin E.size) {fuel : Nat} {allowed branches : E.Edges}
    (enough : branches.count < fuel) (state : Narrowing E i allowed branches) :
    Executing E i out (· ∈ (narrow E i out fuel allowed branches).value) ∧
      ∀ X, Executing E i out X → (∀ e, X e → e ∈ allowed) →
        ∀ e, X e → e ∈ (narrow E i out fuel allowed branches).value := by
  induction fuel generalizing allowed branches with
  | zero => exact absurd enough (Nat.not_lt_zero _)
  | succ fuel ih =>
    have around := state.waysAround out
    simp only [narrow, Counted.value_bind]
    revert around
    generalize choicesOf E ((allowed \ (backwards E i out allowed).value) ∩ branches) = ways
    intro around
    split
    · rename_i none
      subst none
      exact ⟨state.executing around, fun X other within e => other.le_backwards within⟩
    · rename_i some
      obtain ⟨executing, greatest⟩ := ih
        (Nat.lt_of_lt_of_le (count_sdiff_leaving_lt around.left some) (Nat.le_of_lt_succ enough))
        (state.round apart plain around)
      refine ⟨executing, fun X other within => greatest X other fun x inside => ?_⟩
      exact other.le_round around state.choosing (fun y => other.le_backwards within) inside

/-- Starting with all edges, the rounds end in the greatest executing set. -/
theorem approximate_greatest (out : Fin E.size) :
    Executing E i out (· ∈ (approximate E i out).value) ∧
      ∀ X, Executing E i out X → ∀ e, X e → e ∈ (approximate E i out).value := by
  have few := (E.choiceBranches).count_le
  have initial : Narrowing E i .full E.choiceBranches :=
    { target := BitSet.mem_full i
      choosing := fun b member => BitSet.mem_ofFn.1 member
      kept := fun b _ => BitSet.mem_full b
      closed := fun e b _ choosing leaves =>
        BitSet.mem_ofFn.2 ((congrArg (fun v => (E.kindOf v).isChoosing) leaves).trans choosing) }
  obtain ⟨executing, greatest⟩ := narrow_greatest apart plain out
    (Nat.lt_succ_of_le few) initial
  exact ⟨executing, fun X other => greatest X other fun e _ => BitSet.mem_full e⟩

end Narrow

/-! ### The tables -/

theorem executes_addEntering (execution : Execution E) {s x : Fin E.size} :
    x ∈ (execution.addEntering i out).value.executes[s] ↔
      x ∈ execution.executes[s] ∨ s ∈ (approximate E i out).value ∧ x = i := by
  have fold := mem_foldl_set (fun _ set => BitSet.insert set i) (fun _ x => x = i)
    (fun _ _ _ => BitSet.mem_insert.trans or_comm) (l := (approximate E i out).value.toList)
    (t := execution.executes) (a := s) (x := x)
  rw [BitSet.mem_toList] at fold
  exact fold

theorem executedBy_addEntering (execution : Execution E) (other : i ≠ out) (e : Fin E.size) :
    (execution.addEntering i out).value.executedBy[e] =
      if i = e then execution.executedBy[i] ∪ (approximate E i out).value
      else if out = e then execution.executedBy[out] ∩ (approximate E i out).value
      else execution.executedBy[e] := by
  simp only [addEntering, Counted.value_bind, Counted.value_pure]
  rw [Table.getElem_set, Table.getElem_set_ne (Ne.symm other), Table.getElem_set]

/-- The entering edges of a join, one after the other: the exit keeps what is common to all. -/
theorem foldl_addEntering {l : List (Fin E.size)} (others : ∀ i ∈ l, i ≠ out)
    (execution : Execution E) :
    let filled :=
      (l.foldlM (fun (filled : Execution E) i => filled.addEntering i out) execution).value
    (∀ x, x ∈ filled.executedBy[out] ↔
      x ∈ execution.executedBy[out] ∧ ∀ i ∈ l, x ∈ (approximate E i out).value) ∧
    (∀ e, e ∉ l → e ≠ out → filled.executedBy[e] = execution.executedBy[e]) ∧
    ∀ s x, x ∈ filled.executes[s] ↔
      x ∈ execution.executes[s] ∨ x ∈ l ∧ s ∈ (approximate E x out).value := by
  induction l generalizing execution with
  | nil => simp
  | cons i l ih =>
    obtain ⟨behind, frame, table⟩ := ih (fun j member => others j (List.mem_cons_of_mem i member))
      (execution.addEntering i out).value
    have apart := others i List.mem_cons_self
    simp only [List.foldlM_cons, Counted.value_bind]
    refine ⟨fun x => ?_, fun e absent notOut => ?_, fun s x => ?_⟩
    · rw [behind, executedBy_addEntering _ apart, if_neg apart, if_pos rfl, BitSet.mem_inter,
        List.forall_mem_cons, and_assoc]
    · obtain ⟨notHere, notLater⟩ := not_or.1 fun member => absent (List.mem_cons.2 member)
      rw [frame e notLater notOut, executedBy_addEntering _ apart, if_neg (Ne.symm notHere),
        if_neg (Ne.symm notOut)]
    · rw [table, executes_addEntering, List.mem_cons]
      constructor
      · rintro ((old | ⟨inside, rfl⟩) | ⟨member, inside⟩)
        · exact Or.inl old
        · exact Or.inr ⟨Or.inl rfl, inside⟩
        · exact Or.inr ⟨Or.inr member, inside⟩
      · rintro (old | ⟨rfl | member, inside⟩)
        · exact Or.inl (Or.inl old)
        · exact Or.inl (Or.inr ⟨inside, rfl⟩)
        · exact Or.inr ⟨member, inside⟩

variable {v : Fin E.order}

/-- A join fills in the entries of its own edges and leaves the others. -/
theorem addJoin_spec (execution : Execution E) (apart : E.target out ≠ v) :
    let filled := (execution.addJoin (v, out)).value
    (∀ x, x ∈ filled.executedBy[out] ↔
      ∀ i, E.target i = v → x ∈ (approximate E i out).value) ∧
    (∀ e, E.target e ≠ v → e ≠ out → filled.executedBy[e] = execution.executedBy[e]) ∧
    ∀ s x, x ∈ filled.executes[s] ↔
      x ∈ execution.executes[s] ∨ E.target x = v ∧ s ∈ (approximate E x out).value := by
  have enters : ∀ i, i ∈ (E.entering v).toList ↔ E.target i = v := fun i => by
    rw [BitSet.mem_toList, E.mem_entering]
  have others : ∀ i ∈ (E.entering v).toList, i ≠ out :=
    fun i member same => apart (same ▸ (enters i).1 member)
  obtain ⟨behind, frame, table⟩ := foldl_addEntering others
    { execution with executedBy := execution.executedBy.set out .full }
  refine ⟨fun x => (behind x).trans ?_, fun e outside notOut => ?_, fun s x => (table s x).trans ?_⟩
  · rw [Table.getElem_set_self]
    refine (and_iff_right (BitSet.mem_full x)).trans ?_
    exact forall_congr' fun i => imp_congr_left (enters i)
  · refine (frame e (fun member => outside ((enters e).1 member)) notOut).trans ?_
    exact Table.getElem_set_ne (Ne.symm notOut) _
  · rw [enters]

theorem foldl_addJoin {joins : List (Fin E.order × Fin E.size)} (exits : (joins.map Prod.snd).Nodup)
    (apart : ∀ j ∈ joins, ∀ k ∈ joins, E.target j.2 ≠ k.1) (execution : Execution E) :
    let final := (joins.foldlM addJoin execution).value
    (∀ j ∈ joins, ∀ x, x ∈ final.executedBy[j.2] ↔
      ∀ i, E.target i = j.1 → x ∈ (approximate E i j.2).value) ∧
    (∀ e, (∀ j ∈ joins, E.target e ≠ j.1 ∧ e ≠ j.2) →
      final.executedBy[e] = execution.executedBy[e]) ∧
    ∀ s x, x ∈ final.executes[s] ↔
      x ∈ execution.executes[s] ∨ ∃ j ∈ joins, E.target x = j.1 ∧
        s ∈ (approximate E x j.2).value := by
  induction joins generalizing execution with
  | nil => simp
  | cons join joins ih =>
    obtain ⟨v, out⟩ := join
    obtain ⟨fresh, exits⟩ := List.nodup_cons.1 exits
    have past : E.target out ≠ v := apart _ List.mem_cons_self _ List.mem_cons_self
    have here := addJoin_spec execution past
    obtain ⟨behind, frame, table⟩ := ih exits
      (fun j left k right => apart j (List.mem_cons_of_mem _ left) k (List.mem_cons_of_mem _ right))
      (execution.addJoin (v, out)).value
    simp only [List.foldlM_cons, Counted.value_bind]
    refine ⟨fun j member x => ?_, fun e away => ?_, fun s x => ?_⟩
    · rcases List.mem_cons.1 member with rfl | member
      · rw [frame out fun k later => ⟨apart _ List.mem_cons_self k (List.mem_cons_of_mem _ later),
          fun same => fresh (List.mem_map.2 ⟨k, later, same.symm⟩)⟩]
        exact here.1 x
      · exact behind j member x
    · obtain ⟨first, later⟩ := List.forall_mem_cons.1 away
      rw [frame e later, here.2.1 e first.1 first.2]
    · rw [table, here.2.2, or_assoc]
      simp only [List.mem_cons, exists_eq_or_imp]

end Execution

namespace EdgeGraph

variable {E : EdgeGraph}

/-- The joins are listed with their exits. -/
theorem mem_joinExits {v : Fin E.order} {out : Fin E.size} :
    (v, out) ∈ E.joinExits ↔ E.kindOf v = .join ∧ out = E.exitOf v := by
  simp only [joinExits, List.mem_map, Prod.mk.injEq, E.mem_nodesOf]
  constructor
  · rintro ⟨w, isJoin, rfl, rfl⟩
    exact ⟨isJoin, rfl⟩
  · rintro ⟨isJoin, rfl⟩
    exact ⟨v, isJoin, rfl, rfl⟩

theorem nodup_joinExits (valid : E.Valid) : (E.joinExits.map Prod.snd).Nodup := by
  unfold joinExits
  rw [List.map_map, List.Nodup, List.pairwise_map]
  refine List.Pairwise.imp_of_mem (fun {v w} left right other same => other ?_)
    ((List.nodup_finRange _).filter _)
  have merging : ∀ u ∈ E.nodesOf .join, (E.kindOf u).isMerging = true := fun u member => by
    rw [E.mem_nodesOf.1 member]
    rfl
  rw [← valid.source_exitOf (merging v left), ← valid.source_exitOf (merging w right)]
  exact congrArg E.source same

theorem Simple.apart (simple : E.Simple) (e : Fin E.size)
    (choosing : (E.kindOf (E.source e)).isChoosing = true) :
    (E.kindOf (E.target e)).isChoosing = false := by
  rw [simple.after e (NodeKind.isSplitting_of_isChoosing choosing)]
  rfl

section Tables

variable (valid : E.Valid) (simple : E.Simple)

include valid simple

/-- Both tables in terms of the approximated sets. -/
theorem executionOf_spec :
    (∀ v, E.kindOf v = .join → ∀ x, x ∈ E.executionOf.executedBy[E.exitOf v] ↔
      ∀ i, E.target i = v → x ∈ (Execution.approximate E i (E.exitOf v)).value) ∧
    ∀ s x, x ∈ E.executionOf.executes[s] ↔ E.kindOf (E.target x) = .join ∧
      s ∈ (Execution.approximate E x (E.exitOf (E.target x))).value := by
  have apart : ∀ j ∈ E.joinExits, ∀ k ∈ E.joinExits, E.target j.2 ≠ k.1 := by
    rintro ⟨v, out⟩ left ⟨w, exit⟩ right same
    obtain ⟨isJoin, rfl⟩ := mem_joinExits.1 left
    have before := simple.before (E.exitOf v) (by
      rw [show E.target (E.exitOf v) = w from same, (mem_joinExits.1 right).1]
      rfl)
    rw [valid.source_exitOf (by rw [isJoin]; rfl), isJoin] at before
    cases before
  obtain ⟨behind, -, table⟩ := Execution.foldl_addJoin (nodup_joinExits valid) apart Execution.empty
  refine ⟨fun v isJoin => behind (v, E.exitOf v) (mem_joinExits.2 ⟨isJoin, rfl⟩), fun s x => ?_⟩
  refine (table s x).trans ⟨?_, fun both => ?_⟩
  · rintro (old | ⟨⟨v, out⟩, member, here, inside⟩)
    · have none : (Execution.empty (E := E)).executes[s] = ∅ := Table.getElem_replicate _ _
      rw [none] at old
      exact absurd old (BitSet.not_mem_empty x)
    · obtain ⟨isJoin, rfl⟩ := mem_joinExits.1 member
      have here : E.target x = v := here
      subst here
      exact ⟨isJoin, inside⟩
  · exact Or.inr ⟨(E.target x, E.exitOf (E.target x)), mem_joinExits.2 ⟨both.1, rfl⟩, rfl, both.2⟩

/-- What executes the edge behind a join executes every edge that enters it. -/
theorem mem_executedBy_exitOf {v : Fin E.order} (isJoin : E.kindOf v = .join) {x : Fin E.size} :
    x ∈ E.executionOf.executedBy[E.exitOf v] ↔
      ∀ i, E.target i = v → x ∈ (Execution.approximate E i (E.exitOf v)).value :=
  (executionOf_spec valid simple).1 v isJoin x

theorem mem_executes {s x : Fin E.size} :
    x ∈ E.executionOf.executes[s] ↔ E.kindOf (E.target x) = .join ∧
      s ∈ (Execution.approximate E x (E.exitOf (E.target x))).value :=
  (executionOf_spec valid simple).2 s x

end Tables

/-- What executes an edge that enters a join is the greatest set that does. -/
theorem mem_approximate_iff (simple : E.Simple) {i out e : Fin E.size}
    (isJoin : E.kindOf (E.target i) = .join) :
    e ∈ (Execution.approximate E i out).value ↔ ∃ X, Execution.Executing E i out X ∧ X e := by
  have plain : (E.kindOf (E.target i)).isChoosing = false := by
    rw [isJoin]
    rfl
  obtain ⟨executing, greatest⟩ := Execution.approximate_greatest simple.apart plain out
  exact ⟨fun member => ⟨_, executing, member⟩, fun ⟨X, other, member⟩ => greatest X other e member⟩

end EdgeGraph
end WorkflowSoundness
