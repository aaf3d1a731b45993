import WorkflowSoundness.Proofs.Dominance.Tree
import WorkflowSoundness.Proofs.Sets
import WorkflowSoundness.Proofs.Trail

/-!
Why repeated passes arrive at the dominators. While the passes run, the known parents form a tree
in which every dominator of an index lies above it and every climb can be undone by a walk of
lower rank (`Partial`). An index is passed after the one that the search found it from, so new
parents only lie higher (`improve_spec`), the passes come to an end within their bound, and the
tree they end in has above each index its dominators and nothing else (`settle_spec`).
-/

namespace WorkflowSoundness

variable {n : Nat}

/-- Every walk from the root to `e` passes `d`. -/
def Dominates (next : Fin n → BitSet n) (root d e : Fin n) : Prop :=
  ¬ Trail next (· ≠ d) root e

namespace DominatorTree

/-- What a depth-first search from the root tells: the rank of an index, the index that it was
found from, and the order of a pass. -/
structure Numbering (next before : Fin n → BitSet n) (root : Fin n) (rank : Fin n → Nat)
    (found : Fin n → Fin n) (order : List (Fin n)) : Prop where
  opposite : ∀ a b, b ∈ next a ↔ a ∈ before b
  rank_lt : ∀ a, BitSet.Path next root a → rank a < n
  rank_inj : ∀ a b, BitSet.Path next root a → BitSet.Path next root b → rank a = rank b → a = b
  found_before : ∀ a, BitSet.Path next root a → a ≠ root →
    found a ∈ before a ∧ BitSet.Path next root (found a) ∧ rank a < rank (found a)
  mem_order : ∀ a, a ∈ order ↔ BitSet.Path next root a ∧ a ≠ root
  sorted : order.Pairwise fun a b => rank b < rank a

/-- What holds of the parents at any time. -/
structure Partial (next before : Fin n → BitSet n) (root : Fin n) (rank : Fin n → Nat)
    (found : Fin n → Fin n) (parents : Parents n) : Prop
    extends Rooted rank root parents where
  reached : ∀ a : Fin n, parents[a].isSome = true → BitSet.Path next root a
  /-- A walk leads from a parent to its child through indices of lower rank. -/
  detour : ∀ a b : Fin n, parents[a] = some b → a ≠ root →
    ∃ c ∈ next b, Trail next (fun x => rank x < rank b) c a
  dominated : ∀ a d : Fin n, parents[a].isSome = true → Dominates next root d a →
    Climb parents a d
  found_known : ∀ a : Fin n, parents[a].isSome = true → a ≠ root →
    parents[found a].isSome = true
  /-- Nothing common to all that comes before an index ranks below its parent. -/
  bound : ∀ a q x : Fin n, parents[a] = some q → a ≠ root →
    (∀ p ∈ before a, parents[p].isSome = true → Climb parents p x) → rank q ≤ rank x
  /-- What lies above the index that `a` was found from lies above the parent of `a`, as soon
  as it ranks that high. -/
  side : ∀ a q x : Fin n, parents[a] = some q → a ≠ root → Climb parents (found a) x →
    rank q ≤ rank x → Climb parents q x

/-- What holds within a pass that still has to look at `pending`. -/
structure Underway (order : List (Fin n)) (root : Fin n) (found : Fin n → Fin n)
    (pending : List (Fin n)) (parents : Parents n) : Prop where
  known : ∀ a ∈ order, a ∉ pending → parents[a].isSome = true
  /-- A parent lies above the index that the child was found from, unless it has moved since the
  child was looked at. -/
  fresh : ∀ a q : Fin n, parents[a] = some q → a ≠ root → a ∉ pending ∨ q ∈ pending →
    Climb parents (found a) q

/-- Between two passes everything has been looked at, so the next one may begin. -/
theorem Underway.again {order : List (Fin n)} {root : Fin n} {found : Fin n → Fin n}
    {parents : Parents n} (underway : Underway order root found [] parents) :
    Underway order root found order parents where
  known _ inOrder gone := absurd inOrder gone
  fresh a q parent other _ := underway.fresh a q parent other (Or.inl List.not_mem_nil)

section Replace

variable {rank : Fin n → Nat} {root : Fin n} {parents : Parents n} {a b e m x : Fin n}

theorem known_set_iff : (parents.set e (some m))[a].isSome = true ↔
    a = e ∨ parents[a].isSome = true := by
  by_cases here : e = a
  · subst here
    simp
  · rw [Table.getElem_set_ne here]
    simp [Ne.symm here]

theorem parent_set_cases (parent : (parents.set e (some m))[a] = some b) :
    a = e ∧ b = m ∨ a ≠ e ∧ parents[a] = some b := by
  by_cases here : e = a
  · subst here
    rw [Table.getElem_set_self] at parent
    exact Or.inl ⟨rfl, (Option.some.inj parent).symm⟩
  · rw [Table.getElem_set_ne here] at parent
    exact Or.inr ⟨Ne.symm here, parent⟩

/-- A new parent of `e` is not noticed where no climb passes `e`. -/
theorem climb_set_iff_of_not_climb (avoids : ¬ Climb parents a e) :
    Climb (parents.set e (some m)) a x ↔ Climb parents a x := by
  constructor
  · intro climb
    induction climb with
    | stay => exact .stay _
    | @up a b c above other rest ih =>
      have notHere : e ≠ a := fun same => avoids (same ▸ .stay e)
      rw [Table.getElem_set_ne notHere] at above
      exact .up above other (ih fun climb => avoids (.up above other climb))
  · intro climb
    induction climb with
    | stay => exact .stay _
    | @up a b c above other rest ih =>
      have notHere : e ≠ a := fun same => avoids (same ▸ .stay e)
      refine .up ?_ other (ih fun climb => avoids (.up above other climb))
      rw [Table.getElem_set_ne notHere, above]

/-- A climb that passes `e` goes on from the new parent. -/
theorem climb_set_iff_of_climb (tree : Rooted rank root parents) (below : Climb parents a e)
    (higher : rank e < rank m) :
    Climb (parents.set e (some m)) a x ↔
      (Climb parents a x ∧ Climb parents x e) ∨ Climb parents m x := by
  have avoids : ¬ Climb parents m e := fun climb => by
    have := tree.rank_le climb
    omega
  have other : e ≠ m := fun same => by
    rw [← same] at higher
    exact Nat.lt_irrefl _ higher
  induction below with
  | stay e =>
    constructor
    · intro climb
      cases climb with
      | stay => exact Or.inl ⟨.stay _, .stay _⟩
      | up above _ rest =>
        rw [Table.getElem_set_self] at above
        cases above
        exact Or.inr ((climb_set_iff_of_not_climb avoids).1 rest)
    · rintro (⟨up, down⟩ | climb)
      · exact tree.antisymm up down ▸ .stay _
      · exact .up (Table.getElem_set_self _ _ _) other ((climb_set_iff_of_not_climb avoids).2 climb)
  | @up a b e above different rest ih =>
    have strict := tree.rank_lt_of_ne (.up above different (.stay b)) different
    have notHere : e ≠ a := fun same => by
      subst same
      have := tree.rank_le rest
      omega
    have kept : (parents.set e (some m))[a] = some b := by
      rw [Table.getElem_set_ne notHere, above]
    constructor
    · intro climb
      cases climb with
      | stay => exact Or.inl ⟨.stay _, .up above different rest⟩
      | up above' _ rest' =>
        rw [kept] at above'
        cases above'
        rcases (ih higher avoids other).1 rest' with ⟨up, down⟩ | found
        · exact Or.inl ⟨.up above different up, down⟩
        · exact Or.inr found
    · rintro (⟨up, down⟩ | climb)
      · by_cases same : a = x
        · exact same ▸ .stay a
        · exact .up kept different
            ((ih higher avoids other).2 (Or.inl ⟨up.of_parent above same, down⟩))
      · exact .up kept different ((ih higher avoids other).2 (Or.inr climb))

end Replace

section Pass

variable {next before : Fin n → BitSet n} {root : Fin n} {rank : Fin n → Nat}
  {found : Fin n → Fin n} {order pending : List (Fin n)} {parents : Parents n} {e : Fin n}

theorem Numbering.rank_lt_of_not_mem (numbering : Numbering next before root rank found order)
    (suffix : e :: pending <:+ order) {a : Fin n} (member : a ∈ order) (gone : a ∉ e :: pending) :
    rank e < rank a := by
  obtain ⟨passed, rfl⟩ := suffix
  have earlier := (List.mem_append.1 member).resolve_right gone
  exact (List.pairwise_append.1 numbering.sorted).2.2 a earlier e List.mem_cons_self

theorem Numbering.rank_lt_of_mem (numbering : Numbering next before root rank found order)
    (suffix : e :: pending <:+ order) {a : Fin n} (member : a ∈ pending) : rank a < rank e := by
  obtain ⟨passed, rfl⟩ := suffix
  have sorted := (List.pairwise_append.1 numbering.sorted).2.1
  exact (List.pairwise_cons.1 sorted).1 a member

/-- The root is dominated by nothing but itself, an index by no more than what comes before it. -/
theorem dominates_before (opposite : ∀ a b, b ∈ next a ↔ a ∈ before b) {d a p : Fin n}
    (dominates : Dominates next root d a) (other : d ≠ a) (step : p ∈ before a) :
    Dominates next root d p := fun trail =>
  dominates (trail.snoc ((opposite p a).2 step) (Ne.symm other))

/-- A climb is undone by a walk of lower rank. -/
theorem Partial.trail_of_climb (state : Partial next before root rank found parents)
    {a b : Fin n} (climb : Climb parents a b) (other : a ≠ b) :
    ∃ c ∈ next b, Trail next (fun x => rank x < rank b) c a := by
  induction climb with
  | stay => exact absurd rfl other
  | @up a q b above different rest ih =>
    have notRoot := state.ne_root_of_up above different
    obtain ⟨c, step, trail⟩ := state.detour a q above notRoot
    by_cases same : q = b
    · exact same ▸ ⟨c, step, trail⟩
    · obtain ⟨c', step', trail'⟩ := ih same
      have higher := state.rank_lt_of_ne rest same
      refine ⟨c', step', trail'.trans (.step trail'.finish step ?_)⟩
      exact trail.mono fun x lower => Nat.lt_trans lower higher

/-- A pass has looked at what comes before `e`: the closest index above all of it is `m`. -/
structure Looked (next before : Fin n → BitSet n) (root : Fin n) (rank : Fin n → Nat)
    (found : Fin n → Fin n) (order : List (Fin n)) (parents : Parents n) (e m : Fin n) : Prop where
  numbering : Numbering next before root rank found order
  state : Partial next before root rank found parents
  member : e ∈ order
  known_found : parents[found e].isSome = true
  known : parents[m].isSome = true
  above : ∀ p ∈ before e, parents[p].isSome = true → Climb parents p m
  least : ∀ x, (∀ p ∈ before e, parents[p].isSome = true → Climb parents p x) → Climb parents m x

theorem exists_looked (numbering : Numbering next before root rank found order)
    (state : Partial next before root rank found parents)
    (underway : Underway order root found (e :: pending) parents)
    (suffix : e :: pending <:+ order) :
    ∃ m, (improve rank before parents e).value = parents.set e (some m) ∧
      Looked next before root rank found order parents e m := by
  have member : e ∈ order := suffix.subset List.mem_cons_self
  obtain ⟨reach, notRoot⟩ := (numbering.mem_order e).1 member
  obtain ⟨step, reachFound, later⟩ := numbering.found_before e reach notRoot
  have known_found : parents[found e].isSome = true := by
    by_cases here : found e = root
    · rw [here]
      exact state.known_root
    · refine underway.known _ ((numbering.mem_order _).2 ⟨reachFound, here⟩) fun waiting => ?_
      rcases List.mem_cons.1 waiting with same | waiting
      · rw [same] at later
        exact Nat.lt_irrefl _ later
      · exact Nat.lt_asymm later (numbering.rank_lt_of_mem suffix waiting)
  obtain ⟨m, value, known, -, above, least⟩ :=
    (state.nearest_spec (before e).toList).resolve_left fun ⟨_, unknown⟩ => by
      rw [unknown _ (BitSet.mem_toList.2 step)] at known_found
      exact Bool.false_ne_true known_found
  refine ⟨m, by simp [improve, value], ?_⟩
  exact
    { numbering, state, member, known_found, known
      above := fun p inside => above p (BitSet.mem_toList.2 inside)
      least := fun x common => least x fun p inside => common p (BitSet.mem_toList.1 inside) }

namespace Looked

variable {m a b d q x : Fin n} (looked : Looked next before root rank found order parents e m)

include looked

theorem reach : BitSet.Path next root e :=
  ((looked.numbering.mem_order e).1 looked.member).1

theorem not_root : e ≠ root :=
  ((looked.numbering.mem_order e).1 looked.member).2

theorem found_before : found e ∈ before e :=
  (looked.numbering.found_before e looked.reach looked.not_root).1

theorem rank_lt_found : rank e < rank (found e) :=
  (looked.numbering.found_before e looked.reach looked.not_root).2.2

theorem from_found : Climb parents (found e) m :=
  looked.above _ looked.found_before looked.known_found

theorem rank_lt : rank e < rank m :=
  Nat.lt_of_lt_of_le looked.rank_lt_found (looked.state.rank_le looked.from_found)

theorem apart : e ≠ m := fun same =>
  Nat.lt_irrefl _ (same ▸ looked.rank_lt)

/-- Nothing of a higher rank has `e` above it, so its climbs stay as they are. -/
theorem climb_iff (lower : rank e < rank a) :
    Climb (parents.set e (some m)) a x ↔ Climb parents a x :=
  climb_set_iff_of_not_climb fun climb => Nat.not_lt_of_le (looked.state.rank_le climb) lower

theorem reached (known : (parents.set e (some m))[a].isSome = true) : BitSet.Path next root a := by
  rcases known_set_iff.1 known with rfl | known
  · exact looked.reach
  · exact looked.state.reached a known

/-- The old parent of `e` lies below the new one. -/
theorem lifted (parent : parents[e] = some q) : Climb parents q m :=
  looked.state.side e q m parent looked.not_root looked.from_found
    (looked.state.bound e q m parent looked.not_root looked.above)

/-- Climbs gain nothing. -/
theorem lost (known : parents[a].isSome = true) (climb : Climb (parents.set e (some m)) a x) :
    Climb parents a x := by
  by_cases below : Climb parents a e
  · rcases (climb_set_iff_of_climb looked.state.toRooted below looked.rank_lt).1 climb with
      ⟨kept, _⟩ | beyond
    · exact kept
    · obtain ⟨q, parent⟩ := Option.isSome_iff_exists.1 (looked.state.known_climb below known)
      have other := looked.state.ne_parent parent looked.not_root
      exact below.trans (.up parent other ((looked.lifted parent).trans beyond))
  · exact (climb_set_iff_of_not_climb below).1 climb

/-- Climbs keep what ranks no higher than `e`. -/
theorem kept (climb : Climb parents a x) (low : rank x ≤ rank e) :
    Climb (parents.set e (some m)) a x := by
  by_cases below : Climb parents a e
  · exact (climb_set_iff_of_climb looked.state.toRooted below looked.rank_lt).2
      (Or.inl ⟨climb, looked.state.climb_of_rank_le climb below low⟩)
  · exact (climb_set_iff_of_not_climb below).2 climb

/-- What dominates `e` dominates all that comes before it, so it lies above the new parent. -/
theorem dominated_before (dominates : Dominates next root d e) (other : d ≠ e) :
    Climb parents m d :=
  looked.least d fun p inside known => looked.state.dominated p d known
    (dominates_before looked.numbering.opposite dominates other inside)

theorem detour (parent : (parents.set e (some m))[a] = some b) (other : a ≠ root) :
    ∃ c ∈ next b, Trail next (fun x => rank x < rank b) c a := by
  rcases parent_set_cases parent with ⟨rfl, rfl⟩ | ⟨-, old⟩
  · have child := (looked.numbering.opposite _ _).2 looked.found_before
    by_cases same : found a = b
    · exact ⟨a, same ▸ child, .stay looked.rank_lt⟩
    · obtain ⟨c, first, trail⟩ := looked.state.trail_of_climb looked.from_found same
      exact ⟨c, first, trail.snoc child looked.rank_lt⟩
  · exact looked.state.detour a b old other

theorem dominated (known : (parents.set e (some m))[a].isSome = true)
    (dominates : Dominates next root d a) : Climb (parents.set e (some m)) a d := by
  by_cases here : a = e
  · subst here
    by_cases same : d = a
    · exact same ▸ .stay _
    · exact .up (Table.getElem_set_self _ _ _) looked.apart
        ((looked.climb_iff looked.rank_lt).2 (looked.dominated_before dominates same))
  have old := (known_set_iff.1 known).resolve_left here
  have climb := looked.state.dominated a d old dominates
  by_cases below : Climb parents a e
  · refine (climb_set_iff_of_climb looked.state.toRooted below looked.rank_lt).2 ?_
    rcases climb.linear below with inner | outer
    · exact Or.inl ⟨climb, inner⟩
    by_cases same : d = e
    · exact Or.inl ⟨climb, same ▸ .stay _⟩
    -- a walk that misses `d` on the way to `e` would miss it on the way to `a`
    have strict := looked.state.rank_lt_of_ne outer (Ne.symm same)
    refine Or.inr (looked.dominated_before (fun trail => dominates ?_) same)
    obtain ⟨c, first, rest⟩ := looked.state.trail_of_climb below here
    refine trail.trans (.step trail.finish first (rest.mono fun x low => ?_))
    rintro rfl
    exact Nat.lt_asymm low strict
  · exact (climb_set_iff_of_not_climb below).2 climb

theorem bound (parent : (parents.set e (some m))[a] = some q) (other : a ≠ root)
    (common : ∀ p ∈ before a, (parents.set e (some m))[p].isSome = true →
      Climb (parents.set e (some m)) p x) : rank q ≤ rank x := by
  have common' : ∀ p ∈ before a, parents[p].isSome = true → Climb parents p x :=
    fun p inside known => looked.lost known (common p inside (known_set_iff.2 (Or.inr known)))
  rcases parent_set_cases parent with ⟨rfl, rfl⟩ | ⟨-, old⟩
  · exact looked.state.rank_le (looked.least x common')
  · exact looked.state.bound a q x old other common'

/-- A parent that has `e` above it is still to be looked at. -/
theorem waiting (suffix : e :: pending <:+ order) (known : parents[q].isSome = true)
    (below : Climb parents q e) : q ∈ e :: pending := by
  refine Classical.byContradiction fun gone => ?_
  have low := looked.state.rank_le below
  have lowRoot : rank e < rank root := Nat.lt_of_lt_of_le looked.rank_lt_found
    (looked.state.rank_le (looked.state.climb_to_root looked.known_found))
  have notTop : q ≠ root := fun same => Nat.not_lt_of_le low (same ▸ lowRoot)
  have inOrder := (looked.numbering.mem_order q).2 ⟨looked.state.reached q known, notTop⟩
  exact Nat.not_lt_of_le low (looked.numbering.rank_lt_of_not_mem suffix inOrder gone)

theorem side (underway : Underway order root found (e :: pending) parents)
    (suffix : e :: pending <:+ order) (parent : (parents.set e (some m))[a] = some q)
    (other : a ≠ root) (climb : Climb (parents.set e (some m)) (found a) x)
    (higher : rank q ≤ rank x) : Climb (parents.set e (some m)) q x := by
  rcases parent_set_cases parent with ⟨rfl, rfl⟩ | ⟨-, old⟩
  · refine (looked.climb_iff looked.rank_lt).2 ?_
    exact looked.state.climb_of_rank_le looked.from_found
      ((looked.climb_iff looked.rank_lt_found).1 climb) higher
  have known : parents[a].isSome = true := by
    rw [old]
    rfl
  have inner := looked.lost (looked.state.found_known a known other) climb
  have outer := looked.state.side a q x old other inner higher
  by_cases below : Climb parents q e
  · have waits := looked.waiting suffix (looked.state.known_parent a q old) below
    have through := (underway.fresh a q old other (Or.inr waits)).trans below
    refine (climb_set_iff_of_climb looked.state.toRooted below looked.rank_lt).2 ?_
    rcases (climb_set_iff_of_climb looked.state.toRooted through looked.rank_lt).1 climb with
      ⟨-, under⟩ | beyond
    · exact Or.inl ⟨outer, under⟩
    · exact Or.inr beyond
  · exact (climb_set_iff_of_not_climb below).2 outer

/-- The new parent keeps what holds of the parents. -/
theorem improved (underway : Underway order root found (e :: pending) parents)
    (suffix : e :: pending <:+ order) :
    Partial next before root rank found (parents.set e (some m)) := by
  refine
    { root_parent := ?_, rises := fun a b parent other => ?_,
      known_parent := fun a b parent => known_set_iff.2 (Or.inr ?_),
      rank_lt := fun a known => looked.numbering.rank_lt a (looked.reached known),
      rank_inj := fun a b knownA knownB =>
        looked.numbering.rank_inj a b (looked.reached knownA) (looked.reached knownB),
      reached := fun a => looked.reached,
      detour := fun a b => looked.detour,
      dominated := fun a d => looked.dominated,
      found_known := fun a known other => known_set_iff.2 (Or.inr ?_),
      bound := fun a q x => looked.bound,
      side := fun a q x => looked.side underway suffix }
  · rw [Table.getElem_set_ne looked.not_root, looked.state.root_parent]
  · rcases parent_set_cases parent with ⟨rfl, rfl⟩ | ⟨-, old⟩
    · exact looked.rank_lt
    · exact looked.state.rises a b old other
  · rcases parent_set_cases parent with ⟨-, rfl⟩ | ⟨-, old⟩
    · exact looked.known
    · exact looked.state.known_parent a b old
  · rcases known_set_iff.1 known with rfl | old
    · exact looked.known_found
    · exact looked.state.found_known a old other

/-- The pass goes on with one index less. -/
theorem underway (underway : Underway order root found (e :: pending) parents)
    (suffix : e :: pending <:+ order) :
    Underway order root found pending (parents.set e (some m)) := by
  constructor
  · intro a inOrder gone
    by_cases here : a = e
    · exact known_set_iff.2 (Or.inl here)
    · refine known_set_iff.2 (Or.inr (underway.known a inOrder fun waiting => ?_))
      exact (List.mem_cons.1 waiting).elim here gone
  · intro a q parent other position
    rcases parent_set_cases parent with ⟨rfl, rfl⟩ | ⟨different, old⟩
    · exact (looked.climb_iff looked.rank_lt_found).2 looked.from_found
    rcases position with gone | waiting
    · have passed : a ∉ e :: pending := fun waiting => (List.mem_cons.1 waiting).elim different gone
      have reachA := looked.state.reached a (by rw [old]; rfl)
      have inOrder := (looked.numbering.mem_order a).2 ⟨reachA, other⟩
      have ahead := looked.numbering.rank_lt_of_not_mem suffix inOrder passed
      have further := (looked.numbering.found_before a reachA other).2.2
      exact (looked.climb_iff (Nat.lt_trans ahead further)).2
        (underway.fresh a q old other (Or.inl passed))
    · exact looked.kept (underway.fresh a q old other (Or.inr (List.mem_cons_of_mem e waiting)))
        (Nat.le_of_lt (looked.numbering.rank_lt_of_mem suffix waiting))

end Looked

/-- Passing an index keeps what holds of the parents. Its new parent ranks above the old one
unless both are the same. -/
theorem improve_spec (numbering : Numbering next before root rank found order)
    (state : Partial next before root rank found parents)
    (underway : Underway order root found (e :: pending) parents)
    (suffix : e :: pending <:+ order) :
    ∃ m, (improve rank before parents e).value = parents.set e (some m) ∧
      Partial next before root rank found (parents.set e (some m)) ∧
      Underway order root found pending (parents.set e (some m)) ∧
      ∀ q, parents[e] = some q → q = m ∨ rank q < rank m := by
  obtain ⟨m, value, looked⟩ := exists_looked numbering state underway suffix
  refine ⟨m, value, looked.improved underway suffix, looked.underway underway suffix,
    fun q parent => ?_⟩
  by_cases same : q = m
  · exact Or.inl same
  · exact Or.inr (state.rank_lt_of_ne (looked.lifted parent) same)

/-! ### How far the parents have risen -/

def height (rank : Fin n → Nat) (parents : Parents n) (a : Fin n) : Nat :=
  match parents[a] with
  | none => 0
  | some b => rank b + 1

def weight (rank : Fin n → Nat) (parents : Parents n) : Nat :=
  ((List.finRange n).map (height rank parents)).sum

theorem weight_le (tree : Rooted rank root parents) : weight rank parents ≤ n * n := by
  refine sum_finRange_le fun a => ?_
  unfold height
  cases parent : parents[a] with
  | none => exact Nat.zero_le n
  | some b => exact tree.rank_lt b (tree.known_parent a b parent)

theorem weight_set_lt {m : Fin n} (changes : parents[e] ≠ some m)
    (raised : ∀ q, parents[e] = some q → q = m ∨ rank q < rank m) :
    weight rank parents < weight rank (parents.set e (some m)) := by
  have strict : height rank parents e < height rank (parents.set e (some m)) e := by
    unfold height
    rw [Table.getElem_set_self]
    cases parent : parents[e] with
    | none => exact Nat.succ_pos _
    | some q =>
      rcases raised q parent with same | lower
      · exact absurd (same ▸ parent) changes
      · exact Nat.succ_lt_succ lower
  refine sum_finRange_lt strict fun a other => ?_
  unfold height
  rw [Table.getElem_set_ne other]

/-! ### Passes -/

theorem set_eq_self {m : Fin n} (same : parents[e] = some m) :
    parents.set e (some m) = parents := by
  apply Table.ext
  intro a
  by_cases here : e = a
  · subst here
    rw [Table.getElem_set_self, same]
  · rw [Table.getElem_set_ne here]

theorem pass_cons (a : Fin n) (l : List (Fin n)) :
    (pass rank before (a :: l) parents).value =
      (pass rank before l (improve rank before parents a).value).value := by
  simp only [pass, Counted.value_foldlM, List.foldl_cons]

/-- A pass keeps what holds of the parents; it leaves them alone or raises some of them. -/
theorem pass_spec (numbering : Numbering next before root rank found order)
    (state : Partial next before root rank found parents)
    (underway : Underway order root found pending parents) (suffix : pending <:+ order) :
    Partial next before root rank found (pass rank before pending parents).value ∧
      Underway order root found [] (pass rank before pending parents).value ∧
      ((pass rank before pending parents).value = parents ∨
        weight rank parents < weight rank (pass rank before pending parents).value) := by
  unfold pass
  rw [Counted.value_foldlM]
  induction pending generalizing parents with
  | nil => exact ⟨state, underway, Or.inl rfl⟩
  | cons e pending ih =>
    obtain ⟨m, value, state', underway', raised⟩ := improve_spec numbering state underway suffix
    rw [List.foldl_cons, value]
    obtain ⟨finalState, finalUnderway, progress⟩ :=
      ih state' underway' ((List.suffix_cons e pending).trans suffix)
    refine ⟨finalState, finalUnderway, ?_⟩
    by_cases same : parents[e] = some m
    · rw [set_eq_self same] at progress ⊢
      exact progress
    · have risen := weight_set_lt same raised
      rcases progress with equal | higher
      · rw [equal]
        exact Or.inr risen
      · exact Or.inr (Nat.lt_trans risen higher)

/-- The passes come to an end before their number does. -/
theorem settle_spec (numbering : Numbering next before root rank found order)
    (state : Partial next before root rank found parents)
    (underway : Underway order root found order parents) {fuel : Nat}
    (enough : n * n < weight rank parents + fuel) :
    Partial next before root rank found (settle rank before order fuel parents).value ∧
      Underway order root found [] (settle rank before order fuel parents).value ∧
      (pass rank before order (settle rank before order fuel parents).value).value =
        (settle rank before order fuel parents).value := by
  induction fuel generalizing parents with
  | zero =>
    exact absurd enough (Nat.not_lt_of_le (weight_le state.toRooted))
  | succ fuel ih =>
    obtain ⟨state', underway', progress⟩ :=
      pass_spec numbering state underway (List.suffix_refl order)
    simp only [settle, Counted.value_bind]
    by_cases same : (pass rank before order parents).value = parents
    · rw [if_pos same]
      rw [same] at underway'
      exact ⟨state, underway', same⟩
    · rw [if_neg same]
      have risen := progress.resolve_left same
      exact ih state' underway'.again (by omega)

/-- If a pass changes nothing, looking at one index does not either. -/
theorem improve_eq_self (numbering : Numbering next before root rank found order)
    (state : Partial next before root rank found parents)
    (underway : Underway order root found pending parents) (suffix : pending <:+ order)
    (stable : (pass rank before pending parents).value = parents) :
    ∀ a ∈ pending, (improve rank before parents a).value = parents := by
  induction pending with
  | nil => simp
  | cons e pending ih =>
    obtain ⟨m, value, state', underway', raised⟩ := improve_spec numbering state underway suffix
    have suffix' := (List.suffix_cons e pending).trans suffix
    have progress := (pass_spec numbering state' underway' suffix').2.2
    rw [pass_cons, value] at stable
    rw [stable] at progress
    have same : parents[e] = some m := Classical.byContradiction fun changes => by
      have risen := weight_set_lt changes raised
      rcases progress with equal | higher
      · rw [← equal] at risen
        exact Nat.lt_irrefl _ risen
      · omega
    rw [set_eq_self same] at value stable underway'
    intro a member
    rcases List.mem_cons.1 member with rfl | member
    · exact value
    · exact ih underway' suffix' stable a member

/-- In the tree that the passes end in, what lies above an index is what dominates it. -/
theorem climb_iff_dominates (numbering : Numbering next before root rank found order)
    (state : Partial next before root rank found parents)
    (underway : Underway order root found [] parents)
    (stable : (pass rank before order parents).value = parents) {e d : Fin n}
    (reach : BitSet.Path next root e) :
    Climb parents e d ↔ Dominates next root d e := by
  have known : ∀ a, BitSet.Path next root a → parents[a].isSome = true := by
    intro a reach
    by_cases here : a = root
    · exact here ▸ state.known_root
    · exact underway.known a ((numbering.mem_order a).2 ⟨reach, here⟩) List.not_mem_nil
  refine ⟨fun climb trail => ?_, state.dominated e d (known e reach)⟩
  -- along a walk that misses `d`, no index has `d` above it
  have missed : ∀ a b, ¬ Climb parents a d → BitSet.Path next root a →
      Trail next (· ≠ d) a b → ¬ Climb parents b d := by
    intro a b start reach walk
    induction walk with
    | stay => exact start
    | @step a b c _ first rest ih =>
      refine ih (fun above => ?_) (reach.snoc first)
      have other : b ≠ d := rest.start
      have notRoot : b ≠ root := fun same => by
        subst same
        exact other (state.climb_root above).symm
      have inOrder := (numbering.mem_order b).2 ⟨reach.snoc first, notRoot⟩
      have still := improve_eq_self numbering state underway.again (List.suffix_refl order) stable b
        inOrder
      have inside := (numbering.opposite a b).1 first
      rcases state.nearest_spec (before b).toList with ⟨_, unknown⟩ | ⟨m, value, -, -, common, -⟩
      · have := known a reach
        rw [unknown a (BitSet.mem_toList.2 inside)] at this
        exact Bool.false_ne_true this
      · have parent : parents[b] = some m := by
          simp only [improve, Counted.value_bind, value, Counted.value_pure] at still
          rw [← still, Table.getElem_set_self]
        exact start ((common a (BitSet.mem_toList.2 inside) (known a reach)).trans
          (above.of_parent parent other))
  have other : root ≠ d := trail.start
  exact missed root e (fun above => other (state.climb_root above).symm) (.stay root) trail climb

end Pass
end DominatorTree
end WorkflowSoundness
