import WorkflowSoundness.Components
import WorkflowSoundness.BitSet.Reach

/-!
The state of a search for components. What is in no component yet is ordered by the numbers of the
search. Everything there that has been left hangs below something earlier, and its low link bounds
the low links on the way; so an edge whose low link is its own number has all that it leads to in
components or behind itself, and what is assigned without a group is on no cycle (`Holds.close`).
-/

namespace WorkflowSoundness.Components

open DepthFirst

variable {n : Nat} {next : Fin n → BitSet n}

/-- The search has not come back to `x` from its successor `s`, which is still to be looked at or is
the next inner frame. -/
def Awaits : Option (Fin n) → List (Frame n) → Fin n → Fin n → Prop
  | _, [], _, _ => False
  | inner, ⟨b, pending⟩ :: outer, x, s =>
    (x = b ∧ (s ∈ pending ∨ inner = some s)) ∨ Awaits (some b) outer x s

/-- What holds between two steps of the search. -/
structure Holds (next : Fin n → BitSet n) (frames : List (Frame n)) (seen : BitSet n)
    (progress : Progress n) : Prop where
  opened : ∀ b ∈ frames.map Frame.index, b ∈ progress.unassigned
  nested : (frames.map Frame.index).Pairwise fun x y => progress.index[y] < progress.index[x]
  ordered : progress.unassigned.Pairwise fun x y => progress.index[y] < progress.index[x]
  known : ∀ x ∈ progress.unassigned, x ∈ seen ∧ progress.index[x] < progress.entered
  low : ∀ x ∈ progress.unassigned, progress.lowLink[x] ≤ progress.index[x]
  bounded : ∀ x ∈ progress.unassigned,
    ∃ y ∈ progress.unassigned, progress.index[y] ≤ progress.lowLink[x]
  looked : ∀ x ∈ progress.unassigned, ∀ s ∈ next x, Awaits none frames x s ∨
    s ∈ seen ∧ (s ∈ progress.unassigned → progress.lowLink[x] ≤ progress.index[s])
  hung : ∀ x ∈ progress.unassigned, x ∉ frames.map Frame.index → ∃ p ∈ progress.unassigned,
    progress.index[p] < progress.index[x] ∧ progress.lowLink[p] ≤ progress.lowLink[x] ∧
      ∀ b ∈ frames.map Frame.index, progress.index[b] ≤ progress.index[x] →
        progress.index[b] ≤ progress.index[p]
  closed : ∀ x ∈ seen, x ∉ progress.unassigned → ∀ s ∈ next x, s ∈ seen ∧ s ∉ progress.unassigned
  settled : ∀ x ∈ seen, x ∉ progress.unassigned → x ∈ progress.groups.flatten ∨
    ∀ s ∈ next x, s ≠ x → ¬ BitSet.Path next s x

/-- Only open frames await something. -/
theorem Awaits.mem_frames {inner : Option (Fin n)} {frames : List (Frame n)} {x s : Fin n}
    (waits : Awaits inner frames x s) : x ∈ frames.map Frame.index := by
  induction frames generalizing inner with
  | nil => exact False.elim waits
  | cons frame outer ih =>
    rcases waits with ⟨rfl, -⟩ | waits
    · exact List.mem_cons_self
    · exact List.mem_cons_of_mem _ (ih waits)

/-- Once the innermost frame is gone, what is awaited is that frame or awaited by others. -/
theorem Awaits.without {a : Fin n} {frames : List (Frame n)} {x s : Fin n}
    (waits : Awaits (some a) frames x s) : s = a ∨ Awaits none frames x s := by
  cases frames with
  | nil => exact False.elim waits
  | cons frame outer =>
    rcases waits with ⟨rfl, later | child⟩ | waits
    · exact Or.inr (Or.inl ⟨rfl, Or.inl later⟩)
    · exact Or.inl (Option.some.inj child).symm
    · exact Or.inr (Or.inr waits)

theorem lowLink_lower_le (progress : Progress n) (b : Fin n) (bound : Nat) :
    (progress.lower b bound).lowLink[b] ≤ bound := by
  unfold Progress.lower
  rw [Table.getElem_set_self]
  exact Nat.min_le_right _ _

/-- The component that is closed with an edge: all that was entered since, and the edge. -/
def membersOf (progress : Progress n) (a : Fin n) : List (Fin n) :=
  progress.unassigned.takeWhile (· != a) ++ [a]

/-- Only a component of two or more is listed. -/
theorem groups_close (progress : Progress n) (a : Fin n) : (progress.close a).groups =
    if (membersOf progress a).length < 2 then progress.groups
    else progress.groups ++ [membersOf progress a] :=
  apply_ite Grouping.groups _ _ _

theorem mem_groups_close {progress : Progress n} {a x : Fin n}
    (listed : x ∈ progress.groups.flatten) : x ∈ (progress.close a).groups.flatten := by
  rw [groups_close]
  split
  · exact listed
  · rw [List.flatten_append]
    exact List.mem_append_left _ listed

theorem mem_of_groups_close {progress : Progress n} {a x : Fin n}
    (listed : x ∈ (progress.close a).groups.flatten) :
    x ∈ progress.groups.flatten ∨ x ∈ membersOf progress a := by
  rw [groups_close] at listed
  split at listed
  · exact Or.inl listed
  · rwa [List.flatten_append, List.flatten_singleton, List.mem_append] at listed

theorem index_enter_self (progress : Progress n) (s : Fin n) (parent : Option (Fin n)) :
    (progress.advance (.enter s parent)).index[s] = progress.entered :=
  Table.getElem_set_self _ _ _

theorem lowLink_enter_self (progress : Progress n) (s : Fin n) (parent : Option (Fin n)) :
    (progress.advance (.enter s parent)).lowLink[s] = progress.entered :=
  Table.getElem_set_self _ _ _

section Enter

variable {seen : BitSet n} {progress : Progress n} {s x : Fin n} (fresh : s ∉ seen)
  (parent : Option (Fin n)) (old : x ∈ seen)

include fresh old

/-- What has been seen keeps its number. -/
theorem index_enter_of_old :
    (progress.advance (.enter s parent)).index[x] = progress.index[x] :=
  Table.getElem_set_ne (fun here : s = x => fresh (here ▸ old)) _

/-- What has been seen keeps its low link. -/
theorem lowLink_enter_of_old :
    (progress.advance (.enter s parent)).lowLink[x] = progress.lowLink[x] :=
  Table.getElem_set_ne (fun here : s = x => fresh (here ▸ old)) _

end Enter

namespace Holds

variable {frames : List (Frame n)} {seen : BitSet n} {progress : Progress n}

theorem initial : Holds next [] ∅ (.initial n) where
  opened := fun _ member => (nomatch member)
  nested := .nil
  ordered := .nil
  known := fun _ member => (nomatch member)
  low := fun _ member => (nomatch member)
  bounded := fun _ member => (nomatch member)
  looked := fun _ member => (nomatch member)
  hung := fun _ member => (nomatch member)
  closed := fun x old => absurd old (BitSet.not_mem_empty x)
  settled := fun x old => absurd old (BitSet.not_mem_empty x)

variable (holds : Holds next frames seen progress)

include holds

/-- Everything in no component is behind an open frame. -/
theorem exists_frame {x : Fin n} (member : x ∈ progress.unassigned) :
    ∃ b ∈ frames.map Frame.index, progress.index[b] ≤ progress.index[x] := by
  induction rank : progress.index[x] using Nat.strongRecOn generalizing x with
  | ind k ih =>
    subst rank
    by_cases isOpen : x ∈ frames.map Frame.index
    · exact ⟨x, isOpen, Nat.le_refl _⟩
    · obtain ⟨p, inside, before, -⟩ := holds.hung x member isOpen
      obtain ⟨b, isFrame, low⟩ := ih _ before inside rfl
      exact ⟨b, isFrame, Nat.le_trans low (Nat.le_of_lt before)⟩

/-- What is in a component leads to nothing that is not. -/
theorem not_path {x y : Fin n} (old : x ∈ seen) (assigned : x ∉ progress.unassigned)
    (member : y ∈ progress.unassigned) : ¬ BitSet.Path next x y := by
  intro path
  induction path with
  | stay => exact assigned member
  | @step x t _ step _ ih =>
    obtain ⟨isOld, outside⟩ := holds.closed x old assigned t step
    exact ih isOld outside member

section Entering

variable {s x : Fin n} (fresh : s ∉ seen) (parent : Option (Fin n))

include fresh

theorem index_enter (member : x ∈ progress.unassigned) :
    (progress.advance (.enter s parent)).index[x] = progress.index[x] :=
  index_enter_of_old fresh parent (holds.known x member).1

theorem lowLink_enter (member : x ∈ progress.unassigned) :
    (progress.advance (.enter s parent)).lowLink[x] = progress.lowLink[x] :=
  lowLink_enter_of_old fresh parent (holds.known x member).1

/-- The new index has the highest number. -/
theorem index_enter_lt (member : x ∈ progress.unassigned) :
    (progress.advance (.enter s parent)).index[x] <
      (progress.advance (.enter s parent)).index[s] := by
  rw [holds.index_enter fresh parent member, index_enter_self]
  exact (holds.known x member).2

theorem known_enter (member : x ∈ s :: progress.unassigned) : x ∈ seen.insert s ∧
    (progress.advance (.enter s parent)).index[x] < progress.entered + 1 := by
  rcases List.mem_cons.1 member with rfl | member
  · exact ⟨BitSet.mem_insert.2 (Or.inl rfl),
      Nat.lt_succ_of_le (Nat.le_of_eq (index_enter_self progress x parent))⟩
  · rw [holds.index_enter fresh parent member]
    exact ⟨BitSet.mem_insert.2 (Or.inr (holds.known x member).1),
      Nat.lt_succ_of_lt (holds.known x member).2⟩

theorem bounded_enter (member : x ∈ s :: progress.unassigned) :
    ∃ y ∈ s :: progress.unassigned, (progress.advance (.enter s parent)).index[y] ≤
      (progress.advance (.enter s parent)).lowLink[x] := by
  rcases List.mem_cons.1 member with rfl | member
  · exact ⟨x, List.mem_cons_self, Nat.le_of_eq
      ((index_enter_self progress x parent).trans (lowLink_enter_self progress x parent).symm)⟩
  · obtain ⟨y, inside, bound⟩ := holds.bounded x member
    rw [holds.lowLink_enter fresh parent member]
    exact ⟨y, List.mem_cons_of_mem s inside, by rwa [holds.index_enter fresh parent inside]⟩

theorem looked_enter {inner : List (Frame n)} {t : Fin n}
    (awaits : ∀ x t, Awaits none frames x t → Awaits (some s) inner x t)
    (member : x ∈ s :: progress.unassigned) (step : t ∈ next x) :
    Awaits none (⟨s, (next s).toList⟩ :: inner) x t ∨ t ∈ seen.insert s ∧
      (t ∈ s :: progress.unassigned → (progress.advance (.enter s parent)).lowLink[x] ≤
        (progress.advance (.enter s parent)).index[t]) := by
  rcases List.mem_cons.1 member with rfl | member
  · exact Or.inl (Or.inl ⟨rfl, Or.inl (BitSet.mem_toList.2 step)⟩)
  rcases holds.looked x member t step with waits | ⟨old, bound⟩
  · exact Or.inl (Or.inr (awaits x t waits))
  · refine Or.inr ⟨BitSet.mem_insert.2 (Or.inr old), fun inside => ?_⟩
    rcases List.mem_cons.1 inside with rfl | inside
    · exact absurd old fresh
    · rw [holds.index_enter fresh parent inside, holds.lowLink_enter fresh parent member]
      exact bound inside

theorem hung_enter (member : x ∈ progress.unassigned) (notOpen : x ∉ frames.map Frame.index) :
    ∃ p ∈ s :: progress.unassigned,
      (progress.advance (.enter s parent)).index[p] <
        (progress.advance (.enter s parent)).index[x] ∧
      (progress.advance (.enter s parent)).lowLink[p] ≤
        (progress.advance (.enter s parent)).lowLink[x] ∧
      ∀ b ∈ s :: frames.map Frame.index, (progress.advance (.enter s parent)).index[b] ≤
          (progress.advance (.enter s parent)).index[x] →
        (progress.advance (.enter s parent)).index[b] ≤
          (progress.advance (.enter s parent)).index[p] := by
  obtain ⟨p, inside, before, bound, frame⟩ := holds.hung x member notOpen
  have higher := holds.index_enter_lt fresh parent member
  rw [holds.index_enter fresh parent member] at higher ⊢
  rw [holds.lowLink_enter fresh parent member]
  refine ⟨p, List.mem_cons_of_mem s inside, ?_, ?_, fun b isFrame earlier => ?_⟩
  · rwa [holds.index_enter fresh parent inside]
  · rwa [holds.lowLink_enter fresh parent inside]
  · rcases List.mem_cons.1 isFrame with rfl | isFrame
    · exact absurd higher (Nat.not_lt.2 earlier)
    · rw [holds.index_enter fresh parent (holds.opened b isFrame)] at earlier ⊢
      rw [holds.index_enter fresh parent inside]
      exact frame b isFrame earlier

/-- A new index becomes the innermost frame. -/
theorem enter {inner : List (Frame n)}
    (same : inner.map Frame.index = frames.map Frame.index)
    (awaits : ∀ x t, Awaits none frames x t → Awaits (some s) inner x t) :
    Holds next (⟨s, (next s).toList⟩ :: inner) (seen.insert s)
      (progress.advance (.enter s parent)) := by
  have opens : (⟨s, (next s).toList⟩ :: inner : List (Frame n)).map Frame.index =
      s :: frames.map Frame.index := congrArg (List.cons s) same
  have earlier : ∀ {x}, x ∈ seen.insert s → x ∉ s :: progress.unassigned →
      x ∈ seen ∧ x ∉ progress.unassigned := fun old assigned => by
    rw [List.mem_cons, not_or] at assigned
    exact ⟨(BitSet.mem_insert.1 old).resolve_left assigned.1, assigned.2⟩
  refine
    { opened := fun b isFrame => ?_
      nested := ?_
      ordered := ?_
      known := fun x => holds.known_enter fresh parent
      low := fun x member => ?_
      bounded := fun x => holds.bounded_enter fresh parent
      looked := fun x member t => holds.looked_enter fresh parent awaits member
      hung := fun x member notOpen => ?_
      closed := fun x old assigned t step => ?_
      settled := fun x old assigned =>
        holds.settled x (earlier old assigned).1 (earlier old assigned).2 }
  · rw [opens] at isFrame
    exact List.mem_cons.2 ((List.mem_cons.1 isFrame).imp_right (holds.opened b))
  · rw [opens]
    refine List.pairwise_cons.2
      ⟨fun b isFrame => holds.index_enter_lt fresh parent (holds.opened b isFrame), ?_⟩
    refine holds.nested.imp_of_mem fun {x y} isX isY => ?_
    rw [holds.index_enter fresh parent (holds.opened x isX),
      holds.index_enter fresh parent (holds.opened y isY)]
    exact id
  · refine List.pairwise_cons.2 ⟨fun x => holds.index_enter_lt fresh parent, ?_⟩
    refine holds.ordered.imp_of_mem fun {x y} isX isY => ?_
    rw [holds.index_enter fresh parent isX, holds.index_enter fresh parent isY]
    exact id
  · rcases List.mem_cons.1 member with rfl | member
    · exact Nat.le_of_eq
        ((lowLink_enter_self progress x parent).trans (index_enter_self progress x parent).symm)
    · rw [holds.index_enter fresh parent member, holds.lowLink_enter fresh parent member]
      exact holds.low x member
  · rw [opens] at notOpen ⊢
    rw [List.mem_cons, not_or] at notOpen
    exact holds.hung_enter fresh parent ((List.mem_cons.1 member).resolve_left notOpen.1) notOpen.2
  · obtain ⟨isOld, outside⟩ :=
      holds.closed x (earlier old assigned).1 (earlier old assigned).2 t step
    refine ⟨BitSet.mem_insert.2 (Or.inr isOld), fun inside => ?_⟩
    rcases List.mem_cons.1 inside with rfl | inside
    · exact fresh isOld
    · exact outside inside

end Entering

/-- The low link of an open frame may be lowered to the number of something in no component. -/
theorem lower {b : Fin n} (isFrame : b ∈ frames.map Frame.index) {bound : Nat}
    (known : ∃ y ∈ progress.unassigned, progress.index[y] ≤ bound) :
    Holds next frames seen (progress.lower b bound) := by
  have less : ∀ x : Fin n, (progress.lower b bound).lowLink[x] ≤ progress.lowLink[x] := by
    intro x
    unfold Progress.lower
    rw [Table.getElem_set]
    split
    · rename_i here
      exact here ▸ Nat.min_le_left _ _
    · exact Nat.le_refl _
  have same : ∀ x : Fin n, x ∉ frames.map Frame.index →
      (progress.lower b bound).lowLink[x] = progress.lowLink[x] := fun x notOpen =>
    Table.getElem_set_ne (fun here : b = x => notOpen (here ▸ isFrame)) _
  have either : ∀ x : Fin n, (progress.lower b bound).lowLink[x] = progress.lowLink[x] ∨
      (progress.lower b bound).lowLink[x] = bound := by
    intro x
    unfold Progress.lower
    rw [Table.getElem_set]
    split
    · rename_i here
      subst here
      exact (Nat.le_total _ _).imp Nat.min_eq_left Nat.min_eq_right
    · exact Or.inl rfl
  refine
    { holds with
      low := fun x member => Nat.le_trans (less x) (holds.low x member)
      bounded := fun x member => ?_
      looked := fun x member s step => (holds.looked x member s step).imp_right fun found =>
        ⟨found.1, fun inside => Nat.le_trans (less x) (found.2 inside)⟩
      hung := fun x member notOpen => ?_ }
  · rcases either x with kept | lowered
    · rw [kept]
      exact holds.bounded x member
    · rw [lowered]
      exact known
  · obtain ⟨p, inside, before, low, frame⟩ := holds.hung x member notOpen
    refine ⟨p, inside, before, ?_, frame⟩
    rw [same x notOpen]
    exact Nat.le_trans (less p) low

end Holds

namespace Holds

variable {a s : Fin n} {pending : List (Fin n)} {outer : List (Frame n)} {seen : BitSet n}
  {progress : Progress n}

/-- An innermost frame has looked at a successor that is not new. -/
theorem look (holds : Holds next (⟨a, s :: pending⟩ :: outer) seen progress) (old : s ∈ seen) :
    Holds next (⟨a, pending⟩ :: outer) seen (progress.advance (.look a s)) := by
  have skip : ∀ {after : Progress n}, Holds next (⟨a, s :: pending⟩ :: outer) seen after →
      (s ∈ after.unassigned → after.lowLink[a] ≤ after.index[s]) →
      Holds next (⟨a, pending⟩ :: outer) seen after := by
    intro after holds bound
    refine { holds with looked := fun x member t step => ?_ }
    rcases holds.looked x member t step with (⟨rfl, later | none⟩ | waits) | found
    · rcases List.mem_cons.1 later with rfl | later
      · exact Or.inr ⟨old, bound⟩
      · exact Or.inl (Or.inl ⟨rfl, Or.inl later⟩)
    · cases none
    · exact Or.inl (Or.inr waits)
    · exact Or.inr found
  unfold Progress.advance
  dsimp only
  split
  · rename_i inside
    have member := List.contains_iff_mem.1 inside
    exact skip (holds.lower List.mem_cons_self ⟨s, member, Nat.le_refl _⟩) fun _ =>
      lowLink_lower_le progress a _
  · rename_i outside
    exact skip holds fun member => absurd (List.contains_iff_mem.2 member) outside

/-- A frame that hangs below the next outer one is left. -/
theorem drop {p : Fin n} {later : List (Fin n)}
    (holds : Holds next (⟨a, []⟩ :: ⟨p, later⟩ :: outer) seen progress)
    (bound : progress.lowLink[p] ≤ progress.lowLink[a]) :
    Holds next (⟨p, later⟩ :: outer) seen progress := by
  have isOpen := holds.opened a List.mem_cons_self
  obtain ⟨above, nested⟩ := List.pairwise_cons.1 holds.nested
  refine
    { holds with
      opened := fun b isFrame => holds.opened b (List.mem_cons_of_mem a isFrame)
      nested := nested
      looked := fun x member t step => ?_
      hung := fun x member notOpen => ?_ }
  · rcases holds.looked x member t step with
      (⟨-, none | none⟩ | ⟨rfl, waits | child⟩ | waits) | found
    · cases none
    · cases none
    · exact Or.inl (Or.inl ⟨rfl, Or.inl waits⟩)
    · obtain rfl := Option.some.inj child
      exact Or.inr ⟨(holds.known a isOpen).1, fun _ => Nat.le_trans bound (holds.low a isOpen)⟩
    · exact Or.inl (Or.inr waits)
    · exact Or.inr found
  · by_cases here : x = a
    · subst here
      refine ⟨p, holds.opened p (List.mem_cons_of_mem x List.mem_cons_self),
        above p List.mem_cons_self, bound, fun b isFrame _ => ?_⟩
      rcases List.mem_cons.1 isFrame with rfl | isFrame
      · exact Nat.le_refl _
      · exact Nat.le_of_lt ((List.pairwise_cons.1 nested).1 b isFrame)
    · obtain ⟨q, inside, before, low, frame⟩ := holds.hung x member fun isFrame =>
        (List.mem_cons.1 isFrame).elim here notOpen
      exact ⟨q, inside, before, low, fun b isFrame => frame b (List.mem_cons_of_mem a isFrame)⟩

/-- What has been entered since an edge whose low link is its number. -/
theorem mem_close (holds : Holds next (⟨a, []⟩ :: outer) seen progress) {x : Fin n} :
    (x ∈ (progress.close a).unassigned ↔
      x ∈ progress.unassigned ∧ progress.index[x] < progress.index[a]) ∧
    (x ∈ membersOf progress a ↔
      x ∈ progress.unassigned ∧ progress.index[a] ≤ progress.index[x]) := by
  obtain ⟨before, after, split⟩ := List.append_of_mem (holds.opened a List.mem_cons_self)
  have ordered := holds.ordered
  rw [split] at ordered
  obtain ⟨-, right, across⟩ := List.pairwise_append.1 ordered
  have earlier := (List.pairwise_cons.1 right).1
  have later : ∀ y ∈ before, progress.index[a] < progress.index[y] := fun y inside =>
    across y inside a List.mem_cons_self
  have passes : ∀ y ∈ before, (y != a) = true := fun y inside =>
    bne_iff_ne.2 fun here => Nat.lt_irrefl _ (here ▸ later y inside)
  have rest : (progress.close a).unassigned = after := by
    unfold Progress.close
    rw [split, List.dropWhile_append_of_pos passes]
    simp
  have taken : membersOf progress a = before ++ [a] := by
    rw [membersOf, split, List.takeWhile_append_of_pos passes]
    simp
  rw [rest, taken, split]
  constructor
  · constructor
    · exact fun inside =>
        ⟨List.mem_append_right _ (List.mem_cons_of_mem a inside), earlier x inside⟩
    · rintro ⟨inside, below⟩
      rcases List.mem_append.1 inside with inside | inside
      · exact absurd (later x inside) (Nat.lt_asymm below)
      · exact (List.mem_cons.1 inside).resolve_left fun here => Nat.lt_irrefl _ (here ▸ below)
  · rw [List.mem_append, List.mem_append, List.mem_singleton, List.mem_cons]
    constructor
    · rintro (inside | rfl)
      · exact ⟨Or.inl inside, Nat.le_of_lt (later x inside)⟩
      · exact ⟨Or.inr (Or.inl rfl), Nat.le_refl _⟩
    · rintro ⟨inside | here | inside, above⟩
      · exact Or.inl inside
      · exact Or.inr here
      · exact absurd (earlier x inside) (Nat.not_lt.2 above)

/-- Closing a component leaves what has a lower number. -/
theorem mem_unassigned_close (holds : Holds next (⟨a, []⟩ :: outer) seen progress) {x : Fin n} :
    x ∈ (progress.close a).unassigned ↔
      x ∈ progress.unassigned ∧ progress.index[x] < progress.index[a] :=
  holds.mem_close.1

/-- A component is what has been entered since its first element and is in no other one. -/
theorem mem_membersOf (holds : Holds next (⟨a, []⟩ :: outer) seen progress) {x : Fin n} :
    x ∈ membersOf progress a ↔
      x ∈ progress.unassigned ∧ progress.index[a] ≤ progress.index[x] :=
  holds.mem_close.2

section Closing

variable (holds : Holds next (⟨a, []⟩ :: outer) seen progress)
  (root : progress.lowLink[a] = progress.index[a])

include holds root

/-- What has been entered since leads nowhere before, except into components. -/
theorem stays {x t : Fin n} (member : x ∈ progress.unassigned)
    (since : progress.index[a] ≤ progress.index[x]) (step : t ∈ next x) :
    t ∈ seen ∧ (t ∈ progress.unassigned → progress.index[a] ≤ progress.index[t]) := by
  have above := (List.pairwise_cons.1 holds.nested).1
  have low : progress.index[a] ≤ progress.lowLink[x] := by
    clear step
    induction rank : progress.index[x] using Nat.strongRecOn generalizing x with
    | ind k ih =>
      subst rank
      by_cases isOpen : x ∈ (⟨a, []⟩ :: outer : List (Frame n)).map Frame.index
      · rcases List.mem_cons.1 isOpen with rfl | isOuter
        · exact Nat.le_of_eq root.symm
        · exact absurd (above x isOuter) (Nat.not_lt.2 since)
      · obtain ⟨p, inside, before, low, frame⟩ := holds.hung x member isOpen
        exact Nat.le_trans (ih _ before inside (frame a List.mem_cons_self since) rfl) low
  rcases holds.looked x member t step with (⟨-, none | none⟩ | waits) | ⟨old, bound⟩
  · cases none
  · cases none
  · exact absurd (above x waits.mem_frames) (Nat.not_lt.2 since)
  · exact ⟨old, fun inside => Nat.le_trans low (bound inside)⟩

/-- What is in the component that is closed is listed with it, or is alone in it and on no cycle. -/
theorem settled_close {x : Fin n} (member : x ∈ progress.unassigned)
    (since : progress.index[a] ≤ progress.index[x]) : x ∈ (progress.close a).groups.flatten ∨
      ∀ s ∈ next x, s ≠ x → ¬ BitSet.Path next s x := by
  have inside := holds.mem_membersOf.2 ⟨member, since⟩
  rw [groups_close]
  split
  · rename_i short
    have alone : membersOf progress a = [a] := by
      unfold membersOf at short ⊢
      rw [List.length_append] at short
      have none := Nat.lt_one_iff.1 (Nat.lt_of_succ_lt_succ short)
      rw [List.length_eq_zero_iff.1 none, List.nil_append]
    rw [alone, List.mem_singleton] at inside
    subst inside
    refine Or.inr fun t step other path => ?_
    obtain ⟨isOld, bound⟩ := holds.stays root member (Nat.le_refl _) step
    have notKnown : t ∉ progress.unassigned := fun isKnown => other (by
      have same := holds.mem_membersOf.2 ⟨isKnown, bound isKnown⟩
      rwa [alone, List.mem_singleton] at same)
    exact holds.not_path isOld notKnown member path
  · rw [List.flatten_append]
    refine Or.inl (List.mem_append_right _ ?_)
    rwa [List.flatten_singleton]

/-- A component is closed as a whole: what it leads to is in it, or in one closed before. -/
theorem close : Holds next outer seen (progress.close a) := by
  have isOpen := holds.opened a List.mem_cons_self
  obtain ⟨above, nested⟩ := List.pairwise_cons.1 holds.nested
  have isOuter : ∀ b ∈ outer.map Frame.index, b ∈ progress.unassigned := fun b isFrame =>
    holds.opened b (List.mem_cons_of_mem a isFrame)
  have kept : ∀ x, x ∈ (progress.close a).unassigned ↔
      x ∈ progress.unassigned ∧ progress.index[x] < progress.index[a] := fun _ =>
    holds.mem_unassigned_close
  have sublist : (progress.close a).unassigned.Sublist progress.unassigned :=
    (List.drop_sublist _ _).trans (List.dropWhile_sublist _)
  -- An assigned edge was so before, or belongs to the component that is closed.
  have assigned : ∀ x ∈ seen, x ∉ (progress.close a).unassigned → x ∉ progress.unassigned ∨
      x ∈ progress.unassigned ∧ progress.index[a] ≤ progress.index[x] := fun x _ outside => by
    by_cases member : x ∈ progress.unassigned
    · exact Or.inr ⟨member, Nat.not_lt.1 fun below => outside ((kept x).2 ⟨member, below⟩)⟩
    · exact Or.inl member
  refine
    { opened := fun b isFrame => (kept b).2 ⟨isOuter b isFrame, above b isFrame⟩
      nested := nested
      ordered := holds.ordered.sublist sublist
      known := fun x member => holds.known x ((kept x).1 member).1
      low := fun x member => holds.low x ((kept x).1 member).1
      bounded := fun x member => ?_
      looked := fun x member t step => ?_
      hung := fun x member notOpen => ?_
      closed := fun x old outside t step => ?_
      settled := fun x old outside => ?_ }
  · obtain ⟨inside, below⟩ := (kept x).1 member
    obtain ⟨y, isKnown, bound⟩ := holds.bounded x inside
    have order := Nat.le_trans bound (holds.low x inside)
    exact ⟨y, (kept y).2 ⟨isKnown, Nat.lt_of_le_of_lt order below⟩, bound⟩
  · obtain ⟨inside, below⟩ := (kept x).1 member
    rcases holds.looked x inside t step with (⟨rfl, -⟩ | waits) | ⟨old, bound⟩
    · exact absurd below (Nat.lt_irrefl _)
    · rcases waits.without with rfl | waits
      · exact Or.inr ⟨(holds.known t isOpen).1, fun again =>
          absurd ((kept t).1 again).2 (Nat.lt_irrefl _)⟩
      · exact Or.inl waits
    · exact Or.inr ⟨old, fun again => bound ((kept t).1 again).1⟩
  · obtain ⟨inside, below⟩ := (kept x).1 member
    obtain ⟨p, isKnown, before, low, frame⟩ := holds.hung x inside fun isFrame =>
      (List.mem_cons.1 isFrame).elim (fun here => Nat.lt_irrefl _ (here ▸ below)) notOpen
    exact ⟨p, (kept p).2 ⟨isKnown, Nat.lt_trans before below⟩, before, low, fun b isFrame =>
      frame b (List.mem_cons_of_mem a isFrame)⟩
  · rcases assigned x old outside with before | ⟨member, since⟩
    · obtain ⟨isOld, notKnown⟩ := holds.closed x old before t step
      exact ⟨isOld, fun again => notKnown ((kept t).1 again).1⟩
    · obtain ⟨isOld, bound⟩ := holds.stays root member since step
      refine ⟨isOld, fun again => ?_⟩
      obtain ⟨isKnown, below⟩ := (kept t).1 again
      exact Nat.not_lt.2 (bound isKnown) below
  · rcases assigned x old outside with before | ⟨member, since⟩
    · exact (holds.settled x old before).imp_left mem_groups_close
    · exact holds.settled_close root member since

end Closing

end Holds

end WorkflowSoundness.Components
