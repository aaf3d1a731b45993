import WorkflowSoundness.Proofs.Closing
import WorkflowSoundness.Proofs.Cycles

/-!
The components are the strongly connected ones. Between two steps of the search an open frame leads
to all that has been entered since and is in no component yet, and what has been left there leads
back to something entered earlier (`Linked`). So what a component is closed with leads to each other
and, as all else it leads to has been assigned before, to no later component (`Grouped`).
-/

namespace WorkflowSoundness

/-- A path to somewhere else leaves its start at some point. -/
theorem BitSet.Path.exists_step {n : Nat} {next : Fin n → BitSet n} {a b : Fin n}
    (path : BitSet.Path next a b) (other : a ≠ b) :
    ∃ s ∈ next a, s ≠ a ∧ BitSet.Path next s b := by
  induction path with
  | stay => exact absurd rfl other
  | @step a s b first rest ih =>
    by_cases here : s = a
    · subst here
      exact ih other
    · exact ⟨s, first, here, rest⟩

namespace DepthFirst

variable {n : Nat} {σ : Type} {next : Fin n → BitSet n} {advance : σ → Step n → σ}

/-- What holds between two steps of a search, of the open frames, of what has been seen and of the
state that an analysis keeps. -/
structure Invariant (next : Fin n → BitSet n) (advance : σ → Step n → σ)
    (holds : List (Frame n) → BitSet n → σ → Prop) : Prop where
  start : ∀ {seen state root}, holds [] seen state → root ∉ seen →
    holds [⟨root, (next root).toList⟩] (seen.insert root) (advance state (.enter root none))
  enter : ∀ {a s pending outer seen state}, holds (⟨a, s :: pending⟩ :: outer) seen state →
    s ∉ seen → holds (⟨s, (next s).toList⟩ :: ⟨a, pending⟩ :: outer) (seen.insert s)
      (advance state (.enter s (some a)))
  look : ∀ {a s pending outer seen state}, holds (⟨a, s :: pending⟩ :: outer) seen state →
    s ∈ seen → holds (⟨a, pending⟩ :: outer) seen (advance state (.look a s))
  leave : ∀ {a outer seen state}, holds (⟨a, []⟩ :: outer) seen state →
    holds outer seen (advance state (.leave a (outer.head?.map Frame.index)))

/-- A whole search leaves nothing open, and has been at all its roots. -/
theorem Invariant.run {holds : List (Frame n) → BitSet n → σ → Prop}
    (invariant : Invariant next advance holds) {frames : List (Frame n)} {seen : BitSet n}
    {state : σ} (start : holds frames seen state) (roots : List (Fin n)) :
    ∃ final, holds [] final ((stepsFrom next roots frames seen).foldl advance state) ∧
      (∀ x ∈ seen, x ∈ final) ∧ ∀ r ∈ roots, r ∈ final := by
  fun_induction stepsFrom next roots frames seen generalizing state with
  | case1 seen => exact ⟨seen, start, fun _ => id, List.forall_mem_nil _⟩
  | case2 seen root later old ih =>
    obtain ⟨final, done, grown, all⟩ := ih start
    exact ⟨final, done, grown, List.forall_mem_cons.2 ⟨grown root old, all⟩⟩
  | case3 seen root later fresh ih =>
    obtain ⟨final, done, grown, all⟩ := ih (invariant.start start fresh)
    exact ⟨final, done, fun x old => grown x (BitSet.mem_insert.2 (Or.inr old)),
      List.forall_mem_cons.2 ⟨grown root (BitSet.mem_insert.2 (Or.inl rfl)), all⟩⟩
  | case4 roots seen a outer ih => exact ih (invariant.leave start)
  | case5 roots seen a s pending outer old ih => exact ih (invariant.look start old)
  | case6 roots seen a s pending outer fresh ih =>
    obtain ⟨final, done, grown, all⟩ := ih (invariant.enter start fresh)
    exact ⟨final, done, fun x old => grown x (BitSet.mem_insert.2 (Or.inr old)), all⟩

end DepthFirst

namespace Components

open DepthFirst

variable {n : Nat} {next : Fin n → BitSet n} {groups : List (List (Fin n))}

/-- The groups are strongly connected, and none leads to a later one. -/
structure Grouped (next : Fin n → BitSet n) (groups : List (List (Fin n))) : Prop where
  once : ∀ group ∈ groups, group.Nodup
  several : ∀ group ∈ groups, 2 ≤ group.length
  connected : ∀ group ∈ groups, ∀ x ∈ group, ∀ y ∈ group, BitSet.Path next x y
  sorted : groups.Pairwise fun earlier later =>
    ∀ x ∈ earlier, ∀ y ∈ later, ¬ BitSet.Path next x y

/-- A strongly connected list behind the groups, to which none of them leads. -/
theorem Grouped.append (grouped : Grouped next groups) {group : List (Fin n)} (whole : group.Nodup)
    (several : 2 ≤ group.length) (connected : ∀ x ∈ group, ∀ y ∈ group, BitSet.Path next x y)
    (apart : ∀ x ∈ groups.flatten, ∀ y ∈ group, ¬ BitSet.Path next x y) :
    Grouped next (groups ++ [group]) where
  once := List.forall_mem_append.2 ⟨grouped.once, List.forall_mem_singleton.2 whole⟩
  several := List.forall_mem_append.2 ⟨grouped.several, List.forall_mem_singleton.2 several⟩
  connected := List.forall_mem_append.2 ⟨grouped.connected, List.forall_mem_singleton.2 connected⟩
  sorted := List.pairwise_append.2 ⟨grouped.sorted, List.pairwise_singleton _ _,
    fun _ isGroup _ last x isX y isY =>
      apart x (List.mem_flatten_of_mem isGroup isX) y (List.mem_singleton.1 last ▸ isY)⟩

/-- Entering a number for some indices changes the table at these only. -/
theorem foldl_set {α : Type} {members : List (Fin n)} {table : Table α n} {a : α} {x : Fin n} :
    (x ∈ members → (members.foldl (fun table b => table.set b a) table)[x] = a) ∧
      (x ∉ members → (members.foldl (fun table b => table.set b a) table)[x] = table[x]) := by
  induction members generalizing table with
  | nil => exact ⟨fun member => absurd member List.not_mem_nil, fun _ => rfl⟩
  | cons b members ih =>
    rw [List.foldl_cons, List.mem_cons]
    refine ⟨fun member => ?_, fun absent => ?_⟩
    · by_cases later : x ∈ members
      · exact ih.1 later
      · rw [ih.2 later, member.resolve_right later, Table.getElem_set_self]
    · rw [ih.2 fun later => absent (Or.inr later),
        Table.getElem_set_ne fun here => absent (Or.inl here.symm)]

theorem mem_getElem_append {group : List (Fin n)} {k : Nat} {x : Fin n} :
    (∃ inside : k < (groups ++ [group]).length, x ∈ (groups ++ [group])[k]) ↔
      (∃ inside : k < groups.length, x ∈ groups[k]) ∨ k = groups.length ∧ x ∈ group := by
  constructor
  · rintro ⟨inside, listed⟩
    rw [List.getElem_append] at listed
    split at listed
    · exact Or.inl ⟨_, listed⟩
    · rw [List.getElem_singleton] at listed
      rw [List.length_append, List.length_singleton] at inside
      exact Or.inr ⟨by omega, listed⟩
  · rintro (⟨inside, listed⟩ | ⟨rfl, listed⟩)
    · refine ⟨by rw [List.length_append]; omega, ?_⟩
      rwa [List.getElem_append_left inside]
    · exact ⟨by simp, by simpa using listed⟩

/-- The tables say of each element what the list of the components says. -/
structure Agrees (grouping : Grouping n) : Prop where
  component : ∀ x k, grouping.component[x] = some k ↔
    ∃ inside : k < grouping.groups.length, x ∈ grouping.groups[k]
  cyclic : ∀ x, x ∈ grouping.cyclic ↔ x ∈ grouping.groups.flatten

theorem Agrees.none : Agrees (.none n) where
  component x k := by simp [Grouping.none]
  cyclic x := iff_of_false (BitSet.not_mem_empty x) List.not_mem_nil

/-- No element of the next component may have a number yet, as the table keeps the last one. -/
theorem Agrees.add {grouping : Grouping n} (agrees : Agrees grouping) {members : List (Fin n)}
    (apart : ∀ x ∈ members, x ∉ grouping.groups.flatten) : Agrees (grouping.add members) where
  component x k := by
    refine Iff.trans ?_ mem_getElem_append.symm
    by_cases member : x ∈ members
    · have number : (grouping.add members).component[x] = some grouping.groups.length :=
        foldl_set.1 member
      rw [number, Option.some.injEq, and_iff_left member, eq_comm]
      refine (or_iff_right ?_).symm
      rintro ⟨inside, listed⟩
      exact apart x member (List.mem_flatten_of_mem (List.getElem_mem inside) listed)
    · have kept : (grouping.add members).component[x] = grouping.component[x] :=
        foldl_set.2 member
      rw [kept, agrees.component, or_iff_left fun last => member last.2]
  cyclic x := by
    rw [Grouping.add, BitSet.mem_foldl_insert, agrees.cyclic, List.flatten_append,
      List.mem_append, List.flatten_singleton]

theorem Holds.nodup_membersOf {frames : List (DepthFirst.Frame n)} {seen : BitSet n}
    {progress : Progress n} (holds : Holds next frames seen progress) (a : Fin n) :
    (membersOf progress a).Nodup := by
  have once : progress.unassigned.Nodup := holds.ordered.imp fun {x y} less => by
    rintro rfl
    exact Nat.lt_irrefl _ less
  refine List.nodup_append.2 ⟨once.sublist (List.takeWhile_sublist _), List.pairwise_singleton _ a,
    fun x taken y last same => ?_⟩
  have other := List.all_eq_true.1 List.all_takeWhile x taken
  rw [same, List.mem_singleton.1 last, bne_self_eq_false] at other
  cases other

/-- What has been entered leads on from the open frames and back to them. -/
structure Linked (next : Fin n → BitSet n) (frames : List (DepthFirst.Frame n)) (seen : BitSet n)
    (progress : Progress n) : Prop extends Holds next frames seen progress where
  pending : ∀ frame ∈ frames, ∀ s ∈ frame.pending, s ∈ next frame.index
  onward : ∀ b ∈ frames.map DepthFirst.Frame.index, ∀ x ∈ progress.unassigned,
    progress.index[b] ≤ progress.index[x] → BitSet.Path next b x
  lowered : ∀ x ∈ progress.unassigned,
    ∃ y ∈ progress.unassigned, progress.index[y] ≤ progress.lowLink[x] ∧ BitSet.Path next x y
  back : ∀ x ∈ progress.unassigned, x ∉ frames.map DepthFirst.Frame.index →
    ∃ y ∈ progress.unassigned, progress.index[y] < progress.index[x] ∧ BitSet.Path next x y
  assigned : ∀ x ∈ progress.groups.flatten, x ∈ seen ∧ x ∉ progress.unassigned
  grouped : Grouped next progress.groups
  agrees : Agrees progress.toGrouping

namespace Linked

theorem initial : Linked next [] ∅ (.initial n) where
  toHolds := .initial
  pending := fun _ member => (nomatch member)
  onward := fun _ member => (nomatch member)
  lowered := fun _ member => (nomatch member)
  back := fun _ member => (nomatch member)
  assigned := fun _ member => (nomatch member)
  grouped := ⟨fun _ member => (nomatch member), fun _ member => (nomatch member),
    fun _ member => (nomatch member), .nil⟩
  agrees := .none

section Frames

variable {frames : List (DepthFirst.Frame n)} {seen : BitSet n} {progress : Progress n}
  (linked : Linked next frames seen progress)

include linked

/-- A new index that all open frames lead to becomes the innermost frame. -/
theorem enter {s : Fin n} (fresh : s ∉ seen) (parent : Option (Fin n))
    {inner : List (DepthFirst.Frame n)}
    (same : inner.map DepthFirst.Frame.index = frames.map DepthFirst.Frame.index)
    (awaits : ∀ x t, Awaits none frames x t → Awaits (some s) inner x t)
    (within : ∀ frame ∈ inner, ∀ t ∈ frame.pending, t ∈ next frame.index)
    (leads : ∀ b ∈ frames.map DepthFirst.Frame.index, BitSet.Path next b s) :
    Linked next (⟨s, (next s).toList⟩ :: inner) (seen.insert s)
      (progress.advance (.enter s parent)) := by
  have opens : (⟨s, (next s).toList⟩ :: inner : List (DepthFirst.Frame n)).map
      DepthFirst.Frame.index = s :: frames.map DepthFirst.Frame.index :=
    congrArg (List.cons s) same
  refine
    { linked.toHolds.enter fresh parent same awaits with
      pending := fun frame member t later => ?_
      onward := fun b isFrame x member since => ?_
      lowered := fun x member => ?_
      back := fun x member notOpen => ?_
      assigned := fun x listed => ?_
      grouped := linked.grouped
      agrees := linked.agrees }
  · rcases List.mem_cons.1 member with rfl | member
    · exact BitSet.mem_toList.1 later
    · exact within frame member t later
  · rw [opens] at isFrame
    rcases List.mem_cons.1 member with rfl | inside
    · rcases List.mem_cons.1 isFrame with rfl | isFrame
      · exact .stay b
      · exact leads b isFrame
    · have lower := linked.index_enter_lt fresh parent inside
      rcases List.mem_cons.1 isFrame with rfl | isFrame
      -- nothing has been entered since the new frame
      · exact absurd since (Nat.not_le.2 lower)
      · rw [linked.index_enter fresh parent inside,
          linked.index_enter fresh parent (linked.opened b isFrame)] at since
        exact linked.onward b isFrame x inside since
  · rcases List.mem_cons.1 member with rfl | inside
    · refine ⟨x, List.mem_cons_self, Nat.le_of_eq ?_, .stay x⟩
      exact (index_enter_self progress x parent).trans (lowLink_enter_self progress x parent).symm
    · obtain ⟨y, isKnown, bound, path⟩ := linked.lowered x inside
      refine ⟨y, List.mem_cons_of_mem s isKnown, ?_, path⟩
      rwa [linked.index_enter fresh parent isKnown, linked.lowLink_enter fresh parent inside]
  · rw [opens, List.mem_cons, not_or] at notOpen
    have inside := (List.mem_cons.1 member).resolve_left notOpen.1
    obtain ⟨y, isKnown, before, path⟩ := linked.back x inside notOpen.2
    refine ⟨y, List.mem_cons_of_mem s isKnown, ?_, path⟩
    rwa [linked.index_enter fresh parent isKnown, linked.index_enter fresh parent inside]
  · obtain ⟨old, outside⟩ := linked.assigned x listed
    refine ⟨BitSet.mem_insert.2 (Or.inr old), fun inside => ?_⟩
    rcases List.mem_cons.1 inside with rfl | inside
    · exact fresh old
    · exact outside inside

/-- The low link of an open frame may be lowered to the number of something it leads to. -/
theorem lower {b : Fin n} (isFrame : b ∈ frames.map DepthFirst.Frame.index) {bound : Nat}
    (known : ∃ y ∈ progress.unassigned, progress.index[y] ≤ bound ∧ BitSet.Path next b y) :
    Linked next frames seen (progress.lower b bound) := by
  obtain ⟨y, isKnown, low, path⟩ := known
  refine
    { linked with
      toHolds := linked.toHolds.lower isFrame ⟨y, isKnown, low⟩
      lowered := fun x member => ?_ }
  unfold Progress.lower
  dsimp only
  rw [Table.getElem_set]
  split
  · rename_i here
    subst here
    rcases Nat.le_total progress.lowLink[b] bound with less | less
    · rw [Nat.min_eq_left less]
      exact linked.lowered b member
    · rw [Nat.min_eq_right less]
      exact ⟨y, isKnown, low, path⟩
  · exact linked.lowered x member

end Frames

section Steps

variable {a s : Fin n} {pending : List (Fin n)} {outer : List (DepthFirst.Frame n)}
  {seen : BitSet n} {progress : Progress n}

/-- All open frames lead to the innermost one. -/
theorem path_of_frame (linked : Linked next (⟨a, pending⟩ :: outer) seen progress) {x : Fin n}
    (isFrame : x ∈ (⟨a, pending⟩ :: outer : List (DepthFirst.Frame n)).map
      DepthFirst.Frame.index) :
    BitSet.Path next x a := by
  apply linked.onward x isFrame a (linked.opened a List.mem_cons_self)
  rcases List.mem_cons.1 isFrame with rfl | isOuter
  · exact Nat.le_refl _
  · exact Nat.le_of_lt ((List.pairwise_cons.1 linked.nested).1 x isOuter)

/-- All open frames lead to what the innermost one has still to look at. -/
theorem leads (linked : Linked next (⟨a, s :: pending⟩ :: outer) seen progress) :
    ∀ b ∈ (⟨a, s :: pending⟩ :: outer : List (DepthFirst.Frame n)).map DepthFirst.Frame.index,
      BitSet.Path next b s := by
  intro b isFrame
  exact (linked.path_of_frame isFrame).snoc
    (linked.pending _ List.mem_cons_self s List.mem_cons_self)

/-- An innermost frame has looked at a successor that is not new. -/
theorem look (linked : Linked next (⟨a, s :: pending⟩ :: outer) seen progress) (old : s ∈ seen) :
    Linked next (⟨a, pending⟩ :: outer) seen (progress.advance (.look a s)) := by
  have skip : ∀ {after : Progress n}, Linked next (⟨a, s :: pending⟩ :: outer) seen after →
      Holds next (⟨a, pending⟩ :: outer) seen after →
      Linked next (⟨a, pending⟩ :: outer) seen after := by
    intro after linked holds
    refine { linked with toHolds := holds, pending := fun frame member t later => ?_ }
    rcases List.mem_cons.1 member with rfl | member
    · exact linked.pending _ List.mem_cons_self t (List.mem_cons_of_mem s later)
    · exact linked.pending frame (List.mem_cons_of_mem _ member) t later
  refine skip ?_ (linked.toHolds.look old)
  unfold Progress.advance
  dsimp only
  split
  · rename_i inside
    refine linked.lower List.mem_cons_self ⟨s, List.contains_iff_mem.1 inside, Nat.le_refl _, ?_⟩
    exact linked.leads a List.mem_cons_self
  · exact linked

/-- A frame that leads back is left. -/
theorem drop {p : Fin n} {later : List (Fin n)}
    (linked : Linked next (⟨a, []⟩ :: ⟨p, later⟩ :: outer) seen progress)
    (bound : progress.lowLink[p] ≤ progress.lowLink[a])
    (notRoot : progress.lowLink[a] ≠ progress.index[a]) :
    Linked next (⟨p, later⟩ :: outer) seen progress := by
  have isOpen := linked.opened a List.mem_cons_self
  refine
    { linked with
      toHolds := linked.toHolds.drop bound
      pending := fun frame member => linked.pending frame (List.mem_cons_of_mem _ member)
      onward := fun b isFrame => linked.onward b (List.mem_cons_of_mem a isFrame)
      back := fun x member notOpen => ?_ }
  by_cases here : x = a
  · subst here
    obtain ⟨y, isKnown, low, path⟩ := linked.lowered x member
    have less := Nat.lt_of_le_of_ne (linked.low x member) notRoot
    exact ⟨y, isKnown, Nat.lt_of_le_of_lt low less, path⟩
  · exact linked.back x member fun isFrame => (List.mem_cons.1 isFrame).elim here notOpen

section Closing

variable (linked : Linked next (⟨a, []⟩ :: outer) seen progress)
  (root : progress.lowLink[a] = progress.index[a])

include linked root

/-- What has been entered since leads nowhere before. -/
theorem since_of_path {x y : Fin n} (path : BitSet.Path next x y)
    (member : x ∈ progress.unassigned) (since : progress.index[a] ≤ progress.index[x])
    (inside : y ∈ progress.unassigned) : progress.index[a] ≤ progress.index[y] := by
  induction path with
  | stay => exact since
  | @step x t y step rest ih =>
    obtain ⟨old, bound⟩ := linked.stays root member since step
    by_cases isKnown : t ∈ progress.unassigned
    · exact ih isKnown (bound isKnown) inside
    · exact absurd rest (linked.not_path old isKnown inside)

/-- What has been entered since leads back to the edge whose low link is its number. -/
theorem path_to_root {x : Fin n} (member : x ∈ progress.unassigned)
    (since : progress.index[a] ≤ progress.index[x]) : BitSet.Path next x a := by
  induction rank : progress.index[x] using Nat.strongRecOn generalizing x with
  | ind k ih =>
    subst rank
    by_cases here : x = a
    · exact here ▸ .stay x
    · have notOpen : x ∉ (⟨a, []⟩ :: outer : List (DepthFirst.Frame n)).map
          DepthFirst.Frame.index := by
        intro isFrame
        have isOuter := (List.mem_cons.1 isFrame).resolve_left here
        exact absurd ((List.pairwise_cons.1 linked.nested).1 x isOuter) (Nat.not_lt.2 since)
      obtain ⟨y, inside, before, path⟩ := linked.back x member notOpen
      have later := linked.since_of_path root path member since inside
      exact path.trans (ih _ before inside later rfl)

theorem grouped_close : Grouped next (progress.close a).groups := by
  have holds := linked.toHolds
  rw [groups_close]
  split
  · exact linked.grouped
  · rename_i several
    refine linked.grouped.append (holds.nodup_membersOf a) (Nat.le_of_not_lt several)
      (fun x isX y isY => ?_) fun x listed y isY => ?_
    · obtain ⟨insideX, sinceX⟩ := holds.mem_membersOf.1 isX
      obtain ⟨insideY, sinceY⟩ := holds.mem_membersOf.1 isY
      exact (linked.path_to_root root insideX sinceX).trans
        (linked.onward a List.mem_cons_self y insideY sinceY)
    · obtain ⟨old, outside⟩ := linked.assigned x listed
      exact holds.not_path old outside (holds.mem_membersOf.1 isY).1

omit root in
theorem agrees_close : Agrees (progress.close a).toGrouping := by
  have same : (progress.close a).toGrouping =
      if (membersOf progress a).length < 2 then progress.toGrouping
      else progress.toGrouping.add (membersOf progress a) := rfl
  rw [same]
  split
  · exact linked.agrees
  · refine linked.agrees.add fun x member listed => ?_
    exact (linked.assigned x listed).2 (linked.toHolds.mem_membersOf.1 member).1

theorem close : Linked next outer seen (progress.close a) := by
  have holds := linked.toHolds
  have kept : ∀ x, x ∈ (progress.close a).unassigned ↔
      x ∈ progress.unassigned ∧ progress.index[x] < progress.index[a] := fun _ =>
    holds.mem_unassigned_close
  refine
    { holds.close root with
      pending := fun frame member => linked.pending frame (List.mem_cons_of_mem _ member)
      onward := fun b isFrame x member =>
        linked.onward b (List.mem_cons_of_mem a isFrame) x ((kept x).1 member).1
      lowered := fun x member => ?_
      back := fun x member notOpen => ?_
      assigned := fun x listed => ?_
      grouped := linked.grouped_close root
      agrees := linked.agrees_close }
  · obtain ⟨inside, below⟩ := (kept x).1 member
    obtain ⟨y, isKnown, bound, path⟩ := linked.lowered x inside
    have order := Nat.le_trans bound (linked.low x inside)
    exact ⟨y, (kept y).2 ⟨isKnown, Nat.lt_of_le_of_lt order below⟩, bound, path⟩
  · obtain ⟨inside, below⟩ := (kept x).1 member
    obtain ⟨y, isKnown, before, path⟩ := linked.back x inside fun isFrame =>
      (List.mem_cons.1 isFrame).elim (fun here => Nat.lt_irrefl _ (here ▸ below)) notOpen
    exact ⟨y, (kept y).2 ⟨isKnown, Nat.lt_trans before below⟩, before, path⟩
  · rcases mem_of_groups_close listed with listed | listed
    · obtain ⟨old, outside⟩ := linked.assigned x listed
      exact ⟨old, fun inside => outside ((kept x).1 inside).1⟩
    · obtain ⟨inside, since⟩ := holds.mem_membersOf.1 listed
      exact ⟨(linked.known x inside).1, fun again => Nat.not_lt.2 since ((kept x).1 again).2⟩

end Closing

/-- The innermost frame has looked at all its successors and is left. -/
theorem leave (linked : Linked next (⟨a, []⟩ :: outer) seen progress) :
    Linked next outer seen
      (progress.advance (.leave a (outer.head?.map DepthFirst.Frame.index))) := by
  have isOpen := linked.opened a List.mem_cons_self
  cases outer with
  | nil =>
    have root : progress.lowLink[a] = progress.index[a] := by
      obtain ⟨y, inside, bound, -⟩ := linked.lowered a isOpen
      obtain ⟨b, isFrame, below⟩ := linked.exists_frame inside
      rw [List.mem_singleton.1 isFrame] at below
      exact Nat.le_antisymm (linked.low a isOpen) (Nat.le_trans below bound)
    unfold Progress.advance
    dsimp only
    rw [List.head?_nil, Option.map_none, if_pos root]
    exact linked.close root
  | cons frame outer =>
    obtain ⟨p, later⟩ := frame
    have isFrame : p ∈ (⟨a, []⟩ :: ⟨p, later⟩ :: outer : List (DepthFirst.Frame n)).map
        DepthFirst.Frame.index := List.mem_cons_of_mem a List.mem_cons_self
    have above := (List.pairwise_cons.1 linked.nested).1 p List.mem_cons_self
    have other : p ≠ a := fun same => Nat.lt_irrefl _ (same ▸ above)
    have descends := linked.onward p isFrame a isOpen (Nat.le_of_lt above)
    obtain ⟨y, inside, bound, path⟩ := linked.lowered a isOpen
    have passed := linked.lower isFrame ⟨y, inside, bound, descends.trans path⟩
    have kept : (progress.lower p progress.lowLink[a]).lowLink[a] = progress.lowLink[a] :=
      Table.getElem_set_ne other _
    unfold Progress.advance
    dsimp only
    rw [List.head?_cons, Option.map_some]
    dsimp only
    split
    · rename_i root
      exact passed.close (by rw [kept, root]; rfl)
    · rename_i notRoot
      refine passed.drop (Nat.le_trans (lowLink_lower_le progress p _) (Nat.le_of_eq kept.symm)) ?_
      rw [kept]
      exact notRoot

end Steps

theorem invariant : DepthFirst.Invariant next Progress.advance (Linked next) where
  start := fun {seen progress root} linked fresh =>
    linked.enter fresh none rfl (fun _ _ => id) (List.forall_mem_nil _)
      fun _ outer => absurd outer List.not_mem_nil
  enter := fun {a s pending outer seen progress} linked fresh => by
    have awaits : ∀ x t, Awaits none (⟨a, s :: pending⟩ :: outer) x t →
        Awaits (some s) (⟨a, pending⟩ :: outer) x t := fun x t waits => by
      rcases waits with ⟨rfl, later | none⟩ | waits
      · rcases List.mem_cons.1 later with rfl | later
        · exact Or.inl ⟨rfl, Or.inr rfl⟩
        · exact Or.inl ⟨rfl, Or.inl later⟩
      · cases none
      · exact Or.inr waits
    have within : ∀ frame ∈ (⟨a, pending⟩ :: outer : List (DepthFirst.Frame n)),
        ∀ t ∈ frame.pending, t ∈ next frame.index := fun frame member t later => by
      rcases List.mem_cons.1 member with rfl | member
      · exact linked.pending _ List.mem_cons_self t (List.mem_cons_of_mem s later)
      · exact linked.pending frame (List.mem_cons_of_mem _ member) t later
    exact linked.enter fresh (some a) rfl awaits within linked.leads
  look := look
  leave := leave

end Linked

/-! ### The components of a graph -/

namespace Grouped

variable (grouped : Grouped next groups) {x y : Fin n}

include grouped

theorem disjoint : groups.Pairwise List.Disjoint :=
  grouped.sorted.imp fun apart x left right => apart x left x right (.stay x)

/-- What leads to each other is in one group if it is in any. -/
theorem eq_of_connected {j k : Nat} (insideJ : j < groups.length) (insideK : k < groups.length)
    (isX : x ∈ groups[j]) (isY : y ∈ groups[k]) (there : BitSet.Path next x y)
    (back : BitSet.Path next y x) : j = k := by
  have apart := List.pairwise_iff_getElem.1 grouped.sorted
  rcases Nat.lt_trichotomy j k with less | same | less
  · exact absurd there (apart j k insideJ insideK less x isX y isY)
  · exact same
  · exact absurd back (apart k j insideK insideJ less y isY x isX)

/-- A member of a group has another one to which it leads and which leads back. -/
theorem exists_other {group : List (Fin n)} (isGroup : group ∈ groups) (member : x ∈ group) :
    ∃ y, y ≠ x ∧ BitSet.Path next x y ∧ BitSet.Path next y x := by
  have connected := grouped.connected group isGroup
  obtain ⟨y, inside, other⟩ : ∃ y ∈ group, y ≠ x := by
    refine Classical.byContradiction fun none => ?_
    have alone : ∀ y ∈ group, y = x := fun y inside =>
      Classical.byContradiction fun other => none ⟨y, inside, other⟩
    have few := ((grouped.once group isGroup).subperm fun y inside =>
      List.mem_singleton.2 (alone y inside)).length_le
    exact absurd (grouped.several group isGroup) (Nat.not_le.2 (Nat.lt_succ_of_le few))
  exact ⟨y, other, connected x member y inside, connected y inside x member⟩

end Grouped

section Compute

variable (E : EdgeGraph)

theorem linked_compute : ∃ seen : E.Edges, (∀ e, e ∈ seen) ∧ Linked E.successors [] seen
    ((DepthFirst.steps E.successors (List.finRange E.size)).foldl Progress.advance
      (.initial E.size)) := by
  have start : Linked E.successors [] ∅ (.initial E.size) := .initial
  obtain ⟨final, done, -, all⟩ := Linked.invariant.run start (List.finRange E.size)
  exact ⟨final, fun e => all e (List.mem_finRange e), done⟩

/-- The groups of a graph are strongly connected, and all edges that lead to another one and back
are in some group. -/
theorem grouped_compute : Grouped E.successors (compute E).groups ∧
    ∀ e f, e ≠ f → BitSet.Path E.successors e f → BitSet.Path E.successors f e →
      e ∈ (compute E).groups.flatten := by
  obtain ⟨final, all, done⟩ := linked_compute E
  refine ⟨done.grouped, fun e f other there back => ?_⟩
  have settled := done.settled e (all e) fun member => by
    obtain ⟨b, isFrame, -⟩ := done.exists_frame member
    cases isFrame
  obtain ⟨s, step, apart, rest⟩ := there.exists_step other
  exact settled.resolve_right fun alone => alone s step apart (rest.trans back)

/-- What the search has stored of each edge is what its list of the components says. -/
theorem agrees_compute : Agrees (compute E).toGrouping :=
  let ⟨_, _, done⟩ := linked_compute E
  done.agrees

variable {E} {e f : Fin E.size}

theorem component?_eq_some_iff {k : Nat} : (compute E).component? e = some k ↔
    ∃ inside : k < (compute E).groups.length, e ∈ (compute E).groups[k] :=
  (agrees_compute E).component e k

theorem exists_component?_iff :
    (∃ k, (compute E).component? e = some k) ↔ e ∈ (compute E).groups.flatten := by
  constructor
  · rintro ⟨k, found⟩
    obtain ⟨inside, member⟩ := component?_eq_some_iff.1 found
    exact List.mem_flatten_of_mem (List.getElem_mem inside) member
  · intro listed
    obtain ⟨group, isGroup, member⟩ := List.mem_flatten.1 listed
    obtain ⟨k, inside, rfl⟩ := List.getElem_of_mem isGroup
    exact ⟨k, component?_eq_some_iff.2 ⟨inside, member⟩⟩

theorem inCycle_iff :
    (compute E).inCycle e = true ↔ ∃ k, (compute E).component? e = some k := by
  rw [exists_component?_iff]
  exact BitSet.contains_iff_mem.trans ((agrees_compute E).cyclic e)

theorem exists_component?_iff_connected : (∃ k, (compute E).component? e = some k) ↔
    ∃ f, f ≠ e ∧ BitSet.Path E.successors e f ∧ BitSet.Path E.successors f e := by
  rw [exists_component?_iff]
  constructor
  · intro member
    obtain ⟨group, isGroup, inside⟩ := List.mem_flatten.1 member
    exact (grouped_compute E).1.exists_other isGroup inside
  · rintro ⟨f, other, there, back⟩
    exact (grouped_compute E).2 e f (Ne.symm other) there back

/-- An edge on a cycle of several edges is in a component. -/
theorem inCycle_of_path {s : Fin E.size} (step : s ∈ E.successors e) (other : s ≠ e)
    (path : BitSet.Path E.successors s e) : (compute E).inCycle e = true :=
  inCycle_iff.2 (exists_component?_iff_connected.2 ⟨s, other, .step step (.stay s), path⟩)

theorem same_component?_iff (other : e ≠ f) :
    (∃ k, (compute E).component? e = some k ∧ (compute E).component? f = some k) ↔
      BitSet.Path E.successors e f ∧ BitSet.Path E.successors f e := by
  have grouped := (grouped_compute E).1
  constructor
  · rintro ⟨k, left, right⟩
    obtain ⟨inside, isE⟩ := component?_eq_some_iff.1 left
    obtain ⟨_, isF⟩ := component?_eq_some_iff.1 right
    have connected := grouped.connected _ (List.getElem_mem inside)
    exact ⟨connected e isE f isF, connected f isF e isE⟩
  · rintro ⟨there, back⟩
    obtain ⟨j, left⟩ := exists_component?_iff_connected.2 ⟨f, Ne.symm other, there, back⟩
    obtain ⟨k, right⟩ := exists_component?_iff_connected.2 ⟨e, other, back, there⟩
    obtain ⟨insideJ, isE⟩ := component?_eq_some_iff.1 left
    obtain ⟨insideK, isF⟩ := component?_eq_some_iff.1 right
    obtain rfl := grouped.eq_of_connected insideJ insideK isE isF there back
    exact ⟨j, left, right⟩

/-- On any closed graph two edges have the same component if and only if each leads to the other, an
edge has none if no other edge does so with it, and the edges with one are those in a cycle. The
lists of the components hold the edges of their number, several and each once; they share none, and
no list leads to a later one. -/
theorem components_strongly_connected (E : EdgeGraph) :
    (∀ e f, e ≠ f →
      ((∃ k, (compute E).component? e = some k ∧ (compute E).component? f = some k) ↔
        BitSet.Path E.successors e f ∧ BitSet.Path E.successors f e)) ∧
    (∀ e, (compute E).component? e = none ↔
      ∀ f, f ≠ e → ¬ (BitSet.Path E.successors e f ∧ BitSet.Path E.successors f e)) ∧
    (∀ e, (compute E).inCycle e = true ↔ ∃ k, (compute E).component? e = some k) ∧
    (∀ group ∈ (compute E).groups, group.Nodup ∧ 2 ≤ group.length) ∧
    (compute E).groups.Pairwise List.Disjoint ∧
    (∀ k e, (compute E).component? e = some k ↔
      ∃ inside : k < (compute E).groups.length, e ∈ (compute E).groups[k]) ∧
    ∀ j k (left : j < (compute E).groups.length) (right : k < (compute E).groups.length), j < k →
      ∀ e ∈ (compute E).groups[j], ∀ f ∈ (compute E).groups[k], ¬ BitSet.Path E.successors e f := by
  have grouped := (grouped_compute E).1
  refine ⟨fun e f => same_component?_iff, fun e => ?_, fun e => inCycle_iff,
    fun group isGroup => ?_, grouped.disjoint, fun k e => component?_eq_some_iff, ?_⟩
  · rw [Option.eq_none_iff_forall_ne_some, ← not_exists, exists_component?_iff_connected,
      not_exists]
    exact forall_congr' fun f => not_and
  · exact ⟨grouped.once group isGroup, grouped.several group isGroup⟩
  · exact List.pairwise_iff_getElem.1 grouped.sorted

end Compute

/-- The flows between 1 and 2 lead around. -/
def circling : Graph where
  name := "circling"
  nodes := [.start, .merge, .split, .finish].map (⟨·, []⟩)
  flows := [⟨0, 1⟩, ⟨1, 2⟩, ⟨2, 1⟩, ⟨2, 3⟩]
  flows_inside := by decide

def circlingEdges : EdgeGraph :=
  .closing circling ⟨0, by decide⟩ ⟨3, by decide⟩

def circlingEdge (e : Nat) (inside : e < 4 := by decide) : Fin circlingEdges.size :=
  ⟨e, inside⟩

theorem components_circling : circlingEdge 1 ≠ circlingEdge 2 ∧
    ∃ k, (compute circlingEdges).component? (circlingEdge 1) = some k ∧
      (compute circlingEdges).component? (circlingEdge 2) = some k := by
  have other : circlingEdge 1 ≠ circlingEdge 2 := by decide
  refine ⟨other, ((components_strongly_connected circlingEdges).1 _ _ other).2 ⟨?_, ?_⟩⟩
  · exact .step (by decide +kernel) (.stay _)
  · exact .step (by decide +kernel) (.stay _)

end Components
end WorkflowSoundness
