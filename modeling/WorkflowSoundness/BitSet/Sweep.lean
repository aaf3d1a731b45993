import WorkflowSoundness.BitSet.Scan

/-!
Reading a set that is edited on the way. A sweep reads the members in ascending order and, with
each of them, takes its whole class out of the set, so that no class is read twice. Between two
rounds a class is left as a whole or not at all (`Sweeping`), and so what a sweep reads are the
least members of all classes, each with the class as it was before the sweep (`mem_sweep`).
-/

namespace WorkflowSoundness.BitSet

variable {n : Nat} (classOf : Fin n → BitSet n)

/-- Reads the members from `cursor` on. Each comes with what was still there of its class, which is
taken out before the next one is read. -/
def sweepFrom (s : BitSet n) (cursor : Nat) : List (Fin n × BitSet n) :=
  match found : s.next? cursor with
  | none => []
  | some i => (i, classOf i ∩ s) :: sweepFrom (s \ (classOf i ∩ s)) (i.val + 1)
termination_by n - cursor
decreasing_by
  have lower := (next?_eq_some_iff.1 found).2.1
  omega

/-- Reads a set class by class. -/
def sweep (s : BitSet n) : List (Fin n × BitSet n) :=
  s.sweepFrom classOf 0

variable {classOf} {α : Type} {key : Fin n → α}

/-- What holds between two rounds of a sweep of `s`: nothing that is left lies behind the cursor,
and of each class all is left or nothing. -/
structure Sweeping (key : Fin n → α) (s left : BitSet n) (cursor : Nat) : Prop where
  within : ∀ i ∈ left, i ∈ s
  ahead : ∀ i ∈ left, cursor ≤ i.val
  whole : ∀ i ∈ left, ∀ j ∈ s, key j = key i → j ∈ left

/-- Before the first round everything is left. -/
theorem Sweeping.start (s : BitSet n) : Sweeping key s s 0 where
  within _ := id
  ahead _ _ := Nat.zero_le _
  whole _ _ _ member _ := member

section Classes

variable (classes : ∀ i j, j ∈ classOf i ↔ key j = key i) {s left : BitSet n} {cursor : Nat}
  {i j : Fin n}

include classes

/-- A round leaves the members of the other classes. -/
theorem mem_sdiff_class : j ∈ left \ (classOf i ∩ left) ↔ j ∈ left ∧ key j ≠ key i := by
  rw [mem_sdiff, mem_inter, classes]
  exact and_congr_right fun member => not_congr (and_iff_left member)

/-- A round reads the least member of its class and takes out the whole class, and the invariant
holds of the rest. -/
theorem Sweeping.round (state : Sweeping key s left cursor) (found : left.next? cursor = some i) :
    (∀ j ∈ s, key j = key i → i ≤ j) ∧ classOf i ∩ left = classOf i ∩ s ∧
      Sweeping key s (left \ (classOf i ∩ left)) (i.val + 1) := by
  obtain ⟨member, -, least⟩ := next?_eq_some_iff.1 found
  have first : ∀ j ∈ left, i ≤ j := fun j inside => least j inside (state.ahead j inside)
  refine ⟨fun j inside same => first j (state.whole i member j inside same), ?_, ?_⟩
  · refine BitSet.ext fun j => ?_
    rw [mem_inter, mem_inter, classes]
    exact and_congr_right fun same =>
      ⟨state.within j, fun inside => state.whole i member j inside same⟩
  · refine
      { within := fun j kept => ?_
        ahead := fun j kept => ?_
        whole := fun j kept k inside same => ?_ }
    · exact state.within j ((mem_sdiff_class classes).1 kept).1
    · obtain ⟨inside, other⟩ := (mem_sdiff_class classes).1 kept
      refine Nat.lt_of_le_of_ne (first j inside) fun here => other ?_
      rw [Fin.ext here]
    · obtain ⟨present, other⟩ := (mem_sdiff_class classes).1 kept
      exact (mem_sdiff_class classes).2
        ⟨state.whole j present k inside same, fun here => other (same.symm.trans here)⟩

/-- What is read in the rest of a sweep: the least members of the classes that are left, each with
all of its class. -/
theorem Sweeping.mem_sweepFrom (state : Sweeping key s left cursor) {taken : BitSet n} :
    (i, taken) ∈ left.sweepFrom classOf cursor ↔
      (i ∈ left ∧ ∀ j ∈ s, key j = key i → i ≤ j) ∧ taken = classOf i ∩ s := by
  fun_induction sweepFrom classOf left cursor with
  | case1 left cursor none =>
    have used := next?_eq_none_iff.1 none
    refine iff_of_false List.not_mem_nil fun read => ?_
    exact Nat.not_le_of_lt (used i read.1.1) (state.ahead i read.1.1)
  | case2 left cursor first found ih =>
    obtain ⟨least, all, rest⟩ := state.round classes found
    have member := (next?_eq_some_iff.1 found).1
    rw [List.mem_cons, ih rest, mem_sdiff_class classes, Prod.mk.injEq, all]
    constructor
    · rintro (⟨rfl, rfl⟩ | ⟨⟨⟨inside, -⟩, lowest⟩, isClass⟩)
      · exact ⟨⟨member, least⟩, rfl⟩
      · exact ⟨⟨inside, lowest⟩, isClass⟩
    · rintro ⟨⟨inside, lowest⟩, isClass⟩
      by_cases same : key i = key first
      · have here : i = first := Fin.le_antisymm (lowest first (state.within _ member) same.symm)
          (least i (state.within _ inside) same)
        subst here
        exact Or.inl ⟨rfl, isClass⟩
      · exact Or.inr ⟨⟨⟨inside, same⟩, lowest⟩, isClass⟩

/-- A sweep reads the least member of each class once, with all of the class. -/
theorem mem_sweep {taken : BitSet n} : (i, taken) ∈ s.sweep classOf ↔
    (i ∈ s ∧ ∀ j ∈ s, key j = key i → i ≤ j) ∧ taken = classOf i ∩ s :=
  (Sweeping.start s).mem_sweepFrom classes

/-- The cursor only goes up, so members are read in ascending order. -/
theorem Sweeping.sorted_sweepFrom (state : Sweeping key s left cursor) :
    (left.sweepFrom classOf cursor).Pairwise fun former latter => former.1 < latter.1 := by
  fun_induction sweepFrom classOf left cursor with
  | case1 => exact .nil
  | case2 left cursor first found ih =>
    have rest := (state.round classes found).2.2
    refine .cons (fun later read => ?_) (ih rest)
    exact rest.ahead _ ((rest.mem_sweepFrom classes).1 read).1.1

/-- What a sweep reads first is before all of a class that it reads later. -/
theorem ordered_sweep : (s.sweep classOf).Pairwise fun former latter =>
    ∀ j ∈ s, key j = key latter.1 → former.1 < j := by
  refine ((Sweeping.start s).sorted_sweepFrom classes).imp_of_mem
    fun {former latter} _ read lower j inside same => ?_
  exact Fin.lt_of_lt_of_le lower (((mem_sweep classes).1 read).1.2 j inside same)

/-- The classes that a sweep reads are those of the members. -/
theorem mem_keys_sweep {a : α} :
    a ∈ (s.sweep classOf).map (fun read => key read.1) ↔ ∃ i ∈ s, key i = a := by
  rw [List.mem_map]
  constructor
  · rintro ⟨⟨i, taken⟩, read, rfl⟩
    exact ⟨i, ((mem_sweep classes).1 read).1.1, rfl⟩
  · rintro ⟨i, member, rfl⟩
    cases least : (classOf i ∩ s).first? with
    | none =>
      have own := mem_inter.2 ⟨(classes i i).2 rfl, member⟩
      exact absurd own (first?_eq_none_iff.1 least i)
    | some j =>
      obtain ⟨inside, first⟩ := first?_eq_some_iff.1 least
      obtain ⟨same, present⟩ := mem_inter.1 inside
      have isClass := (classes i j).1 same
      refine ⟨(j, classOf j ∩ s), (mem_sweep classes).2 ⟨⟨present, fun k there also => ?_⟩, rfl⟩,
        isClass⟩
      exact first k (mem_inter.2 ⟨(classes i k).2 (also.trans isClass), there⟩)

/-- No class is read twice. -/
theorem nodup_keys_sweep : ((s.sweep classOf).map fun read => key read.1).Nodup := by
  refine List.pairwise_map.2 ((ordered_sweep classes).imp_of_mem
    fun {former latter} read _ apart same => ?_)
  exact Nat.lt_irrefl _ (apart former.1 ((mem_sweep classes).1 read).1.1 same)

end Classes

end WorkflowSoundness.BitSet
