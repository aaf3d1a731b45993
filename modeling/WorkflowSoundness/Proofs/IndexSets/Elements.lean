import Mathlib.Data.Finset.Range
import Mathlib.Data.Finset.Card
import WorkflowSoundness.IndexSet
import WorkflowSoundness.Proofs.Sets

/-!
Sets of indices as finite sets of numbers. The elements of a set are the bits that its words hold,
spare ones included (`elements`). A set comes about by a construction: from nothing, from all
indices or from a list of them, and then by one operation after the other on sets that came about
before (`Construction`). A construction that keeps to the capacities makes a set with the elements
that the operations on finite sets give, no spare bit is ever set, and so everything that reads
whole words answers for the elements (`construction_exact`).
-/

namespace WorkflowSoundness.IndexSet

variable {s t : IndexSet} {i : Nat}

def words (s : IndexSet) : List UInt64 :=
  s.members.words.toList

/-- The bits that are set in the words. -/
def elements (s : IndexSet) : Finset Nat :=
  (Finset.range (64 * s.words.length)).filter fun i => Word.bitOf s.words i = true

theorem length_words (s : IndexSet) : s.words.length = (s.capacity + 63) / 64 :=
  Vector.length_toList

/-- No bit is set at or above the capacity. -/
theorem bitOf_words_of_le (outside : s.capacity ≤ i) : Word.bitOf s.words i = false :=
  BitSet.bitOf_words_of_le outside

/-- The elements are the members, taken as numbers. -/
theorem mem_elements : i ∈ s.elements ↔ ∃ inside : i < s.capacity, ⟨i, inside⟩ ∈ s.members := by
  have wide : i < s.capacity → i < 64 * s.words.length := by
    rw [length_words]
    omega
  rw [elements, Finset.mem_filter, Finset.mem_range]
  constructor
  · rintro ⟨-, bit⟩
    have inside : i < s.capacity := by
      by_contra outside
      rw [bitOf_words_of_le (Nat.le_of_not_lt outside)] at bit
      exact Bool.false_ne_true bit
    exact ⟨inside, (BitSet.bitOf_words ⟨i, inside⟩).symm.trans bit⟩
  · rintro ⟨inside, member⟩
    exact ⟨wide inside, (BitSet.bitOf_words ⟨i, inside⟩).trans member⟩

theorem mem_members {i : Fin s.capacity} : i ∈ s.members ↔ i.val ∈ s.elements :=
  ⟨fun member => mem_elements.2 ⟨i.isLt, member⟩, fun member => (mem_elements.1 member).2⟩

theorem lt_capacity (member : i ∈ s.elements) : i < s.capacity :=
  (mem_elements.1 member).1

/-- A set is its capacity and its elements. -/
theorem eq_iff : s = t ↔ s.capacity = t.capacity ∧ s.elements = t.elements := by
  refine ⟨fun same => same ▸ ⟨rfl, rfl⟩, ?_⟩
  rintro ⟨capacity, same⟩
  obtain ⟨n, v⟩ := s
  obtain ⟨m, w⟩ := t
  obtain rfl : n = m := capacity
  congr 1
  refine BitSet.ext fun i => ?_
  rw [mem_members (s := ⟨n, v⟩), mem_members (s := ⟨n, w⟩), same]

/-! ### Operations on one set -/

theorem elements_empty (capacity : Nat) : (empty capacity).elements = ∅ := by
  refine Finset.eq_empty_of_forall_notMem fun i member => ?_
  obtain ⟨inside, member⟩ := mem_elements.1 member
  exact BitSet.not_mem_empty _ member

theorem elements_full (capacity : Nat) : (full capacity).elements = Finset.range capacity := by
  ext i
  rw [mem_elements, Finset.mem_range]
  exact ⟨fun ⟨inside, _⟩ => inside, fun inside => ⟨inside, BitSet.mem_full _⟩⟩

/-- Below the capacity an element is added, and the answer tells whether it was new. -/
theorem insert_of_lt (inside : i < s.capacity) : ∃ fresh t, s.insert i = .ok (fresh, t) ∧
    t.capacity = s.capacity ∧ t.elements = Insert.insert i s.elements ∧
    (fresh = true ↔ i ∉ s.elements) := by
  refine ⟨_, _, dif_pos inside, rfl, ?_, ?_⟩
  · ext j
    simp only [mem_elements, BitSet.mem_insert, Finset.mem_insert, Fin.mk.injEq]
    constructor
    · rintro ⟨bound, same | old⟩
      · exact Or.inl same
      · exact Or.inr ⟨bound, old⟩
    · rintro (rfl | ⟨bound, old⟩)
      · exact ⟨inside, Or.inl rfl⟩
      · exact ⟨bound, Or.inr old⟩
  · rw [Bool.not_eq_true', Bool.eq_false_iff, ne_eq, BitSet.contains_iff_mem, mem_members]

/-- At or above the capacity nothing is added. -/
theorem insert_of_le (outside : s.capacity ≤ i) : s.insert i = .error .indexOutOfBounds :=
  dif_neg (Nat.not_lt_of_le outside)

theorem erase_of_lt (inside : i < s.capacity) : ∃ t, s.erase i = .ok t ∧
    t.capacity = s.capacity ∧ t.elements = s.elements.erase i := by
  refine ⟨_, dif_pos inside, rfl, ?_⟩
  ext j
  simp only [mem_elements, BitSet.mem_erase, Finset.mem_erase, ne_eq, Fin.mk.injEq]
  exact ⟨fun ⟨bound, other, old⟩ => ⟨other, bound, old⟩,
    fun ⟨other, bound, old⟩ => ⟨bound, other, old⟩⟩

theorem erase_of_le (outside : s.capacity ≤ i) : s.erase i = .error .indexOutOfBounds :=
  dif_neg (Nat.not_lt_of_le outside)

theorem contains_of_lt (inside : i < s.capacity) :
    ∃ answer, s.contains i = .ok answer ∧ (answer = true ↔ i ∈ s.elements) :=
  ⟨_, dif_pos inside, mem_members⟩

theorem isEmpty_iff : s.isEmpty = true ↔ s.elements = ∅ := by
  rw [isEmpty, BitSet.isEmpty_iff, Finset.eq_empty_iff_forall_notMem]
  constructor
  · intro none i member
    obtain ⟨inside, member⟩ := mem_elements.1 member
    exact none _ member
  · intro none i member
    exact none i (mem_members.1 member)

theorem mem_toList : i ∈ s.toList ↔ i ∈ s.elements := by
  rw [toList, List.mem_map, mem_elements]
  constructor
  · rintro ⟨j, member, rfl⟩
    exact ⟨j.isLt, BitSet.mem_toList.1 member⟩
  · rintro ⟨inside, member⟩
    exact ⟨⟨i, inside⟩, BitSet.mem_toList.2 member, rfl⟩

theorem sorted_toList (s : IndexSet) : s.toList.Pairwise (· < ·) :=
  List.pairwise_map.2 s.members.sorted_toList

theorem length_toList (s : IndexSet) : s.toList.length = s.count := by
  rw [toList, List.length_map, count, BitSet.count_eq_length_toList]

/-- The set bits of all words are as many as there are elements. -/
theorem count_eq_card (s : IndexSet) : s.count = s.elements.card := by
  have listed : s.elements = s.toList.toFinset := by
    ext i
    rw [List.mem_toFinset, mem_toList]
  have once : s.toList.Nodup := s.sorted_toList.imp Nat.ne_of_lt
  rw [listed, List.toFinset_card_of_nodup once, length_toList]

/-! ### Operations on two sets -/

/-- An operation in place leaves the elements `after`, and tells whether that is a change. -/
def Updates (s : IndexSet) (answer : Except Misuse (Bool × IndexSet)) (after : Finset Nat) : Prop :=
  ∃ changed t, answer = .ok (changed, t) ∧ t.capacity = s.capacity ∧ t.elements = after ∧
    (changed = true ↔ after ≠ s.elements)

/-- An operand of the same capacity is taken as it is. -/
theorem operand_of_eq (same : t.capacity = s.capacity) :
    ∃ other, s.operand t = .ok other ∧ ∀ i, i ∈ other ↔ i.val ∈ t.elements := by
  obtain ⟨n, v⟩ := s
  obtain ⟨m, w⟩ := t
  obtain rfl : m = n := same
  exact ⟨w, dif_pos rfl, fun i => mem_members (s := ⟨_, w⟩)⟩

/-- Words are compared, which tells whether the elements have changed. -/
theorem updates_of_members {members : BitSet s.capacity} {after : Finset Nat}
    (mem : ∀ i, i ∈ members ↔ i.val ∈ after) (bounded : ∀ i ∈ after, i < s.capacity) :
    s.Updates (.ok (decide (members ≠ s.members), { s with members })) after := by
  have elements : ({ s with members } : IndexSet).elements = after := by
    ext i
    rw [mem_elements]
    exact ⟨fun ⟨inside, member⟩ => (mem _).1 member,
      fun member => ⟨bounded i member, (mem ⟨i, bounded i member⟩).2 member⟩⟩
  refine ⟨_, _, rfl, rfl, elements, ?_⟩
  rw [decide_eq_true_iff]
  refine not_congr ⟨fun same => ?_, fun same => BitSet.ext fun i => ?_⟩
  · rw [← elements, same]
  · rw [mem, same, mem_members]

/-- No operation on two sets works for other operands. -/
theorem map_operand_of_ne {α : Type} {f : BitSet s.capacity → α} (other : t.capacity ≠ s.capacity) :
    f <$> s.operand t = .error .lengthMismatch := by
  rw [operand, dif_neg other]
  rfl

section Operands

variable (same : t.capacity = s.capacity)

include same

theorem updates_union : s.Updates (s.union t) (s.elements ∪ t.elements) := by
  obtain ⟨other, found, mem⟩ := operand_of_eq same
  rw [union, found]
  refine updates_of_members (fun i => ?_) fun i member => ?_
  · rw [BitSet.mem_union, Finset.mem_union, mem, mem_members]
  · rcases Finset.mem_union.1 member with left | right
    · exact lt_capacity left
    · exact same ▸ lt_capacity right

theorem updates_inter : s.Updates (s.inter t) (s.elements ∩ t.elements) := by
  obtain ⟨other, found, mem⟩ := operand_of_eq same
  rw [inter, found]
  refine updates_of_members (fun i => ?_) fun i member => ?_
  · rw [BitSet.mem_inter, Finset.mem_inter, mem, mem_members]
  · exact lt_capacity (Finset.mem_inter.1 member).1

theorem updates_diff : s.Updates (s.diff t) (s.elements \ t.elements) := by
  obtain ⟨other, found, mem⟩ := operand_of_eq same
  rw [diff, found]
  refine updates_of_members (fun i => ?_) fun i member => ?_
  · rw [BitSet.mem_sdiff, Finset.mem_sdiff, mem, mem_members]
  · exact lt_capacity (Finset.mem_sdiff.1 member).1

theorem intersects_of_eq : ∃ answer, s.intersects t = .ok answer ∧
    (answer = true ↔ (s.elements ∩ t.elements).Nonempty) := by
  obtain ⟨other, found, mem⟩ := operand_of_eq same
  refine ⟨s.members.intersects other, by rw [intersects, found]; rfl, ?_⟩
  rw [BitSet.intersects_iff]
  constructor
  · rintro ⟨i, left, right⟩
    exact ⟨i, Finset.mem_inter.2 ⟨mem_members.1 left, (mem i).1 right⟩⟩
  · rintro ⟨i, member⟩
    obtain ⟨left, right⟩ := Finset.mem_inter.1 member
    exact ⟨⟨i, lt_capacity left⟩, mem_members.2 left, (mem _).2 right⟩

theorem subset_of_eq : ∃ answer, s.subset t = .ok answer ∧
    (answer = true ↔ s.elements ⊆ t.elements) := by
  obtain ⟨other, found, mem⟩ := operand_of_eq same
  refine ⟨s.members.subset other, by rw [subset, found]; rfl, ?_⟩
  rw [BitSet.subset_iff]
  constructor
  · intro within i member
    exact (mem ⟨i, lt_capacity member⟩).1 (within _ (mem_members.2 member))
  · intro within i member
    exact (mem i).2 (within (mem_members.1 member))

end Operands

/-! ### Constructions -/

/-- How a set comes about. -/
inductive Construction where
  | empty (capacity : Nat)
  | full (capacity : Nat)
  | ofIndices (capacity : Nat) (indices : List Nat)
  | insert (before : Construction) (i : Nat)
  | erase (before : Construction) (i : Nat)
  | clear (before : Construction)
  | fill (before : Construction)
  | union (before operand : Construction)
  | inter (before operand : Construction)
  | diff (before operand : Construction)

namespace Construction

/-- The set that comes about, unless an operation is misused. -/
def run : Construction → Except Misuse IndexSet
  | .empty capacity => .ok (IndexSet.empty capacity)
  | .full capacity => .ok (IndexSet.full capacity)
  | .ofIndices capacity indices => IndexSet.ofIndices capacity indices
  | .insert before i => before.run >>= fun s => (·.2) <$> s.insert i
  | .erase before i => before.run >>= fun s => s.erase i
  | .clear before => before.run >>= fun s => .ok s.clear
  | .fill before => before.run >>= fun s => .ok s.fill
  | .union before operand => before.run >>= fun s => operand.run >>= fun t => (·.2) <$> s.union t
  | .inter before operand => before.run >>= fun s => operand.run >>= fun t => (·.2) <$> s.inter t
  | .diff before operand => before.run >>= fun s => operand.run >>= fun t => (·.2) <$> s.diff t

def capacity : Construction → Nat
  | .empty capacity | .full capacity | .ofIndices capacity _ => capacity
  | .insert before _ | .erase before _ | .clear before | .fill before => before.capacity
  | .union before _ | .inter before _ | .diff before _ => before.capacity

/-- The elements by the operations on finite sets. -/
def elements : Construction → Finset Nat
  | .empty _ => ∅
  | .full capacity => Finset.range capacity
  | .ofIndices _ indices => indices.toFinset
  | .insert before i => Insert.insert i before.elements
  | .erase before i => before.elements.erase i
  | .clear _ => ∅
  | .fill before => Finset.range before.capacity
  | .union before operand => before.elements ∪ operand.elements
  | .inter before operand => before.elements ∩ operand.elements
  | .diff before operand => before.elements \ operand.elements

/-- Every index is below the capacity, and operands have the same capacity. -/
def Fits : Construction → Prop
  | .empty _ | .full _ => True
  | .ofIndices capacity indices => ∀ i ∈ indices, i < capacity
  | .insert before i | .erase before i => before.Fits ∧ i < before.capacity
  | .clear before | .fill before => before.Fits
  | .union before operand | .inter before operand | .diff before operand =>
    before.Fits ∧ operand.Fits ∧ operand.capacity = before.capacity

end Construction

/-- A set comes about exactly if what is asked for fits, of this capacity and with these
elements. -/
def Makes (answer : Except Misuse IndexSet) (fits : Prop) (capacity : Nat) (elements : Finset Nat) :
    Prop :=
  match answer with
  | .ok s => fits ∧ s.capacity = capacity ∧ s.elements = elements
  | .error _ => ¬ fits

section Makes

variable {answer : Except Misuse IndexSet} {fits later : Prop} {n m : Nat} {A B : Finset Nat}

/-- Goes on with what has been made, and fails if either step does. -/
theorem Makes.bind {next : IndexSet → Except Misuse IndexSet} (first : Makes answer fits n A)
    (goesOn : ∀ s : IndexSet, s.capacity = n → s.elements = A → Makes (next s) later m B) :
    Makes (answer >>= next) (fits ∧ later) m B := by
  cases answer with
  | error cause => exact fun both => first both.1
  | ok s =>
    obtain ⟨done, capacity, elements⟩ := first
    have second := goesOn s capacity elements
    change Makes (next s) (fits ∧ later) m B
    cases made : next s with
    | error cause =>
      rw [made] at second
      exact fun both => second both.2
    | ok t =>
      rw [made] at second
      exact ⟨⟨done, second.1⟩, second.2⟩

theorem Makes.map {change : IndexSet → IndexSet} (first : Makes answer fits n A)
    (goesOn : ∀ s : IndexSet, s.capacity = n → s.elements = A →
      (change s).capacity = m ∧ (change s).elements = B) :
    Makes (answer >>= fun s => .ok (change s)) fits m B := by
  cases answer with
  | error cause => exact first
  | ok s => exact ⟨first.1, goesOn s first.2.1 first.2.2⟩

theorem makes_insert (s : IndexSet) (i : Nat) :
    Makes ((·.2) <$> s.insert i) (i < s.capacity) s.capacity (Insert.insert i s.elements) := by
  by_cases inside : i < s.capacity
  · obtain ⟨fresh, t, done, capacity, elements, -⟩ := insert_of_lt inside
    rw [done]
    exact ⟨inside, capacity, elements⟩
  · rw [insert_of_le (Nat.le_of_not_lt inside)]
    exact inside

theorem makes_erase (s : IndexSet) (i : Nat) :
    Makes (s.erase i) (i < s.capacity) s.capacity (s.elements.erase i) := by
  by_cases inside : i < s.capacity
  · obtain ⟨t, done, capacity, elements⟩ := erase_of_lt inside
    rw [done]
    exact ⟨inside, capacity, elements⟩
  · rw [erase_of_le (Nat.le_of_not_lt inside)]
    exact inside

/-- An operation in place works for operands of one capacity and for no others. -/
theorem Makes.update {other : Except Misuse IndexSet}
    {operation : IndexSet → IndexSet → Except Misuse (Bool × IndexSet)}
    {combine : Finset Nat → Finset Nat → Finset Nat}
    (works : ∀ s t : IndexSet, t.capacity = s.capacity →
      s.Updates (operation s t) (combine s.elements t.elements))
    (fails : ∀ s t : IndexSet, t.capacity ≠ s.capacity → operation s t = .error .lengthMismatch)
    (first : Makes answer fits n A) (second : Makes other later m B) :
    Makes (answer >>= fun s => other >>= fun t => (·.2) <$> operation s t)
      (fits ∧ later ∧ m = n) n (combine A B) := by
  refine first.bind fun s capacity elements => second.bind fun t capacity' elements' => ?_
  subst capacity elements capacity' elements'
  by_cases same : t.capacity = s.capacity
  · obtain ⟨changed, u, done, capacity, elements, -⟩ := works s t same
    rw [done]
    exact ⟨same, capacity, elements⟩
  · rw [fails s t same]
    exact same

/-- A row of insertions makes all of them elements, unless one does not fit. -/
theorem makes_foldlM_insert (indices : List Nat) (s : IndexSet) :
    Makes (indices.foldlM (fun s i => (·.2) <$> s.insert i) s) (∀ i ∈ indices, i < s.capacity)
      s.capacity (s.elements ∪ indices.toFinset) := by
  induction indices generalizing s with
  | nil => exact ⟨by simp, rfl, by simp⟩
  | cons i indices ih =>
    rw [List.foldlM_cons, List.toFinset_cons, Finset.union_insert, ← Finset.insert_union]
    simp only [List.forall_mem_cons]
    refine (makes_insert s i).bind fun t capacity elements => ?_
    rw [← capacity, ← elements]
    exact ih t

end Makes

/-- A construction makes the set of its elements exactly if it fits. -/
theorem Construction.makes (c : Construction) : Makes c.run c.Fits c.capacity c.elements := by
  induction c with
  | empty capacity => exact ⟨trivial, rfl, elements_empty capacity⟩
  | full capacity => exact ⟨trivial, rfl, elements_full capacity⟩
  | ofIndices capacity indices =>
    have made := makes_foldlM_insert indices (IndexSet.empty capacity)
    rwa [elements_empty, Finset.empty_union] at made
  | insert before i ih =>
    refine ih.bind fun s capacity elements => ?_
    change Makes _ (i < before.capacity) before.capacity (Insert.insert i before.elements)
    rw [← capacity, ← elements]
    exact makes_insert s i
  | erase before i ih =>
    refine ih.bind fun s capacity elements => ?_
    change Makes _ (i < before.capacity) before.capacity (before.elements.erase i)
    rw [← capacity, ← elements]
    exact makes_erase s i
  | clear before ih =>
    exact ih.map fun s capacity _ => ⟨capacity, elements_empty s.capacity⟩
  | fill before ih =>
    refine ih.map fun s capacity _ => ⟨capacity, (elements_full s.capacity).trans ?_⟩
    rw [capacity]
    rfl
  | union before operand first second =>
    exact .update (fun _ _ => updates_union) (fun _ _ => map_operand_of_ne) first second
  | inter before operand first second =>
    exact .update (fun _ _ => updates_inter) (fun _ _ => map_operand_of_ne) first second
  | diff before operand first second =>
    exact .update (fun _ _ => updates_diff) (fun _ _ => map_operand_of_ne) first second

/-! ### What a set answers -/

/-- The answers of a set that are told by its elements. -/
structure Answers (s : IndexSet) : Prop where
  insert : ∀ i, i < s.capacity → ∃ fresh t, s.insert i = .ok (fresh, t) ∧
    (fresh = true ↔ i ∉ s.elements)
  contains : ∀ i, i < s.capacity → ∃ answer, s.contains i = .ok answer ∧
    (answer = true ↔ i ∈ s.elements)
  isEmpty : s.isEmpty = true ↔ s.elements = ∅
  count : s.count = s.elements.card

/-- The answers of a set and an operand that are told by their elements. -/
structure Compares (s t : IndexSet) : Prop where
  equal : (s == t) = true ↔ s.capacity = t.capacity ∧ s.elements = t.elements
  union : t.capacity = s.capacity → s.Updates (s.union t) (s.elements ∪ t.elements)
  inter : t.capacity = s.capacity → s.Updates (s.inter t) (s.elements ∩ t.elements)
  diff : t.capacity = s.capacity → s.Updates (s.diff t) (s.elements \ t.elements)
  intersects : t.capacity = s.capacity → ∃ answer, s.intersects t = .ok answer ∧
    (answer = true ↔ (s.elements ∩ t.elements).Nonempty)
  subset : t.capacity = s.capacity → ∃ answer, s.subset t = .ok answer ∧
    (answer = true ↔ s.elements ⊆ t.elements)

theorem answers (s : IndexSet) : s.Answers where
  insert i inside := by
    obtain ⟨fresh, t, done, -, -, isFresh⟩ := insert_of_lt inside
    exact ⟨fresh, t, done, isFresh⟩
  contains i inside := contains_of_lt inside
  isEmpty := isEmpty_iff
  count := count_eq_card s

theorem compares (s t : IndexSet) : s.Compares t where
  equal := beq_iff_eq.trans eq_iff
  union := updates_union
  inter := updates_inter
  diff := updates_diff
  intersects := intersects_of_eq
  subset := subset_of_eq

/-- A construction makes a set exactly if it fits, and then the one of its elements: the words are
as many as the capacity needs, no bit at or above it is set, and every answer of the set, alone or
with another that came about in the same way, is the one of the elements. -/
theorem construction_exact (c : Construction) :
    ((∃ s, c.run = .ok s) ↔ c.Fits) ∧ ∀ s, c.run = .ok s →
      s.capacity = c.capacity ∧ s.elements = c.elements ∧
      s.words.length = (c.capacity + 63) / 64 ∧
      (∀ i, c.capacity ≤ i → Word.bitOf s.words i = false) ∧
      s.elements ⊆ Finset.range c.capacity ∧ s.Answers ∧
      ∀ d t, Construction.run d = .ok t → s.Compares t := by
  have makes := c.makes
  cases made : c.run with
  | error cause =>
    rw [made] at makes
    exact ⟨iff_of_false (fun ⟨s, same⟩ => by cases same) makes, fun s same => by cases same⟩
  | ok s =>
    rw [made] at makes
    obtain ⟨fits, capacity, elements⟩ := makes
    refine ⟨iff_of_true ⟨s, rfl⟩ fits, fun t same => ?_⟩
    obtain rfl : s = t := Except.ok.inj same
    refine ⟨capacity, elements, capacity ▸ s.length_words, fun i outside => ?_, fun i member => ?_,
      s.answers, fun d t _ => s.compares t⟩
    · exact bitOf_words_of_le (capacity ▸ outside)
    · exact Finset.mem_range.2 (capacity ▸ lt_capacity member)

/-- All indices of a capacity that ends within a word, less the two around the word's start. -/
def spanning : Construction :=
  .diff (.fill (.empty 70)) (.ofIndices 70 [63, 64])

/-- Of the 128 bits that the words of `spanning` have room for, those of its elements are set, and
adding an index that it lacks is a change. -/
theorem construction_spanning : ∃ s t, spanning.run = .ok s ∧
    Construction.run (.ofIndices 70 [64]) = .ok t ∧ s.words.length = 2 ∧
    (∀ i, 70 ≤ i → Word.bitOf s.words i = false) ∧ s.count = 68 ∧ (s == t) = false ∧
    ∃ u, s.union t = .ok (true, u) ∧ u.elements = (Finset.range 70).erase 63 := by
  obtain ⟨s, made⟩ := (construction_exact spanning).1.2 (by simp [spanning, Construction.Fits,
    Construction.capacity])
  obtain ⟨t, operand⟩ := (construction_exact (.ofIndices 70 [64])).1.2 (by simp [Construction.Fits])
  obtain ⟨capacity, elements, words, spare, -, answers, compares⟩ :=
    (construction_exact spanning).2 s made
  obtain ⟨capacity', elements', -⟩ := (construction_exact (.ofIndices 70 [64])).2 t operand
  have compare := compares _ t operand
  have full : s.elements = Finset.range 70 \ {63, 64} := elements
  have single : t.elements = {64} := elements'
  obtain ⟨changed, u, done, -, after, grown⟩ := compare.union (capacity'.trans capacity.symm)
  rw [full, single] at grown after
  have changes : changed = true := grown.2 (by decide +kernel)
  refine ⟨s, t, made, operand, words, spare, ?_, ?_, u, changes ▸ done, after.trans ?_⟩
  · rw [answers.count, full]
    decide +kernel
  · rw [Bool.eq_false_iff]
    intro equal
    have same := (compare.equal.1 equal).2
    rw [full, single] at same
    revert same
    decide +kernel
  · decide +kernel

end WorkflowSoundness.IndexSet
