import WorkflowSoundness.BitSet.Word

/-!
Sets of indices below a fixed capacity, kept in 64-bit words. The last word may be wider
than the capacity needs; its spare bits stay clear, so that words and members determine
each other (`ext`). Every operation is described by what it does to membership.
-/

namespace WorkflowSoundness

/-- A set of indices below `n`. Index `i` is bit `i % 64` of word `i / 64`. -/
structure BitSet (n : Nat) where
  words : Vector UInt64 ((n + 63) / 64)
  spare_clear : ∀ (k : Nat) (inside : k < (n + 63) / 64) (i : Nat), i < 64 → n ≤ 64 * k + i →
    Word.bit words[k] i = false

namespace BitSet

variable {n : Nat}

theorem word_lt (i : Fin n) : i.val / 64 < (n + 63) / 64 := by
  omega

def contains (s : BitSet n) (i : Fin n) : Bool :=
  Word.bit (s.words[i.val / 64]) (i.val % 64)

instance : Membership (Fin n) (BitSet n) :=
  ⟨fun s i => s.contains i = true⟩

instance (i : Fin n) (s : BitSet n) : Decidable (i ∈ s) :=
  inferInstanceAs (Decidable (s.contains i = true))

theorem mem_def {s : BitSet n} {i : Fin n} :
    i ∈ s ↔ Word.bit (s.words[i.val / 64]) (i.val % 64) = true :=
  Iff.rfl

theorem contains_iff_mem {s : BitSet n} {i : Fin n} : s.contains i = true ↔ i ∈ s :=
  Iff.rfl

theorem ext {s t : BitSet n} (same : ∀ i, i ∈ s ↔ i ∈ t) : s = t := by
  obtain ⟨v, hv⟩ := s
  obtain ⟨w, hw⟩ := t
  congr 1
  apply Vector.ext
  intro k inside
  apply Word.ext
  intro i small
  by_cases member : 64 * k + i < n
  · have whole : (64 * k + i) / 64 = k := by omega
    have part : (64 * k + i) % 64 = i := by omega
    have agree := same ⟨64 * k + i, member⟩
    simp only [mem_def, whole, part] at agree
    exact Bool.eq_iff_iff.2 agree
  · rw [hv k inside i small (by omega), hw k inside i small (by omega)]

instance : DecidableEq (BitSet n) := fun s t =>
  if same : s.words = t.words then
    isTrue (by cases s; cases t; cases same; rfl)
  else
    isFalse fun equal => same (congrArg words equal)

/-! ### Constructions -/

def empty : BitSet n where
  words := Vector.replicate _ 0
  spare_clear := by
    intro k inside i small _
    simp [Word.bit_zero small]

instance : EmptyCollection (BitSet n) := ⟨empty⟩

theorem not_mem_empty (i : Fin n) : i ∉ (∅ : BitSet n) := by
  simp [mem_def, EmptyCollection.emptyCollection, empty,
    Word.bit_zero (Nat.mod_lt i.val (by decide : 0 < 64))]

/-- The set of all indices. -/
def full : BitSet n where
  words := Vector.ofFn fun k => Word.below (min 64 (n - 64 * k.val))
  spare_clear := by
    intro k inside i small spare
    rw [Vector.getElem_ofFn, Word.bit_below (by omega) (by omega) small]
    simp
    omega

theorem mem_full (i : Fin n) : i ∈ (full : BitSet n) := by
  have bound := i.isLt
  rw [mem_def, full, Vector.getElem_ofFn, Word.bit_below (by simp; omega) (by omega) (by omega)]
  simp
  omega

def insert (s : BitSet n) (i : Fin n) : BitSet n where
  words := s.words.set (i.val / 64)
    (s.words[i.val / 64] ||| Word.single (i.val % 64)) (word_lt i)
  spare_clear := by
    intro k inside j small spare
    rw [Vector.getElem_set]
    split
    · rename_i here
      subst here
      rw [Word.bit_or small, s.spare_clear _ inside j small spare,
        Word.bit_single (by omega) small]
      simp
      omega
    · exact s.spare_clear k inside j small spare

theorem mem_insert {s : BitSet n} {i j : Fin n} : j ∈ s.insert i ↔ j = i ∨ j ∈ s := by
  simp only [mem_def, insert, Vector.getElem_set, Fin.ext_iff]
  split
  · rename_i here
    rw [Word.bit_or (by omega), Word.bit_single (by omega) (by omega)]
    simp only [here, Bool.or_eq_true, decide_eq_true_eq]
    constructor
    · rintro (kept | same)
      · exact Or.inr kept
      · exact Or.inl (by omega)
    · rintro (same | kept)
      · exact Or.inr (by omega)
      · exact Or.inl kept
  · constructor
    · exact Or.inr
    · rintro (same | kept)
      · omega
      · exact kept

def erase (s : BitSet n) (i : Fin n) : BitSet n where
  words := s.words.set (i.val / 64)
    (s.words[i.val / 64] &&& ~~~Word.single (i.val % 64)) (word_lt i)
  spare_clear := by
    intro k inside j small spare
    rw [Vector.getElem_set]
    split
    · rename_i here
      subst here
      rw [Word.bit_and small, s.spare_clear _ inside j small spare, Bool.false_and]
    · exact s.spare_clear k inside j small spare

theorem mem_erase {s : BitSet n} {i j : Fin n} : j ∈ s.erase i ↔ j ≠ i ∧ j ∈ s := by
  simp only [mem_def, erase, Vector.getElem_set, ne_eq, Fin.ext_iff]
  split
  · rename_i here
    rw [Word.bit_and (by omega), Word.bit_not (by omega), Word.bit_single (by omega) (by omega)]
    simp only [here, Bool.and_eq_true, Bool.not_eq_true', decide_eq_false_iff_not]
    constructor
    · rintro ⟨kept, other⟩
      exact ⟨by omega, kept⟩
    · rintro ⟨other, kept⟩
      exact ⟨kept, by omega⟩
  · constructor
    · intro kept
      exact ⟨by omega, kept⟩
    · exact And.right

def ofList (l : List (Fin n)) : BitSet n :=
  l.foldl insert ∅

theorem mem_foldl_insert {s : BitSet n} {l : List (Fin n)} {i : Fin n} :
    i ∈ l.foldl insert s ↔ i ∈ s ∨ i ∈ l := by
  induction l generalizing s with
  | nil => simp
  | cons j l ih =>
    rw [List.foldl_cons, ih, mem_insert, List.mem_cons]
    grind

theorem mem_ofList {l : List (Fin n)} {i : Fin n} : i ∈ ofList l ↔ i ∈ l := by
  rw [ofList, mem_foldl_insert]
  simp [not_mem_empty]

def ofFn (p : Fin n → Bool) : BitSet n :=
  ofList ((List.finRange n).filter p)

theorem mem_ofFn {p : Fin n → Bool} {i : Fin n} : i ∈ ofFn p ↔ p i = true := by
  simp [ofFn, mem_ofList]

/-! ### Set operations -/

private theorem mem_zipWith {s t : BitSet n} {f : UInt64 → UInt64 → UInt64}
    {g : Bool → Bool → Bool}
    (bitwise : ∀ v w i, i < 64 → Word.bit (f v w) i = g (Word.bit v i) (Word.bit w i))
    (clear : ∀ (k : Nat) (inside : k < (n + 63) / 64) (i : Nat), i < 64 → n ≤ 64 * k + i →
      Word.bit (Vector.zipWith f s.words t.words)[k] i = false) {i : Fin n} :
    i ∈ (⟨Vector.zipWith f s.words t.words, clear⟩ : BitSet n) ↔
      g (s.contains i) (t.contains i) = true := by
  rw [mem_def]
  simp only [Vector.getElem_zipWith, contains]
  rw [bitwise _ _ _ (by omega)]

def union (s t : BitSet n) : BitSet n where
  words := Vector.zipWith (· ||| ·) s.words t.words
  spare_clear := by
    intro k inside i small spare
    rw [Vector.getElem_zipWith, Word.bit_or small, s.spare_clear k inside i small spare,
      t.spare_clear k inside i small spare, Bool.or_false]

instance : Union (BitSet n) := ⟨union⟩

theorem mem_union {s t : BitSet n} {i : Fin n} : i ∈ s ∪ t ↔ i ∈ s ∨ i ∈ t := by
  refine (mem_zipWith (g := or) (fun _ _ _ small => Word.bit_or small) _).trans ?_
  simp [contains_iff_mem]

def inter (s t : BitSet n) : BitSet n where
  words := Vector.zipWith (· &&& ·) s.words t.words
  spare_clear := by
    intro k inside i small spare
    rw [Vector.getElem_zipWith, Word.bit_and small, s.spare_clear k inside i small spare,
      Bool.false_and]

instance : Inter (BitSet n) := ⟨inter⟩

theorem mem_inter {s t : BitSet n} {i : Fin n} : i ∈ s ∩ t ↔ i ∈ s ∧ i ∈ t := by
  refine (mem_zipWith (g := and) (fun _ _ _ small => Word.bit_and small) _).trans ?_
  simp [contains_iff_mem]

def diff (s t : BitSet n) : BitSet n where
  words := Vector.zipWith (fun v w => v &&& ~~~w) s.words t.words
  spare_clear := by
    intro k inside i small spare
    rw [Vector.getElem_zipWith, Word.bit_and small, s.spare_clear k inside i small spare,
      Bool.false_and]

instance : SDiff (BitSet n) := ⟨diff⟩

theorem mem_sdiff {s t : BitSet n} {i : Fin n} : i ∈ s \ t ↔ i ∈ s ∧ i ∉ t := by
  refine (mem_zipWith (g := fun a b => a && !b)
    (fun _ _ _ small => by rw [Word.bit_and small, Word.bit_not small]) _).trans ?_
  simp [contains_iff_mem, ← Bool.not_eq_true]

def isEmpty (s : BitSet n) : Bool :=
  s.words.all (· == 0)

/-- Whether the two sets share a member. -/
def intersects (s t : BitSet n) : Bool :=
  !(s ∩ t).isEmpty

/-- Whether every member of `s` is one of `t`. -/
def subset (s t : BitSet n) : Bool :=
  (s \ t).isEmpty

theorem isEmpty_iff {s : BitSet n} : s.isEmpty = true ↔ ∀ i, i ∉ s := by
  simp only [isEmpty, Vector.all_eq_true, beq_iff_eq]
  constructor
  · intro zero i member
    rw [mem_def, zero _ (word_lt i), Word.bit_zero (by omega)] at member
    exact Bool.false_ne_true member
  · intro none k inside
    have same : s = ∅ := ext fun i => by simp [none i, not_mem_empty]
    rw [same]
    simp [EmptyCollection.emptyCollection, empty]

theorem intersects_iff {s t : BitSet n} : s.intersects t = true ↔ ∃ i, i ∈ s ∧ i ∈ t := by
  rw [intersects, Bool.not_eq_true', Bool.eq_false_iff, ne_eq, isEmpty_iff]
  simp [mem_inter]

theorem subset_iff {s t : BitSet n} : s.subset t = true ↔ ∀ i, i ∈ s → i ∈ t := by
  rw [subset, isEmpty_iff]
  simp [mem_sdiff]

end BitSet
end WorkflowSoundness
