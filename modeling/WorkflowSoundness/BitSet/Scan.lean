import WorkflowSoundness.BitSet.Basic

/-!
Reading the members of a set in ascending order. `next?` finds the least member from a
position on: it looks for the lowest bit in what is left of the word at that position, then in
the words behind it (`scan`). `toList` repeats it and is the list of members
(`toList_eq_filter`). `room` counts the indices a set still lacks, the quantity that a growing
search uses up.
-/

namespace WorkflowSoundness.BitSet

variable {n : Nat}

/-- The least member among the bits `word` of the word `k` and those of the words behind it. -/
def scan (s : BitSet n) (k : Nat) (word : UInt64) : Option (Fin n) :=
  if word ≠ 0 then
    if inside : 64 * k + Word.lowest word < n then
      some ⟨64 * k + Word.lowest word, inside⟩
    else
      none
  else if later : k + 1 < (n + 63) / 64 then
    s.scan (k + 1) s.words[k + 1]
  else
    none
termination_by (n + 63) / 64 - k

/-- The least member that is at least `i`. -/
def next? (s : BitSet n) (i : Nat) : Option (Fin n) :=
  if inside : i < n then
    s.scan (i / 64) (Word.above s.words[i / 64] (i % 64))
  else
    none

/-- What a scan has before it: a bit of `word`, or a member in a word behind `k`. -/
def Ahead (s : BitSet n) (k : Nat) (word : UInt64) (j : Fin n) : Prop :=
  (j.val / 64 = k ∧ Word.bit word (j.val % 64) = true) ∨ (k < j.val / 64 ∧ j ∈ s)

/-- A word that is used up leaves what the next one has. -/
theorem ahead_zero {s : BitSet n} {k : Nat} (later : k + 1 < (n + 63) / 64) {j : Fin n} :
    s.Ahead k 0 j ↔ s.Ahead (k + 1) s.words[k + 1] j := by
  rw [Ahead, Ahead, Word.bit_zero (Nat.mod_lt _ (by decide)), mem_def]
  constructor
  · rintro (⟨-, absent⟩ | ⟨behind, member⟩)
    · exact absurd absent Bool.false_ne_true
    · rcases Nat.eq_or_lt_of_le (Nat.succ_le_of_lt behind) with here | behind
      · simp only [← here] at member
        exact Or.inl ⟨here.symm, member⟩
      · exact Or.inr ⟨behind, member⟩
  · rintro (⟨here, set⟩ | ⟨behind, member⟩)
    · simp only [← here] at set
      exact Or.inr ⟨by omega, set⟩
    · exact Or.inr ⟨by omega, member⟩

/-- A scan finds the least index that is ahead, if there is one. The words have no spare bits, so
no bit that it finds is beyond the capacity. -/
theorem scan_spec {s : BitSet n} {k : Nat} {word : UInt64}
    (spare : ∀ b < 64, n ≤ 64 * k + b → Word.bit word b = false) :
    match s.scan k word with
    | some j => s.Ahead k word j ∧ ∀ l, s.Ahead k word l → j ≤ l
    | none => ∀ l, ¬ s.Ahead k word l := by
  fun_induction scan s k word with
  | case1 k word nonzero inside =>
    obtain ⟨small, set, least⟩ := Word.lowest_spec nonzero
    refine ⟨Or.inl ⟨by dsimp only; omega, ?_⟩, ?_⟩
    · have part : (64 * k + Word.lowest word) % 64 = Word.lowest word := by omega
      dsimp only
      rwa [part]
    · rintro l (⟨here, other⟩ | ⟨behind, -⟩)
      · have lower : Word.lowest word ≤ l.val % 64 := by
          refine Nat.le_of_not_lt fun below => ?_
          rw [least _ below] at other
          exact Bool.false_ne_true other
        rw [Fin.le_def]
        dsimp only
        omega
      · rw [Fin.le_def]
        dsimp only
        omega
  | case2 k word nonzero outside =>
    obtain ⟨small, set, -⟩ := Word.lowest_spec nonzero
    rw [spare _ small (by omega)] at set
    exact absurd set Bool.false_ne_true
  | case3 k word zero later ih =>
    obtain rfl : word = 0 := by simpa using zero
    have found := ih fun b small beyond => s.spare_clear (k + 1) later b small beyond
    simpa only [ahead_zero later] using found
  | case4 k word zero last =>
    obtain rfl : word = 0 := by simpa using zero
    rintro l (⟨-, absent⟩ | ⟨behind, -⟩)
    · rw [Word.bit_zero (Nat.mod_lt _ (by decide))] at absent
      exact Bool.false_ne_true absent
    · omega

/-- From the word of `i` without the bits below it, the members from `i` on are ahead. -/
theorem ahead_above {s : BitSet n} {i : Nat} (inside : i < n) {j : Fin n} :
    s.Ahead (i / 64) (Word.above s.words[i / 64] (i % 64)) j ↔ j ∈ s ∧ i ≤ j.val := by
  rw [Ahead, Word.bit_above (by omega) (by omega), Bool.and_eq_true, decide_eq_true_iff, mem_def]
  constructor
  · rintro (⟨here, set, lower⟩ | ⟨behind, member⟩)
    · simp only [← here] at set
      exact ⟨set, by omega⟩
    · exact ⟨member, by omega⟩
  · rintro ⟨member, lower⟩
    rcases Nat.eq_or_lt_of_le (Nat.div_le_div_right lower : i / 64 ≤ j.val / 64) with here | behind
    · simp only [← here] at member
      exact Or.inl ⟨here.symm, member, by omega⟩
    · exact Or.inr ⟨behind, member⟩

theorem next?_spec (s : BitSet n) (i : Nat) :
    match s.next? i with
    | some j => (j ∈ s ∧ i ≤ j.val) ∧ ∀ l, l ∈ s ∧ i ≤ l.val → j ≤ l
    | none => ∀ l, ¬ (l ∈ s ∧ i ≤ l.val) := by
  by_cases inside : i < n
  · rw [next?, dif_pos inside]
    have spare : ∀ b < 64, n ≤ 64 * (i / 64) + b →
        Word.bit (Word.above s.words[i / 64] (i % 64)) b = false := by
      intro b small beyond
      rw [Word.bit_above (by omega) small, s.spare_clear _ _ b small beyond, Bool.false_and]
    simpa only [ahead_above inside] using scan_spec (s := s) spare
  · rw [next?, dif_neg inside]
    rintro l ⟨-, lower⟩
    omega

theorem next?_eq_none_iff {s : BitSet n} {i : Nat} :
    s.next? i = none ↔ ∀ j ∈ s, j.val < i := by
  have spec := s.next?_spec i
  cases found : s.next? i with
  | none =>
    rw [found] at spec
    exact iff_of_true rfl fun j member => Nat.lt_of_not_le fun lower => spec j ⟨member, lower⟩
  | some j =>
    rw [found] at spec
    exact iff_of_false (by simp) fun below =>
      Nat.not_le_of_lt (below j spec.1.1) spec.1.2

theorem next?_eq_some_iff {s : BitSet n} {i : Nat} {j : Fin n} :
    s.next? i = some j ↔ j ∈ s ∧ i ≤ j.val ∧ ∀ k ∈ s, i ≤ k.val → j ≤ k := by
  have spec := s.next?_spec i
  cases found : s.next? i with
  | none =>
    rw [found] at spec
    exact iff_of_false (by simp) fun ⟨member, lower, _⟩ => spec j ⟨member, lower⟩
  | some k =>
    rw [found] at spec
    obtain ⟨⟨member, lower⟩, least⟩ := spec
    rw [Option.some.injEq]
    constructor
    · rintro rfl
      exact ⟨member, lower, fun l kept from_i => least l ⟨kept, from_i⟩⟩
    · rintro ⟨kept, from_i, first⟩
      exact Fin.le_antisymm (least j ⟨kept, from_i⟩) (first k member lower)

def first? (s : BitSet n) : Option (Fin n) :=
  s.next? 0

theorem first?_eq_some_iff {s : BitSet n} {j : Fin n} :
    s.first? = some j ↔ j ∈ s ∧ ∀ k ∈ s, j ≤ k := by
  simp [first?, next?_eq_some_iff]

theorem first?_eq_none_iff {s : BitSet n} : s.first? = none ↔ ∀ j, j ∉ s := by
  simp [first?, next?_eq_none_iff]

/-- The members that are at least `i`, in ascending order. -/
def membersFrom (s : BitSet n) (i : Nat) : List (Fin n) :=
  match found : s.next? i with
  | none => []
  | some j => j :: s.membersFrom (j.val + 1)
termination_by n - i
decreasing_by
  have lower := (next?_eq_some_iff.1 found).2.1
  omega

/-- The members in ascending order. -/
def toList (s : BitSet n) : List (Fin n) :=
  s.membersFrom 0

theorem mem_membersFrom {s : BitSet n} {i : Nat} {j : Fin n} :
    j ∈ s.membersFrom i ↔ j ∈ s ∧ i ≤ j.val := by
  fun_induction membersFrom s i with
  | case1 i none =>
    have bound := next?_eq_none_iff.1 none
    simp only [List.not_mem_nil, false_iff]
    rintro ⟨member, lower⟩
    have := bound j member
    omega
  | case2 i k found ih =>
    obtain ⟨member, lower, least⟩ := next?_eq_some_iff.1 found
    rw [List.mem_cons, ih]
    constructor
    · rintro (rfl | ⟨kept, above⟩)
      · exact ⟨member, lower⟩
      · exact ⟨kept, by omega⟩
    · rintro ⟨kept, from_i⟩
      by_cases same : j = k
      · exact Or.inl same
      · exact Or.inr ⟨kept, Nat.lt_of_le_of_ne (least j kept from_i) fun equal =>
          same (Fin.ext equal.symm)⟩

theorem sorted_membersFrom (s : BitSet n) (i : Nat) :
    (s.membersFrom i).Pairwise (· < ·) := by
  fun_induction membersFrom s i with
  | case1 => exact List.Pairwise.nil
  | case2 i k found ih =>
    refine List.Pairwise.cons ?_ ih
    intro j later
    exact (mem_membersFrom.1 later).2

theorem mem_toList {s : BitSet n} {i : Fin n} : i ∈ s.toList ↔ i ∈ s := by
  simp [toList, mem_membersFrom]

theorem sorted_toList (s : BitSet n) : s.toList.Pairwise (· < ·) :=
  sorted_membersFrom s 0

theorem nodup_toList (s : BitSet n) : s.toList.Nodup :=
  s.sorted_toList.imp fun lower => Fin.ne_of_lt lower

theorem sorted_finRange (n : Nat) : (List.finRange n).Pairwise (· < ·) := by
  rw [List.pairwise_iff_getElem]
  intro i j _ _ lower
  simpa [Fin.lt_def] using lower

theorem toList_eq_filter (s : BitSet n) :
    s.toList = (List.finRange n).filter fun i => decide (i ∈ s) := by
  have perm : s.toList.Perm ((List.finRange n).filter fun i => decide (i ∈ s)) := by
    refine (List.perm_ext_iff_of_nodup s.nodup_toList ?_).2 fun i => by simp [mem_toList]
    exact ((sorted_finRange n).filter _).imp fun lower => Fin.ne_of_lt lower
  exact perm.eq_of_pairwise (fun _ _ _ _ lower upper => absurd upper (Fin.lt_asymm lower))
    s.sorted_toList ((sorted_finRange n).filter _)

/-- How many members there are. The set bits of whole words are counted. -/
def count (s : BitSet n) : Nat :=
  s.words.toList.foldl (fun total word => total + Word.ones word) 0

theorem length_toList_le (s : BitSet n) : s.toList.length ≤ n := by
  rw [toList_eq_filter]
  exact Nat.le_trans (List.length_filter_le _ _) (by simp)

/-- How many indices the set lacks. -/
def room (s : BitSet n) : Nat :=
  (List.finRange n).countP fun i => !s.contains i

theorem room_insert_lt {s : BitSet n} {i : Fin n} (fresh : i ∉ s) :
    (s.insert i).room < s.room := by
  have spare : ∀ (l : List (Fin n)), i ∈ l →
      l.countP (fun j => !(s.insert i).contains j) < l.countP fun j => !s.contains j := by
    intro l member
    have weaker : ∀ m : List (Fin n), m.countP (fun j => !(s.insert i).contains j) ≤
        m.countP fun j => !s.contains j := by
      intro m
      apply List.countP_mono_left
      intro j _ lacks
      rw [Bool.not_eq_true', Bool.eq_false_iff, ne_eq, contains_iff_mem] at lacks ⊢
      exact fun kept => lacks (mem_insert.2 (Or.inr kept))
    induction l with
    | nil => cases member
    | cons j l ih =>
      rw [List.countP_cons, List.countP_cons]
      by_cases here : j = i
      · subst here
        have before : (!s.contains j) = true := by
          rw [Bool.not_eq_true', Bool.eq_false_iff, ne_eq, contains_iff_mem]
          exact fresh
        have after : (!(s.insert j).contains j) = false := by
          rw [Bool.not_eq_false', contains_iff_mem]
          exact mem_insert.2 (Or.inl rfl)
        rw [before, after]
        have := weaker l
        simp
        omega
      · have later : i ∈ l := (List.mem_cons.1 member).resolve_left (Ne.symm here)
        have same : (s.insert i).contains j = s.contains j := by
          rw [Bool.eq_iff_iff, contains_iff_mem, contains_iff_mem, mem_insert]
          simp [here]
        rw [same]
        have := ih later
        omega
  exact spare _ (List.mem_finRange i)

end WorkflowSoundness.BitSet
