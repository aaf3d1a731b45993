import Mathlib.Algebra.Order.BigOperators.Group.List
import Mathlib.Algebra.Order.Ring.Nat
import Mathlib.Data.List.Perm.Subperm
import WorkflowSoundness.BitSet.Scan
import WorkflowSoundness.Table

/-!
How many members a set has and lacks, what a row of steps does to a table of sets, and bounds on
sums over all indices, which measure how far such a row can go.
-/

namespace WorkflowSoundness

section Sum

variable {n : Nat} {f g : Fin n → Nat}

theorem sum_finRange_le {bound : Nat} (low : ∀ a, f a ≤ bound) :
    ((List.finRange n).map f).sum ≤ n * bound := by
  have each : ∀ k ∈ (List.finRange n).map f, k ≤ bound := by
    intro k listed
    obtain ⟨a, -, rfl⟩ := List.mem_map.1 listed
    exact low a
  have all := List.sum_le_card_nsmul _ bound each
  rwa [List.length_map, List.length_finRange, Nat.nsmul_eq_mul] at all

/-- One entry that falls while the others stay lowers the sum. -/
theorem sum_finRange_lt {e : Fin n} (strict : f e < g e) (rest : ∀ a, e ≠ a → f a = g a) :
    ((List.finRange n).map f).sum < ((List.finRange n).map g).sum := by
  refine List.sum_lt_sum f g (fun a _ => ?_) ⟨e, List.mem_finRange e, strict⟩
  by_cases here : e = a
  · exact here ▸ Nat.le_of_lt strict
  · exact Nat.le_of_eq (rest a here)

end Sum

/-- Each step adds something to the set at one index. -/
theorem mem_foldl_set {n m : Nat} (add : Fin n → BitSet m → BitSet m)
    (new : Fin n → Fin m → Prop) (adds : ∀ a s x, x ∈ add a s ↔ x ∈ s ∨ new a x)
    {l : List (Fin n)} {t : Table (BitSet m) n} {a : Fin n} {x : Fin m} :
    x ∈ (l.foldl (fun table b => table.set b (add b table[b])) t)[a] ↔
      x ∈ t[a] ∨ a ∈ l ∧ new a x := by
  induction l generalizing t with
  | nil => simp
  | cons b l ih =>
    rw [List.foldl_cons, ih, Table.getElem_set, List.mem_cons]
    by_cases here : b = a
    · subst here
      rw [if_pos rfl, adds]
      constructor
      · rintro ((old | isNew) | ⟨-, isNew⟩)
        · exact Or.inl old
        · exact Or.inr ⟨Or.inl rfl, isNew⟩
        · exact Or.inr ⟨Or.inl rfl, isNew⟩
      · rintro (old | ⟨-, isNew⟩)
        · exact Or.inl (Or.inl old)
        · exact Or.inl (Or.inr isNew)
    · rw [if_neg here]
      exact or_congr_right (and_congr_left fun _ =>
        ⟨Or.inr, fun either => either.resolve_left (Ne.symm here)⟩)

/-- A list with one member lists it once if it repeats nothing. -/
theorem eq_singleton_of_nodup {α : Type} {l : List α} (once : l.Nodup) {a : α}
    (only : ∀ x, x ∈ l ↔ x = a) : l = [a] := by
  refine List.perm_singleton.1 ?_
  refine (List.perm_ext_iff_of_nodup once (List.pairwise_singleton _ a)).2 fun x => ?_
  rw [only, List.mem_singleton]

theorem nodup_eraseDups {α : Type} [BEq α] [LawfulBEq α] (l : List α) : l.eraseDups.Nodup := by
  induction size : l.length using Nat.strongRecOn generalizing l with
  | ind n ih =>
    cases l with
    | nil => exact List.nodup_nil
    | cons a l =>
      rw [List.eraseDups_cons, List.nodup_cons, List.mem_eraseDups]
      subst size
      refine ⟨fun again => ?_, ih _ (Nat.lt_succ_of_le (List.length_filter_le _ l)) _ rfl⟩
      have other := (List.mem_filter.1 again).2
      rw [beq_self_eq_true] at other
      cases other

/-- What a list of images lists can be listed in the same order. -/
theorem exists_perm_map {α β : Type} {f : α → β} {l : List α} {m : List β}
    (perm : (l.map f).Perm m) : ∃ k : List α, k.Perm l ∧ k.map f = m := by
  induction m generalizing l with
  | nil =>
    have none := List.map_eq_nil_iff.1 perm.eq_nil
    exact ⟨[], none ▸ .refl [], rfl⟩
  | cons b m ih =>
    obtain ⟨a, member, rfl⟩ := List.mem_map.1 (perm.mem_iff.2 List.mem_cons_self)
    obtain ⟨l₁, l₂, rfl⟩ := List.append_of_mem member
    have rest : ((l₁ ++ l₂).map f).Perm m := by
      refine (List.perm_cons (f a)).1 (List.Perm.trans (List.Perm.symm ?_) perm)
      exact (List.perm_middle (a := a)).map f
    obtain ⟨k, same, rfl⟩ := ih rest
    exact ⟨a :: k, (same.cons a).trans List.perm_middle.symm, rfl⟩

namespace Word

/-- Bit `i` of a row of words; there is none behind the last word. -/
def bitOf (words : List UInt64) (i : Nat) : Bool :=
  words[i / 64]?.any fun word => bit word (i % 64)

theorem foldl_ones (words : List UInt64) (before : Nat) :
    words.foldl (fun total word => total + ones word) before =
      before + (List.range (64 * words.length)).countP (bitOf words) := by
  induction words generalizing before with
  | nil => simp
  | cons word words ih =>
    have here : (List.range 64).countP (bitOf (word :: words)) = ones word := by
      refine List.countP_congr fun i listed => ?_
      have small := List.mem_range.1 listed
      simp [bitOf, Nat.div_eq_of_lt small, Nat.mod_eq_of_lt small]
    have later : (List.range (64 * words.length)).countP (bitOf (word :: words) ∘ (64 + ·)) =
        (List.range (64 * words.length)).countP (bitOf words) := by
      refine List.countP_congr fun i _ => ?_
      have next : (64 + i) / 64 = i / 64 + 1 := by omega
      simp [bitOf, next]
    rw [List.foldl_cons, ih, List.length_cons, Nat.mul_succ, Nat.add_comm _ 64, List.range_add,
      List.countP_append, List.countP_map, here, later, Nat.add_assoc]

end Word

namespace BitSet

variable {n : Nat} {s t : BitSet n} {i : Fin n}

/-! ### The words of a set -/

theorem bitOf_words (i : Fin n) : Word.bitOf s.words.toList i = s.contains i := by
  have inside := word_lt i
  simp [Word.bitOf, contains, inside]

theorem bitOf_words_of_le {i : Nat} (outside : n ≤ i) : Word.bitOf s.words.toList i = false := by
  unfold Word.bitOf
  by_cases inside : i / 64 < (n + 63) / 64
  · have clear := s.spare_clear (i / 64) inside (i % 64) (by omega) (by omega)
    simp [inside, clear]
  · simp [inside]

/-- Whole words are counted, which is the number of members since no spare bit is set. -/
theorem count_eq_length_toList (s : BitSet n) : s.count = s.toList.length := by
  have whole : 64 * s.words.toList.length = n + (64 * ((n + 63) / 64) - n) := by
    rw [Vector.length_toList]
    omega
  have spare : (List.range (64 * ((n + 63) / 64) - n)).countP
      (Word.bitOf s.words.toList ∘ (n + ·)) = 0 :=
    List.countP_eq_zero.2 fun i _ => by simp [bitOf_words_of_le]
  rw [count, Word.foldl_ones, whole, List.range_add, List.countP_append, List.countP_map, spare,
    ← List.map_coe_finRange_eq_range, List.countP_map, toList_eq_filter,
    ← List.countP_eq_length_filter, Nat.zero_add, Nat.add_zero]
  refine List.countP_congr fun i _ => ?_
  rw [Function.comp_apply, bitOf_words, contains_iff_mem, decide_eq_true_iff]

theorem count_le (s : BitSet n) : s.count ≤ n :=
  Nat.le_trans (Nat.le_of_eq s.count_eq_length_toList) s.length_toList_le

/-! ### Members -/

/-- The members are listed from the least one on. -/
theorem head?_toList (s : BitSet n) : s.toList.head? = s.first? := by
  symm
  cases listed : s.toList with
  | nil =>
    rw [List.head?_nil, first?_eq_none_iff]
    intro j member
    rw [← mem_toList, listed] at member
    cases member
  | cons j rest =>
    rw [List.head?_cons, first?_eq_some_iff]
    have sorted := sorted_toList s
    rw [listed, List.pairwise_cons] at sorted
    refine ⟨mem_toList.1 (by simp [listed]), fun k member => ?_⟩
    rw [← mem_toList, listed, List.mem_cons] at member
    obtain rfl | later := member
    · exact Fin.le_refl k
    · exact Fin.le_of_lt (sorted.1 k later)

theorem count_eq_one_iff : s.count = 1 ↔ ∃ e, ∀ x, x ∈ s ↔ x = e := by
  rw [count_eq_length_toList, List.length_eq_one_iff]
  constructor
  · rintro ⟨e, only⟩
    exact ⟨e, fun x => by rw [← mem_toList, only, List.mem_singleton]⟩
  · rintro ⟨e, only⟩
    exact ⟨e, eq_singleton_of_nodup (nodup_toList s) fun x => by rw [mem_toList, only]⟩

theorem count_eq_zero_iff : s.count = 0 ↔ ∀ x, x ∉ s := by
  rw [count_eq_length_toList, List.length_eq_zero_iff, List.eq_nil_iff_forall_not_mem]
  exact forall_congr' fun x => not_congr mem_toList

theorem count_le_of_subset {l : List (Fin n)} (within : ∀ x ∈ s, x ∈ l) : s.count ≤ l.length := by
  rw [count_eq_length_toList]
  exact (List.subperm_of_subset (nodup_toList s) fun x member =>
    within x (mem_toList.1 member)).length_le

theorem count_mono (within : ∀ x ∈ s, x ∈ t) : s.count ≤ t.count := by
  rw [count_eq_length_toList t]
  exact count_le_of_subset fun x member => mem_toList.2 (within x member)

theorem le_count_of_subset {l : List (Fin n)} (once : l.Nodup) (within : ∀ x ∈ l, x ∈ s) :
    l.length ≤ s.count := by
  rw [count_eq_length_toList]
  exact (List.subperm_of_subset once fun x member => mem_toList.2 (within x member)).length_le

theorem two_le_count_iff : 2 ≤ s.count ↔ ∃ x y, x ∈ s ∧ y ∈ s ∧ x ≠ y := by
  constructor
  · intro several
    obtain ⟨x, y, rest, split⟩ : ∃ x y rest, s.toList = x :: y :: rest := by
      rw [count_eq_length_toList] at several
      match s.toList, several with
      | x :: y :: rest, _ => exact ⟨x, y, rest, rfl⟩
    have once := nodup_toList s
    rw [split] at once
    refine ⟨x, y, ?_, ?_, fun same => ?_⟩
    · exact mem_toList.1 (split ▸ List.mem_cons_self)
    · exact mem_toList.1 (split ▸ List.mem_cons_of_mem _ List.mem_cons_self)
    · exact (List.nodup_cons.1 once).1 (same ▸ List.mem_cons_self)
  · rintro ⟨x, y, left, right, other⟩
    refine le_count_of_subset (l := [x, y]) ?_ fun z member => ?_
    · exact List.pairwise_pair.2 other
    · rcases List.mem_cons.1 member with rfl | member
      · exact left
      · exact List.mem_singleton.1 member ▸ right

theorem count_erase (member : i ∈ s) : (s.erase i).count + 1 = s.count := by
  have perm : (i :: (s.erase i).toList).Perm s.toList := by
    refine (List.perm_ext_iff_of_nodup ?_ (nodup_toList s)).2 fun x => ?_
    · exact List.nodup_cons.2 ⟨fun again => (mem_erase.1 (mem_toList.1 again)).1 rfl,
        nodup_toList _⟩
    · rw [List.mem_cons, mem_toList, mem_toList, mem_erase]
      constructor
      · rintro (rfl | ⟨-, kept⟩)
        · exact member
        · exact kept
      · intro kept
        by_cases here : x = i
        · exact Or.inl here
        · exact Or.inr ⟨here, kept⟩
  rw [count_eq_length_toList, count_eq_length_toList]
  exact perm.length_eq

theorem count_lt_of_subset (within : ∀ x ∈ t, x ∈ s) (other : t ≠ s) : t.count < s.count := by
  obtain ⟨x, here, gone⟩ : ∃ x ∈ s, x ∉ t := Classical.byContradiction fun none =>
    other <| ext fun y => ⟨within y, fun here =>
      Classical.byContradiction fun gone => none ⟨y, here, gone⟩⟩
  have less := count_erase here
  have few : t.count ≤ (s.erase x).count := count_mono fun y inside =>
    mem_erase.2 ⟨fun same => gone (same ▸ inside), within y inside⟩
  omega

theorem count_eq_countP (s : BitSet n) : s.count = (List.finRange n).countP s.contains := by
  rw [count_eq_length_toList, toList_eq_filter, List.countP_eq_length_filter]
  congr 1
  refine List.filter_congr fun x _ => ?_
  rw [Bool.eq_iff_iff, decide_eq_true_iff, contains_iff_mem]

/-- What a union adds to a set, the set no longer lacks. -/
theorem room_union : (s ∪ t).room + (t \ s).count = s.room := by
  rw [count_eq_countP, room, room,
    List.countP_eq_countP_filter_add (List.finRange n) (fun x => !s.contains x) t.contains,
    List.countP_filter, List.countP_filter, Nat.add_comm]
  congr 1
  · refine List.countP_congr fun x _ => ?_
    rw [contains_iff_mem, mem_sdiff, Bool.and_eq_true, Bool.not_eq_true', Bool.eq_false_iff, ne_eq,
      contains_iff_mem, contains_iff_mem, and_comm]
  · refine List.countP_congr fun x _ => ?_
    simp only [Bool.and_eq_true, Bool.not_eq_true', Bool.eq_false_iff, ne_eq, contains_iff_mem,
      mem_union, not_or]

theorem room_le (s : BitSet n) : s.room ≤ n := by
  have few : s.room ≤ (List.finRange n).length := List.countP_le_length
  rwa [List.length_finRange] at few

end BitSet
end WorkflowSoundness
