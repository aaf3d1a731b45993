/-!
The bits of a 64-bit word. Positions run from 0 at the low end; a statement about a bit
asks for a position below 64. Two words with the same bits are equal.
-/

namespace WorkflowSoundness.Word

def bit (w : UInt64) (i : Nat) : Bool :=
  (w >>> UInt64.ofNat i) &&& 1 == 1

/-- The word whose only bit is `i`. -/
def single (i : Nat) : UInt64 :=
  1 <<< UInt64.ofNat i

/-- The word whose bits are those below `r`, for `r` from 1 to 64. -/
def below (r : Nat) : UInt64 :=
  (0 - 1) >>> UInt64.ofNat (64 - r)

/-- The word without its bits below `r`, for `r` below 64. -/
def above (w : UInt64) (r : Nat) : UInt64 :=
  w &&& (0 - 1) <<< UInt64.ofNat r

/-- The position of the lowest bit that is set, in a word that is not 0. -/
def lowest (w : UInt64) : Nat :=
  (w &&& -w).log2.toNat

/-- How many bits are set. -/
def ones (w : UInt64) : Nat :=
  (List.range 64).countP (bit w)

/-- Shifting a word takes the amount modulo 64, which leaves a position as it is. -/
private theorem toBitVec_amount {i : Nat} (small : i < 64) :
    (UInt64.ofNat i).toBitVec % 64 = BitVec.ofNat 64 i ∧ i % 18446744073709551616 = i := by
  refine ⟨?_, Nat.mod_eq_of_lt (by omega)⟩
  apply BitVec.eq_of_toNat_eq
  simp [BitVec.toNat_umod]
  omega

private theorem toBitVec_shiftRight {w : UInt64} {i : Nat} (small : i < 64) :
    (w >>> UInt64.ofNat i).toBitVec = w.toBitVec >>> i := by
  obtain ⟨amount, wide⟩ := toBitVec_amount small
  rw [UInt64.toBitVec_shiftRight, amount]
  simp [wide]

private theorem toBitVec_shiftLeft {w : UInt64} {i : Nat} (small : i < 64) :
    (w <<< UInt64.ofNat i).toBitVec = w.toBitVec <<< i := by
  obtain ⟨amount, wide⟩ := toBitVec_amount small
  rw [UInt64.toBitVec_shiftLeft, amount]
  simp [wide]

theorem bit_eq_getLsbD {w : UInt64} {i : Nat} (small : i < 64) :
    bit w i = w.toBitVec.getLsbD i := by
  rw [bit, Bool.eq_iff_iff, beq_iff_eq, ← UInt64.toBitVec_inj, UInt64.toBitVec_and,
    toBitVec_shiftRight small]
  constructor
  · intro equal
    simpa using congrArg (fun v => v.getLsbD 0) equal
  · intro set
    apply BitVec.eq_of_getLsbD_eq
    intro j _
    by_cases first : j = 0
    · subst first
      simpa using set
    · simp [first]

theorem bit_zero {i : Nat} (small : i < 64) : bit 0 i = false := by
  rw [bit_eq_getLsbD small]
  simp

theorem bit_and {v w : UInt64} {i : Nat} (small : i < 64) :
    bit (v &&& w) i = (bit v i && bit w i) := by
  simp [bit_eq_getLsbD small]

theorem bit_or {v w : UInt64} {i : Nat} (small : i < 64) :
    bit (v ||| w) i = (bit v i || bit w i) := by
  simp [bit_eq_getLsbD small]

theorem bit_not {w : UInt64} {i : Nat} (small : i < 64) : bit (~~~w) i = !bit w i := by
  simp [bit_eq_getLsbD small, small]

theorem bit_single {i j : Nat} (small : i < 64) (bounded : j < 64) :
    bit (single i) j = decide (i = j) := by
  rw [bit_eq_getLsbD bounded, single, toBitVec_shiftLeft small, BitVec.getLsbD_shiftLeft,
    UInt64.toBitVec_one, BitVec.getLsbD_one]
  grind

private theorem toBitVec_ones : (0 - 1 : UInt64).toBitVec = BitVec.allOnes 64 := by
  decide

theorem bit_below {r i : Nat} (positive : 0 < r) (bounded : r ≤ 64) (small : i < 64) :
    bit (below r) i = decide (i < r) := by
  rw [bit_eq_getLsbD small, below, toBitVec_shiftRight (by omega), toBitVec_ones,
    BitVec.getLsbD_ushiftRight, BitVec.getLsbD_allOnes]
  grind

theorem bit_above {w : UInt64} {r i : Nat} (small : r < 64) (bounded : i < 64) :
    bit (above w r) i = (bit w i && decide (r ≤ i)) := by
  rw [above, bit_and bounded, bit_eq_getLsbD (w := _ <<< _) bounded, toBitVec_shiftLeft small,
    toBitVec_ones, BitVec.getLsbD_shiftLeft, BitVec.getLsbD_allOnes]
  grind

theorem ext {v w : UInt64} (same : ∀ i, i < 64 → bit v i = bit w i) : v = w := by
  rw [← UInt64.toBitVec_inj]
  apply BitVec.eq_of_getLsbD_eq
  intro i small
  simpa [bit_eq_getLsbD small] using same i small

private theorem exists_lowest {w : UInt64} (nonzero : w ≠ 0) :
    ∃ p < 64, bit w p = true ∧ ∀ i < p, bit w i = false := by
  cases found : (List.range 64).find? (bit w) with
  | none =>
    rw [List.find?_range_eq_none] at found
    refine absurd (ext fun i small => ?_) nonzero
    rw [bit_zero small, ← Bool.not_eq_true']
    exact found i small
  | some p =>
    obtain ⟨set, inside, least⟩ := List.find?_range_eq_some.1 found
    exact ⟨p, List.mem_range.1 inside, set, fun i lower => by simpa using least i lower⟩

/-- Of a word and its two's complement, the only common bit is the lowest one of the word. -/
private theorem and_neg {w : UInt64} {p : Nat} (small : p < 64) (set : bit w p = true)
    (least : ∀ i < p, bit w i = false) : w &&& -w = single p := by
  apply ext
  intro i bounded
  have earlier : (∃ j < i, w.toBitVec.getLsbD j = true) ↔ p < i := by
    constructor
    · rintro ⟨j, lower, other⟩
      refine Nat.lt_of_not_le fun upper => ?_
      have clear := least j (Nat.lt_of_lt_of_le lower upper)
      rw [bit_eq_getLsbD (by omega), other] at clear
      exact Bool.false_ne_true clear.symm
    · intro upper
      exact ⟨p, upper, by rwa [← bit_eq_getLsbD small]⟩
  rw [bit_single small bounded, bit_and bounded, bit_eq_getLsbD (w := -w) bounded,
    UInt64.toBitVec_neg, BitVec.getLsbD_neg, ← bit_eq_getLsbD bounded]
  rcases Nat.lt_trichotomy i p with lower | rfl | upper
  · simp [least i lower, Nat.ne_of_gt lower]
  · simp [set, earlier]
  · simp [earlier, upper, bounded, Nat.ne_of_lt upper]

private theorem log2_single : ∀ i < 64, (single i).log2.toNat = i := by
  decide +kernel

theorem lowest_spec {w : UInt64} (nonzero : w ≠ 0) :
    lowest w < 64 ∧ bit w (lowest w) = true ∧ ∀ i < lowest w, bit w i = false := by
  obtain ⟨p, small, set, least⟩ := exists_lowest nonzero
  have here : lowest w = p := by
    rw [lowest, and_neg small set least, log2_single p small]
  rw [here]
  exact ⟨small, set, least⟩

end WorkflowSoundness.Word
