import Mathlib.Data.List.OfFn
import WorkflowSoundness.Proofs.Rules

/-!
Which rule `validate` answers. Once the rules on the numbers of events and flows hold, the answer
is the least node that no way from the start leads to (`validate_eq_unreachable_iff`); if there is
none, the least one from which no way leads to the end (`validate_eq_noPathToEnd_iff`). Any other
answer names a rule on numbers (`exists_degrees_or_error`).
-/

namespace WorkflowSoundness.Graph

variable {g : Graph} {start finish n : Nat}

theorem lacking?_map_eq_some_iff {s : BitSet g.order} {P : Nat → Prop}
    (told : ∀ p : Fin g.order, p ∈ s ↔ P p) : (lacking? s).map Fin.val = some n ↔
    n < g.order ∧ ¬ P n ∧ ∀ m, m < n → P m := by
  have least : ∀ p : Fin g.order, lacking? s = some p ↔ ¬ P p ∧ ∀ q : Fin g.order, q < p → P q := by
    intro p
    rw [lacking?, ← Fin.find?_eq_find?_finRange, Fin.find?_eq_some_iff]
    simp [← told, ← BitSet.contains_iff_mem]
  rw [Option.map_eq_some_iff]
  constructor
  · rintro ⟨p, lacks, rfl⟩
    obtain ⟨absent, before⟩ := (least p).1 lacks
    exact ⟨p.isLt, absent, fun m lower => before ⟨m, Nat.lt_trans lower p.isLt⟩ lower⟩
  · rintro ⟨inside, absent, before⟩
    exact ⟨⟨n, inside⟩, (least ⟨n, inside⟩).2 ⟨absent, fun q lower => before q lower⟩, rfl⟩

namespace Degrees

theorem validate_eq_unreachable_iff (degrees : g.Degrees start finish) :
    g.validate = .error (.unreachable n) ↔ n < g.order ∧ ¬ g.Way start n ∧
      ∀ m, m < n → g.Way start m := by
  rw [← lacking?_map_eq_some_iff fun p => mem_reachable_iff (lt_order_of_nodesOf degrees.starts),
    degrees.validate_eq]
  cases lacking? (g.reachable start) with
  | some p => simp
  | none => cases lacking? (g.coreachable finish) <;> simp

theorem validate_eq_noPathToEnd_iff (degrees : g.Degrees start finish) :
    g.validate = .error (.noPathToEnd n) ↔ (∀ v, v < g.order → g.Way start v) ∧
      n < g.order ∧ ¬ g.Way n finish ∧ ∀ m, m < n → g.Way m finish := by
  rw [← lacking?_map_eq_some_iff (P := (g.Way · finish))
      fun p => mem_coreachable_iff (lt_order_of_nodesOf degrees.finishes),
    ← lacking?_eq_none_iff fun p => mem_reachable_iff (lt_order_of_nodesOf degrees.starts),
    degrees.validate_eq]
  cases lacking? (g.reachable start) with
  | some p => simp
  | none => cases lacking? (g.coreachable finish) <;> simp

end Degrees

/-- The defect is not about ways. -/
def IsNumerical (cause : Defect) : Prop :=
  ∀ n, cause ≠ .unreachable n ∧ cause ≠ .noPathToEnd n

theorem isNumerical_of_uniqueStart {cause : Defect} (failed : g.uniqueStart = .error cause) :
    IsNumerical cause := by
  unfold uniqueStart at failed
  split at failed
  · cases failed
  · cases failed
    simp [IsNumerical]
  · cases failed
    simp [IsNumerical]

theorem isNumerical_of_uniqueFinish {cause : Defect} (failed : g.uniqueFinish = .error cause) :
    IsNumerical cause := by
  unfold uniqueFinish at failed
  split at failed
  · cases failed
  · cases failed
    simp [IsNumerical]
  · cases failed
    simp [IsNumerical]

/-- Unless the rules on numbers hold, one of them is answered. -/
theorem exists_degrees_or_error (g : Graph) : (∃ start finish, g.Degrees start finish) ∨
    ∃ cause, g.validate = .error cause ∧ IsNumerical cause := by
  cases hasStart : g.uniqueStart with
  | error cause =>
    have failed : g.validate = .error cause := by rw [validate, hasStart]; rfl
    exact Or.inr ⟨cause, failed, isNumerical_of_uniqueStart hasStart⟩
  | ok start =>
    cases hasFinish : g.uniqueFinish with
    | error cause =>
      have failed : g.validate = .error cause := by rw [validate, hasStart, hasFinish]; rfl
      exact Or.inr ⟨cause, failed, isNumerical_of_uniqueFinish hasFinish⟩
    | ok finish =>
      rcases degrees_or_malformed hasStart hasFinish with degrees | ⟨rule, failed⟩
      · exact Or.inl ⟨start, finish, degrees⟩
      · exact Or.inr ⟨.malformed rule, failed, fun n => by simp⟩

/-- An answer about ways comes after the rules on numbers. -/
theorem exists_degrees {cause : Defect} (failed : g.validate = .error cause)
    (late : ¬ IsNumerical cause) : ∃ start finish, g.Degrees start finish := by
  rcases g.exists_degrees_or_error with degrees | ⟨other, failed', early⟩
  · exact degrees
  · rw [failed] at failed'
    cases failed'
    exact absurd early late

theorem validate_eq_ok_iff_degrees : g.validate = .ok () ↔ ∃ start finish,
    g.Degrees start finish ∧ ∀ v, v < g.order → g.Way start v ∧ g.Way v finish := by
  rw [validate_eq_ok_iff]
  simp only [obeys_iff]

/-- The answer is the least node that the start does not lead to. -/
theorem validate_eq_unreachable_iff : g.validate = .error (.unreachable n) ↔ ∃ start finish,
    g.Degrees start finish ∧ n < g.order ∧ ¬ g.Way start n ∧ ∀ m, m < n → g.Way start m := by
  constructor
  · intro failed
    obtain ⟨start, finish, degrees⟩ := exists_degrees failed fun early => (early n).1 rfl
    exact ⟨start, finish, degrees, degrees.validate_eq_unreachable_iff.1 failed⟩
  · rintro ⟨start, finish, degrees, least⟩
    exact degrees.validate_eq_unreachable_iff.2 least

/-- If the start leads to every node, the answer is the least one that does not lead to the end. -/
theorem validate_eq_noPathToEnd_iff : g.validate = .error (.noPathToEnd n) ↔ ∃ start finish,
    g.Degrees start finish ∧ (∀ v, v < g.order → g.Way start v) ∧
      n < g.order ∧ ¬ g.Way n finish ∧ ∀ m, m < n → g.Way m finish := by
  constructor
  · intro failed
    obtain ⟨start, finish, degrees⟩ := exists_degrees failed fun early => (early n).2 rfl
    exact ⟨start, finish, degrees, degrees.validate_eq_noPathToEnd_iff.1 failed⟩
  · rintro ⟨start, finish, degrees, least⟩
    exact degrees.validate_eq_noPathToEnd_iff.2 least

end WorkflowSoundness.Graph
