import WorkflowSoundness.Measurement.Reporter

/-!
What a store of metrics holds after a row of calls. A call changes the value of its own name and key
and no other (`get?_serve`), so a value is made by the calls for its name and key alone, in their
order (`get?_serveAll`).
-/

namespace WorkflowSoundness

/-- The value of a metric after a call for it. -/
def ReporterCall.change (call : ReporterCall) (old : Option Nat) : Option Nat :=
  match call.kind with
  | .put => some call.value
  | .add => some (old.getD 0 + call.value)

namespace MetricStore

variable (store : MetricStore) (graph key : String) (value : Nat)

theorem get?_put_self : (store.put graph key value).get? graph key = some value := by
  simp [get?, put]

theorem get?_put_of_ne {graph' key' : String} (other : ¬ (graph' = graph ∧ key' = key)) :
    (store.put graph key value).get? graph' key' = store.get? graph' key' := by
  have skipped : ¬ (graph == graph' && key == key') = true := by
    rw [Bool.and_eq_true, beq_iff_eq, beq_iff_eq]
    exact fun same => other ⟨same.1.symm, same.2.symm⟩
  have kept : ∀ entry : MetricEntry, (entry.graph == graph' && entry.key == key') = true →
      (!(entry.graph == graph && entry.key == key)) = true := by
    intro entry found
    rw [Bool.and_eq_true, beq_iff_eq, beq_iff_eq] at found
    rw [Bool.not_eq_true', Bool.eq_false_iff, ne_eq, Bool.and_eq_true, beq_iff_eq, beq_iff_eq,
      found.1, found.2]
    exact other
  rw [get?, put, get?, List.find?_cons_of_neg (by exact skipped), List.find?_filter]
  refine congrArg (Option.map _) (congrArg (List.find? · _) (funext fun entry => ?_))
  rw [Bool.eq_iff_iff, decide_eq_true_iff]
  exact and_iff_right_of_imp (kept entry)

/-- The store after a call. -/
def serve (call : ReporterCall) : MetricStore :=
  match call.kind with
  | .put => store.put call.graph call.key call.value
  | .add => store.add call.graph call.key call.value

/-- The store after a row of calls. -/
def serveAll (calls : List ReporterCall) : MetricStore :=
  calls.foldl serve store

variable {graph key}

theorem get?_serve_of_ne {call : ReporterCall} (other : ¬ (graph = call.graph ∧ key = call.key)) :
    (store.serve call).get? graph key = store.get? graph key := by
  unfold serve
  split
  · exact get?_put_of_ne _ _ _ _ other
  · exact get?_put_of_ne _ _ _ _ other

theorem get?_serve_self {call : ReporterCall} :
    (store.serve call).get? call.graph call.key =
      call.change (store.get? call.graph call.key) := by
  unfold serve ReporterCall.change
  split
  · exact get?_put_self _ _ _ _
  · exact get?_put_self _ _ _ _

theorem get?_serveAll (graph key : String) (calls : List ReporterCall) :
    (store.serveAll calls).get? graph key =
      (calls.filter fun call => call.graph == graph && call.key == key).foldl
        (fun old call => call.change old) (store.get? graph key) := by
  induction calls generalizing store with
  | nil => rfl
  | cons call calls ih =>
    rw [serveAll, List.foldl_cons]
    refine (ih (store.serve call)).trans ?_
    by_cases same : graph = call.graph ∧ key = call.key
    · obtain ⟨rfl, rfl⟩ := same
      rw [List.filter_cons_of_pos (by simp), List.foldl_cons, get?_serve_self]
    · rw [get?_serve_of_ne store same, List.filter_cons_of_neg]
      rw [Bool.and_eq_true, beq_iff_eq, beq_iff_eq]
      exact fun both => same ⟨both.1.symm, both.2.symm⟩

end MetricStore
end WorkflowSoundness
