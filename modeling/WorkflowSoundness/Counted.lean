/-!
Values together with the number of visits that it took to find them. Counting never
changes a value: `value` turns a counted computation into the plain one.
-/

namespace WorkflowSoundness

/-- A value and the number of visits that it took to find it. -/
structure Counted (α : Type) where
  value : α
  visits : Nat

namespace Counted

variable {α β : Type}

instance : Monad Counted where
  pure value := ⟨value, 0⟩
  bind first next :=
    let second := next first.value
    ⟨second.value, first.visits + second.visits⟩

instance : LawfulMonad Counted := LawfulMonad.mk' Counted
  (fun first => by cases first; rfl)
  (fun value next => by simp [pure, bind])
  (fun first next last => by simp [bind, Nat.add_assoc])

/-- Counts visits and does nothing else. -/
def tick (visits : Nat) : Counted Unit :=
  ⟨(), visits⟩

@[simp] theorem value_pure (a : α) : (pure a : Counted α).value = a :=
  rfl

@[simp] theorem value_bind (first : Counted α) (next : α → Counted β) :
    (first >>= next).value = (next first.value).value :=
  rfl

@[simp] theorem visits_pure (a : α) : (pure a : Counted α).visits = 0 :=
  rfl

@[simp] theorem visits_bind (first : Counted α) (next : α → Counted β) :
    (first >>= next).visits = first.visits + (next first.value).visits :=
  rfl

theorem value_foldlM (f : β → α → Counted β) (start : β) (l : List α) :
    (l.foldlM f start).value = l.foldl (fun b a => (f b a).value) start := by
  induction l generalizing start with
  | nil => rfl
  | cons a l ih =>
    rw [List.foldlM_cons, value_bind, ih, List.foldl_cons]

end Counted
end WorkflowSoundness
