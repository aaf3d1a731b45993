/-!
Tables: one value for each index below a fixed size. An index carries its bound, so looking
a value up and replacing it cannot fail. A table is what its values are (`ext`), and each
way of making one is described by the values it holds.
-/

namespace WorkflowSoundness

/-- A value for each index below `n`. -/
structure Table (α : Type) (n : Nat) where
  values : Vector α n
  deriving DecidableEq

namespace Table

variable {α β : Type} {n : Nat}

instance : GetElem (Table α n) (Fin n) α fun _ _ => True where
  getElem t i _ := t.values.get i

theorem getElem_def (t : Table α n) (i : Fin n) : t[i] = t.values[i.val] :=
  rfl

theorem ext {t u : Table α n} (same : ∀ i : Fin n, t[i] = u[i]) : t = u := by
  obtain ⟨v⟩ := t
  obtain ⟨w⟩ := u
  congr 1
  apply Vector.ext
  intro i inside
  exact same ⟨i, inside⟩

def ofFn (f : Fin n → α) : Table α n :=
  ⟨Vector.ofFn f⟩

@[simp] theorem getElem_ofFn (f : Fin n → α) (i : Fin n) : (ofFn f)[i] = f i := by
  simp [getElem_def, ofFn]

def replicate (n : Nat) (a : α) : Table α n :=
  ⟨Vector.replicate n a⟩

@[simp] theorem getElem_replicate (a : α) (i : Fin n) : (replicate n a)[i] = a := by
  simp [getElem_def, replicate]

/-- The table of a list's entries in their order. -/
def ofList (l : List α) : Table α l.length :=
  ⟨⟨l.toArray, rfl⟩⟩

@[simp] theorem getElem_ofList (l : List α) (i : Fin l.length) : (ofList l)[i] = l[i] :=
  rfl

def set (t : Table α n) (i : Fin n) (a : α) : Table α n :=
  ⟨t.values.set i a⟩

theorem getElem_set (t : Table α n) (i j : Fin n) (a : α) :
    (t.set i a)[j] = if i = j then a else t[j] := by
  simp [getElem_def, set, Vector.getElem_set, Fin.ext_iff]

@[simp] theorem getElem_set_self (t : Table α n) (i : Fin n) (a : α) : (t.set i a)[i] = a := by
  simp [getElem_set]

theorem getElem_set_ne {t : Table α n} {i j : Fin n} (other : i ≠ j) (a : α) :
    (t.set i a)[j] = t[j] := by
  simp [getElem_set, other]

end Table
end WorkflowSoundness
