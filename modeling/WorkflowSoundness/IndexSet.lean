import WorkflowSoundness.BitSet.Scan
import WorkflowSoundness.Fault

/-!
Sets that carry their capacity as a value. Operations check what the typed sets rule out:
an index must be below the capacity, and two operands must have the same one. Each
operation answers what callers branch on: whether an index was new, whether a set changed.
-/

namespace WorkflowSoundness

/-- A set of indices with its capacity. -/
structure IndexSet where
  capacity : Nat
  members : BitSet capacity
  deriving DecidableEq

namespace IndexSet

def empty (capacity : Nat) : IndexSet :=
  ⟨capacity, ∅⟩

def full (capacity : Nat) : IndexSet :=
  ⟨capacity, .full⟩

/-- Adds an index; the answer is whether it was absent before. -/
def insert (s : IndexSet) (i : Nat) : Except Misuse (Bool × IndexSet) :=
  if inside : i < s.capacity then
    .ok (!s.members.contains ⟨i, inside⟩, { s with members := s.members.insert ⟨i, inside⟩ })
  else
    .error .indexOutOfBounds

/-- The set of the given indices; the first that does not fit is the misuse. -/
def ofIndices (capacity : Nat) (indices : List Nat) : Except Misuse IndexSet :=
  indices.foldlM (fun s i => (·.2) <$> s.insert i) (empty capacity)

def erase (s : IndexSet) (i : Nat) : Except Misuse IndexSet :=
  if inside : i < s.capacity then
    .ok { s with members := s.members.erase ⟨i, inside⟩ }
  else
    .error .indexOutOfBounds

def contains (s : IndexSet) (i : Nat) : Except Misuse Bool :=
  if inside : i < s.capacity then
    .ok (s.members.contains ⟨i, inside⟩)
  else
    .error .indexOutOfBounds

def clear (s : IndexSet) : IndexSet :=
  empty s.capacity

def fill (s : IndexSet) : IndexSet :=
  full s.capacity

/-- The operand `t` as a set of the capacity of `s`. -/
def operand (s t : IndexSet) : Except Misuse (BitSet s.capacity) :=
  if same : t.capacity = s.capacity then
    .ok (same ▸ t.members)
  else
    .error .lengthMismatch

private def update (s : IndexSet) (members : BitSet s.capacity) : Bool × IndexSet :=
  (decide (members ≠ s.members), { s with members })

/-- The union, and whether it differs from the first operand. -/
def union (s t : IndexSet) : Except Misuse (Bool × IndexSet) :=
  (fun other => s.update (s.members ∪ other)) <$> s.operand t

/-- The intersection, and whether it differs from the first operand. -/
def inter (s t : IndexSet) : Except Misuse (Bool × IndexSet) :=
  (fun other => s.update (s.members ∩ other)) <$> s.operand t

/-- The difference, and whether it differs from the first operand. -/
def diff (s t : IndexSet) : Except Misuse (Bool × IndexSet) :=
  (fun other => s.update (s.members \ other)) <$> s.operand t

def intersects (s t : IndexSet) : Except Misuse Bool :=
  (fun other => s.members.intersects other) <$> s.operand t

def subset (s t : IndexSet) : Except Misuse Bool :=
  (fun other => s.members.subset other) <$> s.operand t

def isEmpty (s : IndexSet) : Bool :=
  s.members.isEmpty

def count (s : IndexSet) : Nat :=
  s.members.count

/-- The least member that is at least `i`, which need not be below the capacity. -/
def next? (s : IndexSet) (i : Nat) : Option Nat :=
  (s.members.next? i).map Fin.val

def first? (s : IndexSet) : Option Nat :=
  s.next? 0

def toList (s : IndexSet) : List Nat :=
  s.members.toList.map Fin.val

/-- The members between braces, as in {1, 7}. -/
def text (s : IndexSet) : String :=
  "\x7b" ++ ", ".intercalate (s.toList.map toString) ++ "\x7d"

end IndexSet
end WorkflowSoundness
