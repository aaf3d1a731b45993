import WorkflowSoundness.Annotation
import WorkflowSoundness.BitSet.Sweep
import WorkflowSoundness.Deadlock.Dataflow
import WorkflowSoundness.Dominance.Basic

/-!
Deadlocks. A join deadlocks if the start edge leads to one of its entering edges and
another branch may stay silent; it deadlocks on a cycle if the edge leaving it leads back
to an entering edge in that way, so that it can fire only after it has fired. A deadlock
comes with a path to each of the entering edges found, and with the choices on these paths
that have a branch from which the join is not sure to be executed.

The edges found from the start are swept (`scan`): the least of those that enter a join is read
and takes the others of the join out of the set, so that each join is reported once.
-/

namespace WorkflowSoundness.Deadlock

variable {E : EdgeGraph} (execution : Execution E) (flow : Dataflow E)

/-- What `origin` leads to while the fact `i` holds. -/
def path (origin i : Fin E.size) : Counted E.Edges :=
  let carrying := BitSet.ofFn fun e => flow.facts[e].contains i
  let found := BitSet.reach (fun e => if e = i then ∅ else E.successors e ∩ carrying) [origin]
  ⟨found, found.count⟩

/-- The choices that the edges of a path other than `i` enter and that may avoid the join
that `out` leaves. -/
def failures (path : E.Edges) (i out : Fin E.size) : List (Fin E.order) :=
  ((path.erase i).toList.map E.target).filter fun v =>
    (E.kindOf v).isChoosing && !(E.leaving v).subset execution.executedBy[out]

/-- The finding at a join that `out` leaves, whose entering edges `reached` are led to from
the edge `origin`. -/
def diagnose (kind : AnnotationKind) (join : Fin E.order) (origin out : Fin E.size)
    (reached : E.Edges) : Counted (Finding E) := do
  let paths ← reached.toList.mapM fun i => (fun path => (i, path)) <$> path flow origin i
  return {
    kind
    printable := join
    opening := some (E.target origin)
    failure := .ofList (paths.flatMap fun (i, path) => failures execution path i out)
    paths := paths.map Prod.snd
    waitingArea := none }

/-- Reads the facts of an edge join by join. With the least fact about a join come all the facts
about it, the entering edges that are led to, and none of them is read again. -/
def scan (information : E.Edges) : List (Fin E.size × E.Edges) :=
  information.sweep fun i => E.entering (E.target i)

section Scan

variable {information : E.Edges}

theorem entering_target (i j : Fin E.size) :
    j ∈ E.entering (E.target i) ↔ E.target j = E.target i :=
  E.mem_entering

/-- The scan reads the least fact about each join, with all the facts about it, although the set
it reads shrinks on the way. -/
theorem mem_scan {i : Fin E.size} {reached : E.Edges} : (i, reached) ∈ scan information ↔
    (i ∈ information ∧ ∀ j ∈ information, E.target j = E.target i → i ≤ j) ∧
      reached = E.entering (E.target i) ∩ information :=
  BitSet.mem_sweep entering_target

/-- The scan reads each join that some fact is about. -/
theorem mem_joins_scan {v : Fin E.order} :
    v ∈ (scan information).map (fun read => E.target read.1) ↔ ∃ i ∈ information, E.target i = v :=
  BitSet.mem_keys_sweep entering_target

/-- No join is read twice. -/
theorem nodup_joins_scan (information : E.Edges) :
    ((scan information).map fun read => E.target read.1).Nodup :=
  BitSet.nodup_keys_sweep entering_target

/-- Joins are read in the order of their least facts. -/
theorem ordered_scan (information : E.Edges) : (scan information).Pairwise fun former latter =>
    ∀ j ∈ information, E.target j = E.target latter.1 → former.1 < j :=
  BitSet.ordered_sweep entering_target

end Scan

/-- The deadlock of a join whose entering edges `reached` the start edge leads to. It begins where
the closest strict dominator of the edge leaving the join ends. -/
def normal (dominance : Dominance E) (join : Fin E.order) (out : Fin E.size)
    (reached : E.Edges) : Counted (Finding E) := do
  Counted.tick 1
  diagnose execution flow .deadlock join ((dominance.immediate? out).getD out) out reached

/-- The deadlock of a join that the edge leaving it leads back to, if there is one. -/
def cyclic (join : Fin E.order) (out : Fin E.size) : Counted (Option (Finding E)) := do
  Counted.tick 1
  let reached := E.entering join ∩ flow.facts[out]
  if reached.isEmpty then
    return none
  else
    some <$> diagnose execution flow .deadlockCycle join out out reached

/-- The deadlocks from the start, then those on cycles in the order of the joins. -/
def compute (dominance : Dominance E) : Except Misuse (Counted (List (Finding E))) := do
  let solution ← Dataflow.solve execution
  let flow := solution.value
  let started ← (scan flow.facts[E.first]).mapM fun (i, reached) =>
    (fun out => (E.target i, out, reached)) <$> E.soleOutgoing (E.target i)
  let joins ← E.joins
  return do
    Counted.tick solution.visits
    let normals ← started.mapM fun (join, out, reached) =>
      normal execution flow dominance join out reached
    let cycles ← joins.mapM fun (join, out) => cyclic execution flow join out
    return normals ++ cycles.filterMap id

end WorkflowSoundness.Deadlock
