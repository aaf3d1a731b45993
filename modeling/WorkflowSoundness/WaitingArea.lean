import WorkflowSoundness.Annotation
import WorkflowSoundness.BitSet.Reach
import WorkflowSoundness.Dominance.Basic

/-!
The waiting area of an or-join: the edges that may still hold a token on its way to the
or-join. It is what leads to the edges that enter the or-join, without the edges that
post-dominate the edge leaving it, for they have fired by then, and without those that
strictly dominate that edge, for the choice that concerns the or-join lies behind them.
-/

namespace WorkflowSoundness

namespace WaitingArea

variable {E : EdgeGraph} (dominance postDominance : Dominance E)

/-- Strict dominance does not hold back the edges that enter the or-join themselves. -/
def areaOf (orJoin : Fin E.order) (out : Fin E.size) : E.Edges :=
  let fired := postDominance.dominatorsOf out
  let undecided := BitSet.ofFn fun e => !dominance.strictlyDominates e out
  BitSet.reach (fun e => (E.predecessors e \ fired) ∩ undecided) (E.entering orJoin \ fired).toList

/-- The or-joins in ascending order, each with its waiting area. -/
def compute : Except Misuse (List (Fin E.order × E.Edges)) :=
  (E.nodesOf .orJoin).mapM fun orJoin =>
    (fun out => (orJoin, areaOf dominance postDominance orJoin out)) <$> E.soleOutgoing orJoin

/-- The area of an or-join, shown at the or-join. -/
def finding (orJoin : Fin E.order) (area : E.Edges) : Finding E where
  kind := .waitingArea
  printable := orJoin
  opening := none
  failure := ∅
  paths := []
  waitingArea := some area

end WaitingArea
end WorkflowSoundness
