import WorkflowSoundness.Plan

/-!
Plans by number. A number stands for a way to build a plan from a configuration; registering
a number again replaces what it stood for. Numbers are kept in ascending order.
-/

namespace WorkflowSoundness

/-- The plans known by a number. -/
structure PlanRegistry where
  entries : List (Nat × (Config → Plan))
  ascending : entries.Pairwise fun first second => first.1 < second.1

namespace PlanRegistry

def empty : PlanRegistry where
  entries := []
  ascending := .nil

def ids (registry : PlanRegistry) : List Nat :=
  registry.entries.map Prod.fst

def register (registry : PlanRegistry) (id : Nat) (build : Config → Plan) : PlanRegistry where
  entries := registry.entries.filter (·.1 < id) ++ (id, build) ::
    registry.entries.filter (id < ·.1)
  ascending := by
    have above : ∀ entry ∈ registry.entries.filter (id < ·.1), id < entry.1 := by simp
    refine List.pairwise_append.2 ⟨registry.ascending.filter _,
      .cons above (registry.ascending.filter _), fun entry below later member => ?_⟩
    have lower : entry.1 < id := by simpa using (List.mem_filter.1 below).2
    rcases List.mem_cons.1 member with rfl | member
    · exact lower
    · exact Nat.lt_trans lower (above later member)

def create (registry : PlanRegistry) (id : Nat) (config : Config) : Except Defect Plan :=
  match registry.entries.find? (·.1 == id) with
  | some (_, build) => .ok (build config)
  | none => .error (.unknownPlan id)

/-- The complete plan is number 0, the analysis alone number 1. -/
def defaults : PlanRegistry :=
  (empty.register 0 Plan.complete).register 1 Plan.controlFlow

end PlanRegistry
end WorkflowSoundness
