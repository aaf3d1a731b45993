import WorkflowSoundness.Proofs.Abundance.Candidates
import WorkflowSoundness.Proofs.Abundance.Reuse

/-!
The abundance analysis as the use of one session. The session is turned to a fork and asked for the
flow to each of its definitions in a row (`consult`). It refuses the edges that it has been asked
for since the turn, so it answers for the first definition of each edge (`Turned.consult_eq`), and
what it answers are the meetings of the fork, whatever it has been used for before
(`meetings_of_consult`).
-/

namespace WorkflowSoundness

namespace NetworkSession

open Abundance

variable {E : EdgeGraph} {session : NetworkSession E} {fork : Fin E.order} {entry e : Fin E.size}
  {room : Fin E.size → E.Edges} {definition : Definition E} {later : List (Definition E)}

/-- Prepares the flow to the source of `e` over the edges that `room` gives for it. -/
def aim (session : NetworkSession E) (room : Fin E.size → E.Edges) (e : Fin E.size) :
    Except Misuse Bool × NetworkSession E :=
  session.setCapacities e.val ((room e).toList.map Fin.val)

/-- Asks for the flow to one definition after the other and passes over those that are refused. -/
def consult (session : NetworkSession E) (room : Fin E.size → E.Edges) :
    List (Definition E) → List (Definition E × Except Misuse (FlowAnswer E))
  | [] => []
  | definition :: later =>
    let (taken, aimed) := session.aim room definition.edge
    match taken with
    | .ok true => (definition, aimed.compute.1) :: aimed.compute.2.consult room later
    | _ => aimed.consult room later

/-- A sink that has been asked for before is passed over. -/
theorem consult_of_refused (refused : session.aim room definition.edge = (.ok false, session)) :
    session.consult room (definition :: later) = session.consult room later := by
  rw [consult, refused]

/-- A new sink is answered for, and the session goes on from there. -/
theorem consult_of_taken (taken : (session.aim room definition.edge).1 = .ok true) :
    session.consult room (definition :: later) =
      (definition, (session.aim room definition.edge).2.compute.1) ::
        (session.aim room definition.edge).2.compute.2.consult room later := by
  rw [consult]
  dsimp only
  rw [taken]

/-- A sink that is taken and the flow to it leave the session turned, with the sink checked. -/
theorem Turned.aim (turned : Turned session fork entry) (room : Fin E.size → E.Edges)
    (fresh : e ∉ session.checked) :
    Turned (session.aim room e).2.compute.2 fork entry ∧
      (session.aim room e).2.compute.2.checked = session.checked.insert e := by
  refine ⟨(turned.serve (.setCapacities _ _)).serve .compute, ?_⟩
  rw [(compute_frame _).2.1]
  obtain ⟨shown, capacity, flow, turn⟩ := turned
  simp only [NetworkSession.aim, NetworkSession.setCapacities, shown, turn, dif_pos e.isLt]
  rw [if_neg (mt BitSet.contains_iff_mem.1 fresh)]

/-- A session turned to a fork answers for the first definition of each edge that has not been
checked, with the flow that the analysis computes. -/
theorem Turned.consult_eq (turned : Turned session fork entry) (room : Fin E.size → E.Edges)
    (definitions : List (Definition E)) :
    session.consult room definitions =
      ((distinctEdges definitions).filter fun definition =>
        !session.checked.contains definition.edge).map fun definition =>
          let flow := (maximize fork entry (room definition.edge) definition.edge).value
          (definition, .ok ⟨flow.1, flow.2⟩) := by
  induction definitions generalizing session with
  | nil => rfl
  | cons definition later ih =>
    obtain ⟨refused, taken⟩ := turned.setCapacities_eq definition.edge (room definition.edge)
    rw [filter_distinctEdges]
    by_cases checked : definition.edge ∈ session.checked
    · rw [if_pos (BitSet.contains_iff_mem.2 checked), consult_of_refused (refused checked),
        ih turned]
    · have ready := turned.setCapacities (taken checked)
      obtain ⟨after, known⟩ := turned.aim room checked
      rw [if_neg (mt BitSet.contains_iff_mem.1 checked), consult_of_taken (taken checked),
        List.map_cons, ih after, known]
      exact congrArg (fun answer => (definition, answer) :: _) ready.answer_eq

/-- On a closed valid graph, whatever a session has been used for before: turned to a fork and asked
for the flow to each candidate in a row, it takes the first definition of each edge, and its
answers of two paths or more are the meetings that the analysis finds. -/
theorem meetings_of_consult {g : Graph} {E : EdgeGraph} (accepted : g.validate = .ok ())
    (closed : EdgeGraph.ofGraph g = .ok E) {fork : Fin E.order}
    (forking : (E.kindOf fork).isForking = true) (session : NetworkSession E) :
    let room := Abundance.allowed E.basisOf (E.bondOf fork)
    let candidates := (E.definitionsOf fork).filter (isCandidate (E.bondOf fork))
    let answers := (session.transform fork).2.consult room candidates
    answers.map Prod.fst = distinctEdges candidates ∧
      (E.meetingsOf fork).map (fun meeting =>
          (meeting.definition, Except.ok (FlowAnswer.mk meeting.value meeting.paths))) =
        answers.filter fun (_, answer) =>
          match answer with
          | .ok flow => 2 ≤ flow.value
          | .error _ => false := by
  have valid := EdgeGraph.valid_of_validate accepted closed
  have splitting := NodeKind.isSplitting_of_isForking forking
  intro room candidates answers
  have answered : answers = (distinctEdges candidates).map fun definition =>
      let flow := (maximize fork (E.entryOf fork) (room definition.edge) definition.edge).value
      (definition, .ok ⟨flow.1, flow.2⟩) := by
    have asked := (turned_transform valid splitting session).2.consult_eq room candidates
    rwa [checked_transform, filter_unchecked] at asked
  rw [answered]
  constructor
  · rw [List.map_map]
    exact List.map_id _
  · rw [List.filter_map, ← List.filterMap_eq_filter, List.map_filterMap, EdgeGraph.meetingsOf,
      List.map_filterMap]
    refine List.filterMap_congr fun definition _ => ?_
    simp only [meeting?, Counted.value_bind, Option.guard, Function.comp_apply, decide_eq_true_iff]
    split
    · rename_i single
      rw [if_neg (Nat.not_le.2 single)]
      rfl
    · rename_i several
      rw [if_pos (Nat.le_of_not_lt several)]
      rfl

end NetworkSession

end WorkflowSoundness
