import WorkflowSoundness.Proofs.Abundance.Session

/-!
Reuse of a session. A turn arranges the edges, clears the capacities and the flow and forgets the
sinks, so two sessions turned to one fork differ at most in the source and the sink they were left
with (`Alike`). Those are told with the next sink that is taken. From then on the sessions answer
alike (`Aimed.answers_eq`), and nobody should ask for a flow before (`Prepared`).

A sink is taken once in a turn: the sinks checked are those told since (`Turned.mem_checked_iff`).
-/

namespace WorkflowSoundness

namespace NetworkSession

variable {E : EdgeGraph} {session former latter : NetworkSession E} {fork : Fin E.order}
  {entry sink : Fin E.size} {allowed : E.Edges}

/-- What a session answers to a request. -/
inductive Answer (E : EdgeGraph) where
  | capacities (outcome : Except Misuse Bool)
  | flow (outcome : Except Misuse (FlowAnswer E))

/-- The answer is not a misuse. -/
def Answer.Given : Answer E → Prop
  | .capacities outcome => ∃ taken, outcome = .ok taken
  | .flow outcome => ∃ flow, outcome = .ok flow

/-- A request that names edges of the workflow only. -/
def Request.Proper (E : EdgeGraph) : Request → Prop
  | .setCapacities sink allowed =>
    ∃ (edge : Fin E.size) (edges : E.Edges),
      sink = edge.val ∧ allowed = edges.toList.map Fin.val
  | .compute => True

def answer (session : NetworkSession E) : Request → Answer E
  | .setCapacities sink allowed => .capacities (session.setCapacities sink allowed).1
  | .compute => .flow session.compute.1

/-- The answers to requests that are made one after the other. -/
def answers (session : NetworkSession E) : List Request → List (Answer E)
  | [] => []
  | request :: later => session.answer request :: (session.serve request).answers later

/-- No flow is asked for before a sink has been taken. -/
def Prepared (session : NetworkSession E) : List Request → Prop
  | [] => True
  | .setCapacities sink allowed :: later =>
    (session.setCapacities sink allowed).1 = .ok true ∨
      Prepared (session.setCapacities sink allowed).2 later
  | .compute :: _ => False

/-! ### Two sessions -/

/-- Sessions that agree in everything that a turn arranges. -/
structure Alike (former latter : NetworkSession E) : Prop where
  shown : former.shown = latter.shown
  turn : former.turn = latter.turn
  checked : former.checked = latter.checked

/-- Sessions that agree also in what a sink that is taken arranges. -/
structure Aimed (former latter : NetworkSession E) : Prop extends Alike former latter where
  source : former.source = latter.source
  sink : former.sink = latter.sink

theorem edgeCount_congr (shown : former.shown = latter.shown) :
    former.edgeCount = latter.edgeCount := by
  unfold edgeCount
  rw [shown]

theorem origin_congr (shown : former.shown = latter.shown) (e : Nat) :
    former.origin e = latter.origin e := by
  unfold origin
  rw [shown]

theorem fill_congr (shown : former.shown = latter.shown) (turn : Turn E) (sink : Nat)
    (allowed : List Nat) : former.fill turn sink allowed = latter.fill turn sink allowed := by
  unfold fill
  rw [edgeCount_congr shown]

/-- A sink is taken or refused alike. One that is taken is all that either session aims at; any
other leaves them aimed alike if they were. -/
theorem Alike.setCapacities (alike : Alike former latter) (sink : Nat) (allowed : List Nat) :
    (former.setCapacities sink allowed).1 = (latter.setCapacities sink allowed).1 ∧
      Alike (former.setCapacities sink allowed).2 (latter.setCapacities sink allowed).2 ∧
      ((former.setCapacities sink allowed).1 = .ok true ∨ Aimed former latter →
        Aimed (former.setCapacities sink allowed).2 (latter.setCapacities sink allowed).2) := by
  have ⟨shown, turn, checked⟩ := alike
  -- Wherever the sessions stay as they are, they answer something else.
  have idle : ∀ {outcome : Except Misuse Bool}, outcome ≠ .ok true →
      outcome = .ok true ∨ Aimed former latter → Aimed former latter := by
    intro outcome other either
    exact either.resolve_left other
  unfold NetworkSession.setCapacities
  rw [← shown, ← turn, ← checked]
  split
  · split
    · split
      · exact ⟨rfl, alike, idle (by simp)⟩
      · rw [fill_congr shown]
        exact ⟨rfl, ⟨rfl, rfl, rfl⟩, fun _ => ⟨⟨rfl, rfl, rfl⟩, rfl, rfl⟩⟩
    · exact ⟨rfl, alike, idle (by simp)⟩
  · exact ⟨rfl, alike, idle (by simp)⟩

/-- A flow is raised alike to the same sink. The sinks checked have no part in it. -/
theorem compute_congr (shown : former.shown = latter.shown) (turn : former.turn = latter.turn)
    (source : former.source = latter.source) (sink : former.sink = latter.sink) :
    former.compute.1 = latter.compute.1 ∧ former.compute.2.turn = latter.compute.2.turn := by
  unfold compute computeIn computeStale
  rw [← shown, ← turn, ← source, ← sink]
  split
  · exact ⟨rfl, rfl⟩
  · exact ⟨rfl, turn⟩

/-- Only the turn changes when a flow is raised. -/
theorem compute_frame (session : NetworkSession E) : session.compute.2.shown = session.shown ∧
    session.compute.2.checked = session.checked ∧ session.compute.2.source = session.source ∧
    session.compute.2.sink = session.sink := by
  unfold compute
  split
  · exact ⟨rfl, rfl, rfl, rfl⟩
  · exact ⟨rfl, rfl, rfl, rfl⟩

theorem Aimed.compute (aimed : Aimed former latter) :
    former.compute.1 = latter.compute.1 ∧ Aimed former.compute.2 latter.compute.2 := by
  obtain ⟨outcome, turn⟩ := compute_congr aimed.shown aimed.turn aimed.source aimed.sink
  obtain ⟨shown, checked, source, sink⟩ := former.compute_frame
  obtain ⟨shown', checked', source', sink'⟩ := latter.compute_frame
  refine ⟨outcome, ⟨?_, turn, ?_⟩, ?_, ?_⟩
  · rw [shown, shown', aimed.shown]
  · rw [checked, checked', aimed.checked]
  · rw [source, source', aimed.source]
  · rw [sink, sink', aimed.sink]

/-- Sessions that are aimed alike answer one request alike, and stay aimed alike. -/
theorem Aimed.serve (aimed : Aimed former latter) (request : Request) :
    former.answer request = latter.answer request ∧
      Aimed (former.serve request) (latter.serve request) := by
  cases request with
  | setCapacities sink allowed =>
    obtain ⟨outcome, -, after⟩ := aimed.toAlike.setCapacities sink allowed
    exact ⟨congrArg Answer.capacities outcome, after (Or.inr aimed)⟩
  | compute =>
    obtain ⟨outcome, after⟩ := aimed.compute
    exact ⟨congrArg Answer.flow outcome, after⟩

theorem Aimed.answers_eq (aimed : Aimed former latter) (requests : List Request) :
    former.answers requests = latter.answers requests := by
  induction requests generalizing former latter with
  | nil => rfl
  | cons request later ih =>
    obtain ⟨same, after⟩ := aimed.serve request
    rw [answers, answers, same, ih after]

/-- Up to the first sink that is taken the sessions are only alike, and from there on they are aimed
alike. -/
theorem Alike.answers_eq (alike : Alike former latter) {requests : List Request}
    (prepared : former.Prepared requests) : former.answers requests = latter.answers requests := by
  induction requests generalizing former latter with
  | nil => rfl
  | cons request later ih =>
    cases request with
    | setCapacities sink allowed =>
      obtain ⟨outcome, after, aimed⟩ := alike.setCapacities sink allowed
      have same : former.answer (.setCapacities sink allowed) =
          latter.answer (.setCapacities sink allowed) := congrArg Answer.capacities outcome
      rw [answers, answers, same]
      refine congrArg (List.cons _) ?_
      cases prepared with
      | inl taken => exact (aimed (Or.inl taken)).answers_eq later
      | inr waits => exact ih after waits
    | compute => exact prepared.elim

/-- Sessions turned to one fork can differ only in the sink that they were left with. -/
theorem alike_transform (valid : E.Valid) (splitting : (E.kindOf fork).isSplitting = true)
    (former latter : NetworkSession E) :
    Alike (former.transform fork).2 (latter.transform fork).2 := by
  unfold transform
  rw [valid.soleIncoming_eq splitting]
  exact ⟨rfl, rfl, rfl⟩

/-! ### The sinks checked -/

/-- An edge that has been checked is refused, and nothing changes; any other is taken. -/
theorem Turned.setCapacities_eq (turned : Turned session fork entry) (sink : Fin E.size)
    (allowed : E.Edges) :
    (sink ∈ session.checked →
      session.setCapacities sink.val (allowed.toList.map Fin.val) = (.ok false, session)) ∧
    (sink ∉ session.checked →
      (session.setCapacities sink.val (allowed.toList.map Fin.val)).1 = .ok true) := by
  obtain ⟨shown, capacity, flow, turn⟩ := turned
  have filled := (@fill_spec E session fork entry sink allowed shown capacity).1
  simp only [NetworkSession.setCapacities, shown, turn, dif_pos sink.isLt, filled]
  constructor
  · intro member
    rw [if_pos (BitSet.contains_iff_mem.2 member)]
  · intro other
    rw [if_neg fun named => other (BitSet.contains_iff_mem.1 named)]
    rfl

/-- A sink is checked from the first request that names it, whatever that is answered. -/
theorem Turned.mem_checked_serve (turned : Turned session fork entry) (request : Request) :
    sink ∈ (session.serve request).checked ↔
      sink ∈ session.checked ∨ ∃ allowed, request = .setCapacities sink.val allowed := by
  obtain ⟨shown, capacity, flow, turn⟩ := turned
  cases request with
  | setCapacities d allowed =>
    have names : (∃ others, Request.setCapacities d allowed = .setCapacities sink.val others) ↔
        d = sink.val := by
      simp
    rw [names]
    simp only [NetworkSession.serve, NetworkSession.setCapacities, shown, turn]
    split
    next inside =>
      split
      next held =>
        refine (or_iff_left_of_imp fun named => ?_).symm
        have same : (⟨d, inside⟩ : Fin E.size) = sink := Fin.ext named
        exact same ▸ BitSet.contains_iff_mem.1 held
      next =>
        rw [BitSet.mem_insert, Fin.ext_iff, eq_comm, or_comm]
    next outside =>
      refine (or_iff_left fun named => outside ?_).symm
      exact named ▸ sink.isLt
  | compute =>
    rw [NetworkSession.serve, session.compute_frame.2.1]
    simp

theorem Turned.mem_checked_iff (turned : Turned session fork entry) (requests : List Request) :
    sink ∈ (requests.foldl NetworkSession.serve session).checked ↔
      sink ∈ session.checked ∨ ∃ allowed, .setCapacities sink.val allowed ∈ requests := by
  induction requests generalizing session with
  | nil => simp
  | cons request later ih =>
    rw [List.foldl_cons, ih (turned.serve request), turned.mem_checked_serve request, or_assoc]
    simp only [List.mem_cons, exists_or, eq_comm]

/-- A turn forgets what was checked. -/
theorem checked_transform (session : NetworkSession E) (fork : Fin E.order) :
    (session.transform fork).2.checked = ∅ := by
  unfold transform
  split
  · rfl
  · rfl

/-- The sinks checked are those that requests named since the last turn. -/
theorem mem_checked_of_transform (valid : E.Valid)
    (splitting : (E.kindOf fork).isSplitting = true) (session : NetworkSession E)
    (requests : List Request) (sink : Fin E.size) :
    sink ∈ (requests.foldl serve (session.transform fork).2).checked ↔
      ∃ allowed, .setCapacities sink.val allowed ∈ requests := by
  have turned := (turned_transform valid splitting session).2
  rw [turned.mem_checked_iff, checked_transform]
  exact or_iff_right (BitSet.not_mem_empty sink)

/-- Between turns a sink is taken once and refused ever after. -/
theorem setCapacities_after_transform (valid : E.Valid)
    (splitting : (E.kindOf fork).isSplitting = true) (session : NetworkSession E)
    (requests : List Request) (sink : Fin E.size) (allowed : E.Edges) :
    let before := requests.foldl serve (session.transform fork).2
    let asked := before.setCapacities sink.val (allowed.toList.map Fin.val)
    (asked.1 = .ok true ↔ ¬ ∃ others, .setCapacities sink.val others ∈ requests) ∧
      (asked.1 = .ok false ↔ ∃ others, .setCapacities sink.val others ∈ requests) ∧
      (asked.1 = .ok false → asked.2 = before) := by
  intro before asked
  have turned : Turned before fork (E.entryOf fork) :=
    (turned_transform valid splitting session).2.serve_all requests
  obtain ⟨refused, taken⟩ := turned.setCapacities_eq sink allowed
  have checked : sink ∈ before.checked ↔ ∃ others, .setCapacities sink.val others ∈ requests :=
    mem_checked_of_transform valid splitting session requests sink
  rw [← checked]
  by_cases passed : sink ∈ before.checked
  · have outcome : asked = (.ok false, before) := refused passed
    simp [outcome, passed]
  · have outcome : asked.1 = .ok true := taken passed
    simp [outcome, passed]

/-! ### Answers are given -/

theorem Turned.exists_compute (turned : Turned session fork entry)
    (inside : session.sink < ForkNetwork.order E fork) :
    ∃ answer, session.compute.1 = .ok answer := by
  obtain ⟨shown, capacity, flow, turn⟩ := turned
  have within : session.sink < (ForkNetwork.network E fork (some entry)).order := inside
  simp only [NetworkSession.compute, shown, turn, if_true, computeIn, dif_pos within]
  exact ⟨_, rfl⟩

/-- Nothing but the fork, the sink and the edges allowed has a part in the flow. -/
theorem Ready.compute_eq (ready : Ready former fork entry sink allowed)
    (other : Ready latter fork entry sink allowed) : former.compute.1 = latter.compute.1 :=
  (compute_congr (ready.shown.trans other.shown.symm) (ready.turn.trans other.turn.symm)
    (ready.source.trans other.source.symm) (ready.sink.trans other.sink.symm)).1

/-- A sink that is taken lets the next flow be the one that a session answers which has been turned
to the fork only. -/
theorem compute_after_transform (valid : E.Valid)
    (splitting : (E.kindOf fork).isSplitting = true) (session : NetworkSession E)
    (requests : List Request) (sink : Fin E.size) (allowed : E.Edges)
    (taken : ((requests.foldl serve (session.transform fork).2).setCapacities sink.val
      (allowed.toList.map Fin.val)).1 = .ok true) :
    ∃ answer, ((requests.foldl serve (session.transform fork).2).setCapacities sink.val
        (allowed.toList.map Fin.val)).2.compute.1 = .ok answer ∧
      (((start E).transform fork).2.setCapacities sink.val
        (allowed.toList.map Fin.val)).2.compute.1 = .ok answer := by
  have turned := (turned_transform valid splitting session).2.serve_all requests
  have freshTurned := (turned_transform valid splitting (start E)).2
  have freshTaken := (setCapacities_after_transform valid splitting (start E) [] sink allowed).1.2
    fun ⟨others, named⟩ => absurd named List.not_mem_nil
  obtain ⟨answer, computed, -⟩ := (turned.setCapacities taken).compute
  have same := (turned.setCapacities taken).compute_eq (freshTurned.setCapacities freshTaken)
  exact ⟨answer, computed, same.symm.trans computed⟩

/-- The sink is a node of the network from the first one that is taken. -/
theorem Turned.given_answers (turned : Turned session fork entry) {requests : List Request}
    (proper : ∀ request ∈ requests, request.Proper E)
    (aimed : session.sink < ForkNetwork.order E fork ∨ session.Prepared requests) :
    ∀ answer ∈ session.answers requests, answer.Given := by
  induction requests generalizing session with
  | nil => simp [answers]
  | cons request later ih =>
    have properLater := fun r member => proper r (List.mem_cons_of_mem request member)
    have here : (session.answer request).Given ∧ ((session.serve request).sink <
        ForkNetwork.order E fork ∨ (session.serve request).Prepared later) := by
      cases request with
      | setCapacities sink allowed =>
        obtain ⟨sink, allowed, rfl, rfl⟩ := proper _ List.mem_cons_self
        by_cases member : sink ∈ session.checked
        · have refused := (turned.setCapacities_eq sink allowed).1 member
          simp only [answer, NetworkSession.serve, refused]
          refine ⟨⟨false, rfl⟩, aimed.imp_right fun prepared => ?_⟩
          simpa only [Prepared, refused, Except.ok.injEq, Bool.false_eq_true, false_or]
            using prepared
        · have taken := (turned.setCapacities_eq sink allowed).2 member
          have ready := turned.setCapacities taken
          exact ⟨⟨true, taken⟩, Or.inl (ready.sink ▸ (ForkNetwork.startOf E fork sink).isLt)⟩
      | compute =>
        have inside := aimed.resolve_right id
        refine ⟨turned.exists_compute inside, Or.inl ?_⟩
        rw [NetworkSession.serve, session.compute_frame.2.2.2]
        exact inside
    intro answer member
    rw [answers, List.mem_cons] at member
    cases member with
    | inl first => exact first ▸ here.1
    | inr after => exact ih (turned.serve request) properLater here.2 answer after

/-- On a closed valid graph a session can be reused. Once it has been turned to a fork, whatever it
has been asked before, it answers as one that has been turned to nothing else:

* requests in which no flow is asked for before a sink has been taken are answered alike, and none
  of them is a misuse if they name edges of the workflow;
* the edges have the same number and the same origins;
* a sink is taken if and only if it has not been passed since, and refused otherwise;
* a sink that is refused changes nothing;
* a sink that is taken lets the next flow be what it is without the requests before. -/
theorem answers_of_reused {g : Graph} {E : EdgeGraph} (accepted : g.validate = .ok ())
    (closed : EdgeGraph.ofGraph g = .ok E) {fork : Fin E.order}
    (forking : (E.kindOf fork).isForking = true) (session : NetworkSession E) :
    let turned := (session.transform fork).2
    let fresh := ((start E).transform fork).2
    (session.transform fork).1 = .ok () ∧ ((start E).transform fork).1 = .ok () ∧
    (∀ requests, turned.Prepared requests →
      turned.answers requests = fresh.answers requests ∧
      ((∀ request ∈ requests, request.Proper E) →
        ∀ answer ∈ turned.answers requests, answer.Given)) ∧
    (∀ requests : List Request,
      (requests.foldl serve turned).edgeCount = (requests.foldl serve fresh).edgeCount ∧
      ∀ e, (requests.foldl serve turned).origin e = (requests.foldl serve fresh).origin e) ∧
    ∀ (requests : List Request) (sink : Fin E.size) (allowed : E.Edges),
      let before := requests.foldl serve turned
      let asked := before.setCapacities sink.val (allowed.toList.map Fin.val)
      (asked.1 = .ok true ↔ ¬ ∃ others, .setCapacities sink.val others ∈ requests) ∧
      (asked.1 = .ok false ↔ ∃ others, .setCapacities sink.val others ∈ requests) ∧
      (asked.1 = .ok false → asked.2 = before) ∧
      (asked.1 = .ok true → ∃ answer, asked.2.compute.1 = .ok answer ∧
        (fresh.setCapacities sink.val (allowed.toList.map Fin.val)).2.compute.1 = .ok answer) := by
  have valid := EdgeGraph.valid_of_validate accepted closed
  have splitting := NodeKind.isSplitting_of_isForking forking
  intro turned fresh
  obtain ⟨turns, isTurned⟩ := turned_transform valid splitting session
  obtain ⟨freshTurns, freshTurned⟩ := turned_transform valid splitting (start E)
  have alike : Alike turned fresh := alike_transform valid splitting session (start E)
  refine ⟨turns, freshTurns, fun requests prepared => ?_, fun requests => ?_, ?_⟩
  · refine ⟨alike.answers_eq prepared, fun proper => ?_⟩
    exact isTurned.given_answers proper (Or.inr prepared)
  · have shown : (requests.foldl serve turned).shown = (requests.foldl serve fresh).shown :=
      (isTurned.serve_all requests).shown.trans (freshTurned.serve_all requests).shown.symm
    exact ⟨edgeCount_congr shown, origin_congr shown⟩
  · intro requests sink allowed before asked
    obtain ⟨taken, refused, idle⟩ :=
      setCapacities_after_transform valid splitting session requests sink allowed
    exact ⟨taken, refused, idle,
      compute_after_transform valid splitting session requests sink allowed⟩

/-- The session has taken the first branch of the fork of `doubling` for a sink and raised a flow.
Turned to the fork once more, it takes that branch again, and refuses it from then on. -/
theorem reused_doubling :
    let history := [Request.setCapacities 1 [2], .compute].foldl serve
      ((start Abundance.doublingEdges).transform ⟨1, by decide⟩).2
    let turned := (history.transform ⟨1, by decide⟩).2
    let fresh := ((start Abundance.doublingEdges).transform ⟨1, by decide⟩).2
    let requests := [Request.setCapacities 1 [1, 2], .compute]
    turned.answers requests = fresh.answers requests ∧
      (∀ answer ∈ turned.answers requests, answer.Given) ∧
      ((requests.foldl serve turned).setCapacities 1 [1, 2]).1 = .ok false := by
  have accepted : Abundance.doubling.validate = .ok () := by decide +kernel
  have closed : EdgeGraph.ofGraph Abundance.doubling = .ok Abundance.doublingEdges := rfl
  have forking : (Abundance.doublingEdges.kindOf ⟨1, by decide⟩).isForking = true := by
    decide +kernel
  intro history turned fresh requests
  obtain ⟨-, -, answered, -, asked⟩ := answers_of_reused accepted closed forking history
  have branches : [1, 2] = doubled.toList.map Fin.val := by decide +kernel
  have proper : ∀ request ∈ requests, request.Proper Abundance.doublingEdges := by
    intro request member
    obtain rfl | rfl := List.mem_pair.1 member
    · exact ⟨⟨1, by decide⟩, doubled, rfl, branches⟩
    · trivial
  obtain ⟨same, given⟩ := answered requests (Or.inl (by decide +kernel))
  obtain ⟨-, refused, -⟩ := asked requests ⟨1, by decide⟩ doubled
  rw [← branches] at refused
  exact ⟨same, given proper, refused.2 ⟨[1, 2], List.mem_cons_self⟩⟩

end NetworkSession
end WorkflowSoundness
