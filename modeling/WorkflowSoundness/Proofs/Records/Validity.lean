import Mathlib.Data.List.Nodup
import Mathlib.Data.List.Perm.Subperm
import WorkflowSoundness.Proofs.Records.Session
import WorkflowSoundness.Proofs.Rules.Exact

/-!
The rules, checked on records. The neighbours on either side are lists of their own, and a way is
looked for by a search that marks a node when it queues it (`Sweep`). The search finds what the
lists lead to (`Sweep.mem_run_iff`), and so the check gives the answer of `validate`
(`Records.validate_records`), which decides the rules for whatever has been built
(`Session.validate_decides_rules`).
-/

namespace WorkflowSoundness

/-- A search among numbered nodes: those seen, and those seen whose neighbours have not been looked
at yet. -/
structure Sweep where
  seen : List Nat
  queue : List Nat

namespace Sweep

def start (node : Nat) : Sweep :=
  ⟨[node], [node]⟩

/-- A node is queued when it is seen for the first time. -/
def note (sweep : Sweep) (node : Nat) : Sweep :=
  if sweep.seen.contains node then sweep else ⟨sweep.seen ++ [node], sweep.queue ++ [node]⟩

/-- Looks at the neighbours of the node that has been queued longest. No node is queued twice, so
the number of nodes bounds the rounds. -/
def run (next : Nat → List Nat) : Nat → Sweep → List Nat
  | 0, sweep => sweep.seen
  | rounds + 1, ⟨seen, queue⟩ =>
    match queue with
    | [] => seen
    | node :: queue => run next rounds ((next node).foldl note ⟨seen, queue⟩)

/-- Noting a row of nodes adds those that are new behind both lists. -/
theorem foldl_note (l : List Nat) (sweep : Sweep) (once : sweep.seen.Nodup) :
    ∃ new, l.foldl note sweep = ⟨sweep.seen ++ new, sweep.queue ++ new⟩ ∧
      (sweep.seen ++ new).Nodup ∧ ∀ v, v ∈ sweep.seen ++ new ↔ v ∈ sweep.seen ∨ v ∈ l := by
  induction l generalizing sweep with
  | nil => exact ⟨[], by simp, by simpa using once, by simp⟩
  | cons node l ih =>
    rw [List.foldl_cons, note]
    by_cases known : node ∈ sweep.seen
    · rw [if_pos (List.contains_iff_mem.2 known)]
      obtain ⟨new, noted, fresh, members⟩ := ih sweep once
      refine ⟨new, noted, fresh, fun v => ?_⟩
      rw [members, List.mem_cons]
      constructor
      · rintro (old | later)
        · exact Or.inl old
        · exact Or.inr (Or.inr later)
      · rintro (old | rfl | later)
        · exact Or.inl old
        · exact Or.inl known
        · exact Or.inr later
    · rw [if_neg fun listed => known (List.contains_iff_mem.1 listed)]
      have longer : (sweep.seen ++ [node]).Nodup := by
        apply List.Nodup.append once (List.nodup_singleton node)
        intro v old same
        exact known (List.mem_singleton.1 same ▸ old)
      obtain ⟨new, noted, fresh, members⟩ := ih ⟨sweep.seen ++ [node], sweep.queue ++ [node]⟩ longer
      refine ⟨node :: new, ?_, ?_, fun v => ?_⟩
      · rw [noted]
        simp
      · simpa using fresh
      · have told := members v
        simp only [List.append_assoc, List.singleton_append, List.mem_append,
          List.mem_cons] at told ⊢
        rw [told]
        tauto

/-- The next nodes are lists of nodes below a bound. -/
def Within (next : Nat → List Nat) (bound : Nat) : Prop :=
  ∀ u, ∀ v ∈ next u, v < bound

abbrev Leads (next : Nat → List Nat) : Nat → Nat → Prop :=
  Relation.ReflTransGen fun u v => v ∈ next u

/-- What holds at every round: what has been seen is led to, and its neighbours have been seen too
unless it is still queued. -/
structure Underway (next : Nat → List Nat) (bound root : Nat) (sweep : Sweep) : Prop where
  once : sweep.seen.Nodup
  inside : ∀ v ∈ sweep.seen, v < bound
  root_seen : root ∈ sweep.seen
  led : ∀ v ∈ sweep.seen, Leads next root v
  looked : ∀ v ∈ sweep.seen, v ∈ sweep.queue ∨ ∀ w ∈ next v, w ∈ sweep.seen
  queued : ∀ v ∈ sweep.queue, v ∈ sweep.seen

variable {next : Nat → List Nat} {bound root node : Nat} {seen queue : List Nat}

/-- No node is seen twice, so the sweep sees as many as there are at most. -/
theorem Underway.length_le {sweep : Sweep} (underway : Underway next bound root sweep) :
    sweep.seen.length ≤ bound := by
  have few : sweep.seen.Subperm (List.range bound) :=
    List.subperm_of_subset underway.once fun v member => List.mem_range.2 (underway.inside v member)
  simpa using few.length_le

/-- A look at the neighbours of a node puts the new ones behind what is seen and behind the
queue. -/
theorem Underway.look (within : Within next bound)
    (underway : Underway next bound root ⟨seen, node :: queue⟩) :
    ∃ new, (next node).foldl note ⟨seen, queue⟩ = ⟨seen ++ new, queue ++ new⟩ ∧
      Underway next bound root ⟨seen ++ new, queue ++ new⟩ := by
  obtain ⟨new, noted, fresh, members⟩ := foldl_note (next node) ⟨seen, queue⟩ underway.once
  have here : node ∈ seen := underway.queued node List.mem_cons_self
  refine ⟨new, noted, ?_⟩
  constructor
  · exact fresh
  · intro v member
    rcases (members v).1 member with old | step
    · exact underway.inside v old
    · exact within node v step
  · exact List.mem_append_left new underway.root_seen
  · intro v member
    rcases (members v).1 member with old | step
    · exact underway.led v old
    · exact (underway.led node here).tail step
  · intro v member
    rcases List.mem_append.1 member with old | added
    · rcases underway.looked v old with waits | done
      · rcases List.mem_cons.1 waits with rfl | waits
        · exact Or.inr fun w step => (members w).2 (Or.inr step)
        · exact Or.inl (List.mem_append_left new waits)
      · exact Or.inr fun w step => List.mem_append_left new (done w step)
    · exact Or.inl (List.mem_append_right queue added)
  · intro v member
    rcases List.mem_append.1 member with waits | added
    · exact List.mem_append_left new (underway.queued v (List.mem_cons_of_mem node waits))
    · exact List.mem_append_right seen added

/-- With nothing queued, everything led to has been seen. -/
theorem Underway.mem_iff (underway : Underway next bound root ⟨seen, []⟩) {v : Nat} :
    v ∈ seen ↔ Leads next root v := by
  constructor
  · exact underway.led v
  · intro leads
    induction leads with
    | refl => exact underway.root_seen
    | @tail u v _ step ih =>
      rcases underway.looked u ih with waits | done
      · exact absurd waits List.not_mem_nil
      · exact done v step

/-- The run lemma: with a round for each node left to see, the sweep ends with all that the root
leads to. -/
theorem Underway.mem_run_iff (within : Within next bound) {rounds : Nat} {sweep : Sweep}
    (underway : Underway next bound root sweep)
    (enough : bound + sweep.queue.length ≤ rounds + sweep.seen.length) {v : Nat} :
    v ∈ run next rounds sweep ↔ Leads next root v := by
  induction rounds generalizing sweep with
  | zero =>
    obtain ⟨seen, queue⟩ := sweep
    have few := underway.length_le
    have none : queue = [] := List.length_eq_zero_iff.1 (by dsimp only at enough few; omega)
    subst none
    exact underway.mem_iff
  | succ rounds ih =>
    obtain ⟨seen, queue⟩ := sweep
    cases queue with
    | nil => exact underway.mem_iff
    | cons node queue =>
      obtain ⟨new, noted, later⟩ := underway.look within
      rw [run, noted]
      apply ih later
      simp only [List.length_cons, List.length_append] at enough ⊢
      omega

/-- A search finds what the lists lead to. -/
theorem mem_run_iff (within : Within next bound) (inside : root < bound) {v : Nat} :
    v ∈ run next bound (start root) ↔ Leads next root v := by
  have initial : Underway next bound root (start root) := by
    constructor
    · exact List.nodup_singleton root
    · intro v member
      rw [List.mem_singleton.1 member]
      exact inside
    · exact List.mem_singleton_self root
    · intro v member
      rw [List.mem_singleton.1 member]
    · intro v member
      exact Or.inl member
    · intro v member
      exact member
  exact initial.mem_run_iff within (Nat.le_refl _)

end Sweep

namespace Records

variable (r : Records)

/-- The only node of a kind. -/
def unique (kind : NodeKind) (absent : Defect) (several : Nat → Defect) : Except Defect Nat :=
  match r.byKind kind with
  | [node] => .ok node
  | [] => .error absent
  | many => .error (several many.length)

/-- The gateway rule that a record breaks, if it does. -/
def gatewayDefect? (record : Record) : Option Malformation :=
  if record.kind.isSplitting && record.predecessors.length != 1 then
    some (.gatewayDegree record.kind record.id .incoming record.predecessors.length)
  else if record.kind.isMerging && record.successors.length != 1 then
    some (.gatewayDegree record.kind record.id .outgoing record.successors.length)
  else
    none

/-- The nodes that one side of the records leads to from a node, itself included. -/
def reach (next : Nat → List Nat) (node : Nat) : List Nat :=
  Sweep.run next r.nodes.length (.start node)

/-- The least node that is not among those seen. -/
def lacking? (seen : List Nat) : Option Nat :=
  (List.range r.nodes.length).find? fun node => !seen.contains node

/-- Answers the first rule that does not hold, in the order of `Graph.validate`. -/
def validate : Except Defect Unit := do
  let start ← r.unique .start .missingStart .multipleStart
  let finish ← r.unique .finish .missingEnd .multipleEnd
  if r.predecessors start ≠ [] ∨ (r.successors start).length ≠ 1 then
    throw (.malformed (.startDegree start))
  if (r.predecessors finish).length ≠ 1 ∨ r.successors finish ≠ [] then
    throw (.malformed (.endDegree finish))
  if let rule :: _ := r.nodes.filterMap gatewayDefect? then
    throw (.malformed rule)
  if let some node := r.lacking? (r.reach r.successors start) then
    throw (.unreachable node)
  if let some node := r.lacking? (r.reach r.predecessors finish) then
    throw (.noPathToEnd node)

variable {g : Graph} {u v : Nat}

theorem unique_start :
    g.records.unique .start .missingStart .multipleStart = g.uniqueStart :=
  rfl

theorem unique_finish :
    g.records.unique .finish .missingEnd .multipleEnd = g.uniqueFinish :=
  rfl

/-- A list is looked through position by position. -/
theorem filterMap_range_getElem? {α β : Type} (f : α → Option β) (l : List α) :
    ((List.range l.length).filterMap fun k => l[k]?.bind f) = l.filterMap f := by
  induction l with
  | nil => rfl
  | cons a l ih =>
    rw [List.length_cons, List.range_succ_eq_map, List.filterMap_cons, List.filterMap_map]
    simp only [Function.comp_def, List.getElem?_cons_zero, List.getElem?_cons_succ,
      Option.bind_some, Nat.succ_eq_add_one, ih, List.filterMap_cons]

/-- The table of records is passed in the order of the nodes, so the defects come in the same
order. -/
theorem filterMap_gatewayDefect? :
    g.records.nodes.filterMap gatewayDefect? = g.gatewayDefects := by
  rw [← filterMap_range_getElem?, Graph.length_records, Graph.gatewayDefects]
  congr 1
  funext k
  rw [Graph.records, getElem?_ofLists, Graph.kind?, Option.bind_map, Option.bind_map]
  rfl

/-- To follow the stored successors is to go along the flows. -/
theorem leads_successors (g : Graph) : Sweep.Leads g.successors u v ↔ g.Way u v := by
  have steps : (fun u v => v ∈ g.successors u) = fun u v => (⟨u, v⟩ : Flow) ∈ g.flows := by
    funext u v
    exact propext Graph.mem_successors
  rw [Sweep.Leads, steps]

/-- To follow the stored predecessors is to go against the flows. -/
theorem leads_predecessors (g : Graph) : Sweep.Leads g.predecessors u v ↔ g.Way v u := by
  have steps : (fun u v => v ∈ g.predecessors u) =
      Function.swap fun u v => (⟨u, v⟩ : Flow) ∈ g.flows := by
    funext u v
    exact propext Graph.mem_predecessors
  rw [Sweep.Leads, steps, Relation.reflTransGen_swap]

theorem within_successors (g : Graph) : Sweep.Within g.successors g.order :=
  fun u v step => (g.flows_inside ⟨u, v⟩ (Graph.mem_successors.1 step)).2

theorem within_predecessors (g : Graph) : Sweep.Within g.predecessors g.order :=
  fun u v step => (g.flows_inside ⟨v, u⟩ (Graph.mem_predecessors.1 step)).1

theorem mem_reach_successors (inside : u < g.order) :
    v ∈ g.records.reach g.records.successors u ↔ g.Way u v := by
  have next : g.records.successors = g.successors := funext Graph.records_successors
  rw [reach, Graph.length_records, next, Sweep.mem_run_iff (within_successors g) inside,
    leads_successors]

theorem mem_reach_predecessors (inside : u < g.order) :
    v ∈ g.records.reach g.records.predecessors u ↔ g.Way v u := by
  have next : g.records.predecessors = g.predecessors := funext Graph.records_predecessors
  rw [reach, Graph.length_records, next, Sweep.mem_run_iff (within_predecessors g) inside,
    leads_predecessors]

/-- Two ways to say what has been seen lack the same least node. -/
theorem lacking?_eq {seen : List Nat} {s : BitSet g.order}
    (same : ∀ p : Fin g.order, p.val ∈ seen ↔ p ∈ s) :
    g.records.lacking? seen = (Graph.lacking? s).map Fin.val := by
  rw [lacking?, Graph.length_records, ← List.map_coe_finRange_eq_range, List.find?_map,
    Graph.lacking?]
  congr 2
  funext p
  have told : seen.contains p.val = s.contains p := by
    rw [Bool.eq_iff_iff, List.contains_iff_mem, BitSet.contains_iff_mem]
    exact same p
  simp only [Function.comp_apply, told]

/-- On the records of a graph the check gives the answer that it gives on the graph. -/
theorem validate_records (g : Graph) : g.records.validate = g.validate := by
  unfold validate Graph.validate
  rw [unique_start, unique_finish, filterMap_gatewayDefect?]
  simp only [Graph.records_successors, Graph.records_predecessors]
  cases hasStart : g.uniqueStart with
  | error cause => rfl
  | ok start =>
    cases hasFinish : g.uniqueFinish with
    | error cause => rfl
    | ok finish =>
      have startInside := Graph.lt_order_of_nodesOf (Graph.uniqueStart_eq_ok_iff.1 hasStart)
      have finishInside := Graph.lt_order_of_nodesOf (Graph.uniqueFinish_eq_ok_iff.1 hasFinish)
      have forward : g.records.lacking? (g.records.reach g.records.successors start) =
          (Graph.lacking? (g.reachable start)).map Fin.val :=
        lacking?_eq fun p =>
          (mem_reach_successors startInside).trans (Graph.mem_reachable_iff startInside).symm
      have backward : g.records.lacking? (g.records.reach g.records.predecessors finish) =
          (Graph.lacking? (g.coreachable finish)).map Fin.val :=
        lacking?_eq fun p =>
          (mem_reach_predecessors finishInside).trans (Graph.mem_coreachable_iff finishInside).symm
      simp only [bind, Except.bind]
      rw [forward, backward]
      unfold Graph.lacking?
      cases (List.finRange g.order).find? fun p => !(g.reachable start).contains p with
      | some p => rfl
      | none =>
        cases (List.finRange g.order).find? fun p => !(g.coreachable finish).contains p with
        | some p => rfl
        | none => rfl

end Records

namespace Session

/-- The check decides the rules, for whatever has been built. It accepts exactly if the rules on the
numbers of events and flows hold and every node is on a way from start to end. Once the rules on
numbers hold, it names the least node that the start does not lead to; if there is none, the least
one that does not lead to the end. On the records of the graph it gives the same answer. -/
theorem validate_decides_rules (name : String) (requests : List Request) :
    let session := requests.foldl serve (start name)
    let g := session.workflow.graph
    session.records.validate = g.validate ∧
      (g.validate = .ok () ↔ ∃ start finish, g.Degrees start finish ∧
        ∀ v, v < g.order → g.Way start v ∧ g.Way v finish) ∧
      (∀ n, g.validate = .error (.unreachable n) ↔ ∃ start finish, g.Degrees start finish ∧
        n < g.order ∧ ¬ g.Way start n ∧ ∀ m, m < n → g.Way start m) ∧
      ∀ n, g.validate = .error (.noPathToEnd n) ↔ ∃ start finish, g.Degrees start finish ∧
        (∀ v, v < g.order → g.Way start v) ∧
        n < g.order ∧ ¬ g.Way n finish ∧ ∀ m, m < n → g.Way m finish := by
  intro session g
  have agrees : session.records = g.records := agrees_run name requests
  constructor
  · rw [agrees]
    exact Records.validate_records g
  · exact ⟨Graph.validate_eq_ok_iff_degrees, fun n => Graph.validate_eq_unreachable_iff,
      fun n => Graph.validate_eq_noPathToEnd_iff⟩

end Session
end WorkflowSoundness
