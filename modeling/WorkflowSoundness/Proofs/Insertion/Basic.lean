import WorkflowSoundness.Proofs.Deadlock.Facts
import WorkflowSoundness.Proofs.Execution.Tables

/-!
An activity put on one edge of a closed graph. Every edge of the smaller graph has a head and a tail
in the larger one, which are one edge but for the edge that the activity is put on; an edge enters
a node by its tail and leaves it by its head. Trails are carried over edge by edge in both
directions, and with them the sets that execute an edge of a join and the walks of the deadlock
analysis. Only where the activity stands in front of a join can a walk meet an edge that it would
not have met; it then meets nothing that holds it back (`not_mem_executedBy_of_leads`).
-/

namespace WorkflowSoundness

namespace EdgeGraph

/-- The second graph is the first with an activity on the edge `spot`; nodes keep their numbers and
the activity comes last. -/
structure Insertion (E F : EdgeGraph) where
  order : F.order = E.order + 1
  kind : ∀ v w, w.val = v.val → F.kindOf w = E.kindOf v
  activity : ∀ w, w.val = E.order → F.kindOf w = .activity
  spot : Fin E.size
  head : Fin E.size → Fin F.size
  tail : Fin E.size → Fin F.size
  /-- The edge that an edge is a part of. -/
  origin : Fin F.size → Fin E.size
  origin_head : ∀ e, origin (head e) = e
  origin_tail : ∀ e, origin (tail e) = e
  part : ∀ f, f = head (origin f) ∨ f = tail (origin f)
  whole : ∀ e, e ≠ spot → head e = tail e
  source : ∀ e, (F.source (head e)).val = (E.source e).val
  target : ∀ e, (F.target (tail e)).val = (E.target e).val
  into : (F.target (head spot)).val = E.order
  out : (F.source (tail spot)).val = E.order
  first : F.first = head E.first

namespace Insertion

variable {E F : EdgeGraph} (ins : Insertion E F) {e s d i out x : Fin E.size} {f : Fin F.size}
  {v : Fin E.order}

/-! ### Nodes and edges -/

/-- A node of the smaller graph in the larger one. -/
def node (v : Fin E.order) : Fin F.order :=
  ⟨v.val, ins.order ▸ Nat.lt_succ_of_lt v.isLt⟩

theorem node_injective : Function.Injective ins.node := by
  intro v w same
  have numbers : (ins.node v).val = (ins.node w).val := congrArg Fin.val same
  exact Fin.ext numbers

theorem kind_node (v : Fin E.order) : F.kindOf (ins.node v) = E.kindOf v :=
  ins.kind v _ rfl

/-- A node that is no activity has been there before. -/
theorem exists_node {w : Fin F.order} (other : F.kindOf w ≠ .activity) : ∃ v, w = ins.node v := by
  have old : w.val < E.order := by
    refine Nat.lt_of_le_of_ne ?_ fun new => other (ins.activity w new)
    exact Nat.le_of_lt_succ (Nat.lt_of_lt_of_le w.isLt (Nat.le_of_eq ins.order))
  exact ⟨⟨w.val, old⟩, rfl⟩

/-- The front half of an edge leaves the node that the edge leaves. -/
theorem source_head (e : Fin E.size) : F.source (ins.head e) = ins.node (E.source e) :=
  Fin.ext (ins.source e)

/-- The rear half of an edge enters the node that the edge enters. -/
theorem target_tail (e : Fin E.size) : F.target (ins.tail e) = ins.node (E.target e) :=
  Fin.ext (ins.target e)

theorem target_head_spot_ne : F.target (ins.head ins.spot) ≠ ins.node v :=
  fun same => Nat.ne_of_gt v.isLt (ins.into.symm.trans (congrArg Fin.val same))

theorem source_tail_spot_ne : F.source (ins.tail ins.spot) ≠ ins.node v :=
  fun same => Nat.ne_of_gt v.isLt (ins.out.symm.trans (congrArg Fin.val same))

/-- A tail that is a head is that of a whole edge. -/
theorem eq_of_tail_eq_head (same : ins.tail e = ins.head d) : e = d ∧ e ≠ ins.spot := by
  have equal : e = d := by rw [← ins.origin_tail e, same, ins.origin_head]
  refine ⟨equal, fun here => ins.source_tail_spot_ne (v := E.source d) ?_⟩
  rw [← here, same, ins.source_head]

/-- An edge is the rear half of its origin, unless it is the front half of the divided one. -/
theorem eq_tail_or (f : Fin F.size) : f = ins.tail (ins.origin f) ∨ f = ins.head ins.spot := by
  rcases ins.part f with isHead | isTail
  · by_cases here : ins.origin f = ins.spot
    · exact Or.inr (isHead.trans (congrArg ins.head here))
    · exact Or.inl (isHead.trans (ins.whole _ here))
  · exact Or.inl isTail

/-- An edge is the front half of its origin, unless it is the rear half of the divided one. -/
theorem eq_head_or (f : Fin F.size) : f = ins.head (ins.origin f) ∨ f = ins.tail ins.spot := by
  rcases ins.part f with isHead | isTail
  · exact Or.inl isHead
  · by_cases here : ins.origin f = ins.spot
    · exact Or.inr (isTail.trans (congrArg ins.tail here))
    · exact Or.inl (isTail.trans (ins.whole _ here).symm)

theorem source_eq_node_iff :
    F.source f = ins.node v ↔ f = ins.head (ins.origin f) ∧ E.source (ins.origin f) = v := by
  constructor
  · intro leaves
    rcases ins.eq_head_or f with isHead | isTail
    · refine ⟨isHead, ins.node_injective ?_⟩
      rw [← ins.source_head, ← isHead, leaves]
    · exact absurd (isTail ▸ leaves) ins.source_tail_spot_ne
  · rintro ⟨isHead, rfl⟩
    rw [← ins.source_head, ← isHead]

theorem target_eq_node_iff :
    F.target f = ins.node v ↔ f = ins.tail (ins.origin f) ∧ E.target (ins.origin f) = v := by
  constructor
  · intro enters
    rcases ins.eq_tail_or f with isTail | isHead
    · refine ⟨isTail, ins.node_injective ?_⟩
      rw [← ins.target_tail, ← isTail, enters]
    · exact absurd (isHead ▸ enters) ins.target_head_spot_ne
  · rintro ⟨isTail, rfl⟩
    rw [← ins.target_tail, ← isTail]

/-- What follows a rear half are the front halves of what follows the edge. -/
theorem mem_successors_tail : f ∈ F.successors (ins.tail e) ↔
    f = ins.head (ins.origin f) ∧ ins.origin f ∈ E.successors e := by
  rw [F.mem_successors, E.mem_successors, ins.target_tail, ins.source_eq_node_iff]

theorem head_mem_successors (next : s ∈ E.successors e) :
    ins.head s ∈ F.successors (ins.tail e) := by
  rw [ins.mem_successors_tail, ins.origin_head]
  exact ⟨rfl, next⟩

/-- Behind the front half of the divided edge comes only its rear half. -/
theorem mem_successors_head : f ∈ F.successors (ins.head ins.spot) ↔ f = ins.tail ins.spot := by
  rw [F.mem_successors]
  constructor
  · intro leaves
    refine (ins.eq_head_or f).resolve_left fun isHead => ?_
    refine ins.target_head_spot_ne (v := E.source (ins.origin f)) ?_
    rw [← leaves, ← ins.source_head, ← isHead]
  · rintro rfl
    exact Fin.ext (ins.out.trans ins.into.symm)

/-! ### Executing sets -/

section Executing

open Execution

/-- From the head of an edge to that of the next one; `P` holds of whatever is a part of one of the
edges and is not the head of `out`. -/
theorem trail_image {P : Fin E.size → Prop} {Q : Fin F.size → Prop}
    (parts : ∀ f, P (ins.origin f) → f ≠ ins.head out → Q f)
    (trail : Trail E.successors (fun e => P e ∧ e ≠ out) s i) :
    Trail F.successors Q (ins.head s) (ins.tail i) := by
  have across : ∀ e, P e → e ≠ out → Trail F.successors Q (ins.head e) (ins.tail e) := by
    intro e inside notOut
    have atHead : Q (ins.head e) := by
      refine parts _ (by rwa [ins.origin_head]) fun same => notOut ?_
      rw [← ins.origin_head e, same, ins.origin_head]
    have atTail : Q (ins.tail e) := by
      refine parts _ (by rwa [ins.origin_tail]) fun same => notOut ?_
      exact (ins.eq_of_tail_eq_head same).1
    by_cases here : e = ins.spot
    · subst here
      exact .step atHead (ins.mem_successors_head.2 rfl) (.stay atTail)
    · rw [ins.whole e here]
      exact .stay atTail
  generalize same : i = j at trail
  induction trail with
  | stay ok =>
    subst same
    exact across _ ok.1 ok.2
  | step ok next _ ih =>
    have here := across _ ok.1 ok.2
    exact here.trans (.step here.finish (ins.head_mem_successors next) (ih same))

/-- What executes a join does so with both halves of the divided edge. -/
theorem executing {X : Fin E.size → Prop} (executing : Executing E i out X) :
    Executing F (ins.tail i) (ins.head out) fun f => X (ins.origin f) := by
  have lift : ∀ {s}, Trail E.successors (fun e => X e ∧ e ≠ out) s i →
      Trail F.successors (fun f => X (ins.origin f) ∧ f ≠ ins.head out) (ins.head s)
        (ins.tail i) := fun trail => ins.trail_image (fun _ => And.intro) trail
  refine ⟨fun f inside => ?_, fun f b inside choosing leaves => ?_⟩
  · have ahead : ins.tail (ins.origin f) = ins.tail i ∨
        ∃ t ∈ F.successors (ins.tail (ins.origin f)),
          Trail F.successors (fun f => X (ins.origin f) ∧ f ≠ ins.head out) t (ins.tail i) := by
      rcases executing.walk _ inside with here | ⟨s, next, trail⟩
      · exact Or.inl (congrArg ins.tail here)
      · exact Or.inr ⟨_, ins.head_mem_successors next, lift trail⟩
    rcases ins.eq_tail_or f with isTail | isHead
    · rwa [← isTail] at ahead
    · subst isHead
      rw [ins.origin_head] at ahead inside
      have free : X (ins.origin (ins.tail ins.spot)) ∧ ins.tail ins.spot ≠ ins.head out :=
        ⟨by rwa [ins.origin_tail], fun same => (ins.eq_of_tail_eq_head same).2 rfl⟩
      refine Or.inr ⟨ins.tail ins.spot, ins.mem_successors_head.2 rfl, ?_⟩
      rcases ahead with here | ⟨t, next, trail⟩
      · exact here ▸ .stay free
      · exact .step free next trail
  · rcases ins.eq_tail_or f with isTail | isHead
    · rw [isTail, ins.target_tail] at choosing leaves
      obtain ⟨-, leaves⟩ := ins.source_eq_node_iff.1 leaves
      rw [ins.kind_node] at choosing
      exact executing.choices _ _ inside choosing leaves
    · rw [isHead, ins.activity _ ins.into] at choosing
      cases choosing

/-- With the head of an edge its tail executes, for nothing else lies ahead. -/
theorem tail_of_head {Y : Fin F.size → Prop}
    (executing : Executing F (ins.tail i) (ins.head out) Y) (inside : Y (ins.head e)) :
    Y (ins.tail e) := by
  by_cases here : e = ins.spot
  · subst here
    rcases executing.walk _ inside with same | ⟨t, next, trail⟩
    · obtain ⟨rfl, apart⟩ := ins.eq_of_tail_eq_head same.symm
      exact absurd rfl apart
    · exact ins.mem_successors_head.1 next ▸ trail.start.1
  · exact ins.whole e here ▸ inside

/-- What executes a join afterwards has done so before, where the rear half stands for an edge. -/
theorem executing_origin {Y : Fin F.size → Prop}
    (executing : Executing F (ins.tail i) (ins.head out) Y) :
    Executing E i out fun e => Y (ins.tail e) := by
  have back : ∀ {f}, Trail F.successors (fun f => Y f ∧ f ≠ ins.head out) f (ins.tail i) →
      ins.origin f ≠ out →
        Trail E.successors (fun e => Y (ins.tail e) ∧ e ≠ out) (ins.origin f) i := by
    intro f trail
    generalize same : ins.tail i = g at trail
    induction trail with
    | stay ok =>
      subst same
      rw [ins.origin_tail]
      exact fun notOut => .stay ⟨ok.1, notOut⟩
    | @step a b c ok next rest ih =>
      subst same
      intro notOut
      -- the tail of `spot` is met right behind its head, which is not the head of `out`
      rcases ins.eq_tail_or a with isTail | isHead
      · rw [isTail, ins.mem_successors_tail] at next
        refine .step ⟨isTail ▸ ok.1, notOut⟩ next.2 (ih rfl fun isOut => rest.start.2 ?_)
        rw [next.1, isOut]
      · rw [isHead, ins.mem_successors_head] at next
        have stays := ih rfl
        rw [next, ins.origin_tail] at stays
        rw [isHead, ins.origin_head] at notOut ⊢
        exact stays notOut
  refine ⟨fun e inside => ?_, fun e b inside choosing leaves => ?_⟩
  · rcases executing.walk _ inside with here | ⟨t, next, trail⟩
    · refine Or.inl ?_
      rw [← ins.origin_tail e, here, ins.origin_tail]
    · obtain ⟨isHead, follows⟩ := ins.mem_successors_tail.1 next
      refine Or.inr ⟨_, follows, back trail fun isOut => trail.start.2 ?_⟩
      rw [isHead, isOut]
  · refine ins.tail_of_head executing (executing.choices _ _ inside ?_ ?_)
    · rwa [ins.target_tail, ins.kind_node]
    · rw [ins.source_head, ins.target_tail, leaves]

end Executing

/-! ### Valid graphs of the simple shape -/

section Valid

variable (validE : E.Valid) (validF : F.Valid)

include validE validF

theorem exitOf (merging : (E.kindOf v).isMerging = true) :
    F.exitOf (ins.node v) = ins.head (E.exitOf v) := by
  refine ((validF.source_iff ?_ _).1 ?_).symm
  · rwa [ins.kind_node]
  · rw [ins.source_head, validE.source_exitOf merging]

variable (simpleE : E.Simple) (simpleF : F.Simple)

include simpleE simpleF

omit validE validF in
/-- An edge executes a join if and only if its origin does. -/
theorem mem_approximate (isJoin : E.kindOf (E.target i) = .join) :
    f ∈ (Execution.approximate F (ins.tail i) (ins.head out)).value ↔
      ins.origin f ∈ (Execution.approximate E i out).value := by
  have isJoin' : F.kindOf (F.target (ins.tail i)) = .join := by
    rwa [ins.target_tail, ins.kind_node]
  rw [mem_approximate_iff simpleF isJoin', mem_approximate_iff simpleE isJoin]
  constructor
  · rintro ⟨Y, isExecuting, inside⟩
    refine ⟨_, ins.executing_origin isExecuting, ?_⟩
    rcases ins.part f with isHead | isTail
    · exact ins.tail_of_head isExecuting (isHead ▸ inside)
    · exact isTail ▸ inside
  · rintro ⟨X, isExecuting, inside⟩
    exact ⟨_, ins.executing isExecuting, inside⟩

theorem mem_executedBy (isJoin : E.kindOf v = .join) :
    f ∈ F.executionOf.executedBy[F.exitOf (ins.node v)] ↔
      ins.origin f ∈ E.executionOf.executedBy[E.exitOf v] := by
  have exits := ins.exitOf validE validF (v := v) (by rw [isJoin]; rfl)
  rw [mem_executedBy_exitOf validF simpleF ((ins.kind_node v).trans isJoin), exits,
    mem_executedBy_exitOf validE simpleE isJoin]
  constructor
  · intro all i enters
    refine (ins.mem_approximate simpleE simpleF (enters.symm ▸ isJoin)).1 (all _ ?_)
    rw [ins.target_tail, enters]
  · intro all g enters
    obtain ⟨isTail, enters⟩ := ins.target_eq_node_iff.1 enters
    rw [isTail]
    exact (ins.mem_approximate simpleE simpleF (enters.symm ▸ isJoin)).2 (all _ enters)

omit validF simpleF in
/-- An edge in front of a join with several entering edges executes none of the others, and where
it is the only one, whatever leads to it executes it. -/
theorem not_mem_executedBy_of_leads (isJoin : E.kindOf (E.target i) = .join)
    (next : i ∈ E.successors x) (free : x ∉ E.executionOf.executedBy[E.exitOf (E.target i)]) :
    i ∉ E.executionOf.executedBy[E.exitOf (E.target i)] := by
  have merging : (E.kindOf (E.target i)).isMerging = true := by
    rw [isJoin]
    rfl
  have notOut : i ≠ E.exitOf (E.target i) := fun same => by
    refine simpleE.source_ne_join isJoin ?_
    have leaves := validE.source_exitOf merging
    rw [← same] at leaves
    rw [leaves, isJoin]
  intro inside
  rw [mem_executedBy_exitOf validE simpleE isJoin] at inside free
  refine free fun j enters => ?_
  have isJoin' : E.kindOf (E.target j) = .join := enters.symm ▸ isJoin
  have before : E.target x = E.source i := (E.mem_successors.1 next).symm
  by_cases here : j = i
  · subst here
    refine (mem_approximate_iff simpleE isJoin).2 ⟨fun e => e = j ∨ j ∈ E.successors e,
      ⟨fun e member => ?_, fun e b member choosing _ => ?_⟩, Or.inr next⟩
    · exact member.imp_right fun follows => ⟨j, follows, .stay ⟨Or.inl rfl, notOut⟩⟩
    · rcases member with rfl | follows
      · rw [isJoin] at choosing
        cases choosing
      · rw [← E.mem_successors.1 follows, simpleE.before j merging] at choosing
        cases choosing
  · obtain ⟨X, executing, member⟩ := (mem_approximate_iff simpleE isJoin').1 (inside j enters)
    rcases executing.walk i member with same | ⟨s, follows, trail⟩
    · exact absurd same.symm here
    · exact absurd ((validE.source_iff merging s).1 (E.mem_successors.1 follows)) trail.start.2

/-- A fact about a join goes on from every tail, and from every head but that of the edge it is
about. -/
theorem starts (starts : E.Starts i x) : F.Starts (ins.tail i) (ins.tail x) ∧
    (x ≠ i → F.Starts (ins.tail i) (ins.head x)) := by
  have isJoin := starts.isJoin
  have quiet : ∀ {e}, e ∉ E.executionOf.executedBy[E.exitOf (E.target i)] →
      ∀ f, ins.origin f = e → f ∉ F.executionOf.executedBy[F.exitOf (F.target (ins.tail i))] := by
    intro e free f same
    rwa [ins.target_tail, ins.mem_executedBy validE validF simpleE simpleF isJoin, same]
  have arises : F.Starts (ins.tail i) (ins.tail i) := by
    refine .enters ?_
    rwa [ins.target_tail, ins.kind_node]
  induction starts with
  | enters => exact ⟨arises, fun other => absurd rfl other⟩
  | @leads e s next rest other free ih =>
    have ahead : ∀ {d}, d ∉ E.executionOf.executedBy[E.exitOf (E.target i)] →
        F.Starts (ins.tail i) (ins.tail d) → F.Starts (ins.tail i) (ins.head d) := by
      intro d free tail
      by_cases here : d = ins.spot
      · subst here
        refine .leads (ins.mem_successors_head.2 rfl) tail ?_ (quiet free _ (ins.origin_head _))
        rw [ins.target_tail]
        exact ins.target_head_spot_ne
      · rwa [ins.whole d here]
    have behind : F.Starts (ins.tail i) (ins.head s) := by
      by_cases here : s = i
      · subst here
        exact ahead (not_mem_executedBy_of_leads validE simpleE isJoin next free) arises
      · exact ih.2 here
    have now : F.Starts (ins.tail i) (ins.tail e) := by
      refine .leads (ins.head_mem_successors next) behind (fun same => other ?_)
        (quiet free _ (ins.origin_tail e))
      rw [ins.target_tail, ins.target_tail] at same
      exact ins.node_injective same
    exact ⟨now, fun _ => ahead free now⟩

/-- A fact that holds at a half holds at the edge. -/
theorem starts_origin (isJoin : E.kindOf (E.target i) = .join)
    (starts : F.Starts (ins.tail i) f) : E.Starts i (ins.origin f) := by
  induction starts with
  | enters =>
    rw [ins.origin_tail]
    exact .enters isJoin
  | @leads g h next _ other free ih =>
    rw [ins.target_tail] at other free
    rw [ins.mem_executedBy validE validF simpleE simpleF isJoin] at free
    rcases ins.eq_tail_or g with isTail | isHead
    · rw [isTail, ins.mem_successors_tail] at next
      refine .leads next.2 ih (fun same => other ?_) free
      rw [isTail, ins.target_tail, same]
    · rw [isHead, ins.mem_successors_head] at next
      rw [next, ins.origin_tail] at ih
      rwa [isHead, ins.origin_head]

/-- A fact of another edge holds at the front half if and only if it holds at the edge. -/
theorem starts_head_iff (isJoin : E.kindOf (E.target i) = .join) (other : x ≠ i) :
    F.Starts (ins.tail i) (ins.head x) ↔ E.Starts i x := by
  constructor
  · intro found
    have back := ins.starts_origin validE validF simpleE simpleF isJoin found
    rwa [ins.origin_head] at back
  · exact fun found => (ins.starts validE validF simpleE simpleF found).2 other

/-- The head of an edge that enters no join leads to the same joins as the edge. -/
theorem exists_starts_iff (isJoin : E.kindOf v = .join) (away : E.target x ≠ v) :
    (∃ j, F.target j = ins.node v ∧ F.Starts j (ins.head x)) ↔
      ∃ i, E.target i = v ∧ E.Starts i x := by
  constructor
  · rintro ⟨j, enters, found⟩
    obtain ⟨isTail, enters⟩ := ins.target_eq_node_iff.1 enters
    refine ⟨_, enters, (ins.starts_head_iff validE validF simpleE simpleF (enters ▸ isJoin) ?_).1
      (isTail ▸ found)⟩
    exact fun same => away (same ▸ enters)
  · rintro ⟨i, rfl, found⟩
    refine ⟨ins.tail i, ins.target_tail i, ?_⟩
    exact (ins.starts_head_iff validE validF simpleE simpleF isJoin fun same =>
      away (congrArg E.target same)).2 found

end Valid

end Insertion
end EdgeGraph
end WorkflowSoundness
