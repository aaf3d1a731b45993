import WorkflowSoundness.Proofs.Execution
import WorkflowSoundness.Proofs.Nested.Frames

/-!
What passes through the parts of a process. An executing set of edges that gets into a part and
does not end there gets out of it again (`Stands.passes`): a block is left behind its closing
gateway, and a loop is left because its split is a choice. So a set that holds the exit of a block
and ends inside the block would have to go on to the end event (`Stands.escapes`). In the order in
which a process is read, every edge comes after one that leads to it, and the edge behind a join
comes after all that enter the join (`Stands.ordered`).
-/

namespace WorkflowSoundness.Part

variable {E : EdgeGraph} {shape : Shape}

section Executing

variable {i out : Fin E.size} {X : Fin E.size → Prop} (executing : Execution.Executing E i out X)

include executing

/-- An executing set goes on from each of its edges but the last. -/
theorem exists_next {e : Fin E.size} (member : X e) (other : e ≠ i) :
    ∃ s ∈ E.successors e, X s := by
  obtain ⟨s, next, trail⟩ := (executing.walk e member).resolve_left other
  exact ⟨s, next, trail.start.1⟩

theorem exists_out {station : Station (Fin E.size)} (stands : E.Stands station) {e : Fin E.size}
    (enters : e ∈ station.ins) (member : X e) (other : e ≠ i) : ∃ s ∈ station.outs, X s := by
  obtain ⟨s, next, inside⟩ := exists_next executing member other
  exact ⟨s, stands.outs_of_next enters next, inside⟩

/-- Behind a split everything is in an executing set. -/
theorem all_outs {station : Station (Fin E.size)} (stands : E.Stands station)
    (isSplit : station.kind = .split) {e : Fin E.size} (enters : e ∈ station.ins) (member : X e) :
    ∀ s ∈ station.outs, X s := by
  intro s leaves
  have here : E.target e = ⟨station.node, stands.inside⟩ := Fin.ext ((stands.ins e).2 enters)
  refine executing.choices e s member ?_ ?_
  · rw [here, stands.kind, isSplit]
    rfl
  · exact (Fin.ext ((stands.outs s).2 leaves) : E.source s = ⟨station.node, stands.inside⟩).trans
      here.symm

theorem Stands.passes {b : Part (Fin E.size) shape} (stands : b.Stands) (away : i ∉ b.edges) :
    (∃ f ∈ b.firsts, X f) → ∃ l ∈ b.lasts, X l := by
  induction b with
  | flow => exact id
  | activity d v rest ih =>
    rintro ⟨f, first, member⟩
    obtain rfl := List.mem_singleton.1 first
    obtain ⟨here, standsRest⟩ := List.forall_mem_cons.1 stands
    obtain ⟨other, away⟩ := not_or.1 (mt List.mem_cons.2 away)
    exact ih standsRest away (exists_out executing here List.mem_cons_self member (Ne.symm other))
  | block d opening opens branches closing closes rest ihBranches ih =>
    rintro ⟨f, first, member⟩
    obtain rfl := List.mem_singleton.1 first
    obtain ⟨atOpening, later⟩ := List.forall_mem_cons.1 stands
    obtain ⟨atClosing, later⟩ := List.forall_mem_cons.1 later
    obtain ⟨standsBranches, standsRest⟩ := List.forall_mem_append.1 later
    obtain ⟨other, away⟩ := not_or.1 (mt List.mem_cons.2 away)
    obtain ⟨awayBranches, awayRest⟩ := not_or.1 (mt List.mem_append.2 away)
    obtain ⟨l, last, member⟩ := ihBranches standsBranches awayBranches
      (exists_out executing atOpening List.mem_cons_self member (Ne.symm other))
    refine ih standsRest awayRest (exists_out executing atClosing last member fun same => ?_)
    exact awayBranches (same ▸ branches.lasts_subset last)
  | loop d merge split body back rest ihBody ihBack ih =>
    rintro ⟨f, first, member⟩
    obtain rfl := List.mem_singleton.1 first
    obtain ⟨atMerge, later⟩ := List.forall_mem_cons.1 stands
    obtain ⟨atSplit, later⟩ := List.forall_mem_cons.1 later
    obtain ⟨standsBody, later⟩ := List.forall_mem_append.1 later
    obtain ⟨-, standsRest⟩ := List.forall_mem_append.1 later
    obtain ⟨other, away⟩ := not_or.1 (mt List.mem_cons.2 away)
    obtain ⟨awayBody, away⟩ := not_or.1 (mt List.mem_append.2 away)
    obtain ⟨-, awayRest⟩ := not_or.1 (mt List.mem_append.2 away)
    obtain ⟨l, last, member⟩ := ihBody standsBody awayBody
      (exists_out executing atMerge List.mem_cons_self member (Ne.symm other))
    obtain ⟨f, first⟩ := rest.exists_first
    exact ih standsRest awayRest ⟨f, first,
      all_outs executing atSplit rfl last member f (List.mem_append_right _ first)⟩
  | one _ ih => exact ih stands away
  | more branch others ih ihOthers =>
    rintro ⟨f, first, member⟩
    obtain ⟨standsBranch, standsOthers⟩ := List.forall_mem_append.1 stands
    obtain ⟨awayBranch, awayOthers⟩ := not_or.1 (mt List.mem_append.2 away)
    rcases List.mem_append.1 first with first | first
    · obtain ⟨l, last, found⟩ := ih standsBranch awayBranch ⟨f, first, member⟩
      exact ⟨l, List.mem_append_left _ last, found⟩
    · obtain ⟨l, last, found⟩ := ihOthers standsOthers awayOthers ⟨f, first, member⟩
      exact ⟨l, List.mem_append_right _ last, found⟩

theorem Stands.passes_away {b : Part (Fin E.size) shape} (stands : b.Stands) (away : i ∉ b.edges)
    (gets : ∃ f ∈ b.firsts, X f) : ∃ l ∈ b.lasts, X l ∧ l ≠ i := by
  obtain ⟨l, last, member⟩ := Stands.passes executing stands away gets
  exact ⟨l, last, member, fun same => away (same ▸ b.lasts_subset last)⟩

/-- A set that ends inside a block and holds the exit of the block holds a last edge of every part
around the block. -/
theorem Stands.escapes {b : Part (Fin E.size) shape} (stands : b.Stands) (once : b.edges.Nodup)
    {frame : Frame (Fin E.size)} (member : frame ∈ b.frames) (inside : i ∈ frame.branches.edges)
    (exits : X frame.exit) : ∃ l ∈ b.lasts, X l ∧ l ≠ i := by
  have within : ∀ {shape : Shape} {c : Part (Fin E.size) shape}, frame ∈ c.frames → i ∈ c.edges :=
    fun member => (sublist_of_mem_frames member).subset
      (List.mem_cons_of_mem _ (List.mem_append_left _ inside))
  induction b with
  | flow => cases member
  | activity d v rest ih =>
    exact ih (List.forall_mem_cons.1 stands).2 (List.nodup_cons.1 once).2 member
  | block d opening opens branches closing closes rest ihBranches ih =>
    obtain ⟨-, later⟩ := List.forall_mem_cons.1 stands
    obtain ⟨atClosing, later⟩ := List.forall_mem_cons.1 later
    obtain ⟨standsBranches, standsRest⟩ := List.forall_mem_append.1 later
    obtain ⟨onceBranches, onceRest, apart⟩ := List.nodup_append.1 (List.nodup_cons.1 once).2
    rcases List.mem_cons.1 member with rfl | member
    -- the block itself, whose exit is the first edge of the rest
    · have away : i ∉ rest.edges := fun again => apart i inside i again rfl
      exact Stands.passes_away (b := rest) executing standsRest away
        ⟨rest.first, rest.firsts_eq ▸ List.mem_singleton_self _, exits⟩
    rcases List.mem_append.1 member with member | member
    · have away : i ∉ rest.edges := fun again => apart i (within member) i again rfl
      obtain ⟨l, last, found, other⟩ := ihBranches standsBranches onceBranches member
      exact Stands.passes_away (b := rest) executing standsRest away
        (exists_out executing atClosing last found other)
    · exact ih standsRest onceRest member
  | loop d merge split body back rest ihBody ihBack ih =>
    obtain ⟨atMerge, later⟩ := List.forall_mem_cons.1 stands
    obtain ⟨atSplit, later⟩ := List.forall_mem_cons.1 later
    obtain ⟨standsBody, later⟩ := List.forall_mem_append.1 later
    obtain ⟨standsBack, standsRest⟩ := List.forall_mem_append.1 later
    obtain ⟨onceBody, onceLater, apart⟩ := List.nodup_append.1 (List.nodup_cons.1 once).2
    obtain ⟨onceBack, onceRest, apartRest⟩ := List.nodup_append.1 onceLater
    have leave : i ∉ rest.edges → ∀ {l}, l ∈ body.lasts → X l →
        ∃ l ∈ rest.lasts, X l ∧ l ≠ i := fun away l last found => by
      obtain ⟨f, first⟩ := rest.exists_first
      exact Stands.passes_away (b := rest) executing standsRest away ⟨f, first,
        all_outs executing atSplit rfl last found f (List.mem_append_right _ first)⟩
    rcases List.mem_append.1 member with member | member
    · have away : i ∉ rest.edges := fun again =>
        apart i (within member) i (List.mem_append_right _ again) rfl
      obtain ⟨l, last, found, -⟩ := ihBody standsBody onceBody member
      exact leave away last found
    rcases List.mem_append.1 member with member | member
    -- from the way back the set comes through the body again before it leaves the loop
    · have awayBody : i ∉ body.edges := fun again =>
        apart i again i (List.mem_append_left _ (within member)) rfl
      have awayRest : i ∉ rest.edges := fun again => apartRest i (within member) i again rfl
      obtain ⟨l, last, found, other⟩ := ihBack standsBack onceBack member
      obtain ⟨k, last, found⟩ := Stands.passes (b := body) executing standsBody awayBody
        (exists_out executing atMerge (List.mem_cons_of_mem _ last) found other)
      exact leave awayRest last found
    · exact ih standsRest onceRest member
  | one _ ih => exact ih stands once member
  | more branch others ih ihOthers =>
    obtain ⟨standsBranch, standsOthers⟩ := List.forall_mem_append.1 stands
    obtain ⟨onceBranch, onceOthers, -⟩ := List.nodup_append.1 once
    rcases List.mem_append.1 member with member | member
    · obtain ⟨l, last, found⟩ := ih standsBranch onceBranch member
      exact ⟨l, List.mem_append_left _ last, found⟩
    · obtain ⟨l, last, found⟩ := ihOthers standsOthers onceOthers member
      exact ⟨l, List.mem_append_right _ last, found⟩

end Executing

/-! ### The order of reading -/

theorem pair_sublist {α : Type} {x y : α} {l₁ l₂ : List α} (left : x ∈ l₁) (right : y ∈ l₂) :
    [x, y].Sublist (l₁ ++ l₂) :=
  (List.singleton_sublist.2 left).append (List.singleton_sublist.2 right)

theorem head_sublist {α : Type} {x y : α} {l : List α} (member : y ∈ l) : [x, y].Sublist (x :: l) :=
  (List.singleton_sublist.2 member).cons_cons x

/-- What is behind a node is read after something before the node, and what is behind a join after
everything before the join. -/
theorem ordered {ε : Type} {b : Part ε shape} {station : Station ε} (member : station ∈ b.stations)
    {d : ε} (leaves : d ∈ station.outs) :
    (∃ q ∈ station.ins, [q, d].Sublist b.edges) ∧
      (station.kind = .join → ∀ q ∈ station.ins, [q, d].Sublist b.edges) := by
  -- what is read in this order in a smaller part is read so in the whole
  have grow : ∀ {l l' : List ε}, l.Sublist l' →
      (∃ q ∈ station.ins, [q, d].Sublist l) ∧
        (station.kind = .join → ∀ q ∈ station.ins, [q, d].Sublist l) →
      (∃ q ∈ station.ins, [q, d].Sublist l') ∧
        (station.kind = .join → ∀ q ∈ station.ins, [q, d].Sublist l') := fun within both =>
    ⟨both.1.imp fun q found => ⟨found.1, found.2.trans within⟩,
      fun isJoin q enters => (both.2 isJoin q enters).trans within⟩
  induction b with
  | flow => cases member
  | activity e v rest ih =>
    rcases List.mem_cons.1 member with rfl | member
    · have sole : [e, d].Sublist (e :: rest.edges) :=
        head_sublist (rest.firsts_subset leaves)
      exact ⟨⟨e, List.mem_cons_self, sole⟩, fun isJoin => by cases isJoin⟩
    · exact grow (List.sublist_cons_self e _) (ih member)
  | block e opening opens branches closing closes rest ihBranches ih =>
    simp only [stations, List.mem_cons, List.mem_append] at member
    rcases member with rfl | rfl | member | member
    · have sole : [e, d].Sublist (e :: (branches.edges ++ rest.edges)) :=
        head_sublist (List.mem_append_left _ (branches.firsts_subset leaves))
      exact ⟨⟨e, List.mem_cons_self, sole⟩, fun _ q enters =>
        List.mem_singleton.1 enters ▸ sole⟩
    · have every : ∀ q ∈ branches.lasts, [q, d].Sublist (e :: (branches.edges ++ rest.edges)) :=
        fun q last => (pair_sublist (branches.lasts_subset last) (rest.firsts_subset leaves)).cons e
      obtain ⟨q, last⟩ := branches.exists_last
      exact ⟨⟨q, last, every q last⟩, fun _ => every⟩
    · exact grow ((List.sublist_append_left _ _).cons e) (ihBranches member)
    · exact grow ((List.sublist_append_right _ _).cons e) (ih member)
  | loop e merge split body back rest ihBody ihBack ih =>
    simp only [stations, List.mem_cons, List.mem_append] at member
    rcases member with rfl | rfl | member | member | member
    · have sole : [e, d].Sublist (e :: (body.edges ++ (back.edges ++ rest.edges))) :=
        head_sublist (List.mem_append_left _ (body.firsts_subset leaves))
      exact ⟨⟨e, List.mem_cons_self, sole⟩, fun isJoin => by cases isJoin⟩
    · obtain ⟨q, last⟩ := body.exists_last
      have behind : d ∈ back.edges ++ rest.edges := List.mem_append.2
        ((List.mem_append.1 leaves).imp (back.firsts_subset ·) (rest.firsts_subset ·))
      exact ⟨⟨q, last, (pair_sublist (body.lasts_subset last) behind).cons e⟩,
        fun isJoin => by cases isJoin⟩
    · exact grow ((List.sublist_append_left _ _).cons e) (ihBody member)
    · exact grow (((List.sublist_append_left _ _).trans (List.sublist_append_right _ _)).cons e)
        (ihBack member)
    · exact grow (((List.sublist_append_right _ _).trans (List.sublist_append_right _ _)).cons e)
        (ih member)
  | one _ ih => exact ih member
  | more _ _ ih ihOthers =>
    rcases List.mem_append.1 member with member | member
    · exact grow (List.sublist_append_left _ _) (ih member)
    · exact grow (List.sublist_append_right _ _) (ihOthers member)

end WorkflowSoundness.Part
