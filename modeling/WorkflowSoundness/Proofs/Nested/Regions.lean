import WorkflowSoundness.Proofs.Nested.Layout

/-!
Parts in their places. Where the nodes of a part stand where it says, a step from inside stays
inside unless it is behind the part (`next_inside`), and everything in the part lies on a walk
through it (`trails`).
-/

namespace WorkflowSoundness

namespace EdgeGraph.Stands

variable {E : EdgeGraph} {station : Station (Fin E.size)} (stands : E.Stands station)
  {d s : Fin E.size}

include stands

theorem next (enters : d ∈ station.ins) (leaves : s ∈ station.outs) : s ∈ E.successors d :=
  E.mem_successors.2 (Fin.ext (((stands.outs s).2 leaves).trans ((stands.ins d).2 enters).symm))

/-- What follows an edge into a station is one of the edges out of it. -/
theorem outs_of_next (enters : d ∈ station.ins) (next : s ∈ E.successors d) : s ∈ station.outs :=
  (stands.outs s).1 ((congrArg Fin.val (E.mem_successors.1 next)).trans ((stands.ins d).2 enters))

theorem ins_of_next (leaves : s ∈ station.outs) (next : s ∈ E.successors d) : d ∈ station.ins :=
  (stands.ins d).1 ((congrArg Fin.val (E.mem_successors.1 next)).symm.trans
    ((stands.outs s).2 leaves))

end EdgeGraph.Stands

namespace Part

variable {E : EdgeGraph} {shape : Shape}

/-- The nodes inside the part are in their places. -/
def Stands (b : Part (Fin E.size) shape) : Prop :=
  ∀ station ∈ b.stations, E.Stands station

section Inside

variable {b : Part (Fin E.size) shape} (stands : b.Stands) {d s : Fin E.size}

include stands

/-- A part is left by its last edges only. -/
theorem Stands.next_inside (inside : d ∈ b.edges) (notLast : d ∉ b.lasts)
    (next : s ∈ E.successors d) : s ∈ b.edges := by
  obtain ⟨station, member, enters⟩ := (b.lasts_or_ins inside).resolve_left notLast
  exact b.outs_subset member ((stands station member).outs_of_next enters next)

/-- A part is entered by its first edges only. -/
theorem Stands.before_inside (inside : s ∈ b.edges) (notFirst : s ∉ b.firsts)
    (next : s ∈ E.successors d) : d ∈ b.edges := by
  obtain ⟨station, member, leaves⟩ := (b.firsts_or_outs inside).resolve_left notFirst
  exact b.ins_subset member ((stands station member).ins_of_next leaves next)

end Inside

theorem exists_first {ε : Type} (b : Part ε shape) : ∃ e, e ∈ b.firsts := by
  induction b with
  | flow | activity | block | loop => exact ⟨_, List.mem_cons_self⟩
  | one _ ih => exact ih
  | more _ _ ih => exact ih.imp fun e first => List.mem_append_left _ first

theorem exists_last {ε : Type} (b : Part ε shape) : ∃ e, e ∈ b.lasts := by
  induction b with
  | flow => exact ⟨_, List.mem_cons_self⟩
  | activity _ _ _ ih => exact ih
  | block _ _ _ _ _ _ _ _ ih => exact ih
  | loop _ _ _ _ _ _ _ _ ih => exact ih
  | one _ ih => exact ih
  | more _ _ ih => exact ih.imp fun e last => List.mem_append_left _ last

/-- Everything in the part lies on a walk through it. -/
def Threaded (b : Part (Fin E.size) shape) : Prop :=
  ∀ e ∈ b.edges, (∃ f ∈ b.firsts, Trail E.successors (· ∈ b.edges) f e) ∧
    ∃ l ∈ b.lasts, Trail E.successors (· ∈ b.edges) e l

/-- Behind an activity the way goes on as in the rest. -/
theorem threaded_activity {d : Fin E.size} {v : Nat} {rest : Part (Fin E.size) .sequence}
    (here : E.Stands ⟨v, .activity, [d], rest.firsts⟩) (threaded : rest.Threaded) :
    (activity d v rest).Threaded := by
  have grow : ∀ {x y}, Trail E.successors (· ∈ rest.edges) x y →
      Trail E.successors (· ∈ (activity d v rest).edges) x y := fun trail =>
    trail.mono fun _ => List.mem_cons_of_mem d
  have into : ∀ {f e}, f ∈ rest.firsts → Trail E.successors (· ∈ rest.edges) f e →
      Trail E.successors (· ∈ (activity d v rest).edges) d e := fun first trail =>
    .step List.mem_cons_self (here.next List.mem_cons_self first) (grow trail)
  intro e inside
  rcases List.mem_cons.1 inside with rfl | inside
  · obtain ⟨f, first⟩ := rest.exists_first
    obtain ⟨-, l, last, trail⟩ := threaded f (rest.firsts_subset first)
    exact ⟨⟨e, List.mem_cons_self, .stay List.mem_cons_self⟩, l, last, into first trail⟩
  · obtain ⟨⟨f, first, before⟩, l, last, after⟩ := threaded e inside
    exact ⟨⟨d, List.mem_cons_self, into first before⟩, l, last, grow after⟩

/-- A walk through a block passes both gateways and a branch between them. -/
theorem threaded_block {d : Fin E.size} {opening : Opening} {opens : Nat}
    {branches : Part (Fin E.size) .bundle} {closing : Closing} {closes : Nat}
    {rest : Part (Fin E.size) .sequence}
    (atOpening : E.Stands ⟨opens, opening, [d], branches.firsts⟩)
    (atClosing : E.Stands ⟨closes, closing, branches.lasts, rest.firsts⟩)
    (inside : branches.Threaded) (behind : rest.Threaded) :
    (block d opening opens branches closing closes rest).Threaded := by
  unfold Threaded
  simp only [edges, firsts, lasts]
  generalize all : d :: (branches.edges ++ rest.edges) = l
  have growBranches : ∀ {x y}, Trail E.successors (· ∈ branches.edges) x y →
      Trail E.successors (· ∈ l) x y := fun trail =>
    trail.mono fun _ inside => all ▸ List.mem_cons_of_mem d (List.mem_append_left _ inside)
  have growRest : ∀ {x y}, Trail E.successors (· ∈ rest.edges) x y →
      Trail E.successors (· ∈ l) x y := fun trail =>
    trail.mono fun _ inside => all ▸ List.mem_cons_of_mem d (List.mem_append_right _ inside)
  have start : d ∈ l := all ▸ List.mem_cons_self
  have opened : ∀ {e}, e ∈ branches.edges → Trail E.successors (· ∈ l) d e := fun member => by
    obtain ⟨f, first, trail⟩ := (inside _ member).1
    exact .step start (atOpening.next List.mem_cons_self first) (growBranches trail)
  have closed : ∀ {e f}, e ∈ branches.edges → f ∈ rest.firsts →
      Trail E.successors (· ∈ l) e f := fun member first => by
    obtain ⟨k, last, trail⟩ := (inside _ member).2
    exact (growBranches trail).snoc (atClosing.next last first)
      (growRest (.stay (rest.firsts_subset first))).start
  obtain ⟨b, someBranch⟩ := branches.exists_first
  have someBranch := branches.firsts_subset someBranch
  have passed : ∀ {f}, f ∈ rest.firsts → Trail E.successors (· ∈ l) d f := fun first =>
    (opened someBranch).trans (closed someBranch first)
  obtain ⟨f, first⟩ := rest.exists_first
  obtain ⟨-, k, last, onwards⟩ := behind f (rest.firsts_subset first)
  intro e member
  rw [← all, List.mem_cons, List.mem_append] at member
  rcases member with rfl | member | member
  · exact ⟨⟨e, List.mem_cons_self, .stay start⟩, k, last, (passed first).trans (growRest onwards)⟩
  · exact ⟨⟨d, List.mem_cons_self, opened member⟩, k, last,
      (closed member first).trans (growRest onwards)⟩
  · obtain ⟨⟨f, first, before⟩, k, last, after⟩ := behind e member
    exact ⟨⟨d, List.mem_cons_self, (passed first).trans (growRest before)⟩, k, last,
      growRest after⟩

/-- A walk through a loop passes its body. The way back is entered behind the body and left
before it. -/
theorem threaded_loop {d : Fin E.size} {merge split : Nat}
    {body back rest : Part (Fin E.size) .sequence}
    (atMerge : E.Stands ⟨merge, .merge, d :: back.lasts, body.firsts⟩)
    (atSplit : E.Stands ⟨split, .split, body.lasts, back.firsts ++ rest.firsts⟩)
    (inside : body.Threaded) (home : back.Threaded) (behind : rest.Threaded) :
    (loop d merge split body back rest).Threaded := by
  unfold Threaded
  simp only [edges, firsts, lasts]
  generalize all : d :: (body.edges ++ (back.edges ++ rest.edges)) = l
  have inBody : ∀ {x}, x ∈ body.edges → x ∈ l := fun member =>
    all ▸ List.mem_cons_of_mem d (List.mem_append_left _ member)
  have inBack : ∀ {x}, x ∈ back.edges → x ∈ l := fun member =>
    all ▸ List.mem_cons_of_mem d (List.mem_append_right _ (List.mem_append_left _ member))
  have inRest : ∀ {x}, x ∈ rest.edges → x ∈ l := fun member =>
    all ▸ List.mem_cons_of_mem d (List.mem_append_right _ (List.mem_append_right _ member))
  have start : d ∈ l := all ▸ List.mem_cons_self
  have around : ∀ {c e}, c = d ∨ c ∈ back.lasts → e ∈ body.edges → c ∈ l →
      Trail E.successors (· ∈ l) c e := fun enters member here => by
    obtain ⟨f, first, trail⟩ := (inside _ member).1
    exact .step here (atMerge.next (List.mem_cons.2 enters) first) (trail.mono fun _ => inBody)
  have onward : ∀ {e f}, e ∈ body.edges → f ∈ back.firsts ∨ f ∈ rest.firsts →
      Trail E.successors (· ∈ l) e f := fun member leaves => by
    obtain ⟨k, last, trail⟩ := (inside _ member).2
    exact (trail.mono fun _ => inBody).snoc (atSplit.next last (List.mem_append.2 leaves))
      (leaves.elim (fun first => inBack (back.firsts_subset first))
        fun first => inRest (rest.firsts_subset first))
  obtain ⟨b, someBody⟩ := body.exists_first
  have someBody := body.firsts_subset someBody
  have passed : ∀ {f}, f ∈ back.firsts ∨ f ∈ rest.firsts → Trail E.successors (· ∈ l) d f :=
    fun leaves => (around (Or.inl rfl) someBody start).trans (onward someBody leaves)
  obtain ⟨f, first⟩ := rest.exists_first
  obtain ⟨-, k, last, after⟩ := behind f (rest.firsts_subset first)
  have out : ∀ {e}, e ∈ body.edges → Trail E.successors (· ∈ l) e k := fun member =>
    (onward member (Or.inr first)).trans (after.mono fun _ => inRest)
  intro e member
  rw [← all, List.mem_cons, List.mem_append, List.mem_append] at member
  rcases member with rfl | member | member | member
  · exact ⟨⟨e, List.mem_cons_self, .stay start⟩, k, last,
      (around (Or.inl rfl) someBody start).trans (out someBody)⟩
  · exact ⟨⟨d, List.mem_cons_self, around (Or.inl rfl) member start⟩, k, last, out member⟩
  · obtain ⟨⟨f, leaves, before⟩, j, enters, back'⟩ := home e member
    exact ⟨⟨d, List.mem_cons_self, (passed (Or.inl leaves)).trans (before.mono fun _ => inBack)⟩,
      k, last, (back'.mono fun _ => inBack).trans ((around (Or.inr enters) someBody
        (inBack (back.lasts_subset enters))).trans (out someBody))⟩
  · obtain ⟨⟨f, leaves, before⟩, j, ends, on⟩ := behind e member
    exact ⟨⟨d, List.mem_cons_self, (passed (Or.inr leaves)).trans (before.mono fun _ => inRest)⟩,
      j, ends, on.mono fun _ => inRest⟩

/-- The constructors together: the edges of every part lie on walks through it. -/
theorem Stands.trails {b : Part (Fin E.size) shape} (stands : b.Stands) : b.Threaded := by
  induction b with
  | flow d =>
    rintro e inside
    exact ⟨⟨e, inside, .stay inside⟩, e, inside, .stay inside⟩
  | activity d v rest ih =>
    obtain ⟨here, later⟩ := List.forall_mem_cons.1 stands
    exact threaded_activity here (ih later)
  | block d opening opens branches closing closes rest ihBranches ih =>
    obtain ⟨atOpening, later⟩ := List.forall_mem_cons.1 stands
    obtain ⟨atClosing, later⟩ := List.forall_mem_cons.1 later
    obtain ⟨standsBranches, standsRest⟩ := List.forall_mem_append.1 later
    exact threaded_block atOpening atClosing (ihBranches standsBranches) (ih standsRest)
  | loop d merge split body back rest ihBody ihBack ih =>
    obtain ⟨atMerge, later⟩ := List.forall_mem_cons.1 stands
    obtain ⟨atSplit, later⟩ := List.forall_mem_cons.1 later
    obtain ⟨standsBody, later⟩ := List.forall_mem_append.1 later
    obtain ⟨standsBack, standsRest⟩ := List.forall_mem_append.1 later
    exact threaded_loop atMerge atSplit (ihBody standsBody) (ihBack standsBack) (ih standsRest)
  | one _ ih => exact ih stands
  | more branch others ih ihOthers =>
    obtain ⟨standsBranch, standsOthers⟩ := List.forall_mem_append.1 stands
    intro e inside
    rcases List.mem_append.1 inside with inside | inside
    · obtain ⟨⟨f, first, before⟩, l, last, after⟩ := ih standsBranch e inside
      exact ⟨⟨f, List.mem_append_left _ first, before.mono fun _ => List.mem_append_left _⟩,
        l, List.mem_append_left _ last, after.mono fun _ => List.mem_append_left _⟩
    · obtain ⟨⟨f, first, before⟩, l, last, after⟩ := ihOthers standsOthers e inside
      exact ⟨⟨f, List.mem_append_right _ first, before.mono fun _ => List.mem_append_right _⟩,
        l, List.mem_append_right _ last, after.mono fun _ => List.mem_append_right _⟩

end Part
end WorkflowSoundness
