import WorkflowSoundness.Proofs.Nested.Frames

/-!
Processes obey the structural rules. A graph that a process draws can be closed
(`exists_closed`) and obeys the rules (`obeys`), and no node of it has several edges on both sides
(`thin`).
-/

namespace WorkflowSoundness

namespace Part

variable {ε : Type} {shape : Shape}

/-- A node inside a part is an activity, a splitting gateway with one flow in or a merging gateway
with one flow out. -/
theorem station_shape {b : Part ε shape} {station : Station ε} (member : station ∈ b.stations) :
    (∃ e, e ∈ station.ins) ∧ (∃ e, e ∈ station.outs) ∧
      (station.kind = .activity ∧ (∃ e, station.ins = [e]) ∨
        station.kind.isSplitting = true ∧ (∃ e, station.ins = [e]) ∨
        station.kind.isMerging = true ∧ ∃ e, station.outs = [e]) := by
  induction b with
  | flow => cases member
  | activity d v rest ih =>
    rcases List.mem_cons.1 member with rfl | member
    · exact ⟨⟨d, List.mem_cons_self⟩, rest.exists_first, Or.inl ⟨rfl, d, rfl⟩⟩
    · exact ih member
  | block d opening _ branches closing _ rest ihBranches ih =>
    simp only [stations, List.mem_cons, List.mem_append] at member
    rcases member with rfl | rfl | member | member
    · exact ⟨⟨d, List.mem_cons_self⟩, branches.exists_first,
        Or.inr (Or.inl ⟨opening.property, d, rfl⟩)⟩
    · exact ⟨branches.exists_last, rest.exists_first,
        Or.inr (Or.inr ⟨closing.property, rest.first, rest.firsts_eq⟩)⟩
    · exact ihBranches member
    · exact ih member
  | loop d _ _ body back rest ihBody ihBack ih =>
    simp only [stations, List.mem_cons, List.mem_append] at member
    rcases member with rfl | rfl | member | member | member
    · exact ⟨⟨d, List.mem_cons_self⟩, body.exists_first,
        Or.inr (Or.inr ⟨rfl, body.first, body.firsts_eq⟩)⟩
    · exact ⟨body.exists_last, back.exists_first.imp fun _ => List.mem_append_left _,
        Or.inr (Or.inl ⟨rfl, body.last, body.lasts_eq⟩)⟩
    · exact ihBody member
    · exact ihBack member
    · exact ih member
  | one _ ih => exact ih member
  | more _ _ ih ihOthers => exact (List.mem_append.1 member).elim ih ihOthers

/-- The start and the end lie outside all parts. -/
theorem inner_kind {b : Part ε shape} {station : Station ε} (member : station ∈ b.stations) :
    station.kind ≠ .start ∧ station.kind ≠ .finish := by
  obtain ⟨-, -, shape⟩ := station_shape member
  refine ⟨fun kind => ?_, fun kind => ?_⟩
  all_goals
    rw [kind] at shape
    rcases shape with ⟨activity, -⟩ | ⟨splitting, -⟩ | ⟨merging, -⟩
    · cases activity
    · cases splitting
    · cases merging

/-- One of the frames opens at the station if its kind forks, one closes there if it waits. -/
def Framed (frames : List (Frame ε)) (station : Station ε) : Prop :=
  (station.kind.isForking = true → ∃ frame ∈ frames,
    frame.block.opens = station.node ∧ frame.block.opening.val = station.kind) ∧
  (station.kind.isSynchronizing = true → ∃ frame ∈ frames,
    frame.block.closes = station.node ∧ frame.block.closing.val = station.kind)

theorem Framed.mono {l l' : List (Frame ε)} {station : Station ε}
    (within : ∀ frame ∈ l, frame ∈ l') (framed : Framed l station) : Framed l' station := by
  refine ⟨fun forking => ?_, fun waits => ?_⟩
  · obtain ⟨frame, member, opens⟩ := framed.1 forking
    exact ⟨frame, within frame member, opens⟩
  · obtain ⟨frame, member, closes⟩ := framed.2 waits
    exact ⟨frame, within frame member, closes⟩

/-- A node that neither forks nor waits needs no frame. -/
theorem Framed.of_plain {l : List (Frame ε)} {station : Station ε}
    (noFork : station.kind.isForking = false) (noWait : station.kind.isSynchronizing = false) :
    Framed l station :=
  ⟨fun forking => absurd (noFork.symm.trans forking) Bool.false_ne_true,
    fun waits => absurd (noWait.symm.trans waits) Bool.false_ne_true⟩

/-- Only blocks have gateways other than splits and merges. -/
theorem framed_of_mem_stations {b : Part ε shape} {station : Station ε}
    (member : station ∈ b.stations) : Framed b.frames station := by
  induction b with
  | flow => cases member
  | activity _ _ _ ih =>
    rcases List.mem_cons.1 member with rfl | member
    · exact .of_plain rfl rfl
    · exact ih member
  | block d opening opens branches closing closes rest ihBranches ih =>
    simp only [stations, List.mem_cons, List.mem_append] at member
    rcases member with rfl | rfl | member | member
    · refine ⟨fun _ => ⟨_, List.mem_cons_self, rfl, rfl⟩, fun waits => ?_⟩
      exact absurd (NodeKind.isMerging_of_isSynchronizing waits)
        (NodeKind.not_isMerging_of_isSplitting opening.property)
    · refine ⟨fun forking => ?_, fun _ => ⟨_, List.mem_cons_self, rfl, rfl⟩⟩
      exact absurd closing.property
        (NodeKind.not_isMerging_of_isSplitting (NodeKind.isSplitting_of_isForking forking))
    · exact .mono (fun _ inside => List.mem_cons_of_mem _ (List.mem_append_left _ inside))
        (ihBranches member)
    · exact .mono (fun _ inside => List.mem_cons_of_mem _ (List.mem_append_right _ inside))
        (ih member)
  | loop _ _ _ _ _ _ ihBody ihBack ih =>
    simp only [stations, List.mem_cons, List.mem_append] at member
    rcases member with rfl | rfl | member | member | member
    · exact .of_plain rfl rfl
    · exact .of_plain rfl rfl
    · exact .mono (fun _ inside => List.mem_append_left _ inside) (ihBody member)
    · exact .mono (fun _ inside => List.mem_append_right _ (List.mem_append_left _ inside))
        (ihBack member)
    · exact .mono (fun _ inside => List.mem_append_right _ (List.mem_append_right _ inside))
        (ih member)
  | one _ ih => exact ih member
  | more _ _ ih ihOthers =>
    rcases List.mem_append.1 member with member | member
    · exact .mono (fun _ inside => List.mem_append_left _ inside) (ih member)
    · exact .mono (fun _ inside => List.mem_append_right _ inside) (ihOthers member)

end Part

/-! ### The nodes of a process -/

namespace Process

variable {ε : Type} {p : Process ε} {station : Station ε}

/-- Every node but the start event is entered, and every node but the end event is left. -/
theorem exists_ends (member : station ∈ p.stations) :
    (station.node = p.start ∨ ∃ e, e ∈ station.ins) ∧
      (station.node = p.finish ∨ ∃ e, e ∈ station.outs) := by
  rcases List.mem_cons.1 member with rfl | member
  · exact ⟨Or.inl rfl, Or.inr p.body.exists_first⟩
  rcases List.mem_cons.1 member with rfl | member
  · exact ⟨Or.inr p.body.exists_last, Or.inl rfl⟩
  · obtain ⟨entered, left, -⟩ := Part.station_shape member
    exact ⟨Or.inr entered, Or.inr left⟩

/-- A gateway that splits is entered by one edge. -/
theorem sole_in (member : station ∈ p.stations) (splitting : station.kind.isSplitting = true) :
    ∃ e, station.ins = [e] := by
  rcases List.mem_cons.1 member with rfl | member
  · cases splitting
  rcases List.mem_cons.1 member with rfl | member
  · cases splitting
  rcases (Part.station_shape member).2.2 with ⟨isActivity, -⟩ | ⟨-, sole⟩ | ⟨merging, -⟩
  · rw [isActivity] at splitting
    cases splitting
  · exact sole
  · exact absurd merging (NodeKind.not_isMerging_of_isSplitting splitting)

/-- A gateway that merges is left by one edge. -/
theorem sole_out (member : station ∈ p.stations) (merging : station.kind.isMerging = true) :
    ∃ e, station.outs = [e] := by
  rcases List.mem_cons.1 member with rfl | member
  · cases merging
  rcases List.mem_cons.1 member with rfl | member
  · cases merging
  rcases (Part.station_shape member).2.2 with ⟨isActivity, -⟩ | ⟨splitting, -⟩ | ⟨-, sole⟩
  · rw [isActivity] at merging
    cases merging
  · exact absurd merging (NodeKind.not_isMerging_of_isSplitting splitting)
  · exact sole

end Process

namespace Process.Draws

variable {p : Process Unit} {g : Graph} (draws : p.Draws g)

include draws

theorem nodesOf_eq {kind : NodeKind} {v : Nat}
    (present : ∃ station ∈ p.stations, station.node = v ∧ station.kind = kind)
    (only : ∀ station ∈ p.stations, station.kind = kind → station.node = v) :
    g.nodesOf kind = [v] := by
  have once : (g.nodesOf kind).Nodup := List.nodup_range.filter _
  refine eq_singleton_of_nodup once fun w => ?_
  rw [Graph.mem_nodesOf, ← draws.mem_nodes, List.mem_map]
  constructor
  · rintro ⟨station, member, same⟩
    obtain ⟨rfl, isKind⟩ := Prod.mk.inj same
    exact only station member isKind
  · rintro rfl
    obtain ⟨station, member, rfl, rfl⟩ := present
    exact ⟨station, member, rfl⟩

theorem nodesOf_start : g.nodesOf .start = [p.start] := by
  refine draws.nodesOf_eq ⟨_, List.mem_cons_self, rfl, rfl⟩ fun station member isStart => ?_
  rcases List.mem_cons.1 member with rfl | member
  · rfl
  rcases List.mem_cons.1 member with rfl | member
  · cases isStart
  · exact absurd isStart (Part.inner_kind member).1

theorem nodesOf_finish : g.nodesOf .finish = [p.finish] := by
  refine draws.nodesOf_eq ⟨_, List.mem_cons_of_mem _ List.mem_cons_self, rfl, rfl⟩
    fun station member isFinish => ?_
  rcases List.mem_cons.1 member with rfl | member
  · cases isFinish
  rcases List.mem_cons.1 member with rfl | member
  · rfl
  · exact absurd isFinish (Part.inner_kind member).2

theorem mem_flows {u v : Nat} {e : Unit} (arc : (e, ⟨u, v⟩) ∈ p.arcs) : (⟨u, v⟩ : Flow) ∈ g.flows :=
  draws.flows.mem_iff.1 (List.mem_map_of_mem (f := Prod.snd) arc)

/-- A nested process can be closed. -/
theorem exists_closed : ∃ E, EdgeGraph.ofGraph g = .ok E := by
  obtain ⟨e, first⟩ := p.body.exists_first
  obtain ⟨d, last⟩ := p.body.exists_last
  obtain ⟨v, leaves⟩ := p.body.arc_of_firsts (u := p.start) (w := p.finish) first
  obtain ⟨u, enters⟩ := p.body.arc_of_lasts (u := p.start) (w := p.finish) last
  refine EdgeGraph.exists_ofGraph ?_ ?_ (draws.mem_flows leaves) rfl (draws.mem_flows enters) rfl
  · rw [Graph.start?, draws.nodesOf_start]
    rfl
  · rw [Graph.finish?, draws.nodesOf_finish]
    rfl

end Process.Draws

/-! ### The rules -/

/-- No node has several edges on both sides. -/
def EdgeGraph.Thin (E : EdgeGraph) : Prop :=
  ∀ v, (∃ e, ∀ x, E.target x = v → x = e) ∨ ∃ e, ∀ x, E.source x = v → x = e

namespace Process.Fits

variable {g : Graph} {E : EdgeGraph} {p : Process (Fin E.size)} (fits : p.Fits)

include fits

theorem body_stands : p.body.Stands := fun station member =>
  fits.stands station (List.mem_cons_of_mem _ (List.mem_cons_of_mem _ member))

variable {station : Station (Fin E.size)} (numbered : Numbered g E)

include numbered

/-- No flow or one flow enters a node, as its station lists. -/
theorem countP_target (member : station ∈ p.stations) :
    (station.ins = [] → g.flows.countP (·.target == station.node) = 0) ∧
      ∀ e, station.ins = [e] → g.flows.countP (·.target == station.node) = 1 := by
  have stands := fits.stands station member
  have count := numbered.count_entering ⟨station.node, stands.inside⟩
  have enters : ∀ x, x ∈ E.entering ⟨station.node, stands.inside⟩ ↔ x ∈ station.ins := fun x =>
    E.mem_entering.trans (Fin.ext_iff.trans (stands.ins x))
  constructor
  · intro none
    refine count.symm.trans (BitSet.count_eq_zero_iff.2 fun x inside => ?_)
    have found := (enters x).1 inside
    rw [none] at found
    cases found
  · intro e sole
    refine count.symm.trans (BitSet.count_eq_one_iff.2 ⟨e, fun x => ?_⟩)
    rw [enters, sole, List.mem_singleton]

theorem countP_source (member : station ∈ p.stations) :
    (station.outs = [] → g.flows.countP (·.source == station.node) = 0) ∧
      ∀ e, station.outs = [e] → g.flows.countP (·.source == station.node) = 1 := by
  have stands := fits.stands station member
  have count := numbered.count_leaving ⟨station.node, stands.inside⟩
  have leaves : ∀ x, x ∈ E.leaving ⟨station.node, stands.inside⟩ ↔ x ∈ station.outs := fun x =>
    E.mem_leaving.trans (Fin.ext_iff.trans (stands.outs x))
  constructor
  · intro none
    refine count.symm.trans (BitSet.count_eq_zero_iff.2 fun x inside => ?_)
    have found := (leaves x).1 inside
    rw [none] at found
    cases found
  · intro e sole
    refine count.symm.trans (BitSet.count_eq_one_iff.2 ⟨e, fun x => ?_⟩)
    rw [leaves, sole, List.mem_singleton]

omit fits in
/-- Along a trail of edges goes a way of flows. -/
theorem way_of_trail {P : Fin E.size → Prop} {a b : Fin E.size} (trail : Trail E.successors P a b) :
    g.Way (E.source a) (E.target b) := by
  induction trail with
  | @stay a => exact .single (numbered.mem_flows.2 ⟨a, rfl, rfl⟩)
  | @step a b c _ next _ ih =>
    rw [E.mem_successors.1 next] at ih
    exact .head (numbered.mem_flows.2 ⟨a, rfl, rfl⟩) ih

/-- Every node has its station. -/
theorem exists_station {v : Nat} (inside : v < g.order) :
    ∃ station ∈ p.stations, station.node = v :=
  fits.covers ⟨v, Nat.lt_of_lt_of_le inside (Nat.le_of_eq numbered.order_eq.symm)⟩

theorem kind_station (member : station ∈ p.stations) :
    g.kind? station.node = some station.kind := by
  have stands := fits.stands station member
  exact (numbered.kind ⟨station.node, stands.inside⟩).trans (congrArg some stands.kind)

/-- What a process draws obeys the rules. -/
theorem obeys (starts : g.nodesOf .start = [p.start]) (finishes : g.nodesOf .finish = [p.finish]) :
    g.Obeys p.start p.finish := by
  have startIn : (⟨p.start, .start, [], p.body.firsts⟩ : Station (Fin E.size)) ∈ p.stations :=
    List.mem_cons_self
  have finishIn : (⟨p.finish, .finish, p.body.lasts, []⟩ : Station (Fin E.size)) ∈ p.stations :=
    List.mem_cons_of_mem _ List.mem_cons_self
  have ofKind : ∀ {v kind}, g.kind? v = some kind →
      ∃ station ∈ p.stations, station.node = v ∧ station.kind = kind := by
    intro v kind known
    obtain ⟨station, member, rfl⟩ := fits.exists_station numbered (Graph.lt_order_of_kind? known)
    exact ⟨station, member, rfl,
      Option.some.inj ((fits.kind_station numbered member).symm.trans known)⟩
  refine
    { starts, finishes
      start_in := (fits.countP_target numbered startIn).1 rfl
      start_out := (fits.countP_source numbered startIn).2 _ p.body.firsts_eq
      finish_in := (fits.countP_target numbered finishIn).2 _ p.body.lasts_eq
      finish_out := (fits.countP_source numbered finishIn).1 rfl
      split_in := fun v kind known splitting => ?_
      merge_out := fun v kind known merging => ?_
      from_start := fun v inside => ?_
      to_finish := fun v inside => ?_ }
  · obtain ⟨station, member, rfl, rfl⟩ := ofKind known
    obtain ⟨e, sole⟩ := sole_in member splitting
    exact (fits.countP_target numbered member).2 e sole
  · obtain ⟨station, member, rfl, rfl⟩ := ofKind known
    obtain ⟨e, sole⟩ := sole_out member merging
    exact (fits.countP_source numbered member).2 e sole
  · obtain ⟨station, member, rfl⟩ := fits.exists_station numbered inside
    rcases (exists_ends member).1 with same | ⟨e, enters⟩
    · exact same ▸ .refl
    · obtain ⟨⟨f, first, trail⟩, -⟩ := fits.body_stands.trails e (fits.all e)
      have way := way_of_trail numbered trail
      rwa [((fits.stands _ startIn).outs f).2 first, ((fits.stands _ member).ins e).2 enters] at way
  · obtain ⟨station, member, rfl⟩ := fits.exists_station numbered inside
    rcases (exists_ends member).2 with same | ⟨e, leaves⟩
    · exact same ▸ .refl
    · obtain ⟨-, l, last, trail⟩ := fits.body_stands.trails e (fits.all e)
      have way := way_of_trail numbered trail
      rwa [((fits.stands _ member).outs e).2 leaves, ((fits.stands _ finishIn).ins l).2 last] at way

omit numbered in
/-- Every kind of node has a single edge on one side at least. -/
theorem thin : E.Thin := by
  intro v
  obtain ⟨station, member, here⟩ := fits.covers v
  have stands := fits.stands station member
  have ins : ∀ x, E.target x = v → x ∈ station.ins := fun x enters =>
    (stands.ins x).1 ((congrArg Fin.val enters).trans here.symm)
  have outs : ∀ x, E.source x = v → x ∈ station.outs := fun x leaves =>
    (stands.outs x).1 ((congrArg Fin.val leaves).trans here.symm)
  have fromIns : (∃ e, station.ins = [e]) → ∃ e, ∀ x, E.target x = v → x = e :=
    fun ⟨e, sole⟩ => ⟨e, fun x enters => List.mem_singleton.1 (sole ▸ ins x enters)⟩
  have fromOuts : (∃ e, station.outs = [e]) → ∃ e, ∀ x, E.source x = v → x = e :=
    fun ⟨e, sole⟩ => ⟨e, fun x leaves => List.mem_singleton.1 (sole ▸ outs x leaves)⟩
  rcases List.mem_cons.1 member with rfl | member
  · exact Or.inr (fromOuts ⟨_, p.body.firsts_eq⟩)
  rcases List.mem_cons.1 member with rfl | member
  · exact Or.inl (fromIns ⟨_, p.body.lasts_eq⟩)
  rcases (Part.station_shape member).2.2 with ⟨-, sole⟩ | ⟨-, sole⟩ | ⟨-, sole⟩
  · exact Or.inl (fromIns sole)
  · exact Or.inl (fromIns sole)
  · exact Or.inr (fromOuts sole)

end Process.Fits
end WorkflowSoundness
