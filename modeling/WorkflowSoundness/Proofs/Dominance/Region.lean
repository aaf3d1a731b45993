import WorkflowSoundness.Proofs.Dominance.Laws

/-!
Regions that are entered by one edge and left by one edge. What is before the entering edge
dominates the region, and where several regions lie side by side between the same two edges, no
edge of one of them dominates the exit: the exit is the whole frontier of the edge that leads into
a region, and the immediate dominator of the exit is the entry.
-/

namespace WorkflowSoundness

/-- The other direction. -/
def Direction.reverse : Direction → Direction
  | .forward => .backward
  | .backward => .forward

namespace EdgeGraph

variable {E : EdgeGraph} {direction : Direction}

theorem mem_following_reverse {a b : Fin E.size} :
    b ∈ E.following direction.reverse a ↔ a ∈ E.following direction b := by
  cases direction with
  | forward => exact E.mem_successors_iff_mem_predecessors.symm
  | backward => exact E.mem_successors_iff_mem_predecessors

/-- Walks come into `R` only from `entry` to `first` and leave it only from `last` to `exit`. -/
structure Region (E : EdgeGraph) (direction : Direction) (entry first last exit : Fin E.size)
    (R : Fin E.size → Prop) : Prop where
  enters : first ∈ E.following direction entry
  leaves : exit ∈ E.following direction last
  first_inside : R first
  last_inside : R last
  entry_outside : ¬ R entry
  exit_outside : ¬ R exit
  before_first : ∀ {p}, first ∈ E.following direction p → p = entry
  before : ∀ {p e}, R e → e ≠ first → e ∈ E.following direction p → R p
  after_last : ∀ {s}, s ∈ E.following direction last → s = exit
  after : ∀ {e s}, R e → e ≠ last → s ∈ E.following direction e → R s
  from_first : ∀ {e}, R e → Trail (E.following direction) R first e
  to_last : ∀ {e}, R e → Trail (E.following direction) R e last

namespace Region

variable {entry first last exit : Fin E.size} {R : Fin E.size → Prop}

section Walks

variable (region : E.Region direction entry first last exit R)

include region

/-- Seen backwards, a region has its ends exchanged. -/
theorem reverse : E.Region direction.reverse exit last first entry R where
  enters := mem_following_reverse.2 region.leaves
  leaves := mem_following_reverse.2 region.enters
  first_inside := region.last_inside
  last_inside := region.first_inside
  entry_outside := region.exit_outside
  exit_outside := region.entry_outside
  before_first := fun step => region.after_last (mem_following_reverse.1 step)
  before := fun inside other step => region.after inside other (mem_following_reverse.1 step)
  after_last := fun step => region.before_first (mem_following_reverse.1 step)
  after := fun inside other step => region.before inside other (mem_following_reverse.1 step)
  from_first := fun inside => (region.to_last inside).reverse fun _ _ step =>
    mem_following_reverse.2 step
  to_last := fun inside => (region.from_first inside).reverse fun _ _ step =>
    mem_following_reverse.2 step

variable {P : Fin E.size → Prop} {a e : Fin E.size}

/-- The one way into a region leads from the entry to the first edge. -/
theorem into {p : Fin E.size} (outside : ¬ R p) (inside : R e)
    (step : e ∈ E.following direction p) : p = entry ∧ e = first := by
  by_cases here : e = first
  · exact ⟨region.before_first (here ▸ step), here⟩
  · exact absurd (region.before inside here step) outside

/-- The one way out of a region leads from the last edge to the exit. -/
theorem onward {s : Fin E.size} (inside : R e) (outside : ¬ R s)
    (step : s ∈ E.following direction e) : e = last ∧ s = exit := by
  obtain ⟨exits, lasts⟩ := region.reverse.into outside inside (mem_following_reverse.2 step)
  exact ⟨lasts, exits⟩

/-- A walk into the region comes in through its entry. -/
theorem enter (trail : Trail (E.following direction) P a e) (outside : ¬ R a) (inside : R e) :
    Trail (E.following direction) P a entry ∧
      Trail (E.following direction) (fun x => P x ∧ R x) first e := by
  obtain ⟨x, y, before, out, step, after⟩ := trail.enter (Q := R) outside inside
  obtain ⟨rfl, rfl⟩ := region.into out after.start.2 step
  exact ⟨before, after⟩

/-- The region is a way from its entry to its exit. -/
theorem way : Trail (E.following direction) (fun x => x = entry ∨ R x ∨ x = exit) entry exit := by
  have inside := (region.to_last region.first_inside).mono fun x within =>
    (Or.inr (Or.inl within) : x = entry ∨ R x ∨ x = exit)
  exact .step (Or.inl rfl) region.enters (inside.snoc region.leaves (Or.inr (Or.inr rfl)))

end Walks

section Dominance

variable (valid : E.Valid) (region : E.Region direction entry first last exit R)

include valid region

theorem not_root (inside : R (E.root direction)) : False := by
  by_cases here : E.root direction = first
  · exact valid.not_before_root direction entry
      ((E.mem_following_iff direction _ _).1 (here ▸ region.enters))
  · rcases (region.from_first inside).first_visit (Q := (· = E.root direction)) rfl with
      same | ⟨x, y, -, step, rfl, -⟩
    · exact here same.symm
    · exact valid.not_before_root direction x ((E.mem_following_iff direction _ _).1 step)

theorem exit_ne_root : exit ≠ E.root direction := fun here =>
  valid.not_before_root direction last
    ((E.mem_following_iff direction _ _).1 (here ▸ region.leaves))

variable {e : Fin E.size}

/-- Whatever lies in a region lies behind its entry. -/
theorem entry_dominates (inside : R e) : E.Dominates direction entry e := fun trail =>
  (region.enter trail (region.not_root valid) inside).1.finish rfl

theorem first_dominates (inside : R e) : E.Dominates direction first e := fun trail =>
  (region.enter trail (region.not_root valid) inside).2.start.1 rfl

variable (closed : ∀ p, exit ∈ E.following direction p →
  ∃ first last R, E.Region direction entry first last exit R ∧ R p)

include closed

theorem entry_dominates_exit : E.Dominates direction entry exit := by
  refine .of_before (region.exit_ne_root valid) fun p step => ?_
  obtain ⟨_, _, _, someRegion, inside⟩ := closed p ((E.mem_following_iff direction _ _).2 step)
  exact someRegion.entry_dominates valid inside

theorem entry_ne_exit : entry ≠ exit := by
  intro here
  obtain ⟨p, step, free⟩ := Dominates.exists_before (valid.reached direction exit)
    (region.exit_ne_root valid)
  obtain ⟨_, _, _, someRegion, inside⟩ := closed p ((E.mem_following_iff direction _ _).2 step)
  exact free (here ▸ someRegion.entry_dominates valid inside)

end Dominance

/-! ### Regions side by side -/

section Parallel

variable {first' last' : Fin E.size} {R' : Fin E.size → Prop}
  (region : E.Region direction entry first last exit R)
  (other : E.Region direction entry first' last' exit R') (apart : ∀ x, R x → ¬ R' x)

include region other apart

theorem dominates_entry {x : Fin E.size} (notExit : x ≠ exit)
    (dominates : E.Dominates direction x exit) : E.Dominates direction x entry := by
  refine Classical.byContradiction fun free => ?_
  have away := exists_trail free
  have notEntry : x ≠ entry := fun here => away.finish here.symm
  have inside : ∀ {first last : Fin E.size} {S : Fin E.size → Prop},
      E.Region direction entry first last exit S → S x := fun someRegion =>
    Classical.byContradiction fun outside => dominates <| away.trans <| someRegion.way.mono
      fun z within here => within.elim (fun same => notEntry (here.symm.trans same)) fun within =>
        within.elim (fun isInside => outside (here ▸ isInside)) fun same =>
          notExit (here.symm.trans same)
  exact apart x (inside region) (inside other)

variable (valid : E.Valid)

include valid

/-- If another region leads to the exit, nothing inside the first one dominates it. -/
theorem not_dominates_exit {x : Fin E.size} (inside : R x) : ¬ E.Dominates direction x exit := by
  intro dominates
  have notExit : x ≠ exit := fun here => region.exit_outside (here ▸ inside)
  have upper := region.dominates_entry other apart notExit dominates
  have same := upper.antisymm (valid.reached direction x) (region.entry_dominates valid inside)
  exact region.entry_outside (same ▸ inside)

/-- An edge of the region dominates nothing outside. -/
theorem inside_of_dominates {x e : Fin E.size} (inside : R x)
    (dominates : E.Dominates direction x e) : R e := by
  refine Classical.byContradiction fun outside => ?_
  have free := exists_trail (region.not_dominates_exit other apart valid inside)
  rcases (valid.reached direction e).trail.inside_or_enter (Q := fun z => ¬ R z) outside with
    away | ⟨y, z, -, within, step, after⟩
  · exact dominates (away.mono fun z out here => out.2 (here ▸ inside))
  · obtain ⟨-, rfl⟩ := region.onward (Classical.not_not.1 within) after.start.2 step
    exact dominates (free.trans (after.mono fun z out here => out.2 (here ▸ inside)))

/-- The dominance of the edge into the region ends at the exit and nowhere else. -/
theorem mem_frontier_first_iff {e : Fin E.size} :
    e ∈ (Dominance.compute E direction).value.frontier first ↔ e = exit := by
  rw [valid.mem_frontier_iff]
  constructor
  · rintro ⟨⟨p, step, dominates⟩, ends⟩
    have step := (E.mem_following_iff direction _ _).2 step
    have inside := region.inside_of_dominates other apart valid region.first_inside dominates
    by_cases within : R e
    · by_cases here : e = first
      · exact absurd inside (region.before_first (here ▸ step) ▸ region.entry_outside)
      · exact absurd ⟨Ne.symm here, region.first_dominates valid within⟩ ends
    · exact (region.onward inside within step).2
  · rintro rfl
    refine ⟨⟨last, (E.mem_following_iff direction _ _).1 region.leaves,
      region.first_dominates valid region.last_inside⟩, fun both => ?_⟩
    exact region.not_dominates_exit other apart valid region.first_inside both.2

/-- Behind several regions the closest dominator is the edge before them. -/
theorem immediate?_exit (closed : ∀ p, exit ∈ E.following direction p →
    ∃ first last R, E.Region direction entry first last exit R ∧ R p) :
    (Dominance.compute E direction).value.immediate? exit = some entry :=
  valid.immediate?_eq_some_iff.2 ⟨region.entry_ne_exit valid closed,
    region.entry_dominates_exit valid closed,
    fun _ notExit dominates => region.dominates_entry other apart notExit dominates⟩

end Parallel
end Region

/-- The only edge before another is its closest dominator. -/
theorem Valid.immediate?_of_sole (valid : E.Valid) {p e : Fin E.size}
    (sole : ∀ q, e ∈ E.following direction q ↔ q = p) :
    (Dominance.compute E direction).value.immediate? e = some p := by
  have step : p ∈ E.preceding direction e := (E.mem_following_iff direction _ _).1 ((sole p).2 rfl)
  have notRoot : e ≠ E.root direction := fun here =>
    valid.not_before_root direction p (here ▸ step)
  have before : ∀ q ∈ E.preceding direction e, q = p := fun q member =>
    (sole q).1 ((E.mem_following_iff direction _ _).2 member)
  refine valid.immediate?_eq_some_iff.2 ⟨fun here => ?_, ?_, fun x other dominates => ?_⟩
  · obtain ⟨q, member, free⟩ := Dominates.exists_before (valid.reached direction e) notRoot
    exact free (((before q member).trans here).symm ▸ .refl e)
  · exact .of_before notRoot fun q member => before q member ▸ .refl _
  · exact dominates.before other step

end EdgeGraph
end WorkflowSoundness
