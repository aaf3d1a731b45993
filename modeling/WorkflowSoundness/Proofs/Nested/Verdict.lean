import WorkflowSoundness.Proofs.Nested.Abundances
import WorkflowSoundness.Proofs.Nested.Deadlocks
import WorkflowSoundness.Proofs.Nested.Growing
import WorkflowSoundness.Proofs.Showing
import WorkflowSoundness.Proofs.Subdivision

/-!
What verification says about well-nested processes. Where all gateways belong together it finds
waiting areas only, one for each or-join (`verify_matched`); a block whose gateways do not is
reported once, at its closing gateway, whatever is around or inside it (`verify_block`).
-/

namespace WorkflowSoundness

open Abundance

theorem Part.mem_blocks {ε : Type} {shape : Shape} {b : Part ε shape} {block : Block} :
    block ∈ b.blocks ↔ ∃ frame ∈ b.frames, frame.block = block := by
  rw [← b.map_block_frames, List.mem_map]

/-- The width of a block is the number of its branches. -/
theorem Part.width_of_mem_frames {ε : Type} {shape : Shape} {b : Part ε shape} {frame : Frame ε}
    (member : frame ∈ b.frames) : frame.block.width = frame.branches.firsts.length := by
  induction b with
  | flow => cases member
  | activity _ _ _ ih => exact ih member
  | block _ _ _ _ _ _ _ ihBranches ih =>
    rcases List.mem_cons.1 member with rfl | member
    · rfl
    · exact (List.mem_append.1 member).elim ihBranches ih
  | loop _ _ _ _ _ _ ihBody ihBack ih =>
    rcases List.mem_append.1 member with member | member
    · exact ihBody member
    · exact (List.mem_append.1 member).elim ihBack ih
  | one _ ih => exact ih member
  | more _ _ ih ihOthers => exact (List.mem_append.1 member).elim ih ihOthers

namespace Process.Fits

variable {E : EdgeGraph} {p : Process (Fin E.size)} (fits : p.Fits) {v : Fin E.order}

include fits

/-- Every node but the start and the end event is in the body. -/
theorem exists_station_body (notStart : E.kindOf v ≠ .start) (notFinish : E.kindOf v ≠ .finish) :
    ∃ station ∈ p.body.stations, station.node = v.val ∧ station.kind = E.kindOf v := by
  obtain ⟨station, inside, here⟩ := fits.covers v
  have kind : station.kind = E.kindOf v := by
    rw [← (fits.stands station inside).kind]
    exact congrArg E.kindOf (Fin.ext here)
  rcases List.mem_cons.1 inside with rfl | inside
  · exact absurd kind.symm notStart
  rcases List.mem_cons.1 inside with rfl | inside
  · exact absurd kind.symm notFinish
  · exact ⟨station, inside, here, kind⟩

/-- A forking gateway opens a block. -/
theorem exists_opener (forking : (E.kindOf v).isForking = true) :
    ∃ frame, ∃ member : frame ∈ p.body.frames, (fits.frame_stands member).opener = v := by
  obtain ⟨station, inside, here, kind⟩ := fits.exists_station_body (v := v)
    (fun isStart => by rw [isStart] at forking; cases forking)
    fun isFinish => by rw [isFinish] at forking; cases forking
  obtain ⟨frame, member, opens, -⟩ := (Part.framed_of_mem_stations inside).1 (kind ▸ forking)
  exact ⟨frame, member, Fin.ext (opens.trans here)⟩

/-- A gateway that waits closes a block. -/
theorem exists_closer (waits : (E.kindOf v).isSynchronizing = true) :
    ∃ frame, ∃ member : frame ∈ p.body.frames, (fits.frame_stands member).closer = v := by
  obtain ⟨station, inside, here, kind⟩ := fits.exists_station_body (v := v)
    (fun isStart => by rw [isStart] at waits; cases waits)
    fun isFinish => by rw [isFinish] at waits; cases waits
  obtain ⟨frame, member, closes, -⟩ := (Part.framed_of_mem_stations inside).2 (kind ▸ waits)
  exact ⟨frame, member, Fin.ext (closes.trans here)⟩

variable (valid : E.Valid) (simple : E.Simple) {finding : Finding E}

include valid simple

/-- The join of a block that a fork opens shows no deadlock. -/
theorem deadlock_free {frame : Frame (Fin E.size)} (member : frame ∈ p.body.frames)
    (isFork : frame.block.opening.val = .fork) (isJoin : frame.block.closing.val = .join)
    (found : finding ∈ E.deadlockFindings) :
    finding.printable ≠ (fits.frame_stands member).closer := by
  intro here
  have stands := fits.frame_stands member
  obtain ⟨i, enters, ⟨-, starts⟩ | ⟨-, starts⟩⟩ := EdgeGraph.starts_of_deadlock found
  · exact stands.first_outside valid
      (stands.inside_of_starts isFork isJoin valid simple (enters.trans here) starts)
  · rw [here, stands.exitOf_closer valid] at starts
    exact stands.exit_outside
      (stands.inside_of_starts isFork isJoin valid simple (enters.trans here) starts)

omit simple in
/-- The meetings of a fork are at the exit of its block. -/
theorem exists_frame_of_meeting {fork : Fin E.order} (forking : (E.kindOf fork).isForking = true)
    {meeting : Meeting E} (found : meeting ∈ E.meetingsOf fork) :
    ∃ frame, ∃ member : frame ∈ p.body.frames, (fits.frame_stands member).opener = fork ∧
      meeting.definition.edge = frame.exit ∧ 2 ≤ frame.branches.firsts.length := by
  obtain ⟨frame, member, rfl⟩ := fits.exists_opener forking
  have stands := fits.frame_stands member
  exact ⟨frame, member, rfl, stands.edge_of_meeting valid fits.thin found,
    stands.several_of_meeting valid fits.thin found⟩

/-! ### Blocks whose gateways belong together -/

section Matched

variable (matched : ∀ block ∈ p.blocks, block.Matched)

include matched

theorem deadlockFindings_eq_nil : E.deadlockFindings = [] := by
  refine List.eq_nil_iff_forall_not_mem.2 fun finding found => ?_
  obtain ⟨i, enters, either⟩ := EdgeGraph.starts_of_deadlock found
  have isJoin : E.kindOf finding.printable = .join := by
    rcases either with ⟨-, starts⟩ | ⟨-, starts⟩
    · exact enters ▸ starts.isJoin
    · exact enters ▸ starts.isJoin
  obtain ⟨frame, member, here⟩ := fits.exists_closer (v := finding.printable) (isJoin ▸ rfl)
  have closing : frame.block.closing.val = .join := by
    rw [← (fits.frame_stands member).kind_closer, here]
    exact isJoin
  refine fits.deadlock_free valid simple member ?_ closing found here.symm
  have together : frame.block.opening.val.counterpart = some frame.block.closing.val :=
    matched _ (Part.mem_blocks.2 ⟨frame, member, rfl⟩)
  rw [closing] at together
  revert together
  cases frame.block.opening.val <;> decide

omit simple in
theorem abundanceFindings_eq_nil : E.abundanceFindings = [] := by
  refine List.eq_nil_iff_forall_not_mem.2 fun finding found => ?_
  obtain ⟨fork, isFork, meeting, inside, rfl⟩ := mem_abundanceFindings.1 found
  obtain ⟨frame, member, rfl, exits, -⟩ :=
    fits.exists_frame_of_meeting valid (EdgeGraph.mem_forks.1 isFork) inside
  have stands := fits.frame_stands member
  have forking := EdgeGraph.mem_forks.1 isFork
  have waitless := (candidate_of_meeting inside).2.2
  rw [exits, stands.source_eq_closer.2 rfl, stands.kind_closer] at waitless
  rw [stands.kind_opener] at forking
  have together : frame.block.opening.val.counterpart = some frame.block.closing.val :=
    matched _ (Part.mem_blocks.2 ⟨frame, member, rfl⟩)
  revert forking together waitless
  cases frame.block.opening.val <;> cases frame.block.closing.val <;> decide

end Matched

/-! ### Blocks whose gateways do not belong together -/

section Mismatched

variable {frame : Frame (Fin E.size)} (member : frame ∈ p.body.frames)
  (several : 2 ≤ frame.branches.firsts.length)

include several

/-- A join that a choice opens the block of shows one deadlock, which begins at the choice. -/
theorem exists_deadlock (isChoice : frame.block.opening.val.isChoosing = true)
    (isJoin : frame.block.closing.val = .join) : ∃ finding,
      E.deadlockFindings.filter (·.plain.isAt .deadlock frame.block.closes) = [finding] ∧
        finding.opening = some (fits.frame_stands member).opener := by
  have stands := fits.frame_stands member
  obtain ⟨i, enters, starts⟩ := stands.exists_starts isChoice isJoin several valid simple
  have one := EdgeGraph.filter_deadlocks starts
  rw [enters] at one
  refine ⟨E.started stands.closer, one, ?_⟩
  rw [EdgeGraph.opening_started, stands.exitOf_closer valid, stands.immediate?_exit valid several]
  exact congrArg some (stands.target_eq_opener.2 rfl)

/-- A merge that a fork opens the block of shows one abundance, which begins at the fork. -/
theorem exists_abundance (forking : frame.block.opening.val.isForking = true)
    (isMerge : frame.block.closing.val = .merge) : ∃ finding,
      E.abundanceFindings.filter (·.plain.isAt .abundance frame.block.closes) = [finding] ∧
        finding.opening = some (fits.frame_stands member).opener := by
  have stands := fits.frame_stands member
  have closes : E.source frame.exit = stands.closer := stands.source_eq_closer.2 rfl
  obtain ⟨meeting, found, exits⟩ :=
    fits.exists_meeting_exit valid member simple several (isMerge ▸ rfl)
  refine ⟨meeting.finding stands.opener, ?_, rfl⟩
  have one := filter_abundances valid (stands.kind_opener ▸ forking) found
    (fun same => ?_) fun fork' forking' meeting' found' same => ?_
  · rw [exits, closes] at one
    exact one
  · rw [exits, closes] at same
    exact stands.opener_ne_closer same.symm
  -- The block of any other fork with a meeting there has the same exit, so it is the same block.
  · obtain ⟨frame', member', rfl, exits', several'⟩ :=
      fits.exists_frame_of_meeting valid forking' found'
    have stands' := fits.frame_stands member'
    have sameExit : frame'.exit = frame.exit := by
      rw [exits, exits', closes] at same
      exact stands.source_eq_closer.1 same
    have entry := stands'.immediate?_exit valid several'
    rw [sameExit, stands.immediate?_exit valid several] at entry
    have sameEntry := Option.some.inj entry
    refine ⟨?_, exits'.trans (sameExit.trans exits.symm)⟩
    rw [← stands'.target_eq_opener.2 rfl, ← sameEntry]
    exact stands.target_eq_opener.2 rfl

end Mismatched

end Process.Fits

/-! ### Verification -/

namespace Process.Draws

variable {p : Process Unit} {g : Graph} (draws : p.Draws g)

include draws

/-- What a process draws can be closed, and the process fits on its edges. -/
theorem exists_edges : ∃ E, EdgeGraph.ofGraph g = .ok E ∧ Numbered g E ∧
    ∃ q : Process (Fin E.size), q.Fits ∧ q.blocks = p.blocks ∧ g.Obeys p.start p.finish := by
  obtain ⟨E, closed⟩ := draws.exists_closed
  have numbered := EdgeGraph.numbered_of_ofGraph closed
  obtain ⟨q, fits, start, finish, blocks⟩ := exists_fits numbered draws
  have rules := fits.obeys numbered (start ▸ draws.nodesOf_start) (finish ▸ draws.nodesOf_finish)
  rw [start, finish] at rules
  exact ⟨E, closed, numbered, q, fits, blocks, rules⟩

/-- The simple shape of what a process draws can be closed, and a process with the same blocks fits
on its edges. -/
theorem exists_prepared : ∃ (h : Graph) (E : EdgeGraph) (q : Process (Fin E.size)),
    g.simplify = (h, .ok ()) ∧ EdgeGraph.ofGraph h = .ok E ∧ g.validate = .ok () ∧
      E.Valid ∧ E.Simple ∧ q.Fits ∧ q.blocks = p.blocks ∧
      (E.nodesOf .orJoin).map Fin.val = g.nodesOf .orJoin := by
  obtain ⟨_, -, -, _, -, -, rules⟩ := draws.exists_edges
  obtain ⟨h, simplified, sub, tail⟩ := Graph.subdivided_simplify (g := g)
    (by rw [Graph.start?, draws.nodesOf_start]; rfl)
    (by rw [Graph.finish?, draws.nodesOf_finish]; rfl)
  obtain ⟨grown, drawsGrown, sameBlocks⟩ := draws.subdivided sub
  obtain ⟨E, closed, numbered, q, fits, blocks, grownRules⟩ := drawsGrown.exists_edges
  refine ⟨h, E, q, simplified, closed, Graph.validate_eq_ok_iff.2 ⟨_, _, rules⟩,
    numbered.valid grownRules, numbered.simple (Graph.separated_simplify sub tail), fits,
    blocks.trans sameBlocks, ?_⟩
  exact (numbered.map_nodesOf .orJoin).trans (sub.nodesOf_eq (by decide))

/-- Verification succeeds on what a process draws. It returns the findings of edges on which a
process with the same blocks fits. -/
theorem exists_verified : ∃ (E : EdgeGraph) (final : Workflow) (q : Process (Fin E.size)),
    verify.Ends (.draft g) (.ok (E.findings.map Finding.plain)) final ∧
      E.Valid ∧ E.Simple ∧ q.Fits ∧ q.blocks = p.blocks ∧
      (E.nodesOf .orJoin).map Fin.val = g.nodesOf .orJoin := by
  obtain ⟨h, E, q, simplified, closed, accepted, valid, simple, fits, blocks, orJoins⟩ :=
    draws.exists_prepared
  exact ⟨E, _, q, ends_verify accepted simplified closed valid, valid, simple, fits, blocks,
    orJoins⟩

end Process.Draws

section Verdict

variable {p : Process Unit} {g : Graph}

/-- Verification of a process whose gateways belong together returns one waiting area for each
or-join and nothing else. -/
theorem verify_matched (draws : p.Draws g) (matched : ∀ block ∈ p.blocks, block.Matched) :
    ∃ notes final, verify.Ends (.draft g) (.ok notes) final ∧
      (∀ note ∈ notes, note.kind = .waitingArea) ∧
      notes.map Annotation.printable = g.nodesOf .orJoin := by
  obtain ⟨E, final, q, ends, valid, simple, fits, blocks, orJoins⟩ := draws.exists_verified
  have found : E.findings = E.waitFindings := by
    rw [← blocks] at matched
    rw [EdgeGraph.findings, fits.deadlockFindings_eq_nil valid simple matched,
      fits.abundanceFindings_eq_nil valid matched, List.append_nil, List.append_nil]
  refine ⟨_, final, found ▸ ends, fun note member => ?_, ?_⟩
  · obtain ⟨finding, waits, rfl⟩ := List.mem_map.1 member
    exact EdgeGraph.kind_of_waits waits
  · rw [← orJoins, ← EdgeGraph.printable_waits, List.map_map, List.map_map]
    rfl

/-- A fork with an or-fork on one branch, and on the other a loop. -/
def nested (closing : Closing) : Process Unit where
  start := 3
  finish := 0
  body := .block () ⟨.fork, rfl⟩ 5
    (.more
      (.activity () 1 (.block () ⟨.orFork, rfl⟩ 2
        (.more (.flow ()) (.one (.activity () 8 (.flow ())))) closing 7 (.flow ())))
      (.one (.loop () 6 9 (.flow ()) (.flow ()) (.flow ()))))
    ⟨.join, rfl⟩ 4 (.flow ())

def nestedGraph (closing : Closing) : Graph where
  name := "nested"
  nodes := [.finish, .activity, .orFork, .start, .join, .fork, .merge, closing.val, .activity,
    .split].map (⟨·, []⟩)
  flows := [⟨9, 6⟩, ⟨3, 5⟩, ⟨5, 6⟩, ⟨5, 1⟩, ⟨1, 2⟩, ⟨2, 8⟩, ⟨2, 7⟩, ⟨8, 7⟩, ⟨7, 4⟩, ⟨6, 9⟩, ⟨9, 4⟩,
    ⟨4, 0⟩]
  flows_inside := by simp

theorem verify_nested_orJoin : ∃ notes final,
    verify.Ends (.draft (nestedGraph ⟨.orJoin, rfl⟩)) (.ok notes) final ∧
      (∀ note ∈ notes, note.kind = .waitingArea) ∧ notes.map Annotation.printable = [7] :=
  verify_matched (p := nested ⟨.orJoin, rfl⟩) ⟨by decide, by decide⟩ (by decide)

/-- Verification reports a block of several branches whose gateways do not belong together once, at
its closing gateway; at the join of a block that a fork opens it reports no deadlock. -/
theorem verify_block (draws : p.Draws g) {block : Block} (member : block ∈ p.blocks)
    (several : 2 ≤ block.width) :
    ∃ notes final, verify.Ends (.draft g) (.ok notes) final ∧
      (block.opening.val.isChoosing = true → block.closing.val = .join →
        ∃ note, notes.filter (·.isAt .deadlock block.closes) = [note] ∧
          note.opening = some block.opens) ∧
      (block.opening.val.isForking = true → block.closing.val = .merge →
        ∃ note, notes.filter (·.isAt .abundance block.closes) = [note] ∧
          note.opening = some block.opens) ∧
      (block.opening.val = .fork → block.closing.val = .join →
        ∀ note ∈ notes, note.printable = block.closes → note.kind.isDeadlock = false) := by
  obtain ⟨E, final, q, ends, valid, simple, fits, blocks, -⟩ := draws.exists_verified
  rw [← blocks] at member
  obtain ⟨frame, inside, rfl⟩ := Part.mem_blocks.1 member
  rw [Part.width_of_mem_frames inside] at several
  have shown : ∀ {kind finding}, E.findings.filter (·.plain.isAt kind frame.block.closes) =
        [finding] → finding.opening = some (fits.frame_stands inside).opener →
      ∃ note, (E.findings.map Finding.plain).filter (·.isAt kind frame.block.closes) = [note] ∧
        note.opening = some frame.block.opens := by
    intro kind finding one opening
    refine ⟨finding.plain, ?_, ?_⟩
    · rw [List.filter_map]
      exact congrArg (List.map Finding.plain) one
    · rw [Finding.plain, opening]
      rfl
  refine ⟨_, final, ends, fun isChoice isJoin => ?_, fun forking isMerge => ?_,
    fun isFork isJoin note found here => ?_⟩
  · obtain ⟨finding, one, opening⟩ :=
      fits.exists_deadlock valid simple inside several isChoice isJoin
    exact shown (EdgeGraph.filter_findings_deadlock.trans one) opening
  · obtain ⟨finding, one, opening⟩ :=
      fits.exists_abundance valid simple inside several forking isMerge
    exact shown (EdgeGraph.filter_findings_abundance.trans one) opening
  · obtain ⟨finding, isFinding, rfl⟩ := List.mem_map.1 found
    refine Bool.eq_false_iff.2 fun isDeadlock => ?_
    exact fits.deadlock_free valid simple inside isFork isJoin
      (EdgeGraph.deadlock_of_findings isFinding isDeadlock) (Fin.ext here)

theorem verify_nested_merge : ∃ notes final,
    verify.Ends (.draft (nestedGraph ⟨.merge, rfl⟩)) (.ok notes) final ∧
      ∃ note, notes.filter (·.isAt .abundance 7) = [note] ∧ note.opening = some 2 := by
  have member : ⟨⟨.orFork, rfl⟩, 2, ⟨.merge, rfl⟩, 7, 2⟩ ∈ (nested ⟨.merge, rfl⟩).blocks := by
    decide
  obtain ⟨notes, final, ends, -, shown, -⟩ := verify_block (p := nested ⟨.merge, rfl⟩)
    (g := nestedGraph ⟨.merge, rfl⟩) ⟨by decide, by decide⟩ member (by decide)
  exact ⟨notes, final, ends, shown rfl rfl⟩

end Verdict
end WorkflowSoundness
