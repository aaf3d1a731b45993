import WorkflowSoundness.Proofs.Findings

/-!
What is kept while definitions are looked at one after the other. What depends on an edge is
remembered, and every look-up answers what would be determined anew (`Memo.Sound`). The edges
checked are passed over, so of the definitions of one edge only the first is looked at
(`meetingsFrom_spec`).
-/

namespace WorkflowSoundness.Abundance

variable {E : EdgeGraph}

namespace Memo

variable {memo : Memo E} {e d : Fin E.size} {found : E.Edges}

/-- What is remembered is what would be determined anew. -/
def Sound (memo : Memo E) : Prop :=
  ∀ (e : Fin E.size) (found : E.Edges), memo.known[e] = some found → found = (dependent e).value

theorem sound_empty : (empty E).Sound := by
  intro e found known
  rw [empty, Table.getElem_replicate] at known
  cases known

/-- Asked for an edge, a sound memo answers what depends on it and stays sound. -/
theorem Sound.ask (sound : memo.Sound) (e : Fin E.size) :
    (memo.ask e).value.1 = (dependent e).value ∧ (memo.ask e).value.2.Sound := by
  unfold Memo.ask
  split
  · rename_i found known
    exact ⟨sound e found known, sound⟩
  · refine ⟨rfl, fun x found known => ?_⟩
    simp only [Counted.value_bind, Counted.value_pure, Table.getElem_set] at known
    split at known
    · rename_i here
      exact here ▸ (Option.some.inj known).symm
    · exact sound x found known

/-- What has been asked for is known. -/
theorem known_ask (memo : Memo E) (e : Fin E.size) :
    (memo.ask e).value.2.known[e] = some (memo.ask e).value.1 := by
  unfold Memo.ask
  split
  · rename_i known
    exact known
  · exact Table.getElem_set_self _ _ _

/-- Nothing is forgotten. -/
theorem known_ask_of_known (known : memo.known[e] = some found) (d : Fin E.size) :
    (memo.ask d).value.2.known[e] = some found := by
  unfold Memo.ask
  split
  · exact known
  · rename_i unknown
    refine (Table.getElem_set_ne (fun here : d = e => ?_) _).trans known
    rw [here, known] at unknown
    cases unknown

/-- A look-up takes no visits. -/
theorem visits_ask (known : memo.known[e] = some found) : (memo.ask e).visits = 0 := by
  unfold Memo.ask
  rw [known]
  rfl

/-- What is remembered after some edges have been asked for in a row. -/
def after (asked : List (Fin E.size)) : Memo E :=
  asked.foldl (fun memo e => (memo.ask e).value.2) (.empty E)

/-- The run lemma: the memo stays sound through any row of requests. -/
theorem sound_after (asked : List (Fin E.size)) : (after asked).Sound :=
  List.foldlRecOn asked _ sound_empty fun _ sound e _ => (sound.ask e).2

/-- Nor is anything forgotten through a row of requests. -/
theorem known_foldl (known : memo.known[e] = some found) (asked : List (Fin E.size)) :
    (asked.foldl (fun memo d => (memo.ask d).value.2) memo).known[e] = some found :=
  List.foldlRecOn (motive := fun memo : Memo E => memo.known[e] = some found) asked _ known
    fun _ known d _ => known_ask_of_known known d

theorem known_after {asked : List (Fin E.size)} (member : e ∈ asked) :
    ∃ found, (after asked).known[e] = some found := by
  obtain ⟨before, behind, rfl⟩ := List.append_of_mem member
  unfold after
  rw [List.foldl_append, List.foldl_cons]
  exact ⟨_, known_foldl (known_ask _ e) behind⟩

end Memo

/-! ### The definitions looked at -/

/-- At first no edge is checked. -/
theorem filter_unchecked (definitions : List (Definition E)) :
    definitions.filter (fun definition => !(∅ : E.Edges).contains definition.edge) =
      definitions := by
  refine List.filter_eq_self.2 fun definition _ => ?_
  rw [Bool.not_eq_true', Bool.eq_false_iff, ne_eq, BitSet.contains_iff_mem]
  exact BitSet.not_mem_empty _

/-- The first of the definitions is looked at unless its edge is checked, and then the others
without those of its edge. -/
theorem filter_distinctEdges (first : Definition E) (later : List (Definition E))
    (checked : E.Edges) :
    (distinctEdges (first :: later)).filter (fun other => !checked.contains other.edge) =
      if checked.contains first.edge then
        (distinctEdges later).filter fun other => !checked.contains other.edge
      else
        first :: (distinctEdges later).filter fun other =>
          !(checked.insert first.edge).contains other.edge := by
  rw [distinctEdges, List.filter_cons, List.filter_filter]
  cases held : checked.contains first.edge with
  | true =>
    rw [if_neg (by decide), if_pos rfl]
    refine List.filter_congr fun other _ => ?_
    by_cases same : other.edge = first.edge
    · rw [same, held]
      rfl
    · rw [bne_iff_ne.2 same, Bool.and_true]
  | false =>
    rw [if_pos (by decide), if_neg (by decide)]
    refine congrArg (List.cons first) (List.filter_congr fun other _ => ?_)
    rw [Bool.eq_iff_iff, Bool.and_eq_true, Bool.not_eq_true', Bool.not_eq_true', Bool.eq_false_iff,
      Bool.eq_false_iff, ne_eq, ne_eq, BitSet.contains_iff_mem, BitSet.contains_iff_mem,
      BitSet.mem_insert, not_or, bne_iff_ne, and_comm]

/-- Looking at definitions in a row finds the meetings at the first definition of each edge that
has not been checked before. -/
theorem meetingsFrom_spec (basis : Basis E) (fork : Fin E.order) (entry : Fin E.size)
    (bond : E.Edges) (definitions : List (Definition E)) {memo : Memo E} (sound : memo.Sound)
    (checked : E.Edges) :
    let looked := (meetingsFrom basis fork entry bond definitions memo checked).value
    looked.1 = ((distinctEdges definitions).filter fun definition =>
        !checked.contains definition.edge).filterMap
      (fun definition => (meeting? basis fork entry (allowed basis bond definition.edge)
        definition).value) ∧
      looked.2.Sound := by
  induction definitions generalizing memo checked with
  | nil => exact ⟨rfl, sound⟩
  | cons first later ih =>
    obtain ⟨answer, kept⟩ := sound.ask first.edge
    simp only [meetingsFrom, Counted.value_bind]
    generalize (memo.ask first.edge).value = asked at answer kept
    obtain ⟨starving, memo⟩ := asked
    obtain rfl : starving = _ := answer
    rw [filter_distinctEdges]
    split
    · exact ih kept checked
    · obtain ⟨same, still⟩ := ih kept (checked.insert first.edge)
      refine ⟨?_, still⟩
      simp only [Counted.value_bind, Counted.value_pure, same, List.filterMap_cons, allowed]
      split
      · rename_i alone
        rw [alone]
        rfl
      · rename_i meeting found
        rw [found]
        rfl

end WorkflowSoundness.Abundance
