import WorkflowSoundness.Proofs.Sets
import WorkflowSoundness.Proofs.Stores

/-!
The table of a store. A line can be read back cell by cell as long as no cell holds what closes a
cell or a line (`line_append_inj`), hence a table can, row by row (`rows_inj`). The header tells the
keys and the first column the names, so equal tables come from stores with equal metrics, and from
no others (`table_eq_iff`).
-/

namespace WorkflowSoundness.MetricStore

/-- A text without a character that closes a cell or a line. -/
def Plain (text : String) : Prop :=
  ';' ∉ text.toList ∧ '\n' ∉ text.toList

/-! ### Reading lines back -/

theorem toList_line_cons (cell : String) (cells : List String) :
    (line (cell :: cells)).toList = cell.toList ++ ';' :: (line cells).toList := by
  simp [line, String.toList_append]

/-- A cell ends at the first semicolon. -/
theorem takeWhile_cell {cell : String} (plain : Plain cell) (later : List Char) :
    (cell.toList ++ ';' :: later).takeWhile (· != ';') = cell.toList := by
  have inside : ∀ c ∈ cell.toList, (c != ';') = true := by
    intro c member
    rw [bne_iff_ne]
    rintro rfl
    exact plain.1 member
  rw [List.takeWhile_append_of_pos inside, List.takeWhile_cons_of_neg (by simp), List.append_nil]

theorem cons_ne_newline {cell : String} (plain : Plain cell) {later rest : List Char} :
    cell.toList ++ ';' :: later ≠ '\n' :: rest := by
  have noNewline := plain.2
  cases split : cell.toList with
  | nil => simp
  | cons c l =>
    rintro same
    obtain ⟨rfl, -⟩ := List.cons.inj same
    exact noNewline (split ▸ List.mem_cons_self)

/-- What follows a line does not change how it is read. -/
theorem line_append_inj {cells cells' : List String} (plain : ∀ cell ∈ cells, Plain cell)
    (plain' : ∀ cell ∈ cells', Plain cell) {rest rest' : List Char}
    (same : (line cells).toList ++ rest = (line cells').toList ++ rest') :
    cells = cells' ∧ rest = rest' := by
  have closing : (line []).toList = ['\n'] := rfl
  induction cells generalizing cells' with
  | nil =>
    cases cells' with
    | nil => exact ⟨rfl, List.append_cancel_left same⟩
    | cons cell' cells' =>
      rw [closing, toList_line_cons, List.append_assoc] at same
      exact absurd same.symm (cons_ne_newline (plain' cell' List.mem_cons_self))
  | cons cell cells ih =>
    obtain ⟨here, later⟩ := List.forall_mem_cons.1 plain
    cases cells' with
    | nil =>
      rw [closing, toList_line_cons, List.append_assoc] at same
      exact absurd same (cons_ne_newline here)
    | cons cell' cells' =>
      obtain ⟨here', later'⟩ := List.forall_mem_cons.1 plain'
      simp only [toList_line_cons, List.append_assoc, List.cons_append] at same
      have first : cell.toList = cell'.toList := by
        have cut := congrArg (List.takeWhile (· != ';')) same
        rwa [takeWhile_cell here, takeWhile_cell here'] at cut
      rw [first] at same
      obtain ⟨-, others⟩ := List.cons.inj (List.append_cancel_left same)
      obtain ⟨rfl, ends⟩ := ih later later' others
      exact ⟨by rw [String.toList_injective first], ends⟩

theorem toList_line_ne_nil (cells : List String) : (line cells).toList ≠ [] := by
  cases cells with
  | nil => exact List.cons_ne_nil _ _
  | cons cell cells =>
    rw [toList_line_cons]
    exact List.append_ne_nil_of_right_ne_nil _ (List.cons_ne_nil _ _)

theorem rows_inj {rows rows' : List (List String)} (plain : ∀ row ∈ rows, ∀ cell ∈ row, Plain cell)
    (plain' : ∀ row ∈ rows', ∀ cell ∈ row, Plain cell)
    (same : String.join (rows.map line) = String.join (rows'.map line)) : rows = rows' := by
  have texts := congrArg String.toList same
  rw [String.toList_join, String.toList_join, List.flatMap_map, List.flatMap_map] at texts
  clear same
  induction rows generalizing rows' with
  | nil =>
    cases rows' with
    | nil => rfl
    | cons row' rows' =>
      have empty := List.append_eq_nil_iff.1 texts.symm
      exact absurd empty.1 (toList_line_ne_nil row')
  | cons row rows ih =>
    cases rows' with
    | nil =>
      have empty := List.append_eq_nil_iff.1 texts
      exact absurd empty.1 (toList_line_ne_nil row)
    | cons row' rows' =>
      obtain ⟨here, later⟩ := List.forall_mem_cons.1 plain
      obtain ⟨here', later'⟩ := List.forall_mem_cons.1 plain'
      obtain ⟨rfl, others⟩ := line_append_inj here here' texts
      rw [ih later later' others]

/-! ### Names and keys -/

theorem mem_distinctSorted {texts : List String} {text : String} :
    text ∈ distinctSorted texts ↔ text ∈ texts := by
  rw [distinctSorted, List.mem_mergeSort, List.mem_eraseDups]

/-- The order in which texts come and how often do not matter. -/
theorem distinctSorted_congr {texts texts' : List String}
    (same : ∀ text, text ∈ texts ↔ text ∈ texts') :
    distinctSorted texts = distinctSorted texts' := by
  have sorted : ∀ texts : List String, (distinctSorted texts).Pairwise (· ≤ ·) := by
    intro texts
    refine (List.pairwise_mergeSort (fun a b c => ?_) (fun a b => ?_) _).imp fun lower => ?_
    · simpa using String.le_trans
    · simpa using String.le_total a b
    · simpa using lower
  have once : ∀ texts : List String, (distinctSorted texts).Nodup := by
    intro texts
    exact (List.mergeSort_perm _ _).nodup_iff.2 (nodup_eraseDups texts)
  refine List.Perm.eq_of_pairwise (fun a b _ _ => String.le_antisymm) (sorted texts)
    (sorted texts') ?_
  refine (List.perm_ext_iff_of_nodup (once texts) (once texts')).2 fun text => ?_
  rw [mem_distinctSorted, mem_distinctSorted, same]

section Metrics

variable {store other : MetricStore} {graph key : String}

theorem isSome_get?_iff : (store.get? graph key).isSome = true ↔
    ∃ entry ∈ store.entries, entry.graph = graph ∧ entry.key = key := by
  rw [get?, Option.isSome_map, List.find?_isSome]
  simp

theorem mem_map_graph : graph ∈ store.entries.map (·.graph) ↔
    ∃ key, (store.get? graph key).isSome = true := by
  simp only [List.mem_map, isSome_get?_iff]
  exact ⟨fun ⟨entry, member, same⟩ => ⟨entry.key, entry, member, same, rfl⟩,
    fun ⟨_, entry, member, same, _⟩ => ⟨entry, member, same⟩⟩

theorem mem_map_key : key ∈ store.entries.map (·.key) ↔
    ∃ graph, (store.get? graph key).isSome = true := by
  simp only [List.mem_map, isSome_get?_iff]
  exact ⟨fun ⟨entry, member, same⟩ => ⟨entry.graph, entry, member, rfl, same⟩,
    fun ⟨_, entry, member, _, same⟩ => ⟨entry, member, same⟩⟩

/-- The names are those that have a metric. -/
theorem mem_graphs : graph ∈ store.graphs ↔ ∃ key, (store.get? graph key).isSome = true :=
  mem_distinctSorted.trans mem_map_graph

/-- The keys are those of which some name has a metric. -/
theorem mem_keys : key ∈ store.keys ↔ ∃ graph, (store.get? graph key).isSome = true :=
  mem_distinctSorted.trans mem_map_key

/-! ### The table -/

/-- The text of a metric, empty if there is none. -/
def cell (value : Option Nat) : String :=
  (value.map toString).getD ""

theorem cell_injective {value value' : Option Nat} (same : cell value = cell value') :
    value = value' := by
  cases value with
  | none =>
    cases value' with
    | none => rfl
    | some m => exact absurd same.symm Nat.repr_ne_empty
  | some n =>
    cases value' with
    | none => exact absurd same Nat.repr_ne_empty
    | some m =>
      have digits := congrArg (fun text => Nat.ofDigitChars 10 text.toList 0) same
      change Nat.ofDigitChars 10 n.repr.toList 0 = Nat.ofDigitChars 10 m.repr.toList 0 at digits
      rw [Nat.toList_repr, Nat.toList_repr, Nat.ofDigitChars_ten_toDigits,
        Nat.ofDigitChars_ten_toDigits] at digits
      rw [digits]

theorem plain_cell (value : Option Nat) : Plain (cell value) := by
  cases value with
  | none => exact ⟨List.not_mem_nil, List.not_mem_nil⟩
  | some n =>
    have digits : ∀ c ∈ (cell (some n)).toList, c.isDigit = true := by
      intro c member
      change c ∈ n.repr.toList at member
      rw [Nat.toList_repr] at member
      exact Nat.isDigit_of_mem_toDigits (by decide) (by decide) member
    exact ⟨fun member => absurd (digits _ member) (by decide),
      fun member => absurd (digits _ member) (by decide)⟩

/-- The cells of a graph's row. -/
def row (store : MetricStore) (graph : String) : List String :=
  graph :: store.keys.map fun key => cell (store.get? graph key)

def rows (store : MetricStore) : List (List String) :=
  ("GRAPH" :: store.keys) :: store.graphs.map store.row

theorem table_eq (store : MetricStore) : store.table = String.join (store.rows.map line) := by
  rw [rows, List.map_cons, List.map_map]
  rfl

/-- No name of a graph and no key closes a cell or a line. -/
structure Tabular (store : MetricStore) : Prop where
  graphs : ∀ graph ∈ store.graphs, Plain graph
  keys : ∀ key ∈ store.keys, Plain key

theorem Tabular.plain_rows (tabular : store.Tabular) :
    ∀ cells ∈ store.rows, ∀ cell ∈ cells, Plain cell := by
  have header : Plain "GRAPH" := ⟨by decide, by decide⟩
  rw [rows, List.forall_mem_cons, List.forall_mem_cons, List.forall_mem_map]
  refine ⟨⟨header, tabular.keys⟩, fun graph member => ?_⟩
  rw [row, List.forall_mem_cons, List.forall_mem_map]
  exact ⟨tabular.graphs graph member, fun key _ => plain_cell _⟩

/-- A metric of one store is in a row and a column of the table, hence a metric of every store with
the same rows. -/
theorem get?_of_rows (same : store.rows = other.rows) {value : Nat}
    (found : store.get? graph key = some value) : other.get? graph key = some value := by
  have some : (store.get? graph key).isSome = true := by rw [found, Option.isSome_some]
  obtain ⟨header, body⟩ := List.cons.inj same
  have keys : store.keys = other.keys := (List.cons.inj header).2
  have listed : store.row graph ∈ other.graphs.map other.row :=
    body ▸ List.mem_map_of_mem (mem_graphs.2 ⟨key, some⟩)
  obtain ⟨graph', -, sameRow⟩ := List.mem_map.1 listed
  obtain ⟨rfl, cells⟩ := List.cons.inj sameRow
  rw [keys] at cells
  have here := List.map_inj_left.1 cells key (keys ▸ mem_keys.2 ⟨_, some⟩)
  rw [cell_injective here, found]

theorem get?_eq_of_rows (same : store.rows = other.rows) (graph key : String) :
    store.get? graph key = other.get? graph key := by
  cases found : store.get? graph key with
  | some value => exact (get?_of_rows same found).symm
  | none =>
    symm
    rw [Option.eq_none_iff_forall_ne_some]
    intro value back
    rw [get?_of_rows same.symm back] at found
    cases found

/-- The order of the calls that made a store does not show in its rows. -/
theorem rows_congr (same : ∀ graph key, store.get? graph key = other.get? graph key) :
    store.rows = other.rows := by
  have graphs : store.graphs = other.graphs := distinctSorted_congr fun graph => by
    simp only [mem_map_graph, same]
  have keys : store.keys = other.keys := distinctSorted_congr fun key => by
    simp only [mem_map_key, same]
  have row : store.row = other.row := by
    funext graph
    simp only [MetricStore.row, keys, same]
  rw [rows, rows, graphs, keys, row]

/-- Two stores have the same table exactly if they have the same metrics. -/
theorem table_eq_iff (tabular : store.Tabular) (tabular' : other.Tabular) :
    store.table = other.table ↔ ∀ graph key, store.get? graph key = other.get? graph key := by
  rw [table_eq, table_eq]
  constructor
  · intro same
    exact get?_eq_of_rows (rows_inj tabular.plain_rows tabular'.plain_rows same)
  · intro same
    rw [rows_congr same]

/-- A metric has been there before or comes from a call for it. -/
theorem exists_call {calls : List ReporterCall}
    (some : ((store.serveAll calls).get? graph key).isSome = true) :
    (store.get? graph key).isSome = true ∨
      ∃ call ∈ calls, call.graph = graph ∧ call.key = key := by
  rw [get?_serveAll] at some
  cases served : calls.filter fun call => call.graph == graph && call.key == key with
  | nil =>
    rw [served] at some
    exact Or.inl some
  | cons call later =>
    obtain ⟨member, own⟩ := List.mem_filter.1 (served ▸ List.mem_cons_self)
    rw [Bool.and_eq_true, beq_iff_eq, beq_iff_eq] at own
    exact Or.inr ⟨call, member, own⟩

/-- A store that calls with such names and keys have made is tabular. -/
theorem tabular_serveAll {calls : List ReporterCall}
    (plain : ∀ call ∈ calls, Plain call.graph ∧ Plain call.key) :
    (empty.serveAll calls).Tabular where
  graphs graph member := by
    obtain ⟨key, some⟩ := mem_graphs.1 member
    obtain before | ⟨call, made, rfl, -⟩ := exists_call some
    · cases before
    · exact (plain call made).1
  keys key member := by
    obtain ⟨graph, some⟩ := mem_keys.1 member
    obtain before | ⟨call, made, -, rfl⟩ := exists_call some
    · cases before
    · exact (plain call made).2

end Metrics

/-- One metric without a name and a key comes about in two calls. -/
def summed : MetricStore :=
  empty.serveAll [⟨.put, "", "", 1⟩, ⟨.add, "b", "k", 2⟩, ⟨.add, "", "", 4⟩]

def replaced : MetricStore :=
  empty.serveAll [⟨.put, "", "", 7⟩, ⟨.put, "", "", 5⟩, ⟨.put, "b", "k", 2⟩]

theorem get?_summed (graph key : String) :
    summed.get? graph key = replaced.get? graph key := by
  have made : summed.entries = [⟨"", "", 5⟩, ⟨"b", "k", 2⟩] := by decide
  have made' : replaced.entries = [⟨"b", "k", 2⟩, ⟨"", "", 5⟩] := by decide
  rw [get?, get?, made, made']
  by_cases unnamed : "" = graph
  · subst unnamed
    simp [List.find?_cons]
  · have skipped : ("" == graph) = false := beq_false_of_ne unnamed
    simp [List.find?_cons, skipped]

/-- Different rows of calls make different stores, and the tables are equal since the metrics
are; a store with one of them under another key has another table. -/
theorem table_summed : summed.Tabular ∧ replaced.Tabular ∧ summed ≠ replaced ∧
    summed.table = replaced.table ∧
    (empty.serveAll [⟨.put, "", "", 5⟩, ⟨.put, "b", "", 2⟩]).table ≠ summed.table := by
  have tabular : summed.Tabular := tabular_serveAll (by simp [Plain])
  have tabular' : replaced.Tabular := tabular_serveAll (by simp [Plain])
  refine ⟨tabular, tabular', by decide, (table_eq_iff tabular tabular').2 get?_summed, ?_⟩
  intro same
  have moved := (table_eq_iff (tabular_serveAll (by simp [Plain])) tabular).1 same "b" ""
  revert moved
  decide

end WorkflowSoundness.MetricStore
