import PrSearch.Source.LineageKept

/-! # The builder keeps it on the heap

The node arrays of a builder hold the table of the nodes, and zeros behind it; they grow when they are
full. A revision writes into the array that it has allocated and into no other one, so the arrays that a
result has are left as they are.
-/
namespace PrSearch.Source.Lineages

open Lines (Row)

/-! ### The node arrays -/

/-- All columns are of one length. -/
structure NodeTable.Even (table : NodeTable) : Prop where
  revision : table.revision.length = table.parent.length
  line : table.line.length = table.parent.length
  kind : table.kind.length = table.parent.length
  depth : table.depth.length = table.parent.length
  text : table.text.length = table.parent.length

/-- The arrays start with the columns, and have so many zeros behind them. -/
structure Columns (spare : Nat) (store : NodeStore) (table : NodeTable) : Prop where
  parent : store.parent = table.parent ++ List.replicate spare (some 0)
  revision : store.revision = table.revision ++ List.replicate spare 0
  line : store.line = table.line ++ List.replicate spare 0
  kind : store.kind = table.kind ++ List.replicate spare .baseline
  depth : store.depth = table.depth ++ List.replicate spare 0
  texts : store.texts = table.text
  count : store.count = table.parent.length

/-- The store holds the table; `extra`: the bytes of other arrays. -/
structure Holds (store : NodeStore) (table : NodeTable) (extra : Nat) : Prop where
  columns : ∃ spare, Columns spare store table
  even : table.Even
  some_ : 0 < store.parent.length
  bytes : store.bytes = table.parent.length * nodeBytes + (table.text.map textBytes).sum + extra

variable {α : Type*} {xs ys : List α} {version : Version}

section Store

variable {store : NodeStore} {table : NodeTable} {extra spare capacity : Nat}

theorem NodeTable.Even.add (even : table.Even) (parent : Option Nat) (revision index : Nat)
    (kind : LineageKind) (text : Line) : (table.add parent revision index kind text).2.Even := by
  constructor <;>
    simp [NodeTable.add, even.revision, even.line, even.kind, even.depth, even.text]

theorem widen_double (zero : α) {column values : List α} {count : Nat}
    (full : column = values ++ List.replicate 0 zero) (size : values.length = count) :
    widen zero (count + count) column = values ++ List.replicate count zero := by
  subst full size
  simp [widen]

-- A full store has twice the room after it has grown.
theorem Columns.grow (columns : Columns 0 store table) (even : table.Even) :
    Columns table.parent.length store.grow table := by
  have room : store.parent.length * 2 = table.parent.length + table.parent.length := by
    simp only [columns.parent, List.replicate_zero, List.append_nil]
    omega
  constructor <;> simp only [NodeStore.grow, room]
  · exact widen_double _ columns.parent rfl
  · exact widen_double _ columns.revision even.revision
  · exact widen_double _ columns.line even.line
  · exact widen_double _ columns.kind even.kind
  · exact widen_double _ columns.depth even.depth
  · exact columns.texts
  · exact columns.count

/-- There is room for one node more, if need be after the store has grown. -/
theorem Holds.room (holds : Holds store table extra) :
    ∃ spare, Columns (spare + 1) (if store.count = store.parent.length then store.grow else store)
        table ∧
      (if store.count = store.parent.length then store.grow else store).bytes = store.bytes := by
  obtain ⟨spare, columns⟩ := holds.columns
  have some_ := holds.some_
  have size : store.parent.length = table.parent.length + spare := by simp [columns.parent]
  rw [columns.count, size]
  split
  next full =>
    obtain rfl : spare = 0 := by omega
    have grown := columns.grow holds.even
    obtain ⟨more, is⟩ := Nat.exists_eq_succ_of_ne_zero
      (Nat.ne_of_gt (by omega : 0 < table.parent.length))
    rw [is] at grown
    exact ⟨more, grown, rfl⟩
  next room =>
    obtain ⟨more, rfl⟩ := Nat.exists_eq_succ_of_ne_zero (by omega : spare ≠ 0)
    exact ⟨more, columns, rfl⟩

-- Behind the nodes there are zeros, so it does not matter which array the depth is read from.
theorem depthFrom_append_replicate (depth : List Nat) (spare : Nat) (parent : Option Nat) :
    depthFrom (depth ++ List.replicate spare 0) parent = depthFrom depth parent := by
  cases parent with
  | none => rfl
  | some parent =>
    rw [depthFrom, depthFrom, List.getD_eq_getElem?_getD, List.getD_eq_getElem?_getD,
      List.getElem?_append]
    split
    next => rfl
    next behind =>
      rw [List.getElem?_replicate, List.getElem?_eq_none (by omega)]
      split <;> rfl

/-- A node is added to the arrays as it is to the table. -/
theorem Holds.addNode (holds : Holds store table extra) (parent : Option Nat) (revision index : Nat)
    (kind : LineageKind) (text : Line) :
    (store.addNode parent revision index kind text).1 =
        (table.add parent revision index kind text).1 ∧
      Holds (store.addNode parent revision index kind text).2
        (table.add parent revision index kind text).2 extra := by
  obtain ⟨spare, columns, sameBytes⟩ := holds.room
  have even := holds.even
  have count : store.count = table.parent.length := by
    obtain ⟨_, same⟩ := holds.columns
    exact same.count
  unfold NodeStore.addNode
  simp only []
  generalize (if store.count = store.parent.length then store.grow else store) = roomy
    at columns sameBytes ⊢
  refine ⟨count, ⟨spare, ?_⟩, even.add parent revision index kind text, ?_, ?_⟩
  · constructor <;> simp only [count, NodeTable.add, columns.parent, columns.revision, columns.line,
      columns.kind, columns.depth, columns.texts, depthFrom_append_replicate]
    · exact set_append_replicate _ _ _
    · rw [← even.revision, set_append_replicate]
    · rw [← even.line, set_append_replicate]
    · rw [← even.kind, set_append_replicate]
    · rw [← even.depth, set_append_replicate]
    · rw [List.length_append, List.length_singleton]
  · simp only [columns.parent, List.length_set, List.length_append, List.length_replicate]
    omega
  · simp only [NodeTable.add, List.length_append, List.length_singleton, List.map_append, List.map_cons,
      List.map_nil, List.sum_append, List.sum_cons, List.sum_nil, sameBytes, holds.bytes, Nat.add_mul]
    omega

/-- The used parts of the arrays are the columns. -/
theorem Columns.used (columns : Columns spare store table) (even : table.Even) : store.used = table := by
  have column : ∀ {α : Type} (column : List α) (zeros : List α),
      column.length = table.parent.length → (column ++ zeros).take table.parent.length = column :=
    fun column zeros length => by rw [← length, List.take_left]
  simp only [NodeStore.used, columns.parent, columns.revision, columns.line, columns.kind,
    columns.depth, columns.texts, columns.count, column _ _ rfl, column _ _ even.revision,
    column _ _ even.line, column _ _ even.kind, column _ _ even.depth]
  rw [← even.text, List.take_length]

theorem Holds.used (holds : Holds store table extra) : store.used = table := by
  obtain ⟨spare, columns⟩ := holds.columns
  exact columns.used holds.even

end Store

/-! ### The lines of a revision -/

section Rows

variable {old : List (List Nat)} {stored : List (List Run)} {extra : Nat} {s : RowState}
  {rows : NaiveRows × List Run} {cells before : List Nat} {nodes previousNodes revision : Nat}
  {lines : List Line}

/-- The last array is being written; the others are as they were. -/
structure Working (old : List (List Nat)) (stored : List (List Run)) (extra : Nat) (s : RowState)
    (rows : NaiveRows × List Run) : Prop where
  heap : s.heap = ⟨old ++ [rows.1.2], stored⟩
  store : Holds s.store rows.1.1 extra
  runs : s.runs = rows.2

theorem write_last (index value : Nat) :
    Heap.write ⟨old ++ [cells], stored⟩ old.length index value =
      ⟨old ++ [cells.set index value], stored⟩ := by
  simp [Heap.write, List.modify_eq_set_getElem?]

theorem cell_old (found : old[previousNodes]? = some before) (index : Nat) :
    Heap.cell ⟨old ++ [cells], stored⟩ previousNodes index = before.getD index 0 := by
  obtain ⟨less, _⟩ := List.getElem?_eq_some_iff.mp found
  have there : (old ++ [cells])[previousNodes]? = some before := by
    rw [List.getElem?_append_left less, found]
  simp only [Heap.cell, List.getD_eq_getElem?_getD, there, Option.getD_some]

/-- A row does the same to the arrays as to the values. -/
theorem working_addRow (working : Working old stored extra s rows)
    (found : old[previousNodes]? = some before) (row : Row) :
    Working old stored extra (addRow old.length previousNodes revision lines s row)
      (keptRow before revision lines rows row) := by
  obtain ⟨⟨table, cells⟩, runs⟩ := rows
  obtain ⟨heap, store, runs'⟩ := s
  have holds : Holds store table extra := working.store
  obtain rfl : heap = ⟨old ++ [cells], stored⟩ := working.heap
  obtain rfl : runs' = runs := working.runs
  obtain ⟨kind, from_, after⟩ := row
  cases after with
  | none => exact ⟨rfl, holds, rfl⟩
  | some after =>
    cases kind with
    | equal =>
      refine ⟨?_, holds, rfl⟩
      simp only [addRow, keptRow, naiveRow, cell_old found, write_last]
    | change =>
      cases from_ with
      | none =>
        obtain ⟨same, added⟩ := holds.addNode none revision after .added (lines.getD after [])
        refine ⟨?_, added, ?_⟩
        · simp only [addRow, keptRow, naiveRow, detach, same, write_last]
        · simp only [addRow, keptRow, rowRuns, detach, same]
          rfl
      | some from_ =>
        obtain ⟨same, added⟩ := holds.addNode (some (before.getD from_ 0)) revision after .edited
          (lines.getD after [])
        refine ⟨?_, ?_, ?_⟩
        · simp only [addRow, keptRow, naiveRow, detach, cell_old found, same, write_last]
        · simp only [addRow, keptRow, naiveRow, detach, cell_old found]
          exact added
        · simp only [addRow, keptRow, rowRuns, detach, cell_old found, same]
          rfl

theorem Working.foldl (found : old[previousNodes]? = some before) (all : List Row)
    (working : Working old stored extra s rows) :
    Working old stored extra (all.foldl (addRow old.length previousNodes revision lines) s)
      (all.foldl (keptRow before revision lines) rows) := by
  induction all generalizing s rows with
  | nil => exact working
  | cons row all ih => exact ih (working_addRow working found row)

theorem Working.baseline {table : NodeTable} {index : Nat} {all : List Line} {runs : List Run}
    (working : Working old stored extra s ((table, cells), runs)) :
    Working old stored extra (addBaseline old.length index all s)
      (naiveBaseline index all (table, cells), runs) := by
  induction all generalizing s table cells index with
  | nil => exact working
  | cons line all ih =>
    obtain ⟨heap, store, runs'⟩ := s
    have holds : Holds store table extra := working.store
    obtain rfl : heap = ⟨old ++ [cells], stored⟩ := working.heap
    obtain rfl : runs' = runs := working.runs
    obtain ⟨same, added⟩ := holds.addNode none 0 index .baseline line
    have written : Heap.write ⟨old ++ [cells], stored⟩ old.length index
        (store.addNode none 0 index .baseline line).1 =
          ⟨old ++ [cells.set index (table.add none 0 index .baseline line).1], stored⟩ := by
      rw [same, write_last]
    exact ih ⟨written, added, rfl⟩

end Rows

/-! ### Builders and their results -/

/-- Arrays are added behind those that are there. -/
structure Heap.Extends (heap heap' : Heap) : Prop where
  nodes : heap.nodes <+: heap'.nodes
  runs : heap.runs <+: heap'.runs

/-- What a lineage shows: its own values, and those of its arrays. -/
structure Contents where
  revisions : List String
  lineCounts : List Nat
  checkpoints : List (Option (List Nat))
  runs : List (Option (List Run))
  nodes : NodeTable
  approximatePairs : Nat
  deriving DecidableEq

def Lineage.contents (heap : Heap) (lineage : Lineage) : Contents where
  revisions := lineage.revisions
  lineCounts := lineage.lineCounts
  checkpoints := lineage.checkpoints.map (heap.nodes[·]?)
  runs := lineage.runs.map (heap.runs[·]?)
  nodes := lineage.nodes
  approximatePairs := lineage.approximatePairs

def Kept.contents (k : Kept) : Contents where
  revisions := k.naive.revisions
  lineCounts := k.naive.lineNodes.map List.length
  checkpoints := k.checkpoints.map some
  runs := k.runs.map some
  nodes := k.naive.nodes
  approximatePairs := k.approximatePairs

/-- The bytes of the kept arrays. -/
def Kept.arrayBytes (k : Kept) : Nat :=
  (k.checkpoints.map fun nodes => 4 * nodes.length).sum + (k.runs.map fun runs => 16 * runs.length).sum

/-- The builder has on the heap what is kept. -/
structure Tracks (heap : Heap) (b : Builder) (k : Kept) : Prop where
  contents : b.result.contents heap = k.contents
  store : Holds b.store k.naive.nodes k.arrayBytes
  previous : b.previous = k.previous
  previousNodes : heap.nodes[b.previousNodes]? = some k.before
  noRuns : heap.runs[noRuns]? = some []
  count : k.naive.lineNodes.length = k.naive.revisions.length

section Tracks

variable {heap heap' heap'' : Heap} {b : Builder} {k : Kept} {diff : Diff} {lineage : Lineage}

theorem Heap.Extends.refl (heap : Heap) : heap.Extends heap := ⟨List.prefix_refl _, List.prefix_refl _⟩

theorem Heap.Extends.trans (first : heap.Extends heap') (second : heap'.Extends heap'') :
    heap.Extends heap'' :=
  ⟨first.nodes.trans second.nodes, first.runs.trans second.runs⟩

theorem getElem?_of_begins (start : xs <+: ys) {i : Nat} {x : α} (found : xs[i]? = some x) :
    ys[i]? = some x := by
  obtain ⟨rest, rfl⟩ := start
  obtain ⟨less, _⟩ := List.getElem?_eq_some_iff.mp found
  rw [List.getElem?_append_left less, found]

-- References that point to arrays point to the same ones on a longer heap.
theorem map_getElem?_of_begins (start : xs <+: ys) {places : List Nat} {values : List α}
    (found : places.map (xs[·]?) = values.map some) : places.map (ys[·]?) = values.map some := by
  rw [← found]
  refine List.map_congr_left fun place inside => ?_
  have reads : xs[place]? ∈ values.map some := found ▸ List.mem_map_of_mem inside
  obtain ⟨value, _, is⟩ := List.mem_map.mp reads
  rw [← is]
  exact getElem?_of_begins start is.symm

/-- A result shows on a longer heap what it showed. -/
theorem contents_of_extends (extends_ : heap.Extends heap')
    (contents : lineage.contents heap = k.contents) : lineage.contents heap' = k.contents := by
  have checkpoints := map_getElem?_of_begins extends_.nodes (congrArg Contents.checkpoints contents)
  have runs := map_getElem?_of_begins extends_.runs (congrArg Contents.runs contents)
  have same : lineage.contents heap' = lineage.contents heap := by
    simp only [Lineage.contents, Contents.mk.injEq, true_and, and_true]
    exact ⟨checkpoints.trans (congrArg Contents.checkpoints contents).symm,
      runs.trans (congrArg Contents.runs contents).symm⟩
  exact same.trans contents

theorem holds_start : Holds .start ⟨[], [], [], [], [], []⟩ 0 where
  columns := ⟨initialNodes, rfl, rfl, rfl, rfl, rfl, rfl, rfl⟩
  even := ⟨rfl, rfl, rfl, rfl, rfl⟩
  some_ := by
    change 0 < (List.replicate initialNodes (some 0)).length
    rw [List.length_replicate]
    decide
  bytes := rfl

theorem tracks_new (heap : Heap) (ready : heap.runs[noRuns]? = some []) :
    Tracks (Builder.new heap).1 (Builder.new heap).2 .start where
  contents := rfl
  store := holds_start
  previous := rfl
  previousNodes := by simp [Builder.new, Heap.allocate, Kept.before, Kept.start, NaiveLineage.start]
  noRuns := ready
  count := rfl

theorem Tracks.revisions (tracks : Tracks heap b k) : b.revisions = k.naive.revisions :=
  congrArg Contents.revisions tracks.contents

theorem Tracks.lines (tracks : Tracks heap b k) (diff : Diff) (lines : List Line) :
    Working heap.nodes heap.runs k.arrayBytes (addLines diff heap b lines).1 (k.lines diff lines) ∧
      (addLines diff heap b lines).2 = k.approximate diff lines := by
  have started : Working heap.nodes heap.runs k.arrayBytes ⟨heap.allocate lines.length, b.store, []⟩
      ((k.naive.nodes, List.replicate lines.length 0), []) := ⟨rfl, tracks.store, rfl⟩
  simp only [addLines, Kept.lines, Kept.approximate, tracks.revisions, tracks.previous]
  split
  next first => exact ⟨started.baseline, by simp [first]⟩
  next later => exact ⟨started.foldl tracks.previousNodes _, by simp [later]⟩

/-- What is kept of a revision, on the heap that its lines have been written to. -/
theorem Tracks.keep (tracks : Tracks heap b k) (version : Version) {s : RowState}
    (working : Working heap.nodes heap.runs k.arrayBytes s (k.lines diff version.lines)) :
    heap.Extends s.heap ∧ s.heap.nodes[heap.nodes.length]? = some (k.lines diff version.lines).1.2 := by
  rw [working.heap]
  exact ⟨⟨List.prefix_append _ _, List.prefix_refl _⟩, by simp⟩

theorem before_add (count : k.naive.lineNodes.length = k.naive.revisions.length) (version : Version) :
    (k.add diff version).before = (k.lines diff version.lines).1.2 := by
  simp [Kept.before, Kept.add, ← count, List.getD_eq_getElem?_getD]

theorem Holds.more {store : NodeStore} {table : NodeTable} {extra : Nat}
    (holds : Holds store table extra) (more : Nat) :
    Holds { store with bytes := store.bytes + more } table (extra + more) where
  columns := by
    obtain ⟨spare, columns⟩ := holds.columns
    exact ⟨spare, columns.parent, columns.revision, columns.line, columns.kind, columns.depth,
      columns.texts, columns.count⟩
  even := holds.even
  some_ := holds.some_
  bytes := by
    have bytes := holds.bytes
    simp only [bytes]
    omega

theorem arrayBytes_add_checkpoint (checkpoint : k.naive.revisions.length % checkpointEvery = 0) :
    (k.add diff version).arrayBytes =
      k.arrayBytes + 4 * (k.lines diff version.lines).1.2.length := by
  simp only [Kept.arrayBytes, Kept.add, checkpoint, decide_true, if_true, List.map_append,
    List.map_cons, List.map_nil, List.sum_append, List.sum_cons, List.sum_nil, List.length_nil]
  omega

theorem arrayBytes_add_between (between : ¬ k.naive.revisions.length % checkpointEvery = 0) :
    (k.add diff version).arrayBytes = k.arrayBytes + 16 * (k.lines diff version.lines).2.length := by
  simp only [Kept.arrayBytes, Kept.add, between, decide_false, Bool.false_eq_true, if_false,
    List.map_append, List.map_cons, List.map_nil, List.sum_append, List.sum_cons, List.sum_nil]
  omega

/-- A revision is added on the heap as it is to what is kept, and no array is changed by it. -/
theorem Tracks.add (tracks : Tracks heap b k) (diff : Diff) (version : Version) :
    heap.Extends (addRevision diff heap b version.sha version.lines).1 ∧
      Tracks (addRevision diff heap b version.sha version.lines).1
        (addRevision diff heap b version.sha version.lines).2.1 (k.add diff version) := by
  obtain ⟨working, approximate⟩ := tracks.lines diff version.lines
  obtain ⟨extends_, last⟩ := tracks.keep version working
  have contents := contents_of_extends extends_ tracks.contents
  have length := length_naiveLines diff k.naive k.previous version.lines
  rw [← lines_naive] at length
  simp only [addRevision, approximate]
  generalize (addLines diff heap b version.lines).1 = s at working extends_ last contents ⊢
  have revisions := tracks.revisions
  have noRuns_ := getElem?_of_begins extends_.runs tracks.noRuns
  have count : (k.add diff version).naive.lineNodes.length =
      (k.add diff version).naive.revisions.length := by
    simp [Kept.add, tracks.count]
  simp only [Lineage.contents, Builder.result, Kept.contents, Contents.mk.injEq] at contents
  obtain ⟨_, lineCounts, checkpoints, runs, nodes, pairs⟩ := contents
  unfold keepRevision
  split
  next checkpoint =>
    rw [revisions] at checkpoint
    have bytes : nodesByteLength s.heap heap.nodes.length =
        4 * (k.lines diff version.lines).1.2.length := by
      rw [nodesByteLength, List.getD_eq_getElem?_getD, last, Option.getD_some]
    have holds := working.store.more (nodesByteLength s.heap heap.nodes.length)
    rw [bytes, ← arrayBytes_add_checkpoint checkpoint, ← bytes] at holds
    refine ⟨extends_, ?_, holds, rfl, by rw [before_add tracks.count]; exact last, noRuns_, count⟩
    simp only [Lineage.contents, Builder.result, Kept.contents, Kept.add, checkpoint, decide_true,
      if_true, List.map_append, List.map_cons, List.map_nil, revisions, lineCounts, checkpoints, runs,
      length, last, noRuns_, holds.used, pairs]
  next between =>
    rw [revisions] at between
    have extends' : heap.Extends { s.heap with runs := s.heap.runs ++ [s.runs] } :=
      extends_.trans ⟨List.prefix_refl _, List.prefix_append _ _⟩
    have contents' := contents_of_extends extends' tracks.contents
    simp only [Lineage.contents, Builder.result, Kept.contents, Contents.mk.injEq] at contents'
    obtain ⟨_, _, _, runs', _, _⟩ := contents'
    have stored : (s.heap.runs ++ [s.runs])[s.heap.runs.length]? = some (k.lines diff version.lines).2 := by
      rw [working.runs]
      simp
    have bytes : runsByteLength { s.heap with runs := s.heap.runs ++ [s.runs] } s.heap.runs.length =
        16 * (k.lines diff version.lines).2.length := by
      rw [runsByteLength, List.getD_eq_getElem?_getD, stored, Option.getD_some]
    have holds := working.store.more
      (runsByteLength { s.heap with runs := s.heap.runs ++ [s.runs] } s.heap.runs.length)
    rw [bytes, ← arrayBytes_add_between between, ← bytes] at holds
    refine ⟨extends', ?_, holds, rfl, by rw [before_add tracks.count]; exact last,
      getElem?_of_begins (List.prefix_append _ _) noRuns_, count⟩
    simp only [Lineage.contents, Builder.result, Kept.contents, Kept.add, between, decide_false,
      Bool.false_eq_true, if_false, List.map_append, List.map_cons, List.map_nil, revisions, lineCounts,
      checkpoints, runs', length, stored, holds.used, pairs]

theorem Tracks.addAll (tracks : Tracks heap b k) (diff : Diff) (versions : List Version) :
    heap.Extends (addRevisions diff (heap, b) versions).1 ∧
      Tracks (addRevisions diff (heap, b) versions).1 (addRevisions diff (heap, b) versions).2
        (versions.foldl (Kept.add diff) k) := by
  induction versions generalizing heap b k with
  | nil => exact ⟨Heap.Extends.refl heap, tracks⟩
  | cons version versions ih =>
    obtain ⟨extends_, added⟩ := tracks.add diff version
    obtain ⟨later, all⟩ := ih added
    exact ⟨extends_.trans later, all⟩

end Tracks

end PrSearch.Source.Lineages
