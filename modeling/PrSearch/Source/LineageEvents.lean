import Mathlib.Data.List.GetD
import PrSearch.Source.LineageNodes

/-! # Texts and events

A node has the text of every line that it stands for. A node is made after the one that it comes from, at
a later revision, and has one event more; so the events of a node come to an end, and there are as many of
them as its depth says.
-/
namespace PrSearch.Source.Lineages

open Lines (Row ValidRows)

/-! ### Nodes and those they come from -/

/-- Nodes come from earlier ones, at earlier revisions, and are one deeper. -/
structure Chained (table : NodeTable) : Prop where
  even : table.Even
  first : ∀ node, table.parent[node]? = some none → table.depth.getD node 0 = 1
  later : ∀ node parent, table.parent[node]? = some (some parent) → parent < node ∧
    table.revision.getD parent 0 < table.revision.getD node 0 ∧
      table.depth.getD node 0 = table.depth.getD parent 0 + 1

/-- Nodes have been added. -/
structure Grown (table table' : NodeTable) : Prop where
  parent : table.parent <+: table'.parent
  revision : table.revision <+: table'.revision
  text : table.text <+: table'.text

/-- The nodes are there, of no later revision, and their texts are the lines. -/
structure Shows (table : NodeTable) (at_ : Nat) (nodes : List Nat) (lines : List Line) : Prop where
  texts : nodes.map (table.text[·]?) = lines.map some
  revisions : ∀ node ∈ nodes, node < table.parent.length ∧ table.revision.getD node 0 ≤ at_

variable {α : Type*} {i : Nat}

section Tables

variable {table table' table'' : NodeTable} {at_ later : Nat} {nodes : List Nat} {lines : List Line}
  {node : Nat} {line : Line}

theorem Grown.refl (table : NodeTable) : Grown table table :=
  ⟨List.prefix_refl _, List.prefix_refl _, List.prefix_refl _⟩

theorem Grown.trans (first : Grown table table') (second : Grown table' table'') :
    Grown table table'' :=
  ⟨first.parent.trans second.parent, first.revision.trans second.revision,
    first.text.trans second.text⟩

theorem getD_of_begins {xs ys : List α} (start : xs <+: ys) (less : i < xs.length) (zero : α) :
    ys.getD i zero = xs.getD i zero := by
  obtain ⟨rest, rfl⟩ := start
  rw [List.getD_append _ _ _ _ less]

theorem Shows.of_grown (shows_ : Shows table at_ nodes lines) (even : table.Even)
    (grown : Grown table table') : Shows table' at_ nodes lines where
  texts := map_getElem?_of_begins grown.text shows_.texts
  revisions node inside := by
    obtain ⟨less, early⟩ := shows_.revisions node inside
    refine ⟨Nat.lt_of_lt_of_le less grown.parent.length_le, ?_⟩
    rwa [getD_of_begins grown.revision (by rw [even.revision]; exact less)]

theorem shows_nil (table : NodeTable) (at_ : Nat) : Shows table at_ [] [] :=
  ⟨rfl, fun _ inside => (nomatch inside)⟩

theorem Shows.concat (shows_ : Shows table at_ nodes lines) (less : node < table.parent.length)
    (early : table.revision.getD node 0 ≤ at_) (text : table.text[node]? = some line) :
    Shows table at_ (nodes ++ [node]) (lines ++ [line]) where
  texts := by rw [List.map_append, List.map_append, shows_.texts, List.map_singleton, text,
    List.map_singleton]
  revisions other inside := by
    rcases List.mem_append.mp inside with old | new
    · exact shows_.revisions other old
    · obtain rfl := List.mem_singleton.mp new
      exact ⟨less, early⟩

/-- The node of a line, and its text. -/
theorem Shows.exists_node (shows_ : Shows table at_ nodes lines) (found : lines[i]? = some line) :
    ∃ node, nodes[i]? = some node ∧ table.text[node]? = some line ∧ node < table.parent.length ∧
      table.revision.getD node 0 ≤ at_ := by
  obtain ⟨node, isNode, text⟩ := reads_of_map shows_.texts found
  obtain ⟨less, early⟩ := shows_.revisions node (List.mem_of_getElem? isNode)
  exact ⟨node, isNode, text, less, early⟩

theorem getD_concat_self (xs : List α) (x zero : α) (is : i = xs.length) :
    (xs ++ [x]).getD i zero = x := by
  simp [is, List.getD_eq_getElem?_getD]

/-- A node is added behind the others. -/
theorem Chained.add (chained : Chained table) (parent : Option Nat) (at_ : Nat)
    (from_ : ∀ p, parent = some p → p < table.parent.length ∧ table.revision.getD p 0 < at_)
    (index : Nat) (kind : LineageKind) (text : Line) :
    Grown table (table.add parent at_ index kind text).2 ∧
      Chained (table.add parent at_ index kind text).2 ∧
      table.parent.length < (table.add parent at_ index kind text).2.parent.length ∧
      (table.add parent at_ index kind text).2.revision.getD table.parent.length 0 ≤ at_ ∧
      (table.add parent at_ index kind text).2.text[table.parent.length]? = some text := by
  have even := chained.even
  have own : (table.revision ++ [at_]).getD table.parent.length 0 = at_ :=
    getD_concat_self _ _ _ even.revision.symm
  have deep : (table.depth ++ [depthFrom table.depth parent]).getD table.parent.length 0 =
      depthFrom table.depth parent := getD_concat_self _ _ _ even.depth.symm
  have old : ∀ node, node < table.parent.length →
      (table.revision ++ [at_]).getD node 0 = table.revision.getD node 0 ∧
        (table.depth ++ [depthFrom table.depth parent]).getD node 0 = table.depth.getD node 0 :=
    fun node less => ⟨List.getD_append _ _ _ _ (by rw [even.revision]; exact less),
      List.getD_append _ _ _ _ (by rw [even.depth]; exact less)⟩
  refine ⟨⟨List.prefix_append _ _, List.prefix_append _ _, List.prefix_append _ _⟩,
    ⟨even.add parent at_ index kind text, fun node is => ?_, fun node from' is => ?_⟩,
    by simp [NodeTable.add], Nat.le_of_eq own, by simp [NodeTable.add, ← even.text]⟩
  · simp only [NodeTable.add] at is ⊢
    rw [List.getElem?_append] at is
    split at is
    next less => rw [(old node less).2, chained.first node is]
    next behind =>
      obtain ⟨last, isLast⟩ := List.getElem?_eq_some_iff.mp is
      obtain rfl : node = table.parent.length := by
        rw [List.length_singleton] at last
        omega
      have none_ : parent = none := by simpa using is
      rw [deep, none_, depthFrom]
  · simp only [NodeTable.add] at is ⊢
    rw [List.getElem?_append] at is
    split at is
    next less =>
      obtain ⟨before, early, one⟩ := chained.later node from' is
      obtain ⟨revision, depth⟩ := old node less
      obtain ⟨revision', depth'⟩ := old from' (Nat.lt_trans before less)
      exact ⟨before, by rw [revision, revision']; exact early, by rw [depth, depth']; exact one⟩
    next behind =>
      obtain ⟨last, isLast⟩ := List.getElem?_eq_some_iff.mp is
      obtain rfl : node = table.parent.length := by
        rw [List.length_singleton] at last
        omega
      have some_ : parent = some from' := by simpa using is
      obtain ⟨less, early⟩ := from_ from' some_
      obtain ⟨revision', depth'⟩ := old from' less
      refine ⟨less, by rw [own, revision']; exact early, ?_⟩
      rw [deep, depth', some_, depthFrom]

end Tables

/-! ### The lines of a revision -/

section Rows

variable {at_ earlier place : Nat} {before filled : List Nat} {previous lines : List Line}
  {s : NaiveRows} {row : Row}

/-- What a valid alignment says about a row. -/
structure RowOk (previous lines : List Line) (row : Row) : Prop where
  equal : row.kind = .equal → ∃ i j line, row.before = some i ∧ row.after = some j ∧
    previous[i]? = some line ∧ lines[j]? = some line
  before : ∀ i, row.before = some i → i < previous.length

theorem rowOk_of_valid {rows : List Row} (valid : ValidRows previous lines rows) (inside : row ∈ rows) :
    RowOk previous lines row where
  equal := valid.equal row inside
  before i is := by
    have named : i ∈ rows.filterMap Row.before := List.mem_filterMap.mpr ⟨row, inside, is⟩
    rw [valid.beforeLines] at named
    exact List.mem_range.mp named

/-- A row gives its line a node with its text. -/
theorem naiveRow_spec (chained : Chained s.1) (shows_ : Shows s.1 earlier before previous)
    (less : earlier < at_) (ok : RowOk previous lines row) (after : row.after = some place)
    {line : Line} (own : lines[place]? = some line) :
    ∃ table node, naiveRow before at_ lines s row = (table, s.2.set place node) ∧ Grown s.1 table ∧
      Chained table ∧ node < table.parent.length ∧ table.revision.getD node 0 ≤ at_ ∧
      table.text[node]? = some line := by
  obtain ⟨kind, from_, to_⟩ := row
  obtain rfl : to_ = some place := after
  have text : lines.getD place [] = line := by
    rw [List.getD_eq_getElem?_getD, own, Option.getD_some]
  have origin : ∀ i, from_ = some i → ∃ node, before.getD i 0 = node ∧
      node < s.1.parent.length ∧ s.1.revision.getD node 0 < at_ := by
    intro i is
    have within : i < previous.length := ok.before i is
    have there : previous[i]? = some previous[i] := List.getElem?_eq_getElem within
    obtain ⟨node, isNode, _, below, early⟩ := shows_.exists_node there
    exact ⟨node, by rw [List.getD_eq_getElem?_getD, isNode, Option.getD_some], below,
      Nat.lt_of_le_of_lt early less⟩
  cases kind with
  | equal =>
    obtain ⟨i, j, same, isFrom, isTo, old, new⟩ := ok.equal rfl
    obtain rfl : from_ = some i := isFrom
    obtain rfl : place = j := Option.some.inj isTo
    obtain rfl : line = same := Option.some.inj (own.symm.trans new)
    obtain ⟨node, isNode, text', below, early⟩ := shows_.exists_node old
    have reads : before.getD i 0 = node := by
      rw [List.getD_eq_getElem?_getD, isNode, Option.getD_some]
    refine ⟨s.1, node, ?_, Grown.refl _, chained, below, Nat.le_trans early (Nat.le_of_lt less), text'⟩
    simp only [naiveRow, Option.getD_some, reads]
  | change =>
    cases from_ with
    | none =>
      obtain ⟨grown, chained', below, early, text'⟩ :=
        chained.add none at_ (fun _ is => by cases is) place .added line
      exact ⟨_, _, by rw [naiveRow]; simp only [text]; rfl, grown, chained', below, early, text'⟩
    | some i =>
      obtain ⟨node, reads, there, early'⟩ := origin i rfl
      obtain ⟨grown, chained', below, early, text'⟩ :=
        chained.add (some node) at_
          (fun p is => Option.some.inj is ▸ ⟨there, early'⟩) place .edited line
      exact ⟨_, _, by rw [naiveRow]; simp only [text, reads]; rfl, grown, chained', below, early, text'⟩

/-- So far the nodes show the first lines, and the others are zeros. -/
structure Filling (at_ : Nat) (lines : List Line) (s : NaiveRows) (filled : List Nat) (more : Nat) :
    Prop where
  chained : Chained s.1
  cells : s.2 = filled ++ List.replicate more 0
  shows_ : Shows s.1 at_ filled (lines.take filled.length)
  length : filled.length + more = lines.length

-- One line more has its node.
theorem Filling.step {more node : Nat} {table : NodeTable} {line : Line}
    (filling : Filling at_ lines s filled (more + 1)) (own : lines[filled.length]? = some line)
    (grown : Grown s.1 table) (chained : Chained table) (less : node < table.parent.length)
    (early : table.revision.getD node 0 ≤ at_) (text : table.text[node]? = some line) :
    Filling at_ lines (table, s.2.set filled.length node) (filled ++ [node]) more where
  chained := chained
  cells := by
    simp only [filling.cells]
    exact set_append_replicate filled more node
  shows_ := by
    have first := (filling.shows_.of_grown filling.chained.even grown).concat less early text
    rw [List.length_append, List.length_singleton, List.take_add_one, own]
    exact first
  length := by
    have length := filling.length
    rw [List.length_append, List.length_singleton]
    omega

theorem filling_foldl (rows : List Row) (more : Nat) (less : earlier < at_)
    (after : rows.filterMap Row.after = List.range' filled.length more)
    (ok : ∀ row ∈ rows, RowOk previous lines row) (shows_ : Shows s.1 earlier before previous)
    (filling : Filling at_ lines s filled more) :
    Grown s.1 (rows.foldl (naiveRow before at_ lines) s).1 ∧
      Chained (rows.foldl (naiveRow before at_ lines) s).1 ∧
      Shows (rows.foldl (naiveRow before at_ lines) s).1 at_
        (rows.foldl (naiveRow before at_ lines) s).2 lines := by
  induction rows generalizing s filled more with
  | nil =>
    have none : more = 0 := by simpa using after.symm
    have cells := filling.cells
    have length := filling.length
    have shown := filling.shows_
    rw [none, List.replicate_zero, List.append_nil] at cells
    rw [List.take_of_length_le (by omega), ← cells] at shown
    exact ⟨Grown.refl _, filling.chained, shown⟩
  | cons row rows ih =>
    rw [List.forall_mem_cons] at ok
    rw [List.filterMap_cons] at after
    split at after
    next is =>
      have same : naiveRow before at_ lines s row = s := by simp only [naiveRow, is]
      rw [List.foldl_cons, same]
      exact ih more after ok.2 shows_ filling
    next place is =>
      cases more with
      | zero => simp at after
      | succ more =>
        rw [List.range'_succ] at after
        obtain ⟨rfl, rest⟩ := List.cons.inj after
        have length := filling.length
        have own : lines[filled.length]? = some lines[filled.length] :=
          List.getElem?_eq_getElem (by omega)
        obtain ⟨table, node, row_, grown, chained, below, early, text⟩ :=
          naiveRow_spec filling.chained shows_ less ok.1 is own
        have more_ := filling.step own grown chained below early text
        rw [List.foldl_cons, row_]
        obtain ⟨grown', chained', shown⟩ := ih more
          (by rw [List.length_append, List.length_singleton]; exact rest) ok.2
          (shows_.of_grown filling.chained.even grown) more_
        exact ⟨grown.trans grown', chained', shown⟩

theorem filling_baseline (all : List Line) (more : Nat) (rest : lines.drop filled.length = all)
    (filling : Filling 0 lines s filled more) :
    Grown s.1 (naiveBaseline filled.length all s).1 ∧ Chained (naiveBaseline filled.length all s).1 ∧
      Shows (naiveBaseline filled.length all s).1 0 (naiveBaseline filled.length all s).2 lines := by
  induction all generalizing s filled more with
  | nil =>
    have length := filling.length
    have none : lines.length ≤ filled.length := List.drop_eq_nil_iff.mp rest
    have cells := filling.cells
    have shown := filling.shows_
    rw [show more = 0 by omega, List.replicate_zero, List.append_nil] at cells
    rw [List.take_of_length_le none, ← cells] at shown
    exact ⟨Grown.refl _, filling.chained, shown⟩
  | cons line all ih =>
    have own : lines[filled.length]? = some line := by
      rw [← List.head?_drop, rest, List.head?_cons]
    have less := (List.getElem?_eq_some_iff.mp own).1
    have length := filling.length
    obtain ⟨more, rfl⟩ := Nat.exists_eq_succ_of_ne_zero (by omega : more ≠ 0)
    obtain ⟨grown, chained, below, early, text⟩ :=
      filling.chained.add none 0 (fun _ is => (nomatch is)) filled.length .baseline line
    have more_ := filling.step own grown chained below early text
    have next_ : (filled ++ [s.1.parent.length]).length = filled.length + 1 := by simp
    have rest' : lines.drop (filled ++ [s.1.parent.length]).length = all := by
      rw [next_, ← List.tail_drop, rest, List.tail_cons]
    obtain ⟨grown', later⟩ := ih more rest' more_
    rw [next_] at grown' later
    exact ⟨grown.trans grown', later⟩

end Rows

/-! ### All revisions -/

/-- The nodes of every revision have its lines for their texts. -/
structure Traced (k : Kept) (versions : List Version) : Prop where
  chained : Chained k.naive.nodes
  revisions : k.naive.revisions = versions.map Version.sha
  count : k.naive.lineNodes.length = versions.length
  shows_ : ∀ r nodes version, k.naive.lineNodes[r]? = some nodes → versions[r]? = some version →
    Shows k.naive.nodes r nodes version.lines
  previous : k.previous = (versions.getLast?.map Version.lines).getD []

section Traced

variable {diff : Diff} {k : Kept} {versions : List Version}

theorem traced_start : Traced .start [] where
  chained := by
    refine ⟨⟨rfl, rfl, rfl, rfl, rfl⟩, fun node is => ?_, fun node parent is => ?_⟩ <;>
      simp [Kept.start, NaiveLineage.start] at is
  revisions := rfl
  count := rfl
  shows_ _ _ _ found := by simp [Kept.start, NaiveLineage.start] at found
  previous := rfl

-- The nodes of a new revision, from those of the last one.
theorem Traced.lines (traced : Traced k versions) (lines : List Line)
    (valid : ∀ r xs ys, ValidRows xs ys (diff r xs ys).rows) :
    Grown k.naive.nodes (k.lines diff lines).1.1 ∧ Chained (k.lines diff lines).1.1 ∧
      Shows (k.lines diff lines).1.1 versions.length (k.lines diff lines).1.2 lines := by
  have size : k.naive.revisions.length = versions.length := by rw [traced.revisions, List.length_map]
  have started : ∀ at_, Filling at_ lines (k.naive.nodes, List.replicate lines.length 0) []
      lines.length := fun at_ =>
    ⟨traced.chained, (List.nil_append _).symm, shows_nil _ _, Nat.zero_add _⟩
  rw [lines_naive, naiveLines, size]
  split
  next none =>
    rw [none]
    have all : lines.drop ([] : List Nat).length = lines := rfl
    exact filling_baseline lines lines.length all (started 0)
  next later =>
    have less : versions.length - 1 < versions.length := by omega
    have less' : versions.length - 1 < k.naive.lineNodes.length := by rw [traced.count]; exact less
    have last := traced.shows_ _ _ _ (List.getElem?_eq_getElem less') (List.getElem?_eq_getElem less)
    have before : k.naive.lineNodes.getD (versions.length - 1) [] =
        k.naive.lineNodes[versions.length - 1] := by
      rw [List.getD_eq_getElem?_getD, List.getElem?_eq_getElem less', Option.getD_some]
    have previous : versions[versions.length - 1].lines = k.previous := by
      rw [traced.previous, List.getLast?_eq_getElem?, List.getElem?_eq_getElem less]
      rfl
    rw [previous] at last
    have rows := valid versions.length k.previous lines
    simp only [before]
    refine filling_foldl _ lines.length less ?_ (fun row inside => rowOk_of_valid rows inside) last
      (started _)
    rw [rows.afterLines, List.range_eq_range', List.length_nil]

theorem Traced.add (traced : Traced k versions) (version : Version)
    (valid : ∀ r xs ys, ValidRows xs ys (diff r xs ys).rows) :
    Traced (k.add diff version) (versions ++ [version]) := by
  obtain ⟨grown, chained, shown⟩ := traced.lines version.lines valid
  refine ⟨chained, by simp [Kept.add, traced.revisions], by simp [Kept.add, traced.count], ?_,
    by simp [Kept.add]⟩
  intro r nodes own found isOwn
  simp only [Kept.add] at found ⊢
  by_cases old : r < versions.length
  · rw [List.getElem?_append_left (by rw [traced.count]; exact old)] at found
    rw [List.getElem?_append_left old] at isOwn
    exact (traced.shows_ r nodes own found isOwn).of_grown traced.chained.even grown
  · have last : r = versions.length := by
      have less := (List.getElem?_eq_some_iff.mp isOwn).1
      rw [List.length_append, List.length_singleton] at less
      omega
    subst last
    obtain rfl : version = own := by simpa using isOwn
    rw [← traced.count] at found
    obtain rfl : (k.lines diff version.lines).1.2 = nodes := by simpa using found
    exact shown

theorem traced_kept (valid : ∀ r xs ys, ValidRows xs ys (diff r xs ys).rows)
    (versions : List Version) : Traced (kept diff versions) versions := by
  induction versions using List.reverseRecOn with
  | nil => exact traced_start
  | append_singleton versions version ih =>
    rw [kept_append]
    exact ih.add version valid

end Traced

/-! ### Events -/

section Events

variable {lineage : Lineage}

@[simp] theorem eventsFrom_none (lineage : Lineage) (fuel : Nat) :
    eventsFrom lineage fuel none = some [] := by
  cases fuel <;> rfl

/-- The events of a node come to an end, and there are as many as it is deep. -/
theorem eventsFrom_spec (chained : Chained lineage.nodes) (node : Nat)
    (less : node < lineage.nodes.parent.length) :
    ∃ events, events.length = lineage.nodes.depth.getD node 0 ∧
      ∀ fuel, lineage.nodes.depth.getD node 0 ≤ fuel →
        eventsFrom lineage fuel (some node) = some events := by
  induction node using Nat.strongRecOn with
  | ind node ih =>
    have is : lineage.nodes.parent[node]? = some lineage.nodes.parent[node] :=
      List.getElem?_eq_getElem less
    have reads : lineage.nodes.parent.getD node none = lineage.nodes.parent[node] := by
      rw [List.getD_eq_getElem?_getD, is, Option.getD_some]
    generalize lineage.nodes.parent[node] = parent at is reads
    cases parent with
    | none =>
      have one := chained.first node is
      refine ⟨[eventAt lineage node], one.symm, fun fuel enough => ?_⟩
      obtain ⟨fuel, rfl⟩ := Nat.exists_eq_succ_of_ne_zero (by omega : fuel ≠ 0)
      rw [eventsFrom, reads, eventsFrom_none]
      rfl
    | some parent =>
      obtain ⟨before, _, one⟩ := chained.later node parent is
      obtain ⟨events, length, all⟩ := ih parent before (Nat.lt_trans before less)
      refine ⟨eventAt lineage node :: events, by rw [List.length_cons, length, one], ?_⟩
      intro fuel enough
      obtain ⟨fuel, rfl⟩ := Nat.exists_eq_succ_of_ne_zero (by omega : fuel ≠ 0)
      rw [eventsFrom, reads, all fuel (by omega)]
      rfl

end Events

end PrSearch.Source.Lineages
