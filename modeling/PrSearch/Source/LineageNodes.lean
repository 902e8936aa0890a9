import PrSearch.Source.LineageHeap

/-! # Every revision is found again

The rows of a valid alignment come to the lines of the new revision in order, so the runs of a revision
fill its array of nodes. From a checkpoint on, the runs give one array after the other.
-/
namespace PrSearch.Source.Lineages

open Lines (Row ValidRows)

variable {i : Nat} {α : Type*} {places : List Nat}

section Fill

variable {before filled : List Nat} {at_ : Nat} {lines : List Line} {s : NaiveRows × List Run}

-- The one value of an equal run that has just begun.
theorem values_one (less : i < before.length) (start : Nat) :
    Run.values before ⟨.equal, start, 1, i⟩ = [before.getD i 0] := by
  simp only [Run.values]
  rw [List.drop_eq_getElem_cons less, List.take_succ_cons, List.take_zero,
    List.getD_eq_getElem?_getD, List.getElem?_eq_getElem less, Option.getD_some]

/-- Rows that come to the lines in order fill the array of the nodes. -/
theorem fills_foldl (rows : List Row) (more : Nat)
    (after : rows.filterMap Row.after = List.range' filled.length more)
    (equal : ∀ row ∈ rows, row.kind = .equal → ∃ i, row.before = some i ∧ i < before.length)
    (nodes : s.1.2 = filled ++ List.replicate more 0) (fills : Fills before s.2 filled) :
    Fills before (rows.foldl (keptRow before at_ lines) s).2
      (rows.foldl (keptRow before at_ lines) s).1.2 := by
  induction rows generalizing s filled more with
  | nil =>
    have none : more = 0 := by simpa using after.symm
    rw [none, List.replicate_zero, List.append_nil] at nodes
    rw [List.foldl_nil, nodes]
    exact fills
  | cons row rows ih =>
    rw [List.forall_mem_cons] at equal
    obtain ⟨kind, from_, to_⟩ := row
    obtain ⟨⟨table, cells⟩, runs⟩ := s
    obtain rfl : cells = filled ++ List.replicate more 0 := nodes
    cases to_ with
    | none => exact ih more after equal.2 rfl fills
    | some line =>
      cases more with
      | zero => simp at after
      | succ more =>
        rw [List.filterMap_cons, List.range'_succ] at after
        obtain ⟨rfl, rest⟩ := List.cons.inj after
        have next_ : ∀ value, (filled ++ [value]).length = filled.length + 1 := fun value => by simp
        cases kind with
        | equal =>
          obtain ⟨i, rfl, less⟩ := equal.1 rfl
          refine ih more (by rwa [next_]) equal.2 (set_append_replicate filled more _) ?_
          exact fills.push rfl rfl (values_one less _)
        | change =>
          cases from_ with
          | none =>
            refine ih more (by rwa [next_]) equal.2 (set_append_replicate filled more _) ?_
            exact fills.push rfl rfl rfl
          | some i =>
            refine ih more (by rwa [next_]) equal.2 (set_append_replicate filled more _) ?_
            exact fills.push rfl rfl rfl

end Fill

/-! ### What is stored of each revision -/

/-- Every revision is a checkpoint, or its runs fill its nodes. -/
structure Stored (k : Kept) : Prop where
  count : k.naive.lineNodes.length = k.naive.revisions.length
  checkpoint : ∀ r nodes, k.naive.lineNodes[r]? = some nodes → r % checkpointEvery = 0 →
    k.checkpoints[r / checkpointEvery]? = some nodes
  between : ∀ r nodes, k.naive.lineNodes[r]? = some nodes → ¬ r % checkpointEvery = 0 →
    ∃ before runs, k.naive.lineNodes[r - 1]? = some before ∧ k.runs[r]? = some runs ∧
      Fills before runs nodes
  checkpoints : k.checkpoints.length =
    (k.naive.revisions.length + (checkpointEvery - 1)) / checkpointEvery
  runs : k.runs.length = k.naive.revisions.length
  previous : k.before.length = k.previous.length

section Stored

variable {diff : Diff} {k : Kept}

theorem stored_start : Stored .start where
  count := rfl
  checkpoint _ _ found := by simp [Kept.start, NaiveLineage.start] at found
  between _ _ found := by simp [Kept.start, NaiveLineage.start] at found
  checkpoints := rfl
  runs := rfl
  previous := rfl

theorem fills_lines (stored : Stored k) (lines : List Line)
    (valid : ∀ r xs ys, ValidRows xs ys (diff r xs ys).rows) (later : k.naive.revisions.length ≠ 0) :
    Fills k.before (k.lines diff lines).2 (k.lines diff lines).1.2 := by
  have rows := valid k.naive.revisions.length k.previous lines
  simp only [Kept.lines, later, if_false]
  refine fills_foldl _ lines.length ?_ ?_ (List.nil_append _).symm Fills.none
  · rw [rows.afterLines, List.range_eq_range', List.length_nil]
  · intro row inside kind
    obtain ⟨i, _, line, isBefore, _, found, _⟩ := rows.equal row inside kind
    refine ⟨i, isBefore, ?_⟩
    rw [stored.previous]
    exact (List.getElem?_eq_some_iff.mp found).1

theorem Stored.add (stored : Stored k) (version : Version)
    (valid : ∀ r xs ys, ValidRows xs ys (diff r xs ys).rows) : Stored (k.add diff version) where
  count := by simp [Kept.add, stored.count]
  checkpoint r nodes found checkpoint := by
    have count := stored.count
    have checkpoints := stored.checkpoints
    simp only [Kept.add] at found ⊢
    rw [List.getElem?_append] at found
    split at found
    next old =>
      have kept_ := stored.checkpoint r nodes found checkpoint
      split
      next => rw [List.getElem?_append_left (List.getElem?_eq_some_iff.mp kept_).1, kept_]
      next => exact kept_
    next new =>
      have last : r = k.naive.revisions.length := by
        have := (List.getElem?_eq_some_iff.mp found).1
        rw [List.length_singleton] at this
        omega
      subst last
      rw [count, Nat.sub_self] at found
      have place : k.naive.revisions.length / checkpointEvery = k.checkpoints.length := by
        rw [checkpoints]
        unfold checkpointEvery at checkpoint ⊢
        omega
      simp only [checkpoint, decide_true, if_true, place]
      rw [List.getElem?_append_right (Nat.le_refl _), Nat.sub_self]
      exact found
  between r nodes found between := by
    have count := stored.count
    have runs := stored.runs
    simp only [Kept.add] at found ⊢
    rw [List.getElem?_append] at found
    split at found
    next old =>
      obtain ⟨before, own, isBefore, isOwn, fills⟩ := stored.between r nodes found between
      refine ⟨before, own, ?_, ?_, fills⟩
      · rw [List.getElem?_append_left (List.getElem?_eq_some_iff.mp isBefore).1, isBefore]
      · rw [List.getElem?_append_left (List.getElem?_eq_some_iff.mp isOwn).1, isOwn]
    next new =>
      have last : r = k.naive.revisions.length := by
        have := (List.getElem?_eq_some_iff.mp found).1
        rw [List.length_singleton] at this
        omega
      subst last
      rw [count, Nat.sub_self] at found
      have later : k.naive.revisions.length ≠ 0 := fun none => between (by rw [none]; rfl)
      obtain rfl : (k.lines diff version.lines).1.2 = nodes := Option.some.inj found
      have less : k.naive.revisions.length - 1 < k.naive.lineNodes.length := by omega
      refine ⟨k.before, (k.lines diff version.lines).2, ?_, ?_, fills_lines stored _ valid later⟩
      · rw [List.getElem?_append_left less, Kept.before, List.getD_eq_getElem?_getD,
          List.getElem?_eq_getElem less, Option.getD_some]
      · simp only [between, decide_false, Bool.false_eq_true, if_false]
        rw [List.getElem?_append_right (Nat.le_of_eq runs), runs, Nat.sub_self]
        rfl
  checkpoints := by
    have checkpoints := stored.checkpoints
    simp only [Kept.add]
    unfold checkpointEvery at checkpoints ⊢
    split
    next checkpoint =>
      have checkpoint := of_decide_eq_true checkpoint
      simp only [List.length_append, List.length_singleton]
      omega
    next between =>
      have between : ¬ k.naive.revisions.length % 64 = 0 := by simpa using between
      simp only [List.length_append, List.length_singleton]
      omega
  runs := by simp [Kept.add, stored.runs]
  previous := by
    rw [before_add stored.count, lines_naive, length_naiveLines]
    rfl

theorem stored_kept (valid : ∀ r xs ys, ValidRows xs ys (diff r xs ys).rows)
    (versions : List Version) : Stored (kept diff versions) := by
  induction versions using List.reverseRecOn with
  | nil => exact stored_start
  | append_singleton versions version ih =>
    rw [kept_append]
    exact ih.add version valid

end Stored

/-! ### Reading a lineage -/

section Reading

variable {diff : Diff} {k : Kept} {heap heap' : Heap} {b : Builder} {lineage : Lineage}
  {nodes : List Nat} {r address : Nat}

-- An array of a lineage is there, with the value that is kept.
theorem reads_of_map {arrays : List α} {values : List α} {value : α}
    (same : places.map (arrays[·]?) = values.map some) (is : values[i]? = some value) :
    ∃ place, places[i]? = some place ∧ arrays[place]? = some value := by
  have there : (places.map (arrays[·]?))[i]? = some (some value) := by
    rw [same, List.getElem?_map, is, Option.map_some]
  rw [List.getElem?_map] at there
  obtain ⟨place, isPlace, reads⟩ := Option.map_eq_some_iff.mp there
  exact ⟨place, isPlace, reads⟩

/-- The runs lead from one revision to a later one when no checkpoint lies between. -/
theorem nodesFrom_spec (stored : Stored k) (more : Nat) (contents : lineage.contents heap = k.contents)
    (start : heap.nodes[address]? = k.naive.lineNodes[r]?) (within : r + more < k.naive.lineNodes.length)
    (between : ∀ step, step < more → ¬ (r + 1 + step) % checkpointEvery = 0) :
    ∃ heap' address', nodesFrom lineage more (r + 1) heap address = some (heap', address') ∧
      heap.Extends heap' ∧ heap'.nodes[address']? = k.naive.lineNodes[r + more]? := by
  induction more generalizing heap address r with
  | zero => exact ⟨heap, address, rfl, Heap.Extends.refl heap, start⟩
  | succ more ih =>
    have own : k.naive.lineNodes[r + 1]? = some k.naive.lineNodes[r + 1] :=
      List.getElem?_eq_getElem (by omega)
    obtain ⟨before, runs, isBefore, isRuns, fills⟩ :=
      stored.between (r + 1) _ own (between 0 (Nat.zero_lt_succ _))
    rw [Nat.add_sub_cancel] at isBefore
    obtain ⟨place, isPlace, reads⟩ := reads_of_map (congrArg Contents.runs contents) isRuns
    have length : lineage.lineCounts[r + 1]? = some (k.naive.lineNodes[r + 1]).length := by
      rw [show lineage.lineCounts = k.naive.lineNodes.map List.length from
        congrArg Contents.lineCounts contents, List.getElem?_map, own, Option.map_some]
    let next_ : Heap := { heap with nodes := heap.nodes ++ [k.naive.lineNodes[r + 1]] }
    have extends_ : heap.Extends next_ := ⟨List.prefix_append _ _, List.prefix_refl _⟩
    have allocated : next_.nodes[heap.nodes.length]? = k.naive.lineNodes[r + 1]? := by
      rw [own]
      simp [next_]
    obtain ⟨heap', address', found, later, is⟩ := ih (contents_of_extends extends_ contents) allocated
      (by omega) fun step less => by
        have step_ := between (step + 1) (by omega)
        rwa [show r + 1 + (step + 1) = r + 1 + 1 + step by omega] at step_
    refine ⟨heap', address', ?_, extends_.trans later, ?_⟩
    · rw [nodesFrom, start, isBefore, isPlace, Option.bind_some, reads, length]
      simp only [Option.bind_eq_bind, Option.bind_some, applyRuns_of_fills fills]
      exact found
    · rw [is]
      congr 1
      omega

/-- The array of a revision is found, and reading it leaves what is on the heap. -/
theorem nodesAt_spec (stored : Stored k) (contents : lineage.contents heap = k.contents)
    (found : k.naive.lineNodes[r]? = some nodes) :
    ∃ heap' address, nodesAt heap lineage r = some (heap', address) ∧ heap.Extends heap' ∧
      heap'.nodes[address]? = some nodes := by
  have less : r < k.naive.lineNodes.length := (List.getElem?_eq_some_iff.mp found).1
  have revisions : lineage.revisions = k.naive.revisions := congrArg Contents.revisions contents
  have within : ¬ lineage.revisions.length ≤ r := by
    rw [revisions, ← stored.count]
    omega
  have aligned : r / checkpointEvery * checkpointEvery % checkpointEvery = 0 := Nat.mul_mod_left _ _
  have below : r / checkpointEvery * checkpointEvery ≤ r := Nat.div_mul_le_self _ _
  have base : k.naive.lineNodes[r / checkpointEvery * checkpointEvery]? =
      some k.naive.lineNodes[r / checkpointEvery * checkpointEvery] :=
    List.getElem?_eq_getElem (by omega)
  have checkpoint := stored.checkpoint _ _ base aligned
  rw [Nat.mul_div_cancel _ (by decide : 0 < checkpointEvery)] at checkpoint
  obtain ⟨address, isAddress, reads⟩ := reads_of_map (congrArg Contents.checkpoints contents) checkpoint
  obtain ⟨heap', address', is, extends_, last⟩ := nodesFrom_spec stored
    (r - r / checkpointEvery * checkpointEvery) contents (reads.trans base.symm) (by omega)
    fun step less => by
      unfold checkpointEvery at less ⊢
      omega
  refine ⟨heap', address', ?_, extends_, ?_⟩
  · rw [nodesAt, if_neg within]
    simp only [isAddress]
    exact is
  · rw [last, Nat.add_sub_cancel' below, found]

theorem nodesRead_spec (stored : Stored k) (contents : lineage.contents heap = k.contents)
    (found : k.naive.lineNodes[r]? = some nodes) : nodesRead heap lineage r = some nodes := by
  obtain ⟨heap', address, is, _, reads⟩ := nodesAt_spec stored contents found
  rw [nodesRead, is, Option.bind_some, reads]

theorem nodesRead_outside (contents : lineage.contents heap = k.contents)
    (outside : k.naive.revisions.length ≤ r) : nodesRead heap lineage r = none := by
  have revisions : lineage.revisions = k.naive.revisions := congrArg Contents.revisions contents
  rw [nodesRead, nodesAt, revisions, if_pos outside]
  rfl

/-! ### Continuing a lineage -/

-- The bytes of arrays are those of their values.
theorem sum_bytes {arrays values : List (List α)} (size : Nat)
    (same : places.map (arrays[·]?) = values.map some) :
    (places.map fun place => size * (arrays.getD place []).length).sum =
      (values.map fun value => size * value.length).sum := by
  have through : (places.map (arrays[·]?)).map (fun found => size * (found.getD []).length) =
      (values.map some).map fun found => size * (found.getD []).length := congrArg _ same
  rw [List.map_map, List.map_map] at through
  exact congrArg List.sum through

theorem columns_restored {table : NodeTable} (even : table.Even) (bytes : Nat) :
    Columns (max initialNodes table.parent.length - table.parent.length) (.restored table bytes)
      table where
  parent := rfl
  revision := by simp only [NodeStore.restored, widen, even.revision]
  line := by simp only [NodeStore.restored, widen, even.line]
  kind := by simp only [NodeStore.restored, widen, even.kind]
  depth := by simp only [NodeStore.restored, widen, even.depth]
  texts := rfl
  count := rfl

/-- A restored builder has on the heap what the first one had. -/
theorem restore_spec (stored : Stored k) (tracks : Tracks heap b k) (extends_ : heap.Extends heap')
    (some_ : k.naive.revisions.length ≠ 0) :
    ∃ heap'' b', restore heap' b.result k.previous = .ok (heap'', b') ∧ heap'.Extends heap'' ∧
      Tracks heap'' b' k := by
  have contents := contents_of_extends extends_ tracks.contents
  have even := tracks.store.even
  have revisions : b.result.revisions = k.naive.revisions := congrArg Contents.revisions contents
  have nodes : b.result.nodes = k.naive.nodes := congrArg Contents.nodes contents
  have less : k.naive.revisions.length - 1 < k.naive.lineNodes.length := by
    have := stored.count
    omega
  have before : k.naive.lineNodes[k.naive.revisions.length - 1]? = some k.before := by
    rw [Kept.before, List.getD_eq_getElem?_getD, List.getElem?_eq_getElem less, Option.getD_some]
  have counted : b.result.lineCounts[k.naive.revisions.length - 1]? = some k.previous.length := by
    rw [show b.result.lineCounts = k.naive.lineNodes.map List.length from
      congrArg Contents.lineCounts contents, List.getElem?_map, before, Option.map_some, stored.previous]
  obtain ⟨heap'', address, found, later, reads⟩ := nodesAt_spec stored contents before
  have contents' := contents_of_extends later contents
  simp only [restore, revisions, some_, counted, if_false, found, Option.getD_some, ne_eq,
    not_true_eq_false, nodes]
  have columns := columns_restored even
  refine ⟨heap'', _, rfl, later, ?_, ⟨⟨_, columns _⟩, even, ?_, ?_⟩, rfl, reads,
    getElem?_of_begins (extends_.trans later).runs tracks.noRuns, stored.count⟩
  · rw [← contents']
    simp only [Lineage.contents, Builder.result, Contents.mk.injEq]
    refine ⟨revisions.symm, trivial, trivial, trivial, ?_, trivial⟩
    exact ((columns _).used even).trans nodes.symm
  · change 0 < (widen _ _ _).length
    rw [widen, List.length_append, List.length_replicate]
    have : 0 < initialNodes := by decide
    omega
  · have checkpoints := sum_bytes 4 (congrArg Contents.checkpoints contents')
    have runs := sum_bytes 16 (congrArg Contents.runs contents')
    simp only [keptBytes, Kept.arrayBytes]
    rw [← checkpoints, ← runs, ← Nat.add_assoc]
    rfl

end Reading

end PrSearch.Source.Lineages
