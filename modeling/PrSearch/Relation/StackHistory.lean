import PrSearch.Relation.Derivation
import PrSearch.Relation.StackRows

/-! # The dry merge and the write

A reconciliation is told by what is found under each key afterwards: the desired row, or the row that
was there, detached if it is one of the child. The merge without a write finds the same under each
parent, and both lists are in the order of the parents. A row of a history is then found as the last
reconciliation that desired it left it, or as it came first.
-/
namespace PrSearch.Relation.StackRows

open Query (Text)
open Rows

variable {table settled : StackTable} {repositoryId childPrNumber : Nat}
  {desired : List StackDesired} {result : StackReconcileResult} {row : Row} {key : Key}

/-! ### What is found after a reconciliation -/

-- The condition of the update leaves a row only where the update would not change it.
theorem overwrite_desiredRow {stored : Row} {one : StackDesired}
    (same : stored.key = (desiredRow repositoryId childPrNumber one).key) :
    overwrite stored (desiredRow repositoryId childPrNumber one) =
      desiredRow repositoryId childPrNumber one := by
  obtain ⟨⟨child, parent, evidence, time, detached, origin⟩, repository⟩ := stored
  simp only [Row.key, desiredRow, StackDesired.row, Prod.mk.injEq] at same
  obtain ⟨rfl, rfl, rfl⟩ := same
  unfold overwrite
  split
  next => rfl
  next unchanged =>
    simp only [desiredRow, StackDesired.row, not_or, Bool.not_eq_true, not_not] at unchanged
    obtain ⟨rfl, rfl, rfl, rfl⟩ := unchanged
    rfl

theorem insertDesired_eq : insertDesired table (desired.map (desiredRow repositoryId childPrNumber)) =
    table.putAll (desired.map (desiredRow repositoryId childPrNumber)) := by
  induction desired generalizing table with
  | nil => rfl
  | cons first rest ih =>
    have put : table.merge overwrite key_overwrite (desiredRow repositoryId childPrNumber first) =
        table.put (desiredRow repositoryId childPrNumber first) :=
      Table.merge_eq_put fun _ _ same => overwrite_desiredRow same
    change insertDesired (table.merge overwrite key_overwrite _) _ = (table.put _).putAll _
    rw [put]
    exact ih

theorem isSome_reconcileStacks :
    (reconcileStacks table repositoryId childPrNumber desired).isSome ↔
      Accepted childPrNumber desired := by
  by_cases once : (desired.map StackDesired.parentPrNumber).Nodup
  · by_cases refused : ∃ one ∈ desired, ¬ PrCheck childPrNumber one.parentPrNumber
    · rw [reconcileStacks, if_neg (not_not.mpr once), if_pos refused]
      obtain ⟨one, member, not⟩ := refused
      exact iff_of_false (by simp) fun accepted => not (accepted.2 one member)
    · rw [reconcileStacks, if_neg (not_not.mpr once), if_neg refused]
      exact iff_of_true rfl ⟨once, by simpa using refused⟩
  · rw [reconcileStacks, if_pos once]
    exact iff_of_false (by simp) fun accepted => once accepted.1

/-- The table and the result of a reconciliation that does not throw. -/
theorem reconcileStacks_eq_some
    (did : reconcileStacks table repositoryId childPrNumber desired = some (settled, result)) :
    Accepted childPrNumber desired ∧
      settled = (table.putAll (desired.map (desiredRow repositoryId childPrNumber))).update
        (Row.settle repositoryId childPrNumber (desired.map StackDesired.parentPrNumber))
        (key_settle repositoryId childPrNumber (desired.map StackDesired.parentPrNumber)) ∧
      result.rows = listStacksOfChild settled repositoryId childPrNumber := by
  have some : (reconcileStacks table repositoryId childPrNumber desired).isSome := by
    rw [did]
    rfl
  have accepted := isSome_reconcileStacks.mp some
  refine ⟨accepted, ?_⟩
  rw [reconcileStacks, if_neg (not_not.mpr accepted.1),
    if_neg (by simpa using accepted.2), insertDesired_eq, Option.some.injEq, Prod.mk.injEq] at did
  obtain ⟨rfl, rfl⟩ := did
  exact ⟨rfl, rfl⟩

theorem key_of_ofChild (own : row.ofChild repositoryId childPrNumber) :
    row.key = (repositoryId, childPrNumber, row.parent) := by
  obtain ⟨rfl, rfl⟩ := own
  rfl

variable {parents : List Nat}

theorem settle_eq_self (kept : row.ofChild repositoryId childPrNumber → row.parent ∈ parents) :
    row.settle repositoryId childPrNumber parents = row := by
  refine if_neg fun falls => falls.2.2 (kept falls.1)

-- A row that is detached already is its own detached form.
theorem settle_eq_detach (own : row.ofChild repositoryId childPrNumber)
    (away : row.parent ∉ parents) : row.settle repositoryId childPrNumber parents = row.detach := by
  unfold Row.settle
  split
  next => rfl
  next stays =>
    have already : row.detached = true := by
      by_contra holds
      exact stays ⟨own, by simpa using holds, away⟩
    obtain ⟨⟨child, parent, evidence, time, detached, origin⟩, repository⟩ := row
    obtain rfl : detached = true := already
    rfl

theorem find?_desiredRow : ((desired.map (desiredRow repositoryId childPrNumber)).find? fun row =>
    row.key = key) =
      (desired.find? fun one => (repositoryId, childPrNumber, one.parentPrNumber) = key).map
        (desiredRow repositoryId childPrNumber) := by
  rw [List.find?_map]
  rfl

theorem nodup_desiredRow (once : (desired.map StackDesired.parentPrNumber).Nodup) :
    ((desired.map (desiredRow repositoryId childPrNumber)).map Row.key).Nodup := by
  rw [List.map_map]
  refine List.Nodup.of_map (fun key => key.2.2) ?_
  rw [List.map_map]
  exact once

-- No desired edge has the key of a row of another child.
theorem find?_desired_other {repository child parent : Nat}
    (other : ¬ (repository, child) = (repositoryId, childPrNumber)) :
    (desired.find? fun one =>
      (repositoryId, childPrNumber, one.parentPrNumber) = (repository, child, parent)) = none := by
  rw [List.find?_eq_none]
  intro one _ same
  simp only [decide_eq_true_eq, Prod.mk.injEq] at same
  exact other (Prod.ext same.1.symm same.2.1.symm)

/-- Under the keys of the child the desired row is found, or what was there, detached. Under any other
key nothing changes. -/
theorem find_reconciled
    (did : reconcileStacks table repositoryId childPrNumber desired = some (settled, result)) :
    settled.find key =
      if (key.1, key.2.1) = (repositoryId, childPrNumber) then
        ((desired.find? fun one => one.parentPrNumber = key.2.2).map
          (desiredRow repositoryId childPrNumber)).or ((table.find key).map Row.detach)
      else table.find key := by
  obtain ⟨⟨once, _⟩, rfl, _⟩ := reconcileStacks_eq_some did
  rw [Table.find_update, Table.find_putAll (nodup_desiredRow once), find?_desiredRow]
  obtain ⟨repository, child, parent⟩ := key
  split
  next own =>
    obtain ⟨rfl, rfl⟩ := Prod.mk.inj own
    simp only [Prod.mk.injEq, true_and]
    cases wanted : desired.find? fun one => one.parentPrNumber = parent with
    | some one =>
      -- the desired row is among the parents, and is not detached again
      have member := List.mem_of_find?_eq_some wanted
      have inside : one.parentPrNumber ∈ desired.map StackDesired.parentPrNumber :=
        List.mem_map_of_mem member
      rw [Option.map_some, Option.some_or, Option.some_or, Option.map_some]
      exact congrArg some (settle_eq_self fun _ => inside)
    | none =>
      simp only [Option.map_none, Option.none_or]
      refine Option.map_congr fun stored held => ?_
      obtain ⟨_, is⟩ := Table.find_eq_some.mp held
      simp only [Row.key, Prod.mk.injEq] at is
      refine settle_eq_detach ⟨is.1, is.2.1⟩ fun inside => ?_
      obtain ⟨one, member, same⟩ := List.mem_map.mp inside
      have none := List.find?_eq_none.mp wanted one member
      simp only [decide_eq_true_eq] at none
      exact none (same.trans is.2.2)
  next other =>
    rw [find?_desired_other other, Option.map_none, Option.none_or]
    -- the update concerns the rows of the child only
    cases held : table.find (repository, child, parent) with
    | none => rfl
    | some stored =>
      obtain ⟨_, is⟩ := Table.find_eq_some.mp held
      simp only [Row.key, Prod.mk.injEq] at is
      rw [Option.map_some, settle_eq_self]
      rintro ⟨rfl, rfl⟩
      exact absurd (Prod.ext is.1.symm is.2.1.symm) other

/-! ### The merge without a write -/

/-- The rows are those of the child, in any order. -/
def RowsOfChild (table : StackTable) (repositoryId childPrNumber : Nat) (existing : List Row) :
    Prop :=
  ∀ row, row ∈ existing ↔ row ∈ table.rows ∧ row.ofChild repositoryId childPrNumber

theorem rowsOfChild_listStacksOfChild : RowsOfChild table repositoryId childPrNumber
    (listStacksOfChild table repositoryId childPrNumber) := by
  intro row
  simp [listStacksOfChild, List.mem_insertionSort]

variable {existing : List Row} {parent : Nat}

theorem find?_existing (rows : RowsOfChild table repositoryId childPrNumber existing) :
    (existing.find? fun row => row.parent = parent) =
      table.find (repositoryId, childPrNumber, parent) := by
  cases found : existing.find? fun row => row.parent = parent with
  | none =>
    refine (Table.find_eq_none.mpr fun row member is => ?_).symm
    simp only [Row.key, Prod.mk.injEq] at is
    have inside := (rows row).mpr ⟨member, is.1, is.2.1⟩
    exact List.find?_eq_none.mp found row inside (decide_eq_true is.2.2)
  | some row =>
    obtain ⟨member, own⟩ := (rows row).mp (List.mem_of_find?_eq_some found)
    have same : row.parent = parent := by simpa using List.find?_some found
    refine (Table.find_eq_some.mpr ⟨member, ?_⟩).symm
    rw [key_of_ofChild own, same]

/-- The `Map` of `mergeStackRows` -/
def merged (repositoryId childPrNumber : Nat) (existing : List Row) (desired : List StackDesired) :
    Table Row.parent :=
  ((Table.empty : Table Row.parent).putAll
    (desired.map (desiredRow repositoryId childPrNumber))).putAllNew (existing.map Row.detach)

theorem find_merged (once : (desired.map StackDesired.parentPrNumber).Nodup) :
    (merged repositoryId childPrNumber existing desired).find parent =
      ((desired.find? fun one => one.parentPrNumber = parent).map
          (desiredRow repositoryId childPrNumber)).or
        ((existing.find? fun row => row.parent = parent).map Row.detach) := by
  have parents : ((desired.map (desiredRow repositoryId childPrNumber)).map Row.parent).Nodup := by
    rw [List.map_map]
    exact once
  rw [merged, Table.find_putAllNew, Table.find_putAll parents, List.find?_map, List.find?_map]
  have empty : (Table.empty : Table Row.parent).find parent = none := rfl
  rw [empty, Option.or_none]
  rfl

/-- The write and the merge find the same under each parent of the child. -/
theorem find_reconciled_eq_find_merged
    (did : reconcileStacks table repositoryId childPrNumber desired = some (settled, result))
    (rows : RowsOfChild table repositoryId childPrNumber existing) :
    settled.find (repositoryId, childPrNumber, parent) =
      (merged repositoryId childPrNumber existing desired).find parent := by
  rw [find_reconciled did, if_pos rfl, find_merged (reconcileStacks_eq_some did).1.1,
    find?_existing rows]

/-! ### The order of the rows -/

/-- Rows of different parents are in a strict order once they are sorted. -/
theorem pairwise_sorted {rows : List Row} (distinct : (rows.map Row.parent).Nodup) :
    (rows.insertionSort byParent).Pairwise fun left right => left.parent < right.parent := by
  have sorted := List.pairwise_insertionSort byParent rows
  have apart : (rows.insertionSort byParent).Pairwise fun left right =>
      left.parent ≠ right.parent := by
    have nodup := ((List.perm_insertionSort byParent rows).map Row.parent).nodup_iff.mpr distinct
    exact List.pairwise_map.mp nodup
  exact sorted.imp₂ (fun left right le ne => Nat.lt_of_le_of_ne le ne) apart

theorem nodup_parents (table : StackTable) (repositoryId childPrNumber : Nat) :
    ((table.rows.filter fun row => row.ofChild repositoryId childPrNumber).map Row.parent).Nodup := by
  have distinct : (table.rows.filter fun row => row.ofChild repositoryId childPrNumber).Nodup :=
    (List.Nodup.of_map Row.key table.keyed).filter _
  refine distinct.map_on fun left hl right hr same => ?_
  obtain ⟨leftInside, leftOwn⟩ := List.mem_filter.mp hl
  obtain ⟨rightInside, rightOwn⟩ := List.mem_filter.mp hr
  -- rows of one child and one parent have one key
  refine table.keyed.eq leftInside rightInside ?_
  rw [key_of_ofChild (of_decide_eq_true leftOwn), key_of_ofChild (of_decide_eq_true rightOwn), same]

theorem mem_listStacksOfChild : row ∈ listStacksOfChild table repositoryId childPrNumber ↔
    table.find (repositoryId, childPrNumber, row.parent) = some row := by
  rw [rowsOfChild_listStacksOfChild row, Table.find_eq_some]
  refine and_congr_right fun _ => ⟨key_of_ofChild, fun is => ?_⟩
  simp only [Row.key, Prod.mk.injEq] at is
  exact ⟨is.1, is.2.1⟩

theorem mem_mergeStackRows : row ∈ mergeStackRows repositoryId childPrNumber existing desired ↔
    (merged repositoryId childPrNumber existing desired).find row.parent = some row := by
  change row ∈ (merged _ _ existing desired).rows.insertionSort byParent ↔ _
  rw [List.mem_insertionSort, Table.find_eq_some]
  simp

instance : Std.Irrefl fun left right : Row => left.parent < right.parent :=
  ⟨fun _ => Nat.lt_irrefl _⟩

instance : Std.Antisymm fun left right : Row => left.parent < right.parent :=
  ⟨fun _ _ less more => absurd more (Nat.lt_asymm less)⟩

theorem reconciled_rows_eq_mergeStackRows
    (did : reconcileStacks table repositoryId childPrNumber desired = some (settled, result))
    (rows : RowsOfChild table repositoryId childPrNumber existing) :
    result.rows = mergeStackRows repositoryId childPrNumber existing desired := by
  rw [(reconcileStacks_eq_some did).2.2]
  have left : (listStacksOfChild settled repositoryId childPrNumber).Pairwise
      fun left right => left.parent < right.parent :=
    pairwise_sorted (nodup_parents settled repositoryId childPrNumber)
  have right : (mergeStackRows repositoryId childPrNumber existing desired).Pairwise
      fun left right => left.parent < right.parent :=
    pairwise_sorted (merged repositoryId childPrNumber existing desired).keyed
  refine left.eq_of_mem_iff right fun row => ?_
  rw [mem_listStacksOfChild, mem_mergeStackRows, find_reconciled_eq_find_merged did rows]

/-! The derivation of one repository works with the same rows, without the repository. -/

/-! A reconciliation keeps every row. -/

theorem reconcileStacks_keeps
    (did : reconcileStacks table repositoryId childPrNumber desired = some (settled, result))
    (inside : row ∈ table.rows) : ∃ kept ∈ settled.rows, kept.key = row.key := by
  have held := Table.find_key inside
  have found : settled.find row.key = _ := find_reconciled did
  rw [held] at found
  split at found
  next =>
    cases wanted : desired.find? fun one => one.parentPrNumber = row.key.2.2 with
    | some one =>
      rw [wanted, Option.map_some, Option.some_or] at found
      exact ⟨_, Table.find_eq_some.mp found⟩
    | none =>
      rw [wanted, Option.map_none, Option.none_or, Option.map_some] at found
      exact ⟨_, Table.find_eq_some.mp found⟩
  next => exact ⟨_, Table.find_eq_some.mp found⟩

theorem detached_of_not_desired
    (did : reconcileStacks table repositoryId childPrNumber desired = some (settled, result))
    (inside : row ∈ table.rows) (own : row.ofChild repositoryId childPrNumber)
    (away : ∀ one ∈ desired, one.parentPrNumber ≠ row.parentPrNumber) :
    row.detach ∈ result.rows := by
  rw [(reconcileStacks_eq_some did).2.2, mem_listStacksOfChild]
  have none : (desired.find? fun one => one.parentPrNumber = row.parent) = none := by
    rw [List.find?_eq_none]
    intro one member same
    exact away one member (of_decide_eq_true same)
  have held : table.find (repositoryId, childPrNumber, row.parent) = some row := by
    rw [← key_of_ofChild own]
    exact Table.find_key inside
  change settled.find (repositoryId, childPrNumber, row.parent) = _
  rw [find_reconciled did, if_pos rfl, none, held]
  rfl

theorem other_rows_unchanged
    (did : reconcileStacks table repositoryId childPrNumber desired = some (settled, result))
    (other : ¬ row.ofChild repositoryId childPrNumber) :
    row ∈ settled.rows ↔ row ∈ table.rows := by
  have found : settled.find row.key = _ := find_reconciled did
  have away : ¬ (row.key.1, row.key.2.1) = (repositoryId, childPrNumber) :=
    fun same => other (Prod.mk.inj same)
  rw [if_neg away] at found
  rw [← and_iff_left (a := row ∈ settled.rows) (rfl : row.key = row.key), ← Table.find_eq_some,
    found, Table.find_eq_some]
  simp

/-! ### Histories -/

theorem find_perform_reconcile :
    ((perform table (.reconcile repositoryId childPrNumber desired)).find key).map Row.content =
      ((Action.reconcile repositoryId childPrNumber desired).desires key).or
        ((table.find key).map Row.content) := by
  simp only [perform, Action.desires]
  cases did : reconcileStacks table repositoryId childPrNumber desired with
  | none =>
    have refused : ¬ Accepted childPrNumber desired := by
      intro accepted
      have some : (reconcileStacks table repositoryId childPrNumber desired).isSome :=
        isSome_reconcileStacks.mpr accepted
      simp [did] at some
    simp [refused]
  | some after =>
    obtain ⟨settled, result⟩ := after
    rw [if_pos (reconcileStacks_eq_some did).1, Option.map_some, Option.getD_some,
      find_reconciled did]
    obtain ⟨repository, child, parent⟩ := key
    split
    next own =>
      obtain ⟨rfl, rfl⟩ := Prod.mk.inj own
      simp only [Prod.mk.injEq, true_and, Option.map_or, Option.map_map]
      rfl
    next other =>
      rw [find?_desired_other other]
      rfl

theorem find_perform_import {rows : List StackImport} :
    ((perform table (.import_ rows)).find key).map Row.content =
      ((table.find key).map Row.content).or ((Action.import_ rows).imports key) := by
  simp only [perform, Action.imports, importStacks]
  by_cases taken : ∀ one ∈ rows, PrCheck one.childPrNumber one.parentPrNumber
  · rw [if_neg (by simpa using taken), if_pos taken, Option.map_some, Option.getD_some,
      Table.find_putAllNew, List.find?_map, Option.map_or, Option.map_map]
    rfl
  · rw [if_pos (by simpa using taken), if_neg taken]
    simp

/-- What one call leaves under a key. -/
theorem find_perform (action : Action) :
    ((perform table action).find key).map Row.content =
      (action.desires key).or (((table.find key).map Row.content).or (action.imports key)) := by
  cases action with
  | reconcile repositoryId childPrNumber desired =>
    rw [find_perform_reconcile, Action.imports, Option.or_none]
  | import_ rows => rw [find_perform_import, Action.desires, Option.none_or]

theorem lastDesired_cons (action : Action) (history : List Action) :
    lastDesired key (action :: history) = (lastDesired key history).or (action.desires key) := by
  rw [lastDesired, List.reverse_cons, List.findSome?_append, lastDesired, List.findSome?_singleton]

theorem firstImported_cons (action : Action) (history : List Action) :
    firstImported key (action :: history) = (action.imports key).or (firstImported key history) := by
  rw [firstImported, List.findSome?_cons]
  cases action.imports key with
  | none => rfl
  | some content => rfl

theorem find_run (history : List Action) : ((run table history).find key).map Row.content =
    (lastDesired key history).or
      (((table.find key).map Row.content).or (firstImported key history)) := by
  induction history generalizing table with
  | nil => simp [run, lastDesired, firstImported]
  | cons action rest ih =>
    change ((run (perform table action) rest).find key).map Row.content = _
    rw [ih, find_perform, lastDesired_cons, firstImported_cons]
    simp only [Option.or_assoc]

/-- A reconciliation returns exactly when its desired edges are accepted, and then the rows of the
merge, in their order. It removes no row, leaves those of the other children, and detaches each row
of the child that is not desired, with its evidence and its time. After any history a row says what
the last reconciliation that desired it said; if there is none, what it said before or its first
import. -/
theorem reconcileStacks_eq_mergeStackRows :
    (∀ (table : StackTable) (repositoryId childPrNumber : Nat) (desired : List StackDesired),
      (reconcileStacks table repositoryId childPrNumber desired).isSome ↔
        Accepted childPrNumber desired) ∧
    (∀ (table settled : StackTable) (repositoryId childPrNumber : Nat)
        (desired : List StackDesired) (result : StackReconcileResult) (existing : List Row),
      reconcileStacks table repositoryId childPrNumber desired = some (settled, result) →
      (∀ row, row ∈ existing ↔ row ∈ table.rows ∧ row.ofChild repositoryId childPrNumber) →
        result.rows = mergeStackRows repositoryId childPrNumber existing desired ∧
        result.rows = listStacksOfChild settled repositoryId childPrNumber ∧
        (∀ row ∈ table.rows, ∃ kept ∈ settled.rows, kept.key = row.key) ∧
        (∀ row, ¬ row.ofChild repositoryId childPrNumber →
          (row ∈ settled.rows ↔ row ∈ table.rows)) ∧
        ∀ row ∈ existing, (∀ one ∈ desired, one.parentPrNumber ≠ row.parentPrNumber) →
          { row with detached := true } ∈ result.rows) ∧
    ∀ (start : StackTable) (history : List Action) (key : Key),
      ((run start history).find key).map (fun row => (row.evidence, row.edgeCreatedAt)) =
        (lastDesired key history).or
          (((start.find key).map fun row => (row.evidence, row.edgeCreatedAt)).or
            (firstImported key history)) := by
  refine ⟨fun _ _ _ _ => isSome_reconcileStacks, ?_, fun _ history _ => find_run history⟩
  intro table settled repositoryId childPrNumber desired result existing did rows
  refine ⟨reconciled_rows_eq_mergeStackRows did rows, (reconcileStacks_eq_some did).2.2,
    fun row inside => reconcileStacks_keeps did inside,
    fun row other => other_rows_unchanged did other, fun row member away => ?_⟩
  obtain ⟨inside, own⟩ := (rows row).mp member
  exact detached_of_not_desired did inside own away

end PrSearch.Relation.StackRows
