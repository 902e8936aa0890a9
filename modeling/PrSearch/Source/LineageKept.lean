import Mathlib.Data.List.Induction
import PrSearch.Source.Lineage

/-! # What a compact lineage keeps

The naive lineage, and next to it the arrays of the checkpoints and of the runs, as values. Runs fill an
array from its start: each one begins where the runs before it have ended. A line that continues the last
run adds one value to those of the run, and one that does not is a run of one value.
-/
namespace PrSearch.Source.Lineages

open Lines (Row)

/-! ### Writing into zeros -/

section Writing

variable {α : Type*} {zero : α}

@[simp] theorem set_append_replicate (filled : List α) (more : Nat) (value : α) :
    (filled ++ List.replicate (more + 1) zero).set filled.length value =
      filled ++ [value] ++ List.replicate more zero := by
  rw [List.set_append_right _ _ (Nat.le_refl _), Nat.sub_self, List.replicate_succ, List.set_cons_zero,
    List.append_assoc, List.singleton_append]

-- Written one after the other, the values stand behind what has been written before.
theorem writeFrom_append_replicate (filled values : List α) (more : Nat) :
    writeFrom (filled ++ List.replicate (values.length + more) zero) filled.length values =
      filled ++ values ++ List.replicate more zero := by
  induction values generalizing filled with
  | nil => simp [writeFrom]
  | cons value values ih =>
    have room : (value :: values).length + more = values.length + more + 1 := by
      rw [List.length_cons]
      omega
    have next_ : filled.length + 1 = (filled ++ [value]).length := by simp
    rw [writeFrom, room, set_append_replicate, next_, ih, List.append_assoc filled, List.singleton_append]

end Writing

/-! ### Runs -/

/-- The values of a run. -/
def Run.values (previous : List Nat) (run : Run) : List Nat :=
  match run.kind with
  | .equal => (previous.drop run.source).take run.count
  | .new => List.range' run.source run.count

section Runs

variable {previous filled values : List Nat} {runs : List Run} {run last : Run} {value : Nat}

/-- The runs give these values, one run after the other. -/
inductive Fills (previous : List Nat) : List Run → List Nat → Prop
  | none : Fills previous [] []
  | more {runs : List Run} {filled : List Nat} {run : Run} (rest : Fills previous runs filled)
      (start : run.start = filled.length) (length : (run.values previous).length = run.count) :
      Fills previous (runs ++ [run]) (filled ++ run.values previous)

theorem applyRun_fill (start : run.start = filled.length) (more : Nat) :
    applyRun previous (filled ++ List.replicate ((run.values previous).length + more) 0) run =
      some (filled ++ run.values previous ++ List.replicate more 0) := by
  have written : writeFrom (filled ++ List.replicate ((run.values previous).length + more) 0)
      filled.length (run.values previous) = filled ++ run.values previous ++ List.replicate more 0 :=
    writeFrom_append_replicate filled (run.values previous) more
  unfold applyRun
  unfold Run.values at written ⊢
  split
  next equal =>
    simp only [equal] at written ⊢
    have room : run.start + ((previous.drop run.source).take run.count).length ≤
        (filled ++ List.replicate (((previous.drop run.source).take run.count).length + more) 0).length := by
      rw [List.length_append, List.length_replicate, start]
      omega
    rw [if_pos room, start, written]
  next new =>
    simp only [new] at written ⊢
    rw [start, written]

/-- Runs that fill an array give it back. -/
theorem Fills.apply (fills : Fills previous runs filled) (more : Nat) :
    runs.foldlM (applyRun previous) (List.replicate (filled.length + more) 0) =
      some (filled ++ List.replicate more 0) := by
  induction fills generalizing more with
  | none => simp
  | @more runs filled run rest start length ih =>
    have room : (filled ++ run.values previous).length + more =
        filled.length + ((run.values previous).length + more) := by
      rw [List.length_append, Nat.add_assoc]
    rw [List.foldlM_append, room, ih, Option.bind_eq_bind, Option.bind_some, List.foldlM_cons,
      applyRun_fill start]
    rfl

theorem applyRuns_of_fills (fills : Fills previous runs filled) :
    applyRuns previous runs filled.length = some filled := by
  have applied := fills.apply 0
  rw [Nat.add_zero, List.replicate_zero, List.append_nil] at applied
  exact applied

theorem Fills.inv (fills : Fills previous (runs ++ [last]) filled) :
    ∃ before, filled = before ++ last.values previous ∧ Fills previous runs before ∧
      last.start = before.length ∧ (last.values previous).length = last.count := by
  generalize all : runs ++ [last] = whole at fills
  cases fills with
  | none => simp at all
  | more rest start length =>
    obtain ⟨rfl, same⟩ := List.append_inj' all rfl
    obtain rfl := List.singleton_inj.mp same
    exact ⟨_, rfl, rest, start, length⟩

-- The run takes one value more.
theorem values_continue (length : (last.values previous).length = last.count)
    (kind : last.kind = run.kind) (source : last.source + last.count = run.source)
    (one : run.count = 1) (is : run.values previous = [value]) :
    Run.values previous { last with count := last.count + 1 } = last.values previous ++ [value] := by
  unfold Run.values at length is ⊢
  rw [← kind, ← source, one] at is
  cases own : last.kind with
  | equal =>
    simp only [own] at is length ⊢
    rw [← List.drop_drop] at is
    rw [List.take_add, is]
  | new =>
    simp only [own] at is ⊢
    rw [List.range'_1_concat]
    simpa using is

/-- A line more is filled. -/
theorem Fills.push (fills : Fills previous runs filled) (start : run.start = filled.length)
    (one : run.count = 1) (is : run.values previous = [value]) :
    Fills previous (pushRun runs run) (filled ++ [value]) := by
  have apart : Fills previous (runs ++ [run]) (filled ++ [value]) :=
    is ▸ Fills.more fills start (by rw [is, one]; rfl)
  unfold pushRun
  split
  next => exact apart
  next last found =>
    split
    next continues =>
      obtain ⟨kind, _, source⟩ := continues
      obtain ⟨init, rfl⟩ := List.getLast?_eq_some_iff.mp found
      obtain ⟨before, rfl, rest, begins, length⟩ := fills.inv
      have values := values_continue length kind source one is
      rw [List.dropLast_concat, List.append_assoc, ← values]
      refine Fills.more rest begins ?_
      rw [values, List.length_append, length]
      rfl
    next => exact apart

end Runs

/-! ### Values of a builder -/

structure Kept where
  naive : NaiveLineage
  previous : List Line
  checkpoints : List (List Nat)
  runs : List (List Run)
  approximatePairs : Nat

def Kept.start : Kept := ⟨.start, [], [], [], 0⟩

/-- What a row adds to the runs, when there are `count` nodes. -/
def rowRuns (runs : List Run) (count : Nat) (row : Row) : List Run :=
  match row.after with
  | none => runs
  | some after =>
      match row.kind with
      | .equal => pushRun runs ⟨.equal, after, 1, row.before.getD 0⟩
      | .change => pushRun runs ⟨.new, after, 1, count⟩

def keptRow (before : List Nat) (at_ : Nat) (lines : List Line) (s : NaiveRows × List Run)
    (row : Row) : NaiveRows × List Run :=
  (naiveRow before at_ lines s.1 row, rowRuns s.2 s.1.1.parent.length row)

/-- The nodes before the revision that comes next. -/
def Kept.before (k : Kept) : List Nat := k.naive.lineNodes.getD (k.naive.revisions.length - 1) []

def Kept.lines (diff : Diff) (k : Kept) (lines : List Line) : NaiveRows × List Run :=
  let at_ := k.naive.revisions.length
  let started : NaiveRows := (k.naive.nodes, List.replicate lines.length 0)
  if at_ = 0 then (naiveBaseline 0 lines started, [])
  else (diff at_ k.previous lines).rows.foldl (keptRow k.before at_ lines) (started, [])

def Kept.approximate (diff : Diff) (k : Kept) (lines : List Line) : Bool :=
  k.naive.revisions.length ≠ 0 && (diff k.naive.revisions.length k.previous lines).approximate

def Kept.add (diff : Diff) (k : Kept) (version : Version) : Kept :=
  let s := k.lines diff version.lines
  let checkpoint : Bool := k.naive.revisions.length % checkpointEvery = 0
  { naive := ⟨k.naive.revisions ++ [version.sha], k.naive.lineNodes ++ [s.1.2], s.1.1⟩
    previous := version.lines
    checkpoints := if checkpoint then k.checkpoints ++ [s.1.2] else k.checkpoints
    runs := k.runs ++ [if checkpoint then [] else s.2]
    approximatePairs :=
      if k.approximate diff version.lines then k.approximatePairs + 1 else k.approximatePairs }

def kept (diff : Diff) (versions : List Version) : Kept := versions.foldl (Kept.add diff) .start

section Kept

variable {diff : Diff} {k : Kept} {before : List Nat} {at_ : Nat} {lines : List Line}

theorem foldl_keptRow (rows : List Row) (s : NaiveRows × List Run) :
    (rows.foldl (keptRow before at_ lines) s).1 = rows.foldl (naiveRow before at_ lines) s.1 := by
  induction rows generalizing s with
  | nil => rfl
  | cons row rows ih => rw [List.foldl_cons, List.foldl_cons, ih, keptRow]

theorem length_naiveRow (s : NaiveRows) (row : Row) :
    (naiveRow before at_ lines s row).2.length = s.2.length := by
  unfold naiveRow
  split
  next => rfl
  next => split <;> exact List.length_set

theorem length_foldl_naiveRow (rows : List Row) (s : NaiveRows) :
    (rows.foldl (naiveRow before at_ lines) s).2.length = s.2.length := by
  induction rows generalizing s with
  | nil => rfl
  | cons row rows ih => rw [List.foldl_cons, ih, length_naiveRow]

theorem length_naiveBaseline (index : Nat) (s : NaiveRows) :
    (naiveBaseline index lines s).2.length = s.2.length := by
  induction lines generalizing index s with
  | nil => rfl
  | cons line lines ih =>
    rw [naiveBaseline, ih]
    exact List.length_set

/-- Every line has a node. -/
theorem length_naiveLines (diff : Diff) (naive : NaiveLineage) (previous lines : List Line) :
    (naiveLines diff naive previous lines).2.length = lines.length := by
  simp only [naiveLines]
  split
  next => rw [length_naiveBaseline, List.length_replicate]
  next => rw [length_foldl_naiveRow, List.length_replicate]

theorem lines_naive (diff : Diff) (k : Kept) (lines : List Line) :
    (k.lines diff lines).1 = naiveLines diff k.naive k.previous lines := by
  simp only [Kept.lines, naiveLines]
  split
  next => rfl
  next => exact foldl_keptRow _ _

theorem naive_add (k : Kept) (version : Version) :
    ((k.add diff version).naive, (k.add diff version).previous) =
      naiveVersion diff (k.naive, k.previous) version := by
  simp only [Kept.add, naiveVersion, lines_naive]

theorem kept_append (diff : Diff) (versions : List Version) (version : Version) :
    kept diff (versions ++ [version]) = (kept diff versions).add diff version := by
  simp [kept]

/-- The naive lineage is kept. -/
theorem naive_kept (diff : Diff) (versions : List Version) :
    (kept diff versions).naive = naiveLineage diff versions := by
  have both : ((kept diff versions).naive, (kept diff versions).previous) =
      versions.foldl (naiveVersion diff) (.start, []) := by
    induction versions using List.reverseRecOn with
    | nil => rfl
    | append_singleton versions version ih =>
      rw [kept_append, naive_add, ih, List.foldl_append]
      rfl
  exact congrArg Prod.fst both

end Kept

end PrSearch.Source.Lineages
