import PrSearch.Lib.Paging
import PrSearch.Source.TreeChanges

/-! # The pages of a tree diff

A walk finds an initial part of what lies beyond its cursor in the whole diff, and it only stops when
it has something to show. So one walk after another reads the whole diff.
-/
namespace PrSearch.Source

open Rows Paging

variable {state' : WalkState} {path directory : Path} {depth : Nat} {base head : Option Sha}

variable {change : TreeDiffChange} {after : Path}

/-! ### A walk finds an initial part of what is left -/

section Walk

variable {provider : TreeDiffProvider} {options : TreeDiffOptions} {state : WalkState}
  {expected : List TreeDiffChange} {result : Bool × WalkState}

/-- The change comes after the cursor. -/
def isBeyond (after : Path) (change : TreeDiffChange) : Bool :=
  compareTreePaths after change.path = .lt

/-- The walk has added an initial part of what is left, all of it unless it has stopped, and it only
stops with something to show. -/
structure Walked (options : TreeDiffOptions) (expected : List TreeDiffChange) (state : WalkState)
    (result : Bool × WalkState) : Prop where
  found : ∃ taken rest, left isBeyond expected options.after = taken ++ rest ∧
    result.2.changes = state.changes ++ taken ∧ (result.1 = false → rest = [])
  shows : result.1 = true → result.2.changes ≠ []

theorem Walked.nothing (none : left isBeyond expected options.after = []) :
    Walked options expected state (false, state) :=
  ⟨⟨[], [], by simp [none], by simp, fun _ => rfl⟩, by simp⟩

theorem Walked.stop (some : state.changes ≠ []) : Walked options expected state (true, state) :=
  ⟨⟨[], left isBeyond expected options.after, by simp, by simp, by simp⟩, fun _ => some⟩

-- A walk that goes on, and then another one.
theorem Walked.append {more : List TreeDiffChange} {result : Bool × WalkState}
    (first : Walked options expected state (false, state'))
    (second : Walked options more state' result) :
    Walked options (expected ++ more) state result := by
  obtain ⟨taken, rest, all, changes, ends⟩ := first.found
  obtain ⟨taken', rest', all', changes', ends'⟩ := second.found
  refine ⟨⟨taken ++ taken', rest', ?_, ?_, ends'⟩, second.shows⟩
  · rw [left_append, all, all', ends rfl]
    simp
  · rw [changes', changes]
    simp

theorem Walked.stopped (first : Walked options expected state (true, state'))
    (more : List TreeDiffChange) : Walked options (expected ++ more) state (true, state') := by
  obtain ⟨taken, rest, all, changes, _⟩ := first.found
  refine ⟨⟨taken, rest ++ left isBeyond more options.after, ?_, changes, by simp⟩, first.shows⟩
  rw [left_append, all, List.append_assoc]

-- A change that is shown.
theorem Walked.shown (is : left isBeyond [change] options.after = [change])
    (added : state'.changes = state.changes ++ [change]) :
    Walked options [change] state (false, state') :=
  ⟨⟨[change], [], by simp [is], added, fun _ => rfl⟩, by simp⟩

@[simp] theorem changes_listTree (sha : Option Sha) :
    (listTree provider sha state).changes = state.changes := by
  cases sha <;> rfl

-- Only the changes matter.
theorem Walked.congr (same : state'.changes = state.changes)
    (walked : Walked options expected state' result) : Walked options expected state result := by
  obtain ⟨⟨taken, rest, all, changes, ends⟩, shows⟩ := walked
  exact ⟨⟨taken, rest, all, same ▸ changes, ends⟩, shows⟩

/-- When an entry is passed over, all below it comes before the cursor too. -/
theorem before_of_passed (less : compareTreePaths path after = .lt)
    (apart : isBelow path after = false) (rest : Path) :
    compareTreePaths (path ++ slash :: rest) after = .lt := by
  induction path generalizing after with
  | nil =>
    cases after with
    | nil => simp [compareTreePaths] at less
    | cons unit after =>
      have other : slash ≠ unit := by
        rintro rfl
        simp [isBelow] at apart
      simp [compareTreePaths, other]
  | cons unit path ih =>
    cases after with
    | nil => simp [compareTreePaths] at less
    | cons unit' after =>
      rw [List.cons_append, compareTreePaths]
      rw [compareTreePaths] at less
      by_cases same : unit = unit'
      · subst same
        rw [if_pos rfl] at less ⊢
        exact ih less (by simpa [isBelow] using apart)
      · rw [if_neg same] at less ⊢
        exact less

theorem not_beyond (less : compareTreePaths path after = .lt) :
    compareTreePaths after path ≠ .lt := by
  rw [compareTreePaths_swap path after, less]
  decide

theorem left_passed {base head : Option TreeDiffEntry} (named : path ≠ [])
    (passed : emits options path = none) :
    left isBeyond (leafChange options path base head ++
      wholeDiff provider options depth path (subtree base) (subtree head)) options.after = [] := by
  unfold emits at passed
  cases cursor : options.after with
  | none => simp [cursor] at passed
  | some after =>
    simp only [cursor, ite_eq_left_iff, reduceCtorEq, imp_false, not_not] at passed
    refine List.filter_eq_nil_iff.mpr fun change member => ?_
    simp only [isBeyond, decide_eq_true_eq]
    rcases List.mem_append.mp member with own | below
    · rw [path_of_mem_leafChange own]
      exact not_beyond passed.1
    · obtain ⟨rest, is⟩ := below_of_mem_wholeDiff named below
      rw [is]
      exact not_beyond (before_of_passed passed.1 passed.2 rest)

-- An entry that is not passed over shows its own change when it comes after the cursor.
theorem left_own {emit : Bool} (is : emits options path = some emit) (own : change.path = path) :
    left isBeyond [change] options.after = if emit then [change] else [] := by
  unfold emits at is
  cases cursor : options.after with
  | none =>
    simp only [cursor, Option.some.injEq] at is
    subst is
    rfl
  | some after =>
    simp only [cursor] at is
    split at is
    next => cases is
    next =>
      obtain rfl := Option.some.inj is
      rw [left, List.filter_singleton, isBeyond, own]
      simp only [compareTreePaths_gt_iff, Bool.cond_eq_ite]

/-- What lies at a name and below it. -/
def nameDiff (provider : TreeDiffProvider) (options : TreeDiffOptions) (depth : Nat)
    (directory : Path) (base head : Option Sha) (name : Path) : List TreeDiffChange :=
  leafChange options (joinPath directory name) (findEntry (entriesOf provider base) name)
      (findEntry (entriesOf provider head) name) ++
    wholeDiff provider options depth (joinPath directory name)
      (subtree (findEntry (entriesOf provider base) name))
      (subtree (findEntry (entriesOf provider head) name))

/-- A walk that was not stopped goes on. -/
def goOn (next : WalkState → Bool × WalkState) : Bool × WalkState → Bool × WalkState
  | (true, state) => (true, state)
  | (false, state) => next state

/-- The walk through the names of a directory, when the walks through the subtrees are right. -/
theorem walkNames_walked {walk : Path → Option Sha → Option Sha → WalkState → Bool × WalkState}
    (some : 1 ≤ options.limit) {names : List Path} (named : ∀ name ∈ names, name ≠ [])
    (inner : ∀ name state, Walked options
      (wholeDiff provider options depth (joinPath directory name)
        (subtree (findEntry (entriesOf provider base) name))
        (subtree (findEntry (entriesOf provider head) name))) state
      (walk (joinPath directory name) (subtree (findEntry (entriesOf provider base) name))
        (subtree (findEntry (entriesOf provider head) name)) state)) :
    Walked options (names.flatMap (nameDiff provider options depth directory base head)) state
      (walkNames options walk directory (entriesOf provider base) (entriesOf provider head) names
        state) := by
  induction names generalizing state with
  | nil => exact .nothing (by cases options.after <;> rfl)
  | cons name names ih =>
    have rest (state : WalkState) : Walked options
        (names.flatMap (nameDiff provider options depth directory base head)) state
        (walkNames options walk directory (entriesOf provider base) (entriesOf provider head) names
          state) := ih fun other member => named other (List.mem_cons_of_mem _ member)
    have below := inner name
    rw [List.flatMap_cons, nameDiff]
    simp only [walkNames]
    generalize findEntry (entriesOf provider base) name = baseEntry at below ⊢
    generalize findEntry (entriesOf provider head) name = headEntry at below ⊢
    have path_ne := joinPath_ne_nil directory (named name List.mem_cons_self)
    split
    next same =>
      -- equal entries have nothing to show
      have none : leafChange options (joinPath directory name) baseEntry headEntry ++
          wholeDiff provider options depth (joinPath directory name) (subtree baseEntry)
            (subtree headEntry) = [] := by
        rw [leafChange, if_pos same, subtree_of_sameEntry same, wholeDiff_self]
        rfl
      rw [none]
      exact rest state
    next other =>
      split
      next passed =>
        refine (Walked.nothing ?_).append (rest state)
        exact left_passed path_ne passed
      next emit emitted =>
        -- the subtree, and then the other names
        have further (state : WalkState) : Walked options
            (wholeDiff provider options depth (joinPath directory name) (subtree baseEntry)
              (subtree headEntry) ++
                names.flatMap (nameDiff provider options depth directory base head)) state
            (goOn (walkNames options walk directory (entriesOf provider base)
              (entriesOf provider head) names)
              (walk (joinPath directory name) (subtree baseEntry) (subtree headEntry) state)) := by
          have first := below state
          unfold goOn
          split
          next state' is =>
            rw [is] at first
            exact first.stopped _
          next state' is =>
            rw [is] at first
            exact first.append (rest state')
        rw [List.append_assoc, leafChange, if_neg other]
        split
        next status is =>
          obtain ⟨rfl, leaf⟩ : emit = true ∧ leafStatus baseEntry headEntry = .some status := by
            cases emit <;> simp_all
          have own : left isBeyond
              [changeOf options (joinPath directory name) baseEntry headEntry status]
                options.after = [_] := left_own emitted rfl
          rw [leaf]
          split
          next full =>
            refine .stop fun none => ?_
            rw [none] at full
            simp only [List.length_nil] at full
            omega
          next => exact (Walked.shown own rfl).append (further _)
        next is =>
          have none : left isBeyond ((leafStatus baseEntry headEntry).map
              (changeOf options (joinPath directory name) baseEntry headEntry)).toList
                options.after = [] := by
            cases leaf : leafStatus baseEntry headEntry with
            | none => cases options.after <;> rfl
            | some status =>
              obtain rfl : emit = false := by
                cases emit <;> simp_all
              exact left_own emitted rfl
          exact (Walked.nothing none).append (further state)

theorem walk_walked (some : 1 ≤ options.limit) (within : Within provider depth base head) :
    Walked options (wholeDiff provider options depth directory base head) state
      (walk provider options depth directory base head state) := by
  induction depth generalizing directory base head state with
  | zero => exact .nothing (by cases options.after <;> rfl)
  | succ depth ih =>
    rw [walk]
    split
    next same =>
      subst same
      exact .nothing (by rw [wholeDiff_self]; cases options.after <;> rfl)
    next =>
      split
      next spent =>
        refine .stop fun none => ?_
        simp [exhausted, none] at spent
      next =>
        have read : (listTree provider head (listTree provider base state)).changes =
            state.changes := by simp
        refine Walked.congr read (walkNames_walked some ?_ ?_)
        · exact fun name member => (named_of_mem_namesOf member).1
        · exact fun name state => ih (within.subtree name)

end Walk

/-! ### All pages -/

section Pages

/-- The changes of a page and its cursor. -/
def fetchPage (provider : TreeDiffProvider) (options : TreeDiffOptions) (baseTree : Option Sha)
    (headTree : Sha) (after : Option Path) : List TreeDiffChange × Option Path :=
  match walkTreeDiff provider { options with after } baseTree headTree with
  | .ok page => (page.changes, page.after)
  | .error _ => ([], none)

variable {provider : TreeDiffProvider} {options : TreeDiffOptions} {baseTree : Option Sha}
  {headTree : Sha}

-- The cursor is no part of a change.
theorem wholeDiff_after (after : Option Path) :
    wholeDiff provider { options with after } depth directory base head =
      wholeDiff provider options depth directory base head := by
  induction depth generalizing directory base head with
  | zero => rfl
  | succ depth ih =>
    simp only [wholeDiff, ih]
    rfl

theorem isPage_fetchPage (provider : TreeDiffProvider) (baseTree : Option Sha) (headTree : Sha)
    (someLimit : 1 ≤ options.limit) (someBudget : ∀ calls ∈ options.maxTreeCalls, 1 ≤ calls) (after : Option Path) :
    IsPage TreeDiffChange.path
      (left isBeyond (wholeDiff provider options (depthOf provider baseTree (some headTree)) []
        baseTree (some headTree)) after)
      (fetchPage provider options baseTree headTree after).1
      (fetchPage provider options baseTree headTree after).2 := by
  have budget : options.maxTreeCalls.any (· < 1) = false := by
    cases calls : options.maxTreeCalls with
    | none => rfl
    | some most => simpa using Nat.ne_of_gt (someBudget most calls)
  have walked : Walked { options with after }
      (wholeDiff provider options (depthOf provider baseTree (some headTree)) [] baseTree
        (some headTree)) {}
      (walk provider { options with after } (depthOf provider baseTree (some headTree)) [] baseTree
        (some headTree) {}) := by
    rw [← wholeDiff_after after]
    exact walk_walked someLimit within_depthOf
  rw [fetchPage, walkTreeDiff, if_neg (Nat.not_lt.mpr someLimit), if_neg (by rw [budget]; decide)]
  obtain ⟨⟨taken, rest, all, changes, ends⟩, shows⟩ := walked
  generalize walk provider { options with after } (depthOf provider baseTree (some headTree)) []
    baseTree (some headTree) {} = result at changes ends shows
  obtain ⟨more, state⟩ := result
  have page : state.changes = taken := by simpa using changes
  refine ⟨⟨rest, ?_⟩, fun none => ?_, fun cursor is => ?_⟩
  · exact (congrArg (· ++ rest) page).trans all.symm
  · cases more with
    | false =>
      rw [all, ends rfl, List.append_nil]
      exact page
    | true =>
      -- a walk that has stopped has something to show
      cases last : state.changes.getLast? with
      | none => exact absurd (List.getLast?_eq_none_iff.mp last) (shows rfl)
      | some change => simp [last] at none
  · cases more with
    | false => simp at is
    | true => simpa using is

theorem sorted_wholeDiff :
    Sorted TreeDiffChange.path isBeyond
      (wholeDiff provider options depth directory base head) := by
  refine ⟨fun change _ => by simp [isBeyond], pairwise_wholeDiff.imp fun less => ?_⟩
  exact ⟨decide_eq_true less, decide_eq_false (not_beyond less)⟩

/-- Read page by page, a tree diff ends, and its pages together list what has become of each leaf that
is not the same in both trees, once and in the order of the paths, which is that of their segments. -/
theorem pages_are_the_diff (provider : TreeDiffProvider) (options : TreeDiffOptions)
    (baseTree : Option Sha) (headTree : Sha) (someLimit : 1 ≤ options.limit)
    (someBudget : ∀ calls ∈ options.maxTreeCalls, 1 ≤ calls) :
    (∃ calls pages,
      read (fetchPage provider options baseTree headTree) calls none = some pages ∧
        (∀ change, change ∈ pages.flatten ↔
          IsChange provider options baseTree (some headTree) change) ∧
        pages.flatten.Pairwise fun earlier later =>
          compareTreePaths earlier.path later.path = .lt) ∧
      OrdersPaths compareTreePaths := by
  obtain ⟨pages, reads, whole⟩ := read_all sorted_wholeDiff fun after =>
    isPage_fetchPage provider baseTree headTree someLimit someBudget after
  refine ⟨⟨_, pages, reads, fun change => ?_, ?_⟩, ordersPaths⟩
  · rw [whole]
    exact mem_wholeDiff_root within_depthOf
  · rw [whole]
    exact pairwise_wholeDiff

local instance someCodeUnit : NeZero (2 ^ 16) := inferInstance

/-- A file `a`, and a directory `d` with a file `x` in it. -/
def smallTree (sha : Sha) : TreeDiffListing :=
  if sha = ['h'] then
    ⟨[⟨[0x61], .blob, "100644".toList, ['1'], none⟩, ⟨[0x64], .tree, "040000".toList, ['s'], none⟩],
      false⟩
  else if sha = ['s'] then ⟨[⟨[0x78], .blob, "100644".toList, ['2'], none⟩], false⟩
  else ⟨[], false⟩

def smallProvider : TreeDiffProvider where
  tree := smallTree
  distinct sha := by
    unfold smallTree
    split
    · decide
    · split <;> decide
  named sha := by
    unfold smallTree
    split
    · decide
    · split <;> decide
  depth sha := if sha = ['h'] then 1 else 0
  descends sha := by
    unfold smallTree
    split
    next is =>
      subst is
      decide
    next => split <;> decide

theorem small_pages_are_the_diff :
    (∃ calls pages,
      read (fetchPage smallProvider ⟨none, 1, true, some 1⟩ none ['h']) calls none = some pages ∧
        (∀ change, change ∈ pages.flatten ↔
          IsChange smallProvider ⟨none, 1, true, some 1⟩ none (some ['h']) change) ∧
        pages.flatten.Pairwise fun earlier later =>
          compareTreePaths earlier.path later.path = .lt) ∧
      OrdersPaths compareTreePaths :=
  pages_are_the_diff smallProvider ⟨none, 1, true, some 1⟩ none ['h'] (by decide) (by decide)

end Pages

end PrSearch.Source
