import Mathlib.Data.List.Dedup
import PrSearch.Lib.Rows
import PrSearch.Source.TreePaths

/-! # Walking two trees

Two trees are walked side by side, directory by directory, and the leaves whose entries differ are
listed in the order of their paths. One call lists a page: it begins behind a cursor, it stops when
it is full and another change follows, and it stops before a directory when it has read as many as it
may and has a change to show.
-/
namespace PrSearch.Source

open Rows

abbrev Sha := List Char

inductive EntryType
  | blob
  | tree
  | commit
  deriving DecidableEq, Repr

structure TreeDiffEntry where
  name : Path
  type : EntryType
  mode : List Char
  sha : Sha
  size : Option Nat := none
  deriving DecidableEq, Repr

structure TreeDiffListing where
  entries : List TreeDiffEntry
  truncated : Bool

/-- What git knows of its trees: the names in a directory are distinct and no paths, and the
directories below a tree come to an end. -/
structure TreeDiffProvider where
  tree : Sha → TreeDiffListing
  distinct : ∀ sha, Keyed TreeDiffEntry.name (tree sha).entries
  named : ∀ sha, ∀ entry ∈ (tree sha).entries, entry.name ≠ [] ∧ slash ∉ entry.name
  depth : Sha → Nat
  descends : ∀ sha, ∀ entry ∈ (tree sha).entries, entry.type = .tree → depth entry.sha < depth sha

inductive ChangeStatus
  | added
  | removed
  | modified
  deriving DecidableEq, Repr

structure TreeDiffChange where
  path : Path
  status : ChangeStatus
  entry : Option TreeDiffEntry := none
  deriving DecidableEq, Repr

structure TreeDiffPage where
  changes : List TreeDiffChange
  after : Option Path
  incomplete : Bool
  treeCalls : Nat

structure TreeDiffOptions where
  after : Option Path
  limit : Nat
  entries : Bool := false
  maxTreeCalls : Option Nat := none

/-! ### Entries -/

/-- A blob and a submodule are leaves. -/
def TreeDiffEntry.isLeaf (entry : TreeDiffEntry) : Bool := entry.type ≠ .tree

def leafStatus (base head : Option TreeDiffEntry) : Option ChangeStatus :=
  match base.any TreeDiffEntry.isLeaf, head.any TreeDiffEntry.isLeaf with
  | true, true => some .modified
  | true, false => some .removed
  | false, true => some .added
  | false, false => none

def subtree (entry : Option TreeDiffEntry) : Option Sha :=
  entry.bind fun entry => if entry.type = .tree then some entry.sha else none

def sameEntry (base head : Option TreeDiffEntry) : Bool :=
  match base, head with
  | some base, some head => base.sha = head.sha && base.type = head.type && base.mode = head.mode
  | _, _ => false

/-- `prefix` and the name -/
def joinPath (directory name : Path) : Path :=
  if directory = [] then name else directory ++ slash :: name

/-! ### One call -/

/-- What the walk has found and read. -/
structure WalkState where
  changes : List TreeDiffChange := []
  incomplete : Bool := false
  treeCalls : Nat := 0

section Walk

variable (provider : TreeDiffProvider) (options : TreeDiffOptions)

def entriesOf (sha : Option Sha) : List TreeDiffEntry :=
  (sha.map fun sha => (provider.tree sha).entries).getD []

def listTree (sha : Option Sha) (state : WalkState) : WalkState :=
  match sha with
  | none => state
  | some sha =>
      { state with
        incomplete := state.incomplete || (provider.tree sha).truncated
        treeCalls := state.treeCalls + 1 }

def findEntry (entries : List TreeDiffEntry) (name : Path) : Option TreeDiffEntry :=
  entries.find? fun entry => entry.name = name

/-- The names of both directories, sorted. -/
def namesOf (base head : Option Sha) : List Path :=
  ((entriesOf provider base ++ entriesOf provider head).map TreeDiffEntry.name).dedup.insertionSort
    (· ≤ ·)

/-- As many directories are read as may be, and there is a change to show. -/
def exhausted (state : WalkState) : Bool :=
  options.maxTreeCalls.any (· ≤ state.treeCalls) && !state.changes.isEmpty

/-- The cursor is below the path. -/
def isBelow (path after : Path) : Bool := (path ++ [slash]).isPrefixOf after

/-- Whether an entry is passed over, and else whether a change of its own is shown. -/
def emits (path : Path) : Option Bool :=
  match options.after with
  | none => some true
  | some after =>
      if compareTreePaths path after = .lt ∧ isBelow path after = false then none
      else some (compareTreePaths path after = .gt)

def changeOf (path : Path) (base head : Option TreeDiffEntry) (status : ChangeStatus) :
    TreeDiffChange where
  path := path
  status := status
  entry := if options.entries then (if status = .removed then base else head) else none

/-- The walk through the names of one directory, with the walk through a subtree. Two entries that are
no directories have no subtrees, and then that walk does nothing. -/
def walkNames (walk : Path → Option Sha → Option Sha → WalkState → Bool × WalkState)
    (directory : Path) (base head : List TreeDiffEntry) :
    List Path → WalkState → Bool × WalkState
  | [], state => (false, state)
  | name :: names, state =>
      let path := joinPath directory name
      let baseEntry := findEntry base name
      let headEntry := findEntry head name
      let others := walkNames walk directory base head names
      if sameEntry baseEntry headEntry then others state
      else
        match emits options path with
        | none => others state
        | some emit =>
            match if emit then leafStatus baseEntry headEntry else none with
            | some status =>
                if state.changes.length = options.limit then (true, state)
                else
                  let state := { state with
                    changes := state.changes ++ [changeOf options path baseEntry headEntry status] }
                  match walk path (subtree baseEntry) (subtree headEntry) state with
                  | (true, state) => (true, state)
                  | (false, state) => others state
            | none =>
                match walk path (subtree baseEntry) (subtree headEntry) state with
                | (true, state) => (true, state)
                | (false, state) => others state

/-- `true` when it has stopped because more follows. `depth` is more than that of both trees. -/
def walk : Nat → Path → Option Sha → Option Sha → WalkState → Bool × WalkState
  | 0, _, _, _, state => (false, state)
  | depth + 1, directory, base, head, state =>
      if base = head then (false, state)
      else if exhausted options state then (true, state)
      else
        walkNames options (walk depth) directory (entriesOf provider base) (entriesOf provider head)
          (namesOf provider base head) (listTree provider head (listTree provider base state))

/-- More than the depth of both trees. -/
def depthOf (base head : Option Sha) : Nat :=
  max ((base.map fun sha => provider.depth sha + 1).getD 0)
    ((head.map fun sha => provider.depth sha + 1).getD 0)

inductive RangeError
  | limit
  | budget
  deriving DecidableEq, Repr

def walkTreeDiff (baseTree : Option Sha) (headTree : Sha) : Except RangeError TreeDiffPage :=
  if options.limit < 1 then .error .limit
  else if options.maxTreeCalls.any (· < 1) then .error .budget
  else
    let (more, state) := walk provider options (depthOf provider baseTree (some headTree)) []
      baseTree (some headTree) {}
    .ok {
      changes := state.changes
      after := if more then state.changes.getLast?.map TreeDiffChange.path else none
      incomplete := state.incomplete
      treeCalls := state.treeCalls }

end Walk

end PrSearch.Source
