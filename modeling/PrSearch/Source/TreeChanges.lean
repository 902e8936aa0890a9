import PrSearch.Source.TreeDiff

/-! # What two trees differ in

The diff of two trees as a whole: all leaves in the order of the paths, without a cursor, a limit or a
budget, and without leaving out equal subtrees. It says of each path what has become of the leaf
there, in the order of the paths.
-/
namespace PrSearch.Source

open Rows

/-! ### What two trees differ in -/

section Meaning

variable (provider : TreeDiffProvider)

/-- The entry at the end of a way through the directories. -/
def entryAt : Option Sha → List Path → Option TreeDiffEntry
  | _, [] => none
  | sha, [name] => findEntry (entriesOf provider sha) name
  | sha, name :: rest => entryAt (subtree (findEntry (entriesOf provider sha) name)) rest

/-- The blob or submodule with this path. -/
def leafAt (root : Option Sha) (path : Path) : Option TreeDiffEntry :=
  (entryAt provider root (segments path)).filter TreeDiffEntry.isLeaf

/-- What has become of a leaf. -/
def fate : Option TreeDiffEntry → Option TreeDiffEntry → Option ChangeStatus
  | none, none => none
  | none, some _ => some .added
  | some _, none => some .removed
  | some base, some head =>
      if base.sha = head.sha ∧ base.type = head.type ∧ base.mode = head.mode then none
      else some .modified

/-- A change says what has become of the leaf with its path. -/
def IsChange (options : TreeDiffOptions) (baseTree headTree : Option Sha)
    (change : TreeDiffChange) : Prop :=
  ∃ status ∈ fate (leafAt provider baseTree change.path) (leafAt provider headTree change.path),
    change = changeOf options change.path (leafAt provider baseTree change.path)
      (leafAt provider headTree change.path) status

end Meaning

variable {path name : Path} {baseEntry headEntry : Option TreeDiffEntry} {sha : Option Sha}

variable {status : ChangeStatus} {entry : TreeDiffEntry} {way : List Path}

/-! ### The whole diff -/

section Whole

variable (provider : TreeDiffProvider) (options : TreeDiffOptions)

/-- The change of the entry itself. -/
def leafChange (path : Path) (base head : Option TreeDiffEntry) : List TreeDiffChange :=
  if sameEntry base head then []
  else ((leafStatus base head).map (changeOf options path base head)).toList

def wholeDiff : Nat → Path → Option Sha → Option Sha → List TreeDiffChange
  | 0, _, _, _ => []
  | depth + 1, directory, base, head =>
      (namesOf provider base head).flatMap fun name =>
        let path := joinPath directory name
        let baseEntry := findEntry (entriesOf provider base) name
        let headEntry := findEntry (entriesOf provider head) name
        leafChange options path baseEntry headEntry ++
          wholeDiff depth path (subtree baseEntry) (subtree headEntry)

variable {provider options} {depth : Nat} {directory : Path} {base head : Option Sha}
  {change : TreeDiffChange}

theorem mem_wholeDiff_succ : change ∈ wholeDiff provider options (depth + 1) directory base head ↔
    ∃ name ∈ namesOf provider base head,
      change ∈ leafChange options (joinPath directory name)
          (findEntry (entriesOf provider base) name) (findEntry (entriesOf provider head) name) ∨
        change ∈ wholeDiff provider options depth (joinPath directory name)
          (subtree (findEntry (entriesOf provider base) name))
          (subtree (findEntry (entriesOf provider head) name)) := by
  simp only [wholeDiff, List.mem_flatMap, List.mem_append]

theorem mem_leafChange :
    change ∈ leafChange options path baseEntry headEntry ↔ sameEntry baseEntry headEntry = false ∧
      ∃ status ∈ leafStatus baseEntry headEntry,
        changeOf options path baseEntry headEntry status = change := by
  unfold leafChange
  split
  next same => simp [same]
  next other => simp [other]

@[simp] theorem path_changeOf : (changeOf options path baseEntry headEntry status).path = path := rfl

theorem path_of_mem_leafChange (member : change ∈ leafChange options path baseEntry headEntry) :
    change.path = path := by
  obtain ⟨_, status, _, rfl⟩ := mem_leafChange.mp member
  rfl

-- Equal entries have the same subtree.
theorem subtree_of_sameEntry (same : sameEntry baseEntry headEntry = true) :
    subtree baseEntry = subtree headEntry := by
  cases baseEntry with
  | none => cases headEntry <;> simp [sameEntry] at same
  | some b =>
    cases headEntry with
    | none => simp [sameEntry] at same
    | some h =>
      simp only [sameEntry, Bool.and_eq_true, decide_eq_true_eq] at same
      simp [subtree, same.1.1, same.1.2]

/-- A tree does not differ from itself. -/
theorem wholeDiff_self (sha : Option Sha) :
    wholeDiff provider options depth directory sha sha = [] := by
  induction depth generalizing directory sha with
  | zero => rfl
  | succ depth ih =>
    refine List.eq_nil_iff_forall_not_mem.mpr fun change member => ?_
    obtain ⟨name, _, own | below⟩ := mem_wholeDiff_succ.mp member
    · cases found : findEntry (entriesOf provider sha) name <;>
        simp [found, leafChange, leafStatus, sameEntry] at own
    · simp [ih] at below

theorem joinPath_ne_nil (directory : Path) (named : name ≠ []) : joinPath directory name ≠ [] := by
  unfold joinPath
  split <;> simp [named]

theorem joinPath_of_ne_nil (is : directory ≠ []) (name : Path) :
    joinPath directory name = directory ++ slash :: name := if_neg is

theorem findEntry_eq_some :
    findEntry (entriesOf provider sha) name = some entry ↔
      entry ∈ entriesOf provider sha ∧ entry.name = name := by
  cases sha with
  | none => simp [findEntry, entriesOf]
  | some sha => exact (provider.distinct sha).find?_eq_some

theorem named_of_mem (member : entry ∈ entriesOf provider sha) :
    entry.name ≠ [] ∧ slash ∉ entry.name := by
  cases sha with
  | none => simp [entriesOf] at member
  | some sha => exact provider.named sha entry member

theorem mem_namesOf :
    name ∈ namesOf provider base head ↔
    ∃ entry, (entry ∈ entriesOf provider base ∨ entry ∈ entriesOf provider head) ∧
      entry.name = name := by
  simp [namesOf, or_and_right, exists_or]

theorem named_of_mem_namesOf (member : name ∈ namesOf provider base head) :
    name ≠ [] ∧ slash ∉ name := by
  obtain ⟨entry, inside, rfl⟩ := mem_namesOf.mp member
  exact inside.elim named_of_mem named_of_mem

/-- What is found in a directory has a path below it. -/
theorem below_of_mem_wholeDiff (is : directory ≠ [])
    (member : change ∈ wholeDiff provider options depth directory base head) :
    ∃ rest, change.path = directory ++ slash :: rest := by
  induction depth generalizing directory base head with
  | zero => simp [wholeDiff] at member
  | succ depth ih =>
    obtain ⟨name, _, own | below⟩ := mem_wholeDiff_succ.mp member
    · exact ⟨name, (path_of_mem_leafChange own).trans (joinPath_of_ne_nil is name)⟩
    · have joined := joinPath_of_ne_nil is name
      obtain ⟨rest, path⟩ := ih (by simp [joined]) below
      exact ⟨name ++ slash :: rest, by simp [path, joined]⟩

-- The path of a name and the paths below it begin with the name.
theorem start_of_mem (named : name ≠ [])
    (member : change ∈ leafChange options (joinPath directory name)
        (findEntry (entriesOf provider base) name) (findEntry (entriesOf provider head) name) ∨
      change ∈ wholeDiff provider options depth (joinPath directory name)
        (subtree (findEntry (entriesOf provider base) name))
        (subtree (findEntry (entriesOf provider head) name))) :
    ∃ rest, change.path = joinPath directory name ++ rest ∧
      (rest = [] ∨ rest.head? = some slash) := by
  rcases member with own | below
  · exact ⟨[], by simp [path_of_mem_leafChange own], .inl rfl⟩
  · obtain ⟨rest, path⟩ := below_of_mem_wholeDiff (joinPath_ne_nil _ named) below
    exact ⟨slash :: rest, path, .inr rfl⟩

theorem pairwise_namesOf : (namesOf provider base head).Pairwise (· < ·) := by
  have sorted : (namesOf provider base head).Pairwise (· ≤ ·) := List.pairwise_insertionSort _ _
  have distinct : (namesOf provider base head).Nodup :=
    (List.perm_insertionSort _ _).nodup_iff.mpr (List.nodup_dedup _)
  exact (sorted.and distinct).imp fun both => lt_of_le_of_ne both.1 both.2

/-- The whole diff is in the order of the paths. -/
theorem pairwise_wholeDiff : (wholeDiff provider options depth directory base head).Pairwise
    fun earlier later => compareTreePaths earlier.path later.path = .lt := by
  induction depth generalizing directory base head with
  | zero => exact List.Pairwise.nil
  | succ depth ih =>
    refine List.pairwise_flatMap.mpr ⟨fun name member => ?_, ?_⟩
    · have named := named_of_mem_namesOf member
      refine List.pairwise_append.mpr ⟨?_, ih, fun own first below second => ?_⟩
      · unfold leafChange
        split
        · exact List.Pairwise.nil
        · cases leafStatus (findEntry (entriesOf provider base) name)
            (findEntry (entriesOf provider head) name) <;> simp
      · obtain ⟨rest, path⟩ := below_of_mem_wholeDiff (joinPath_ne_nil _ named.1) second
        rw [path_of_mem_leafChange first, path]
        exact ancestor_first _ _
    · refine (List.Pairwise.and_mem.mp pairwise_namesOf).imp ?_
      rintro name name' ⟨member, member', less⟩ first inside second inside'
      obtain ⟨named, plain⟩ := named_of_mem_namesOf member
      obtain ⟨named', plain'⟩ := named_of_mem_namesOf member'
      obtain ⟨rest, path, below⟩ := start_of_mem named (List.mem_append.mp inside)
      obtain ⟨rest', path', below'⟩ := start_of_mem named' (List.mem_append.mp inside')
      have names := below_of_lt plain plain' less rest rest' below below'
      rw [path, path']
      by_cases is : directory = []
      · simpa [is, joinPath] using names
      · have same := compareTreePaths_append (directory ++ [slash]) (name ++ rest) (name' ++ rest')
        simp only [joinPath_of_ne_nil is]
        simpa using same.trans names

/-! ### The whole diff says what has become of the leaves -/

/-- Both trees are less deep. -/
def Within (provider : TreeDiffProvider) (depth : Nat) (base head : Option Sha) : Prop :=
  (∀ sha ∈ base, provider.depth sha < depth) ∧ ∀ sha ∈ head, provider.depth sha < depth

theorem within_depthOf : Within provider (depthOf provider base head) base head := by
  constructor
  · rintro sha is
    obtain rfl := Option.mem_def.mp is
    exact Nat.lt_of_lt_of_le (Nat.lt_succ_self _) (Nat.le_max_left _ _)
  · rintro sha is
    obtain rfl := Option.mem_def.mp is
    exact Nat.lt_of_lt_of_le (Nat.lt_succ_self _) (Nat.le_max_right _ _)

theorem depth_subtree (within : ∀ tree ∈ sha, provider.depth tree < depth + 1) :
    ∀ tree ∈ subtree (findEntry (entriesOf provider sha) name), provider.depth tree < depth := by
  intro tree is
  obtain ⟨entry, found, isTree⟩ := Option.bind_eq_some_iff.mp is
  split at isTree
  next type =>
    obtain rfl := Option.some.inj isTree
    obtain ⟨member, _⟩ := findEntry_eq_some.mp found
    cases sha with
    | none => simp [entriesOf] at member
    | some root =>
      have less := provider.descends root entry member type
      exact Nat.lt_of_lt_of_le less (Nat.lt_succ_iff.mp (within root rfl))
  next => simp at isTree

theorem Within.subtree (within : Within provider (depth + 1) base head) (name : Path) :
    Within provider depth (subtree (findEntry (entriesOf provider base) name))
      (subtree (findEntry (entriesOf provider head) name)) :=
  ⟨depth_subtree within.1, depth_subtree within.2⟩

@[simp] theorem entryAt_none (way : List Path) : entryAt provider none way = none := by
  induction way with
  | nil => rfl
  | cons name rest ih =>
    cases rest with
    | nil => rfl
    | cons next rest => exact ih

theorem entryAt_cons {rest : List Path} (more : rest ≠ []) :
    entryAt provider sha (name :: rest) =
      entryAt provider (subtree (findEntry (entriesOf provider sha) name)) rest := by
  cases rest with
  | nil => exact absurd rfl more
  | cons next rest => rfl

/-- The status of a leaf is what has become of it. -/
theorem fate_of_leaves (baseEntry headEntry : Option TreeDiffEntry) :
    fate (baseEntry.filter TreeDiffEntry.isLeaf) (headEntry.filter TreeDiffEntry.isLeaf) =
      if sameEntry baseEntry headEntry then none else leafStatus baseEntry headEntry := by
  cases baseEntry with
  | none =>
    cases headEntry with
    | none => rfl
    | some h => cases leaf : h.isLeaf <;> simp [fate, sameEntry, leafStatus, Option.filter, leaf]
  | some b =>
    cases headEntry with
    | none => cases leaf : b.isLeaf <;> simp [fate, sameEntry, leafStatus, Option.filter, leaf]
    | some h =>
      cases leaf : b.isLeaf <;> cases leaf' : h.isLeaf <;>
        simp [fate, sameEntry, leafStatus, Option.filter, leaf, leaf', and_assoc]
      -- a leaf and a directory are not the same
      · intro _ type _
        simp [TreeDiffEntry.isLeaf, type] at leaf leaf'
        exact absurd leaf leaf'
      · intro _ type _
        simp [TreeDiffEntry.isLeaf, type] at leaf leaf'
        exact absurd leaf' leaf

theorem filter_of_any {entry : Option TreeDiffEntry} (is : entry.any TreeDiffEntry.isLeaf = true) :
    entry.filter TreeDiffEntry.isLeaf = entry := by
  cases entry with
  | none => rfl
  | some entry => exact if_pos is

-- The entry of a change is that of the leaf.
theorem changeOf_leaves (is : leafStatus baseEntry headEntry = some status) :
    changeOf options path (baseEntry.filter TreeDiffEntry.isLeaf)
      (headEntry.filter TreeDiffEntry.isLeaf) status =
        changeOf options path baseEntry headEntry status := by
  unfold leafStatus at is
  split at is
  next base head =>
    cases is
    simp [changeOf, filter_of_any head]
  next base _ =>
    cases is
    simp [changeOf, filter_of_any base]
  next head =>
    cases is
    simp [changeOf, filter_of_any head]
  next => cases is

theorem mem_leafChange_iff :
    change ∈ leafChange options path baseEntry headEntry ↔
      ∃ status ∈ fate (baseEntry.filter TreeDiffEntry.isLeaf)
          (headEntry.filter TreeDiffEntry.isLeaf),
        changeOf options path (baseEntry.filter TreeDiffEntry.isLeaf)
          (headEntry.filter TreeDiffEntry.isLeaf) status = change := by
  rw [mem_leafChange, fate_of_leaves]
  cases same : sameEntry baseEntry headEntry with
  | true => simp
  | false =>
    simp only [true_and, Bool.false_eq_true, if_false]
    exact exists_congr fun status => and_congr_right fun is => by rw [changeOf_leaves is]

theorem entryAt_absent (absent : findEntry (entriesOf provider sha) name = none) (rest : List Path) :
    entryAt provider sha (name :: rest) = none := by
  by_cases more : rest = []
  · subst more
    exact absent
  · rw [entryAt_cons more, absent]
    exact entryAt_none rest

/-- The changes of the whole diff are those of the leaves at the ends of all ways. -/
theorem mem_wholeDiff (within : Within provider depth base head) :
    change ∈ wholeDiff provider options depth directory base head ↔
      ∃ way, ∃ status ∈ fate ((entryAt provider base way).filter TreeDiffEntry.isLeaf)
          ((entryAt provider head way).filter TreeDiffEntry.isLeaf),
        changeOf options (way.foldl joinPath directory)
          ((entryAt provider base way).filter TreeDiffEntry.isLeaf)
          ((entryAt provider head way).filter TreeDiffEntry.isLeaf) status = change := by
  induction depth generalizing directory base head with
  | zero =>
    -- there are no trees at all
    have noBase : base = none := Option.eq_none_iff_forall_not_mem.mpr fun sha is =>
      Nat.not_lt_zero _ (within.1 sha is)
    have noHead : head = none := Option.eq_none_iff_forall_not_mem.mpr fun sha is =>
      Nat.not_lt_zero _ (within.2 sha is)
    simp [wholeDiff, noBase, noHead, fate]
  | succ depth ih =>
    rw [mem_wholeDiff_succ]
    constructor
    · rintro ⟨name, _, own | below⟩
      · exact ⟨[name], mem_leafChange_iff.mp own⟩
      · obtain ⟨way, status, is, made⟩ := (ih (within.subtree name)).mp below
        have more : way ≠ [] := by
          rintro rfl
          simp [entryAt, fate] at is
        refine ⟨name :: way, status, ?_, ?_⟩
        · rwa [entryAt_cons more, entryAt_cons more]
        · rwa [entryAt_cons more, entryAt_cons more]
    · rintro ⟨way, status, is, made⟩
      cases way with
      | nil => simp [entryAt, fate] at is
      | cons name rest =>
        refine ⟨name, ?_, ?_⟩
        · -- a way that begins with another name leads nowhere
          by_contra away
          have absent (sha : Option Sha)
              (held : ∀ entry ∈ entriesOf provider sha, entry.name ≠ name) :
              entryAt provider sha (name :: rest) = none :=
            entryAt_absent (Option.eq_none_iff_forall_not_mem.mpr fun entry found =>
              held entry (findEntry_eq_some.mp found).1 (findEntry_eq_some.mp found).2) rest
          have noBase := absent base fun entry inside is =>
            away (mem_namesOf.mpr ⟨entry, .inl inside, is⟩)
          have noHead := absent head fun entry inside is =>
            away (mem_namesOf.mpr ⟨entry, .inr inside, is⟩)
          simp [noBase, noHead, fate] at is
        · by_cases more : rest = []
          · subst more
            exact .inl (mem_leafChange_iff.mpr ⟨status, is, made⟩)
          · refine .inr ((ih (within.subtree name)).mpr ⟨rest, status, ?_, ?_⟩)
            · rwa [entryAt_cons more, entryAt_cons more] at is
            · rwa [entryAt_cons more, entryAt_cons more] at made

/-! ### Ways and paths -/

theorem named_of_entryAt (found : entryAt provider sha way = some entry) :
    ∀ name ∈ way, name ≠ [] ∧ slash ∉ name := by
  induction way generalizing sha with
  | nil => simp
  | cons name rest ih =>
    have first : name ≠ [] ∧ slash ∉ name := by
      cases held : findEntry (entriesOf provider sha) name with
      | none => simp [entryAt_absent held] at found
      | some entry =>
        obtain ⟨inside, rfl⟩ := findEntry_eq_some.mp held
        exact named_of_mem inside
    refine List.forall_mem_cons.mpr ⟨first, ?_⟩
    by_cases more : rest = []
    · simp [more]
    · rw [entryAt_cons more] at found
      exact ih found

theorem foldl_joinPath (is : directory ≠ []) (way : List Path) :
    way.foldl joinPath directory = [slash].intercalate (directory :: way) := by
  induction way generalizing directory with
  | nil => simp
  | cons name rest ih =>
    have joined := joinPath_of_ne_nil is name
    rw [List.foldl_cons, ih (by simp [joined]), joined]
    cases rest <;> simp [List.intercalate_cons_cons]

/-- The path of a way is its names with separators between them. -/
theorem path_of_way (named : ∀ name ∈ way, name ≠ []) :
    way.foldl joinPath [] = [slash].intercalate way := by
  cases way with
  | nil => rfl
  | cons name rest =>
    rw [List.foldl_cons, joinPath, if_pos rfl]
    exact foldl_joinPath (named name List.mem_cons_self) rest

theorem segments_path (more : way ≠ []) (named : ∀ name ∈ way, name ≠ [] ∧ slash ∉ name) :
    segments (way.foldl joinPath []) = way := by
  rw [path_of_way fun name member => (named name member).1]
  exact List.splitOn_intercalate slash (fun name member => (named name member).2) more

/-- The whole diff of two roots is what has become of the leaves. -/
theorem mem_wholeDiff_root (within : Within provider depth base head) :
    change ∈ wholeDiff provider options depth [] base head ↔
      IsChange provider options base head change := by
  -- a change is at the end of a way of one of the trees
  have named {way : List Path} {status : ChangeStatus}
      (is : status ∈ fate ((entryAt provider base way).filter TreeDiffEntry.isLeaf)
        ((entryAt provider head way).filter TreeDiffEntry.isLeaf)) :
      way ≠ [] ∧ ∀ name ∈ way, name ≠ [] ∧ slash ∉ name := by
    refine ⟨?_, ?_⟩
    · rintro rfl
      simp [entryAt, fate] at is
    · cases hb : entryAt provider base way with
      | some entry => exact named_of_entryAt hb
      | none =>
        cases hh : entryAt provider head way with
        | some entry => exact named_of_entryAt hh
        | none => simp [hb, hh, fate] at is
  rw [mem_wholeDiff within]
  constructor
  · rintro ⟨way, status, is, rfl⟩
    obtain ⟨more, plain⟩ := named is
    have back := segments_path more plain
    refine ⟨status, ?_, ?_⟩
    · simpa only [path_changeOf, leafAt, back] using is
    · simp only [path_changeOf, leafAt, back]
  · rintro ⟨status, is, made⟩
    refine ⟨segments change.path, status, is, ?_⟩
    obtain ⟨_, plain⟩ := named is
    rw [path_of_way fun name member => (plain name member).1, segments, List.intercalate_splitOn]
    exact made.symm

end Whole

end PrSearch.Source
