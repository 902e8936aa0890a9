import PrSearch.Relation.Derivation

/-! # Settled sources

A source is settled when its stored edges are those that are planned for it now. To derive a source
settles it and leaves the others as they are, so that after a change the changed source is settled
and so is each one that has been looked up for it.
-/
namespace PrSearch.Relation

open Query (Text)
open Rows

section Definitions

variable (toLowerCase : Text → Text) (store : Store)

/-- The edges of the source are the planned ones; a source without a row has none. -/
def Settled (source : LinkSource) : Prop :=
  ∀ doc, (doc ∈ store.links.rows ∧ doc.source = source) ↔
    ∃ edges ∈ planRelationEdges toLowerCase store.snapshots store.stackTable source, doc ∈ edges

/-- Every source has the edges that are planned for it. -/
def Converged : Prop := ∀ source, Settled toLowerCase store source

/-- No row leads back to its own child, only commits have cherry-picks, and each stack edge has its
row. -/
structure Sound (store : Store) : Prop where
  irreflexive : ∀ row ∈ store.stackTable.rows, row.childPrNumber ≠ row.parentPrNumber
  picking : ∀ doc ∈ store.links.rows, doc.linkType = .cherryPicks → ∃ sha, doc.source = .commit sha
  rowed : ∀ doc ∈ store.links.rows, doc.linkType = .stacksOn → ∃ row ∈ store.stackTable.rows,
    doc.source = .pullRequest row.childPrNumber ∧ doc.target = .pullRequest row.parentPrNumber

end Definitions

variable {row : StackRow} {sha : Sha} {child : Nat} {other : LinkSource} {self : CommitSnapshotRow}

/-! ### Nothing is imported -/

section Import

variable {store : Store}

theorem toImport_key {doc : DerivedLinkDoc} (made : toImport doc = some row) :
    doc.linkType = .stacksOn ∧ doc.source = .pullRequest row.childPrNumber ∧
      doc.target = .pullRequest row.parentPrNumber := by
  unfold toImport at made
  split at made
  next type own parent _ _ =>
    split at made
    next =>
      obtain rfl := Option.some.inj made
      exact ⟨type, own, parent⟩
    next => simp at made
  next => simp at made

/-- In a sound store each stack edge of the index has its row already. -/
theorem Sound.importLegacyStacks (sound : Sound store) (servingStackImport : Bool)
    (scope : DerivedLinkDoc → Bool) : importLegacyStacks servingStackImport store scope = store := by
  unfold Relation.importLegacyStacks
  split
  next =>
    have held : ∀ row ∈ (store.links.rows.filter scope).filterMap toImport,
        ∃ stored ∈ store.stackTable.rows, stored.key = row.key := by
      intro row member
      obtain ⟨doc, inside, made⟩ := List.mem_filterMap.mp member
      obtain ⟨type, own, parent⟩ := toImport_key made
      obtain ⟨stored, there, own', parent'⟩ := sound.rowed doc (List.mem_filter.mp inside).1 type
      refine ⟨stored, there, Prod.ext ?_ ?_⟩
      · exact LinkSource.pullRequest.inj (own'.symm.trans own)
      · exact LinkSource.pullRequest.inj (parent'.symm.trans parent)
    rw [importServingStacks, Table.putAllNew_eq held]
  next => rfl

end Import

/-! ### The edges of a plan -/

section Edges

variable {toLowerCase : Text → Text} {snapshots : Snapshots} {table : StackTable}
  {doc : DerivedLinkDoc}

theorem mem_edges_commit :
    (∃ edges ∈ planRelationEdges toLowerCase snapshots table (.commit sha), doc ∈ edges) ↔
      ∃ self ∈ snapshots.findCommitSnapshot sha,
        doc ∈ snapshots.planReverts (.commit sha) (.instant self.committedAt)
            (extractCommitReverts toLowerCase self.message) ∨
          doc ∈ snapshots.planCherryPicks self := by
  simp only [planRelationEdges, planRelationParts, Option.map_map, Option.mem_def,
    Option.map_eq_some_iff, Function.comp_apply]
  constructor
  · rintro ⟨_, ⟨self, found, rfl⟩, member⟩
    exact ⟨self, found, List.mem_append.mp member⟩
  · rintro ⟨self, found, member⟩
    exact ⟨_, ⟨self, found, rfl⟩, List.mem_append.mpr member⟩

theorem mem_edges_pullRequest {prNumber : Nat} :
    (∃ edges ∈ planRelationEdges toLowerCase snapshots table (.pullRequest prNumber), doc ∈ edges) ↔
      ∃ self ∈ snapshots.findPullRequestSnapshot prNumber,
        doc ∈ snapshots.planReverts (.pullRequest prNumber) (.text (canonicalTime self.document))
            (pullRequestReverts toLowerCase self.document) ∨
          ∃ row ∈ mergeStackRows prNumber (listStacksOfChild table prNumber)
            (snapshots.planStacks self).desired, stackDoc row = doc := by
  simp only [planRelationEdges, planRelationParts, Option.map_map, Option.mem_def,
    Option.map_eq_some_iff, Function.comp_apply, List.append_nil, stackDocsFromRows]
  constructor
  · rintro ⟨_, ⟨self, found, rfl⟩, member⟩
    rcases List.mem_append.mp member with revert | stack
    · exact ⟨self, found, .inl revert⟩
    · exact ⟨self, found, .inr (List.mem_map.mp stack)⟩
  · rintro ⟨self, found, revert | stack⟩
    · exact ⟨_, ⟨self, found, rfl⟩, List.mem_append_left _ revert⟩
    · exact ⟨_, ⟨self, found, rfl⟩, List.mem_append_right _ (List.mem_map.mpr stack)⟩

end Edges

/-! ### One derivation -/

section Derive

variable {toLowerCase : Text → Text} {servingStackImport : Bool} {store : Store}
  {source : LinkSource}

/-- What a derivation leaves: the snapshots, and the edges and rows of other sources. -/
structure Leaves (source : LinkSource) (store store' : Store) : Prop where
  snapshots : store'.snapshots = store.snapshots
  links : ∀ doc, doc.source ≠ source → (doc ∈ store'.links.rows ↔ doc ∈ store.links.rows)
  rows : ∀ row, source ≠ .pullRequest row.childPrNumber →
    (row ∈ store'.stackTable.rows ↔ row ∈ store.stackTable.rows)

theorem Leaves.refl (source : LinkSource) (store : Store) : Leaves source store store :=
  ⟨rfl, fun _ _ => Iff.rfl, fun _ _ => Iff.rfl⟩

-- The rows of another child are the same list up to their order.
theorem Leaves.mem_merge {store' : Store} (leaves : Leaves source store store')
    (other : source ≠ .pullRequest child) {desired : List StackDesired} :
    row ∈ mergeStackRows child (listStacksOfChild store'.stackTable child) desired ↔
      row ∈ mergeStackRows child (listStacksOfChild store.stackTable child) desired := by
  have same : ∀ stored, stored ∈ listStacksOfChild store'.stackTable child ↔
      stored ∈ listStacksOfChild store.stackTable child := by
    intro stored
    simp only [mem_listStacksOfChild]
    refine and_congr_left fun own => leaves.rows stored ?_
    rwa [own]
  simp only [mem_mergeStackRows, same]

-- The plan of another source is the same.
theorem Leaves.mem_edges {store' : Store} (leaves : Leaves source store store')
    (apart : other ≠ source) (doc : DerivedLinkDoc) :
    (∃ edges ∈ planRelationEdges toLowerCase store'.snapshots store'.stackTable other, doc ∈ edges) ↔
      ∃ edges ∈ planRelationEdges toLowerCase store.snapshots store.stackTable other,
        doc ∈ edges := by
  cases other with
  | commit sha => simp only [mem_edges_commit, leaves.snapshots]
  | pullRequest child =>
    simp only [mem_edges_pullRequest, leaves.snapshots, leaves.mem_merge (Ne.symm apart)]

-- Another source is settled after the derivation exactly when it was before.
theorem Leaves.settled_iff {store' : Store} (leaves : Leaves source store store')
    (apart : other ≠ source) :
    Settled toLowerCase store' other ↔ Settled toLowerCase store other := by
  have stored : ∀ doc, (doc ∈ store'.links.rows ∧ doc.source = other) ↔
      (doc ∈ store.links.rows ∧ doc.source = other) := fun doc =>
    and_congr_left fun own => leaves.links doc (by rwa [own])
  exact forall_congr' fun doc => iff_congr (stored doc) (leaves.mem_edges apart doc)

/-- What the derivation of a source comes to. -/
structure Derives (toLowerCase : Text → Text) (source : LinkSource) (store store' : Store) :
    Prop where
  leaves : Leaves source store store'
  sound : Sound store'
  settled : Settled toLowerCase store' source

theorem derive_commit_eq (found : store.snapshots.findCommitSnapshot sha = some self) :
    deriveRelations toLowerCase servingStackImport store (.commit sha) =
      { store with
        links := writeEdges store.links (.commit sha)
          (store.snapshots.planReverts (.commit sha) (.instant self.committedAt)
            (extractCommitReverts toLowerCase self.message))
          (store.snapshots.planCherryPicks self) [] } := by
  rw [deriveRelations, planRelationParts, found]
  rfl

theorem derive_pullRequest_eq (sound : Sound store) {self : PullRequestSnapshotRow}
    (found : store.snapshots.findPullRequestSnapshot child = some self) :
    deriveRelations toLowerCase servingStackImport store (.pullRequest child) =
      let table := reconcileStacks store.stackTable child (store.snapshots.planStacks self).desired
      { store with
        stackTable := table,
        links := writeEdges store.links (.pullRequest child)
          (store.snapshots.planReverts (.pullRequest child) (.text (canonicalTime self.document))
            (pullRequestReverts toLowerCase self.document)) []
          (stackDocsFromRows (listStacksOfChild table child)) } := by
  rw [deriveRelations, planRelationParts, found]
  simp only [Option.map_some, deriveStacks, sound.importLegacyStacks]

theorem derives_commit (sound : Sound store)
    (found : store.snapshots.findCommitSnapshot sha = some self) :
    Derives toLowerCase (.commit sha) store
      (deriveRelations toLowerCase servingStackImport store (.commit sha)) := by
  obtain rfl : self.commitSha = sha := by simpa using List.find?_some found
  rw [derive_commit_eq found]
  have reverts := planning_reverts store.snapshots (.commit self.commitSha)
    (.instant self.committedAt) (extractCommitReverts toLowerCase self.message)
  have picks := planning_cherryPicks store.snapshots self
  have written : ∀ doc, doc ∈ (writeEdges store.links (.commit self.commitSha) _ _ []).rows ↔ _ :=
    fun doc => mem_written doc reverts picks (planning_none .stacksOn) sound.picking
      fun doc inside type own => by
        obtain ⟨row, _, pullRequest, _⟩ := sound.rowed doc inside type
        rw [own] at pullRequest
        cases pullRequest
  simp only [List.append_nil, List.mem_append] at written
  refine ⟨⟨rfl, fun doc other => ?_, fun _ _ => Iff.rfl⟩,
    ⟨sound.irreflexive, fun doc inside type => ?_, fun doc inside type => ?_⟩, fun doc => ?_⟩
  · -- the edges of other sources
    rw [written]
    constructor
    · rintro ((revert | pick) | ⟨inside, _⟩)
      · exact absurd (reverts.source doc revert) other
      · exact absurd (picks.source doc pick) other
      · exact inside
    · exact fun inside => .inr ⟨inside, other⟩
  · rcases (written doc).mp inside with (revert | pick) | ⟨old, _⟩
    · exact ⟨_, reverts.source doc revert⟩
    · exact ⟨_, picks.source doc pick⟩
    · exact sound.picking doc old type
  · rcases (written doc).mp inside with (revert | pick) | ⟨old, _⟩
    · exact absurd (type.symm.trans (reverts.type doc revert)) (by decide)
    · exact absurd (type.symm.trans (picks.type doc pick)) (by decide)
    · exact sound.rowed doc old type
  · -- the edges of the source
    rw [written, mem_edges_commit]
    constructor
    · rintro ⟨planned | ⟨_, other⟩, own⟩
      · exact ⟨self, found, planned⟩
      · exact absurd own other
    · rintro ⟨self', found', planned⟩
      obtain rfl : self = self' := Option.some.inj (found.symm.trans found')
      refine ⟨.inl planned, ?_⟩
      rcases planned with revert | pick
      · exact reverts.source doc revert
      · exact picks.source doc pick

theorem derives_pullRequest (sound : Sound store) {self : PullRequestSnapshotRow}
    (found : store.snapshots.findPullRequestSnapshot child = some self) :
    Derives toLowerCase (.pullRequest child) store
      (deriveRelations toLowerCase servingStackImport store (.pullRequest child)) := by
  obtain rfl : self.prNumber = child := by simpa using List.find?_some found
  rw [derive_pullRequest_eq sound found]
  have distinct : Distinct (store.snapshots.planStacks self).desired := distinct_desired
  have reverts := planning_reverts store.snapshots (.pullRequest self.prNumber)
    (.text (canonicalTime self.document)) (pullRequestReverts toLowerCase self.document)
  generalize made : reconcileStacks store.stackTable self.prNumber
    (store.snapshots.planStacks self).desired = table
  have mem_table : ∀ row, row ∈ table.rows ↔ _ := fun row => made ▸ mem_reconcileStacks distinct
  have mem_child : ∀ row, row ∈ listStacksOfChild table self.prNumber ↔ _ :=
    fun row => made ▸ mem_reconciled_child distinct
  have merged : ∀ row, row ∈ mergeStackRows self.prNumber
      (listStacksOfChild table self.prNumber) (store.snapshots.planStacks self).desired ↔ _ :=
    fun row => made ▸ mem_merge_reconciled distinct
  have keeps : ∀ {row}, row ∈ store.stackTable.rows → ∃ kept ∈ table.rows, kept.key = row.key :=
    fun inside => made ▸ reconcileStacks_keeps distinct inside
  have stackPlan := planning_stacks table self.prNumber
  have written : ∀ doc, doc ∈ (writeEdges store.links (.pullRequest self.prNumber) _ []
      (stackDocsFromRows (listStacksOfChild table self.prNumber))).rows ↔ _ :=
    fun doc => mem_written doc reverts (planning_none .cherryPicks) stackPlan sound.picking
      fun doc inside type own => by
        -- a stored stack edge has its row, and the row is kept
        obtain ⟨row, there, child, parent⟩ := sound.rowed doc inside type
        have mine : row.childPrNumber = self.prNumber :=
          LinkSource.pullRequest.inj (child.symm.trans own)
        obtain ⟨kept, stored, same⟩ := keeps there
        obtain ⟨sameChild, sameParent⟩ := Prod.mk.inj same
        refine ⟨stackDoc kept, List.mem_map.mpr ⟨kept, ?_, rfl⟩, ?_⟩
        · exact mem_listStacksOfChild.mpr ⟨stored, sameChild.trans mine⟩
        · have key : doc.linkId = ⟨.stacksOn, .pullRequest row.childPrNumber,
              .pullRequest row.parentPrNumber⟩ := by
            rw [DerivedLinkDoc.linkId, type, child, parent]
          rw [key, ← sameChild, ← sameParent]
          rfl
  simp only [List.append_nil, List.mem_append] at written
  have stack_iff : ∀ doc, doc ∈ stackDocsFromRows (listStacksOfChild table self.prNumber) ↔
      ∃ row ∈ mergeStackRows self.prNumber (listStacksOfChild table self.prNumber)
        (store.snapshots.planStacks self).desired, stackDoc row = doc := by
    intro doc
    simp only [stackDocsFromRows, List.mem_map, mem_child, merged]
  refine ⟨⟨rfl, fun doc other => ?_, fun row other => ?_⟩,
    ⟨fun row inside => ?_, fun doc inside type => ?_, fun doc inside type => ?_⟩,
    fun doc => ?_⟩
  · -- the edges of other sources
    rw [written]
    constructor
    · rintro ((revert | stack) | ⟨inside, _⟩)
      · exact absurd (reverts.source doc revert) other
      · exact absurd (stackPlan.source doc stack) other
      · exact inside
    · exact fun inside => .inr ⟨inside, other⟩
  · -- the rows of other children
    rw [mem_table]
    constructor
    · rintro (⟨_, inside⟩ | own)
      · exact inside
      · have mine := child_of_mem_merge
          (fun _ there => (mem_listStacksOfChild.mp there).2) own
        exact absurd (congrArg LinkSource.pullRequest mine.symm) other
    · exact fun inside => .inl ⟨fun mine => other (congrArg LinkSource.pullRequest mine.symm), inside⟩
  · rcases (mem_table row).mp inside with ⟨_, old⟩ | own
    · exact sound.irreflexive row old
    · rcases mem_mergeStackRows.mp own with ⟨one, wanted, rfl⟩ | ⟨stored, there, _, rfl⟩
      · exact (parent_ne_self wanted).symm
      · exact sound.irreflexive stored (mem_listStacksOfChild.mp there).1
  · rcases (written doc).mp inside with (revert | stack) | ⟨old, _⟩
    · exact absurd (type.symm.trans (reverts.type doc revert)) (by decide)
    · exact absurd (type.symm.trans (stackPlan.type doc stack)) (by decide)
    · exact sound.picking doc old type
  · rcases (written doc).mp inside with (revert | stack) | ⟨old, _⟩
    · exact absurd (type.symm.trans (reverts.type doc revert)) (by decide)
    · obtain ⟨row, there, rfl⟩ := List.mem_map.mp stack
      exact ⟨row, (mem_listStacksOfChild.mp there).1, rfl, rfl⟩
    · obtain ⟨row, there, child, parent⟩ := sound.rowed doc old type
      obtain ⟨kept, stored, same⟩ := keeps there
      obtain ⟨sameChild, sameParent⟩ := Prod.mk.inj same
      exact ⟨kept, stored, sameChild ▸ child, sameParent ▸ parent⟩
  · -- the edges of the source
    rw [written, mem_edges_pullRequest]
    constructor
    · rintro ⟨(revert | stack) | ⟨_, other⟩, own⟩
      · exact ⟨self, found, .inl revert⟩
      · exact ⟨self, found, .inr ((stack_iff doc).mp stack)⟩
      · exact absurd own other
    · rintro ⟨self', found', planned⟩
      obtain rfl : self = self' := Option.some.inj (found.symm.trans found')
      rcases planned with revert | stack
      · exact ⟨.inl (.inl revert), reverts.source doc revert⟩
      · have inside := (stack_iff doc).mpr stack
        exact ⟨.inl (.inr inside), stackPlan.source doc inside⟩

/-- To derive a source that has no row does nothing. -/
theorem derive_absent (absent : store.snapshots.has source = false) :
    deriveRelations toLowerCase servingStackImport store source = store := by
  cases source with
  | commit sha =>
    have none : store.snapshots.findCommitSnapshot sha = .none := by
      simpa [Snapshots.has] using absent
    rw [deriveRelations, planRelationParts, none]
    rfl
  | pullRequest child =>
    have none : store.snapshots.findPullRequestSnapshot child = .none := by
      simpa [Snapshots.has] using absent
    rw [deriveRelations, planRelationParts, none]
    rfl

theorem derives (toLowerCase : Text → Text) (servingStackImport : Bool) (sound : Sound store)
    (has : store.snapshots.has source = true) :
    Derives toLowerCase source store
      (deriveRelations toLowerCase servingStackImport store source) := by
  cases source with
  | commit sha =>
    obtain ⟨self, found⟩ := Option.isSome_iff_exists.mp has
    exact derives_commit sound found
  | pullRequest child =>
    obtain ⟨self, found⟩ := Option.isSome_iff_exists.mp has
    exact derives_pullRequest sound found

end Derive

/-! ### All that are derived -/

section Handle

variable {toLowerCase : Text → Text} {servingStackImport : Bool} {store store' : Store}

/-- From one store to a later one with the same canonical rows, the listed sources are settled, and
another source is settled exactly when it was. -/
structure Settles (toLowerCase : Text → Text) (sources : List LinkSource) (store store' : Store) :
    Prop where
  snapshots : store'.snapshots = store.snapshots
  sound : Sound store'
  settled : ∀ source ∈ sources, store.snapshots.has source = true → Settled toLowerCase store' source
  others : ∀ source, source ∉ sources ∨ store.snapshots.has source = false →
    (Settled toLowerCase store' source ↔ Settled toLowerCase store source)

theorem settles_one (toLowerCase : Text → Text) (servingStackImport : Bool) (sound : Sound store)
    (source : LinkSource) :
    Settles toLowerCase [source] store
      (deriveRelations toLowerCase servingStackImport store source) := by
  cases has : store.snapshots.has source with
  | false =>
    rw [derive_absent has]
    refine ⟨rfl, sound, fun other inside there => ?_, fun _ _ => Iff.rfl⟩
    rw [List.mem_singleton.mp inside, has] at there
    cases there
  | true =>
    have made := derives toLowerCase servingStackImport sound has
    refine ⟨made.leaves.snapshots, made.sound, fun other inside _ => ?_, fun other outside => ?_⟩
    · rw [List.mem_singleton.mp inside]
      exact made.settled
    · refine made.leaves.settled_iff fun is => ?_
      rcases outside with away | none
      · exact away (List.mem_singleton.mpr is)
      · rw [is, has] at none
        cases none

theorem Settles.trans {first second : List LinkSource} {store'' : Store}
    (one : Settles toLowerCase first store store') (two : Settles toLowerCase second store' store'') :
    Settles toLowerCase (first ++ second) store store'' := by
  refine ⟨two.snapshots.trans one.snapshots, two.sound, fun source inside has => ?_,
    fun source outside => ?_⟩
  · -- a source of the first part is settled already, and the second part settles it or leaves it
    by_cases late : source ∈ second
    · exact two.settled source late (one.snapshots ▸ has)
    · refine (two.others source (.inl late)).mpr (one.settled source ?_ has)
      exact (List.mem_append.mp inside).resolve_right late
  · refine (two.others source ?_).trans (one.others source ?_)
    · rw [one.snapshots]
      exact outside.imp_left fun away inside => away (List.mem_append_right _ inside)
    · exact outside.imp_left fun away inside => away (List.mem_append_left _ inside)

theorem settles_foldl (toLowerCase : Text → Text) (servingStackImport : Bool) (sound : Sound store)
    (sources : List LinkSource) :
    Settles toLowerCase sources store
      (sources.foldl (deriveRelations toLowerCase servingStackImport) store) := by
  induction sources generalizing store with
  | nil => exact ⟨rfl, sound, by simp, fun _ _ => Iff.rfl⟩
  | cons source sources ih =>
    have first := settles_one toLowerCase servingStackImport sound source
    exact first.trans (ih first.sound)

-- The children of a parent come from its rows alone.
theorem listChildrenOf_congr {table table' : StackTable} {parent limit : Nat}
    (same : ∀ row, row.parentPrNumber = parent → (row ∈ table'.rows ↔ row ∈ table.rows)) :
    listChildrenOf table' parent limit = listChildrenOf table parent limit := by
  have perm : List.Perm (table'.rows.filter fun row => row.parentPrNumber = parent)
      (table.rows.filter fun row => row.parentPrNumber = parent) := by
    refine (List.perm_ext_iff_of_nodup (table'.keyed.of_map.filter _)
      (table.keyed.of_map.filter _)).mpr fun row => ?_
    simp only [List.mem_filter, decide_eq_true_eq]
    exact and_congr_left (same row)
  have sorted : (table'.rows.filter fun row => row.parentPrNumber = parent).insertionSort byChild =
      (table.rows.filter fun row => row.parentPrNumber = parent).insertionSort byChild := by
    refine List.Perm.eq_of_pairwise (fun left right hl hr le ge => ?_)
      (List.pairwise_insertionSort byChild _) (List.pairwise_insertionSort byChild _)
      (((List.perm_insertionSort _ _).trans perm).trans (List.perm_insertionSort _ _).symm)
    -- two rows of the parent with the same child are the same row
    simp only [List.mem_insertionSort, List.mem_filter, decide_eq_true_eq] at hl hr
    refine table.keyed.eq ((same left hl.2).mp hl.1) hr.1 (Prod.ext ?_ (hl.2.trans hr.2.symm))
    exact Nat.le_antisymm le ge
  rw [listChildrenOf, listChildrenOf, select, select, sorted]

theorem affectedSources_congr {source : LinkSource} (leaves : Leaves source store store')
    (sound : Sound store) (sound' : Sound store') :
    affectedSources store'.snapshots store'.stackTable source =
      affectedSources store.snapshots store.stackTable source := by
  rw [leaves.snapshots]
  cases source with
  | commit sha => rfl
  | pullRequest prNumber =>
    simp only [affectedSources]
    cases found : store.snapshots.findPullRequestSnapshot prNumber with
    | none => rfl
    | some row =>
      obtain rfl : row.prNumber = prNumber := by simpa using List.find?_some found
      have children : listChildrenOf store'.stackTable row.prNumber affectedLimit =
          listChildrenOf store.stackTable row.prNumber affectedLimit :=
        listChildrenOf_congr fun stack parent => by
          by_cases own : stack.childPrNumber = row.prNumber
          · -- no row leads from a pull request to itself
            refine iff_of_false (fun inside => ?_) fun inside => ?_
            · exact sound'.irreflexive stack inside (own.trans parent.symm)
            · exact sound.irreflexive stack inside (own.trans parent.symm)
          · exact leaves.rows stack fun is => own (LinkSource.pullRequest.inj is).symm
      simp only [Option.map_some, Option.getD_some, Snapshots.affectedByPullRequest, children]

/-- A change is handled for its source and for those that are looked up for it. -/
theorem settles_handle (toLowerCase : Text → Text) (servingStackImport : Bool) (sound : Sound store)
    (source : LinkSource) :
    Settles toLowerCase (source :: affectedSources store.snapshots store.stackTable source) store
      (handleRelationsReady toLowerCase servingStackImport store source) := by
  have first := settles_one toLowerCase servingStackImport sound source
  have leaves : Leaves source store
      (deriveRelations toLowerCase servingStackImport store source) := by
    cases has : store.snapshots.has source with
    | false =>
      rw [derive_absent has]
      exact Leaves.refl source store
    | true => exact (derives toLowerCase servingStackImport sound has).leaves
  have imported : importParent servingStackImport
      (deriveRelations toLowerCase servingStackImport store source) source =
        deriveRelations toLowerCase servingStackImport store source := by
    unfold importParent
    split
    next => rfl
    next => rw [first.sound.importLegacyStacks, ite_self]
  have handled : handleRelationsReady toLowerCase servingStackImport store source =
      (affectedSources store.snapshots store.stackTable source).foldl
        (deriveRelations toLowerCase servingStackImport)
          (deriveRelations toLowerCase servingStackImport store source) := by
    simp only [handleRelationsReady, reevaluateAffectedRelations, imported,
      affectedSources_congr leaves sound first.sound]
  rw [handled]
  exact first.trans (settles_foldl toLowerCase servingStackImport first.sound _)

end Handle

end PrSearch.Relation
