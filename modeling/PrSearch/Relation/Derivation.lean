import PrSearch.Relation.Derive

/-! # What one derivation does

To derive a source brings its stored edges, and for a pull request also the rows of its stacks, in
line with what is planned for it. The edges and rows of other sources stay as they are.
-/
namespace PrSearch.Relation

open Query (Text)
open Rows

/-! ### The rows of a child -/

section Table

variable {table : StackTable} {child : Nat} {row : StackRow}

theorem mem_listStacksOfChild :
    row ∈ listStacksOfChild table child ↔ row ∈ table.rows ∧ row.childPrNumber = child := by
  simp [listStacksOfChild, List.mem_insertionSort]

variable {existing : List StackRow} {desired : List StackDesired}

theorem mem_mergeStackRows : row ∈ mergeStackRows child existing desired ↔
    (∃ one ∈ desired, one.row child = row) ∨
      ∃ stored ∈ existing, (∀ one ∈ desired, one.parentPrNumber ≠ stored.parentPrNumber) ∧
        stored.detach = row := by
  simp only [mergeStackRows, List.mem_insertionSort, List.mem_append, List.mem_map,
    List.mem_filter, decide_eq_true_eq, and_assoc]

theorem child_of_mem_merge (owned : ∀ stored ∈ existing, stored.childPrNumber = child)
    (member : row ∈ mergeStackRows child existing desired) : row.childPrNumber = child := by
  rcases mem_mergeStackRows.mp member with ⟨one, _, rfl⟩ | ⟨stored, inside, _, rfl⟩
  · rfl
  · exact owned stored inside

/-- The parents of the desired edges are different ones. -/
def Distinct (desired : List StackDesired) : Prop :=
  (desired.map StackDesired.parentPrNumber).Nodup

theorem Distinct.rows (distinct : Distinct desired) (child : Nat) :
    ((desired.map (StackDesired.row child)).map StackRow.key).Nodup := by
  rw [List.map_map]
  have inj : ∀ left ∈ desired, ∀ right ∈ desired,
      (StackRow.key ∘ StackDesired.row child) left = (StackRow.key ∘ StackDesired.row child) right →
        left = right := fun left hl right hr same =>
    List.inj_on_of_nodup_map distinct hl hr (Prod.mk.inj same).2
  exact List.Nodup.map_on inj distinct.of_map

/-- The table as it is written: the merged rows of the child, and the other rows as they were. -/
theorem mem_reconcileStacks (distinct : Distinct desired) :
    row ∈ (reconcileStacks table child desired).rows ↔
      (row.childPrNumber ≠ child ∧ row ∈ table.rows) ∨
        row ∈ mergeStackRows child (listStacksOfChild table child) desired := by
  have put : ∀ other, other ∈ (table.putAll (desired.map (StackDesired.row child))).rows ↔
      (∃ one ∈ desired, one.row child = other) ∨
        (other ∈ table.rows ∧ ∀ one ∈ desired, other.key ≠ (one.row child).key) := by
    intro other
    rw [Table.mem_putAll (distinct.rows child), List.mem_map]
    simp only [List.forall_mem_map]
  rw [reconcileStacks, Table.update, List.mem_map, mem_mergeStackRows]
  simp only [mem_listStacksOfChild]
  constructor
  · rintro ⟨other, inside, is⟩
    rcases (put other).mp inside with ⟨one, wanted, rfl⟩ | ⟨stored, apart⟩
    · -- a desired row is not detached
      rw [if_neg fun stale => stale.2 one wanted rfl] at is
      exact .inr (.inl ⟨one, wanted, is⟩)
    · split at is
      next stale => exact .inr (.inr ⟨other, ⟨stored, stale.1⟩, stale.2, is⟩)
      next kept =>
        subst is
        refine .inl ⟨fun own => ?_, stored⟩
        obtain ⟨one, wanted, same⟩ : ∃ one ∈ desired, one.parentPrNumber = other.parentPrNumber := by
          by_contra none
          exact kept ⟨own, fun one wanted same => none ⟨one, wanted, same⟩⟩
        exact apart one wanted (Prod.ext own same.symm)
  · rintro (⟨foreign, stored⟩ | ⟨one, wanted, rfl⟩ | ⟨stored, ⟨inside, own⟩, stale, rfl⟩)
    · refine ⟨row, (put row).mpr (.inr ⟨stored, fun one _ same => foreign ?_⟩), ?_⟩
      · exact congrArg Prod.fst same
      · exact if_neg fun stale => foreign stale.1
    · refine ⟨one.row child, (put _).mpr (.inl ⟨one, wanted, rfl⟩), ?_⟩
      exact if_neg fun stale => stale.2 one wanted rfl
    · refine ⟨stored, (put stored).mpr (.inr ⟨inside, fun one wanted same => ?_⟩), ?_⟩
      · exact stale one wanted (congrArg Prod.snd same).symm
      · exact if_pos ⟨own, stale⟩

-- The rows of the child, as they are written.
theorem mem_reconciled_child (distinct : Distinct desired) :
    row ∈ listStacksOfChild (reconcileStacks table child desired) child ↔
      row ∈ mergeStackRows child (listStacksOfChild table child) desired := by
  rw [mem_listStacksOfChild, mem_reconcileStacks distinct]
  constructor
  · rintro ⟨⟨foreign, _⟩ | inside, own⟩
    · exact absurd own foreign
    · exact inside
  · exact fun inside =>
      ⟨.inr inside, child_of_mem_merge (fun _ there => (mem_listStacksOfChild.mp there).2) inside⟩

/-- To merge once more changes nothing. -/
theorem mem_merge_reconciled (distinct : Distinct desired) :
    row ∈ mergeStackRows child (listStacksOfChild (reconcileStacks table child desired) child)
        desired ↔
      row ∈ mergeStackRows child (listStacksOfChild table child) desired := by
  rw [mem_mergeStackRows]
  simp only [mem_reconciled_child distinct]
  constructor
  · rintro (wanted | ⟨stored, inside, stale, rfl⟩)
    · exact mem_mergeStackRows.mpr (.inl wanted)
    · rcases mem_mergeStackRows.mp inside with ⟨one, member, rfl⟩ | ⟨old, there, away, rfl⟩
      · exact absurd rfl (stale one member)
      · exact mem_mergeStackRows.mpr (.inr ⟨old, there, away, rfl⟩)
  · intro member
    rcases mem_mergeStackRows.mp member with wanted | ⟨old, there, away, rfl⟩
    · exact .inl wanted
    · exact .inr ⟨old.detach, member, away, rfl⟩

-- A row is replaced or detached, but not deleted.
theorem reconcileStacks_keeps (distinct : Distinct desired) (inside : row ∈ table.rows) :
    ∃ kept ∈ (reconcileStacks table child desired).rows, kept.key = row.key := by
  by_cases own : row.childPrNumber = child
  · have there := mem_listStacksOfChild.mpr ⟨inside, own⟩
    by_cases wanted : ∃ one ∈ desired, one.parentPrNumber = row.parentPrNumber
    · obtain ⟨one, member, same⟩ := wanted
      refine ⟨one.row child, (mem_reconcileStacks distinct).mpr (.inr ?_), Prod.ext own.symm same⟩
      exact mem_mergeStackRows.mpr (.inl ⟨one, member, rfl⟩)
    · refine ⟨row.detach, (mem_reconcileStacks distinct).mpr (.inr ?_), rfl⟩
      refine mem_mergeStackRows.mpr (.inr ⟨row, there, fun one member same => ?_, rfl⟩)
      exact wanted ⟨one, member, same⟩
  · exact ⟨row, (mem_reconcileStacks distinct).mpr (.inl ⟨own, inside⟩), rfl⟩

end Table

/-! ### The plan of a child -/

section Plan

variable {snapshots : Snapshots} {self : PullRequestSnapshotRow}

theorem mem_desired {one : StackDesired} : one ∈ (snapshots.planStacks self).desired ↔
    ∃ parent ∈ snapshots.stackCandidates self,
      snapshots.walkChain parent self.prNumber = .ok ∧
        ⟨parent.prNumber, Snapshots.stackEvidence self parent, canonicalTime self.document⟩ =
          one := by
  simp only [Snapshots.planStacks, List.mem_map, List.mem_filter, decide_eq_true_eq, and_assoc]

theorem keyed_stackCandidates :
    Keyed PullRequestSnapshotRow.prNumber (snapshots.stackCandidates self) := by
  simp only [Snapshots.stackCandidates]
  split
  next => exact List.nodup_nil
  next =>
    exact (snapshots.pullRequestKey.select : List.Nodup _).sublist (List.filter_sublist.map _)

theorem distinct_desired : Distinct (snapshots.planStacks self).desired := by
  rw [Distinct, Snapshots.planStacks, List.map_map]
  exact (keyed_stackCandidates : List.Nodup _).sublist (List.filter_sublist.map _)

-- A pull request is not stacked on itself.
theorem parent_ne_self {one : StackDesired} (wanted : one ∈ (snapshots.planStacks self).desired) :
    one.parentPrNumber ≠ self.prNumber := by
  obtain ⟨parent, candidate, _, rfl⟩ := mem_desired.mp wanted
  simp only [Snapshots.stackCandidates] at candidate
  split at candidate
  next => exact absurd candidate List.not_mem_nil
  next => exact of_decide_eq_true (List.mem_filter.mp candidate).2

end Plan

/-! ### What is written of a plan -/

section Written

variable {links : Table DerivedLinkDoc.linkId} {source : LinkSource} {doc : DerivedLinkDoc}

theorem mem_deleteStale {linkType : LinkType} {kept : List DerivedLinkDoc} :
    doc ∈ (deleteStaleDerivedLinks links linkType source kept).rows ↔
      doc ∈ links.rows ∧ (doc.linkType = linkType → doc.source = source →
        ∃ one ∈ kept, one.linkId = doc.linkId) := by
  rw [deleteStaleDerivedLinks, Table.mem_delete]
  simp only [Bool.and_eq_false_iff, decide_eq_false_iff_not, Bool.not_eq_false',
    List.contains_iff_mem, List.mem_map]
  constructor
  · rintro ⟨inside, (other | foreign) | held⟩
    · exact ⟨inside, fun is => absurd is other⟩
    · exact ⟨inside, fun _ own => absurd own foreign⟩
    · exact ⟨inside, fun _ _ => held⟩
  · rintro ⟨inside, held⟩
    refine ⟨inside, ?_⟩
    by_cases is : doc.linkType = linkType
    · by_cases own : doc.source = source
      · exact .inr (held is own)
      · exact .inl (.inr own)
    · exact .inl (.inl is)

/-- The edges of a plan: each of its type and of the source, and no two of the same two ends. -/
structure Planning (source : LinkSource) (linkType : LinkType) (docs : List DerivedLinkDoc) :
    Prop where
  type : ∀ doc ∈ docs, doc.linkType = linkType
  source : ∀ doc ∈ docs, doc.source = source
  keys : (docs.map DerivedLinkDoc.linkId).Nodup

-- Edges of different types have different keys.
theorem Planning.disjoint {left right : List DerivedLinkDoc} {leftType rightType : LinkType}
    (first : Planning source leftType left) (second : Planning source rightType right)
    (other : leftType ≠ rightType) :
    (left.map DerivedLinkDoc.linkId).Disjoint (right.map DerivedLinkDoc.linkId) := by
  intro key inLeft inRight
  obtain ⟨one, here, rfl⟩ := List.mem_map.mp inLeft
  obtain ⟨two, there, same⟩ := List.mem_map.mp inRight
  have types : two.linkType = one.linkType := congrArg LinkId.linkType same
  exact other (by rw [← first.type one here, ← second.type two there, types])

variable {reverts picks stackDocs : List DerivedLinkDoc}

theorem nodup_planned (revertPlan : Planning source .reverts reverts)
    (pickPlan : Planning source .cherryPicks picks)
    (stackPlan : Planning source .stacksOn stackDocs) :
    ((reverts ++ picks ++ stackDocs).map DerivedLinkDoc.linkId).Nodup := by
  rw [List.map_append, List.map_append]
  refine (revertPlan.keys.append pickPlan.keys ?_).append stackPlan.keys ?_
  · exact revertPlan.disjoint pickPlan (by decide)
  · rw [List.disjoint_append_left]
    exact ⟨revertPlan.disjoint stackPlan (by decide), pickPlan.disjoint stackPlan (by decide)⟩

/-- What is in the index after the edges of a source have been written and the stale ones deleted:
the edges of the plan and those of other sources. -/
theorem mem_written (doc : DerivedLinkDoc) (revertPlan : Planning source .reverts reverts)
    (pickPlan : Planning source .cherryPicks picks)
    (stackPlan : Planning source .stacksOn stackDocs)
    (picking : ∀ doc ∈ links.rows, doc.linkType = .cherryPicks → ∃ sha, doc.source = .commit sha)
    (stacked : ∀ doc ∈ links.rows, doc.linkType = .stacksOn → doc.source = source →
      ∃ one ∈ stackDocs, one.linkId = doc.linkId) :
    doc ∈ (writeEdges links source reverts picks stackDocs).rows ↔
      doc ∈ reverts ++ picks ++ stackDocs ∨ (doc ∈ links.rows ∧ doc.source ≠ source) := by
  have put : doc ∈ (links.putAll (reverts ++ picks ++ stackDocs)).rows ↔
      doc ∈ reverts ++ picks ++ stackDocs ∨
        (doc ∈ links.rows ∧ ∀ one ∈ reverts ++ picks ++ stackDocs, doc.linkId ≠ one.linkId) :=
    Table.mem_putAll (nodup_planned revertPlan pickPlan stackPlan)
  have owned : ∀ one ∈ reverts ++ picks ++ stackDocs, one.source = source := by
    intro one member
    rcases List.mem_append.mp member with first | stack
    · rcases List.mem_append.mp first with revert | pick
      · exact revertPlan.source one revert
      · exact pickPlan.source one pick
    · exact stackPlan.source one stack
  -- the types tell to which of the plans an edge belongs
  have revert_of : doc ∈ reverts ++ picks ++ stackDocs → doc.linkType = .reverts → doc ∈ reverts := by
    intro member is
    rcases List.mem_append.mp member with first | stack
    · rcases List.mem_append.mp first with revert | pick
      · exact revert
      · exact absurd (is.symm.trans (pickPlan.type doc pick)) (by decide)
    · exact absurd (is.symm.trans (stackPlan.type doc stack)) (by decide)
  have pick_of : doc ∈ reverts ++ picks ++ stackDocs → doc.linkType = .cherryPicks → doc ∈ picks := by
    intro member is
    rcases List.mem_append.mp member with first | stack
    · rcases List.mem_append.mp first with revert | pick
      · exact absurd (is.symm.trans (revertPlan.type doc revert)) (by decide)
      · exact pick
    · exact absurd (is.symm.trans (stackPlan.type doc stack)) (by decide)
  have foreign : doc ∈ links.rows → doc.source ≠ source →
      doc ∈ (links.putAll (reverts ++ picks ++ stackDocs)).rows := by
    intro inside other
    refine put.mpr (.inr ⟨inside, fun one member same => other ?_⟩)
    rw [← owned one member]
    exact congrArg LinkId.source same
  have stale : doc ∈ links.rows → doc.source = source →
      (∀ one ∈ reverts ++ picks ++ stackDocs, doc.linkId ≠ one.linkId) →
      (doc.linkType = .reverts → ∃ one ∈ reverts, one.linkId = doc.linkId) →
      (doc.linkType = .cherryPicks → ∃ one ∈ picks, one.linkId = doc.linkId) → False := by
    intro inside own apart reverted picked
    cases type : doc.linkType with
    | reverts =>
      obtain ⟨one, member, same⟩ := reverted type
      exact apart one (List.mem_append_left _ (List.mem_append_left _ member)) same.symm
    | cherryPicks =>
      obtain ⟨one, member, same⟩ := picked type
      exact apart one (List.mem_append_left _ (List.mem_append_right _ member)) same.symm
    | stacksOn =>
      obtain ⟨one, member, same⟩ := stacked doc inside type own
      exact apart one (List.mem_append_right _ member) same.symm
  cases source with
  | commit sha =>
    simp only [writeEdges, mem_deleteStale, put]
    constructor
    · rintro ⟨⟨planned | ⟨inside, apart⟩, reverted⟩, picked⟩
      · exact .inl planned
      · by_cases own : doc.source = .commit sha
        · exact (stale inside own apart (reverted · own) (picked · own)).elim
        · exact .inr ⟨inside, own⟩
    · rintro (planned | ⟨inside, other⟩)
      · exact ⟨⟨.inl planned, fun is _ => ⟨doc, revert_of planned is, rfl⟩⟩,
          fun is _ => ⟨doc, pick_of planned is, rfl⟩⟩
      · exact ⟨⟨put.mp (foreign inside other), fun _ own => absurd own other⟩,
          fun _ own => absurd own other⟩
  | pullRequest prNumber =>
    simp only [writeEdges, mem_deleteStale, put]
    constructor
    · rintro ⟨planned | ⟨inside, apart⟩, reverted⟩
      · exact .inl planned
      · by_cases own : doc.source = .pullRequest prNumber
        · refine (stale inside own apart (reverted · own) fun is => ?_).elim
          -- a pull request has no cherry-picks
          obtain ⟨sha, commit⟩ := picking doc inside is
          rw [own] at commit
          cases commit
        · exact .inr ⟨inside, own⟩
    · rintro (planned | ⟨inside, other⟩)
      · exact ⟨.inl planned, fun is _ => ⟨doc, revert_of planned is, rfl⟩⟩
      · exact ⟨put.mp (foreign inside other), fun _ own => absurd own other⟩

end Written

/-! ### The plans -/

section Plans

variable {toLowerCase : Text → Text} {snapshots : Snapshots} {source : LinkSource}

theorem revertDocsOf_type {createdAt : LinkTime} {entry : ExtractedRevert} {doc : DerivedLinkDoc}
    (member : doc ∈ snapshots.revertDocsOf source createdAt entry) :
    doc.linkType = .reverts ∧ doc.source = source := by
  unfold Snapshots.revertDocsOf at member
  split at member
  next =>
    rw [List.mem_singleton.mp member]
    exact ⟨rfl, rfl⟩
  next =>
    obtain ⟨_, _, rfl⟩ := List.mem_map.mp member
    exact ⟨rfl, rfl⟩

theorem planning_reverts (snapshots : Snapshots) (source : LinkSource) (createdAt : LinkTime)
    (extracted : List ExtractedRevert) :
    Planning source .reverts (snapshots.planReverts source createdAt extracted) := by
  have each : ∀ doc ∈ snapshots.planReverts source createdAt extracted,
      doc.linkType = .reverts ∧ doc.source = source := by
    intro doc member
    have inside := (List.mem_filter.mp (of_mem_firsts member)).1
    obtain ⟨_, _, made⟩ := List.mem_flatMap.mp inside
    exact revertDocsOf_type made
  exact ⟨fun doc member => (each doc member).1, fun doc member => (each doc member).2, nodup_firsts⟩

theorem cherryDocsOf_type {self : CommitSnapshotRow} {doc : DerivedLinkDoc}
    (member : doc ∈ snapshots.cherryDocsOf self) :
    doc.linkType = .cherryPicks ∧ doc.source = .commit self.commitSha := by
  unfold Snapshots.cherryDocsOf at member
  split at member
  next => exact absurd member List.not_mem_nil
  next =>
    obtain ⟨_, _, rfl⟩ := List.mem_map.mp member
    exact ⟨rfl, rfl⟩
  next =>
    obtain ⟨_, _, rfl⟩ := List.mem_map.mp member
    exact ⟨rfl, rfl⟩

theorem planning_cherryPicks (snapshots : Snapshots) (self : CommitSnapshotRow) :
    Planning (.commit self.commitSha) .cherryPicks (snapshots.planCherryPicks self) := by
  have each : ∀ doc ∈ snapshots.planCherryPicks self,
      doc.linkType = .cherryPicks ∧ doc.source = .commit self.commitSha :=
    fun doc member => cherryDocsOf_type (List.mem_filter.mp (of_mem_firsts member)).1
  exact ⟨fun doc member => (each doc member).1, fun doc member => (each doc member).2, nodup_firsts⟩

theorem planning_none (linkType : LinkType) : Planning source linkType [] :=
  ⟨by simp, by simp, List.nodup_nil⟩

theorem planning_stacks (table : StackTable) (child : Nat) :
    Planning (.pullRequest child) .stacksOn
      (stackDocsFromRows (listStacksOfChild table child)) := by
  refine ⟨fun doc member => ?_, fun doc member => ?_, ?_⟩
  · obtain ⟨_, _, rfl⟩ := List.mem_map.mp member
    rfl
  · obtain ⟨row, inside, rfl⟩ := List.mem_map.mp member
    exact congrArg LinkSource.pullRequest (mem_listStacksOfChild.mp inside).2
  · -- two rows with the same ends are the same row
    have keyed : Keyed StackRow.key (listStacksOfChild table child) :=
      ((List.perm_insertionSort _ _).map StackRow.key).nodup_iff.mpr
        ((table.keyed : List.Nodup _).sublist (List.filter_sublist.map _))
    rw [stackDocsFromRows, List.map_map]
    refine List.Nodup.map_on (fun left hl right hr same => ?_) keyed.of_map
    have ends := LinkId.mk.inj same
    refine keyed.eq hl hr (Prod.ext ?_ ?_)
    · exact LinkSource.pullRequest.inj ends.2.1
    · exact LinkSource.pullRequest.inj ends.2.2

end Plans

end PrSearch.Relation
