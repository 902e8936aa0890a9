import PrSearch.Links.Effective

/-! # What the writers ask for

A transaction of the chain asks for every commit whose links it changes. An adoption asks for every
commit whose pull requests it changes, but another commit of the pull request can be verified by it, or
no longer. And the tracked branches, and the pull request of a commit on the chain, are written by
transactions that ask for nothing.
-/
namespace PrSearch.Links

open Query (Text)
open PrSearch.Relation (Sha isHex)
open Index.CommitLinks (normalizeLinkNumbers maxSafeInteger)
open Rows

section Definitions

variable (tables tables' : LinkTables) (raised : List Sha)

/-- Some pull request lists the commit. -/
def Listed (sha : Sha) : Prop := ∃ prNumber, Linked tables.store.links prNumber sha .source

def Valid : Prop := ∀ link ∈ tables.store.links.rows, PrChk link.prNumber

/-- What is left to show is asked for. -/
structure Asks : Prop where
  view : ∀ sha, sha ∉ raised → currentLinkView tables' sha = currentLinkView tables sha
  linked : ∀ prNumber sha evidence, Linked tables'.store.links prNumber sha evidence →
    sha ∈ raised ∨ Linked tables.store.links prNumber sha evidence
  valid : Valid tables → Valid tables'

/-- What a transaction changes without asking for it does not come about: an adoption makes no other
commit verified or unverified, and the branches and the numbers leave what is shown of every commit. -/
def Remembers : LinkChange → Prop
  | .adopt input => ∀ sha, sha ∉ (adoptLinkObservation tables.store input).1.affected →
      verifiedLinks { tables with store := (adoptLinkObservation tables.store input).2 } sha =
        verifiedLinks tables sha
  | .assign .. | .reassign .. => True
  | .updateBranches sequenceBranches => ∀ sha,
      currentLinkView { tables with sequenceBranches := sequenceBranches } sha =
        currentLinkView tables sha
  | .assignMergeNumbers baseBranch seqEpoch assignments => ∀ sha,
      currentLinkView (tables.withMergeNumbers baseBranch seqEpoch assignments) sha =
        currentLinkView tables sha

end Definitions

variable {text : Text} {prNumber : Nat} {row : MergeSequenceRow} {shas : List Text}
  {pullRequest : Option Nat}

section Names

theorem toLower_of_isHex {c : Char} (hex : isHex c = true) : c.toLower = c := by
  have notUpper : ¬ (c.val ≥ 'A'.val ∧ c.val ≤ 'Z'.val) := by
    simp only [isHex, Bool.or_eq_true, Bool.and_eq_true, decide_eq_true_eq, Char.le_def] at hex
    simp only [UInt32.le_iff_toNat_le, ge_iff_le] at hex ⊢
    have values : '0'.val.toNat = 48 ∧ '9'.val.toNat = 57 ∧ 'a'.val.toNat = 97 ∧
        'f'.val.toNat = 102 ∧ 'A'.val.toNat = 65 ∧ 'Z'.val.toNat = 90 := by decide
    omega
  delta Char.toLower
  rw [dif_neg notUpper]

theorem map_toLower_text (sha : Sha) : sha.text.map Char.toLower = sha.text := by
  refine (List.map_congr_left fun c inside => ?_).trans (List.map_id _)
  exact toLower_of_isHex (sha.hexadecimal c inside)

theorem normalizeSha_of_toLower {sha : Sha} (is : text.map Char.toLower = sha.text) :
    normalizeSha text = some sha := by
  unfold normalizeSha
  simp only [is, sha.length, true_and]
  rw [dif_pos sha.hexadecimal]

theorem mem_chainChanged {links : LinkTable} {texts : List Text} {sha : Sha} (inside : text ∈ texts)
    (is : text.map Char.toLower = sha.text) (listed : Linked links prNumber sha .source) :
    sha ∈ chainChanged links texts := by
  obtain ⟨link, held, key⟩ := listed
  simp only [PullRequestCommitLinkRow.key, Prod.mk.injEq] at key
  refine List.mem_filter.mpr ⟨mem_firsts_id.mpr ?_, List.any_eq_true.mpr ⟨link, held, ?_⟩⟩
  · exact List.mem_filterMap.mpr ⟨text, inside, normalizeSha_of_toLower is⟩
  · simp [key.2.1, key.2.2]

end Names

/-! ### Adoptions -/

section Adoptions

variable {tables : LinkTables} {input : LinkObservationInput} {sha : Sha}

theorem not_mem_affected (apart : sha ∉ (adopted tables.store input).1.affected) :
    sha ∉ addSource tables.store input ∧ sha ∉ addMerge tables.store input ∧
      sha ∉ removedSource tables.store input ∧ sha ∉ removedMerge tables.store input := by
  simp only [adopted, mem_firsts_id, List.mem_append, not_or] at apart
  exact ⟨apart.1.1, apart.1.2, apart.2.1, apart.2.2⟩

/-- The links of a commit that an adoption does not ask for stay as they are. -/
theorem linked_adopted_iff (apart : sha ∉ (adopted tables.store input).1.affected) (prNumber : Nat)
    (evidence : LinkEvidence) :
    Linked (adoptedLinks tables.store input) prNumber sha evidence ↔
      Linked tables.store.links prNumber sha evidence := by
  obtain ⟨notSource, notMerge, keptSource, keptMerge⟩ := not_mem_affected apart
  rw [linked_adoptedLinks]
  split
  next own =>
    subst own
    cases evidence with
    | source =>
      have linked : sha ∈ input.sources → Linked tables.store.links input.prNumber sha .source := by
        simpa [addSource, mem_currentLinks] using notSource
      by_cases complete : input.commitsComplete = true
      · have kept : Linked tables.store.links input.prNumber sha .source → sha ∈ input.sources := by
          simpa [removedSource, complete, dropSource, mem_currentLinks] using keptSource
        simpa [complete] using Iff.intro linked kept
      · simpa [complete] using linked
    | merge =>
      have linked : input.merged = some sha → Linked tables.store.links input.prNumber sha .merge := by
        simpa [addMerge, mem_currentLinks] using notMerge
      by_cases read : input.pullRequestAuthoritative = true
      · have kept : Linked tables.store.links input.prNumber sha .merge →
            input.merged = some sha := by
          simpa [removedMerge, read, dropMerge, mem_currentLinks] using keptMerge
        simpa [read] using Iff.intro linked kept
      · simpa [read] using linked
  next => rfl

theorem linked_call_iff (apart : sha ∉ (adoptLinkObservation tables.store input).1.affected)
    (prNumber : Nat) (evidence : LinkEvidence) :
    Linked (adoptLinkObservation tables.store input).2.links prNumber sha evidence ↔
      Linked tables.store.links prNumber sha evidence := by
  have call := adoption_of_call tables.store input
  generalize adoptLinkObservation tables.store input = result at call apart ⊢
  cases call with
  | none _ _ _ => rfl
  | conflict _ _ => rfl
  | adopted _ => exact linked_adopted_iff apart prNumber evidence

-- A link that is there afterwards was there, or it is one of the pull request.
theorem linked_of_call {evidence : LinkEvidence}
    (linked : Linked (adoptLinkObservation tables.store input).2.links prNumber sha evidence) :
    prNumber = input.prNumber ∨ Linked tables.store.links prNumber sha evidence := by
  have call := adoption_of_call tables.store input
  generalize adoptLinkObservation tables.store input = result at call linked
  cases call with
  | none _ _ _ => exact .inr linked
  | conflict _ _ => exact .inr linked
  | adopted _ =>
    by_cases own : prNumber = input.prNumber
    · exact .inl own
    · exact .inr (by simpa [own] using linked_adoptedLinks.mp linked)

theorem asks_adopt (checked : PrChk input.prNumber) (remembers : Remembers tables (.adopt input)) :
    Asks tables { tables with store := (adoptLinkObservation tables.store input).2 }
      (adoptLinkObservation tables.store input).1.affected where
  view sha apart := by
    refine currentLinkView_congr (fun prNumber evidence => ?_) (remembers sha apart)
    exact and_congr_left fun _ => linked_call_iff apart prNumber evidence
  linked prNumber sha evidence linked := by
    by_cases asked : sha ∈ (adoptLinkObservation tables.store input).1.affected
    · exact .inl asked
    · exact .inr ((linked_call_iff asked prNumber evidence).mp linked)
  valid valid := by
    intro link inside
    rcases linked_of_call ⟨link, inside, rfl⟩ with own | ⟨old, held, key⟩
    · exact own ▸ checked
    · have same : old.prNumber = link.prNumber := congrArg Prod.fst key
      exact same ▸ valid old held

end Adoptions

/-! ### The chain -/

section Chain

variable {rows rows' : MergeSequence} {baseBranch : Text} {seqEpoch : Nat}
  {entries : List SequenceEntry}

/-- The row is in no place of the epoch, or not one of these commits. -/
def Apart (baseBranch : Text) (seqEpoch : Nat) (shas : List Text) (row : MergeSequenceRow) : Prop :=
  row.baseBranch = baseBranch → row.seqEpoch = seqEpoch → row.commitSha ∉ shas

theorem mem_put_apart {written : MergeSequenceRow} (apart : Apart baseBranch seqEpoch shas row)
    (branch : written.baseBranch = baseBranch) (epoch : written.seqEpoch = seqEpoch)
    (sha : written.commitSha ∈ shas)
    (free : ∀ stored ∈ rows.rows, stored.key = written.key → stored.commitSha ∈ shas) :
    row ∈ (rows.put written).rows ↔ row ∈ rows.rows := by
  rw [Table.mem_put]
  constructor
  · rintro (rfl | ⟨held, _⟩)
    · exact absurd sha (apart branch epoch)
    · exact held
  · intro held
    refine .inr ⟨held, fun same => ?_⟩
    have place := Prod.mk.inj same
    exact apart (place.1.trans branch) ((Prod.mk.inj place.2).1.trans epoch) (free row held same)

theorem mem_upsertMergeSequence {entry : SequenceEntry}
    (written : upsertMergeSequence baseBranch seqEpoch rows entry = some rows')
    (inside : entry.commitSha ∈ shas) (apart : Apart baseBranch seqEpoch shas row) :
    row ∈ rows'.rows ↔ row ∈ rows.rows := by
  unfold upsertMergeSequence at written
  split at written
  next none =>
    cases written
    refine mem_put_apart apart rfl rfl inside fun stored held same => ?_
    exact absurd (decide_eq_true same) (List.find?_eq_none.mp none stored held)
  next stored found =>
    split at written
    next same =>
      cases written
      refine mem_put_apart apart rfl rfl inside fun other held place => ?_
      obtain ⟨there, own⟩ := rows.keyed.find?_eq_some.mp found
      rw [rows.keyed.eq held there (place.trans own.symm), same]
      exact inside
    next => cases written

theorem mem_upsertMergeSequences
    (written : upsertMergeSequences baseBranch seqEpoch rows entries = some rows')
    (inside : ∀ entry ∈ entries, entry.commitSha ∈ shas)
    (apart : Apart baseBranch seqEpoch shas row) : row ∈ rows'.rows ↔ row ∈ rows.rows := by
  induction entries generalizing rows with
  | nil =>
    cases written
    rfl
  | cons entry rest ih =>
    rw [List.forall_mem_cons] at inside
    obtain ⟨between, first, later⟩ := Option.bind_eq_some_iff.mp written
    exact (ih later inside.2).trans (mem_upsertMergeSequence first inside.1 apart)

-- Copies are made in the new epoch only.
theorem mem_copySequencesUpTo {fromEpoch toEpoch upTo : Nat}
    (apart : row.baseBranch = baseBranch → row.seqEpoch ≠ toEpoch) :
    row ∈ (copySequencesUpTo baseBranch fromEpoch toEpoch upTo rows).rows ↔ row ∈ rows.rows := by
  refine ⟨fun member => ?_, Table.mem_putAllNew_of_mem⟩
  rcases Table.of_mem_putAllNew member with old | copied
  · exact old
  · obtain ⟨source, inside, rfl⟩ := List.mem_map.mp copied
    have own := List.of_mem_filter inside
    simp only [Bool.and_eq_true, decide_eq_true_eq] at own
    exact absurd rfl (apart own.1.1)

theorem mem_sequencePairs {sha : Text} :
    (sha, pullRequest) ∈ sequencePairs baseBranch rows seqEpoch ↔ ∃ row ∈ rows.rows,
      row.baseBranch = baseBranch ∧ row.seqEpoch = seqEpoch ∧ row.commitSha = sha ∧
        row.pullRequestNumber = pullRequest := by
  simp only [sequencePairs, List.mem_map, List.mem_filter, Bool.and_eq_true, decide_eq_true_eq,
    Prod.mk.injEq]
  constructor
  · rintro ⟨row, ⟨inside, branch, epoch⟩, own, is⟩
    exact ⟨row, inside, branch, epoch, own, is⟩
  · rintro ⟨row, inside, branch, epoch, own, is⟩
    exact ⟨row, ⟨inside, branch, epoch⟩, own, is⟩

-- A commit that is not in the difference has come with the same pull requests.
theorem pairs_iff_of_unchanged {oldEpoch newEpoch : Nat} {sha : Sha} (pullRequest : Option Nat)
    (unchanged : ∀ text ∈ listChangedCommitsBetweenEpochs baseBranch rows oldEpoch newEpoch,
      text.map Char.toLower ≠ sha.text) :
    (sha.text, pullRequest) ∈ sequencePairs baseBranch rows oldEpoch ↔
      (sha.text, pullRequest) ∈ sequencePairs baseBranch rows newEpoch := by
  have lower : (sha.text.map Char.toLower).map Char.toLower = sha.text := by
    rw [map_toLower_text, map_toLower_text]
  constructor
  · intro old
    by_contra gone
    refine unchanged (sha.text.map Char.toLower) (List.mem_map.mpr ⟨(sha.text, pullRequest), ?_, rfl⟩)
      lower
    exact List.mem_append_left _ (List.mem_filter.mpr ⟨old, by simpa using gone⟩)
  · intro new
    by_contra gone
    refine unchanged (sha.text.map Char.toLower) (List.mem_map.mpr ⟨(sha.text, pullRequest), ?_, rfl⟩)
      lower
    exact List.mem_append_right _ (List.mem_filter.mpr ⟨new, by simpa using gone⟩)

theorem asks_assign {tables : LinkTables}
    (written : upsertMergeSequences baseBranch (tables.seqEpoch baseBranch) tables.mergeSequence
      entries = some rows') :
    Asks tables { tables with mergeSequence := rows' }
      (chainChanged tables.store.links (entries.map SequenceEntry.commitSha)) where
  view sha apart := by
    refine currentLinkView_congr_of_landed rfl fun listed pullRequest => ?_
    obtain ⟨lister, linked⟩ := listed
    have other : sha.text ∉ entries.map SequenceEntry.commitSha :=
      fun inside => apart (mem_chainChanged inside (map_toLower_text sha) linked)
    have same : ∀ row : MergeSequenceRow, row.commitSha = sha.text →
        (row ∈ rows'.rows ↔ row ∈ tables.mergeSequence.rows) := fun row own =>
      mem_upsertMergeSequences written (fun entry => List.mem_map_of_mem) fun _ _ => own ▸ other
    constructor
    · rintro ⟨row, inside, tracked, present, own, is⟩
      exact ⟨row, (same row own).mp inside, tracked, present, own, is⟩
    · rintro ⟨row, inside, tracked, present, own, is⟩
      exact ⟨row, (same row own).mpr inside, tracked, present, own, is⟩
  linked _ _ _ linked := .inr linked
  valid valid := valid

/-- The chain of the branch is told by the pairs of its epoch, and the others by their own rows. -/
theorem landed_iff_pairs {tables : LinkTables} {sha : Sha} (baseBranch : Text) :
    Landed tables sha pullRequest ↔
      (baseBranch ∈ tables.sequenceBranches ∧ (sha.text, pullRequest) ∈
        sequencePairs baseBranch tables.mergeSequence (tables.seqEpoch baseBranch)) ∨
      ∃ row ∈ tables.mergeSequence.rows, row.baseBranch ≠ baseBranch ∧
        row.baseBranch ∈ tables.sequenceBranches ∧ row.seqEpoch = tables.seqEpoch row.baseBranch ∧
          row.commitSha = sha.text ∧ row.pullRequestNumber = pullRequest := by
  rw [mem_sequencePairs]
  constructor
  · rintro ⟨row, inside, tracked, present, own, is⟩
    by_cases branch : row.baseBranch = baseBranch
    · subst branch
      exact .inl ⟨tracked, row, inside, rfl, present, own, is⟩
    · exact .inr ⟨row, inside, branch, tracked, present, own, is⟩
  · rintro (⟨tracked, row, inside, rfl, present, own, is⟩ |
      ⟨row, inside, _, tracked, present, own, is⟩)
    · exact ⟨row, inside, tracked, present, own, is⟩
    · exact ⟨row, inside, tracked, present, own, is⟩

theorem asks_reassign {tables : LinkTables} {baseSeq : Nat}
    (written : upsertMergeSequences baseBranch (tables.seqEpoch baseBranch + 1)
      (copySequencesUpTo baseBranch (tables.seqEpoch baseBranch) (tables.seqEpoch baseBranch + 1)
        baseSeq tables.mergeSequence) entries = some rows') :
    Asks tables
      { tables with
        mergeSequence := rows'
        seqEpoch := Function.update tables.seqEpoch baseBranch (tables.seqEpoch baseBranch + 1) }
      (chainChanged tables.store.links (listChangedCommitsBetweenEpochs baseBranch rows'
        (tables.seqEpoch baseBranch) (tables.seqEpoch baseBranch + 1))) where
  view sha apart := by
    refine currentLinkView_congr_of_landed rfl fun listed pullRequest => ?_
    obtain ⟨lister, linked⟩ := listed
    -- nothing is written but in the new epoch
    have kept : ∀ row : MergeSequenceRow,
        (row.baseBranch = baseBranch → row.seqEpoch ≠ tables.seqEpoch baseBranch + 1) →
          (row ∈ rows'.rows ↔ row ∈ tables.mergeSequence.rows) := fun row other =>
      (mem_upsertMergeSequences written (fun entry => List.mem_map_of_mem)
        fun branch epoch => absurd epoch (other branch)).trans (mem_copySequencesUpTo other)
    have old : (sha.text, pullRequest) ∈
        sequencePairs baseBranch rows' (tables.seqEpoch baseBranch) ↔ (sha.text, pullRequest) ∈
          sequencePairs baseBranch tables.mergeSequence (tables.seqEpoch baseBranch) := by
      rw [mem_sequencePairs, mem_sequencePairs]
      refine exists_congr fun row => and_congr_left fun own => kept row fun _ => ?_
      rw [own.2.1]
      exact Nat.ne_of_lt (Nat.lt_succ_self _)
    have unchanged := pairs_iff_of_unchanged pullRequest fun text inside is =>
      apart (mem_chainChanged inside is linked)
    rw [landed_iff_pairs baseBranch, landed_iff_pairs baseBranch]
    refine or_congr (and_congr_right fun _ => ?_) (exists_congr fun row => ?_)
    · simpa using unchanged.symm.trans old
    · constructor
      · rintro ⟨inside, branch, tracked, present, own⟩
        have present : row.seqEpoch = tables.seqEpoch row.baseBranch := by
          simpa [branch] using present
        exact ⟨(kept row (absurd · branch)).mp inside, branch, tracked, present, own⟩
      · rintro ⟨inside, branch, tracked, present, own⟩
        refine ⟨(kept row (absurd · branch)).mpr inside, branch, tracked, ?_, own⟩
        simpa [branch] using present
  linked _ _ _ linked := .inr linked
  valid valid := valid

end Chain

/-- A transaction that does not forget asks for all that it changes. -/
theorem asks_change {tables tables' : LinkTables} {change : LinkChange} {raised : List Sha}
    (changed : tables.change change = some (tables', raised)) (remembers : Remembers tables change) :
    Asks tables tables' raised := by
  cases change with
  | adopt input =>
    simp only [LinkTables.change] at changed
    split at changed
    next checked =>
      cases changed
      exact asks_adopt checked remembers
    next => cases changed
  | assign baseBranch entries =>
    obtain ⟨rows, written, is⟩ := Option.map_eq_some_iff.mp changed
    cases is
    exact asks_assign written
  | reassign baseBranch baseSeq entries =>
    obtain ⟨rows, written, is⟩ := Option.map_eq_some_iff.mp changed
    cases is
    exact asks_reassign written
  | updateBranches sequenceBranches =>
    cases changed
    exact ⟨fun sha _ => remembers sha, fun _ _ _ linked => .inr linked, fun valid => valid⟩
  | assignMergeNumbers baseBranch seqEpoch assignments =>
    cases changed
    exact ⟨fun sha _ => remembers sha, fun _ _ _ linked => .inr linked, fun valid => valid⟩

end PrSearch.Links
