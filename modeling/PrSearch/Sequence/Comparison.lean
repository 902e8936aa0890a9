import PrSearch.Sequence.Chain

/-! # The comparison of stored rows with a chain

What the first mismatch says about the rows below it, and what its absence says about all of them.
Only the rows that are there are looked at: a missing number is never a mismatch.
-/
namespace PrSearch.Sequence

/-- The entry is, up to letter case, the commit at its place. -/
def Matches (actual : List Sha) (entry : StoredSequenceEntry) : Prop :=
  ∃ sha, elementAt actual (entry.mergeSeq - 1) = some sha ∧
    toLowerCase sha = toLowerCase entry.commitSha

variable {actual : List Sha} {entries stored : List StoredSequenceEntry}
  {mismatch : SequenceMismatch}

theorem firstMismatchIn_none (consistent : firstMismatchIn actual entries = none) :
    ∀ entry ∈ entries, Matches actual entry := by
  induction entries with
  | nil =>
    intro entry member
    cases member
  | cons first rest ih =>
    simp only [firstMismatchIn] at consistent
    split at consistent
    · cases consistent
    next sha here =>
      split at consistent
      · cases consistent
      next same =>
        intro entry member
        rcases List.mem_cons.mp member with rfl | later
        · exact ⟨sha, here, not_not.mp same⟩
        · exact ih consistent entry later

/-- The first mismatch is an entry, and every entry of a smaller number matches. -/
theorem firstMismatchIn_some (found : firstMismatchIn actual entries = some mismatch)
    (sorted : entries.Pairwise fun a b => a.mergeSeq ≤ b.mergeSeq) :
    (∃ entry ∈ entries, entry.mergeSeq = mismatch.mergeSeq) ∧
      ∀ entry ∈ entries, entry.mergeSeq < mismatch.mergeSeq → Matches actual entry := by
  induction entries with
  | nil => cases found
  | cons first rest ih =>
    have above := (List.pairwise_cons.mp sorted).1
    have here_first : ∀ stored sha, mismatch = ⟨first.mergeSeq, stored, sha⟩ →
        (∃ entry ∈ first :: rest, entry.mergeSeq = mismatch.mergeSeq) ∧
          ∀ entry ∈ first :: rest, entry.mergeSeq < mismatch.mergeSeq → Matches actual entry := by
      rintro stored sha rfl
      refine ⟨⟨first, List.mem_cons_self, rfl⟩, ?_⟩
      intro entry member before
      rcases List.mem_cons.mp member with rfl | later
      · exact absurd before (lt_irrefl _)
      · exact absurd before (not_lt.mpr (above entry later))
    simp only [firstMismatchIn] at found
    split at found
    · exact here_first _ _ (Option.some.inj found).symm
    next sha here =>
      split at found
      · exact here_first _ _ (Option.some.inj found).symm
      next same =>
        obtain ⟨⟨entry, member, seq⟩, earlier⟩ := ih found (List.pairwise_cons.mp sorted).2
        refine ⟨⟨entry, List.mem_cons_of_mem _ member, seq⟩, ?_⟩
        intro other member before
        rcases List.mem_cons.mp member with rfl | later
        · exact ⟨sha, here, not_not.mp same⟩
        · exact earlier other later before

theorem firstSequenceMismatch_none (consistent : firstSequenceMismatch stored actual = none) :
    ∀ entry ∈ stored, Matches actual entry := by
  intro entry member
  apply firstMismatchIn_none consistent
  exact (List.mem_insertionSort _).mpr member

theorem firstSequenceMismatch_some (found : firstSequenceMismatch stored actual = some mismatch) :
    (∃ entry ∈ stored, entry.mergeSeq = mismatch.mergeSeq) ∧
      ∀ entry ∈ stored, entry.mergeSeq < mismatch.mergeSeq → Matches actual entry := by
  have total : Std.Total fun a b : StoredSequenceEntry => a.mergeSeq ≤ b.mergeSeq :=
    ⟨fun a b => le_total a.mergeSeq b.mergeSeq⟩
  have transitive : IsTrans StoredSequenceEntry fun a b => a.mergeSeq ≤ b.mergeSeq :=
    ⟨fun _ _ _ => le_trans⟩
  obtain ⟨⟨entry, member, seq⟩, earlier⟩ :=
    firstMismatchIn_some found (List.pairwise_insertionSort _ stored)
  refine ⟨⟨entry, (List.mem_insertionSort _).mp member, seq⟩, ?_⟩
  intro other member before
  exact earlier other ((List.mem_insertionSort _).mpr member) before

theorem mem_listStoredSequence {db : Store} {seqEpoch fromSeq mergeSeq : Int} {sha : Sha} :
    (⟨mergeSeq, sha⟩ : StoredSequenceEntry) ∈ db.listStoredSequence seqEpoch fromSeq ↔
      fromSeq ≤ mergeSeq ∧ BindsIn db.rows seqEpoch mergeSeq sha := by
  simp only [Store.listStoredSequence, Store.orderBySeq, List.mem_map, List.mem_insertionSort,
    List.mem_filter, decide_eq_true_eq, StoredSequenceEntry.mk.injEq]
  constructor
  · rintro ⟨row, ⟨member, epoch, least⟩, rfl, rfl⟩
    exact ⟨least, row, member, epoch, rfl, rfl⟩
  · rintro ⟨least, row, member, epoch, rfl, rfl⟩
    exact ⟨row, ⟨member, epoch, least⟩, rfl, rfl⟩

end PrSearch.Sequence
