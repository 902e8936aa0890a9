import Mathlib.Data.List.Pairwise
import PrSearch.Lib.Dag
import PrSearch.Sequence.Transitions

/-! # Chains and the rows that number them

What it means for an epoch to hold a chain, and how the two transactions act on it when the graph
answers as a mirror of a commit graph does.
-/
namespace PrSearch.Sequence

variable {α : Type} {i seqEpoch mergeSeq : Int} {xs : List α} {a : α} {rows : List MergeSequenceRow}
  {sha : Sha} {db : Store}

/-! ### Places in a list -/

theorem elementAt_of_neg (xs : List α) (negative : i < 0) : elementAt xs i = none := by
  unfold elementAt
  rw [if_neg (by omega)]

theorem elementAt_of_nonneg (xs : List α) (nonneg : 0 ≤ i) : elementAt xs i = xs[i.toNat]? := by
  unfold elementAt
  rw [if_pos nonneg]

theorem elementAt_bounds (here : elementAt xs i = some a) : 0 ≤ i ∧ i < xs.length := by
  unfold elementAt at here
  split at here
  next nonneg =>
    obtain ⟨below, -⟩ := List.getElem?_eq_some_iff.mp here
    omega
  next => cases here

theorem elementAt_isSome (nonneg : 0 ≤ i) (below : i < xs.length) :
    ∃ a, elementAt xs i = some a := by
  rw [elementAt_of_nonneg xs nonneg]
  have inside : i.toNat < xs.length := by omega
  exact ⟨xs[i.toNat], List.getElem?_eq_getElem inside⟩

theorem mem_of_elementAt (here : elementAt xs i = some a) : a ∈ xs := by
  rw [elementAt_of_nonneg xs (elementAt_bounds here).1] at here
  exact List.mem_of_getElem? here

theorem elementAt_of_mem (member : a ∈ xs) : ∃ i, elementAt xs i = some a := by
  obtain ⟨i, below, here⟩ := List.getElem_of_mem member
  refine ⟨i, ?_⟩
  rw [elementAt_of_nonneg xs (by omega)]
  simpa using List.getElem?_eq_some_iff.mpr ⟨below, here⟩

theorem elementAt_append (xs ys : List α) (i : Int) :
    elementAt (xs ++ ys) i =
      if i < xs.length then elementAt xs i else elementAt ys (i - xs.length) := by
  by_cases nonneg : 0 ≤ i
  · rw [elementAt_of_nonneg _ nonneg]
    split
    next inside =>
      rw [elementAt_of_nonneg _ nonneg, List.getElem?_append_left (by omega)]
    next outside =>
      have shift : i.toNat - xs.length = (i - xs.length).toNat := by omega
      rw [elementAt_of_nonneg _ (by omega), List.getElem?_append_right (by omega), shift]
  · have inside : i < xs.length := by omega
    rw [if_pos inside, elementAt_of_neg _ (by omega), elementAt_of_neg _ (by omega)]

theorem elementAt_take (xs : List α) (n : Nat) (i : Int) :
    elementAt (xs.take n) i = if i < n then elementAt xs i else none := by
  by_cases nonneg : 0 ≤ i
  · rw [elementAt_of_nonneg _ nonneg, List.getElem?_take, elementAt_of_nonneg _ nonneg]
    have same : i.toNat < n ↔ i < n := by omega
    simp only [same]
  · rw [elementAt_of_neg _ (by omega), elementAt_of_neg xs (by omega), ite_self]

theorem elementAt_injective (distinct : xs.Nodup) {j : Int} (here : elementAt xs i = some a)
    (there : elementAt xs j = some a) : i = j := by
  have boundsHere := elementAt_bounds here
  have boundsThere := elementAt_bounds there
  rw [elementAt_of_nonneg xs boundsHere.1] at here
  rw [elementAt_of_nonneg xs boundsThere.1] at there
  obtain ⟨insideHere, valueHere⟩ := List.getElem?_eq_some_iff.mp here
  obtain ⟨insideThere, valueThere⟩ := List.getElem?_eq_some_iff.mp there
  have same := (List.Nodup.getElem_inj_iff distinct).mp (valueHere.trans valueThere.symm)
  omega

/-! ### Bindings -/

/-- The rows bind the sequence number of the epoch to the commit. -/
def BindsIn (rows : List MergeSequenceRow) (seqEpoch mergeSeq : Int) (sha : Sha) : Prop :=
  ∃ row ∈ rows, row.seqEpoch = seqEpoch ∧ row.mergeSeq = mergeSeq ∧ row.commitSha = sha

instance (rows : List MergeSequenceRow) (seqEpoch mergeSeq : Int) (sha : Sha) :
    Decidable (BindsIn rows seqEpoch mergeSeq sha) :=
  inferInstanceAs (Decidable (∃ row ∈ rows, _))

/-- The rows of the epoch are exactly `chain`, numbered from one. -/
def Numbers (rows : List MergeSequenceRow) (seqEpoch : Int) (chain : List Sha) : Prop :=
  ∀ mergeSeq sha, BindsIn rows seqEpoch mergeSeq sha ↔ elementAt chain (mergeSeq - 1) = some sha

/-- Each row of the epoch is in its place, and each place of the chain has its row. -/
theorem numbers_iff {chain : List Sha} :
    Numbers rows seqEpoch chain ↔
      (∀ row ∈ rows, row.seqEpoch = seqEpoch →
        elementAt chain (row.mergeSeq - 1) = some row.commitSha) ∧
      ∀ i : Fin chain.length, BindsIn rows seqEpoch (i + 1) chain[i] := by
  constructor
  · intro numbers
    constructor
    · intro row member epoch
      exact (numbers row.mergeSeq row.commitSha).mp ⟨row, member, epoch, rfl, rfl⟩
    · intro i
      rw [numbers, elementAt_of_nonneg _ (by omega)]
      simp
  · rintro ⟨placed, filled⟩ mergeSeq sha
    constructor
    · rintro ⟨row, member, epoch, rfl, rfl⟩
      exact placed row member epoch
    · intro here
      have bounds := elementAt_bounds here
      rw [elementAt_of_nonneg _ bounds.1] at here
      obtain ⟨inside, rfl⟩ := List.getElem?_eq_some_iff.mp here
      have bound : BindsIn rows seqEpoch ((mergeSeq - 1).toNat + 1) chain[(mergeSeq - 1).toNat] :=
        filled ⟨(mergeSeq - 1).toNat, inside⟩
      have place : ((mergeSeq - 1).toNat : Int) + 1 = mergeSeq := by omega
      rwa [place] at bound

instance (rows : List MergeSequenceRow) (seqEpoch : Int) (chain : List Sha) :
    Decidable (Numbers rows seqEpoch chain) :=
  decidable_of_iff _ numbers_iff.symm

/-- No epoch after the given one has rows: it has not been opened. -/
def Unopened (rows : List MergeSequenceRow) (seqEpoch : Int) : Prop :=
  ∀ row ∈ rows, row.seqEpoch ≤ seqEpoch

instance (rows : List MergeSequenceRow) (seqEpoch : Int) : Decidable (Unopened rows seqEpoch) :=
  inferInstanceAs (Decidable (∀ row ∈ rows, _))

theorem bindsIn_append {xs ys : List MergeSequenceRow} :
    BindsIn (xs ++ ys) seqEpoch mergeSeq sha ↔
      BindsIn xs seqEpoch mergeSeq sha ∨ BindsIn ys seqEpoch mergeSeq sha := by
  unfold BindsIn
  constructor
  · rintro ⟨row, member, here⟩
    rcases List.mem_append.mp member with old | new
    · exact Or.inl ⟨row, old, here⟩
    · exact Or.inr ⟨row, new, here⟩
  · rintro (⟨row, member, here⟩ | ⟨row, member, here⟩)
    · exact ⟨row, List.mem_append_left _ member, here⟩
    · exact ⟨row, List.mem_append_right _ member, here⟩

theorem unopened_iff :
    Unopened rows seqEpoch ↔
      ∀ later mergeSeq sha, seqEpoch < later → ¬ BindsIn rows later mergeSeq sha := by
  constructor
  · rintro unopened later mergeSeq sha after ⟨row, member, epoch, -⟩
    have bound := unopened row member
    omega
  · intro none row member
    by_contra beyond
    exact none row.seqEpoch row.mergeSeq row.commitSha (by omega) ⟨row, member, rfl, rfl, rfl⟩

/-- Two rows of one epoch that agree in sequence or in commit are one row. -/
theorem rows_distinct (db : Store) {row row' : MergeSequenceRow} (member : row ∈ db.rows)
    (member' : row' ∈ db.rows) (epoch : row.seqEpoch = row'.seqEpoch)
    (agree : row.mergeSeq = row'.mergeSeq ∨ row.commitSha = row'.commitSha) : row = row' := by
  have symmetric : Std.Symm MergeSequenceRow.Distinct := ⟨fun _ _ => MergeSequenceRow.Distinct.symm⟩
  by_contra apart
  obtain ⟨seqs, commits, -⟩ := db.lawful.distinct.forall member member' apart epoch
  rcases agree with seq | commit
  · exact seqs seq
  · exact commits commit

theorem bindsIn_unique {sha' : Sha} (here : BindsIn db.rows seqEpoch mergeSeq sha)
    (there : BindsIn db.rows seqEpoch mergeSeq sha') : sha = sha' := by
  obtain ⟨row, member, epoch, seq, rfl⟩ := here
  obtain ⟨row', member', epoch', seq', rfl⟩ := there
  rw [rows_distinct db member member' (epoch.trans epoch'.symm) (Or.inl (seq.trans seq'.symm))]

theorem bindsIn_injective {mergeSeq' : Int} (here : BindsIn db.rows seqEpoch mergeSeq sha)
    (there : BindsIn db.rows seqEpoch mergeSeq' sha) : mergeSeq = mergeSeq' := by
  obtain ⟨row, member, epoch, rfl, commit⟩ := here
  obtain ⟨row', member', epoch', rfl, commit'⟩ := there
  rw [rows_distinct db member member' (epoch.trans epoch'.symm)
    (Or.inr (commit.trans commit'.symm))]

theorem findSeqByCommit_eq_some :
    db.findSeqByCommit seqEpoch sha = some mergeSeq ↔ BindsIn db.rows seqEpoch mergeSeq sha := by
  constructor
  · intro found
    obtain ⟨row, here, rfl⟩ := Option.map_eq_some_iff.mp found
    have matched := List.find?_some here
    simp only [decide_eq_true_eq] at matched
    exact ⟨row, List.mem_of_find?_eq_some here, matched.1, rfl, matched.2⟩
  · rintro ⟨row, member, epoch, seq, commit⟩
    cases found : db.findSeqByCommit seqEpoch sha with
    | none =>
      have missing := List.find?_eq_none.mp (Option.map_eq_none_iff.mp found) row member
      simp [epoch, commit] at missing
    | some other =>
      obtain ⟨row', here, rfl⟩ := Option.map_eq_some_iff.mp found
      have matched := List.find?_some here
      simp only [decide_eq_true_eq] at matched
      have same : row'.mergeSeq = mergeSeq := bindsIn_injective
        ⟨row', List.mem_of_find?_eq_some here, matched.1, rfl, matched.2⟩
        ⟨row, member, epoch, seq, commit⟩
      rw [same]

theorem findSeqByCommit_eq_none :
    db.findSeqByCommit seqEpoch sha = none ↔ ∀ mergeSeq, ¬ BindsIn db.rows seqEpoch mergeSeq sha := by
  rw [Option.eq_none_iff_forall_ne_some]
  exact forall_congr' fun mergeSeq => not_congr findSeqByCommit_eq_some

variable {after other keepSeq : Int} {entries : List MergeSequenceInsert} {core : SequenceSpace}

/-! ### What the transactions bind -/

/-- Consecutive entries bind their commits from the number after `after`. -/
theorem bindsIn_entries (consecutive : Consecutive seqEpoch after entries) :
    BindsIn (entries.map MergeSequenceInsert.row) seqEpoch mergeSeq sha ↔
      elementAt (entries.map MergeSequenceInsert.commitSha) (mergeSeq - 1 - after) = some sha := by
  induction entries generalizing after with
  | nil => simp [BindsIn, elementAt]
  | cons entry rest ih =>
    obtain ⟨epoch, seq, later⟩ := consecutive
    have first : BindsIn ([entry].map MergeSequenceInsert.row) seqEpoch mergeSeq sha ↔
        mergeSeq = after + 1 ∧ entry.commitSha = sha := by
      simp only [BindsIn, List.map_cons, List.map_nil, List.mem_singleton, exists_eq_left,
        MergeSequenceInsert.row, epoch, seq, true_and]
      rw [eq_comm]
    rw [← List.singleton_append, List.map_append, List.map_append, bindsIn_append, first, ih later,
      elementAt_append]
    simp only [List.map_cons, List.map_nil, List.length_singleton]
    split
    next inside =>
      have outside : elementAt (rest.map MergeSequenceInsert.commitSha)
          (mergeSeq - 1 - (after + 1)) = none := elementAt_of_neg _ (by omega)
      rw [outside]
      simp only [reduceCtorEq, or_false]
      constructor
      · rintro ⟨rfl, rfl⟩
        rw [elementAt_of_nonneg _ (by omega)]
        have zero : (after + 1 - 1 - after).toNat = 0 := by omega
        rw [zero]
        rfl
      · intro here
        have bounds := elementAt_bounds here
        have place : mergeSeq = after + 1 := by omega
        subst place
        exact ⟨rfl, (List.mem_singleton.mp (mem_of_elementAt here)).symm⟩
    next outside =>
      have apart : ¬ (mergeSeq = after + 1 ∧ entry.commitSha = sha) := by omega
      have shift : mergeSeq - 1 - after - ((1 : Nat) : Int) = mergeSeq - 1 - (after + 1) := by omega
      rw [shift]
      simp only [apart, false_or]

theorem bindsIn_entries_other (consecutive : Consecutive seqEpoch after entries)
    (differs : other ≠ seqEpoch) :
    ¬ BindsIn (entries.map MergeSequenceInsert.row) other mergeSeq sha := by
  rintro ⟨row, member, epoch, -⟩
  obtain ⟨entry, inside, rfl⟩ := List.mem_map.mp member
  exact differs (epoch.symm.trans (consecutive.mem inside).1)

theorem bindsIn_keptRows :
    BindsIn (keptRows core keepSeq rows) (core.seqEpoch + 1) mergeSeq sha ↔
      0 < keepSeq ∧ mergeSeq ≤ keepSeq ∧ BindsIn rows core.seqEpoch mergeSeq sha := by
  constructor
  · rintro ⟨row, member, -, rfl, rfl⟩
    obtain ⟨keeps, old, inside, epoch, below, rfl⟩ := mem_keptRows.mp member
    exact ⟨keeps, below, old, inside, epoch, rfl, rfl⟩
  · rintro ⟨keeps, below, old, inside, epoch, rfl, rfl⟩
    exact ⟨_, mem_keptRows.mpr ⟨keeps, old, inside, epoch, below, rfl⟩, rfl, rfl, rfl⟩

theorem bindsIn_keptRows_other (differs : other ≠ core.seqEpoch + 1) :
    ¬ BindsIn (keptRows core keepSeq rows) other mergeSeq sha := by
  rintro ⟨row, member, epoch, -⟩
  obtain ⟨-, old, -, -, -, rfl⟩ := mem_keptRows.mp member
  exact differs epoch.symm

end PrSearch.Sequence
