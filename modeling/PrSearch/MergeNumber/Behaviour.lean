import PrSearch.MergeNumber.Reconcile
import PrSearch.MergeNumber.Round

/-! # What a numbering round does to the tables

What a round has read before the lock is old. The checks under the lock tie it to the tables that
the round writes: an epoch and a checkpoint that have not moved mean that no row beyond the
checkpoint has changed, and an unmoved evidence version that the evidence has not. From then on the
round's plan fits the table, and every assignment finds its row.
-/
namespace PrSearch.MergeNumber

open Sequence Program Tally

/-- Any answers, over tables whose ledger only grows. -/
def counting : Setting where
  allow _ := True
  since := Counts
  trans := Counts.trans
  frozen := Counts.of_frozen

variable {mergeSeq : Int} {decision : EvidenceDecision} {decisions : Decisions}
  {rows : List MergeSequenceRow} {db atEvidence atSpace atRows : Store} {entries : Ledger}

/-! ### Decisions -/

namespace Decisions

theorem get_set (mergeSeq other : Int) (decision : EvidenceDecision) (decisions : Decisions) :
    (decisions.set mergeSeq decision).get other =
      if other = mergeSeq then some decision else decisions.get other := by
  induction decisions with
  | nil =>
    simp [set, get, eq_comm]
  | cons first rest ih =>
    obtain ⟨seq, held⟩ := first
    by_cases here : seq = mergeSeq
    · subst here
      by_cases same : other = seq
      · simp [set, get, same]
      · have apart : ¬ seq = other := fun eq => same eq.symm
        simp [set, get, same, apart]
    · simp only [set, if_neg here, get, ih]
      by_cases named : seq = other
      · have apart : ¬ other = mergeSeq := fun eq => here (named.trans eq)
        simp [named, apart]
      · simp [named]

theorem mem_keys (found : decisions.get mergeSeq = some decision) : mergeSeq ∈ decisions.keys := by
  induction decisions with
  | nil => cases found
  | cons first rest ih =>
    obtain ⟨seq, held⟩ := first
    simp only [get] at found
    split at found
    next same => exact List.mem_map.mpr ⟨(seq, held), List.mem_cons_self, same⟩
    next => exact List.mem_cons_of_mem _ (ih found)

end Decisions

/-- Every decision is one about its row, made with the evidence that was read. -/
def GatheredFrom (seqEpoch : Int) (existing : List EvidenceRow) (rows : List MergeSequenceRow)
    (decisions : Decisions) : Prop :=
  ∀ seq decision, decisions.get seq = some decision → ∃ row ∈ rows, row.mergeSeq = seq ∧
    Resolves seqEpoch row (evidenceOf row.mergeSeq existing) decision

theorem GatheredFrom.set {seqEpoch : Int} {existing : List EvidenceRow} {row : MergeSequenceRow}
    (gathered : GatheredFrom seqEpoch existing rows decisions) (member : row ∈ rows)
    (resolves : Resolves seqEpoch row (evidenceOf row.mergeSeq existing) decision) :
    GatheredFrom seqEpoch existing rows (decisions.set row.mergeSeq decision) := by
  intro seq other found
  rw [Decisions.get_set] at found
  split at found
  next same =>
    cases found
    exact ⟨row, member, same.symm, resolves⟩
  next => exact gathered seq other found

section

variable {W : Type} [DecidableEq W] {T : Store → Store → Prop} {w : W}

/-! ### Before the lock -/

section

variable {P : World W → Prop} {seqEpoch : Int} {row : MergeSequenceRow}
  {existing : Option EvidenceRow}

theorem stillPending_does (stable : Stable counting w P) (force : Bool) :
    Does counting T w P (stillPending force existing) (fun _ => P) P := by
  cases existing with
  | none => exact Does.pure fun _ => id
  | some evidence =>
    simp only [stillPending]
    split
    · exact (Does.asks stable (.recheckPending evidence) (fun c => .ok c.recheckPending)
        fun _ _ => rfl).weaken (fun _ => id) (fun _ _ => And.left) fun _ => id
    · exact Does.pure fun _ => id

/-- Stored evidence that does not settle the row names no pull request. -/
theorem agrees_of_unsettled {evidence : EvidenceRow}
    (unsettled : existing.bind (settled seqEpoch row) = none) (here : existing = some evidence)
    (checked : evidence.Chk) (state : evidence.state = .prConfirmed) {prNumber : Int} :
    evidence.prNumber = some prNumber := by
  have settles : (settled seqEpoch row evidence).isSome := settled_of_prConfirmed checked state
  rw [here, Option.bind_some] at unsettled
  rw [unsettled] at settles
  cases settles

theorem scan_does (stable : Stable counting w P)
    (unsettled : existing.bind (settled seqEpoch row) = none) :
    Does counting T w P (scan seqEpoch row)
      (fun decision s => P s ∧ Resolves seqEpoch row existing decision) P := by
  apply Does.bind ((Does.asks stable (.scanEvidence row) (fun c => c.scanEvidence row)
    fun _ _ => rfl).weaken (fun _ => id) (fun _ _ => And.left) fun _ => id)
  intro found
  cases found with
  | unresolved reason => exact Does.pure fun s holds => ⟨holds, resolves_unresolved reason⟩
  | confirmed prNumber mergedAt =>
    apply Does.pure
    intro s holds
    refine ⟨holds, resolves_confirmed ?_⟩
    intro evidence here checked state
    exact agrees_of_unsettled unsettled here checked state

theorem resolveEvidence_does (stable : Stable counting w P) (force : Bool) :
    Does counting T w P (resolveEvidence seqEpoch row existing force)
      (fun decision s => P s ∧ Resolves seqEpoch row existing decision) P := by
  unfold resolveEvidence
  cases settles : existing.bind (settled seqEpoch row) with
  | some decision =>
    apply Does.pure
    intro s holds
    obtain ⟨evidence, rfl, here⟩ := Option.bind_eq_some_iff.mp settles
    exact ⟨holds, resolves_settled here⟩
  | none =>
    apply Does.bind (stillPending_does stable force)
    intro pending
    cases pending with
    | true => exact Does.pure fun s holds => ⟨holds, resolves_unresolved _⟩
    | false => exact scan_does stable settles

theorem judge_does (stable : Stable counting w P) (attestation : Option Attestation)
    (resolves : Resolves seqEpoch row existing decision) :
    Does counting T w P (judge attestation decision row)
      (fun verdict s => P s ∧ ∀ attested, verdict = .attested attested →
        Resolves seqEpoch row existing attested) P := by
  have neutral : ∀ s, P s → P s ∧ ∀ attested, AttestationVerdict.notApplicable = .attested attested →
      Resolves seqEpoch row existing attested := by
    intro s holds
    refine ⟨holds, ?_⟩
    intro attested impossible
    cases impossible
  cases attestation with
  | none => exact Does.pure neutral
  | some attestation =>
    simp only [judge]
    split
    · apply Does.bind ((Does.asks stable .now (fun c => .ok c.now) fun _ _ => rfl).weaken
        (fun _ => id) (fun _ _ => And.left) fun _ => id)
      intro now
      apply Does.pure
      intro s holds
      exact ⟨holds, fun attested verdict => resolves_attested resolves verdict⟩
    · exact Does.pure neutral

end

/-- The loop over the rows: every decision it records is about its row. -/
theorem gatherDecisions_does {P : World W → Prop} (stable : Stable counting w P) (seqEpoch : Int)
    (existing : List EvidenceRow) (attestation : Option Attestation) (force : Bool)
    {all : List MergeSequenceRow} {gathered : Gathered} (within : ∀ row ∈ rows, row ∈ all)
    (sofar : GatheredFrom seqEpoch existing all gathered.decisions) :
    Does counting T w P (gatherDecisions seqEpoch existing attestation force rows gathered)
      (fun gathered s => P s ∧ GatheredFrom seqEpoch existing all gathered.decisions) P := by
  induction rows generalizing gathered with
  | nil => exact Does.pure fun s holds => ⟨holds, sofar⟩
  | cons row rest ih =>
    have member := within row List.mem_cons_self
    apply Does.bind (resolveEvidence_does stable force)
    intro resolved
    apply Does.given
    intro resolves
    apply Does.bind (judge_does stable attestation resolves)
    intro verdict
    apply Does.given
    intro attests
    -- Whatever the verdict, what is recorded resolves the row.
    have recorded : GatheredFrom seqEpoch existing all
        (gathered.record row resolved verdict).2.decisions := by
      cases verdict with
      | notApplicable => exact sofar.set member resolves
      | gracePending readyAt => exact sofar.set member resolves
      | attested decision => exact sofar.set member (attests decision rfl)
    dsimp only
    split
    · exact Does.pure fun s holds => ⟨holds, recorded⟩
    · exact ih (fun row inside => within row (List.mem_cons_of_mem _ inside)) recorded

/-! ### Under the lock -/

/-- What a round has read: the space, then the rows, then their evidence, from tables that may have
moved in between. -/
structure Prepared (round : Round) (atSpace atRows atEvidence : Store) : Prop where
  counted : Counted atSpace
  epoch : round.seqEpoch = atSpace.core.seqEpoch
  headSeq : round.checkpoint.headSeq = atSpace.core.mnumberHeadSeq
  headNumber : round.checkpoint.headNumber = atSpace.core.mnumberHead
  rowsSince : Counts atSpace atRows
  rows : ∀ row ∈ round.rows, row ∈ atRows.rows ∧ row.seqEpoch = round.seqEpoch ∧
    round.checkpoint.headSeq < row.mergeSeq
  evidenceSince : Counts atRows atEvidence
  existing : ∃ seqs, round.existing = atEvidence.listEvidence round.seqEpoch seqs
  decisions : GatheredFrom round.seqEpoch round.existing round.rows round.gathered.decisions

/-- The round is about the tables that are held. -/
structure Current (round : Round) (d : Store) : Prop where
  counted : Counted d
  epoch : round.seqEpoch = d.core.seqEpoch
  headSeq : round.checkpoint.headSeq = d.core.mnumberHeadSeq
  headNumber : round.checkpoint.headNumber = d.core.mnumberHead
  rows : ∀ row ∈ round.rows, row ∈ d.rows ∧ row.seqEpoch = d.core.seqEpoch ∧
    d.core.mnumberHeadSeq < row.mergeSeq
  decisions : GatheredFrom round.seqEpoch round.existing round.rows round.gathered.decisions
  checked : ∀ evidence ∈ round.existing, evidence.Chk
  direct : ∀ seq, round.gathered.decisions.get seq = some (.directConfirmed none) →
    Attests d.evidence d.core.seqEpoch seq none

theorem findEvidence_eq_some {seqEpoch : Int} {row : EvidenceRow}
    (found : db.findEvidence seqEpoch mergeSeq = some row) :
    row ∈ db.evidence ∧ row.seqEpoch = seqEpoch ∧ row.mergeSeq = mergeSeq := by
  have keyed := List.find?_some found
  simp only [decide_eq_true_eq] at keyed
  exact ⟨List.mem_of_find?_eq_some found, keyed⟩

theorem mem_listEvidence {seqEpoch : Int} {seqs : List Int} {row : EvidenceRow} :
    row ∈ db.listEvidence seqEpoch seqs →
      row ∈ db.evidence ∧ row.seqEpoch = seqEpoch := by
  intro member
  obtain ⟨seq, -, found⟩ := List.mem_filterMap.mp member
  obtain ⟨inside, epoch, -⟩ := findEvidence_eq_some found
  exact ⟨inside, epoch⟩

/-- The evidence of one key is one row. -/
theorem evidence_distinct (db : Store) {row row' : EvidenceRow} (member : row ∈ db.evidence)
    (member' : row' ∈ db.evidence) (epoch : row.seqEpoch = row'.seqEpoch)
    (seq : row.mergeSeq = row'.mergeSeq) : row = row' := by
  have symmetric : Std.Symm fun a b : EvidenceRow =>
      a.seqEpoch = b.seqEpoch → a.mergeSeq ≠ b.mergeSeq :=
    ⟨fun _ _ apart same => (apart same.symm).symm⟩
  by_contra apart
  exact db.lawful.evidenceKey.forall member member' apart epoch seq

theorem evidenceOf_eq_some {evidence : List EvidenceRow} {row : EvidenceRow}
    (found : evidenceOf mergeSeq evidence = some row) :
    row ∈ evidence ∧ row.mergeSeq = mergeSeq := by
  have keyed := List.find?_some found
  simp only [decide_eq_true_eq] at keyed
  exact ⟨List.mem_of_find?_eq_some found, keyed⟩

/-- Evidence whose version has not moved is still there under the lock. -/
theorem unmoved_evidence {seqEpoch : Int} {existing : List EvidenceRow} {seqs seqs' : List Int}
    {d : Store} (since : Counts atEvidence d)
    (read : existing = atEvidence.listEvidence seqEpoch seqs') (member : mergeSeq ∈ seqs)
    (unmoved : evidenceMoved existing (d.listEvidence seqEpoch seqs) seqs = false)
    {row : EvidenceRow} (found : evidenceOf mergeSeq existing = some row) :
    row ∈ d.evidence ∧ row.seqEpoch = seqEpoch ∧ row.mergeSeq = mergeSeq := by
  obtain ⟨inside, seq⟩ := evidenceOf_eq_some found
  rw [read] at inside
  obtain ⟨stored, epoch⟩ := mem_listEvidence inside
  obtain ⟨now, here, ⟨epoch', seq'⟩, -, same⟩ := since.evidence row stored
  have version : versionOf mergeSeq existing =
      versionOf mergeSeq (d.listEvidence seqEpoch seqs) := by
    have still := List.any_eq_false.mp unmoved mergeSeq member
    simpa using still
  -- The row that the lock has read for this number is the one the old row has become.
  have read_now : evidenceOf mergeSeq (d.listEvidence seqEpoch seqs) = some now := by
    cases again : evidenceOf mergeSeq (d.listEvidence seqEpoch seqs) with
    | some other =>
      obtain ⟨listed, otherSeq⟩ := evidenceOf_eq_some again
      obtain ⟨there, otherEpoch⟩ := mem_listEvidence listed
      rw [evidence_distinct d there here (otherEpoch.trans (epoch.symm.trans epoch'.symm))
        (otherSeq.trans (seq.symm.trans seq'.symm))]
    | none =>
      have missing := List.find?_eq_none.mp again
      have listed : now ∈ d.listEvidence seqEpoch seqs := by
        refine List.mem_filterMap.mpr ⟨mergeSeq, member, ?_⟩
        cases looked : d.findEvidence seqEpoch mergeSeq with
        | some other =>
          obtain ⟨there, otherEpoch, otherSeq⟩ := findEvidence_eq_some looked
          rw [evidence_distinct d there here (otherEpoch.trans (epoch.symm.trans epoch'.symm))
            (otherSeq.trans (seq.symm.trans seq'.symm))]
        | none =>
          have absent := List.find?_eq_none.mp looked now here
          simp [epoch', epoch, seq', seq] at absent
      have apart := missing now listed
      simp [seq', seq] at apart
  simp only [versionOf, found, read_now, Option.map_some, Option.getD_some] at version
  rw [← same version.symm]
  exact ⟨here, epoch'.trans epoch, seq'.trans seq⟩

/-- The checks under the lock make what was read current. -/
theorem Prepared.current {round : Round} {d : Store}
    (prepared : Prepared round atSpace atRows atEvidence) (since : Counts atEvidence d)
    (epoch : d.core.seqEpoch = round.seqEpoch)
    (headSeq : d.core.mnumberHeadSeq = round.checkpoint.headSeq)
    (unmoved : evidenceMoved round.existing
      (d.listEvidence round.seqEpoch round.gathered.decisions.keys)
      round.gathered.decisions.keys = false) : Current round d := by
  have rowsTo := prepared.evidenceSince.trans since
  have spaceTo := prepared.rowsSince.trans rowsTo
  have counted := prepared.counted
  have countedRows := prepared.rowsSince.counted counted
  have sameEpoch : d.core.seqEpoch = atSpace.core.seqEpoch := epoch.trans prepared.epoch
  obtain ⟨hereEpoch, thereEpoch⟩ := prepared.rowsSince.epoch_between rowsTo counted sameEpoch
  constructor
  · exact spaceTo.counted counted
  · exact epoch.symm
  · exact headSeq.symm
  · rw [prepared.headNumber]
    exact (spaceTo.head_of_headSeq counted sameEpoch
      (headSeq.trans prepared.headSeq)).symm
  · intro row member
    obtain ⟨inside, rowEpoch, above⟩ := prepared.rows row member
    refine ⟨?_, rowEpoch.trans epoch.symm, headSeq.trans_lt above⟩
    apply rowsTo.pending countedRows thereEpoch row inside
    · rw [rowEpoch, prepared.epoch, hereEpoch]
    · rw [headSeq]
      exact above
  · exact prepared.decisions
  · intro evidence member
    obtain ⟨seqs, read⟩ := prepared.existing
    rw [read] at member
    exact atEvidence.lawful.evidence evidence (mem_listEvidence member).1
  · intro seq decided
    obtain ⟨row, -, rowSeq, resolves⟩ := prepared.decisions seq _ decided
    obtain ⟨evidence, found, state⟩ := (resolves.direct none rfl).2 rfl
    obtain ⟨seqs, read⟩ := prepared.existing
    rw [rowSeq] at found
    obtain ⟨inside, evidenceEpoch, evidenceSeq⟩ := unmoved_evidence since read
      (Decisions.mem_keys decided) unmoved found
    exact ⟨evidence, inside, ⟨evidenceEpoch.trans epoch.symm, evidenceSeq⟩, state⟩

/-- A confirmation never contradicts the stored one: that one would have settled the row. -/
theorem Current.consistent {round : Round} {d : Store} (current : Current round d)
    {row : MergeSequenceRow} (found : round.gathered.decisions.get row.mergeSeq = some decision) :
    contradicts (evidenceOf row.mergeSeq round.existing) decision = false := by
  obtain ⟨other, -, same, resolves⟩ := current.decisions _ _ found
  cases decision with
  | directConfirmed => rfl
  | unresolved => rfl
  | prConfirmed prNumber mergedAt upsert =>
    simp only [contradicts]
    rw [Option.any_eq_false]
    intro evidence here
    have agrees := (resolves.pr prNumber mergedAt upsert rfl).2.2 evidence (by rw [same, here])
      (current.checked evidence (evidenceOf_eq_some here).1)
    simpa using agrees

/-! ### Storing the evidence -/

/-- The upserts are those of the decisions, and none of the first rows is left out while all of
them are decided. -/
structure StoredOf (decisions : Decisions) (rows : List MergeSequenceRow)
    (upserts : List EvidenceUpsert) : Prop where
  source : ∀ u ∈ upserts, ∃ row ∈ rows, ∃ decision,
    decisions.get row.mergeSeq = some decision ∧ decision.upsert = some u
  complete : ∀ passed rest, rows = passed ++ rest →
    (∀ row ∈ passed, ∃ decision, decisions.get row.mergeSeq = some decision ∧
      decision.isUnresolved = false) →
    ∀ row ∈ passed, ∀ decision u, decisions.get row.mergeSeq = some decision →
      decision.upsert = some u → u ∈ upserts

theorem storedOf_nil
    (stops : ∀ row rest, rows = row :: rest → ∀ decision,
      decisions.get row.mergeSeq = some decision → decision.isUnresolved = true) :
    StoredOf decisions rows [] := by
  constructor
  · intro u member
    cases member
  · intro passed rest split decided row member
    -- The first row stops the walk, so it has passed nothing.
    cases passed with
    | nil => cases member
    | cons first more =>
      obtain ⟨decision, found, resolved⟩ := decided first List.mem_cons_self
      rw [stops first _ split decision found] at resolved
      cases resolved

theorem StoredOf.cons {row : MergeSequenceRow} {rest : List MergeSequenceRow}
    {upserts : List EvidenceUpsert} (found : decisions.get row.mergeSeq = some decision)
    (stored : StoredOf decisions rest upserts) :
    StoredOf decisions (row :: rest) (decision.upsert.toList ++ upserts) := by
  constructor
  · intro u member
    rcases List.mem_append.mp member with first | later
    · exact ⟨row, List.mem_cons_self, decision, found, Option.mem_toList.mp first⟩
    · obtain ⟨other, inside, source⟩ := stored.source u later
      exact ⟨other, List.mem_cons_of_mem _ inside, source⟩
  · intro passed left split decided other member decision' u here upsert
    cases passed with
    | nil => cases member
    | cons first more =>
      obtain ⟨rfl, rfl⟩ := List.cons.inj split
      rcases List.mem_cons.mp member with rfl | later
      · rw [found] at here
        cases here
        exact List.mem_append_left _ (Option.mem_toList.mpr upsert)
      · exact List.mem_append_right _ (stored.complete more left rfl
          (fun one inside => decided one (List.mem_cons_of_mem _ inside)) other later decision' u
          here upsert)

variable {X : World W → Prop}

theorem storeUpsert_does {history ws : List Write} {d : Store} (upsert : Option EvidenceUpsert)
    (open_of : ∀ ws s, Holding w history ws d s → X s) :
    Does counting T w (Holding w history ws d)
      (storeUpsert upsert)
      (fun _ => Holding w history (ws ++ upsert.toList.map .upsertEvidence) d) X := by
  cases upsert with
  | none =>
    apply Does.pure
    intro s holds
    simpa using holds
  | some upsert =>
    exact Does.discard ((Does.statement _).weaken (fun _ => id) (fun _ _ => id) (open_of ws))

theorem storeEvidence_does {history ws : List Write} {d : Store} (seqEpoch : Int)
    (existing : List EvidenceRow)
    (consistent : ∀ (row : MergeSequenceRow) decision,
      decisions.get row.mergeSeq = some decision →
      contradicts (evidenceOf row.mergeSeq existing) decision = false)
    (open_of : ∀ ws s, Holding w history ws d s → X s) :
    Does counting T w (Holding w history ws d) (storeEvidence seqEpoch existing rows decisions)
      (fun stored s => ∃ upserts, Holding w history (ws ++ upserts.map .upsertEvidence) d s ∧
        stored = decisions ∧ StoredOf decisions rows upserts) X := by
  induction rows generalizing ws with
  | nil =>
    apply Does.pure
    intro s holds
    refine ⟨[], by simpa using holds, rfl, storedOf_nil ?_⟩
    intro row rest impossible
    cases impossible
  | cons row rest ih =>
    simp only [storeEvidence]
    split
    next missing =>
      apply Does.pure
      intro s holds
      refine ⟨[], by simpa using holds, rfl, storedOf_nil ?_⟩
      intro first more split decision found
      obtain ⟨rfl, rfl⟩ := List.cons.inj split
      rw [missing] at found
      cases found
    next decision found =>
      rw [if_neg (by simp [consistent row decision found])]
      apply Does.bind (storeUpsert_does decision.upsert open_of)
      intro _
      split
      next unresolved =>
        -- An undecided row is stored and ends the loop.
        apply Does.pure
        intro s holds
        refine ⟨decision.upsert.toList ++ [], by simpa using holds, rfl, ?_⟩
        constructor
        · intro u member
          rw [List.append_nil] at member
          exact ⟨row, List.mem_cons_self, decision, found, Option.mem_toList.mp member⟩
        · intro passed left split decided other member
          cases passed with
          | nil => cases member
          | cons first more =>
            obtain ⟨rfl, rfl⟩ := List.cons.inj split
            obtain ⟨decision', here, resolved⟩ := decided row List.mem_cons_self
            rw [found] at here
            cases here
            rw [unresolved] at resolved
            cases resolved
      next resolved =>
        refine ih.weaken (fun _ => id) ?_ fun _ => id
        rintro stored s ⟨upserts, holds, same, rest_stored⟩
        refine ⟨decision.upsert.toList ++ upserts, ?_, same, rest_stored.cons found⟩
        simpa [List.append_assoc] using holds

section

variable {round : Round} {d : Store} {upserts : List EvidenceUpsert}

/-- A stored upsert is that of the decision at its number. -/
theorem Current.upsert (current : Current round d)
    (stored : StoredOf round.gathered.decisions round.rows upserts) {u : EvidenceUpsert}
    (member : u ∈ upserts) :
    (∃ decision, round.gathered.decisions.get u.mergeSeq = some decision ∧
      decision.upsert = some u) ∧
      u.seqEpoch = d.core.seqEpoch ∧ d.core.mnumberHeadSeq < u.mergeSeq := by
  obtain ⟨row, -, decision, found, upsert⟩ := stored.source u member
  obtain ⟨other, inside, same, resolves⟩ := current.decisions _ _ found
  obtain ⟨epoch, seq⟩ := resolves.stores u upsert
  have at_row : u.mergeSeq = row.mergeSeq := seq.trans same
  refine ⟨⟨decision, by rw [at_row, found], upsert⟩, epoch.trans current.epoch, ?_⟩
  rw [seq]
  exact (current.rows other inside).2.2

theorem Current.fresh (current : Current round d)
    (stored : StoredOf round.gathered.decisions round.rows upserts) : Fresh d.core upserts := by
  constructor
  · intro u member
    exact (current.upsert stored member).2.1
  · intro u member
    exact (current.upsert stored member).2.2
  · intro u here v there same
    obtain ⟨⟨decision, found, upsert⟩, -⟩ := current.upsert stored here
    obtain ⟨⟨decision', found', upsert'⟩, -⟩ := current.upsert stored there
    rw [same, found'] at found
    cases found
    rw [upsert'] at upsert
    exact (Option.some.inj upsert).symm

/-- The plan row of a decided row. -/
theorem toPlanRow_decides {row : MergeSequenceRow} {decision : Option EvidenceDecision}
    {entry : Option Int} (decides : Decides (toPlanRow row decision) entry) :
    (entry = none ∧ ∃ upsert, decision = some (.directConfirmed upsert)) ∨
      ∃ prNumber mergedAt upsert, entry = some prNumber ∧
        decision = some (.prConfirmed prNumber mergedAt upsert) ∧
          (row.pullRequestNumber = none ∨ row.pullRequestNumber = some prNumber) := by
  cases decision with
  | none =>
    cases decides with
    | direct state => cases state
    | pr prNumber state => cases state
  | some decision =>
    cases decision with
    | unresolved reason upsert =>
      cases decides with
      | direct state => cases state
      | pr prNumber state => cases state
    | directConfirmed upsert =>
      cases decides with
      | direct state => exact Or.inl ⟨rfl, upsert, rfl⟩
      | pr prNumber state => cases state
    | prConfirmed prNumber mergedAt upsert =>
      cases decides with
      | direct state => cases state
      | pr number state named compatible =>
        cases named
        exact Or.inr ⟨prNumber, mergedAt, upsert, rfl, rfl, compatible⟩

/-- The entries that a plan has passed stand for rows of the table and for stored evidence. -/
theorem Current.backed (current : Current round d)
    (stored : StoredOf round.gathered.decisions round.rows upserts) {passed rest : List PlanRow}
    (split : (round.rows.map fun row =>
      toPlanRow row (round.gathered.decisions.get row.mergeSeq)) = passed ++ rest)
    (walked : Passed round.checkpoint.headSeq passed entries) :
    ∀ (i : Nat) entry, entries[i]? = some entry →
      Backed d upserts (d.core.mnumberHeadSeq + i + 1) entry := by
  obtain ⟨first, later, rows_eq, rfl, -⟩ := List.map_eq_append_iff.mp split
  have decided : ∀ row ∈ first, ∃ decision,
      round.gathered.decisions.get row.mergeSeq = some decision ∧
        decision.isUnresolved = false := by
    intro row member
    obtain ⟨entry, decides⟩ := walked.decides _ (List.mem_map_of_mem member)
    rcases toPlanRow_decides decides with ⟨-, upsert, found⟩ | ⟨_, _, _, -, found, -⟩
    · exact ⟨_, found, rfl⟩
    · exact ⟨_, found, rfl⟩
  intro i entry here
  obtain ⟨planRow, member, seq, decides⟩ := walked.row_at here
  obtain ⟨row, inside, rfl⟩ := List.mem_map.mp member
  have row_seq : row.mergeSeq = d.core.mnumberHeadSeq + i + 1 := by
    rw [← current.headSeq, ← seq]
    unfold toPlanRow
    split <;> rfl
  have in_rows : row ∈ round.rows := by
    rw [rows_eq]
    exact List.mem_append_left _ inside
  obtain ⟨in_table, epoch, -⟩ := current.rows row in_rows
  rcases toPlanRow_decides decides with
    ⟨rfl, upsert, found⟩ | ⟨prNumber, mergedAt, upsert, rfl, found, compatible⟩
  · refine ⟨⟨row, in_table, ⟨epoch, row_seq⟩, ?_⟩, ?_⟩
    · intro prNumber impossible
      cases impossible
    · obtain ⟨other, -, same, resolves⟩ := current.decisions _ _ found
      cases upsert with
      | some u =>
        refine Or.inl ⟨u, stored.complete first later rows_eq decided row inside _ u found rfl, ?_,
          (resolves.direct _ rfl).1 u rfl⟩
        rw [(resolves.stores u rfl).2, same, row_seq]
      | none =>
        refine Or.inr ⟨?_, ?_⟩
        · rw [← row_seq]
          exact current.direct _ found
        · intro u there named
          obtain ⟨⟨decision, found', upsert⟩, -⟩ := current.upsert stored there
          rw [named, ← row_seq, found] at found'
          cases found'
          cases upsert
  · refine ⟨⟨row, in_table, ⟨epoch, row_seq⟩, ?_⟩, ?_⟩
    · intro number same
      cases same
      exact compatible
    · obtain ⟨other, -, same, resolves⟩ := current.decisions _ _ found
      obtain ⟨state, named, -⟩ := resolves.pr prNumber mergedAt upsert rfl
      refine Or.inl ⟨upsert,
        stored.complete first later rows_eq decided row inside _ upsert found rfl, ?_, state, named⟩
      rw [(resolves.stores upsert rfl).2, same, row_seq]

end

/-! ### Writing the plan -/

/-- How the transaction of a round ends. -/
def BodyEnds (w : W) (d₀ : Store) : ReconcileOutcome ⊕ PlanResult → World W → Prop
  | .inl _, s => Idle counting w [] d₀ s
  | .inr _, s => ∃ ws db db', (Idle counting w ws db' s ∧ Counts d₀ db) ∧ Numbered ws db db'

section

variable {d₀ d : Store} {ws : List Write}

theorem giveUp_does (reached : Counts d₀ d) (outcome : ReconcileOutcome) :
    Does counting T w (Holding w [] ws d) (giveUp outcome) (BodyEnds w d₀)
      (Open counting w [] d₀) := by
  apply Does.andThen (Does.rollback.pre fun s holds => holds.opened reached) fun _ => Idle.opened
  intro _
  exact Does.pure fun _ => id

theorem requestAll_does (intents : List Intent) (open_of : ∀ ws s, Holding w [] ws d s → X s) :
    Does counting T w (Holding w [] ws d) (requestAll intents)
      (fun _ => Holding w [] (ws ++ intents.map .request) d) X := by
  induction intents generalizing ws with
  | nil =>
    apply Does.pure
    intro s holds
    simpa using holds
  | cons intent rest ih =>
    apply Does.bind (request_does intent open_of)
    intro _
    refine ih.weaken (fun _ => id) ?_ fun _ => id
    intro _ s holds
    simpa using holds

/-- What the assignments see is the held rows, each still free for its assignment. -/
theorem written_eq_length {upserts : List EvidenceUpsert} {view : Store} (counted : Counted d)
    (fresh : Fresh d.core upserts)
    (backed : ∀ (i : Nat) entry, entries[i]? = some entry →
      Backed d upserts (d.core.mnumberHeadSeq + i + 1) entry) (frozen : Frozen d db)
    (replayed : replay (upserts.map .upsertEvidence) db = .ok view) :
    (view.rows.countP fun row => (Tables.assignmentFor d.core.seqEpoch
      (assigned d.core.mnumberHeadSeq d.core.mnumberHead entries) row).isSome) =
        (assigned d.core.mnumberHeadSeq d.core.mnumberHead entries).length := by
  have agree : ∀ u ∈ upserts, ∀ v ∈ upserts,
      u.seqEpoch = v.seqEpoch → u.mergeSeq = v.mergeSeq → u = v :=
    fun u here v there _ seq => fresh.once u here v there seq
  have rows : view.rows = d.rows := by
    rw [(replay_upsertEvidence agree replayed).1, frozen.rows]
  apply countP_assigned (assigned_nodup _ _ entries)
  intro a member
  obtain ⟨i, n, prNumber, here, -, rfl⟩ := mem_assigned.mp member
  obtain ⟨row, inside, ⟨epoch, seq⟩, compatible⟩ := (backed i _ here).row
  refine ⟨row, by rw [rows]; exact inside, epoch, seq, compatible prNumber rfl, ?_⟩
  apply counted.unnumbered inside epoch
  rw [seq]
  omega

theorem writeAssignments_does {upserts : List EvidenceUpsert} (counted : Counted d)
    (fresh : Fresh d.core upserts)
    (backed : ∀ (i : Nat) entry, entries[i]? = some entry →
      Backed d upserts (d.core.mnumberHeadSeq + i + 1) entry)
    (open_of : ∀ ws s, Holding w [] ws d s → X s) :
    Does counting T w (Holding w [] (upserts.map .upsertEvidence) d)
      (writeAssignments d.core.seqEpoch
        (assigned d.core.mnumberHeadSeq d.core.mnumberHead entries))
      (fun written s =>
        Holding w [] (upserts.map .upsertEvidence ++ assignWrites d.core entries) d s ∧
        written = (assigned d.core.mnumberHeadSeq d.core.mnumberHead entries).length) X := by
  unfold writeAssignments assignWrites
  by_cases empty : assigned d.core.mnumberHeadSeq d.core.mnumberHead entries = []
  · rw [if_pos empty, if_pos empty]
    apply Does.pure
    intro s holds
    rw [List.append_nil, empty]
    exact ⟨holds, rfl⟩
  · rw [if_neg empty, if_neg empty]
    refine (Does.executeTx _).weaken (fun _ => id) ?_ (open_of _)
    rintro count s ⟨holds, db, view, next, frozen, replayed, ran⟩
    refine ⟨holds, ?_⟩
    -- The row count of the statement is the number of rows it matches.
    simp only [Write.run, Tables.assignMergeNumbers] at ran
    split at ran
    · cases ran
      rw [written_eq_length counted fresh backed frozen replayed]
    · cases ran

theorem writePlan_does (moves : ∀ ws db db', Numbered ws db db' → T db db') {round : Round}
    {upserts : List EvidenceUpsert} {plan : PlanResult} (reached : Counts d₀ d)
    (current : Current round d) (fresh : Fresh d.core upserts)
    (backed : ∀ (i : Nat) entry, entries[i]? = some entry →
      Backed d upserts (d.core.mnumberHeadSeq + i + 1) entry)
    (nextHeadSeq : plan.nextHeadSeq = d.core.mnumberHeadSeq + entries.length)
    (nextHeadNumber : plan.nextHeadNumber = d.core.mnumberHead + total entries)
    (written : plan.assignments.map PlanAssignment.written =
      assigned d.core.mnumberHeadSeq d.core.mnumberHead entries) :
    Does counting T w (Holding w [] (upserts.map .upsertEvidence) d) (writePlan round plan)
      (BodyEnds w d₀) (Open counting w [] d₀) := by
  have open_of : ∀ ws s, Holding w [] ws d s → Open counting w [] d₀ s :=
    fun ws s holds => holds.opened reached
  have length_eq : (plan.assignments.length : Int) =
      (assigned d.core.mnumberHeadSeq d.core.mnumberHead entries).length := by
    rw [← written, List.length_map]
  unfold writePlan
  rw [written, current.epoch, nextHeadSeq, nextHeadNumber]
  apply Does.bind (writeAssignments_does current.counted fresh backed open_of)
  intro count
  apply Does.given
  intro matched
  -- Every assignment has found its row, so the mismatch branch is not taken.
  have found : ¬ count ≠ (plan.assignments.length : Int) := by
    rw [matched, length_eq]
    exact not_not.mpr rfl
  rw [if_neg found]
  apply Does.bind ((Does.executeTx _).weaken (fun _ => id) (fun _ _ => And.left) (open_of _))
  intro advanced
  split
  · exact giveUp_does reached _
  · apply Does.bind (requestAll_does _ open_of)
    intro _
    have shape : upserts.map .upsertEvidence ++ assignWrites d.core entries ++
        [.advanceMergeNumberCheckpoint d.core.seqEpoch
          ⟨d.core.mnumberHeadSeq + entries.length, d.core.mnumberHead + total entries,
            plan.blocked⟩] ++
        (assignmentRequests d.core.seqEpoch plan.assignments).map .request =
        numberWrites d.core upserts entries plan.blocked
          (assignmentRequests d.core.seqEpoch plan.assignments) := rfl
    rw [shape]
    have numbered : ∀ db db', Frozen d db →
        replay (numberWrites d.core upserts entries plan.blocked
          (assignmentRequests d.core.seqEpoch plan.assignments)) db = .ok db' →
        Numbered (numberWrites d.core upserts entries plan.blocked
          (assignmentRequests d.core.seqEpoch plan.assignments)) db db' := by
      intro db db' frozen replayed
      refine ⟨⟨upserts, entries, plan.blocked, _, by rw [frozen.core], by rw [frozen.core]; exact fresh,
        ?_⟩, replayed⟩
      intro i entry here
      obtain ⟨⟨row, member, keyed, compatible⟩, evidence⟩ := backed i entry here
      rw [frozen.core]
      constructor
      · rw [frozen.rows, frozen.core]
        exact ⟨row, member, keyed, compatible⟩
      · rw [frozen.evidence, frozen.core]
        exact evidence
    have heavy : ∃ write ∈ numberWrites d.core upserts entries plan.blocked
        (assignmentRequests d.core.seqEpoch plan.assignments), write.onCore = true := by
      refine ⟨.advanceMergeNumberCheckpoint d.core.seqEpoch
        ⟨d.core.mnumberHeadSeq + entries.length, d.core.mnumberHead + total entries,
          plan.blocked⟩, ?_, rfl⟩
      simp [numberWrites]
    apply Does.andThen (Does.commit (counting.refl d) heavy fun db db' frozen replayed =>
      moves _ db db' (numbered db db' frozen replayed))
    · intro s idle
      exact ⟨idle.own, reached.trans idle.since⟩
    · intro _
      apply Does.pure
      rintro s ⟨db, db', ⟨idle, frozen⟩, replayed⟩
      refine ⟨_, db, db', ⟨?_, reached.trans (Counts.of_frozen frozen)⟩,
        numbered db db' frozen replayed⟩
      simpa using idle

/-- Plan over the held tables and write what comes of it. -/
theorem planRound_does (moves : ∀ ws db db', Numbered ws db db' → T db db') {round : Round}
    {upserts : List EvidenceUpsert} (reached : Counts d₀ d) (current : Current round d)
    (stored : StoredOf round.gathered.decisions round.rows upserts) :
    Does counting T w (Holding w [] (upserts.map .upsertEvidence) d)
      (planRound round round.gathered.decisions) (BodyEnds w d₀) (Open counting w [] d₀) := by
  have open_of : ∀ ws s, Holding w [] ws d s → Open counting w [] d₀ s :=
    fun ws s holds => holds.opened reached
  apply Does.bind ((Does.queryTx _).weaken (fun _ => id) (fun _ _ => And.left) (open_of _))
  intro alreadyNumbered
  apply Does.bind ((Does.queryTx _).weaken (fun _ => id) (fun _ _ => And.left) (open_of _))
  intro previousMergedAt
  apply Does.bind ((Does.asks (Holding.stable counting w _ _ d) .readClock (fun c => .ok c.clock)
    fun _ _ => rfl).weaken (fun _ => id) (fun _ _ => And.left) (open_of _))
  intro now
  split
  · exact Does.raise fun s holds => open_of _ s holds
  next plan planned =>
    obtain ⟨passed, rest, entries, split, walked, nextHeadSeq, nextHeadNumber, written⟩ :=
      planMergeNumbers_passed planned
    rw [current.headSeq] at nextHeadSeq written
    rw [current.headNumber] at nextHeadNumber written
    exact writePlan_does moves reached current (current.fresh stored)
      (current.backed stored split walked) nextHeadSeq nextHeadNumber written

theorem reconcileLocked_does (moves : ∀ ws db db', Numbered ws db db' → T db db') {round : Round}
    (prepared : Prepared round atSpace atRows atEvidence) (origin : Counts d₀ atEvidence)
    (since : Counts atEvidence d) :
    Does counting T w (Holding w [] [] d) (reconcileLocked round) (BodyEnds w d₀)
      (Open counting w [] d₀) := by
  have reached : Counts d₀ d := origin.trans since
  have open_of : ∀ ws s, Holding w [] ws d s → Open counting w [] d₀ s :=
    fun ws s holds => holds.opened reached
  apply Does.andThen (Does.queryTx Store.findSequenceSpace) (open_of [])
  intro found
  apply Does.given
  rintro ⟨db, view, frozen, replayed, rfl⟩
  cases replay_nil replayed
  cases h : Store.findSequenceSpace db with
  | none => exact giveUp_does reached _
  | some space =>
    dsimp only
    split
    · exact giveUp_does reached _
    next still =>
      rw [not_or, not_not, not_not] at still
      -- What the lock sees of the space is what the held tables say.
      have space_eq : d.core.seqEpoch = space.seqEpoch ∧
          d.core.mnumberHeadSeq = space.mnumberHeadSeq := by
        rw [← frozen.core]
        have found : db.space = some space := h
        simp [Tables.core, found]
      apply Does.andThen (Does.queryTx _) (open_of [])
      intro locked
      apply Does.given
      rintro ⟨db', view, frozen', replayed', rfl⟩
      cases replay_nil replayed'
      split
      · exact giveUp_does reached _
      next unmoved =>
        have same_evidence : db'.listEvidence round.seqEpoch round.gathered.decisions.keys =
            d.listEvidence round.seqEpoch round.gathered.decisions.keys := by
          simp only [Store.listEvidence, Store.findEvidence, frozen'.evidence]
        rw [same_evidence] at unmoved
        have current := prepared.current since (space_eq.1.trans still.1)
          (space_eq.2.trans still.2) (Bool.eq_false_of_not_eq_true unmoved)
        apply Does.bind (storeEvidence_does round.seqEpoch round.existing
          (fun row decision => current.consistent) open_of)
        intro decisions
        apply Does.exists
        intro upserts
        apply Does.given
        rintro ⟨rfl, stored⟩
        exact planRound_does moves reached current stored

theorem reconcileBody_does (moves : ∀ ws db db', Numbered ws db db' → T db db') {round : Round}
    (prepared : Prepared round atSpace atRows atEvidence) (origin : Counts d₀ atEvidence) :
    Does counting T w (Idle counting w [] atEvidence) (reconcileBody round) (BodyEnds w d₀)
      (Open counting w [] d₀) := by
  have idle_of : ∀ s, Idle counting w [] atEvidence s → Open counting w [] d₀ s :=
    fun s idle => (idle.rebase origin).opened
  apply Does.andThen (Does.begin (Idle.stable counting w _ atEvidence)) idle_of
  intro _
  apply Does.locking (fun d since => reconcileLocked_does moves prepared origin since) ?_ idle_of
  apply Does.andThen (Does.rollback.pre fun s idle => idle.opened) idle_of
  intro _
  exact Does.pure fun s idle => idle.rebase origin

/-! ### The round -/

/-- How a round ends: with nothing of it in the tables, or with its transaction committed. -/
def ReconcileEnds (w : W) (d₀ : Store) (outcome : ReconcileOutcome) (s : World W) : Prop :=
  Idle counting w [] d₀ s ∨
    (∃ epoch assigned attested blocked again,
      outcome = .done epoch assigned attested blocked again) ∧
      ∃ ws db db', (Idle counting w ws db' s ∧ Counts d₀ db) ∧ Numbered ws db db'

theorem commitRound_does (moves : ∀ ws db db', Numbered ws db db' → T db db') {round : Round}
    (prepared : Prepared round atSpace atRows atEvidence) (origin : Counts d₀ atEvidence) :
    Does counting T w (Idle counting w [] atEvidence) (commitRound round) (ReconcileEnds w d₀)
      (Idle counting w [] d₀) := by
  have idle_of : ∀ s, Idle counting w [] atEvidence s → Idle counting w [] d₀ s :=
    fun s idle => idle.rebase origin
  apply Does.andThen (Does.connect (Idle.stable counting w _ atEvidence)) idle_of
  intro _
  apply Does.bind (Does.tryCatch (reconcileBody_does moves prepared origin) fun fault => ?_)
  · intro ended
    cases ended with
    | inl outcome => exact Does.pure fun s idle => Or.inl idle
    | inr plan =>
      -- The samples come after the commit, and nothing depends on them.
      apply Does.exists
      intro ws
      apply Does.exists
      intro db
      apply Does.exists
      intro db'
      apply Does.given
      intro numbered
      have stable : Stable counting w fun s => Idle counting w ws db' s ∧ Counts d₀ db :=
        (Idle.stable counting w _ db').and_const _
      apply Does.bind (Does.external stable _)
      intro _
      exact Does.pure fun s here => Or.inr ⟨⟨_, _, _, _, _, rfl⟩, ws, db, db', here, numbered⟩
  · apply Does.bind Does.quietRollback
    intro _
    exact Does.raise fun s idle => idle

/-- The candidates are rows of the epoch beyond the checkpoint. -/
theorem mem_listCandidatesAfter {seqEpoch afterSeq : Int} {limit : Nat} {row : MergeSequenceRow}
    (member : row ∈ db.listCandidatesAfter seqEpoch afterSeq limit) :
    row ∈ db.rows ∧ row.seqEpoch = seqEpoch ∧ afterSeq < row.mergeSeq := by
  have sorted := List.mem_of_mem_take member
  have inside := (List.perm_insertionSort _ _).mem_iff.mp sorted
  obtain ⟨stored, keyed⟩ := List.mem_filter.mp inside
  exact ⟨stored, of_decide_eq_true keyed⟩

theorem reconcileSpace_does (moves : ∀ ws db db', Numbered ws db db' → T db db')
    (options : RoundOptions) {space : SequenceSpace} (counted : Counted d₀)
    (origin : Counts d₀ atSpace) (found : atSpace.space = some space) :
    Does counting T w (Idle counting w [] atSpace) (reconcileSpace options space)
      (ReconcileEnds w d₀) (Idle counting w [] d₀) := by
  have core_eq : space.seqEpoch = atSpace.core.seqEpoch ∧
      space.mnumberHeadSeq = atSpace.core.mnumberHeadSeq ∧
      space.mnumberHead = atSpace.core.mnumberHead := by
    simp [Tables.core, found]
  unfold reconcileSpace
  split
  · exact Does.pure fun s idle => Or.inl (idle.rebase origin)
  · apply Does.bind (Does.when
      (fun _ => Does.external (Idle.stable counting w _ atSpace) _) fun _ s idle => idle)
    intro _
    apply Does.andThen (Does.queryPool _) fun s idle => idle.rebase origin
    intro rows
    apply Does.exists
    intro atRows
    apply Does.given
    rintro rfl
    apply Does.given
    intro rowsSince
    unfold reconcileRows
    split
    · exact Does.pure fun s idle => Or.inl (idle.rebase (origin.trans rowsSince))
    · apply Does.andThen (Does.queryPool _) fun s idle => idle.rebase (origin.trans rowsSince)
      intro existing
      apply Does.exists
      intro atEvidence
      apply Does.given
      rintro rfl
      apply Does.given
      intro evidenceSince
      have reached : Counts d₀ atEvidence := (origin.trans rowsSince).trans evidenceSince
      have idle_of : ∀ s, Idle counting w [] atEvidence s → Idle counting w [] d₀ s :=
        fun s idle => idle.rebase reached
      apply Does.andThen ((Does.asks (Idle.stable counting w _ atEvidence)
        (.findActiveAttestation space.seqEpoch) (fun c => c.orDown (.ok c.attestation))
        fun c s => withDatabase_answered c s _).weaken (fun _ => id) (fun _ _ => And.left)
        fun _ => id) idle_of
      intro attestation
      apply Does.andThen (gatherDecisions_does (Idle.stable counting w _ atEvidence) _ _
        attestation options.force (fun row member => member) (fun seq decision impossible => by
          cases impossible)) idle_of
      intro gathered
      apply Does.given
      intro decisions
      refine commitRound_does moves
        ⟨origin.counted counted, core_eq.1, core_eq.2.1, core_eq.2.2, rowsSince, ?_, evidenceSince,
          ⟨_, rfl⟩, decisions⟩ reached
      intro row member
      exact mem_listCandidatesAfter member

/-- Every way a round can go. -/
theorem reconcileMergeNumbers_does (moves : ∀ ws db db', Numbered ws db db' → T db db')
    (options : RoundOptions) (counted : Counted d₀) :
    Does counting T w (Idle counting w [] d₀) (reconcileMergeNumbers options)
      (ReconcileEnds w d₀) (Idle counting w [] d₀) := by
  apply Does.bind (Does.findRepositoryById (Idle.stable counting w _ d₀))
  intro found
  cases found with
  | none => exact Does.pure fun s idle => Or.inl idle
  | some repository =>
    dsimp only
    split
    · exact Does.pure fun s idle => Or.inl idle
    · split
      · exact Does.pure fun s idle => Or.inl idle
      · apply Does.bind (Does.queryPool Store.findSequenceSpace)
        intro found
        apply Does.exists
        intro atSpace
        apply Does.given
        rintro rfl
        apply Does.given
        intro origin
        cases found : Store.findSequenceSpace atSpace with
        | none => exact Does.pure fun s idle => Or.inl (idle.rebase origin)
        | some space => exact reconcileSpace_does moves options counted origin found

end

end

end PrSearch.MergeNumber
