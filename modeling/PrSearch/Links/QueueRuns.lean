import PrSearch.Links.Queued

/-! # The steps of the queue

Every step keeps the invariant of the queue, on the conditions that its writers and workers have.
-/
namespace PrSearch.Links

open PrSearch.Relation (Sha)
open Index.CommitLinks
open Rows

variable {W : Type} [DecidableEq W]

/-- A step that keeps what is shown. A transaction asks for what it changes; a worker whose lease has
ended does not write into a document without a generation; a row is parked for the generation that
has been read. -/
def Keeps (s : World W) : Action W → Prop
  | .change change => Remembers s.tables change
  | .script worker _ => ∀ lease canonical rest, s.phase worker = .busy lease canonical .admitted rest →
      Holds s lease ∨ generationOf (s.documents lease.commitSha) ≠ none
  | .leave worker => ∀ lease canonical answer rest,
      s.phase worker = .busy lease canonical (.answered answer) rest →
        (∃ reason, exitOf lease canonical answer = .release .parked reason) →
          ∀ row, findCommitLinkState s.states lease.commitSha = some row →
            held lease row = true → canonical.generation = row.generation
  | _ => True

variable {stage : Stage} {change : CommitLinkStateRow W → CommitLinkStateRow W} {other : W}
  {reason : Query.Text}

section Frames

variable {s s' : World W} {worker : W} {phase : Phase W}

/-- The rule for the turn of a worker. -/
theorem Inv.turn (inv : Inv s) (commits : ∀ sha, CommitOk s' sha) (valid : Valid s'.tables)
    (moved : s'.phase = Function.update s.phase worker phase) (ok : PhaseOk s' worker phase)
    (later : ∀ other, other ≠ worker → Later other s s') : Inv s' where
  commits := commits
  valid := valid
  phases other := by
    rw [moved]
    by_cases own : other = worker
    · subst own
      simpa using ok
    · simpa [own] using (inv.phases other).later (later other own)

/-- The rule for what happens outside of the workers. -/
theorem Inv.outside (inv : Inv s) (commits : ∀ sha, CommitOk s' sha) (valid : Valid s'.tables)
    (still : s'.phase = s.phase) (later : ∀ worker, Later worker s s') : Inv s' where
  commits := commits
  valid := valid
  phases worker := by
    rw [still]
    exact (inv.phases worker).later (later worker)

theorem later_goTo (other worker : W) (phase : Phase W) : Later other s (s.goTo worker phase) where
  row _ row found := ⟨row, found, Int.le_refl _, fun _ => rfl⟩
  lease _ _ row found leased token := ⟨row, found, leased, token, rfl⟩
  there _ there := there
  generation _ g is := ⟨g, is, Int.le_refl _⟩
  none _ _ _ none := none

omit [DecidableEq W] in
/-- Nothing has happened to the commit. -/
theorem CommitOk.frame {sha : Sha} (ok : CommitOk s sha) (tables : s'.tables = s.tables)
    (states : s'.states = s.states) (documents : s'.documents sha = s.documents sha)
    (givenUp : s'.givenUp = s.givenUp) : CommitOk s' sha where
  row row found := by
    rw [states] at found
    have rowOk := ok.row row found
    refine ⟨rowOk.within, rowOk.done, fun shown => ?_, fun parked => ?_⟩
    · have before := rowOk.shown shown
      rw [commitSha_of_find found] at before ⊢
      rwa [documents, tables]
    · rw [givenUp]
      exact rowOk.parked parked
  unlinked none := by
    rw [states] at none
    rw [tables, documents]
    exact ok.unlinked none
  plain := by
    rw [documents]
    exact ok.plain
  document g is row found := by
    rw [states] at found
    rw [documents] at is
    rw [documents, tables]
    exact ok.document g is row found

/-- A worker that only goes on. -/
theorem Inv.goTo (inv : Inv s) (ok : PhaseOk s worker phase) : Inv (s.goTo worker phase) := by
  refine inv.turn (fun sha => (inv.commits sha).frame rfl rfl rfl rfl) inv.valid rfl ?_
    fun other _ => later_goTo other worker phase
  exact ok.later (later_goTo worker worker phase)

omit [DecidableEq W] in
theorem phaseOk_idle : PhaseOk s worker .idle :=
  ⟨List.forall_mem_nil _, fun _ _ _ _ is => nomatch is⟩

omit [DecidableEq W] in
theorem phaseOk_nextPhase {rows : List (CommitLinkStateRow W)}
    (leases : ∀ lease ∈ rows, LeaseOk s worker lease) :
    PhaseOk s worker (World.nextPhase rows) := by
  cases rows with
  | nil => exact phaseOk_idle
  | cons row rest => exact ⟨leases, fun _ _ _ _ is => nomatch is⟩

omit [DecidableEq W] in
theorem phaseOk_busy {lease : CommitLinkStateRow W} {canonical : CommitLinkProjection}
    {rest : List (CommitLinkStateRow W)} (leases : ∀ other ∈ lease :: rest, LeaseOk s worker other)
    (read : ReadOk s lease canonical) (ok : StageOk s lease canonical stage) :
    PhaseOk s worker (.busy lease canonical stage rest) := by
  refine ⟨leases, ?_⟩
  rintro _ _ _ _ ⟨⟩
  exact ⟨read, ok⟩

end Frames

/-! ### Transactions and documents -/

section Outside

variable {s : World W}

omit [DecidableEq W] in
theorem Asked.rowOk {row : CommitLinkStateRow W} {earlier : Option (CommitLinkStateRow W)}
    (asked : Asked earlier row) (ok : ∀ old, earlier = some old → RowOk s old) (s' : World W) :
    RowOk s' row := by
  have waits : row.projectedGeneration < row.generation := by
    cases earlier with
    | none => exact asked.first rfl
    | some old =>
      obtain ⟨raised, same⟩ := asked.raised old rfl
      have := (ok old rfl).within
      omega
  have state : row.state = .ready ∨ row.state = .leased := by
    rcases asked.state with ready | ⟨_, _, leased, _⟩
    · exact .inl ready
    · exact .inr leased
  refine ⟨Int.le_of_lt waits, ⟨fun done => ?_, fun same => ?_⟩, fun same => ?_, fun parked => ?_⟩
  · rcases state with is | is <;> simp [is] at done
  · exact absurd same (Int.ne_of_lt waits)
  · exact absurd same (Int.ne_of_lt waits)
  · rcases state with is | is <;> simp [is] at parked

theorem inv_change {tables : LinkTables} {raised : List Sha} (inv : Inv s)
    (asks : Asks s.tables tables raised) :
    Inv { s with
      tables := tables
      states := bumpCommitLinkGenerations s.states raised } := by
  refine inv.outside (fun sha => ?_) (asks.valid inv.valid) rfl fun worker => ?_
  · have ok := inv.commits sha
    by_cases inside : sha ∈ raised
    · obtain ⟨row, found, asked⟩ := find_bump_of_mem s.states inside
      refine ⟨fun other is => ?_, fun none => ?_, ok.plain, fun g is other found' => ?_⟩
      · obtain rfl := Option.some.inj (found.symm.trans is)
        exact asked.rowOk ok.row _
      · exact absurd (found.symm.trans none) (by simp)
      · obtain rfl := Option.some.inj (found.symm.trans found')
        -- the document has a generation, so there was a row, and it has passed it
        cases earlier : findCommitLinkState s.states sha with
        | none =>
          have without := (ok.unlinked earlier).2
          exact absurd (is.symm.trans without) (by simp)
        | some old =>
          have reached := (ok.document g is old earlier).1
          have less := (asked.raised old earlier).1
          exact ⟨by omega, fun same => by omega⟩
    · have same := find_bump_of_not_mem s.states inside
      have view := asks.view sha inside
      refine ⟨fun row is => ?_, fun none => ?_, ok.plain, fun g is row found => ?_⟩
      · have found := same.symm.trans is
        have own := commitSha_of_find found
        have rowOk := ok.row row found
        refine ⟨rowOk.within, rowOk.done, fun shown => ?_, rowOk.parked⟩
        have := rowOk.shown shown
        rw [own] at this ⊢
        rwa [view]
      · obtain ⟨unlinked, without⟩ := ok.unlinked (same.symm.trans none)
        refine ⟨fun prNumber evidence linked => ?_, without⟩
        rcases asks.linked prNumber sha evidence linked with asked | old
        · exact inside asked
        · exact unlinked prNumber evidence old
      · obtain ⟨reached, current⟩ := ok.document g is row (same.symm.trans found)
        exact ⟨reached, fun is => (current is).trans view.symm⟩
  · refine ⟨fun sha row found => ?_, fun lease own row' found leased token => ?_,
      fun _ there => there, fun _ g is => ⟨g, is, Int.le_refl _⟩, fun _ _ _ none => none⟩
    · by_cases inside : sha ∈ raised
      · obtain ⟨row', found', asked⟩ := find_bump_of_mem s.states inside
        have less := (asked.raised row found).1
        exact ⟨row', found', Int.le_of_lt less, fun same => absurd same (Int.ne_of_lt less)⟩
      · refine ⟨row, (find_bump_of_not_mem s.states inside).trans found, Int.le_refl _, fun _ => ?_⟩
        exact asks.view sha inside
    · by_cases inside : lease.commitSha ∈ raised
      · obtain ⟨row, is, asked⟩ := find_bump_of_mem s.states inside
        obtain rfl := Option.some.inj (is.symm.trans found)
        rcases asked.state with ready | ⟨old, earlier, _, wasLeased, same, attempts⟩
        · exact absurd (ready.symm.trans leased) (by decide)
        · exact ⟨old, earlier, wasLeased, same.symm.trans token, attempts⟩
      · exact ⟨row', (find_bump_of_not_mem s.states inside).symm.trans found, leased, token, rfl⟩

theorem inv_createDocument {sha : Sha} (inv : Inv s) (none : s.documents sha = none) :
    Inv { s with documents := Function.update s.documents sha (some {}) } := by
  -- the new document has neither a generation nor links
  have same : ∀ other, generationOf (Function.update s.documents sha (some {}) other) =
      generationOf (s.documents other) ∧ shownLinkView (Function.update s.documents sha (some {}) other)
        = shownLinkView (s.documents other) := by
    intro other
    by_cases own : other = sha
    · subst own
      simp [none, generationOf, shownLinkView]
    · simp [own]
  refine inv.outside (fun other => ?_) inv.valid rfl fun worker => ?_
  · have ok := inv.commits other
    obtain ⟨generation, view⟩ := same other
    refine ⟨fun row found => ?_, fun none => ?_, fun none => ?_, fun g is row found => ?_⟩
    · have rowOk := ok.row row found
      refine ⟨rowOk.within, rowOk.done, fun shown => ?_, rowOk.parked⟩
      rw [(same row.commitSha).1]
      exact rowOk.shown shown
    · rw [generation]
      exact ok.unlinked none
    · rw [generation] at none
      rw [view]
      exact ok.plain none
    · rw [generation] at is
      rw [view]
      exact ok.document g is row found
  · refine ⟨fun _ row found => ⟨row, found, Int.le_refl _, fun _ => rfl⟩,
      fun _ _ row found leased token => ⟨row, found, leased, token, rfl⟩, fun other there => ?_,
      fun other g is => ⟨g, (same other).1.trans is, Int.le_refl _⟩,
      fun _ _ _ none => (same _).1.trans none⟩
    by_cases own : other = sha
    · subst own
      simp
    · simpa [own] using there

end Outside

/-! ### Leases -/

section Leases

variable {s s' : World W} {sha : Sha} {row lease : CommitLinkStateRow W} {worker : W}

omit [DecidableEq W]

theorem rowOk_of_waiting (waits : row.projectedGeneration < row.generation)
    (notDone : row.state ≠ .done) (notParked : row.state ≠ .parked) : RowOk s row where
  within := Int.le_of_lt waits
  done := iff_of_false notDone (Int.ne_of_lt waits)
  shown same := absurd same (Int.ne_of_lt waits)
  parked parked := absurd parked notParked

theorem RowOk.waits (ok : RowOk s row) (notDone : row.state ≠ .done) :
    row.projectedGeneration < row.generation :=
  lt_of_le_of_ne ok.within fun same => notDone (ok.done.mpr same)

theorem RowOk.frame (ok : RowOk s row) (tables : s'.tables = s.tables)
    (documents : s'.documents = s.documents)
    (givenUp : row.state = .parked → s'.givenUp row.commitSha = s.givenUp row.commitSha) :
    RowOk s' row where
  within := ok.within
  done := ok.done
  shown same := by
    rw [tables, documents]
    exact ok.shown same
  parked parked := by
    rw [givenUp parked]
    exact ok.parked parked

/-- A statement that changes a row without its generation. -/
theorem CommitOk.map (ok : CommitOk s sha) (tables : s'.tables = s.tables)
    (documents : s'.documents = s.documents)
    (states : findCommitLinkState s'.states sha = (findCommitLinkState s.states sha).map change)
    (generation : ∀ row, (change row).generation = row.generation)
    (rowOk : ∀ row, findCommitLinkState s.states sha = some row → RowOk s' (change row)) :
    CommitOk s' sha where
  row row' found := by
    obtain ⟨row, was, rfl⟩ := Option.map_eq_some_iff.mp (states.symm.trans found)
    exact rowOk row was
  unlinked none := by
    rw [tables, documents]
    exact ok.unlinked (Option.map_eq_none_iff.mp (states.symm.trans none))
  plain := by
    rw [documents]
    exact ok.plain
  document g is row' found := by
    rw [documents] at is
    obtain ⟨row, was, rfl⟩ := Option.map_eq_some_iff.mp (states.symm.trans found)
    rw [tables, documents, generation]
    exact ok.document g is row was

theorem later_map (tables : s'.tables = s.tables) (documents : s'.documents = s.documents)
    (states : ∀ sha, findCommitLinkState s'.states sha =
      (findCommitLinkState s.states sha).map change)
    (generation : ∀ row, (change row).generation = row.generation)
    (leased : ∀ row n, (change row).state = .leased → (change row).leaseToken = some (other, n) →
      change row = row) :
    Later other s s' where
  row sha row found := by
    refine ⟨change row, ?_, Int.le_of_eq (generation row).symm, fun _ => by rw [tables]⟩
    rw [states, found, Option.map_some]
  lease lease own row' found isLeased token := by
    obtain ⟨n, is⟩ := own
    obtain ⟨row, was, rfl⟩ := Option.map_eq_some_iff.mp ((states _).symm.trans found)
    have same := leased row n isLeased (token.trans is)
    rw [same] at isLeased token ⊢
    exact ⟨row, was, isLeased, token, rfl⟩
  there sha there := by rwa [documents]
  generation sha g is := ⟨g, by rwa [documents], Int.le_refl _⟩
  none _ _ _ none := by rwa [documents]

theorem generation_reclaimedRow (expired : List Sha) (row : CommitLinkStateRow W) :
    (reclaimedRow expired row).generation = row.generation := by
  unfold reclaimedRow
  split <;> rfl

theorem generation_claimedRow (chosen : List Sha) (token : W × Nat) (row : CommitLinkStateRow W) :
    (claimedRow chosen token row).generation = row.generation := by
  unfold claimedRow
  split <;> rfl

theorem lt_of_isDue (due : isDue row = true) : row.projectedGeneration < row.generation := by
  simp only [isDue, Bool.and_eq_true, decide_eq_true_eq] at due
  exact due.2

theorem inv_reclaim [DecidableEq W] (inv : Inv s) (expired : List Sha) :
    Inv { s with
      states := s.states.update (reclaimedRow expired) (commitSha_reclaimedRow expired) } := by
  refine inv.outside (fun sha => ?_) inv.valid rfl fun other => ?_
  · refine (inv.commits sha).map rfl rfl (find_update _ (commitSha_reclaimedRow expired))
      (generation_reclaimedRow expired) fun row found => ?_
    have ok := (inv.commits sha).row row found
    unfold reclaimedRow
    split
    next ended =>
      simp only [Bool.and_eq_true, decide_eq_true_eq] at ended
      exact rowOk_of_waiting (ok.waits (by simp [ended.1])) (by simp) (by simp)
    next => exact ok.frame rfl rfl fun _ => rfl
  · refine later_map rfl rfl (fun _ => find_update _ (commitSha_reclaimedRow expired))
      (generation_reclaimedRow expired) fun row n leased _ => ?_
    unfold reclaimedRow at leased ⊢
    split at leased
    next => exact absurd leased (by simp)
    next kept => exact if_neg kept

theorem inv_claim [DecidableEq W] (inv : Inv s) (idle : s.phase worker = .idle)
    (chosen : List Sha) :
    Inv { s with
      states := s.states.update (claimedRow chosen (worker, s.claims))
        (commitSha_claimedRow chosen (worker, s.claims))
      claims := s.claims + 1
      phase := Function.update s.phase worker (World.nextPhase
        ((s.states.rows.filter fun row => isDue row && chosen.contains row.commitSha).map
          (leasedRow (worker, s.claims)))) } := by
  refine inv.turn (fun sha => ?_) inv.valid rfl ?_ fun other apart => ?_
  · refine (inv.commits sha).map rfl rfl
      (find_update _ (commitSha_claimedRow chosen (worker, s.claims)))
      (generation_claimedRow chosen _) fun row found => ?_
    have ok := (inv.commits sha).row row found
    unfold claimedRow
    split
    next taken =>
      rw [Bool.and_eq_true] at taken
      have waits : row.projectedGeneration < row.generation := lt_of_isDue taken.1
      refine rowOk_of_waiting ?_ (by simp [leasedRow]) (by simp [leasedRow])
      exact waits
    next => exact ok.frame rfl rfl fun _ => rfl
  · refine phaseOk_nextPhase fun lease inside => ?_
    obtain ⟨row, due, rfl⟩ := List.mem_map.mp inside
    obtain ⟨held, taken⟩ := List.mem_filter.mp due
    refine ⟨⟨s.claims, rfl⟩, fun row' found _ _ => ?_⟩
    -- the row of the table is the one that has been taken
    have own : findCommitLinkState s.states row.commitSha = some row := s.states.keyed.find? held
    have is : row' = claimedRow chosen (worker, s.claims) row := by
      have after : findCommitLinkState (s.states.update (claimedRow chosen (worker, s.claims))
          (commitSha_claimedRow chosen (worker, s.claims))) row.commitSha = some row' := found
      rw [find_update, own] at after
      exact (Option.some.inj after).symm
    rw [is, claimedRow, if_pos taken]
  · refine later_map rfl rfl
      (fun _ => find_update _ (commitSha_claimedRow chosen (worker, s.claims)))
      (generation_claimedRow chosen _) fun row n leased token => ?_
    unfold claimedRow at token ⊢
    split at token
    next =>
      have same : worker = other := congrArg Prod.fst (Option.some.inj token)
      exact absurd same.symm apart
    next kept => exact if_neg kept

end Leases

/-! ### Turns of a worker -/

section Turns

variable {s : World W} {worker : W} {lease : CommitLinkStateRow W}
  {rest : List (CommitLinkStateRow W)} {canonical : CommitLinkProjection}

theorem inv_read (inv : Inv s) (at_ : s.phase worker = .claimed (lease :: rest)) :
    Inv (s.goTo worker <|
      match s.readCommitLinkProjection lease.commitSha with
      | none => World.nextPhase rest
      | some canonical => .busy lease canonical .read rest) := by
  have leases := (inv.phases worker).1
  rw [at_] at leases
  refine inv.goTo ?_
  split
  next => exact phaseOk_nextPhase fun other inside => leases other (List.mem_cons_of_mem _ inside)
  next canonical found =>
    obtain ⟨row, is, rfl⟩ := Option.map_eq_some_iff.mp found
    exact phaseOk_busy leases
      ⟨normal_currentLinkView inv.valid lease.commitSha, row, is, Int.le_refl _, fun _ => rfl⟩ trivial

theorem inv_get (inv : Inv s) (at_ : s.phase worker = .busy lease canonical .read rest) :
    Inv (s.goTo worker <| .busy lease canonical
      ((applyCommitLinks.read (s.linkUpdate lease.commitSha canonical)
        (s.documents lease.commitSha)).elim .admitted fun outcome => .answered (.outcome outcome))
      rest) := by
  obtain ⟨leases, busy⟩ := inv.phases worker
  rw [at_] at leases
  obtain ⟨read, _⟩ := busy lease canonical .read rest at_
  refine inv.goTo (phaseOk_busy leases read ?_)
  have got := got_read (s.linkUpdate lease.commitSha canonical) (s.documents lease.commitSha)
  generalize applyCommitLinks.read (s.linkUpdate lease.commitSha canonical)
    (s.documents lease.commitSha) = result at got
  cases got with
  | missing none => exact fun _ => by simp [none, generationOf]
  | stale passed =>
    obtain ⟨g, is, less⟩ := passed
    exact ⟨g, is, Int.le_of_lt less⟩
  | conflict => trivial
  | admitted there => exact there

theorem inv_fail (inv : Inv s) (reason : Query.Text)
    (at_ : s.phase worker = .busy lease canonical stage rest) :
    Inv (s.goTo worker (.busy lease canonical (.answered (.error reason)) rest)) := by
  obtain ⟨leases, busy⟩ := inv.phases worker
  rw [at_] at leases
  exact inv.goTo (phaseOk_busy leases (busy lease canonical stage rest at_).1 trivial)

/-! ### Writing -/

omit [DecidableEq W] in
theorem Holds.unique {lease' : CommitLinkStateRow W} (holds : Holds s lease)
    (holds' : Holds s lease') (same : lease.commitSha = lease'.commitSha)
    (own : ∃ n, lease.leaseToken = some (worker, n))
    (own' : ∃ n, lease'.leaseToken = some (other, n)) : worker = other := by
  obtain ⟨row, found, _, token⟩ := holds
  obtain ⟨row', found', _, token'⟩ := holds'
  rw [same] at found
  obtain rfl := Option.some.inj (found.symm.trans found')
  obtain ⟨n, is⟩ := own
  obtain ⟨n', is'⟩ := own'
  have equal := (is.symm.trans (token.symm.trans token')).trans is'
  exact congrArg Prod.fst (Option.some.inj equal)

/-- What has been read is written, and its generation with it. -/
theorem inv_written (inv : Inv s) {source : LinkSource} {answer : Answer}
    (leases : ∀ other ∈ lease :: rest, LeaseOk s worker other) (read : ReadOk s lease canonical)
    (may : Holds s lease ∨ generationOf (s.documents lease.commitSha) ≠ none)
    (notPassed : ∀ g, generationOf (s.documents lease.commitSha) = some g → g ≤ canonical.generation)
    (generation : source.generation = some canonical.generation)
    (view : shownLinkView (some source) = canonical.view)
    (answers : answer = .outcome .updated ∨ ∃ reason, answer = .error reason) :
    Inv { s with
      documents := Function.update s.documents lease.commitSha (some source)
      phase := Function.update s.phase worker (.busy lease canonical (.answered answer) rest) } := by
  obtain ⟨stored, found, reached, current⟩ := read.current
  have written : generationOf (Function.update s.documents lease.commitSha (some source)
      lease.commitSha) = some canonical.generation := by simp [generationOf, generation]
  refine inv.turn (fun sha => ?_) inv.valid rfl ?_ fun other apart => ?_
  · have ok := inv.commits sha
    by_cases own : sha = lease.commitSha
    · subst own
      refine ⟨fun row is => ?_, fun none => ?_, fun none => ?_, fun g is row same => ?_⟩
      · obtain rfl := Option.some.inj (found.symm.trans is)
        have rowOk := ok.row stored found
        refine ⟨rowOk.within, rowOk.done, fun shown => .inl ?_, rowOk.parked⟩
        have named := commitSha_of_find found
        have before := rowOk.shown shown
        rw [named] at before ⊢
        -- the row does not wait, so its lease has ended and the document had the generation
        rcases before with is | ⟨none, _⟩
        · have := notPassed _ is
          exact written.trans (congrArg some (Int.le_antisymm reached this))
        · rcases may with ⟨row, is, leased, _⟩ | there
          · obtain rfl := Option.some.inj (found.symm.trans is)
            exact absurd (rowOk.done.mpr shown) (by simp [leased])
          · exact absurd none there
      · exact absurd (found.symm.trans none) (by simp)
      · exact absurd (written.symm.trans none) (by simp)
      · obtain rfl := Option.some.inj (found.symm.trans same)
        obtain rfl := Option.some.inj (written.symm.trans is)
        refine ⟨reached, fun equal => ?_⟩
        simpa [view] using current equal
    · exact ok.frame rfl rfl (by simp [own]) rfl
  · refine phaseOk_busy (fun other inside => ?_) ⟨read.normal, read.current⟩ ?_
    · exact ⟨(leases other inside).own, (leases other inside).attempts⟩
    · rcases answers with rfl | ⟨reason, rfl⟩
      · exact ⟨canonical.generation, written, Int.le_refl _⟩
      · trivial
  · refine ⟨fun _ row is => ⟨row, is, Int.le_refl _, fun _ => rfl⟩,
      fun _ _ row is leased token => ⟨row, is, leased, token, rfl⟩, fun sha there => ?_,
      fun sha g is => ?_, fun other' own holds none => ?_⟩
    · by_cases own : sha = lease.commitSha
      · subst own
        simp
      · simpa [own] using there
    · by_cases own : sha = lease.commitSha
      · subst own
        exact ⟨canonical.generation, written, notPassed g is⟩
      · exact ⟨g, by simpa [own] using is, Int.le_refl _⟩
    · by_cases same : other'.commitSha = lease.commitSha
      · rcases may with mine | there
        · exact absurd (holds.unique mine same own (leases lease List.mem_cons_self).own) apart
        · exact absurd (same ▸ none) there
      · simpa [same] using none

theorem inv_script (inv : Inv s) (lost : Option Query.Text)
    (at_ : s.phase worker = .busy lease canonical .admitted rest)
    (may : Holds s lease ∨ generationOf (s.documents lease.commitSha) ≠ none) :
    Inv { s.goTo worker (.busy lease canonical (.answered (lost.elim
        (.outcome (applyCommitLinks.settle (applyCommitLinks.update
          (s.linkUpdate lease.commitSha canonical) (s.documents lease.commitSha)).isSome))
        .error)) rest) with
      documents := Function.update s.documents lease.commitSha
        ((applyCommitLinks.update (s.linkUpdate lease.commitSha canonical)
          (s.documents lease.commitSha)).getD (s.documents lease.commitSha)) } := by
  obtain ⟨leases, busy⟩ := inv.phases worker
  rw [at_] at leases
  obtain ⟨read, there⟩ := busy lease canonical .admitted rest at_
  have scripted := scripted_update (s.linkUpdate lease.commitSha canonical) there
  generalize applyCommitLinks.update (s.linkUpdate lease.commitSha canonical)
    (s.documents lease.commitSha) = result at scripted ⊢
  cases scripted with
  | noop reached =>
    rw [Option.getD_none, Function.update_eq_self]
    refine inv.goTo (phaseOk_busy leases read ?_)
    cases lost with
    | none => exact reached
    | some reason => trivial
  | written notPassed =>
    refine inv_written inv leases read may notPassed rfl (Prod.ext read.normal.numbers rfl) ?_
    cases lost with
    | none => exact .inl rfl
    | some reason => exact .inr ⟨reason, rfl⟩

end Turns

/-! ### Leaving a row -/

section Leave

variable {s s' : World W} {worker : W} {lease row : CommitLinkStateRow W}
  {rest : List (CommitLinkStateRow W)} {canonical : CommitLinkProjection} {answer : Answer}

theorem held_iff : held lease row = true ↔
    row.commitSha = lease.commitSha ∧ row.leaseToken = lease.leaseToken ∧ row.state = .leased := by
  simp [held, and_assoc]

omit [DecidableEq W] in
theorem generation_exit (exit : Exit) (row : CommitLinkStateRow W) :
    (exit.row row).generation = row.generation := by
  cases exit <;> rfl

theorem generation_leftRow (lease : CommitLinkStateRow W) (exit : Exit) (row : CommitLinkStateRow W) :
    (leftRow lease exit row).generation = row.generation := by
  unfold leftRow
  split
  · exact generation_exit exit row
  · rfl

omit [DecidableEq W] in
/-- The four ways out. -/
theorem exitOf_cases (lease : CommitLinkStateRow W) (canonical : CommitLinkProjection)
    (answer : Answer) :
    (exitOf lease canonical answer = .complete canonical.generation canonical.numbers ∧
        (answer = .outcome .documentMissing → canonical.numbers = []) ∧
          answer ≠ .outcome .conflict ∧ ∀ reason, answer ≠ .error reason) ∨
      (∃ reason, exitOf lease canonical answer = .release .retry reason) ∨
      (∃ reason, exitOf lease canonical answer = .release .parked reason ∧
        maxRetries ≤ lease.attemptCount) ∨
      exitOf lease canonical answer = .release .parked generationConflict := by
  have bounded : ∀ reason : Query.Text,
      (∃ text, Exit.release (if maxRetries ≤ lease.attemptCount then .parked else .retry) reason =
          .release .retry text) ∨
        ∃ text, Exit.release (if maxRetries ≤ lease.attemptCount then .parked else .retry) reason =
          .release .parked text ∧ maxRetries ≤ lease.attemptCount := by
    intro reason
    split
    next enough => exact .inr ⟨reason, rfl, enough⟩
    next => exact .inl ⟨reason, rfl⟩
  cases answer with
  | error reason => exact .inr ((bounded reason).imp id .inl)
  | outcome outcome =>
    cases outcome with
    | updated => exact .inl ⟨rfl, by simp, by simp, by simp⟩
    | noop => exact .inl ⟨rfl, by simp, by simp, by simp⟩
    | stale => exact .inl ⟨rfl, by simp, by simp, by simp⟩
    | conflict => exact .inr (.inr (.inr rfl))
    | documentMissing =>
      simp only [exitOf]
      split
      next empty => exact .inl ⟨by rw [empty], fun _ => empty, by simp, by simp⟩
      next => exact .inr ((bounded _).imp id .inl)

omit [DecidableEq W] in
theorem not_leased_exit : ((exitOf lease canonical answer).row row).state ≠ .leased := by
  rcases exitOf_cases lease canonical answer with ⟨is, _⟩ | ⟨_, is⟩ | ⟨_, is, _⟩ | is
  · rw [is]
    simp only [Exit.row]
    split <;> simp
  · simp [is, Exit.row]
  · simp [is, Exit.row]
  · simp [is, Exit.row]

omit [DecidableEq W] in
/-- A generation is acknowledged that the document has, or that has no links. -/
theorem rowOk_complete {generation : Int} {numbers : List Nat} (ok : RowOk s row)
    (leased : row.state = .leased) (tables : s'.tables = s.tables)
    (documents : s'.documents = s.documents) (reached : generation ≤ row.generation)
    (shown : generation = row.generation →
      generationOf (s.documents row.commitSha) = some row.generation ∨
        (generationOf (s.documents row.commitSha) = none ∧
          currentLinkView s.tables row.commitSha = noLinks)) :
    RowOk s' ((Exit.complete generation numbers).row row) := by
  have waits := ok.waits (by simp [leased])
  have same : max row.projectedGeneration generation = row.generation ↔ generation = row.generation := by
    omega
  refine ⟨?_, ?_, fun is => ?_, fun parked => ?_⟩
  · change max row.projectedGeneration generation ≤ row.generation
    omega
  · refine Iff.trans ?_ same.symm
    simp only [Exit.row]
    split
    next less => exact iff_of_false (by simp) (Int.ne_of_lt less)
    next notLess => exact iff_of_true rfl (Int.le_antisymm reached (Int.not_lt.mp notLess))
  · rw [tables, documents]
    exact shown (same.mp is)
  · simp only [Exit.row] at parked
    split at parked <;> simp at parked

omit [DecidableEq W] in
theorem rowOk_parked (ok : RowOk s row) (leased : row.state = .leased)
    (givenUp : s'.givenUp row.commitSha = some row.generation)
    (why : maxRetries ≤ row.attemptCount ∨ reason = generationConflict) :
    RowOk s' ((Exit.release .parked reason).row row) := by
  have waits := ok.waits (by simp [leased])
  refine ⟨Int.le_of_lt waits, iff_of_false (by simp [Exit.row]) (Int.ne_of_lt waits),
    fun same => absurd same (Int.ne_of_lt waits), fun _ => ⟨givenUp, why.imp id fun is => ?_⟩⟩
  subst is
  rfl

-- Only the row that is left can be given up.
theorem givenUpAfter_of_not_held (exit : Exit)
    (found : findCommitLinkState s.states row.commitSha = some row)
    (other : held lease row = false) :
    s.givenUpAfter lease canonical exit row.commitSha = s.givenUp row.commitSha := by
  unfold World.givenUpAfter
  split
  next reason =>
    split
    next any =>
      obtain ⟨row', inside, is⟩ := List.any_eq_true.mp any
      by_cases own : row.commitSha = lease.commitSha
      · have same : row' = row :=
          s.states.keyed.eq inside (List.mem_of_find?_eq_some found)
            ((held_iff.mp is).1.trans own.symm)
        rw [same, other] at is
        cases is
      · simp [own]
    next => rfl
  next => rfl

theorem givenUpAfter_of_held (found : findCommitLinkState s.states row.commitSha = some row)
    (is : held lease row = true) :
    s.givenUpAfter lease canonical (.release .parked reason) row.commitSha =
      some canonical.generation := by
  have any : s.states.rows.any (held lease) = true :=
    List.any_eq_true.mpr ⟨row, List.mem_of_find?_eq_some found, is⟩
  simp [World.givenUpAfter, any, (held_iff.mp is).1]

/-- The row after the worker has left it. -/
theorem rowOk_left (inv : Inv s) (tables : s'.tables = s.tables)
    (documents : s'.documents = s.documents)
    (givenUp : s'.givenUp = s.givenUpAfter lease canonical (exitOf lease canonical answer))
    (leaseOk : LeaseOk s worker lease) (read : ReadOk s lease canonical)
    (stage : StageOk s lease canonical (.answered answer))
    (keeps : (∃ reason, exitOf lease canonical answer = .release .parked reason) →
      ∀ row, findCommitLinkState s.states lease.commitSha = some row →
        held lease row = true → canonical.generation = row.generation)
    (found : findCommitLinkState s.states row.commitSha = some row) :
    RowOk s' (leftRow lease (exitOf lease canonical answer) row) := by
  have ok := (inv.commits row.commitSha).row row found
  unfold leftRow
  split
  next is =>
    obtain ⟨own, token, leased⟩ := held_iff.mp is
    have foundHere := found
    rw [own] at foundHere
    obtain ⟨stored, found', reached, current⟩ := read.current
    obtain rfl := Option.some.inj (foundHere.symm.trans found')
    have attempts := leaseOk.attempts row foundHere leased token
    rcases exitOf_cases lease canonical answer with ⟨exit, empty, notConflict, notError⟩ |
      ⟨reason, exit⟩ | ⟨reason, exit, enough⟩ | exit
    · rw [exit]
      refine rowOk_complete ok leased tables documents reached fun same => ?_
      have document := (inv.commits row.commitSha).document
      -- what is there of the generation that has been read
      have there : (∃ g, generationOf (s.documents lease.commitSha) = some g ∧
          canonical.generation ≤ g) →
            generationOf (s.documents row.commitSha) = some row.generation := by
        rintro ⟨g, is, least⟩
        rw [← own] at is
        have most := (document g is row found).1
        rw [is]
        exact congrArg some (by omega)
      cases answer with
      | error reason => exact absurd rfl (notError reason)
      | outcome outcome =>
        cases outcome with
        | updated => exact .inl (there stage)
        | noop => exact .inl (there stage)
        | stale => exact .inl (there stage)
        | conflict => exact absurd rfl notConflict
        | documentMissing =>
          refine .inr ⟨?_, ?_⟩
          · rw [own]
            exact stage ⟨row, foundHere, leased, token⟩
          · have none : canonical.view.1 = [] := by
              simp [CommitLinkProjection.view, empty rfl]
            rw [own, ← current same]
            exact Prod.ext none (read.normal.state none)
    · rw [exit]
      exact rowOk_of_waiting (ok.waits (by simp [leased])) (by simp [Exit.row]) (by simp [Exit.row])
    · have same := keeps ⟨reason, exit⟩ row foundHere is
      rw [exit] at givenUp ⊢
      refine rowOk_parked ok leased ?_ (.inl (attempts ▸ enough))
      rw [givenUp, givenUpAfter_of_held found is, same]
    · have same := keeps ⟨_, exit⟩ row foundHere is
      rw [exit] at givenUp ⊢
      refine rowOk_parked ok leased ?_ (.inr rfl)
      rw [givenUp, givenUpAfter_of_held found is, same]
  next other =>
    refine ok.frame tables documents fun _ => ?_
    rw [givenUp]
    exact givenUpAfter_of_not_held _ found (Bool.eq_false_iff.mpr other)

theorem inv_leave (inv : Inv s)
    (at_ : s.phase worker = .busy lease canonical (.answered answer) rest)
    (keeps : (∃ reason, exitOf lease canonical answer = .release .parked reason) →
      ∀ row, findCommitLinkState s.states lease.commitSha = some row →
        held lease row = true → canonical.generation = row.generation) :
    Inv { s with
      states := s.states.update (leftRow lease (exitOf lease canonical answer))
        (commitSha_leftRow lease (exitOf lease canonical answer))
      givenUp := s.givenUpAfter lease canonical (exitOf lease canonical answer)
      phase := Function.update s.phase worker (World.nextPhase rest) } := by
  obtain ⟨leases, busy⟩ := inv.phases worker
  rw [at_] at leases
  obtain ⟨read, stage⟩ := busy lease canonical _ rest at_
  have moved : ∀ sha, findCommitLinkState (s.states.update
      (leftRow lease (exitOf lease canonical answer))
      (commitSha_leftRow lease (exitOf lease canonical answer))) sha =
        (findCommitLinkState s.states sha).map (leftRow lease (exitOf lease canonical answer)) :=
    fun sha => find_update _ (commitSha_leftRow lease _)
  have later : ∀ other, Later other s { s with
      states := s.states.update (leftRow lease (exitOf lease canonical answer))
        (commitSha_leftRow lease (exitOf lease canonical answer))
      givenUp := s.givenUpAfter lease canonical (exitOf lease canonical answer)
      phase := Function.update s.phase worker (World.nextPhase rest) } := by
    intro other
    refine later_map rfl rfl moved (generation_leftRow lease _) fun row n leased _ => ?_
    unfold leftRow at leased ⊢
    split at leased
    next => exact absurd leased not_leased_exit
    next other => exact if_neg other
  refine inv.turn (fun sha => ?_) inv.valid rfl ?_ fun other _ => later other
  · refine (inv.commits sha).map rfl rfl (moved sha) (generation_leftRow lease _) fun row found => ?_
    rw [← commitSha_of_find found] at found
    exact rowOk_left inv rfl rfl rfl (leases lease List.mem_cons_self) read stage keeps found
  · refine phaseOk_nextPhase fun other inside => ?_
    exact (leases other (List.mem_cons_of_mem _ inside)).later (later worker)

end Leave

end PrSearch.Links
