import Mathlib.Data.Finset.Card
import Mathlib.Data.List.Perm.Subperm
import PrSearch.Reconcile.Round

/-! # What a completed round has seen

While GitHub's list is read, pull requests are updated and opened, and so the others only move towards its
end. A pull request that stays as it was is therefore on the page that is read, on one of the pages
before, or further behind. When the window has ended, it is not further behind.
-/
namespace PrSearch.Reconcile

/-! ### The list over time -/

/-- The last updated first; `tie` decides between equal times. -/
def newer (tie : Int → Int) (a b : PullRequestSummary) : Prop :=
  b.updatedAt < a.updatedAt ∨ a.updatedAt = b.updatedAt ∧ tie b.number < tie a.number

/-- GitHub's list is sorted whenever a page is read, and between two pages pull requests are updated and
opened; the list of page 0 is the one at the start of the round. -/
structure History (env : Surroundings) (tie : Int → Int) : Prop where
  sorted : ∀ page, (env.listing page).Pairwise (newer tie)
  distinct : ∀ page, ((env.listing page).map PullRequestSummary.number).Nodup
  later : ∀ page, ∀ item ∈ env.listing page, ∃ item' ∈ env.listing (page + 1),
    item'.number = item.number ∧
      (item'.updatedAt = item.updatedAt ∨ item.updatedAt ≤ item'.updatedAt ∧ env.now ≤ item'.updatedAt)

/-- A page that does not end the scan. -/
def Full (env : Surroundings) (page : Nat) : Prop :=
  pageSize ≤ (pageOf env page).length ∧ ∀ item ∈ pageOf env page, isOld env item = false

/-- The page that ends the scan: the first one that is short or leaves the window. -/
structure Last (env : Surroundings) (last : Nat) : Prop where
  positive : 1 ≤ last
  full : ∀ page, 1 ≤ page → page < last → Full env page
  ends : ¬ Full env last

/-- The pull requests of a page that lie in the window. -/
def windowOf (env : Surroundings) (page : Nat) : List PullRequestSummary :=
  (pageOf env page).takeWhile fun item => !isOld env item

/-- What a whole scan comes to: the pull requests of the window, page by page. -/
def window (env : Surroundings) (last : Nat) : List PullRequestSummary :=
  (List.range' 1 last).flatMap (windowOf env)

/-- Whether the index has the pull request at a check. -/
def found (env : Surroundings) (check : Nat) (number : Int) : Bool :=
  match env.indexed check number with
  | .ok indexed => indexed
  | .error _ => false

def checksFrom (env : Surroundings) (offset : Nat) (items : List PullRequestSummary) : List Check :=
  items.mapIdx fun i item => ⟨item.number, found env (offset + i) item.number⟩

/-- A pull request that was in the window at the start was scanned, or was updated since then and lies in
the window of every round that starts within a day. -/
def Covered (env : Surroundings) (last : Nat) (checks : List Check) : Prop :=
  ∀ item ∈ env.listing 0, cutoff env ≤ item.updatedAt →
    (∃ check ∈ checks, check.number = item.number) ∨
      ∃ page ≤ last, ∃ item' ∈ env.listing page, item'.number = item.number ∧
        item'.updatedAt ≠ item.updatedAt ∧ env.now ≤ item'.updatedAt ∧
          ∀ next ≤ env.now + reconcileWindowMs, next - reconcileWindowMs ≤ item'.updatedAt

/-- The pull requests that were not indexed when they were checked. -/
def missed (checks : List Check) : List Int :=
  (checks.filter fun check => !check.indexed).map Check.number

/-- Every pull request counts once. -/
def CountedOnce (checks : List Check) (missing : Nat) : Prop :=
  missing = (missed checks).toFinset.card

/-- Nothing that comes twice is missing both times. -/
def NotTwice (env : Surroundings) (last : Nat) : Prop :=
  ∀ i j, i < j → ∀ item item' : PullRequestSummary, (window env last)[i]? = some item →
    (window env last)[j]? = some item' → item.number = item'.number →
      found env i item.number = true ∨ found env j item'.number = true

variable {front rest : List PullRequestSummary}

section Positions

variable {tie : Int → Int} {item item' : PullRequestSummary} {items items' : List PullRequestSummary}

theorem newer_asymm (a b : PullRequestSummary) (one : newer tie a b) : ¬ newer tie b a := by
  unfold newer at *
  omega

theorem newer_le (is : newer tie item item') : item'.updatedAt ≤ item.updatedAt := by
  unfold newer at is
  omega

-- A later update of the newer one, and the same of the other: still newer.
theorem newer_mono {a b a' b' : PullRequestSummary} (is : newer tie a b) (sameA : a'.number = a.number)
    (laterA : a.updatedAt ≤ a'.updatedAt) (sameB : b'.number = b.number)
    (stillB : b'.updatedAt = b.updatedAt) : newer tie a' b' := by
  unfold newer at *
  rw [sameA, sameB]
  omega

/-- What is newer than an item stands before it. -/
theorem mem_front_of_newer (sorted : (front ++ item :: rest).Pairwise (newer tie))
    {other : PullRequestSummary} (inside : other ∈ front ++ item :: rest)
    (isNewer : newer tie other item) : other ∈ front := by
  obtain ⟨_, behind, _⟩ := List.pairwise_append.mp sorted
  obtain ⟨after, _⟩ := List.pairwise_cons.mp behind
  rcases List.mem_append.mp inside with before | here
  · exact before
  · rcases List.mem_cons.mp here with rfl | later
    · exact absurd isNewer (newer_asymm _ _ isNewer)
    · exact absurd isNewer (newer_asymm _ _ (after other later))

theorem newer_of_front (sorted : (front ++ item :: rest).Pairwise (newer tie)) :
    ∀ other ∈ front, newer tie other item :=
  fun other inside => (List.pairwise_append.mp sorted).2.2 other inside item List.mem_cons_self

end Positions

variable {now : PullRequestSummary} {fuel : Nat}

/-! ### What is not updated stays or moves on -/

section Pages

variable {env : Surroundings} {tie : Int → Int} {item : PullRequestSummary} {last page : Nat}

/-- The pull request as it was at the start. -/
def Unchanged (env : Surroundings) (item : PullRequestSummary) (page : Nat) (now : PullRequestSummary) : Prop :=
  now ∈ env.listing page ∧ now.number = item.number ∧ now.updatedAt = item.updatedAt

/-- So many are before it on the next list too. -/
theorem front_le (history : History env tie) {next : PullRequestSummary}
    (here : Unchanged env item page now) (there : Unchanged env item (page + 1) next)
    {front' rest' : List PullRequestSummary} (split : env.listing page = front ++ now :: rest)
    (split' : env.listing (page + 1) = front' ++ next :: rest') : front.length ≤ front'.length := by
  have sorted := history.sorted page
  have sorted' := history.sorted (page + 1)
  rw [split] at sorted
  rw [split'] at sorted'
  have inFront : front.map PullRequestSummary.number ⊆ front'.map PullRequestSummary.number := by
    intro number inside
    obtain ⟨other, before, rfl⟩ := List.mem_map.mp inside
    have isNewer := newer_of_front sorted other before
    have listed : other ∈ env.listing page := by
      rw [split]
      exact List.mem_append_left _ before
    obtain ⟨other', listed', sameNumber, time⟩ := history.later page other listed
    have laterTime : other.updatedAt ≤ other'.updatedAt := by omega
    have stillNewer : newer tie other' next :=
      newer_mono isNewer sameNumber laterTime (there.2.1.trans here.2.1.symm) (there.2.2.trans here.2.2.symm)
    rw [split'] at listed'
    exact List.mem_map.mpr ⟨other', mem_front_of_newer sorted' listed' stillNewer, sameNumber⟩
  have distinct := history.distinct page
  rw [split, List.map_append] at distinct
  have nodup := (List.nodup_append.mp distinct).1
  have bound := (List.subperm_of_subset nodup inFront).length_le
  rwa [List.length_map, List.length_map] at bound

/-- A pull request on a page of the window is one of the window. -/
theorem mem_windowOf (history : History env tie) (inWindow : cutoff env ≤ now.updatedAt)
    (split : env.listing page = front ++ now :: rest) (from_ : (page - 1) * pageSize ≤ front.length)
    (until_ : front.length < (page - 1) * pageSize + pageSize) : now ∈ windowOf env page := by
  have sorted := history.sorted page
  rw [split] at sorted
  -- the page is cut into what is before the pull request and the rest
  have isPage : pageOf env page = front.drop ((page - 1) * pageSize) ++
      (now :: rest).take (pageSize - (front.length - (page - 1) * pageSize)) := by
    rw [pageOf, split, List.drop_append_of_le_length from_, List.take_append, List.take_of_length_le,
      List.length_drop]
    rw [List.length_drop]
    omega
  have young : ∀ other ∈ front.drop ((page - 1) * pageSize), (!isOld env other) = true := by
    intro other inside
    have isNewer := newer_of_front sorted other (List.mem_of_mem_drop inside)
    have time := newer_le isNewer
    have notBefore : ¬ other.updatedAt < cutoff env := by omega
    simp [isOld, notBefore]
  obtain ⟨left, isLeft⟩ : ∃ left, pageSize - (front.length - (page - 1) * pageSize) = left + 1 :=
    ⟨pageSize - (front.length - (page - 1) * pageSize) - 1, by omega⟩
  have own : (!isOld env now) = true := by
    have notBefore : ¬ now.updatedAt < cutoff env := by omega
    simp [isOld, notBefore]
  rw [windowOf, isPage, isLeft, List.take_succ_cons, List.takeWhile_append_of_pos young,
    List.takeWhile_cons, if_pos own]
  exact List.mem_append_right _ List.mem_cons_self

/-- Behind the page that ends the scan there is nothing of the window. -/
theorem not_behind (history : History env tie) (ends : ¬ Full env page)
    (inWindow : cutoff env ≤ now.updatedAt) (split : env.listing page = front ++ now :: rest)
    (positive : 1 ≤ page) : front.length < page * pageSize := by
  by_contra behind
  have enough : page * pageSize ≤ front.length := by omega
  have bound : (page - 1) * pageSize + pageSize = page * pageSize := by
    obtain ⟨previous, rfl⟩ := Nat.exists_eq_add_of_le' positive
    rw [Nat.add_sub_cancel, Nat.succ_mul]
  have isPage : pageOf env page = (front.drop ((page - 1) * pageSize)).take pageSize := by
    rw [pageOf, split, List.drop_append_of_le_length (by omega), List.take_append_of_le_length]
    rw [List.length_drop]
    omega
  have sorted := history.sorted page
  rw [split] at sorted
  refine ends ⟨?_, fun other inside => ?_⟩
  · rw [isPage, List.length_take, List.length_drop]
    omega
  · rw [isPage] at inside
    have isNewer := newer_of_front sorted other (List.mem_of_mem_drop (List.mem_of_mem_take inside))
    have time := newer_le isNewer
    have notBefore : ¬ other.updatedAt < cutoff env := by omega
    simp [isOld, notBefore]

/-- A position that only grows passes through the pages one by one. -/
theorem page_of_growing {position : Nat → Nat} (size : Nat) (grows : ∀ page, page < last →
      position page ≤ position (page + 1)) (within : position last < last * size) :
    ∃ page, 1 ≤ page ∧ page ≤ last ∧ (page - 1) * size ≤ position page ∧ position page < page * size := by
  induction last with
  | zero => omega
  | succ last ih =>
    by_cases before : position last < last * size
    · obtain ⟨page, positive, le, rest⟩ := ih (fun page less => grows page (by omega)) before
      exact ⟨page, positive, by omega, rest⟩
    · refine ⟨last + 1, by omega, Nat.le_refl _, ?_, within⟩
      have step := grows last (Nat.lt_succ_self last)
      rw [Nat.add_sub_cancel]
      omega

/-- While it is not updated, a pull request stands on every list. -/
theorem unchanged_or_updated (history : History env tie) (listed : item ∈ env.listing 0) (page : Nat) :
    (∀ earlier ≤ page, ∃ now, Unchanged env item earlier now) ∨
      ∃ earlier ≤ page, ∃ item' ∈ env.listing earlier, item'.number = item.number ∧
        item'.updatedAt ≠ item.updatedAt ∧ env.now ≤ item'.updatedAt := by
  induction page with
  | zero =>
    left
    intro earlier isStart
    obtain rfl := Nat.le_zero.mp isStart
    exact ⟨item, listed, rfl, rfl⟩
  | succ page ih =>
    rcases ih with still | ⟨earlier, le, updated⟩
    · obtain ⟨now, there, sameNumber, sameTime⟩ := still page (Nat.le_refl _)
      obtain ⟨next, thereNext, sameNext, time⟩ := history.later page now there
      by_cases same : next.updatedAt = item.updatedAt
      · left
        intro earlier le
        rcases Nat.le_succ_iff.mp le with before | rfl
        · exact still earlier before
        · exact ⟨next, thereNext, sameNext.trans sameNumber, same⟩
      · right
        refine ⟨page + 1, Nat.le_refl _, next, thereNext, sameNext.trans sameNumber, same, ?_⟩
        omega
    · exact .inr ⟨earlier, by omega, updated⟩

/-- The window of a whole scan has every pull request that was not updated since its start. -/
theorem mem_window (history : History env tie) (isLast : Last env last) (inWindow : cutoff env ≤ item.updatedAt)
    (still : ∀ page ≤ last, ∃ now, Unchanged env item page now) :
    ∃ now ∈ window env last, now.number = item.number := by
  have each : ∀ page, ∃ front : List PullRequestSummary, page ≤ last → ∃ now rest,
      Unchanged env item page now ∧ env.listing page = front ++ now :: rest := by
    intro page
    by_cases le : page ≤ last
    · obtain ⟨now, unchanged⟩ := still page le
      obtain ⟨front, rest, split⟩ := List.append_of_mem unchanged.1
      exact ⟨front, fun _ => ⟨now, rest, unchanged, split⟩⟩
    · exact ⟨[], fun is => absurd is le⟩
  obtain ⟨fronts, splits⟩ := Classical.axiomOfChoice each
  have grows : ∀ page, page < last → (fronts page).length ≤ (fronts (page + 1)).length := by
    intro page less
    obtain ⟨now, rest, unchanged, split⟩ := splits page (by omega)
    obtain ⟨next, rest', unchanged', split'⟩ := splits (page + 1) less
    exact front_le history unchanged unchanged' split split'
  have within : (fronts last).length < last * pageSize := by
    obtain ⟨now, rest, unchanged, split⟩ := splits last (Nat.le_refl _)
    exact not_behind history isLast.ends (unchanged.2.2 ▸ inWindow) split isLast.positive
  obtain ⟨page, positive, le, from_, until_⟩ := page_of_growing pageSize grows within
  obtain ⟨now, rest, unchanged, split⟩ := splits page le
  have bound : (page - 1) * pageSize + pageSize = page * pageSize := by
    obtain ⟨previous, rfl⟩ := Nat.exists_eq_add_of_le' positive
    rw [Nat.add_sub_cancel, Nat.succ_mul]
  refine ⟨now, List.mem_flatMap.mpr ⟨page, ?_, ?_⟩, unchanged.2.1⟩
  · rw [List.mem_range'_1]
    omega
  · exact mem_windowOf history (unchanged.2.2 ▸ inWindow) split from_ (by omega)

end Pages

/-! ### What a scan has done -/

section Scans

variable {env : Surroundings} {items : List PullRequestSummary} {progress progress' : Progress}

theorem checksFrom_append (env : Surroundings) (offset : Nat) (items others : List PullRequestSummary) :
    checksFrom env offset (items ++ others) =
      checksFrom env offset items ++ checksFrom env (offset + items.length) others := by
  rw [checksFrom, List.mapIdx_append, checksFrom, checksFrom]
  congr 1
  refine congrFun (congrArg List.mapIdx ?_) others
  funext i item
  rw [Nat.add_right_comm, Nat.add_assoc]

theorem checksFrom_cons (env : Surroundings) (offset : Nat) (item : PullRequestSummary)
    (items : List PullRequestSummary) : checksFrom env offset (item :: items) =
      ⟨item.number, found env offset item.number⟩ :: checksFrom env (offset + 1) items :=
  checksFrom_append env offset [item] items

theorem missed_append (checks others : List Check) : missed (checks ++ others) = missed checks ++ missed others := by
  rw [missed, List.filter_append, List.map_append]
  rfl

/-- The items of the window are checked one after the other and counted. -/
structure Scanned (env : Surroundings) (items : List PullRequestSummary) (progress progress' : Progress) :
    Prop where
  scanned : progress'.scanned = progress.scanned + items.length
  missing : progress'.missing = progress.missing + (missed (checksFrom env progress.scanned items)).length
  checks : progress'.checks = progress.checks ++ checksFrom env progress.scanned items

theorem Scanned.nil : Scanned env [] progress progress := ⟨rfl, rfl, (List.append_nil _).symm⟩

theorem Scanned.append {others : List PullRequestSummary} {progress'' : Progress}
    (first : Scanned env items progress progress') (rest : Scanned env others progress' progress'') :
    Scanned env (items ++ others) progress progress'' where
  scanned := by rw [rest.scanned, first.scanned, List.length_append, Nat.add_assoc]
  missing := by
    rw [rest.missing, first.missing, first.scanned, checksFrom_append, missed_append, List.length_append,
      Nat.add_assoc]
  checks := by rw [rest.checks, first.checks, first.scanned, checksFrom_append, List.append_assoc]

/-- Asking about cancellation changes nothing else. -/
theorem shouldStop_ok {stop : Bool} (asked : shouldStop env progress = .ok (stop, progress'))
    (going : progress.stopped = false) : progress'.stopped = stop ∧ progress'.scanned = progress.scanned ∧
      progress'.missing = progress.missing ∧ progress'.checks = progress.checks := by
  unfold shouldStop at asked
  rw [if_neg (by simp [going])] at asked
  · split at asked
    next =>
      obtain ⟨rfl, rfl⟩ := Prod.mk.inj (Except.ok.inj asked)
      exact ⟨going, rfl, rfl, rfl⟩
    next =>
      split at asked
      next => cases asked
      next =>
        obtain ⟨rfl, rfl⟩ := Prod.mk.inj (Except.ok.inj asked)
        exact ⟨rfl, rfl, rfl, rfl⟩

theorem scanItems_ok {broke : Bool} (ran : scanItems env items progress = .ok (broke, progress'))
    (going : progress.stopped = false) (through : progress'.stopped = false) :
    Scanned env (items.takeWhile fun item => !isOld env item) progress progress' ∧
      (broke = true ↔ ∃ item ∈ items, isOld env item = true) := by
  induction items generalizing progress with
  | nil =>
    obtain ⟨rfl, rfl⟩ := Prod.mk.inj (Except.ok.inj ran)
    exact ⟨.nil, by simp⟩
  | cons item rest ih =>
    unfold scanItems at ran
    by_cases old : isOld env item = true
    · rw [if_pos old] at ran
      obtain ⟨rfl, rfl⟩ := Prod.mk.inj (Except.ok.inj ran)
      simp [old, Scanned.nil]
    · rw [if_neg old] at ran
      have young : isOld env item = false := by simpa using old
      rw [List.takeWhile_cons, if_pos (by simp [young])]
      -- one check, and then the rest from a progress with that check
      have next (middle : Progress) (indexed : Bool)
          (rest_ : scanItems env rest middle = .ok (broke, progress')) (on : middle.stopped = false)
          (answer : found env progress.scanned item.number = indexed)
          (scanned : middle.scanned = progress.scanned + 1)
          (missing : middle.missing = progress.missing + (if indexed then 0 else 1))
          (checks : middle.checks = progress.checks ++ [⟨item.number, indexed⟩]) :
          Scanned env (item :: rest.takeWhile fun item => !isOld env item) progress progress' ∧
            (broke = true ↔ ∃ item' ∈ item :: rest, isOld env item' = true) := by
        obtain ⟨ok, ends⟩ := ih rest_ on
        have one : Scanned env [item] progress middle := by
          refine ⟨scanned, ?_, ?_⟩
          · rw [missing, checksFrom_cons, answer]
            cases indexed <;> rfl
          · rw [checks, checksFrom_cons, answer]
            rfl
        exact ⟨one.append ok, by simp [ends, young]⟩
      split at ran
      next => cases ran
      next answer =>
        exact next _ true ran going (by rw [found, answer]) rfl rfl rfl
      next answer =>
        have missing := show found env progress.scanned item.number = false by rw [found, answer]
        split at ran
        next => cases ran
        next stopping =>
          -- the round is stopped, which it is not
          obtain ⟨rfl, rfl⟩ := Prod.mk.inj (Except.ok.inj ran)
          rw [(shouldStop_ok stopping going).1] at through
          cases through
        next middle asked =>
          obtain ⟨on, scanned, count, checks⟩ := shouldStop_ok asked going
          split at ran
          next => cases ran
          next => exact next _ false ran on missing scanned count checks
          next => exact next _ false ran on missing scanned count checks

theorem full_iff (page : Nat) : Full env page ↔
    ¬ (pageOf env page).length < pageSize ∧ ¬ ∃ item ∈ pageOf env page, isOld env item = true := by
  rw [Full, not_lt]
  refine and_congr_right fun _ => ⟨?_, ?_⟩
  · rintro young ⟨item, inside, old⟩
    rw [young item inside] at old
    cases old
  · exact fun none_ item inside => by simpa using fun old => none_ ⟨item, inside, old⟩

theorem scan_ok {page : Nat} (ran : scan env fuel page progress = some (.ok (false, progress')))
    (going : progress.stopped = false) (through : progress'.stopped = false) :
    ∃ more, (∀ other, page ≤ other → other < page + more → Full env other) ∧ ¬ Full env (page + more) ∧
      Scanned env ((List.range' page (more + 1)).flatMap (windowOf env)) progress progress' := by
  induction fuel generalizing page progress with
  | zero => cases ran
  | succ fuel ih =>
    unfold scan at ran
    split at ran
    next => cases ran
    next stopping =>
      obtain ⟨_, rfl⟩ := Prod.mk.inj (Except.ok.inj (Option.some.inj ran))
      rw [(shouldStop_ok stopping going).1] at through
      cases through
    next middle asked =>
      obtain ⟨on, scanned, missing, checks⟩ := shouldStop_ok asked going
      have same : Scanned env [] progress middle := ⟨scanned, missing, by rw [checks]; exact (List.append_nil _).symm⟩
      split at ran
      next => cases ran
      next => cases ran
      next =>
        split at ran
        next => cases ran
        next ended scannedPage =>
          -- an item of the page is older than the window
          obtain ⟨_, rfl⟩ := Prod.mk.inj (Except.ok.inj (Option.some.inj ran))
          obtain ⟨ok, broke⟩ := scanItems_ok scannedPage on through
          refine ⟨0, fun other le less => absurd less (by omega), ?_, ?_⟩
          · exact fun full => ((full_iff page).mp full).2 (broke.mp rfl)
          · simpa [windowOf] using same.append ok
        next ended scannedPage =>
          split at ran
          next short =>
            obtain ⟨_, rfl⟩ := Prod.mk.inj (Except.ok.inj (Option.some.inj ran))
            obtain ⟨ok, _⟩ := scanItems_ok scannedPage on through
            refine ⟨0, fun other le less => absurd less (by omega), ?_, ?_⟩
            · exact fun full => ((full_iff page).mp full).1 short
            · simpa [windowOf] using same.append ok
          next long =>
            have goes : ended.stopped = false := by
              by_contra stopped
              have isStopped : ended.stopped = true := by simpa using stopped
              -- a stopped round does not read another page
              cases fuel with
              | zero => cases ran
              | succ fuel =>
                unfold scan at ran
                rw [shouldStop, if_pos isStopped] at ran
                obtain ⟨_, rfl⟩ := Prod.mk.inj (Except.ok.inj (Option.some.inj ran))
                rw [isStopped] at through
                cases through
            obtain ⟨ok, broke⟩ := scanItems_ok scannedPage on goes
            have none_ : ¬ ∃ item ∈ pageOf env page, isOld env item = true := fun old =>
              absurd (broke.mpr old) (by decide)
            obtain ⟨more, full, ends, rest⟩ := ih ran goes
            refine ⟨more + 1, ?_, ?_, ?_⟩
            · intro other le less
              rcases Nat.eq_or_lt_of_le le with rfl | later
              · exact (full_iff page).mpr ⟨long, none_⟩
              · exact full other later (by omega)
            · rwa [Nat.add_right_comm, Nat.add_assoc] at ends
            · have all := (same.append ok).append rest
              rw [List.nil_append] at all
              rw [List.range'_succ, List.flatMap_cons]
              exact all

theorem Last.of_scan {more : Nat} (full : ∀ other, 1 ≤ other → other < 1 + more → Full env other)
    (ends : ¬ Full env (1 + more)) : Last env (more + 1) where
  positive := by omega
  full page positive less := full page positive (by omega)
  ends := by rwa [Nat.add_comm] at ends

/-- A round that records itself has scanned the window to its end, and records what it has missed. -/
theorem recorded_ok {result : ReconcileResult} {missing : Nat}
    (ran : reconcileRepository env fuel = some (.ok result))
    (recorded : result.recorded = some missing) :
    ∃ last, Last env last ∧ result.progress.checks = checksFrom env 0 (window env last) ∧
      missing = (missed result.progress.checks).length := by
  obtain ⟨scanned, scans, is⟩ := Option.map_eq_some_iff.mp ran
  cases scanned with
  | error thrown => cases is
  | ok pair =>
    obtain ⟨deferred, progress⟩ := pair
    dsimp only at is
    unfold finish at is
    split at is
    next => cases is
    next =>
      cases is
      cases recorded
    next final asked =>
      have going : progress.stopped = false := by
        by_contra stopped
        have isStopped : progress.stopped = true := by simpa using stopped
        rw [shouldStop, if_pos isStopped] at asked
        cases asked
      obtain ⟨_, _, count, checks⟩ := shouldStop_ok asked going
      split at is
      next => cases is
      next =>
        cases is
        dsimp only at recorded ⊢
        split at recorded
        next => cases recorded
        next completes =>
          rw [not_or] at completes
          have notDeferred : deferred = false := by simpa using completes.1
          subst notDeferred
          obtain ⟨more, full, ends, ok⟩ := scan_ok scans rfl going
          obtain rfl := Option.some.inj recorded
          have isChecks : final.checks = checksFrom env 0 (window env (more + 1)) :=
            checks.trans (ok.checks.trans (List.nil_append _))
          refine ⟨more + 1, Last.of_scan full ends, isChecks, ?_⟩
          rw [count, ok.missing, isChecks]
          exact Nat.zero_add _

end Scans

/-! ### The count -/

section Counts

variable {env : Surroundings} {last : Nat}

theorem countedOnce_iff (checks : List Check) : CountedOnce checks (missed checks).length ↔ (missed checks).Nodup := by
  rw [CountedOnce, List.card_toFinset, eq_comm]
  constructor
  · intro same
    rw [← List.dedup_eq_self]
    exact (List.dedup_sublist _).eq_of_length same
  · intro nodup
    rw [List.dedup_eq_self.mpr nodup]

theorem nodup_missed_iff (env : Surroundings) (last : Nat) :
    (missed (checksFrom env 0 (window env last))).Nodup ↔ NotTwice env last := by
  rw [missed, List.Nodup, List.pairwise_map, List.pairwise_filter, List.pairwise_iff_getElem]
  simp only [checksFrom, List.length_mapIdx, List.getElem_mapIdx, Nat.zero_add]
  constructor
  · intro apart i j less item item' there there' same
    obtain ⟨hi, rfl⟩ := List.getElem?_eq_some_iff.mp there
    obtain ⟨hj, rfl⟩ := List.getElem?_eq_some_iff.mp there'
    by_contra both
    rw [not_or] at both
    exact apart i j hi hj less (by simpa using both.1) (by simpa using both.2) same
  · intro notTwice i j hi hj less missing missing' same
    rcases notTwice i j less _ _ (List.getElem?_eq_getElem hi) (List.getElem?_eq_getElem hj) same with is | is
    · rw [is] at missing
      cases missing
    · rw [is] at missing'
      cases missing'

theorem covered (tie : Int → Int) (history : History env tie) (isLast : Last env last) :
    Covered env last (checksFrom env 0 (window env last)) := by
  intro item listed inWindow
  rcases unchanged_or_updated history listed last with still | ⟨page, le, item', there, sameNumber, time, later⟩
  · left
    obtain ⟨now, inside, isNumber⟩ := mem_window history isLast inWindow still
    obtain ⟨i, there⟩ := List.mem_iff_getElem?.mp inside
    refine ⟨⟨now.number, found env (0 + i) now.number⟩, ?_, isNumber⟩
    refine List.mem_iff_getElem?.mpr ⟨i, ?_⟩
    rw [checksFrom, List.getElem?_mapIdx, there]
    rfl
  · right
    exact ⟨page, le, item', there, sameNumber, time, later, fun next within => by omega⟩

/-- A completed round has seen every pull request of the window, and it counts each of them once exactly
when none that comes twice is missing both times. -/
theorem completed_iff (env : Surroundings) (tie : Int → Int) (history : History env tie) (fuel : Nat)
    (result : ReconcileResult) (missing : Nat) (ran : reconcileRepository env fuel = some (.ok result))
    (recorded : result.recorded = some missing) :
    ∃ last, Last env last ∧ Covered env last result.progress.checks ∧
      ((Covered env last result.progress.checks ∧ CountedOnce result.progress.checks missing) ↔
        NotTwice env last) := by
  obtain ⟨last, isLast, checks, count⟩ := recorded_ok ran recorded
  have seen : Covered env last result.progress.checks := checks ▸ covered tie history isLast
  refine ⟨last, isLast, seen, ?_⟩
  rw [and_iff_right seen, count, countedOnce_iff, checks, nodup_missed_iff]

end Counts

/-! ### A pull request pushed onto the next page -/

def firstListing : List PullRequestSummary :=
  (List.range 101).map fun i => ⟨i + 1, 1000 - i, true⟩

/-- Pull request 101 is updated, and so pull request 100 begins the second page. -/
def secondListing : List PullRequestSummary := ⟨101, 2000, true⟩ :: firstListing.take 100

/-- The round starts at 1500; pull request 100 is not indexed at first, and projecting it again takes effect
at once or not at all. -/
def pushed (helps : Bool) : Surroundings where
  now := 1500
  listing page := if page ≤ 1 then firstListing else secondListing
  failure _ := none
  indexed check number := .ok (number ≠ 100 || (helps && decide (100 ≤ check)))
  cancelled := none
  reproject _ _ := .ok helps
  scheduleHeadSequence := .ok false
  recordFails := false

/-- What a change keeps, by a test. -/
def keeps (listing next : List PullRequestSummary) : Bool :=
  listing.all fun item => next.any fun item' => item'.number = item.number &&
    (item'.updatedAt = item.updatedAt || (item.updatedAt ≤ item'.updatedAt && (1500 : Int) ≤ item'.updatedAt))

theorem of_keeps {listing next : List PullRequestSummary} (kept : keeps listing next = true) :
    ∀ item ∈ listing, ∃ item' ∈ next, item'.number = item.number ∧
      (item'.updatedAt = item.updatedAt ∨ item.updatedAt ≤ item'.updatedAt ∧ 1500 ≤ item'.updatedAt) := by
  intro item inside
  have some_ := List.all_eq_true.mp kept item inside
  simpa using some_

instance (tie : Int → Int) : DecidableRel (newer tie) := fun a b =>
  inferInstanceAs (Decidable (b.updatedAt < a.updatedAt ∨ a.updatedAt = b.updatedAt ∧ tie b.number < tie a.number))

theorem pushed_history (helps : Bool) : History (pushed helps) id where
  sorted page := by
    have both : firstListing.Pairwise (newer id) ∧ secondListing.Pairwise (newer id) := by decide +kernel
    by_cases early : page ≤ 1
    · simpa [pushed, early] using both.1
    · simpa [pushed, early] using both.2
  distinct page := by
    have both : (firstListing.map PullRequestSummary.number).Nodup ∧
        (secondListing.map PullRequestSummary.number).Nodup := by decide +kernel
    by_cases early : page ≤ 1
    · simpa [pushed, early] using both.1
    · simpa [pushed, early] using both.2
  later page := by
    have all : keeps firstListing firstListing = true ∧ keeps firstListing secondListing = true ∧
        keeps secondListing secondListing = true := by decide +kernel
    by_cases start : page = 0
    · subst start
      exact of_keeps all.1
    · by_cases early : page = 1
      · subst early
        exact of_keeps all.2.1
      · have late : ¬ page ≤ 1 := by omega
        have later : ¬ page + 1 ≤ 1 := by omega
        simpa [pushed, late, later] using of_keeps all.2.2

/-- What a round has recorded and missed. -/
def outcome (env : Surroundings) : Option (Option Nat × List Int) :=
  match reconcileRepository env 3 with
  | some (.ok result) => some (result.recorded, missed result.progress.checks)
  | _ => none

theorem of_outcome {env : Surroundings} {recorded : Option Nat} {numbers : List Int}
    (is : outcome env = some (recorded, numbers)) :
    ∃ result, reconcileRepository env 3 = some (.ok result) ∧ result.recorded = recorded ∧
      missed result.progress.checks = numbers := by
  unfold outcome at is
  split at is
  next result ran =>
    obtain ⟨same, numbers⟩ := Prod.mk.inj (Option.some.inj is)
    exact ⟨result, ran, same, numbers⟩
  next => cases is

theorem completed_iff_pushed : ∃ result last, reconcileRepository (pushed true) 3 = some (.ok result) ∧
    result.recorded = some 1 ∧ Last (pushed true) last ∧ Covered (pushed true) last result.progress.checks ∧
      ((Covered (pushed true) last result.progress.checks ∧ CountedOnce result.progress.checks 1) ↔
        NotTwice (pushed true) last) := by
  have is : outcome (pushed true) = some (some 1, [100]) := by decide +kernel
  obtain ⟨result, ran, recorded, _⟩ := of_outcome is
  obtain ⟨last, isLast, rest⟩ := completed_iff (pushed true) id (pushed_history true) 3 result 1 ran recorded
  exact ⟨result, last, ran, recorded, isLast, rest⟩

/-- Projecting fails, and pull request 100 counts on both pages. -/
theorem not_countedOnce : ¬ ∀ (env : Surroundings) (tie : Int → Int), History env tie →
    ∀ fuel result missing, reconcileRepository env fuel = some (.ok result) → result.recorded = some missing →
      ∃ last, Last env last ∧ Covered env last result.progress.checks ∧
        CountedOnce result.progress.checks missing := by
  intro all
  have is : outcome (pushed false) = some (some 2, [100, 100]) := by decide +kernel
  obtain ⟨result, ran, recorded, numbers⟩ := of_outcome is
  obtain ⟨last, _, _, once⟩ := all (pushed false) id (pushed_history false) 3 result 2 ran recorded
  rw [CountedOnce, numbers] at once
  exact absurd once (by decide)

end PrSearch.Reconcile
