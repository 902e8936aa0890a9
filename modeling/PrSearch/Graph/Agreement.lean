import PrSearch.Graph.Api

/-! # The two graphs agree

The list that the API gives for a commit is a listing of everything that reaches it, in some order
and cut into pages. Following first parents through it gives the first-parent chain of the commit
down to the start of the range, and when the start is on that chain this is the range of the mirror.
A start that is reached along other parents only, and a listing beyond the maximum, are refused,
where the mirror answers.
-/
namespace PrSearch.Graph

open Sequence (Sha Instant Fault FirstParentCommit)

/-- What is documented of the answers: the pages cut a listing of all commits that `toSha` reaches,
each with its parents. -/
structure Serves (g : Dag Sha) (graph : ApiCommitGraph) (toSha : Sha)
    (listing : List CommitSummary) : Prop where
  perPage : 0 < graph.perPage
  pages : ∀ page, graph.listCommits toSha graph.perPage (page + 1) =
    .ok ((listing.drop (page * graph.perPage)).take graph.perPage)
  distinct : (listing.map CommitSummary.sha).Nodup
  reachable : ∀ sha, sha ∈ listing.map CommitSummary.sha ↔ g.Ancestor sha toSha
  parents : ∀ commit ∈ listing, commit.parents = g.parents commit.sha

variable {α : Type} {listing : List CommitSummary} {g : Dag Sha} {graph : ApiCommitGraph} {v : Sha}
  {range : RevRange} {fuel : Nat}

variable {perPage maxItems : Nat} {get : Nat → Except Fault (List α)} {toSha p : Sha}
  {fromSha : Option Sha} {rest : List Sha}

/-! ### Pages -/

/-- The loop collects the listing, or more than the maximum of it. -/
theorem getPages_eq {listing : List α} (positive : 0 < perPage)
    (pages : ∀ page, get (page + 1) = .ok ((listing.drop (page * perPage)).take perPage))
    (turns page : Nat) (room : maxItems < turns + page * perPage) :
    ∃ collected, getPages perPage maxItems get turns (page + 1)
        (listing.take (page * perPage)) = .ok collected ∧
      (collected = listing ∨ maxItems < collected.length ∧ collected <+: listing) := by
  induction turns generalizing page with
  | zero =>
    refine ⟨_, rfl, ?_⟩
    by_cases long : page * perPage ≤ listing.length
    · right
      rw [List.length_take_of_le long]
      exact ⟨by omega, List.take_prefix _ _⟩
    · left
      exact List.take_of_length_le (by omega)
  | succ turns ih =>
    simp only [getPages]
    split
    next more =>
      rw [pages page]
      simp only [List.length_take, List.length_drop]
      by_cases last : listing.length < page * perPage + perPage
      · -- the page is short: it ends the listing
        have joined : listing.take (page * perPage) ++
            (listing.drop (page * perPage)).take perPage = listing := by
          have rest : (listing.drop (page * perPage)).take perPage =
              listing.drop (page * perPage) := by
            apply List.take_of_length_le
            rw [List.length_drop]
            omega
          rw [rest, List.take_append_drop]
        split
        next empty =>
          refine ⟨_, rfl, .inl ?_⟩
          exact List.take_of_length_le (by omega)
        next nonempty =>
          have short : min perPage (listing.length - page * perPage) < perPage := by omega
          simp only [short, if_true]
          exact ⟨_, rfl, .inl joined⟩
      · have full : min perPage (listing.length - page * perPage) = perPage := by omega
        simp only [full, positive.ne', if_false, Nat.lt_irrefl]
        have joined : listing.take (page * perPage) ++
            (listing.drop (page * perPage)).take perPage =
              listing.take ((page + 1) * perPage) := by
          rw [Nat.add_mul, Nat.one_mul, List.take_add]
        rw [joined]
        apply ih (page + 1)
        have grown : (page + 1) * perPage = page * perPage + perPage := by
          rw [Nat.add_mul, Nat.one_mul]
        omega
    next enough => exact ⟨_, rfl, .inr ⟨Nat.lt_of_not_le enough, List.take_prefix _ _⟩⟩

/-- The pages together: the listing up to the maximum, and whether there was more. -/
theorem getAllPaged_eq {listing : List α} (positive : 0 < perPage)
    (pages : ∀ page, get (page + 1) = .ok ((listing.drop (page * perPage)).take perPage)) :
    getAllPaged perPage maxItems get =
      .ok ⟨listing.take maxItems, maxItems < listing.length, maxItems⟩ := by
  have room : maxItems < maxItems + 1 + 0 * perPage := by omega
  obtain ⟨collected, ends, all⟩ := getPages_eq positive pages (maxItems + 1) 0 room
  rw [Nat.zero_mul, List.take_zero] at ends
  rw [getAllPaged, ends]
  rcases all with rfl | ⟨more, start⟩
  · rfl
  · have shorter := start.length_le
    have cut : collected.take maxItems = listing.take maxItems := by
      obtain ⟨rest, rfl⟩ := start
      rw [List.take_append_of_le_length (Nat.le_of_lt more)]
    have longer : maxItems < listing.length := Nat.lt_of_lt_of_le more shorter
    simp [cut, more, longer]

/-! ### The walk -/

theorem findCommit_eq (serves : Serves g graph toSha listing) {sha : Sha}
    (reached : g.Ancestor sha toSha) :
    ∃ node, findCommit listing sha = some node ∧ node.parents = g.parents sha := by
  obtain ⟨commit, listed, rfl⟩ := List.mem_map.mp ((serves.reachable sha).mpr reached)
  cases found : findCommit listing commit.sha with
  | none =>
    have absent := List.find?_eq_none.mp found commit (List.mem_reverse.mpr listed)
    simp at absent
  | some node =>
    have same : node.sha = commit.sha := by simpa using List.find?_some found
    have member := List.mem_reverse.mp (List.mem_of_find?_eq_some found)
    refine ⟨node, rfl, ?_⟩
    rw [serves.parents node member, same]

/-- The start is missing from the chain of `v`. -/
def OffChain (g : Dag Sha) (fromSha : Option Sha) (v : Sha) : Prop :=
  ∃ base ∈ fromSha, base ∉ g.firstParents v

theorem range_of_parent (g : Dag Sha) (parents : g.parents v = p :: rest)
    (different : some v ≠ fromSha) (onChain : ¬ OffChain g fromSha p) :
    g.range fromSha v = g.range fromSha p ++ [v] := by
  cases fromSha with
  | none => exact g.firstParents_of_parent parents
  | some base =>
    have below : base ∈ g.firstParents p := by
      by_contra off
      exact onChain ⟨base, rfl, off⟩
    have above : base ∈ g.firstParents v := by
      rw [g.firstParents_of_parent parents]
      exact List.mem_append_left _ below
    have shorter := g.firstParents_append_range below
    have longer := g.firstParents_append_range above
    rw [g.firstParents_of_parent parents, ← shorter, List.append_assoc] at longer
    exact List.append_cancel_left longer

theorem range_self (g : Dag Sha) (known : v ∈ g) : g.range (some v) v = [] := by
  have whole := g.firstParents_append_range (g.self_mem_firstParents known)
  exact List.append_right_eq_self.mp whole

theorem offChain_parent_iff (g : Dag Sha) (parents : g.parents v = p :: rest)
    (different : some v ≠ fromSha) : OffChain g fromSha v ↔ OffChain g fromSha p := by
  unfold OffChain
  rw [g.firstParents_of_parent parents]
  constructor
  · rintro ⟨base, isBase, off⟩
    exact ⟨base, isBase, fun below => off (List.mem_append_left _ below)⟩
  · rintro ⟨base, isBase, off⟩
    refine ⟨base, isBase, ?_⟩
    intro member
    rcases List.mem_append.mp member with below | last
    · exact off below
    · rw [List.mem_singleton] at last
      have start : fromSha = some base := isBase
      exact different (start.trans (congrArg some last)).symm

/-- From any commit of the listing the walk goes down the first-parent chain: it ends at the start
of the range or, when that is not on the chain, throws at the root. -/
theorem walk_eq (serves : Serves g graph toSha listing) (fromSha : Option Sha) (known : toSha ∈ g)
    (reached : g.Ancestor v toSha) (fuel : Nat) (chain : List Sha)
    (enough : (g.firstParents v).length < fuel) :
    (OffChain g fromSha v →
      ∃ fault, walk listing toSha fromSha fuel (some v) chain = some (.error fault)) ∧
    (¬ OffChain g fromSha v →
      walk listing toSha fromSha fuel (some v) chain =
        some (.ok (g.range fromSha v ++ chain.reverse))) := by
  refine g.firstParents_induction (motive := fun v => g.Ancestor v toSha → ∀ fuel chain,
    (g.firstParents v).length < fuel →
    (OffChain g fromSha v →
      ∃ fault, walk listing toSha fromSha fuel (some v) chain = some (.error fault)) ∧
    (¬ OffChain g fromSha v →
      walk listing toSha fromSha fuel (some v) chain =
        some (.ok (g.range fromSha v ++ chain.reverse))))
    ?_ ?_ v (reached.mem known) reached fuel chain enough
  · intro v member root reached fuel chain enough
    obtain ⟨node, found, parents⟩ := findCommit_eq serves reached
    rw [g.firstParents_of_root member root] at enough
    obtain ⟨fuel, rfl⟩ : ∃ more, fuel = more + 2 := ⟨fuel - 2, by simp at enough; omega⟩
    by_cases start : some v = fromSha
    · subst start
      have onChain : ¬ OffChain g (some v) v := by
        rintro ⟨base, isBase, off⟩
        cases isBase
        exact off (g.self_mem_firstParents member)
      refine ⟨fun off => absurd off onChain, fun _ => ?_⟩
      simp [walk, chainEnd, range_self g member]
    · have step : walk listing toSha fromSha (fuel + 2) (some v) chain =
          some (chainEnd fromSha toSha none (chain ++ [v])) := by
        simp only [walk, start, if_false, found, parents, root, List.head?_nil]
      rw [step]
      cases fromSha with
      | none =>
        have onChain : ¬ OffChain g none v := by
          rintro ⟨base, ⟨⟩, -⟩
        refine ⟨fun off => absurd off onChain, fun _ => ?_⟩
        simp [chainEnd, g.firstParents_of_root member root]
      | some base =>
        have off : OffChain g (some base) v := by
          refine ⟨base, rfl, ?_⟩
          rw [g.firstParents_of_root member root, List.mem_singleton]
          exact fun same => start (congrArg some same.symm)
        refine ⟨fun _ => ⟨_, by simp [chainEnd]; rfl⟩, fun onChain => absurd off onChain⟩
  · intro v p rest parents ih reached fuel chain enough
    obtain ⟨node, found, recorded⟩ := findCommit_eq serves reached
    have member : v ∈ g := g.mem_of_parents_ne_nil (by rw [parents]; simp)
    rw [g.firstParents_of_parent parents, List.length_append, List.length_singleton] at enough
    obtain ⟨fuel, rfl⟩ : ∃ more, fuel = more + 1 := ⟨fuel - 1, by omega⟩
    by_cases start : some v = fromSha
    · subst start
      have onChain : ¬ OffChain g (some v) v := by
        rintro ⟨base, isBase, off⟩
        cases isBase
        exact off (g.self_mem_firstParents member)
      refine ⟨fun off => absurd off onChain, fun _ => ?_⟩
      simp [walk, chainEnd, range_self g member]
    · have step : walk listing toSha fromSha (fuel + 1) (some v) chain =
          walk listing toSha fromSha fuel (some p) (chain ++ [v]) := by
        simp only [walk, start, if_false, found, recorded, parents, List.head?_cons]
      have above : g.Ancestor p toSha :=
        (Dag.ancestor_of_parent (by rw [parents]; simp)).trans reached
      have below := ih above fuel (chain ++ [v]) (by omega)
      rw [step, offChain_parent_iff g parents start]
      refine ⟨below.1, fun onChain => ?_⟩
      rw [below.2 onChain, range_of_parent g parents start onChain]
      simp

/-! ### Answers -/

/-- Where the API graph throws: the listing is beyond the maximum, or the start of the range is not
on the first-parent chain of its end. -/
def Refuses (g : Dag Sha) (graph : ApiCommitGraph) (listing : List CommitSummary)
    (range : RevRange) : Prop :=
  graph.max < listing.length ∨ OffChain g range.fromSha range.toSha

instance (g : Dag Sha) (fromSha : Option Sha) (v : Sha) : Decidable (OffChain g fromSha v) :=
  inferInstanceAs (Decidable (∃ _ ∈ _, _))

instance (g : Dag Sha) (graph : ApiCommitGraph) (listing : List CommitSummary) (range : RevRange) :
    Decidable (Refuses g graph listing range) :=
  inferInstanceAs (Decidable (_ ∨ _))

/-- A call returns, with an error if it is refused and with something good if not. -/
def Answers {α : Type} (refused : Prop) (good : α → Prop) (answer : Option (Except Fault α)) :
    Prop :=
  (refused → ∃ fault, answer = some (.error fault)) ∧
    (¬ refused → ∃ a, answer = some (.ok a) ∧ good a)

theorem Answers.good {refused : Prop} {good : α → Prop} {answer : Option (Except Fault α)}
    (answers : Answers refused good answer) {a : α} (said : answer = some (.ok a)) : good a := by
  by_cases refused
  next refused =>
    obtain ⟨fault, thrown⟩ := answers.1 refused
    rw [said] at thrown
    cases thrown
  next answered =>
    obtain ⟨b, returned, isGood⟩ := answers.2 answered
    rw [said] at returned
    cases returned
    exact isGood

theorem check_full (thrown : String → Fault) (toFull : isFullSha range.toSha)
    (fromFull : ∀ base ∈ range.fromSha, isFullSha base) : range.check thrown = .ok () := by
  unfold RevRange.check
  rw [toFull]
  cases start : range.fromSha with
  | none => rfl
  | some base =>
    have full := fromFull base start
    simp [full]

theorem length_firstParents_le (serves : Serves g graph toSha listing) :
    (g.firstParents toSha).length ≤ listing.length := by
  have within : g.firstParents toSha ⊆ listing.map CommitSummary.sha := fun sha member =>
    (serves.reachable sha).mpr (g.ancestor_of_mem_firstParents member)
  have shorter := List.Nodup.length_le_of_subset (g.nodup_firstParents toSha) within
  rwa [List.length_map] at shorter

theorem loadChain_answers (checked : range.check (.graph "api") = .ok ()) (known : range.toSha ∈ g)
    (serves : Serves g graph range.toSha listing) (enough : listing.length < fuel) :
    Answers (Refuses g graph listing range)
      (fun loaded => loaded = (listing, g.range range.fromSha range.toSha))
      (graph.loadChain fuel range) := by
  have paged : getAllPaged graph.perPage graph.max
      (graph.listCommits range.toSha graph.perPage) =
        .ok ⟨listing.take graph.max, graph.max < listing.length, graph.max⟩ :=
    getAllPaged_eq serves.perPage serves.pages
  unfold ApiCommitGraph.loadChain Refuses
  rw [checked, paged]
  simp only [decide_eq_true_eq]
  by_cases long : graph.max < listing.length
  · simp only [long, if_true]
    exact ⟨fun _ => ⟨_, rfl⟩, fun answered => absurd (.inl trivial) answered⟩
  · have whole : listing.take graph.max = listing := List.take_of_length_le (Nat.le_of_not_lt long)
    have fits := Nat.lt_of_le_of_lt (length_firstParents_le serves) enough
    have walked := walk_eq serves range.fromSha known (.refl g range.toSha) fuel [] fits
    simp only [long, if_false, whole, false_or, firstParentChain]
    constructor
    · intro off
      obtain ⟨fault, thrown⟩ := walked.1 off
      rw [thrown]
      cases fault with
      | graph kind message => exact ⟨_, rfl⟩
      | error message => exact ⟨_, rfl⟩
    · intro onChain
      rw [walked.2 onChain]
      exact ⟨_, rfl, by rw [List.reverse_nil, List.append_nil]⟩

theorem firstParentRevList_answers (checked : range.check (.graph "api") = .ok ())
    (known : range.toSha ∈ g) (serves : Serves g graph range.toSha listing)
    (enough : listing.length < fuel) :
    Answers (Refuses g graph listing range)
      (fun list => list = g.range range.fromSha range.toSha)
      (graph.firstParentRevList fuel range) := by
  have loaded := loadChain_answers checked known serves enough
  unfold ApiCommitGraph.firstParentRevList
  constructor
  · intro refused
    obtain ⟨fault, thrown⟩ := loaded.1 refused
    rw [thrown]
    exact ⟨fault, rfl⟩
  · intro answered
    obtain ⟨_, returned, rfl⟩ := loaded.2 answered
    rw [returned]
    exact ⟨_, rfl, rfl⟩

/-- A list of commits is given its dates, all of them or none. -/
theorem mapM_withDate (items : List CommitSummary) (chain : List Sha) :
    Answers (∃ sha ∈ chain, ApiCommitGraph.dateBySha items sha = none)
      (fun commits => commits.map FirstParentCommit.sha = chain ∧ ∀ commit ∈ commits,
        ApiCommitGraph.dateBySha items commit.sha = some commit.committedAt)
      (some (chain.mapM (ApiCommitGraph.withDate items))) := by
  induction chain with
  | nil =>
    refine ⟨?_, fun _ => ⟨[], rfl, rfl, List.forall_mem_nil _⟩⟩
    rintro ⟨sha, made, -⟩
    exact absurd made List.not_mem_nil
  | cons sha rest ih =>
    rw [List.mapM_cons]
    cases date : ApiCommitGraph.dateBySha items sha with
    | none =>
      have thrown : ApiCommitGraph.withDate items sha =
          .error (.graph "api" ("커밋 시각을 주지 않았다: " ++ sha)) := by
        rw [ApiCommitGraph.withDate, date]
      rw [thrown]
      refine ⟨fun _ => ⟨_, rfl⟩, fun dated => ?_⟩
      exact absurd ⟨sha, List.mem_cons_self, date⟩ dated
    | some committedAt =>
      have given : ApiCommitGraph.withDate items sha = .ok ⟨sha, committedAt⟩ := by
        rw [ApiCommitGraph.withDate, date]
      rw [given]
      constructor
      · rintro ⟨undated, member, missing⟩
        have later : undated ∈ rest := by
          rcases List.mem_cons.mp member with rfl | later
          · rw [date] at missing
            cases missing
          · exact later
        obtain ⟨fault, thrown⟩ := ih.1 ⟨undated, later, missing⟩
        have inner := Option.some.inj thrown
        rw [inner]
        exact ⟨fault, rfl⟩
      · intro dated
        have restDated : ¬ ∃ sha ∈ rest, ApiCommitGraph.dateBySha items sha = none := by
          rintro ⟨undated, later, missing⟩
          exact dated ⟨undated, List.mem_cons_of_mem _ later, missing⟩
        obtain ⟨commits, returned, shas, dates⟩ := ih.2 restDated
        have inner := Option.some.inj returned
        rw [inner]
        refine ⟨⟨sha, committedAt⟩ :: commits, rfl, by rw [List.map_cons, shas], ?_⟩
        intro commit member
        rcases List.mem_cons.mp member with rfl | later
        · exact date
        · exact dates commit later

theorem firstParentCommits_answers (checked : range.check (.graph "api") = .ok ())
    (known : range.toSha ∈ g) (serves : Serves g graph range.toSha listing)
    (enough : listing.length < fuel) :
    Answers
      (Refuses g graph listing range ∨ ∃ sha ∈ g.range range.fromSha range.toSha,
        ApiCommitGraph.dateBySha listing sha = none)
      (fun commits => commits.map FirstParentCommit.sha = g.range range.fromSha range.toSha)
      (graph.firstParentCommits fuel range) := by
  have loaded := loadChain_answers checked known serves enough
  have dated := mapM_withDate listing (g.range range.fromSha range.toSha)
  unfold ApiCommitGraph.firstParentCommits
  by_cases refused : Refuses g graph listing range
  · obtain ⟨fault, thrown⟩ := loaded.1 refused
    rw [thrown]
    exact ⟨fun _ => ⟨fault, rfl⟩, fun answered => absurd (.inl refused) answered⟩
  · obtain ⟨_, returned, rfl⟩ := loaded.2 refused
    rw [returned]
    constructor
    · intro undated
      exact dated.1 (undated.resolve_left refused)
    · intro answered
      obtain ⟨commits, given, shas, -⟩ := dated.2 fun undated => answered (.inr undated)
      exact ⟨commits, given, shas⟩

/-- Whichever graph answers, the fallback answers as the mirror does. -/
theorem fallback_good {good : α → Prop} {primary : Except Fault α}
    {secondary : Option (Except Fault α)} (first : ∀ a, primary = .ok a → good a)
    (second : ∀ a, secondary = some (.ok a) → good a) {a : α}
    (said : fallback primary secondary = some (.ok a)) : good a := by
  cases primary with
  | ok answer =>
    cases said
    exact first a rfl
  | error fault => exact second a said

/-- For a range whose start is an ancestor of its end the mirror answers. The API graph answers the
same, except that it throws when the listing is beyond its maximum, when the start is off the
first-parent chain and, where dates are asked for, when one is missing. What a fallback from the one
to the other answers is the answer of the mirror. -/
theorem graphs_agree {g : Dag Sha} {graph : ApiCommitGraph} {listing : List CommitSummary}
    {range : RevRange} {fuel : Nat} (full : ∀ sha ∈ g, isFullSha sha) (known : range.toSha ∈ g)
    (ancestor : ∀ base ∈ range.fromSha, g.Ancestor base range.toSha)
    (serves : Serves g graph range.toSha listing) (enough : listing.length < fuel) :
    mirrorRevList g range = .ok (g.range range.fromSha range.toSha) ∧
    Answers (Refuses g graph listing range) (fun list => mirrorRevList g range = .ok list)
      (graph.firstParentRevList fuel range) ∧
    Answers
      (Refuses g graph listing range ∨ ∃ sha ∈ g.range range.fromSha range.toSha,
        ApiCommitGraph.dateBySha listing sha = none)
      (fun commits => mirrorRevList g range = .ok (commits.map FirstParentCommit.sha))
      (graph.firstParentCommits fuel range) ∧
    (∀ primary, (∀ list, primary = .ok list → mirrorRevList g range = .ok list) → ∀ list,
      fallback primary (graph.firstParentRevList fuel range) = some (.ok list) →
        mirrorRevList g range = .ok list) ∧
    ∀ primary : Except Fault (List FirstParentCommit), (∀ commits, primary = .ok commits →
        mirrorRevList g range = .ok (commits.map FirstParentCommit.sha)) → ∀ commits,
      fallback primary (graph.firstParentCommits fuel range) = some (.ok commits) →
        mirrorRevList g range = .ok (commits.map FirstParentCommit.sha) := by
  have toFull := full range.toSha known
  have fromKnown : ∀ base ∈ range.fromSha, base ∈ g := fun base start =>
    (ancestor base start).mem known
  have fromFull : ∀ base ∈ range.fromSha, isFullSha base := fun base start =>
    full base (fromKnown base start)
  have checked := check_full (.graph "api") toFull fromFull
  have mirror : mirrorRevList g range = .ok (g.range range.fromSha range.toSha) := by
    rw [mirrorRevList, check_full .error toFull fromFull]
    simp only [known, true_and]
    rw [if_pos fromKnown]
  rw [mirror]
  have list : Answers (Refuses g graph listing range)
      (fun list => Except.ok (g.range range.fromSha range.toSha) = (.ok list : Except Fault _))
      (graph.firstParentRevList fuel range) := by
    have answers := firstParentRevList_answers checked known serves enough
    exact ⟨answers.1, fun answered => (answers.2 answered).imp fun _ said =>
      ⟨said.1, congrArg _ said.2.symm⟩⟩
  have commits : Answers
      (Refuses g graph listing range ∨ ∃ sha ∈ g.range range.fromSha range.toSha,
        ApiCommitGraph.dateBySha listing sha = none)
      (fun commits : List FirstParentCommit => Except.ok (g.range range.fromSha range.toSha) =
        (.ok (commits.map FirstParentCommit.sha) : Except Fault _))
      (graph.firstParentCommits fuel range) := by
    have answers := firstParentCommits_answers checked known serves enough
    exact ⟨answers.1, fun answered => (answers.2 answered).imp fun _ said =>
      ⟨said.1, congrArg _ said.2.symm⟩⟩
  refine ⟨rfl, list, commits, ?_, ?_⟩
  · intro primary mirrors answer said
    exact fallback_good mirrors (fun _ given => list.good given) said
  · intro primary mirrors answer said
    exact fallback_good mirrors (fun _ given => commits.good given) said

/-! ### A merge -/

/-- A root, two children of it, and a merge of the second into the first. -/
def merged : Dag Sha where
  nodes :=
    [("dddddddddddddddddddddddddddddddddddddddd",
        ["bbbbbbbbbbbbbbbbbbbbbbbbbbbbbbbbbbbbbbbb", "cccccccccccccccccccccccccccccccccccccccc"]),
      ("cccccccccccccccccccccccccccccccccccccccc", ["aaaaaaaaaaaaaaaaaaaaaaaaaaaaaaaaaaaaaaaa"]),
      ("bbbbbbbbbbbbbbbbbbbbbbbbbbbbbbbbbbbbbbbb", ["aaaaaaaaaaaaaaaaaaaaaaaaaaaaaaaaaaaaaaaa"]),
      ("aaaaaaaaaaaaaaaaaaaaaaaaaaaaaaaaaaaaaaaa", [])]
  closed := by decide

def mergedListing : List CommitSummary := merged.nodes.map fun node => ⟨node.1, node.2, some 0⟩

/-- Two commits a page. -/
def mergedApi : ApiCommitGraph where
  listCommits _ perPage page := .ok ((mergedListing.drop ((page - 1) * perPage)).take perPage)
  perPage := 2

theorem mergedApi_serves :
    Serves merged mergedApi "dddddddddddddddddddddddddddddddddddddddd" mergedListing where
  perPage := by decide
  pages := fun _ => rfl
  distinct := by decide
  reachable := by
    have all : ∀ sha ∈ merged.ids,
        merged.Ancestor sha "dddddddddddddddddddddddddddddddddddddddd" := by decide
    intro sha
    constructor
    · exact fun listed => all sha listed
    · intro reached
      have known : "dddddddddddddddddddddddddddddddddddddddd" ∈ merged := by decide
      exact reached.mem known
  parents := by decide

theorem graphs_agree_merged :
    ∃ list, mergedApi.firstParentRevList 5 ⟨some "bbbbbbbbbbbbbbbbbbbbbbbbbbbbbbbbbbbbbbbb",
        "dddddddddddddddddddddddddddddddddddddddd"⟩ = some (.ok list) ∧
      mirrorRevList merged ⟨some "bbbbbbbbbbbbbbbbbbbbbbbbbbbbbbbbbbbbbbbb",
        "dddddddddddddddddddddddddddddddddddddddd"⟩ = .ok list :=
  (graphs_agree (by decide) (by decide) (by decide) mergedApi_serves (Nat.lt_succ_self 4)).2.1.2
    (by decide)

/-- The second child is an ancestor of the merge, and the mirror lists what the first-parent chain
has beyond it; the API walk throws. -/
theorem start_off_chain_separates :
    ¬ ∀ (g : Dag Sha) (graph : ApiCommitGraph) (listing : List CommitSummary) (range : RevRange)
      (fuel : Nat), (∀ sha ∈ g, isFullSha sha) → range.toSha ∈ g →
      (∀ base ∈ range.fromSha, g.Ancestor base range.toSha) →
      Serves g graph range.toSha listing → listing.length < fuel →
        graph.firstParentRevList fuel range = some (mirrorRevList g range) ∨
        ((∃ fault, graph.firstParentRevList fuel range = some (.error fault)) ∧
          ∃ fault, mirrorRevList g range = .error fault) := by
  intro agree
  have separated := agree merged mergedApi mergedListing
    ⟨some "cccccccccccccccccccccccccccccccccccccccc", "dddddddddddddddddddddddddddddddddddddddd"⟩ 5
    (by decide) (by decide) (by decide) mergedApi_serves (by decide)
  have mirror : mirrorRevList merged ⟨some "cccccccccccccccccccccccccccccccccccccccc",
      "dddddddddddddddddddddddddddddddddddddddd"⟩ =
        .ok ["bbbbbbbbbbbbbbbbbbbbbbbbbbbbbbbbbbbbbbbb",
          "dddddddddddddddddddddddddddddddddddddddd"] := by
    decide
  have thrown : (mergedApi.firstParentRevList 5 ⟨some "cccccccccccccccccccccccccccccccccccccccc",
      "dddddddddddddddddddddddddddddddddddddddd"⟩).any (fun answer => answer.isOk) = false := by
    decide
  rcases separated with same | ⟨-, fault, refused⟩
  · rw [same, mirror] at thrown
    cases thrown
  · rw [mirror] at refused
    cases refused

end PrSearch.Graph
