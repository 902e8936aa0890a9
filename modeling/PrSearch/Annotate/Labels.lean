import PrSearch.Lib.Automaton
import PrSearch.Query.Identifier

/-! # Merge numbers in titles and tags

A title gets its merge number in brackets, unless some merge number stands in front of it; a commit gets
it as a tag, unless the tag is there. Requests arrive late or not at all, and people edit titles and tags
meanwhile; still no number is put in front of a number, and no tag that is there is moved.
-/
namespace PrSearch.Annotate

open Lib.Decimal
open Query (Text isSpace isDigits mergeNumberMax ParsedMergeNumber formatMergeNumber
  parseMergeNumber parseMergeNumber_iff mergeNumberPattern_iff isDigits_iff)

/-! ### The label -/

inductive RepositoryCodeOutcome
  | code (code : Text)
  | unavailable (reason : String)
  deriving DecidableEq, Repr

/-- The one run of digits in the name. -/
def repositoryCodeOf (repositoryName : Text) : RepositoryCodeOutcome :=
  let runs := repositoryName.dropWhile (!·.isDigit)
  if runs = [] then .unavailable "no_digits"
  else if (runs.dropWhile Char.isDigit).any Char.isDigit then .unavailable "multiple_digit_runs"
  else .code (runs.takeWhile Char.isDigit)

inductive AnnotationTarget
  | target (expected : Text)
  | codeUnavailable (reason : String)
  deriving DecidableEq, Repr

/-- A number out of bounds throws. -/
def resolveAnnotationTarget (repositoryName : Text) (mergeNumber : Int) : Option AnnotationTarget :=
  match repositoryCodeOf repositoryName with
  | .unavailable reason => some (.codeUnavailable reason)
  | .code code => (formatMergeNumber code mergeNumber).map .target

/-! ### The decision -/

/-- Between the brackets of `LEADING_BRACKET` -/
def inside (c : Char) : Bool := c != ']' && c != '\r' && c != '\n'

/-- What `LEADING_BRACKET` finds: blanks of one line may stand before the bracket. -/
def leadingBracket (title : Text) : Option Text :=
  match title.dropWhile fun c => isSpace c && c != '\r' && c != '\n' with
  | '[' :: rest =>
      if (rest.dropWhile inside).head? = some ']' then some (rest.takeWhile inside) else none
  | _ => none

inductive TitleDecision
  | update (nextTitle : Text)
  | alreadyAnnotated
  | mismatch (found : Text)
  deriving DecidableEq, Repr

/-- The title with the number in front. -/
def annotated (expected title : Text) : Text := '[' :: (expected ++ ']' :: ' ' :: title)

def decideTitleUpdate (expected currentTitle : Text) : TitleDecision :=
  match (leadingBracket currentTitle).filter fun inner => (parseMergeNumber inner).isSome with
  | some inner => if inner = expected then .alreadyAnnotated else .mismatch inner
  | none => .update (annotated expected currentTitle)

/-- A merge number stands in front. -/
def labelled (title : Text) : Bool :=
  (leadingBracket title).any fun inner => (parseMergeNumber inner).isSome

variable {expected title : Text}

theorem decideTitleUpdate_eq_update {next : Text} :
    decideTitleUpdate expected title = .update next ↔
      labelled title = false ∧ next = annotated expected title := by
  unfold decideTitleUpdate labelled
  cases leadingBracket title with
  | none => simp [eq_comm]
  | some inner =>
    cases read : (parseMergeNumber inner).isSome with
    | false => simp [Option.filter, read, eq_comm]
    | true =>
      simp only [Option.filter, read, Option.any_some, if_true]
      split <;> simp

variable {repositoryName : Text} {mergeNumber : Int}

theorem isSome_of_target
    (resolved : resolveAnnotationTarget repositoryName mergeNumber = some (.target expected)) :
    (parseMergeNumber expected).isSome = true := by
  unfold resolveAnnotationTarget at resolved
  split at resolved
  · cases resolved
  · obtain ⟨label, printed, same⟩ := Option.map_eq_some_iff.mp resolved
    cases same
    rw [(parseMergeNumber_iff _ _ _).mpr printed]
    rfl

theorem inside_of_label (label : (parseMergeNumber expected).isSome = true) :
    ∀ c ∈ expected, inside c = true := by
  obtain ⟨parsed, read⟩ := Option.isSome_iff_exists.mp label
  obtain ⟨⟨code, digits⟩, pattern, -⟩ := Option.bind_eq_some_iff.mp read
  obtain ⟨isCode, canonical, rfl⟩ := (mergeNumberPattern_iff _ _ _).mp pattern
  have digit : ∀ c : Char, c.isDigit = true → inside c = true := by
    intro c is
    by_contra outside
    simp only [inside, Bool.and_eq_true, bne_iff_ne, ne_eq, not_and_or, not_not] at outside
    rcases outside with (rfl | rfl) | rfl <;> cases is
  intro c member
  simp only [List.mem_cons, List.mem_append] at member
  rcases member with rfl | rfl | code | rfl | digits
  · rfl
  · rfl
  · exact digit c (((isDigits_iff _).mp isCode).2 c code)
  · rfl
  · exact digit c (canonical.2.1 c digits)

/-- What was put in front is what stands in front. -/
theorem leadingBracket_annotated (label : (parseMergeNumber expected).isSome = true)
    (title : Text) : leadingBracket (annotated expected title) = some expected := by
  have all := inside_of_label label
  have taken : (expected ++ ']' :: ' ' :: title).takeWhile inside = expected := by
    rw [List.takeWhile_append_of_pos all]
    simp [inside]
  have dropped : (expected ++ ']' :: ' ' :: title).dropWhile inside = ']' :: ' ' :: title := by
    rw [List.dropWhile_append_of_pos all]
    simp [inside]
  have bracket : isSpace '[' = false := by decide
  simp [leadingBracket, annotated, bracket, taken, dropped]

/-! ### Runs -/

/-- A title, with the titles before it and the change requests that were sent. -/
structure PullRequestTitle where
  title : Text
  past : List Text
  sent : List Text

def PullRequestTitle.store (s : PullRequestTitle) (title : Text) : PullRequestTitle :=
  { s with title, past := s.title :: s.past }

inductive TitleAction
  /-- The title is read, and a change request sent when the decision says so. -/
  | attempt (repositoryName : Text) (mergeNumber : Int)
  /-- A request that was sent takes effect, now or again. -/
  | arrives (request : Text)
  /-- Someone edits the title and leaves the bracket in front as it is. -/
  | edit (title : Text)

local instance lawfulTitle : LawfulBEq Text := inferInstance

def titleStep (s : PullRequestTitle) : TitleAction → Option PullRequestTitle
  | .attempt repositoryName mergeNumber =>
      match resolveAnnotationTarget repositoryName mergeNumber with
      | some (.target expected) =>
          match decideTitleUpdate expected s.title with
          | .update nextTitle => some { s with sent := nextTitle :: s.sent }
          | _ => some s
      | _ => some s
  | .arrives request => if request ∈ s.sent then some (s.store request) else none
  | .edit title => if leadingBracket title = leadingBracket s.title then some (s.store title) else none

def titles : Automaton PullRequestTitle TitleAction := ⟨titleStep⟩

/-- Each request puts one number in front of a title that was stored and had none. -/
def PullRequestTitle.Careful (s : PullRequestTitle) : Prop :=
  ∀ request ∈ s.sent, ∃ expected title, request = annotated expected title ∧
    (parseMergeNumber expected).isSome = true ∧ labelled title = false ∧ title ∈ s.title :: s.past

/-- Where a number stands, one stays, and nothing more is sent. -/
def PullRequestTitle.Rests (s later : PullRequestTitle) : Prop :=
  labelled s.title = true → labelled later.title = true ∧ later.sent = s.sent

variable {s next : PullRequestTitle} {action : TitleAction}

theorem PullRequestTitle.Careful.store (careful : s.Careful) (title : Text) :
    (s.store title).Careful := by
  intro request member
  obtain ⟨expected, read, same, label, bare, stored⟩ := careful request member
  exact ⟨expected, read, same, label, bare, List.mem_cons_of_mem _ stored⟩

/-- What an attempt does: nothing, or a request for a title without a number. -/
theorem attempt_eq (taken : titleStep s (.attempt repositoryName mergeNumber) = some next) :
    next = s ∨ ∃ expected, (parseMergeNumber expected).isSome = true ∧ labelled s.title = false ∧
      next = { s with sent := annotated expected s.title :: s.sent } := by
  simp only [titleStep] at taken
  split at taken
  next expected resolved =>
    split at taken
    next nextTitle decided =>
      obtain ⟨bare, rfl⟩ := decideTitleUpdate_eq_update.mp decided
      exact .inr ⟨expected, isSome_of_target resolved, bare, (Option.some.inj taken).symm⟩
    next => exact .inl (Option.some.inj taken).symm
  next => exact .inl (Option.some.inj taken).symm

theorem PullRequestTitle.Careful.step (careful : s.Careful)
    (taken : titleStep s action = some next) : next.Careful := by
  cases action with
  | attempt repositoryName mergeNumber =>
    rcases attempt_eq taken with rfl | ⟨expected, label, bare, rfl⟩
    · exact careful
    · intro request member
      rcases List.mem_cons.mp member with rfl | before
      · exact ⟨expected, s.title, rfl, label, bare, List.mem_cons_self⟩
      · exact careful request before
  | arrives request =>
    simp only [titleStep, Option.ite_none_right_eq_some, Option.some.injEq] at taken
    obtain ⟨-, rfl⟩ := taken
    exact careful.store request
  | edit title =>
    simp only [titleStep, Option.ite_none_right_eq_some, Option.some.injEq] at taken
    obtain ⟨-, rfl⟩ := taken
    exact careful.store title

theorem PullRequestTitle.Careful.rests (careful : s.Careful)
    (taken : titleStep s action = some next) : s.Rests next := by
  intro stands
  cases action with
  | attempt repositoryName mergeNumber =>
    rcases attempt_eq taken with rfl | ⟨expected, -, bare, -⟩
    · exact ⟨stands, rfl⟩
    · rw [stands] at bare
      cases bare
  | arrives request =>
    simp only [titleStep, Option.ite_none_right_eq_some, Option.some.injEq] at taken
    obtain ⟨sent, rfl⟩ := taken
    -- a request that comes late brings a number too
    obtain ⟨expected, read, rfl, label, -⟩ := careful request sent
    refine ⟨?_, rfl⟩
    simp [labelled, PullRequestTitle.store, leadingBracket_annotated label, label]
  | edit title =>
    simp only [titleStep, Option.ite_none_right_eq_some, Option.some.injEq] at taken
    obtain ⟨same, rfl⟩ := taken
    refine ⟨?_, rfl⟩
    rw [labelled] at stands
    simpa [labelled, PullRequestTitle.store, same] using stands

/-- In every run each request puts one number in front of a title without any; once a number stands
in front one stays there, and nothing more is sent. A title that got its number is recognised. -/
theorem annotation_puts_one_number (title : Text) (actions : List TitleAction) :
    ((titles.visited actions ⟨title, [], []⟩).Pairwise PullRequestTitle.Rests ∧
      ∀ s ∈ titles.visited actions ⟨title, [], []⟩, s.Careful) ∧
    ∀ expected title, (parseMergeNumber expected).isSome = true →
      ∀ other, decideTitleUpdate other (annotated expected title) =
        if expected = other then .alreadyAnnotated else .mismatch expected := by
  have careful : PullRequestTitle.Careful ⟨title, [], []⟩ := List.forall_mem_nil _
  have kept : ∀ s action next, PullRequestTitle.Careful s → titles.step s action = some next →
      PullRequestTitle.Careful next := fun _ _ _ careful => careful.step
  refine ⟨⟨?_, Automaton.visited_of_step kept careful⟩, ?_⟩
  · have trans : ∀ a b c : PullRequestTitle, a.Rests b → b.Rests c → a.Rests c := by
      intro a b c first second stands
      obtain ⟨stands, none_⟩ := first stands
      obtain ⟨stands, none'⟩ := second stands
      exact ⟨stands, none'.trans none_⟩
    have exactly : ∀ s action next, PullRequestTitle.Careful s →
        titles.step s action = some next → (s.Rests next ↔ True) :=
      fun s action next careful taken => iff_of_true (careful.rests taken) trivial
    exact (Automaton.pairwise_visited_iff trans kept exactly careful).mpr fun _ _ => trivial
  · intro expected title label other
    simp [decideTitleUpdate, leadingBracket_annotated label, Option.filter, label]

/-! ### Tags -/

inductive TagTarget
  | target (name sha : Text)
  | codeUnavailable (reason : String)
  deriving DecidableEq, Repr

def resolveTagTarget (repositoryName : Text) (mergeNumber : Int) (commitSha : Text) :
    Option TagTarget :=
  match repositoryCodeOf repositoryName with
  | .unavailable reason => some (.codeUnavailable reason)
  | .code code => (formatMergeNumber code mergeNumber).map (.target · (commitSha.map Char.toLower))

/-- A `RefLookup` that found a ref. -/
structure TagRef where
  sha : Text
  objectType : String
  deriving DecidableEq, Repr

inductive TagDecision
  | create
  | alreadyDone
  | conflict (foundSha : Text) (objectType : String)
  deriving DecidableEq, Repr

def decideTagAction (expectedSha : Text) : Option TagRef → TagDecision
  | none => .create
  | some ref =>
      if ref.objectType = "commit" ∧ ref.sha.map Char.toLower = expectedSha.map Char.toLower then
        .alreadyDone
      else .conflict (ref.sha.map Char.toLower) ref.objectType

/-- The number of a tag of the repository, for the sweep that lists them. -/
def mergeNumberOfTagName (code name : Text) : Option Int :=
  let start := 'M' :: '-' :: (code ++ ['-'])
  let digits := name.drop start.length
  let value : Int := Nat.ofDigitChars 10 digits 0
  if start <+: name ∧ (isDigits digits ∧ digits.head? ≠ some '0') ∧ digits.length ≤ 16 ∧
      value ≤ mergeNumberMax then some value
  else none

/-- The sweep recognises the tags that are made, and no others. -/
theorem mergeNumberOfTagName_iff (code name : Text) (number : Int) :
    isDigits code = true ∧ mergeNumberOfTagName code name = some number ↔
      formatMergeNumber code number = some name := by
  have cut : ∀ digits : Text, 'M' :: '-' :: (code ++ '-' :: digits) =
      'M' :: '-' :: (code ++ ['-']) ++ digits := by simp
  rw [← parseMergeNumber_iff]
  constructor
  · rintro ⟨isCode, read⟩
    simp only [mergeNumberOfTagName, Option.ite_none_right_eq_some, Option.some.injEq] at read
    obtain ⟨⟨⟨digits, rfl⟩, ⟨areDigits, noZero⟩, short, high⟩, rfl⟩ := read
    rw [List.drop_left] at areDigits noZero short high ⊢
    have canonical : Canonical digits :=
      ⟨((isDigits_iff _).mp areDigits).1, ((isDigits_iff _).mp areDigits).2, noZero⟩
    have positive : Nat.ofDigitChars 10 digits 0 ≠ 0 := by
      intro zero
      have printed := toDigits_ofDigitChars canonical
      rw [zero] at printed
      exact noZero (printed ▸ rfl)
    rw [parseMergeNumber, (mergeNumberPattern_iff _ _ _).mpr ⟨isCode, canonical, (cut digits).symm⟩,
      Option.bind_some]
    dsimp only
    rw [if_neg (by omega), if_neg (by omega)]
  · intro parsed
    obtain ⟨⟨readCode, digits⟩, matched, read⟩ := Option.bind_eq_some_iff.mp parsed
    obtain ⟨isCode, canonical, rfl⟩ := (mergeNumberPattern_iff _ _ _).mp matched
    dsimp only at read
    split at read
    next => cases read
    next short =>
      split at read
      next => cases read
      next inBounds =>
        obtain ⟨rfl, rfl⟩ := ParsedMergeNumber.mk.inj (Option.some.inj read)
        refine ⟨isCode, ?_⟩
        have areDigits := (isDigits_iff digits).mpr ⟨canonical.1, canonical.2.1⟩
        rw [mergeNumberOfTagName, cut digits, List.drop_left, if_pos
          ⟨List.prefix_append _ _, ⟨areDigits, canonical.2.2⟩, by omega, by omega⟩]

/-- The refs of a repository, the commits of its numbers now and before, and the names and commits that
the server was asked to make refs of. -/
structure Tags where
  refs : Text → Option TagRef
  current : Int → Option Text
  past : List (Int → Option Text)
  sent : List (Text × Text)

def Tags.put (t : Tags) (name : Text) (ref : Option TagRef) : Tags :=
  { t with refs := Function.update t.refs name ref }

inductive TagAction
  /-- The look-up may be old when the canonical row is asked once more. -/
  | attempt (repositoryName : Text) (mergeNumber : Int) (commitSha : Text) (lookup : Option TagRef)
  /-- A request that was sent takes effect, now or again. -/
  | arrives (name sha : Text)
  | renumber (current : Int → Option Text)
  /-- Someone else makes, moves or deletes a ref. -/
  | others (name : Text) (ref : Option TagRef)

/-- Others leave the names of `own` alone. -/
def tagStep (own : Text → Bool) (t : Tags) : TagAction → Option Tags
  | .attempt repositoryName mergeNumber commitSha lookup =>
      match resolveTagTarget repositoryName mergeNumber commitSha with
      | some (.target name sha) =>
          if decideTagAction sha lookup = .create ∧ t.current mergeNumber = some sha then
            some { t with sent := (name, sha) :: t.sent }
          else some t
      | _ => some t
  | .arrives name sha =>
      if (name, sha) ∈ t.sent then
        some (if t.refs name = none then t.put name (some ⟨sha, "commit"⟩) else t)
      else none
  | .renumber current => some { t with current, past := t.current :: t.past }
  | .others name ref => if own name then none else some (t.put name ref)

def tags (own : Text → Bool) : Automaton Tags TagAction := ⟨tagStep own⟩

variable {own : Text → Bool} {refs : Text → Option TagRef} {t after : Tags} {taking : TagAction}
  {name sha : Text} {ref : TagRef}

/-- What is asked for is the label of a number and the commit that has it or had it, and a ref that nobody
else has made was asked for. -/
structure Tags.Ours (own : Text → Bool) (refs : Text → Option TagRef) (t : Tags) : Prop where
  sent : ∀ name sha, (name, sha) ∈ t.sent → ∃ code number,
    formatMergeNumber code number = some name ∧
      ∃ commits ∈ t.current :: t.past, commits number = some sha
  made : ∀ name ref, own name = true → t.refs name = some ref → refs name = some ref ∨
    (name, ref.sha) ∈ t.sent ∧ ref.objectType = "commit"

/-- Refs that others leave alone stay as they are. -/
def Tags.Keeps (own : Text → Bool) (t later : Tags) : Prop :=
  ∀ name ref, own name = true → t.refs name = some ref → later.refs name = some ref

/-- A request is for the label of a number that the commit has. -/
theorem sent_eq {commitSha : Text} {lookup : Option TagRef}
    (taken : tagStep own t (.attempt repositoryName mergeNumber commitSha lookup) = some after) :
    after = t ∨ ∃ name sha code, formatMergeNumber code mergeNumber = some name ∧
      t.current mergeNumber = some sha ∧ after = { t with sent := (name, sha) :: t.sent } := by
  simp only [tagStep, resolveTagTarget] at taken
  split at taken
  next name sha resolved =>
    split at resolved
    next => cases resolved
    next code _ =>
      obtain ⟨label, printed, same⟩ := Option.map_eq_some_iff.mp resolved
      cases same
      split at taken
      next asked => exact .inr ⟨_, _, code, printed, asked.2, (Option.some.inj taken).symm⟩
      next => exact .inl (Option.some.inj taken).symm
  next => exact .inl (Option.some.inj taken).symm

theorem Tags.Ours.step (ours : t.Ours own refs) (taken : tagStep own t taking = some after) :
    after.Ours own refs := by
  obtain ⟨sent, made⟩ := ours
  cases taking with
  | attempt repositoryName mergeNumber commitSha lookup =>
    rcases sent_eq taken with rfl | ⟨name, sha, code, label, current, rfl⟩
    · exact ⟨sent, made⟩
    · constructor
      · intro other commit asked
        rcases List.mem_cons.mp asked with now | before
        · cases now
          exact ⟨code, mergeNumber, label, _, List.mem_cons_self, current⟩
        · exact sent other commit before
      · intro other ref mine there
        exact (made other ref mine there).imp_right fun ours =>
          ⟨List.mem_cons_of_mem _ ours.1, ours.2⟩
  | arrives name sha =>
    simp only [tagStep, Option.ite_none_right_eq_some, Option.some.injEq] at taken
    obtain ⟨asked, rfl⟩ := taken
    split
    next =>
      refine ⟨sent, fun other ref mine there => ?_⟩
      by_cases same : other = name
      · simp only [Tags.put, same, Function.update_self] at there
        cases there
        exact .inr ⟨same ▸ asked, rfl⟩
      · simp only [Tags.put, Function.update_of_ne same] at there
        exact made other ref mine there
    next => exact ⟨sent, made⟩
  | renumber current =>
    cases taken
    refine ⟨fun name sha asked => ?_, made⟩
    obtain ⟨code, number, label, commits, known, is⟩ := sent name sha asked
    exact ⟨code, number, label, commits, List.mem_cons_of_mem _ known, is⟩
  | others name ref =>
    simp only [tagStep, Option.ite_none_left_eq_some, Option.some.injEq] at taken
    obtain ⟨theirs, rfl⟩ := taken
    refine ⟨sent, fun other ref mine there => ?_⟩
    have apart : other ≠ name := fun same => theirs (same ▸ mine)
    simp only [Tags.put, Function.update_of_ne apart] at there
    exact made other ref mine there

theorem Tags.keeps_of_step (taken : tagStep own t taking = some after) : t.Keeps own after := by
  intro name ref mine there
  cases taking with
  | attempt repositoryName mergeNumber commitSha lookup =>
    rcases sent_eq taken with rfl | ⟨_, _, _, _, _, rfl⟩ <;> exact there
  | arrives other sha =>
    simp only [tagStep, Option.ite_none_right_eq_some, Option.some.injEq] at taken
    obtain ⟨-, rfl⟩ := taken
    split
    next free =>
      have apart : name ≠ other := fun same => by simp [same, free] at there
      simpa only [Tags.put, Function.update_of_ne apart] using there
    next => exact there
  | renumber current => exact Option.some.inj taken ▸ there
  | others other new =>
    simp only [tagStep, Option.ite_none_left_eq_some, Option.some.injEq] at taken
    obtain ⟨theirs, rfl⟩ := taken
    have apart : name ≠ other := fun same => theirs (same ▸ mine)
    simpa only [Tags.put, Function.update_of_ne apart] using there

/-- In every run a ref stays where it is unless someone else moves it, and one that nobody else has
made names a commit by a number that the commit had when the ref was asked for. -/
theorem tags_are_never_moved (own : Text → Bool) (refs : Text → Option TagRef)
    (current : Int → Option Text) (actions : List TagAction) :
    ((tags own).visited actions ⟨refs, current, [], []⟩).Pairwise (Tags.Keeps own) ∧
      ∀ t ∈ (tags own).visited actions ⟨refs, current, [], []⟩, t.Ours own refs := by
  have none_sent : Tags.Ours own refs ⟨refs, current, [], []⟩ :=
    ⟨fun _ _ asked => absurd asked List.not_mem_nil, fun _ _ _ => .inl⟩
  refine ⟨Automaton.pairwise_visited ?_ (fun _ _ _ => Tags.keeps_of_step) _ _,
    Automaton.visited_of_step (fun _ _ _ ours => ours.step) none_sent⟩
  exact fun _ _ _ first second name ref mine there => second name ref mine (first name ref mine there)

end PrSearch.Annotate
