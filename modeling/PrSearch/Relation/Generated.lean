import PrSearch.Lib.Separator
import PrSearch.Relation.Masking

/-! # The message that a revert is given

A revert that is generated has the title of the reverted commit in quotation marks in its subject,
and names that commit in its body. Both are read: the commit, and the title without the inline code
in it and with its spaces collapsed. The same title is read from the title of a pull request.
-/
namespace PrSearch.Relation

open Query (Text isSpace units)
open Pattern

/-- `Revert `, with the blank -/
def revertWord : Text := ['R', 'e', 'v', 'e', 'r', 't', ' ']

/-- The subject that is generated for a revert -/
def revertTitle (title : Text) : Text := revertWord ++ '"' :: (title ++ ['"'])

/-- `This reverts commit `, with the blank -/
def lineWords : Text := ['T', 'h', 'i', 's', ' ', 'r', 'e', 'v', 'e', 'r', 't', 's', ' ', 'c', 'o', 'm',
  'm', 'i', 't', ' ']

def revertLine (sha : Text) : Text := lineWords ++ (sha ++ ['.'])

def revertMessage (title sha : Text) : Text := revertTitle title ++ '\n' :: '\n' :: revertLine sha

variable {run : Run} {digits rest : Text} {letters : String} {before : Option Char}
  {accepts : Char → Bool}

/-! ### What is covered of it -/

section Covered

variable {c : Char} {line title sha : Text}

-- Up to three blanks, and then a run that the character does not begin.
theorem matchStart_indented (plain : isBlank c = false) (some_ : 0 < run.atLeast)
    (rejects : run.accepts c = false) (rest : Text) :
    Pattern.matchStart ⟨[.run ⟨isBlank, 0, some 3⟩], run, []⟩ (c :: rest) = none := by
  have blanks : Run.lengths ⟨isBlank, 0, some 3⟩ (c :: rest) = [0] := by
    simp [Run.lengths, plain]
  have group : run.lengths (c :: rest) = [] := Run.lengths_eq_nil some_ (by simpa using rejects)
  simp [matchStart, matchAt, matchPieces, blanks, group]

theorem fence_none {mark : Char} (other : c ≠ mark) (plain : isBlank c = false) (rest : Text) :
    (fence mark).matchStart (c :: rest) = none := by
  exact matchStart_indented plain Nat.succ_pos' (by simpa using other) rest

theorem opener_none (plain : isBlank c = false) (noTick : c ≠ '`') (noTilde : c ≠ '~') (rest : Text) :
    opener (c :: rest) = none := by
  rw [opener, fence_none noTick plain, fence_none noTilde plain]
  rfl

theorem quotation_none (plain : isBlank c = false) (noMark : c ≠ '>') (rest : Text) :
    quotation.matchStart (c :: rest) = none :=
  matchStart_indented plain (by decide) (by simpa using noMark) rest

theorem cover_outside {spans : List (Nat × Nat)} {offset : Nat}
    (apart : ∀ span ∈ spans, span.2 ≤ offset ∨ offset + Pattern.sizeOf line ≤ span.1) :
    cover spans offset line = line := by
  induction line generalizing offset with
  | nil => rfl
  | cons c line ih =>
    have pos := size_pos c
    rw [cover, if_neg, ih, List.singleton_append]
    · intro span inside
      have is := apart span inside
      rw [sizeOf_cons] at is
      omega
    · rintro ⟨span, inside, start, stop⟩
      have is := apart span inside
      rw [sizeOf_cons] at is
      omega

theorem cover_shift (spans : List (Nat × Nat)) (offset more : Nat) (line : Text) :
    cover (spans.map fun span => (span.1 + more, span.2 + more)) (offset + more) line =
      cover spans offset line := by
  induction line generalizing offset with
  | nil => rfl
  | cons c line ih =>
    have moved : offset + more + size c = offset + size c + more := Nat.add_right_comm _ _ _
    rw [cover, cover, moved, ih]
    congr 2
    simp [List.mem_map]

theorem codeSpans_shift (open_ : Option TickRun) (runs : List TickRun) (more : Nat) :
    codeSpans (open_.map fun run => (run.1 + more, run.2)) (runs.map fun run => (run.1 + more, run.2)) =
      (codeSpans open_ runs).map fun span => (span.1 + more, span.2 + more) := by
  induction runs generalizing open_ with
  | nil => cases open_ <;> rfl
  | cons run runs ih =>
    cases open_ with
    | none => exact ih (some run)
    | some first =>
      rw [List.map_cons, Option.map_some, codeSpans, codeSpans]
      split
      next same =>
        rw [List.map_cons, ← ih none, Nat.add_right_comm]
        rfl
      next => exact ih (some first)

/-- A span ends with one of the runs. -/
theorem stop_of_codeSpans (runs : List TickRun) :
    ∀ span ∈ codeSpans none runs, ∃ run ∈ runs, span.2 = TickRun.stop run := by
  induction runs using runs_induction with
  | nil => exact List.forall_mem_nil _
  | alone run runs apart =>
    rw [codeSpans_alone apart]
    exact List.forall_mem_nil _
  | closed run front partner back same apart ih =>
    rw [codeSpans_closed same apart]
    intro span inside
    rcases List.mem_cons.mp inside with rfl | inside
    · exact ⟨partner, by simp, rfl⟩
    · obtain ⟨last, member, is⟩ := ih span inside
      exact ⟨last, by simp [member], is⟩

theorem stop_le (run : TickRun) (member : run ∈ backticks.allMatches line) :
    run.stop ≤ Pattern.sizeOf line := by
  have ticks := (of_mem_allMatches member).2
  rw [allMatches, matchesFrom_eq_scanFrom] at member
  obtain ⟨before, front, back, after, rfl, place, _, matched⟩ := of_mem_scanFrom member
  obtain ⟨used, rfl, inside, _⟩ := used_of_matchAt matched
  obtain ⟨left, right, rfl⟩ := inside
  have size_ := sizeOf_ticks fun c has => beq_iff_eq.mp (ticks c has)
  rw [TickRun.stop, place, TickRun.length, ← size_]
  simp only [sizeOf_append]
  omega

theorem avoids_backticks (noWord : isWord c = false) (noTick : c ≠ '`') : backticks.Avoids c where
  each := by simpa [pieces, backticks, Piece.Avoids] using noTick
  noWord := noWord
  some := Nat.one_pos

theorem allMatches_backticks_none (free : '`' ∉ line) : backticks.allMatches line = [] := by
  refine matchesFrom_eq_nil (fun before back suffix_ => ?_) none 0
  refine matchAt_backticks_none (fun is => free ?_) before
  exact suffix_.subset (List.mem_of_mem_head? is)

theorem maskInlineCode_free (free : '`' ∉ line) : maskInlineCode line = line := by
  rw [maskInlineCode, allMatches_backticks_none free]
  exact cover_outside (List.forall_mem_nil _)

/-- The quotation marks of the title are not covered, and the title is covered as it is alone. -/
theorem maskInlineCode_revertTitle (title : Text) :
    maskInlineCode (revertTitle title) = revertTitle (maskInlineCode title) := by
  have avoids : backticks.Avoids '"' := avoids_backticks (by decide) (by decide)
  have eight : Pattern.sizeOf revertWord + size '"' = 8 := by decide
  have runs : backticks.allMatches (revertTitle title) =
      (backticks.allMatches title).map fun run => (run.1 + 8, run.2) := by
    have front : backticks.allMatches revertWord = [] := allMatches_backticks_none (by decide)
    have back : backticks.allMatches [] = [] := rfl
    rw [revertTitle, allMatches_separated avoids, allMatches_separated avoids, front, back, eight,
      List.nil_append, List.map_nil, List.append_nil]
  have spans := codeSpans_shift none (backticks.allMatches title) 8
  rw [Option.map_none] at spans
  -- the spans are those of the title, behind the first mark and before the last one
  have within : ∀ span ∈ (codeSpans none (backticks.allMatches title)).map
      fun span => (span.1 + 8, span.2 + 8), 8 ≤ span.1 ∧ span.2 ≤ Pattern.sizeOf title + 8 := by
    intro span inside
    obtain ⟨own, member, rfl⟩ := List.mem_map.mp inside
    obtain ⟨run, last, is⟩ := stop_of_codeSpans _ own member
    exact ⟨Nat.le_add_left _ _, Nat.add_le_add_right (is ▸ stop_le run last) 8⟩
  have quoted : ∀ text : Text, revertTitle text = (revertWord ++ ['"']) ++ (text ++ ['"']) := by
    intro text
    rw [revertTitle, List.append_assoc, List.singleton_append]
  have front : Pattern.sizeOf (revertWord ++ ['"']) = 0 + 8 := by
    rw [sizeOf_append, sizeOf_cons, sizeOf_nil, Nat.add_zero, eight]
  have first : cover ((codeSpans none (backticks.allMatches title)).map
      fun span => (span.1 + 8, span.2 + 8)) 0 (revertWord ++ ['"']) =
        revertWord ++ ['"'] := by
    refine cover_outside fun span inside => .inr ?_
    have bound := (within span inside).1
    omega
  have last : cover ((codeSpans none (backticks.allMatches title)).map
      fun span => (span.1 + 8, span.2 + 8)) (0 + 8 + Pattern.sizeOf title) ['"'] = ['"'] := by
    refine cover_outside fun span inside => .inl ?_
    have bound := (within span inside).2
    omega
  rw [maskInlineCode, runs, spans, quoted, quoted, cover_append, front, first, Nat.zero_add,
    cover_append, ← Nat.zero_add 8, cover_shift, last, maskInlineCode]

theorem maskLines_plain (plain : isBlank c = false) (noTick : c ≠ '`') (noTilde : c ≠ '~')
    (noMark : c ≠ '>') (rest : Text) (lines : List Text) :
    maskLines none ((c :: rest) :: lines) = maskInlineCode (c :: rest) :: maskLines none lines := by
  rw [maskLines, opener_none plain noTick noTilde, quotation_none plain noMark]
  rfl

theorem free_of_shaOf {sha : Sha} (named : shaOf digits = some sha) :
    ∀ c ∈ digits, isHex c.toLower = true := by
  simp only [shaOf] at named
  split at named
  next holds => exact fun c inside => holds.2 c.toLower (List.mem_map_of_mem inside)
  next => exact absurd named.symm (Option.some_ne_none _)

theorem length_of_shaOf {sha : Sha} (named : shaOf digits = some sha) : digits.length = 40 := by
  simp only [shaOf] at named
  split at named
  next holds => simpa using holds.1
  next => exact absurd named.symm (Option.some_ne_none _)

theorem not_mem_of_hex (hex : ∀ c ∈ digits, isHex c.toLower = true)
    (other : isHex c.toLower = false) : c ∉ digits := by
  intro inside
  rw [hex c inside] at other
  cases other

theorem not_mem_revertLine (hex : ∀ c ∈ sha, isHex c.toLower = true)
    (other : isHex c.toLower = false) (apart : c ∉ lineWords ++ ['.']) : c ∉ revertLine sha := by
  have free := not_mem_of_hex hex other
  simp only [List.mem_append, not_or, List.mem_singleton] at apart
  simp only [revertLine, List.mem_append, not_or, List.mem_singleton]
  exact ⟨apart.1, free, apart.2⟩

theorem not_mem_revertTitle (free : c ∉ title) (apart : c ∉ revertWord ++ ['"']) :
    c ∉ revertTitle title := by
  simp only [List.mem_append, not_or, List.mem_singleton] at apart
  simp only [revertTitle, List.mem_append, List.mem_cons, not_or, List.not_mem_nil, or_false]
  exact ⟨apart.1, apart.2, free, apart.2⟩

/-- Only the inline code of the title is covered. -/
theorem maskExcluded_revertTitle (oneLine : '\n' ∉ title) :
    maskExcluded (revertTitle title) = revertTitle (maskInlineCode title) := by
  have lines : (revertTitle title).splitOn '\n' = [revertTitle title] :=
    List.splitOn_eq_singleton (not_mem_revertTitle oneLine (by decide))
  have masked : maskLines none [revertTitle title] = [maskInlineCode (revertTitle title)] :=
    maskLines_plain (by decide) (by decide) (by decide) (by decide) _ []
  rw [maskExcluded, lines, masked, maskInlineCode_revertTitle]
  simp

theorem maskExcluded_revertMessage (oneLine : '\n' ∉ title)
    (hex : ∀ c ∈ sha, isHex c.toLower = true) :
    maskExcluded (revertMessage title sha) = revertMessage (maskInlineCode title) sha := by
  have whole : ∀ text, revertMessage text sha =
      ['\n'].intercalate [revertTitle text, [], revertLine sha] := by
    intro text
    simp [revertMessage, List.intercalate_cons_cons]
  have lines : (revertMessage title sha).splitOn '\n' = [revertTitle title, [], revertLine sha] := by
    rw [whole]
    refine List.splitOn_intercalate '\n' (fun line inside => ?_) (List.cons_ne_nil _ _)
    simp only [List.mem_cons, List.not_mem_nil, or_false] at inside
    rcases inside with rfl | rfl | rfl
    · exact not_mem_revertTitle oneLine (by decide)
    · exact List.not_mem_nil
    · exact not_mem_revertLine hex (by decide) (by decide)
  have subject : maskLines none [revertTitle title, [], revertLine sha] =
      maskInlineCode (revertTitle title) :: maskLines none [[], revertLine sha] :=
    maskLines_plain (by decide) (by decide) (by decide) (by decide) _ _
  have empty : maskLines none [[], revertLine sha] = [] :: maskLines none [revertLine sha] := rfl
  have body : maskLines none [revertLine sha] = [maskInlineCode (revertLine sha)] :=
    maskLines_plain (by decide) (by decide) (by decide) (by decide) _ []
  have plain : maskInlineCode (revertLine sha) = revertLine sha :=
    maskInlineCode_free (not_mem_revertLine hex (by decide) (by decide))
  rw [maskExcluded, lines, subject, empty, body, maskInlineCode_revertTitle, plain, whole]

end Covered

variable {text : Text} {pieces : List Piece}

/-! ### What the patterns find in it -/

section Found

variable {title sha : Text} {β : Type*}

variable {next : Option Char → Text → Option β}

-- The letters are taken one by one.
theorem matchPieces_letters (small : ∀ c ∈ text, size c = 1) (before : Option Char) (rest : Text) :
    matchPieces (((text.map Char.toLower).map fun letter =>
        .run ⟨fun c => c.toLower == letter, 1, some 1⟩) ++ pieces) next before (text ++ rest) =
      matchPieces pieces next (lastOf before text) rest := by
  induction text generalizing before with
  | nil => rfl
  | cons c text ih =>
    obtain ⟨own, later⟩ := List.forall_mem_cons.mp small
    rw [List.map_cons, List.map_cons, List.cons_append, List.cons_append,
      matchPieces_one (by simp) own, ih later]
    congr 1
    cases taken : text.getLast? with
    | none =>
      obtain rfl := List.getLast?_eq_none_iff.mp taken
      rfl
    | some d => simp [lastOf, List.getLast?_cons, taken]

/-- A word takes its letters, in capitals or not, whatever comes after them. -/
theorem matchPieces_word (same : text.map Char.toLower = letters.toList)
    (small : ∀ c ∈ text, size c = 1) (before : Option Char) (rest : Text) :
    matchPieces (word letters ++ pieces) next before (text ++ rest) =
      matchPieces pieces next (lastOf before text) rest := by
  rw [word, ← same, matchPieces_letters small]

variable {found : β}

/-- One blank is all that can be taken before a character that is no space. -/
theorem matchPieces_blank {least : Nat} (few : least ≤ 1)
    (stops : ∀ c ∈ rest.head?, isSpace c = false)
    (after : matchPieces pieces next (some ' ') rest = some found) :
    matchPieces (.run ⟨isSpace, least, none⟩ :: pieces) next before (' ' :: rest) = some found := by
  refine matchPieces_all ⟨isSpace, least, none⟩ [' '] (fun c inside => ?_) stops few (by simp) after
  obtain rfl := List.mem_singleton.mp inside
  exact (by decide : isSpace ' ' = true)

theorem stops_cons {d : Char} (rejects : accepts d = false) :
    ∀ c ∈ (d :: rest).head?, accepts c = false := by
  simpa using rejects

/-- Nothing is taken where the class does not begin. -/
theorem matchPieces_nothing {most : Option Nat} (stops : ∀ c ∈ text.head?, accepts c = false)
    (after : matchPieces pieces next before text = some found) :
    matchPieces (.run ⟨accepts, 0, most⟩ :: pieces) next before text = some found := by
  exact matchPieces_all ⟨accepts, 0, most⟩ [] (by simp) stops (Nat.zero_le _) (by simp) after

theorem isWord_of_isHex {c : Char} (hex : isHex c.toLower = true) : isWord c = true := by
  have ascii := Reference.lt_of_isHex hex
  revert hex
  exact Reference.ascii_cases (fun c => isHex c.toLower = true → isWord c = true) (by decide) ascii

theorem isSpace_of_isHex {c : Char} (hex : isHex c.toLower = true) : isSpace c = false := by
  have ascii := Reference.lt_of_isHex hex
  revert hex
  exact Reference.ascii_cases (fun c => isHex c.toLower = true → isSpace c = false) (by decide) ascii

/-- The trailer names the commit. -/
theorem matchAt_revertLine (hex : ∀ c ∈ sha, isHex c.toLower = true) (forty : sha.length = 40)
    (before : Option Char) :
    revertTrailer.matchAt before (revertLine sha) = some (sha, ['.']) := by
  have line : revertLine sha = ['T', 'h', 'i', 's'] ++ ' ' :: (['r', 'e', 'v', 'e', 'r', 't', 's'] ++
      ' ' :: (['c', 'o', 'm', 'm', 'i', 't'] ++ ' ' :: (sha ++ ['.']))) := rfl
  obtain ⟨last, ends⟩ : ∃ last, sha.getLast? = some last := by
    cases is : sha.getLast? with
    | some last => exact ⟨last, rfl⟩
    | none =>
      rw [List.getLast?_eq_none_iff.mp is] at forty
      cases forty
  have head : ∀ c ∈ (sha ++ ['.']).head?, isSpace c = false := by
    intro c is
    rcases List.mem_append.mp (List.mem_of_mem_head? is) with inside | dot
    · exact isSpace_of_isHex (hex c inside)
    · obtain rfl := List.mem_singleton.mp dot
      decide
  have size_ : Pattern.sizeOf sha = 40 := (Reference.sizeOf_of_isHex hex).trans forty
  have ends_ : ∀ c ∈ ['.'].head?, shaRun.accepts c = false := by
    intro c is
    obtain rfl : '.' = c := by simpa using is
    decide
  obtain ⟨shorter, lengths⟩ := Run.lengths_append hex ends_ (le_of_eq size_.symm)
    (fun most is => by
      obtain rfl : 40 = most := by simpa [shaRun] using is
      exact le_of_eq size_)
  have boundary : atBoundary (lastOf (some ' ') sha) ['.'] = true := by
    have word_ := isWord_of_isHex (hex last (List.mem_of_getLast? ends))
    have dot : isWord '.' = false := by decide
    simp [atBoundary, lastOf, ends, word_, dot]
  rw [matchAt]
  simp only [revertTrailer, someSpaces, List.append_assoc, List.cons_append, List.nil_append]
  rw [line, matchPieces_word rfl (by decide)]
  refine matchPieces_blank (Nat.le_refl 1) (stops_cons (by decide)) ?_
  rw [matchPieces_word rfl (by decide)]
  refine matchPieces_blank (Nat.le_refl 1) (stops_cons (by decide)) ?_
  rw [matchPieces_word rfl (by decide)]
  refine matchPieces_blank (Nat.le_refl 1) head ?_
  rw [matchPieces, lengths, List.findSome?_cons, List.take_left, List.drop_left, matchPieces,
    if_pos boundary]
  rfl

theorem matchPieces_stuck (some_ : 0 < run.atLeast)
    (stops : ∀ c ∈ text.head?, run.accepts c = false) :
    matchPieces (.run run :: pieces) next before text = none := by
  rw [matchPieces, Run.lengths_eq_nil some_ stops]
  rfl

theorem revertTrailer_none {c : Char} (other : c.toLower ≠ 't') (before : Option Char) (rest : Text) :
    revertTrailer.matchAt before (c :: rest) = none := by
  obtain ⟨more, lead⟩ : ∃ more, revertTrailer.lead =
      .run ⟨fun c => c.toLower == 't', 1, some 1⟩ :: more := ⟨_, rfl⟩
  rw [matchAt, lead]
  exact matchPieces_stuck Nat.one_pos (stops_cons (by simpa using other))

/-- The commits that trailers name -/
def trailed (text : Text) : List Sha := (named revertTrailer text).map Prod.snd

theorem trailed_eq (text : Text) :
    trailed text = (revertTrailer.allMatches text).filterMap fun found => shaOf found.2 := by
  rw [trailed, named, List.map_filterMap]
  refine List.filterMap_congr fun found _ => ?_
  cases shaOf found.2 <;> rfl

theorem avoids_word {c : Char} (other : c.toLower ∉ letters.toList) :
    ∀ piece ∈ word letters, piece.Avoids c := by
  intro piece inside
  obtain ⟨letter, member, rfl⟩ := List.mem_map.mp inside
  refine beq_eq_false_iff_ne.mpr fun same => other ?_
  exact same ▸ member

theorem avoids_revertTrailer : revertTrailer.Avoids '"' where
  each := by
    have this_ : ∀ piece ∈ word "this", piece.Avoids '"' := avoids_word (by decide)
    have reverts : ∀ piece ∈ word "reverts", piece.Avoids '"' := avoids_word (by decide)
    have commit : ∀ piece ∈ word "commit", piece.Avoids '"' := avoids_word (by decide)
    have space : someSpaces.Avoids '"' := (by decide : isSpace '"' = false)
    have digits : (Piece.run shaRun).Avoids '"' := (by decide : isHex '"'.toLower = false)
    intro piece inside
    simp only [pieces, revertTrailer, List.mem_append, List.mem_cons, List.not_mem_nil, or_false]
      at inside
    rcases inside with (((((first | rfl) | second) | rfl) | third) | rfl) | rfl | rfl
    · exact this_ piece first
    · exact space
    · exact reverts piece second
    · exact space
    · exact commit piece third
    · exact space
    · exact digits
    · trivial
  noWord := by decide
  some := by decide

/-- The quotation marks keep the trailers of the title from those around it. -/
theorem trailed_revertTitle (rest : Text) : trailed (revertWord ++ '"' :: (title ++ '"' :: rest)) =
    trailed title ++ trailed rest := by
  have front : revertTrailer.allMatches revertWord = [] := by decide
  rw [trailed_eq, allMatches_separated avoids_revertTrailer, allMatches_separated avoids_revertTrailer,
    front, trailed_eq, trailed_eq]
  simp [List.filterMap_append, List.filterMap_map, Function.comp_def]

theorem trailed_revertLine {named_ : Sha} (is : shaOf sha = some named_) :
    trailed ('\n' :: '\n' :: revertLine sha) = [named_] := by
  have hex := free_of_shaOf is
  have forty := length_of_shaOf is
  have none_ : ∀ before back, back <:+ ['.'] → revertTrailer.matchAt before back = none := by
    intro before back suffix_
    rcases List.suffix_cons_iff.mp suffix_ with rfl | empty
    · exact revertTrailer_none (by decide) before []
    · rw [List.suffix_nil.mp empty]
      exact matchAt_nil (by decide) before
  have line : revertLine sha = 'T' :: (lineWords.tail ++ (sha ++ ['.'])) := rfl
  have matched := matchAt_revertLine hex forty (some '\n')
  have skipped : (lineWords.tail ++ (sha ++ ['.'])).drop
      ((lineWords.tail ++ (sha ++ ['.'])).length - ['.'].length) = ['.'] := by
    rw [← List.append_assoc, List.length_append, Nat.add_sub_cancel, List.drop_left]
  rw [line] at matched
  rw [trailed_eq, allMatches, matchesFrom, revertTrailer_none (by decide)]
  simp only
  rw [matchesFrom, revertTrailer_none (by decide), line]
  simp only
  rw [matchesFrom, matched]
  simp only
  rw [matchesFrom_eq_nil (skipped.symm ▸ none_)]
  simp [is]

/-- The title in quotation marks is found. -/
theorem matchAt_revertTitle (some_ : title ≠ []) (few : Pattern.sizeOf title ≤ titleMax)
    (free : ∀ c ∈ title, c ≠ '"' ∧ c ≠ '”' ∧ c ≠ '\n') (rest : Text) :
    revertQuoted.matchAt none (revertWord ++ '"' :: (title ++ '"' :: rest)) = some (title, rest) := by
  have subject : revertWord ++ '"' :: (title ++ '"' :: rest) =
      ['R', 'e', 'v', 'e', 'r', 't'] ++ ' ' :: '"' :: (title ++ '"' :: rest) := rfl
  have accepts : ∀ c ∈ title, revertQuoted.group.accepts c = true := by
    intro c inside
    simpa [revertQuoted] using and_assoc.mpr (free c inside)
  have least : revertQuoted.group.atLeast ≤ Pattern.sizeOf title := by
    obtain ⟨c, more, rfl⟩ := List.exists_cons_of_ne_nil some_
    have pos := size_pos c
    rw [sizeOf_cons]
    exact Nat.le_trans pos (Nat.le_add_right _ _)
  have most : ∀ most ∈ revertQuoted.group.atMost, Pattern.sizeOf title ≤ most := by
    intro most is
    obtain rfl : 512 = most := by simpa [revertQuoted] using is
    exact few
  have ends : ∀ c ∈ ('"' :: rest).head?, revertQuoted.group.accepts c = false :=
    stops_cons (by decide)
  obtain ⟨shorter, lengths⟩ := Run.lengths_append accepts ends least most
  have begins : atBoundary none (['R', 'e', 'v', 'e', 'r', 't'] ++
      ' ' :: '"' :: (title ++ '"' :: rest)) = true := by
    have letter : isWord 'R' = true := by decide
    simp [atBoundary, letter]
  rw [matchAt]
  simp only [revertQuoted, spaces, perhaps, one, List.cons_append, List.nil_append]
  rw [matchPieces, subject, if_pos begins, matchPieces_word rfl (by decide)]
  refine matchPieces_blank (Nat.zero_le 1) (stops_cons (by decide)) ?_
  refine matchPieces_nothing (stops_cons (by decide)) ?_
  refine matchPieces_nothing (stops_cons (by decide)) ?_
  rw [matchPieces_one (by decide) (by decide), matchPieces]
  simp only [revertQuoted] at lengths
  rw [lengths, List.findSome?_cons, List.take_left, List.drop_left,
    matchPieces_one (by decide) (by decide)]
  rfl

theorem revertQuoted_none (straight : '"' ∉ text) (curly : '“' ∉ text) (before : Option Char) :
    revertQuoted.matchAt before text = none := by
  cases matched : revertQuoted.matchAt before text with
  | none => rfl
  | some found =>
    obtain ⟨used, _, rest, rfl, _, _, taken⟩ := of_matchPieces matched
    have quote : one (fun c => c == '"' || c == '“') ∈ revertQuoted.lead := by
      simp [revertQuoted]
    obtain ⟨c, inside, accepts⟩ := taken _ quote Nat.one_pos
    rcases Bool.or_eq_true _ _ ▸ accepts with is | is
    · obtain rfl := beq_iff_eq.mp is
      exact absurd (List.mem_append_left _ inside) straight
    · obtain rfl := beq_iff_eq.mp is
      exact absurd (List.mem_append_left _ inside) curly

theorem quoted_revertTitle (some_ : title ≠ []) (few : Pattern.sizeOf title ≤ titleMax)
    (free : ∀ c ∈ title, c ≠ '"' ∧ c ≠ '”' ∧ c ≠ '\n') (straight : '"' ∉ rest) (curly : '“' ∉ rest) :
    revertQuoted.allMatches (revertWord ++ '"' :: (title ++ '"' :: rest)) = [(0, title)] := by
  have matched := matchAt_revertTitle some_ few free rest
  have subject : revertWord ++ '"' :: (title ++ '"' :: rest) =
      'R' :: (revertWord.tail ++ '"' :: (title ++ ['"']) ++ rest) := by simp [revertWord]
  have skipped : (revertWord.tail ++ '"' :: (title ++ ['"']) ++ rest).drop
      ((revertWord.tail ++ '"' :: (title ++ ['"']) ++ rest).length - rest.length) = rest := by
    rw [List.length_append, Nat.add_sub_cancel, List.drop_left]
  rw [subject] at matched ⊢
  rw [allMatches, matchesFrom, matched]
  simp only
  rw [matchesFrom_eq_nil fun before back suffix_ => ?_]
  rw [skipped] at suffix_
  exact revertQuoted_none (fun inside => straight (suffix_.subset inside))
    (fun inside => curly (suffix_.subset inside)) before

theorem avoids_revertPrefix : ∀ piece ∈ revertPrefix.lead, piece.Avoids '"' := by
  have revert : ∀ piece ∈ word "revert", piece.Avoids '"' := avoids_word (by decide)
  have space : isSpace '"' = false := by decide
  have colon : ('"' == ':') = false := by decide
  intro piece inside
  simp only [revertPrefix, List.mem_append, List.mem_cons, List.not_mem_nil, or_false] at inside
  rcases inside with (rfl | letter) | rfl | rfl | rfl
  · exact space
  · exact revert piece letter
  · exact space
  · exact colon
  · exact space

/-- Without the quotation marks, the prefix finds the title too. -/
theorem prefixed_revertTitle {found : Text}
    (matched : revertPrefix.matchStart (revertTitle title) = some found) :
    found = '"' :: (title ++ ['"']) := by
  obtain ⟨⟨_, after⟩, is, rfl⟩ := Option.map_eq_some_iff.mp matched
  obtain ⟨used, _, rest, whole, grouped, accepted, taken⟩ := of_matchPieces is
  obtain ⟨n, _, trailed⟩ := List.exists_of_findSome?_eq_some grouped
  -- the capture goes on to the end of the text
  simp only [revertPrefix, matchPieces] at trailed
  split at trailed
  next none_ =>
    have all := List.take_of_length_le (List.drop_eq_nil_iff.mp none_)
    rw [all] at trailed
    obtain rfl := congrArg Prod.fst (Option.some.inj trailed)
    have free : '"' ∉ used := by
      intro inside
      obtain ⟨run, member, accepts⟩ := accepted '"' inside
      have rejects : run.accepts '"' = false := avoids_revertPrefix (.run run) member
      rw [rejects] at accepts
      cases accepts
    -- what comes before it has a blank in it, and no mark
    obtain ⟨c, inside, space⟩ := taken ⟨isSpace, 1, none⟩
      (by simp [revertPrefix, someSpaces]) Nat.one_pos
    rcases List.append_eq_append_iff.mp (whole : revertWord ++ _ = used ++ rest) with
      ⟨more, rfl, marks⟩ | ⟨more, front, back⟩
    · cases more with
      | nil => exact marks.symm
      | cons d more =>
        obtain ⟨rfl, _⟩ := List.cons.inj marks
        exact absurd (by simp) free
    · cases more with
      | nil => exact back
      | cons d more =>
        have short : used <+: revertWord.dropLast := by
          rw [front, List.dropLast_append_of_ne_nil (List.cons_ne_nil d more)]
          exact List.prefix_append _ _
        have letters : ∀ c ∈ revertWord.dropLast, isSpace c = false := by decide
        exact absurd space (ne_true_of_eq_false (letters c (short.subset inside)))
  next => exact absurd trailed.symm (Option.some_ne_none _)

theorem stripQuotes_quoted (title : Text) : stripQuotes ('"' :: (title ++ ['"'])) = title := by
  have mark : isSpace '"' = false := by decide
  have trimmed : trim ('"' :: (title ++ ['"'])) = '"' :: (title ++ ['"']) := by
    have first : ('"' :: (title ++ ['"'])).dropWhile isSpace = '"' :: (title ++ ['"']) := by
      simp [mark]
    rw [trim, first, ← List.cons_append]
    exact List.rdropWhile_concat_neg isSpace _ '"' (by simp [mark])
  have last : ('"' :: (title ++ ['"'])).getLast? = some '"' := by
    rw [← List.cons_append, List.getLast?_concat]
  simp only [stripQuotes, trimmed, last, List.head?_cons]
  simp

theorem sizeOf_le_of_sublist {part : Text} (sub : part.Sublist text) :
    Pattern.sizeOf part ≤ Pattern.sizeOf text := by
  induction sub with
  | slnil => exact Nat.le_refl _
  | cons c _ ih => exact Nat.le_trans ih (by rw [sizeOf_cons]; exact Nat.le_add_left _ _)
  | cons_cons c _ ih => rw [sizeOf_cons, sizeOf_cons]; exact Nat.add_le_add_left ih _

theorem sizeOf_trim_le (text : Text) : Pattern.sizeOf (trim text) ≤ Pattern.sizeOf text :=
  sizeOf_le_of_sublist
    ((List.rdropWhile_prefix isSpace _).sublist.trans (List.dropWhile_sublist isSpace))

theorem sizeOf_collapse_le (spaced : Bool) (text : Text) :
    Pattern.sizeOf (collapse spaced text) ≤ Pattern.sizeOf text := by
  have one_ : size ' ' = 1 := by decide
  induction text generalizing spaced with
  | nil => exact Nat.le_refl _
  | cons c text ih =>
    rw [collapse]
    have pos := size_pos c
    split
    next =>
      have later := ih true
      cases spaced <;> simp [one_] <;> omega
    next =>
      have later := ih false
      simp only [sizeOf_cons]
      omega

theorem normalizeTitle_eq (few : Pattern.sizeOf title ≤ titleMax)
    (some_ : trim (collapse false title) ≠ []) :
    normalizeTitle title = some (trim (collapse false title)) := by
  have short : units (trim (collapse false title)) ≤ titleMax :=
    Nat.le_trans (sizeOf_trim_le _) (Nat.le_trans (sizeOf_collapse_le false title) few)
  simp only [normalizeTitle]
  rw [if_neg]
  rintro (none_ | long)
  · exact some_ none_
  · exact absurd short (Nat.not_le.mpr long)

end Found

/-! ### What is read from it -/

section Read

variable {toLowerCase : Text → Text}

/-- What a revert names, and how surely. -/
def ExtractedRevert.outcome (entry : ExtractedRevert) : RevertTarget × RevertConfidence :=
  (entry.target, entry.confidence)

/-- The outcomes of trailers that name these commits, and of the title. -/
def outcomes (commits : List Sha) (title : Text) : List (RevertTarget × RevertConfidence) :=
  (Rows.firsts id commits).map (fun sha => (.commit sha, .exact_)) ++ [(.title title, .heuristic)]

def trailerEntry (text : Text) (found : Nat × Sha) : ExtractedRevert :=
  ⟨.commit found.2, .exact_, evidenceLine text found.1⟩

theorem firstsAfter_trailers (text : Text) (seen : List Sha) (found : List (Nat × Sha)) :
    (Rows.firstsAfter (fun entry : ExtractedRevert => entry.target.key toLowerCase)
        (seen.map RevertTarget.commit) (found.map (trailerEntry text))).map ExtractedRevert.outcome =
      (Rows.firstsAfter id seen (found.map Prod.snd)).map fun sha => (.commit sha, .exact_) := by
  induction found generalizing seen with
  | nil => rfl
  | cons first found ih =>
    have known : (trailerEntry text first).target.key toLowerCase ∈ seen.map RevertTarget.commit ↔
        id first.2 ∈ seen := List.mem_map_of_injective fun _ _ => RevertTarget.commit.inj
    rw [List.map_cons, List.map_cons, Rows.firstsAfter, Rows.firstsAfter]
    by_cases old : id first.2 ∈ seen
    · rw [if_pos (known.mpr old), if_pos old, ih]
    · rw [if_neg (mt known.mp old), if_neg old, List.map_cons, List.map_cons, ← ih]
      rfl

/-- One title, which the prefix can only find again, comes after the commits of the trailers. -/
theorem outcomes_extractReverts {raw title : Text} {isPullRequestTitle : Bool}
    (quoted : revertQuoted.allMatches (maskExcluded text) = [(0, raw)])
    (normal : normalizeTitle raw = some title)
    (again : isPullRequestTitle = true → ∀ found, revertPrefix.matchStart (maskExcluded text) =
      some found → normalizeTitle (stripQuotes found) = some title) :
    (extractReverts toLowerCase text isPullRequestTitle).map ExtractedRevert.outcome =
      outcomes (trailed (maskExcluded text)) title := by
  let key := fun entry : ExtractedRevert => entry.target.key toLowerCase
  let trailers := (named revertTrailer (maskExcluded text)).map (trailerEntry text)
  let own : ExtractedRevert := ⟨.title title, .heuristic, evidenceLine text 0⟩
  have others : key own ∉ trailers.map key := by
    intro inside
    obtain ⟨entry, member, is⟩ := List.mem_map.mp inside
    obtain ⟨found, _, rfl⟩ := List.mem_map.mp member
    cases is
  have first : Rows.firsts key (trailers ++ [own]) = Rows.firsts key trailers ++ [own] := by
    rw [Rows.firsts_concat, if_neg others]
  have titled : [((0 : Nat), raw)].filterMap (fun found => titleRevert text found.2 found.1) = [own] := by
    simp [titleRevert, normal, own]
  have whole : ∃ more, extractReverts toLowerCase text isPullRequestTitle =
      Rows.firsts key (trailers ++ [own] ++ more) ∧ (more = [] ∨ more = [own]) := by
    refine ⟨_, by rw [extractReverts, quoted, titled]; rfl, ?_⟩
    cases isPullRequestTitle with
    | false => exact .inl rfl
    | true =>
      cases found : revertPrefix.matchStart (maskExcluded text) with
      | none => exact .inl (by simp)
      | some found' => exact .inr (by simp [titleRevert, again rfl found' found, own])
  have entries : extractReverts toLowerCase text isPullRequestTitle =
      Rows.firsts key trailers ++ [own] := by
    obtain ⟨more, is, rfl | rfl⟩ := whole
    · rw [is, List.append_nil, first]
    · rw [is, Rows.firsts_concat, if_pos (by simp), first]
  rw [entries, List.map_append, outcomes]
  exact congrArg (· ++ [own.outcome]) (firstsAfter_trailers text [] _)

theorem length_sha40 : (List.replicate 40 'a').length = 40 := by decide

theorem hexadecimal_sha40 : ∀ c ∈ List.replicate 40 'a', isHex c = true := by decide

def sha40 : Sha := ⟨List.replicate 40 'a', length_sha40, hexadecimal_sha40⟩

end Read

end PrSearch.Relation
