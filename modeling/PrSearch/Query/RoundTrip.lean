import PrSearch.Query.Lawful

/-! # Queries there and back

The conditions of a query always come back. Its text comes back exactly when every piece between two
blanks does: no piece is empty, and what follows a minus sign is neither empty nor a quotation mark
nor a key with its colon, and has no space in it. Of the other texts, the first piece that does not
come back either costs a visible character, or puts the next blank elsewhere.
-/
namespace PrSearch.Query

/-! ### Words and ink -/

/-- What a token adds to the text. -/
def Content.words (content : Content) : List Text :=
  if content.key = none then
    [if content.negated then '-' :: content.value else content.value]
  else []

variable {runtime : Runtime} {content : Content} {contents : List Content}
  {input value next term tail : Text} {ast : QueryAst}

theorem words_of_parsed {part : Part} (parsed : parseContent runtime content = .ok part) :
    part.words = content.words := by
  cases key : content.key with
  | none =>
    simp only [parseContent, key, Except.ok.injEq] at parsed
    subst parsed
    simp [Part.words, Content.words, key]
  | some name =>
    have silent : content.words = [] := by simp [Content.words, key]
    rw [silent]
    cases part with
    | word text =>
      simp only [parseContent, key] at parsed
      split at parsed
      · cases parsed
      · split at parsed
        · obtain ⟨_, -, same⟩ := map_ok_iff.mp parsed
          cases same
        · unfold toScalar at parsed
          split at parsed
          · cases parsed
          · split at parsed
            · obtain ⟨_, -, same⟩ := map_ok_iff.mp parsed
              cases same
            · split at parsed
              · obtain ⟨_, -, same⟩ := map_ok_iff.mp parsed
                cases same
              · cases parsed
            · cases parsed
    | range | value => rfl

theorem wordsOf_eq {parts : List Part} (of : PartsOf runtime contents parts) :
    wordsOf parts = contents.flatMap Content.words := by
  induction of with
  | nil => rfl
  | cons parsed _ ih =>
    rw [wordsOf, List.flatMap_cons, List.flatMap_cons, words_of_parsed parsed]
    exact congrArg _ ih

/-- The visible characters, quotation marks and backslashes apart. -/
def ink (text : Text) : Nat := text.countP fun c => c != '"' && c != '\\' && c != ' '

theorem ink_cons (c : Char) (text : Text) :
    ink (c :: text) = ink text + if c != '"' && c != '\\' && c != ' ' then 1 else 0 :=
  List.countP_cons

@[simp] theorem ink_append (first rest : Text) : ink (first ++ rest) = ink first + ink rest :=
  List.countP_append

theorem ink_le_cons (c : Char) (text : Text) : ink text ≤ ink (c :: text) := by
  rw [ink_cons]
  exact Nat.le_add_right _ _

theorem ink_spaced (pieces : List Text) : ink (spaced pieces) = (pieces.map ink).sum := by
  induction pieces with
  | nil => rfl
  | cons piece rest ih =>
    rw [spaced_cons, ink_cons, ink_append, ih]
    simp

theorem ink_escaped (value : Text) : ink (escaped value) = ink value := by
  induction value with
  | nil => rfl
  | cons c rest ih =>
    rw [escaped_cons, ink_append, ih, ink_cons]
    by_cases backslash : c = '\\'
    · subst backslash
      simp [ink]
    · by_cases mark : c = '"'
      · subst mark
        simp [ink]
      · simp [backslash, mark, ink, Nat.add_comm]

theorem ink_renderTerm (term : Text) : ink (renderTerm term) = ink term := by
  unfold renderTerm
  split
  · have whole : quote term = '"' :: (escaped term ++ ['"']) := rfl
    rw [whole, ink_cons, ink_append, ink_escaped]
    simp [ink]
  · rfl

/-! Reading takes the ink of the words, and at least some more when a token is no word. -/

theorem ink_readQuoted (read : readQuoted input = some (value, next)) :
    ink value + ink next ≤ ink input := by
  induction input using readQuoted.induct generalizing value next with
  | case1 => cases read
  | case2 => cases read
  | case3 escaped rest ih =>
    obtain ⟨⟨inner, after⟩, found, same⟩ := Option.map_eq_some_iff.mp read
    cases same
    have less := ih found
    have skipped := ink_le_cons '\\' (escaped :: rest)
    rw [ink_cons escaped] at skipped ⊢
    omega
  | case4 rest =>
    cases read
    simp [ink]
  | case5 c rest noEscape noEnd noMark ih =>
    rw [readQuoted] at read
    · obtain ⟨⟨inner, after⟩, found, same⟩ := Option.map_eq_some_iff.mp read
      cases same
      have less := ih found
      rw [ink_cons c, ink_cons c]
      omega
    all_goals assumption

variable {negated : Bool} {body u rest piece text : Text} {pieces words : List Text}

theorem readValue_spec {key : Option Text}
    (read : readValue negated key input = some (content, next)) :
    content.negated = negated ∧ content.key = key ∧
      ink content.value + ink next ≤ ink input := by
  unfold readValue at read
  split at read
  · obtain ⟨⟨value, after⟩, found, same⟩ := Option.map_eq_some_iff.mp read
    cases same
    exact ⟨rfl, rfl, (ink_readQuoted found).trans (ink_le_cons _ _)⟩
  · cases read
    refine ⟨rfl, rfl, Nat.le_of_eq ?_⟩
    rw [← ink_append]
    exact congrArg ink List.takeWhile_append_dropWhile

def inkOf (contents : List Content) : Nat :=
  ((contents.flatMap Content.words).map ink).sum

theorem inkOf_cons (content : Content) (contents : List Content) :
    inkOf (content :: contents) = (content.words.map ink).sum + inkOf contents := by
  simp [inkOf]

theorem ink_readBody (read : readBody negated body = some (content, next)) :
    (content.words.map ink).sum + ink next ≤ ink (sign negated ++ body) ∧
      (content.key.isSome → ink next < ink (sign negated ++ body)) := by
  unfold readBody at read
  split at read
  next key after found =>
    obtain ⟨rfl, -⟩ := readKey_eq found
    obtain ⟨-, keyed, less⟩ := readValue_spec read
    have silent : content.words = [] := by simp [Content.words, keyed]
    -- the colon is lost
    have colon : ink (':' :: after) = ink after + 1 := by simp [ink_cons]
    simp only [silent, List.map_nil, List.sum_nil, ink_append, colon]
    exact ⟨by omega, fun _ => by omega⟩
  · obtain ⟨signed, keyless, less⟩ := readValue_spec read
    refine ⟨?_, fun keyed => by simp [keyless] at keyed⟩
    have word : (content.words.map ink).sum = ink (sign negated) + ink content.value := by
      cases negated <;> simp [Content.words, keyless, signed, sign, Nat.add_comm, ink]
    rw [word, ink_append]
    omega

theorem ink_readToken (read : readToken input = some (content, next)) :
    (content.words.map ink).sum + ink next ≤ ink input ∧
      (content.key.isSome → ink next < ink input) := by
  unfold readToken at read
  split at read
  · exact ink_readBody read
  · exact ink_readBody read

theorem ink_skipSpace (input : Text) : ink (skipSpace input) ≤ ink input :=
  (List.dropWhile_suffix _).sublist.countP_le

theorem inkOf_reads (reads : Reads input contents) : inkOf contents ≤ ink (skipSpace input) := by
  induction reads with
  | done => exact Nat.zero_le _
  | @kept input next content contents _ read _ _ ih =>
    have taken := (ink_readToken read).1
    have later := ink_skipSpace next
    rw [inkOf_cons]
    omega
  | @dropped input next content contents _ read _ _ ih =>
    have taken := (ink_readToken read).1
    have later := ink_skipSpace next
    omega

/-! ### Pieces of a text -/

/-- A piece of a text that comes back. -/
def Returns : Text → Prop
  | [] => False
  | '-' :: rest =>
      rest ≠ [] ∧ (∀ c ∈ rest, isSpace c = false) ∧ rest.head? ≠ some '"' ∧ readKey rest = none
  | _ => True

theorem returns_cons (c : Char) (rest : Text) :
    Returns (c :: rest) ↔ (c = '-' → rest ≠ [] ∧ (∀ d ∈ rest, isSpace d = false) ∧
      rest.head? ≠ some '"' ∧ readKey rest = none) := by
  by_cases minus : c = '-'
  · subst minus
    simp [Returns]
  · have other : Returns (c :: rest) := by
      unfold Returns
      split
      · contradiction
      next same => exact absurd (List.cons.inj same).1 minus
      · trivial
    simp [other, minus]

instance : DecidablePred Returns
  | [] => inferInstanceAs (Decidable False)
  | c :: rest => decidable_of_iff' _ (returns_cons c rest)

theorem returns_of_unsigned (some_ : term ≠ []) (unsigned : term.head? ≠ some '-') :
    Returns term := by
  unfold Returns
  split
  · exact some_ rfl
  · exact absurd rfl unsigned
  · trivial

theorem readKey_of_not_mem (noColon : ':' ∉ term) : readKey term = none := by
  cases found : readKey term with
  | none => rfl
  | some answer =>
    obtain ⟨rfl, -⟩ := readKey_eq found
    exact absurd (List.mem_append_right _ List.mem_cons_self) noColon

theorem renderTerm_of_signed (rest : Text) : renderTerm ('-' :: rest) = '-' :: rest := by
  simp [renderTerm]

theorem renderTerm_of_unsigned (unsigned : term.head? ≠ some '-') :
    renderTerm term = renderValue term := by
  have other : (term.head? != some '-') = true := by simpa using unsigned
  simp [renderTerm, renderValue, other]

/-- A piece that comes back is read as one word. -/
theorem piece_renderTerm (returns : Returns term) :
    ∃ content, Piece (renderTerm term) content ∧ content.words = [term] := by
  by_cases signed : term.head? = some '-'
  · obtain ⟨rest, rfl⟩ : ∃ rest, term = '-' :: rest := by
      cases term with
      | nil => cases signed
      | cons c rest => cases signed; exact ⟨rest, rfl⟩
    obtain ⟨some_, solid, unmarked, keyless⟩ := returns
    refine ⟨⟨true, none, rest, false⟩, ⟨?_, ?_, .inl some_⟩, rfl⟩
    · exact ⟨'-', rest, renderTerm_of_signed rest, by decide⟩
    · intro tail ends
      rw [renderTerm_of_signed, List.cons_append, readToken, readBody, readKey_append ends, keyless,
        Option.map_none]
      exact readValue_bare solid unmarked ends
  · obtain ⟨c, rest, rfl⟩ : ∃ c rest, term = c :: rest := by
      cases term with
      | nil => exact absurd returns id
      | cons c rest => exact ⟨c, rest, rfl⟩
    have other : c ≠ '-' := fun same => signed (same ▸ rfl)
    -- without a minus sign the piece is written as a value is
    have body : ∀ tail, Ends tail → readBody false (renderValue (c :: rest) ++ tail) =
        some (⟨false, none, c :: rest, needsQuotes (c :: rest)⟩, tail) := by
      intro tail ends
      have keyless : readKey (renderValue (c :: rest)) = none := by
        unfold renderValue
        split
        · simp [quote, readKey]
        next plain =>
          obtain ⟨-, -, -, -, colon, -⟩ := plain_of_needsQuotes (by simpa using plain)
          exact readKey_of_not_mem colon
      rw [readBody, readKey_append ends, keyless, Option.map_none]
      exact readValue_renderValue false none (c :: rest) ends
    obtain ⟨d, more, begins, visible, noMinus⟩ : ∃ d more, renderValue (c :: rest) = d :: more ∧
        isSpace d = false ∧ d ≠ '-' := by
      unfold renderValue
      split
      · exact ⟨'"', _, rfl, by decide, by decide⟩
      next plain =>
        obtain ⟨-, solid, -⟩ := plain_of_needsQuotes (by simpa using plain)
        exact ⟨c, rest, rfl, solid c List.mem_cons_self, other⟩
    refine ⟨⟨false, none, c :: rest, needsQuotes (c :: rest)⟩, ⟨?_, ?_, .inl (by simp)⟩, rfl⟩
    · rw [renderTerm_of_unsigned signed]
      exact ⟨d, more, begins, visible⟩
    · intro tail ends
      have read := body tail ends
      rw [renderTerm_of_unsigned signed]
      rw [begins] at read ⊢
      rw [List.cons_append, readToken]
      · exact read
      · rintro body ⟨⟩
        exact noMinus rfl

/-- When no ink is lost, what begins with a minus sign is a word. -/
theorem signed_word (reads : Reads (' ' :: '-' :: body) contents)
    (kept : inkOf contents = ink ('-' :: body)) :
    ∃ content next behind, readBody true body = some (content, next) ∧ content.key = none ∧
      content.Kept ∧ content.words = ['-' :: content.value] ∧ Reads next behind ∧
        contents = content :: behind ∧ ink (skipSpace next) = ink next := by
  have begins : skipSpace (' ' :: '-' :: body) = '-' :: body := by
    rw [skipSpace_blank]
    exact skipSpace_of_visible (by decide) body
  have more : skipSpace (' ' :: '-' :: body) ≠ [] := by simp [begins]
  obtain ⟨content, next, behind, read, rest, same⟩ := (Reads.more_iff more).mp reads
  rw [begins] at read
  obtain ⟨taken, keyed⟩ := ink_readToken read
  have later := inkOf_reads rest
  have skipped := ink_skipSpace next
  have read : readBody true body = some (content, next) := read
  have signed : content.negated = true := by
    unfold readBody at read
    split at read
    · exact (readValue_spec read).1
    · exact (readValue_spec read).1
  -- a key costs its colon, and a minus sign that makes no token itself
  have keyless : content.key = none := by
    cases key : content.key with
    | none => rfl
    | some name =>
      exfalso
      have lost := keyed (by simp [key])
      have silent : content.words = [] := by simp [Content.words, key]
      have few : inkOf contents = inkOf behind := by
        rw [← same]
        split <;> simp [inkOf_cons, silent]
      omega
  have words : content.words = ['-' :: content.value] := by simp [Content.words, keyless, signed]
  have minus : ink ('-' :: content.value) = ink content.value + 1 := by simp [ink_cons]
  simp only [words, List.map_cons, List.map_nil, List.sum_cons, List.sum_nil, minus] at taken
  by_cases stays : content.Kept
  · rw [if_pos stays] at same
    refine ⟨content, next, behind, read, keyless, stays, words, rest, same.symm, ?_⟩
    rw [← same, inkOf_cons, words] at kept
    simp only [List.map_cons, List.map_nil, List.sum_cons, List.sum_nil, minus] at kept
    omega
  · rw [if_neg stays] at same
    rw [← same] at kept
    omega

/-- Up to the first blank, a quoted value is no longer than what it is read from. -/
theorem length_takeWhile_readQuoted (noBlank : ' ' ∉ u) (ends : Ends tail)
    (read : readQuoted (u ++ tail) = some (value, next)) :
    (value.takeWhile fun c => c != ' ').length ≤ u.length := by
  -- once the quoted value reaches the tail, it begins with the blank
  have beyond : ∀ {value next : Text}, readQuoted tail = some (value, next) →
      (value.takeWhile fun c => c != ' ') = [] := by
    intro value next read
    cases tail with
    | nil => cases read
    | cons c rest =>
      obtain rfl : c = ' ' := ends c rfl
      rw [readQuoted] at read
      · obtain ⟨⟨inner, after⟩, -, same⟩ := Option.map_eq_some_iff.mp read
        cases same
        simp
      all_goals simp
  induction u using readQuoted.induct generalizing value next with
  | case1 => simp [beyond read]
  | case2 =>
    -- the backslash takes the blank
    cases tail with
    | nil => cases read
    | cons c rest =>
      obtain rfl : c = ' ' := ends c rfl
      obtain ⟨⟨inner, after⟩, -, same⟩ := Option.map_eq_some_iff.mp read
      cases same
      simp
  | case3 escaped rest ih =>
    obtain ⟨⟨inner, after⟩, found, same⟩ := Option.map_eq_some_iff.mp read
    cases same
    have shorter := ih (fun inside => noBlank (by simp [inside])) found
    rw [List.takeWhile_cons]
    split
    · simp only [List.length_cons]
      omega
    · exact Nat.zero_le _
  | case4 rest =>
    cases read
    exact Nat.zero_le _
  | case5 c rest noEscape noEnd noMark ih =>
    have other : c ≠ '\\' := by
      intro same
      cases rest with
      | nil => exact noEscape same rfl
      | cons d rest => exact noEnd d rest same rfl
    rw [List.cons_append, readQuoted] at read
    · obtain ⟨⟨inner, after⟩, found, same⟩ := Option.map_eq_some_iff.mp read
      cases same
      have shorter := ih (fun inside => noBlank (by simp [inside])) found
      rw [List.takeWhile_cons]
      split
      · simp only [List.length_cons]
        omega
      · exact Nat.zero_le _
    · exact fun same _ => other same
    · exact fun _ _ same _ => other same
    · exact noMark

theorem takeWhile_append_ends (ends : Ends tail) :
    ((value ++ tail).takeWhile fun c => c != ' ') = value.takeWhile fun c => c != ' ' := by
  rw [List.takeWhile_append]
  split
  next whole =>
    have stops : (tail.takeWhile fun c => c != ' ') = [] := by
      cases tail with
      | nil => rfl
      | cons c rest =>
        obtain rfl : c = ' ' := ends c rfl
        simp
    rw [stops, List.append_nil]
    exact ((List.takeWhile_prefix _).eq_of_length whole).symm
  · rfl

/-- What follows a quotation mark that is read as the end of nothing puts the next blank elsewhere. -/
theorem quoted_differs {rest' : Text} (noBlank : ' ' ∉ u) (ends : Ends tail)
    (read : readQuoted (u ++ tail) = some (value, next)) (after : Ends rest) (after' : Ends rest') :
    value ++ rest ≠ '"' :: u ++ rest' := by
  intro same
  have shorter := length_takeWhile_readQuoted noBlank ends read
  have cut := congrArg (fun text : Text => (text.takeWhile fun c => c != ' ').length) same
  have whole : ('"' :: u).takeWhile (fun c => c != ' ') = '"' :: u := by
    have visible : ∀ c ∈ '"' :: u, (c != ' ') = true := by
      intro c inside
      rcases List.mem_cons.mp inside with rfl | inside
      · decide
      · simpa using fun blank : c = ' ' => noBlank (blank ▸ inside)
    exact List.takeWhile_eq_self_iff.mpr visible
  simp only [takeWhile_append_ends after, takeWhile_append_ends after', whole,
    List.length_cons] at cut
  omega

/-- A piece with a minus sign comes back when the text and its ink do. -/
theorem returns_of_signed (noBlank : ' ' ∉ rest) (ends : Ends tail)
    (reads : Reads (' ' :: '-' :: (rest ++ tail)) contents)
    (kept : inkOf contents = ink ('-' :: (rest ++ tail))) {others : Text} (after : Ends others)
    (same : spaced (contents.flatMap Content.words) = ' ' :: '-' :: (rest ++ others)) :
    Returns ('-' :: rest) := by
  obtain ⟨content, next, behind, read, keyless, stays, words, later, rfl, unskipped⟩ :=
    signed_word reads kept
  have noKey : readKey rest = none := by
    cases key : readKey rest with
    | none => rfl
    | some answer =>
      rw [readBody, readKey_append ends, key, Option.map_some] at read
      have named := (readValue_spec read).2.1
      rw [keyless] at named
      cases named
  rw [readBody, readKey_append ends, noKey] at read
  have read : readValue true none (rest ++ tail) = some (content, next) := read
  have unmarked : rest.head? ≠ some '"' := by
    intro marked
    obtain ⟨u, rfl⟩ : ∃ u, rest = '"' :: u := by
      cases rest with
      | nil => cases marked
      | cons c u => cases marked; exact ⟨u, rfl⟩
    obtain ⟨⟨value, after'⟩, found, made⟩ := Option.map_eq_some_iff.mp read
    cases made
    simp only [List.flatMap_cons, words, spaced_cons, List.cons_append,
      List.cons.injEq, true_and] at same
    exact quoted_differs (fun inside => noBlank (List.mem_cons_of_mem _ inside)) ends found
      (ends_spaced _) after same
  -- so the value is bare: it ends at the first space
  rw [readValue_of_unmarked (unmarked_append unmarked ends), Option.some.injEq,
    Prod.mk.injEq] at read
  obtain ⟨rfl, rfl⟩ := read
  refine ⟨?_, ?_, unmarked, noKey⟩
  · rintro rfl
    have none_ : (readBare ([] ++ tail)).1 = [] := by
      cases tail with
      | nil => rfl
      | cons c rest =>
        obtain rfl : c = ' ' := ends c rfl
        simp [readBare, isSpace_blank]
    rcases stays with some_ | quoted | keyed
    · exact some_ none_
    · cases quoted
    · cases keyed
  · by_contra spacious
    have some_ : rest.dropWhile (fun c => !isSpace c) ≠ [] := by
      intro none_
      have all := List.dropWhile_eq_nil_iff.mp none_
      exact spacious fun c inside => by simpa using all c inside
    obtain ⟨d, more, found⟩ := List.exists_cons_of_ne_nil some_
    have space : isSpace d = true := by
      have stops := List.head?_dropWhile_not (fun c => !isSpace c) rest
      rw [found] at stops
      simpa using stops
    have inside : d ∈ rest := (List.dropWhile_suffix fun c => !isSpace c).subset (by simp [found])
    -- the space that ends the value is no blank, and its ink is lost
    have remains : (readBare (rest ++ tail)).2 = d :: (more ++ tail) := by
      simp [readBare, List.dropWhile_append, found]
    have inky : ink (d :: (more ++ tail)) = ink (more ++ tail) + 1 := by
      have noBlank' : d ≠ ' ' := fun blank => noBlank (blank ▸ inside)
      have noMark : d ≠ '"' := by rintro rfl; revert space; decide
      have noEscape : d ≠ '\\' := by rintro rfl; revert space; decide
      simp [ink_cons, noBlank', noMark, noEscape]
    have skipped : skipSpace (d :: (more ++ tail)) = skipSpace (more ++ tail) := by
      simp [skipSpace, space]
    have less := ink_skipSpace (more ++ tail)
    rw [remains, inky, skipped] at unskipped
    omega

/-- The pieces of a text, as they are written. -/
def rendered (pieces : List Text) : List Text :=
  (pieces.filter fun term => term ≠ []).map renderTerm

theorem ink_rendered (pieces : List Text) :
    ((rendered pieces).map ink).sum = (pieces.map ink).sum := by
  induction pieces with
  | nil => rfl
  | cons piece rest ih =>
    by_cases empty : piece = []
    · subst empty
      simpa [rendered, ink] using ih
    · simp only [rendered, List.filter_cons, empty, ne_eq, not_false_eq_true, decide_true, if_true,
        List.map_cons, List.sum_cons, ink_renderTerm] at ih ⊢
      rw [ih]

theorem rendered_cons (some_ : piece ≠ []) (rest : List Text) :
    rendered (piece :: rest) = renderTerm piece :: rendered rest := by
  simp [rendered, some_]

theorem signed_of_head (signed : piece.head? = some '-') : ∃ rest, piece = '-' :: rest := by
  cases piece with
  | nil => cases signed
  | cons c rest =>
    cases signed
    exact ⟨rest, rfl⟩

/-- When no ink is lost, the first word begins as the first piece does. -/
theorem first_word (some_ : term ≠ []) {others : List Text}
    (reads : Reads (spaced (renderTerm term :: others)) contents)
    (kept : inkOf contents = ink (spaced (renderTerm term :: others))) :
    ∃ word words, contents.flatMap Content.words = word :: words ∧ word.head? = term.head? := by
  by_cases signed : term.head? = some '-'
  · obtain ⟨rest, rfl⟩ := signed_of_head signed
    rw [spaced_cons, renderTerm_of_signed, List.cons_append] at reads kept
    rw [ink_cons ' '] at kept
    obtain ⟨content, next, behind, -, -, -, words, -, rfl, -⟩ :=
      signed_word reads (by simpa using kept)
    refine ⟨'-' :: content.value, behind.flatMap Content.words, ?_, rfl⟩
    rw [List.flatMap_cons, words]
    rfl
  · obtain ⟨content, is, words⟩ := piece_renderTerm (returns_of_unsigned some_ signed)
    rw [spaced_cons, reads_piece is (ends_spaced others)] at reads
    obtain ⟨behind, -, rfl⟩ := reads
    refine ⟨term, behind.flatMap Content.words, ?_, rfl⟩
    rw [List.flatMap_cons, words]
    rfl

/-- A piece between two blanks is not empty, or the first word would be. -/
theorem no_empty_piece {rest : List Text} (blankless : ∀ piece ∈ rest, ' ' ∉ piece)
    (reads : Reads (spaced (rendered rest)) contents)
    (kept : inkOf contents = ink (spaced (rendered rest))) :
    spaced (contents.flatMap Content.words) ≠ ' ' :: spaced rest := by
  intro same
  cases nonempty : rest.filter fun term => term ≠ [] with
  | nil =>
    have nothing : rendered rest = [] := by rw [rendered, nonempty, List.map_nil]
    rw [nothing, spaced_nil, Reads.done_iff rfl] at reads
    subst reads
    cases same
  | cons term terms =>
    have among : term ∈ rest.filter fun term => term ≠ [] := by
      rw [nonempty]
      exact List.mem_cons_self
    obtain ⟨inside, some_⟩ := List.mem_filter.mp among
    have begins : rendered rest = renderTerm term :: terms.map renderTerm := by
      rw [rendered, nonempty, List.map_cons]
    rw [begins] at reads kept
    obtain ⟨word, words, are, head⟩ := first_word (by simpa using some_) reads kept
    rw [are, spaced_cons, List.cons.injEq] at same
    -- the word begins with a character of the piece, the other side with a blank
    obtain ⟨c, more, rfl⟩ := List.exists_cons_of_ne_nil (by simpa using some_ : term ≠ [])
    obtain ⟨d, tail, rfl⟩ : ∃ d tail, word = d :: tail := by
      cases word with
      | nil => cases head
      | cons d tail => exact ⟨d, tail, rfl⟩
    obtain rfl : d = c := Option.some.inj head
    have blank : d = ' ' := ends_spaced rest d (by rw [← same.2]; rfl)
    exact blankless _ inside (blank ▸ List.mem_cons_self)

/-- The words that are read from the pieces are these pieces only if every piece comes back. -/
theorem returns_of_reads (blankless : ∀ piece ∈ pieces, ' ' ∉ piece)
    (reads : Reads (spaced (rendered pieces)) contents)
    (same : spaced (contents.flatMap Content.words) = spaced pieces) :
    ∀ piece ∈ pieces, Returns piece := by
  induction pieces generalizing contents with
  | nil => exact List.forall_mem_nil _
  | cons piece rest ih =>
    have kept : inkOf contents = ink (spaced (rendered (piece :: rest))) := by
      rw [inkOf, ← ink_spaced, same, ink_spaced, ink_spaced, ink_rendered]
    have noBlank := blankless piece List.mem_cons_self
    have others := fun other later => blankless other (List.mem_cons_of_mem piece later)
    have some_ : piece ≠ [] := by
      rintro rfl
      exact no_empty_piece others reads kept same
    rw [rendered_cons some_, spaced_cons] at reads kept
    have first : Returns piece := by
      by_cases signed : piece.head? = some '-'
      · obtain ⟨body, rfl⟩ := signed_of_head signed
        rw [renderTerm_of_signed, List.cons_append] at reads kept
        rw [ink_cons ' '] at kept
        exact returns_of_signed (fun inside => noBlank (List.mem_cons_of_mem _ inside))
          (ends_spaced _) reads (by simpa using kept) (ends_spaced rest) same
      · exact returns_of_unsigned some_ signed
    obtain ⟨content, is, words⟩ := piece_renderTerm first
    obtain ⟨behind, later, rfl⟩ := (reads_piece is (ends_spaced _)).mp reads
    have rest_same : spaced (behind.flatMap Content.words) = spaced rest := by
      rw [List.flatMap_cons, words, List.singleton_append, spaced_cons, spaced_cons] at same
      exact List.append_cancel_left (List.cons.inj same).2
    intro other inside
    rcases List.mem_cons.mp inside with rfl | inside
    · exact first
    · exact ih others later rest_same other inside

/-! ### Texts -/

-- No piece between blanks has one itself.
theorem not_mem_splitOn (inside : piece ∈ text.splitOn ' ') : ' ' ∉ piece := by
  induction text generalizing piece with
  | nil =>
    obtain rfl : piece = [] := by simpa using inside
    exact List.not_mem_nil
  | cons c rest ih =>
    rw [List.splitOn_cons_eq_if_modifyHead] at inside
    split at inside
    · rcases List.mem_cons.mp inside with rfl | later
      · exact List.not_mem_nil
      · exact ih later
    next visible =>
      cases pieces : rest.splitOn ' ' with
      | nil => exact absurd pieces (List.splitOn_ne_nil ' ' rest)
      | cons first others =>
        rw [pieces] at ih inside
        rcases List.mem_cons.mp inside with rfl | later
        · intro blank
          rcases List.mem_cons.mp blank with rfl | blank
          · exact visible rfl
          · exact ih List.mem_cons_self blank
        · exact ih (List.mem_cons_of_mem _ later)

theorem splitOn_intercalate (some_ : words ≠ []) :
    ([' '].intercalate words).splitOn ' ' = words.flatMap fun word => word.splitOn ' ' := by
  induction words with
  | nil => exact absurd rfl some_
  | cons word rest ih =>
    cases rest with
    | nil => simp
    | cons next rest =>
      rw [List.intercalate_cons_cons, List.append_assoc, List.singleton_append,
        List.splitOn_append_cons_self, ih (List.cons_ne_nil next rest)]
      rfl

theorem spaced_splitOn (text : Text) : spaced (text.splitOn ' ') = ' ' :: text := by
  rw [spaced_eq (List.splitOn_ne_nil ' ' text), List.intercalate_splitOn]

theorem joinWords_eq_some :
    joinWords words = some text ↔ words ≠ [] ∧ spaced words = ' ' :: text := by
  unfold joinWords
  split
  next none_ => simp [none_]
  next some_ => simp [some_, spaced_eq some_]

/-- Every piece of the text comes back. -/
def TextReturns (text : Option Text) : Prop :=
  ∀ words ∈ text, ∀ piece ∈ words.splitOn ' ', Returns piece

instance (text : Option Text) : Decidable (TextReturns text) :=
  inferInstanceAs (Decidable (∀ words ∈ text, _))

/-! ### There and back -/

/-- What is written is read as the conditions first, and then the pieces of the text. -/
theorem reads_serializeQuery (lawful : Lawful runtime ast.filters) :
    Reads (serializeQuery ast) contents ↔
      ∃ behind, Reads (spaced (ast.text.elim [] renderText)) behind ∧
        ast.filters.flatMap contentsOf ++ behind = contents := by
  rw [serializeQuery, reads_intercalate, spaced_append]
  exact reads_pieces (pieces_filters lawful.wellFormed).1 (ends_spaced _)

theorem words_contentsOf {filters : List QueryFilter}
    (made : ∀ filter ∈ filters, WellFormed runtime filter) :
    (filters.flatMap contentsOf).flatMap Content.words = [] := by
  rw [← wordsOf_eq (pieces_filters made).2, wordsOf_partsOf]

-- Pieces that come back are read as words, each as itself.
theorem reads_rendered (return_ : ∀ piece ∈ pieces, Returns piece) :
    ∃ contents, Reads (spaced (rendered pieces)) contents ∧
      (∀ content ∈ contents, content.key = none) ∧ contents.flatMap Content.words = pieces := by
  induction pieces with
  | nil =>
    exact ⟨[], .done rfl, List.forall_mem_nil _, rfl⟩
  | cons piece rest ih =>
    have first := return_ piece List.mem_cons_self
    obtain ⟨contents, reads, keyless, words⟩ :=
      ih fun other later => return_ other (List.mem_cons_of_mem _ later)
    obtain ⟨content, is, word⟩ := piece_renderTerm first
    have some_ : piece ≠ [] := by
      rintro rfl
      exact first
    refine ⟨content :: contents, ?_, ?_, ?_⟩
    · rw [rendered_cons some_, spaced_cons, reads_piece is (ends_spaced _)]
      exact ⟨contents, reads, rfl⟩
    · intro other inside
      rcases List.mem_cons.mp inside with rfl | later
      · cases key : other.key with
        | none => rfl
        | some name => simp [Content.words, key] at word
      · exact keyless other later
    · rw [List.flatMap_cons, word, words, List.singleton_append]

/-- Words make no conditions. -/
theorem partsOf_words (keyless : ∀ content ∈ contents, content.key = none) :
    PartsOf runtime contents ((contents.flatMap Content.words).map Part.word) := by
  induction contents with
  | nil => exact .nil
  | cons content rest ih =>
    have first := keyless content List.mem_cons_self
    have word : content.words = [if content.negated then '-' :: content.value else content.value] :=
      if_pos first
    rw [List.flatMap_cons, word, List.singleton_append, List.map_cons]
    refine .cons ?_ (ih fun other later => keyless other (List.mem_cons_of_mem _ later))
    simp [parseContent, first]

theorem filtersOf_words (parts : List Part) (words : List Text) :
    filtersOf (parts ++ words.map Part.word) = filtersOf parts := by
  have silent : ∀ filters : List QueryFilter,
      (words.map Part.word).foldl Part.addTo filters = filters := by
    induction words with
    | nil => exact fun filters => rfl
    | cons word rest ih => exact fun filters => ih filters
  rw [filtersOf, List.foldl_append, silent]
  rfl

theorem wordsOf_append_words (parts : List Part) (words : List Text) :
    wordsOf (parts ++ words.map Part.word) = wordsOf parts ++ words := by
  have same : wordsOf (words.map Part.word) = words := by
    induction words with
    | nil => rfl
    | cons word rest ih => exact congrArg (word :: ·) ih
  rw [wordsOf, List.flatMap_append]
  exact congrArg (wordsOf parts ++ ·) same

/-- A tree with lawful conditions comes back when its text does. -/
theorem parseQuery_serializeQuery (lawful : Lawful runtime ast.filters)
    (long : ∀ text ∈ ast.text, minTextLength ≤ countCodePoints text)
    (returns : TextReturns ast.text) : parseQuery runtime (serializeQuery ast) = .ok ast := by
  obtain ⟨behind, reads, keyless, text⟩ : ∃ behind,
      Reads (spaced (ast.text.elim [] renderText)) behind ∧
        (∀ content ∈ behind, content.key = none) ∧
          ast.text = joinWords (behind.flatMap Content.words) := by
    cases text : ast.text with
    | none => exact ⟨[], .done rfl, List.forall_mem_nil _, rfl⟩
    | some text' =>
      obtain ⟨contents, reads, keyless, words⟩ := reads_rendered (returns text' text)
      refine ⟨contents, reads, keyless, ?_⟩
      rw [words, eq_comm, joinWords_eq_some]
      exact ⟨List.splitOn_ne_nil ' ' text', spaced_splitOn text'⟩
  obtain ⟨pieces, parts⟩ := pieces_filters lawful.wellFormed
  refine parseQuery_iff.mpr ⟨_, _, (reads_serializeQuery lawful).mpr ⟨behind, reads, rfl⟩,
    List.rel_append parts (partsOf_words keyless), ?_, ?_, long⟩
  · rw [filtersOf_words, filtersOf_partsOf lawful]
  · rw [wordsOf_append_words, wordsOf_partsOf, List.nil_append, text]

/-- Of a tree with lawful conditions another text comes back, when its text does not. -/
theorem returns_of_parseQuery {other : QueryAst} (lawful : Lawful runtime ast.filters)
    (again : parseQuery runtime (serializeQuery ast) = .ok other) (same : other.text = ast.text) :
    TextReturns ast.text := by
  intro text is
  obtain ⟨contents, parts, written, of, -, words, -⟩ := parseQuery_iff.mp again
  obtain ⟨behind, reads, rfl⟩ := (reads_serializeQuery lawful).mp written
  rw [same, is, wordsOf_eq of, List.flatMap_append, words_contentsOf lawful.wellFormed,
    List.nil_append, eq_comm, joinWords_eq_some] at words
  rw [is] at reads
  exact returns_of_reads (fun piece inside => not_mem_splitOn inside) reads
    (words.2.trans (spaced_splitOn text).symm)

/-- The parser makes lawful conditions, and its text joins the words of the tokens. -/
theorem lawful_of_tokens (canonical : runtime.Canonical)
    (accepted : parseQuery runtime input = .ok ast) {tokens : List RawToken}
    (run : tokenize input = .ok tokens) :
    Lawful runtime ast.filters ∧
      ast.text = joinWords (tokens.flatMap fun token => token.content.words) ∧
        ∀ text ∈ ast.text, minTextLength ≤ countCodePoints text := by
  obtain ⟨contents, parts, reads, of, filters, text, long⟩ := parseQuery_iff.mp accepted
  obtain rfl := reads.unique (tokenize_iff.mp ⟨tokens, run, rfl⟩)
  refine ⟨?_, ?_, long⟩
  · rw [filters]
    exact lawful_filtersOf canonical (solid_of_reads reads) of
  · rw [text, wordsOf_eq of, List.flatMap_map]

theorem lawful_of_parseQuery (canonical : runtime.Canonical)
    (accepted : parseQuery runtime input = .ok ast) :
    Lawful runtime ast.filters ∧ ∀ text ∈ ast.text, minTextLength ≤ countCodePoints text := by
  obtain ⟨tokens, run, -⟩ := bind_ok_iff.mp accepted
  obtain ⟨lawful, -, long⟩ := lawful_of_tokens canonical accepted run
  exact ⟨lawful, long⟩

theorem textReturns_joinWords :
    TextReturns (joinWords words) ↔ ∀ word ∈ words, ∀ piece ∈ word.splitOn ' ', Returns piece := by
  unfold joinWords
  split
  next none_ => simp [TextReturns, none_]
  next some_ =>
    simp only [TextReturns, Option.mem_some_iff, forall_eq', splitOn_intercalate some_,
      List.mem_flatMap, forall_exists_index, and_imp]
    exact ⟨fun all word among piece inside => all piece word among inside,
      fun all piece word among inside => all word among piece inside⟩

/-- An accepted query comes back from its written form exactly when every piece of its words does. -/
theorem roundTrip_iff {runtime : Runtime} (canonical : runtime.Canonical) {input : Text}
    {ast : QueryAst} (accepted : parseQuery runtime input = .ok ast) :
    parseQuery runtime (serializeQuery ast) = .ok ast ↔
      ∀ tokens, tokenize input = .ok tokens → ∀ token ∈ tokens, ∀ word ∈ token.content.words,
        ∀ piece ∈ word.splitOn ' ', Returns piece := by
  obtain ⟨tokens, run⟩ : ∃ tokens, tokenize input = .ok tokens := by
    obtain ⟨tokens, run, -⟩ := bind_ok_iff.mp accepted
    exact ⟨tokens, run⟩
  obtain ⟨lawful, text, long⟩ := lawful_of_tokens canonical accepted run
  have same : (∀ tokens, tokenize input = .ok tokens → ∀ token ∈ tokens,
      ∀ word ∈ token.content.words, ∀ piece ∈ word.splitOn ' ', Returns piece) ↔
        TextReturns ast.text := by
    rw [text, textReturns_joinWords]
    simp only [run, Except.ok.injEq, forall_eq', List.mem_flatMap, forall_exists_index, and_imp]
    exact ⟨fun all word token inside among => all token inside word among,
      fun all token inside word among => all word token inside among⟩
  rw [same]
  exact ⟨fun again => returns_of_parseQuery lawful again rfl, parseQuery_serializeQuery lawful long⟩

/-- A runtime that knows one day and one zone. -/
def seoulRuntime : Runtime where
  dateParse raw := if raw = "2026-09-27".toList then some 1790467200000 else none
  resolvedTimeZone name :=
    if name.map Char.toLower = "asia/seoul".toList then some "Asia/Seoul".toList else none

theorem seoulRuntime_canonical : seoulRuntime.Canonical := by
  intro zone name _ resolved
  simp only [seoulRuntime] at resolved
  split at resolved
  · cases resolved
    exact ⟨by decide, by decide⟩
  · cases resolved

theorem roundTrip_zoned :
    let ast : QueryAst :=
      ⟨[.temporal .merged false "2026-09-27".toList "2026-09-27".toList (some "Asia/Seoul".toList)],
        some "fix: it -x".toList⟩
    parseQuery seoulRuntime (serializeQuery ast) = .ok ast := by
  have accepted : parseQuery seoulRuntime
      "merged:2026-09-27..2026-09-27@asia/seoul \"fix: it\" -x".toList = .ok _ := rfl
  apply (roundTrip_iff seoulRuntime_canonical accepted).mpr
  intro tokens run
  cases run
  decide

/-- A quoted word that begins with a minus sign and a key is written without its quotation marks. -/
theorem quotedMinus_not_restored :
    ¬ ∀ runtime : Runtime, runtime.Canonical → ∀ input ast, parseQuery runtime input = .ok ast →
      parseQuery runtime (serializeQuery ast) = .ok ast := by
  intro all
  have same := all seoulRuntime seoulRuntime_canonical "\"-is:open\"".toList
    ⟨[], some "-is:open".toList⟩ rfl
  have other : parseQuery seoulRuntime (serializeQuery ⟨[], some "-is:open".toList⟩) =
      .ok ⟨[.equality .is true ["open".toList]], none⟩ := rfl
  rw [other] at same
  cases same

end PrSearch.Query
