import Mathlib.Data.List.TakeWhile
import PrSearch.Query.Parse

/-! # Where tokens and errors stand

Offsets count UTF-16 code units. The tokens of a query lie in it one after the other, with spaces and
single minus signs around them, and an error gives the place of the token that it blames. Only the error
about a text that is too short reckons its end from the text, and not from the token.
-/
namespace PrSearch.Query

/-! ### Slices -/

/-- The code units of a character. -/
def unitsOfChar (c : Char) : List UInt16 :=
  if c.toNat < 0x10000 then [UInt16.ofNat c.toNat]
  else
    [UInt16.ofNat (0xD800 + (c.toNat - 0x10000) / 0x400),
      UInt16.ofNat (0xDC00 + (c.toNat - 0x10000) % 0x400)]

def codeUnits (text : Text) : List UInt16 := text.flatMap unitsOfChar

/-- `input.slice(start, stop)` -/
def slice (input : Text) (start stop : Nat) : List UInt16 :=
  ((codeUnits input).drop start).take (stop - start)

section Slice

variable {c : Char} {text front back : Text}

@[simp] theorem units_append (front back : Text) : units (front ++ back) = units front + units back := by
  simp [units]

theorem units_cons_pos (c : Char) (text : Text) : 0 < units (c :: text) := by
  simp only [units, List.map_cons, List.sum_cons]
  split <;> omega

theorem length_codeUnits (text : Text) : (codeUnits text).length = units text := by
  induction text with
  | nil => rfl
  | cons c text ih =>
    have one : (unitsOfChar c).length = if c.toNat < 0x10000 then 1 else 2 := by
      unfold unitsOfChar
      split <;> rfl
    rw [codeUnits, List.flatMap_cons, List.length_append, ← codeUnits, ih, one]
    simp [units]

theorem codeUnits_append (front back : Text) : codeUnits (front ++ back) = codeUnits front ++ codeUnits back :=
  List.flatMap_append

theorem slice_append (front text back : Text) :
    slice (front ++ (text ++ back)) (units front) (units front + units text) = codeUnits text := by
  rw [slice, codeUnits_append, ← length_codeUnits front, List.drop_left, codeUnits_append,
    Nat.add_sub_cancel_left, ← length_codeUnits text, List.take_left]

/-- The first unit of a character tells it from one of the basic plane. -/
theorem head?_unitsOfChar {mark : Char} (basic : mark.toNat < 0xD800)
    (same : (unitsOfChar c).head? = (unitsOfChar mark).head?) : c = mark := by
  have small : mark.toNat < 0x10000 := by omega
  simp only [unitsOfChar, small, if_true, List.head?_cons] at same
  split at same
  next low =>
    have same := congrArg UInt16.toNat (Option.some.inj same)
    rw [UInt16.toNat_ofNat', UInt16.toNat_ofNat', Nat.mod_eq_of_lt (by omega),
      Nat.mod_eq_of_lt (by omega)] at same
    exact Char.toNat_inj.mp same
  next high =>
    have bound : c.toNat < 0xD800 ∨ 0xDFFF < c.toNat ∧ c.toNat < 0x110000 := c.valid
    have same := congrArg UInt16.toNat (Option.some.inj same)
    rw [UInt16.toNat_ofNat', UInt16.toNat_ofNat', Nat.mod_eq_of_lt (by omega),
      Nat.mod_eq_of_lt (by omega)] at same
    omega

end Slice

variable {rest : Text} {part : Part} {before : Parsed}

/-! ### Tokens -/

section Read

variable {negated : Bool} {key : Option Text} {input next : Text} {content : Content}

theorem readValue_suffix (read : readValue negated key input = some (content, next)) : next <:+ input := by
  unfold readValue at read
  split at read
  · obtain ⟨⟨value, after⟩, found, same⟩ := Option.map_eq_some_iff.mp read
    cases same
    obtain ⟨inner, rfl⟩ := readQuoted_eq found
    exact ⟨'"' :: inner ++ ['"'], by simp⟩
  · cases read
    exact List.dropWhile_suffix _

theorem readBody_suffix (read : readBody negated input = some (content, next)) : next <:+ input := by
  unfold readBody at read
  split at read
  next key after found =>
    obtain ⟨rfl, -⟩ := readKey_eq found
    exact (readValue_suffix read).trans ⟨key ++ [':'], by simp⟩
  · exact readValue_suffix read

theorem readToken_suffix (read : readToken input = some (content, next)) : next <:+ input := by
  unfold readToken at read
  split at read
  · exact (readBody_suffix read).trans (List.suffix_cons ..)
  · exact readBody_suffix read

/-- What a token without a key begins with, or is. -/
def Begins (content : Content) (input next : Text) : Prop :=
  (content.quoted = true → ∃ rest, input = '"' :: rest) ∧
    (content.quoted = false → input = content.value ++ next ∧
      ∀ c ∈ next.head?, isSpace c = true)

theorem readValue_begins (read : readValue negated key input = some (content, next)) :
    content.negated = negated ∧ content.key = key ∧ Begins content input next := by
  unfold readValue at read
  split at read
  next rest =>
    obtain ⟨⟨value, after⟩, found, same⟩ := Option.map_eq_some_iff.mp read
    cases same
    exact ⟨rfl, rfl, ⟨fun _ => ⟨rest, rfl⟩, fun bare => absurd bare.symm Bool.false_ne_true⟩⟩
  next =>
    cases read
    refine ⟨rfl, rfl, ⟨fun quoted => absurd quoted Bool.false_ne_true,
      fun _ => ⟨List.takeWhile_append_dropWhile.symm, fun c first => ?_⟩⟩⟩
    have stops := List.head?_dropWhile_not (fun c => !isSpace c) input
    rw [Option.mem_def.mp first] at stops
    simpa using stops

theorem readBody_begins (read : readBody negated input = some (content, next)) :
    content.negated = negated ∧ (content.key = none → Begins content input next) := by
  unfold readBody at read
  split at read
  · obtain ⟨isNegated, isKey, -⟩ := readValue_begins read
    exact ⟨isNegated, fun never => by rw [isKey] at never; cases never⟩
  · obtain ⟨isNegated, -, begins⟩ := readValue_begins read
    exact ⟨isNegated, fun _ => begins⟩

/-- A negated token begins with its sign. -/
theorem readToken_begins (read : readToken input = some (content, next)) :
    (content.negated = true → ∃ body, input = '-' :: body ∧
      (content.key = none → Begins content body next)) ∧
    (content.negated = false → content.key = none → Begins content input next) := by
  unfold readToken at read
  split at read
  next body =>
    obtain ⟨isNegated, begins⟩ := readBody_begins read
    exact ⟨fun _ => ⟨body, rfl, begins⟩,
      fun plain => absurd (isNegated.symm.trans plain).symm Bool.false_ne_true⟩
  next =>
    obtain ⟨isNegated, begins⟩ := readBody_begins read
    exact ⟨fun is => absurd (isNegated.symm.trans is) Bool.false_ne_true, fun _ => begins⟩

/-- What makes no token is a single minus sign. -/
theorem dropped_eq {c : Char} (read : readToken (c :: rest) = some (content, next))
    (visible : isSpace c = false) (dropped : ¬ content.Kept) :
    c = '-' ∧ rest = next ∧ ∀ d ∈ next.head?, isSpace d = true := by
  simp only [Content.Kept, not_or, ne_eq, not_not, Bool.not_eq_true, Option.isSome_eq_false_iff,
    Option.isNone_iff_eq_none] at dropped
  obtain ⟨empty, bare, noKey⟩ := dropped
  obtain ⟨negated, plain⟩ := readToken_begins read
  cases sign : content.negated with
  | true =>
    obtain ⟨body, is, begins⟩ := negated sign
    obtain ⟨whole, stops⟩ := (begins noKey).2 bare
    cases is
    rw [empty] at whole
    exact ⟨rfl, whole, stops⟩
  | false =>
    obtain ⟨whole, stops⟩ := (plain sign noKey).2 bare
    rw [empty, List.nil_append] at whole
    have space := stops c (by rw [← whole]; rfl)
    rw [visible] at space
    cases space

end Read

/-- The query from an offset on is these tokens at their places, with spaces and single minus signs
around them. -/
inductive Lies : Nat → Text → List RawToken → Prop
  | done {start : Nat} {spaces : Text} (blank : ∀ c ∈ spaces, isSpace c = true) : Lies start spaces []
  | token {start : Nat} {spaces rest : Text} {token : RawToken} {tokens : List RawToken}
      (blank : ∀ c ∈ spaces, isSpace c = true) (starts : token.start = start + units spaces)
      (stops : token.stop = token.start + units token.raw)
      (read : readToken (token.raw ++ rest) = some (token.content, rest)) (kept : token.content.Kept)
      (nonempty : token.raw ≠ []) (later : Lies token.stop rest tokens) :
      Lies start (spaces ++ (token.raw ++ rest)) (token :: tokens)
  | dash {start : Nat} {spaces rest : Text} {tokens : List RawToken}
      (blank : ∀ c ∈ spaces, isSpace c = true) (lone : ∀ d ∈ rest.head?, isSpace d = true)
      (later : Lies (start + units spaces + 1) rest tokens) :
      Lies start (spaces ++ '-' :: rest) tokens

/-- An error gives the place of what it blames. -/
structure Located (input : Text) (e : QueryParseError) : Prop where
  ordered : e.detail.offsetStart ≤ e.detail.offsetEnd
  inside : e.detail.offsetEnd ≤ units input
  same : slice input e.detail.offsetStart e.detail.offsetEnd = codeUnits e.detail.token

theorem located_of_eq (back : Text) {front token : Text} {e : QueryParseError} (is : e.detail.token = token)
    (start : e.detail.offsetStart = units front)
    (stop : e.detail.offsetEnd = units front + units token) : Located (front ++ (token ++ back)) e := by
  refine ⟨by omega, by simp only [units_append]; omega, ?_⟩
  rw [start, stop, is, slice_append]

theorem map_error_iff {ε α β : Type} {f : α → β} {x : Except ε α} {e : ε} :
    x.map f = .error e ↔ x = .error e := by
  cases x <;> simp [Except.map]

theorem blank_takeWhile (input : Text) : ∀ c ∈ input.takeWhile isSpace, isSpace c = true :=
  fun _ inside => List.mem_takeWhile_imp inside

/-- One turn, from the spaces in front of a token. -/
theorem Lies.turn {start : Nat} {spaces next : Text} {c : Char} {content : Content}
    {tokens : List RawToken} (blank : ∀ c ∈ spaces, isSpace c = true) (visible : isSpace c = false)
    (read : readToken (c :: rest) = some (content, next))
    (later : Lies (RawToken.of (start + units spaces) (c :: rest) next content).stop next tokens) :
    Lies start (spaces ++ c :: rest) (if content.Kept then
      RawToken.of (start + units spaces) (c :: rest) next content :: tokens else tokens) := by
  obtain ⟨raw, whole⟩ := readToken_suffix read
  have isRaw : (RawToken.of (start + units spaces) (c :: rest) next content).raw = raw := by
    rw [RawToken.of, ← whole, List.length_append, Nat.add_sub_cancel, List.take_left]
  have nonempty : raw ≠ [] := by
    rintro rfl
    have shorter := readToken_length read visible
    rw [← whole] at shorter
    exact absurd shorter (Nat.lt_irrefl _)
  split
  next kept =>
    have entire : (RawToken.of (start + units spaces) (c :: rest) next content).raw ++ next = c :: rest := by
      rw [isRaw, whole]
    have lies := Lies.token blank rfl rfl (by rw [entire]; exact read) kept (by rw [isRaw]; exact nonempty)
      later
    rw [entire] at lies
    exact lies
  next dropped =>
    obtain ⟨rfl, rfl, lone⟩ := dropped_eq read visible dropped
    refine .dash blank lone ?_
    have one : raw = ['-'] := List.append_cancel_right whole
    have stop : (RawToken.of (start + units spaces) ('-' :: rest) rest content).stop =
        start + units spaces + units raw := by rw [← isRaw]; rfl
    rw [stop, one] at later
    exact later

/-- What the tokenizer finds lies in what it is given; where it fails, the error is about the rest from a
token on. -/
theorem tokenizeFrom_lies {fuel start : Nat} {input : Text} (enough : (skipSpace input).length ≤ fuel) :
    (∀ tokens, tokenizeFrom fuel (start + units (input.takeWhile isSpace)) (skipSpace input) = .ok tokens →
      Lies start input tokens) ∧
    ∀ e, tokenizeFrom fuel (start + units (input.takeWhile isSpace)) (skipSpace input) = .error e →
      ∃ front, input = front ++ e.detail.token ∧ e.detail.offsetStart = start + units front ∧
        e.detail.offsetEnd = start + units input := by
  induction fuel generalizing start input with
  | zero =>
    have empty : skipSpace input = [] := List.eq_nil_of_length_eq_zero (Nat.le_zero.mp enough)
    rw [empty]
    refine ⟨fun tokens run => ?_, fun e run => by cases run⟩
    cases run
    exact .done (List.dropWhile_eq_nil_iff.mp empty)
  | succ fuel ih =>
    have whole : input.takeWhile isSpace ++ skipSpace input = input := List.takeWhile_append_dropWhile
    have blank := blank_takeWhile input
    generalize input.takeWhile isSpace = spaces at *
    cases found : skipSpace input with
    | nil =>
      refine ⟨fun tokens run => ?_, fun e run => by cases run⟩
      cases run
      exact .done (List.dropWhile_eq_nil_iff.mp found)
    | cons c rest =>
      rw [found] at whole enough
      have visible := visible_of_skipSpace found
      rw [tokenizeFrom]
      cases read : readToken (c :: rest) with
      | none =>
        refine ⟨fun tokens run => (by cases run), fun e run => ?_⟩
        cases run
        refine ⟨spaces, whole.symm, rfl, ?_⟩
        simp only [syntaxError, ← whole, units_append]
        omega
      | some answer =>
        obtain ⟨content, next⟩ := answer
        have left : (skipSpace next).length ≤ fuel := by
          have shorter := readToken_length read visible
          have skipped := skipSpace_length next
          omega
        obtain ⟨fine, fails⟩ :=
          @ih (RawToken.of (start + units spaces) (c :: rest) next content).stop next left
        simp only
        constructor
        · intro tokens run
          obtain ⟨later, behind, rfl⟩ := map_ok_iff.mp run
          rw [← whole]
          exact Lies.turn blank visible read (fine later behind)
        · intro e run
          obtain ⟨front, is, starts, stops⟩ := fails e (map_error_iff.mp run)
          obtain ⟨raw, entire⟩ := readToken_suffix read
          have isRaw : (RawToken.of (start + units spaces) (c :: rest) next content).stop =
              start + units spaces + units raw := by
            rw [← entire, RawToken.of, List.length_append, Nat.add_sub_cancel, List.take_left]
          refine ⟨spaces ++ raw ++ front, ?_, ?_, ?_⟩
          · rw [← whole, ← entire, is]
            simp
          · rw [starts, isRaw]
            simp only [units_append]
            omega
          · rw [stops, isRaw, ← whole, ← entire]
            simp only [units_append]
            omega

theorem tokenize_lies (input : Text) :
    (∀ tokens, tokenize input = .ok tokens → Lies 0 input tokens) ∧
      ∀ e, tokenize input = .error e → Located input e := by
  have both := @tokenizeFrom_lies _ 0 input (skipSpace_length input)
  rw [Nat.zero_add] at both
  refine ⟨both.1, fun e failed => ?_⟩
  obtain ⟨front, is, starts, stops⟩ := both.2 e failed
  rw [Nat.zero_add] at starts stops
  have located : Located (front ++ (e.detail.token ++ [])) e :=
    located_of_eq [] rfl starts (by rw [stops, ← units_append, ← is])
  rwa [List.append_nil, ← is] at located

section Lies

variable {start : Nat} {input : Text} {tokens : List RawToken}

/-- Each token stands at its place. -/
theorem Lies.place (lies : Lies start input tokens) {token : RawToken} (inside : token ∈ tokens) :
    ∃ front back, input = front ++ (token.raw ++ back) ∧ token.start = start + units front ∧
      token.stop = token.start + units token.raw ∧ token.content.Kept ∧ token.raw ≠ [] ∧
        readToken (token.raw ++ back) = some (token.content, back) := by
  induction lies with
  | done => cases inside
  | @token start spaces rest first tokens blank starts stops read kept nonempty later ih =>
    rcases List.mem_cons.mp inside with rfl | behind
    · exact ⟨spaces, rest, rfl, starts, stops, kept, nonempty, read⟩
    · obtain ⟨front, back, rfl, place, others⟩ := ih behind
      refine ⟨spaces ++ (first.raw ++ front), back, by simp, ?_, others⟩
      rw [place, stops, starts]
      simp only [units_append]
      omega
  | @dash start spaces rest tokens blank lone later ih =>
    obtain ⟨front, back, rfl, place, others⟩ := ih inside
    refine ⟨spaces ++ '-' :: front, back, by simp, ?_, others⟩
    have one : units ('-' :: front) = 1 + units front := units_append ['-'] front
    rw [place, units_append, one]
    omega

theorem Lies.start_le (lies : Lies start input tokens) {token : RawToken} (inside : token ∈ tokens) :
    start ≤ token.start := by
  obtain ⟨front, _, _, place, _⟩ := lies.place inside
  omega

/-- The tokens are in order and do not overlap. -/
theorem Lies.ordered (lies : Lies start input tokens) :
    tokens.Pairwise fun first last => first.stop ≤ last.start := by
  induction lies with
  | done => exact .nil
  | token _ _ _ _ _ _ later ih => exact List.pairwise_cons.mpr ⟨fun _ inside => later.start_le inside, ih⟩
  | dash _ _ _ ih => exact ih

/-- A character of one text before another stands in the first or in the second. -/
theorem split_append {front back first last : Text} {c : Char} (same : front ++ c :: back = first ++ last) :
    (∃ behind, first = front ++ c :: behind ∧ back = behind ++ last) ∨
      ∃ before, front = first ++ before ∧ last = before ++ c :: back := by
  rcases List.append_eq_append_iff.mp same with ⟨rest, rfl, is⟩ | ⟨rest, rfl, rfl⟩
  · cases rest with
    | nil => exact .inr ⟨[], by simp, by simpa using is.symm⟩
    | cons d behind =>
      rw [List.cons_append] at is
      cases is
      exact .inl ⟨behind, rfl, rfl⟩
  · exact .inr ⟨rest, rfl, rfl⟩

/-- What is no space and in no token is a single minus sign. -/
theorem Lies.outside (lies : Lies start input tokens) {front back : Text} {c : Char}
    (is : input = front ++ c :: back) (visible : isSpace c = false)
    (outside : ∀ token ∈ tokens,
      start + units front < token.start ∨ token.stop ≤ start + units front) :
    c = '-' ∧ ∀ d ∈ back.head?, isSpace d = true := by
  have notSpace : ∀ {spaces : Text}, (∀ c ∈ spaces, isSpace c = true) → c ∉ spaces := by
    intro spaces blank inside
    rw [blank c inside] at visible
    cases visible
  induction lies generalizing front with
  | @done start spaces blank => exact absurd (by simp [is]) (notSpace blank)
  | @token start spaces rest first tokens blank starts stops read kept nonempty later ih =>
    rcases split_append is.symm with ⟨behind, rfl, -⟩ | ⟨before, rfl, isRest⟩
    · exact absurd (by simp) (notSpace blank)
    · rcases split_append isRest.symm with ⟨behind, isRaw, -⟩ | ⟨beyond, rfl, isLater⟩
      · have here := outside first List.mem_cons_self
        have positive := units_cons_pos c behind
        rw [isRaw] at stops
        simp only [units_append] at here stops
        omega
      · refine ih isLater fun token inside => ?_
        have there := outside token (List.mem_cons_of_mem _ inside)
        simp only [units_append] at there
        omega
  | @dash start spaces rest tokens blank lone later ih =>
    rcases split_append is.symm with ⟨behind, rfl, -⟩ | ⟨before, rfl, isRest⟩
    · exact absurd (by simp) (notSpace blank)
    · cases before with
      | nil =>
        cases isRest
        exact ⟨rfl, lone⟩
      | cons d before =>
        cases isRest
        refine ih rfl fun token inside => ?_
        have there := outside token inside
        have one : units ('-' :: before) = 1 + units before := units_append ['-'] before
        rw [units_append, one] at there
        omega

end Lies

/-- The tokens of a query, as it is written. -/
structure Placed (input : Text) (tokens : List RawToken) : Prop where
  ordered : tokens.Pairwise fun first last => first.stop ≤ last.start
  same : ∀ token ∈ tokens, token.start ≤ token.stop ∧ token.stop ≤ units input ∧
    slice input token.start token.stop = codeUnits token.raw
  outside : ∀ front c back, input = front ++ c :: back → isSpace c = false →
    (∀ token ∈ tokens, units front < token.start ∨ token.stop ≤ units front) →
      c = '-' ∧ ∀ d ∈ back.head?, isSpace d = true

theorem Lies.placed {input : Text} {tokens : List RawToken} (lies : Lies 0 input tokens) :
    Placed input tokens := by
  refine ⟨lies.ordered, fun token inside => ?_, fun front c back is visible outside => ?_⟩
  · obtain ⟨front, back, rfl, starts, stops, -⟩ := lies.place inside
    rw [Nat.zero_add] at starts
    refine ⟨by omega, by simp only [units_append]; omega, ?_⟩
    rw [stops, starts, slice_append]
  · exact lies.outside is visible (by simpa using outside)

/-! ### What is blamed -/

/-- The error shows the token and the offsets that it is given. -/
def Shows (blame : Blame) : Prop :=
  ∀ token start stop, (blame token start stop).detail.token = token ∧
    (blame token start stop).detail.offsetStart = start ∧
      (blame token start stop).detail.offsetEnd = stop

def Blames {α : Type} (x : Except Blame α) : Prop := ∀ blame, x = .error blame → Shows blame

section Blame

variable {α β : Type} {x : Except Blame α} {f : α → Except Blame β}

@[simp] theorem shows_syntaxError (message : Text) : Shows (syntaxError message) :=
  fun _ _ _ => ⟨rfl, rfl, rfl⟩

@[simp] theorem blames_ok (a : α) : Blames (.ok a : Except Blame α) := nofun

@[simp] theorem blames_error {blame : Blame} : Blames (.error blame : Except Blame α) ↔ Shows blame := by
  simp [Blames]

theorem Blames.bind (first : Blames x) (rest : ∀ a, Blames (f a)) : Blames (x.bind f) := by
  cases x with
  | error blame => exact blames_error.mpr (blames_error.mp first)
  | ok a => exact rest a

theorem Blames.map {g : α → β} (first : Blames x) : Blames (x.map g) := by
  cases x with
  | error blame => exact blames_error.mpr (blames_error.mp first)
  | ok a => exact blames_ok (g a)

end Blame

section Blame

variable (runtime : Runtime)

theorem parseNumericBound_blames (raw : Text) : Blames (parseNumericBound raw) := by
  unfold parseNumericBound
  split
  · simp
  · split <;> simp

theorem checkTemporalBound_blames (raw : Text) : Blames (checkTemporalBound runtime raw) := by
  unfold checkTemporalBound
  split
  · simp
  · split <;> simp

theorem splitTimeZone_blames (lower upper value : Text) :
    Blames (splitTimeZone runtime lower upper value) := by
  unfold splitTimeZone
  split
  · simp
  · split
    · simp
    · simp only
      split
      · simp
      · split
        · simp
        · refine (checkTemporalBound_blames runtime lower).bind fun _ =>
            (checkTemporalBound_blames runtime _).bind fun _ => ?_
          split
          · simp
          · split <;> simp

theorem toNumericFilter_blames (key : NumericRangeKey) (content : Content) (lower upper : Text) :
    Blames (toNumericFilter key content lower upper) := by
  refine (parseNumericBound_blames lower).bind fun low => (parseNumericBound_blames upper).bind fun high => ?_
  split
  · simp
  · split <;> simp

theorem toTemporalFilter_blames (key : TemporalRangeKey) (content : Content) (lower upper : Text) :
    Blames (toTemporalFilter runtime key content lower upper) := by
  refine (splitTimeZone_blames runtime lower upper content.value).bind fun zoned => ?_
  split
  · simp
  · refine (checkTemporalBound_blames runtime lower).bind fun low =>
      (checkTemporalBound_blames runtime upper).bind fun high => ?_
    split <;> simp

theorem toScalar_blames (key : QueryKey) (content : Content) : Blames (toScalar key content) := by
  have only : Shows (rangeOnlyKey key) := fun _ _ _ => ⟨rfl, rfl, rfl⟩
  unfold toScalar
  split
  · simp
  · split
    · refine Blames.map ?_
      unfold checkEnumeratedValue
      split
      · simp
      · split
        · simp
        · exact blames_error.mpr fun _ _ _ => ⟨rfl, rfl, rfl⟩
    · split
      · refine Blames.map ((parseNumericBound_blames content.value).bind fun value => ?_)
        split <;> simp
      · exact blames_error.mpr only
    · exact blames_error.mpr only

theorem withBounds_blames {content : Content} {make : Text → Text → Except Blame QueryFilter}
    (fine : ∀ lower upper, Blames (make lower upper)) : ∀ x ∈ withBounds content make, Blames x := by
  intro x is
  obtain ⟨⟨lower, upper⟩, -, rfl⟩ := Option.map_eq_some_iff.mp is
  simp only
  split
  · simp
  · exact fine lower upper

theorem toRange_blames (key : QueryKey) (content : Content) :
    ∀ x ∈ toRange runtime key content, Blames x := by
  unfold toRange
  split
  · nofun
  · split
    · nofun
    · exact withBounds_blames (toNumericFilter_blames _ content)
    · exact withBounds_blames (toTemporalFilter_blames runtime _ content)

/-- One case for each branch of the parser. -/
theorem parseContent_blames (content : Content) : Blames (parseContent runtime content) := by
  unfold parseContent
  split
  · simp
  next name _ =>
    split
    · exact blames_error.mpr fun _ _ _ => ⟨rfl, rfl, rfl⟩
    next key _ =>
      split
      next filter is => exact (toRange_blames runtime key content filter is).map
      · exact toScalar_blames key content

/-! ### The text -/

/-- The word of a token without a key. -/
def Content.word (content : Content) : Text :=
  if content.negated then '-' :: content.value else content.value

def keyless (tokens : List RawToken) : List RawToken :=
  tokens.filter fun token => token.content.key.isNone

theorem toScalar_words {key : QueryKey} {content : Content}
    (parsed : toScalar key content = .ok part) : part.words = [] := by
  unfold toScalar at parsed
  split at parsed
  · cases parsed
  · split at parsed
    · obtain ⟨_, -, rfl⟩ := map_ok_iff.mp parsed
      rfl
    · split at parsed
      · obtain ⟨_, -, rfl⟩ := map_ok_iff.mp parsed
        rfl
      · cases parsed
    · cases parsed

/-- Only a token without a key is a word. -/
theorem parseContent_words {content : Content} (parsed : parseContent runtime content = .ok part) :
    part.words = if content.key.isNone then [content.word] else [] := by
  unfold parseContent at parsed
  split at parsed
  next noKey =>
    cases parsed
    simp [noKey, Part.words, Content.word]
  next name isKey =>
    rw [isKey]
    split at parsed
    · cases parsed
    · split at parsed
      · obtain ⟨_, -, rfl⟩ := map_ok_iff.mp parsed
        rfl
      · exact toScalar_words parsed

/-- All tokens say something. -/
def Accepted (tokens : List RawToken) : Prop :=
  ∀ token ∈ tokens, ∃ part, parseContent runtime token.content = .ok part

/-- The words of accepted tokens, and where the first of them stands. -/
theorem parseTokens_ok {tokens : List RawToken} {after : Parsed}
    (parsed : parseTokens runtime before tokens = .ok after) :
    Accepted runtime tokens ∧
      after.textTerms = before.textTerms ++ (keyless tokens).map (Content.word ∘ RawToken.content) ∧
      after.firstTextStart = before.firstTextStart.or ((keyless tokens).head?.map RawToken.start) := by
  induction tokens generalizing before with
  | nil =>
    cases parsed
    exact ⟨nofun, by simp [keyless], by simp [keyless]⟩
  | cons token tokens ih =>
    rw [parseTokens] at parsed
    cases said : parseContent runtime token.content with
    | error blame => rw [said] at parsed; cases parsed
    | ok part =>
      rw [said] at parsed
      obtain ⟨accepted, terms, first⟩ := ih parsed
      have words := parseContent_words runtime said
      refine ⟨List.forall_mem_cons.mpr ⟨⟨part, said⟩, accepted⟩, ?_, ?_⟩
      · rw [terms]
        cases key : token.content.key <;> simp [Parsed.add, words, key, keyless]
      · rw [first]
        cases key : token.content.key <;> simp [Parsed.add, words, key, keyless]

/-- Without an error about a token there is none. -/
theorem parseTokens_accepted {tokens : List RawToken} (accepted : Accepted runtime tokens) (before : Parsed) :
    ∃ after, parseTokens runtime before tokens = .ok after := by
  induction tokens generalizing before with
  | nil => exact ⟨before, rfl⟩
  | cons token tokens ih =>
    obtain ⟨⟨part, said⟩, others⟩ := List.forall_mem_cons.mp accepted
    obtain ⟨after, parsed⟩ := ih others (before.add token.start part)
    exact ⟨after, by rw [parseTokens, said]; exact parsed⟩

/-- An error about a token stands where the token does. -/
theorem parseTokens_error {tokens : List RawToken} {e : QueryParseError}
    (failed : parseTokens runtime before tokens = .error e) :
    ∃ token ∈ tokens, e.detail.token = token.raw ∧ e.detail.offsetStart = token.start ∧
      e.detail.offsetEnd = token.stop := by
  induction tokens generalizing before with
  | nil => cases failed
  | cons token tokens ih =>
    rw [parseTokens] at failed
    cases said : parseContent runtime token.content with
    | error blame =>
      rw [said] at failed
      cases failed
      exact ⟨token, List.mem_cons_self, parseContent_blames runtime _ blame said ..⟩
    | ok part =>
      rw [said] at failed
      obtain ⟨other, inside, shown⟩ := ih failed
      exact ⟨other, List.mem_cons_of_mem _ inside, shown⟩

end Blame

/-- The text is one quoted character that is no quotation mark, or two empty words in quotation marks. -/
def Misplaced : List Content → Prop
  | [content] => content.negated = false ∧ content.quoted = true ∧ ∃ c, content.value = [c] ∧ c ≠ '"'
  | [first, last] => first.word = [] ∧ last.word = []
  | _ => False

/-- Such a text is too short. -/
theorem Misplaced.short {contents : List Content} (misplaced : Misplaced contents) :
    ∃ text, joinWords (contents.map Content.word) = some text ∧ text.length < 2 := by
  match contents with
  | [] => exact misplaced.elim
  | [content] =>
    obtain ⟨plain, -, c, value, -⟩ := misplaced
    exact ⟨[c], by simp [joinWords, Content.word, plain, value], by simp⟩
  | [first, last] => exact ⟨[' '], by simp [joinWords, misplaced.1, misplaced.2, List.intercalate], by simp⟩
  | _ :: _ :: _ :: _ => exact misplaced.elim

section Text

variable {input front back : Text} {token : RawToken} {e : QueryParseError}

/-- A slice from a quotation mark on begins with it. -/
theorem quote_of_same {c : Char}
    (same : slice (front ++ '"' :: rest) (units front) (units front + units [c]) = codeUnits [c]) :
    c = '"' := by
  have some_ : 0 < units [c] := units_cons_pos c []
  rw [slice, codeUnits_append, ← length_codeUnits front, List.drop_left, Nat.add_sub_cancel_left] at same
  have first := congrArg List.head? same
  have quote : codeUnits ('"' :: rest) = 0x22 :: codeUnits rest := rfl
  have single : codeUnits [c] = unitsOfChar c := List.append_nil _
  rw [quote, List.head?_take, if_neg (by omega), single, List.head?_cons] at first
  exact head?_unitsOfChar (by decide) first.symm

/-- One word of at most one character: the error stands where its token does, unless the word is in
quotation marks. -/
theorem located_single (read : readToken (token.raw ++ back) = some (token.content, back))
    (nonempty : token.raw ≠ []) (noKey : token.content.key = none)
    (short : token.content.word.length < 2) (is : e.detail.token = token.content.word)
    (starts : e.detail.offsetStart = units front)
    (stops : e.detail.offsetEnd = units front + units token.content.word) :
    Located (front ++ (token.raw ++ back)) e ↔ ¬ Misplaced [token.content] := by
  obtain ⟨c, raw, isRaw⟩ := List.exists_cons_of_ne_nil nonempty
  obtain ⟨negated, plain⟩ := readToken_begins read
  cases sign : token.content.negated with
  | true =>
    obtain ⟨body, whole, -⟩ := negated sign
    have word : token.content.word = '-' :: token.content.value := by simp [Content.word, sign]
    have empty : token.content.value = [] := by
      rw [word] at short
      exact List.eq_nil_of_length_eq_zero (by simp only [List.length_cons] at short; omega)
    rw [isRaw] at whole ⊢
    cases whole
    have located := located_of_eq (raw ++ back) is starts stops
    rw [word, empty] at located
    exact iff_of_true located (by simp [Misplaced, sign])
  | false =>
    have begins := plain sign noKey
    have word : token.content.word = token.content.value := by simp [Content.word, sign]
    cases quoted : token.content.quoted with
    | false =>
      have same : token.raw = token.content.value := List.append_cancel_right (begins.2 quoted).1
      have located := located_of_eq back is starts stops
      rw [word, ← same] at located
      exact iff_of_true located (by simp [Misplaced, quoted])
    | true =>
      obtain ⟨rest, whole⟩ := begins.1 quoted
      rw [isRaw] at whole ⊢
      cases whole
      rw [word] at short is stops
      cases value : token.content.value with
      | nil =>
        rw [value] at is stops
        have located := located_of_eq ('"' :: raw ++ back) is starts stops
        exact iff_of_true located (by simp [Misplaced, value])
      | cons d more =>
        rw [value] at short is stops
        obtain rfl : more = [] := List.eq_nil_of_length_eq_zero (by
          simp only [List.length_cons] at short; omega)
        by_cases mark : d = '"'
        · subst mark
          have located := located_of_eq (raw ++ back) is starts stops
          exact iff_of_true located (by simp [Misplaced, value])
        · refine iff_of_false (fun located => mark ?_) (not_not.mpr ⟨sign, quoted, d, value, mark⟩)
          have same := located.same
          rw [starts, stops, is] at same
          exact quote_of_same same

/-- An empty word begins with a quotation mark. -/
theorem quote_of_empty {next : Text} (read : readToken (token.raw ++ next) = some (token.content, next))
    (kept : token.content.Kept) (nonempty : token.raw ≠ []) (noKey : token.content.key = none)
    (empty : token.content.word = []) : ∃ rest, token.raw = '"' :: rest := by
  have sign : token.content.negated = false := by
    cases negated : token.content.negated with
    | true => simp [Content.word, negated] at empty
    | false => rfl
  have value : token.content.value = [] := by simpa [Content.word, sign] using empty
  have quoted : token.content.quoted = true := by simpa [Content.Kept, value, noKey] using kept
  obtain ⟨rest, whole⟩ := ((readToken_begins read).2 sign noKey).1 quoted
  obtain ⟨c, raw, isRaw⟩ := List.exists_cons_of_ne_nil nonempty
  rw [isRaw] at whole ⊢
  cases whole
  exact ⟨raw, rfl⟩

/-- The error about the text stands where it says, unless quotation marks are in between. -/
theorem located_text {tokens : List RawToken} (lies : Lies 0 input tokens) {text : Text}
    (is : joinWords ((keyless tokens).map (Content.word ∘ RawToken.content)) = some text)
    (short : text.length < 2) (shown : e.detail.token = text)
    (starts : e.detail.offsetStart = ((keyless tokens).head?.map RawToken.start).getD 0)
    (stops : e.detail.offsetEnd = e.detail.offsetStart + units text) :
    Located input e ↔ ¬ Misplaced ((keyless tokens).map RawToken.content) := by
  have place : ∀ token ∈ keyless tokens, ∃ front back, input = front ++ (token.raw ++ back) ∧
      token.start = units front ∧ token.content.Kept ∧ token.raw ≠ [] ∧ token.content.key = none ∧
        readToken (token.raw ++ back) = some (token.content, back) := by
    intro token inside
    obtain ⟨member, noKey⟩ := List.mem_filter.mp inside
    obtain ⟨front, back, whole, start, -, kept, nonempty, read⟩ := lies.place member
    exact ⟨front, back, whole, by rw [start, Nat.zero_add], kept, nonempty,
      Option.isNone_iff_eq_none.mp noKey, read⟩
  cases found : keyless tokens with
  | nil => simp [found, joinWords] at is
  | cons first others =>
    rw [found] at place is starts
    obtain ⟨front, back, rfl, start, kept, nonempty, noKey, read⟩ := place first List.mem_cons_self
    have begins : e.detail.offsetStart = units front := starts.trans start
    rw [begins] at stops
    match others with
    | [] =>
      have word : first.content.word = text := by simpa [joinWords] using is
      rw [← word] at short shown stops
      exact located_single read nonempty noKey short shown begins stops
    | [last] =>
      have words : first.content.word ++ ' ' :: last.content.word = text := by
        simpa [joinWords, List.intercalate] using is
      have none_ : first.content.word = [] ∧ last.content.word = [] := by
        rw [← words, List.length_append, List.length_cons] at short
        exact ⟨List.eq_nil_of_length_eq_zero (by omega), List.eq_nil_of_length_eq_zero (by omega)⟩
      refine iff_of_false (fun located => ?_) (not_not.mpr none_)
      obtain ⟨rest, isRaw⟩ := quote_of_empty read kept nonempty noKey none_.1
      have same := located.same
      rw [begins, stops, shown, ← words, none_.1, none_.2, isRaw] at same
      exact absurd (quote_of_same same) (by decide)
    | _ :: _ :: _ =>
      simp only [joinWords, List.map_cons, reduceCtorEq, if_false, Option.some.injEq] at is
      rw [← is, List.intercalate, List.intersperse_cons_cons, List.intersperse_cons_cons] at short
      simp only [List.flatten_cons, List.length_append, List.length_singleton] at short
      omega

end Text

theorem finish_error {parsed : Parsed} {e : QueryParseError} (failed : finish parsed = .error e) :
    ∃ text, joinWords parsed.textTerms = some text ∧ text.length < 2 ∧ e.detail.token = text ∧
      e.detail.offsetStart = parsed.firstTextStart.getD 0 ∧
        e.detail.offsetEnd = e.detail.offsetStart + units text := by
  unfold finish at failed
  split at failed
  · cases failed
  next text is =>
    split at failed
    next short =>
      cases failed
      exact ⟨text, is, short, rfl, rfl, rfl⟩
    · cases failed

/-- The tokens of a query lie in it, and an error says where it stands. -/
structure Truthful (runtime : Runtime) (input : Text) : Prop where
  placed : ∀ tokens, tokenize input = .ok tokens → Placed input tokens
  located : ∀ e, parseQuery runtime input = .error e → Located input e

theorem keyless_content (tokens : List RawToken) :
    (keyless tokens).map RawToken.content =
      (tokens.map RawToken.content).filter fun content => content.key.isNone := by
  rw [keyless, List.filter_map]
  rfl

/-- Offsets are right in every query but one whose tokens all say something and whose text is one quoted
character other than a quotation mark, or two empty words in quotation marks. -/
theorem offsets_truthful_iff (runtime : Runtime) (input : Text) :
    Truthful runtime input ↔
      ¬ ∃ contents, Reads input contents ∧
        (∀ content ∈ contents, ∃ part, parseContent runtime content = .ok part) ∧
          Misplaced (contents.filter fun content => content.key.isNone) := by
  constructor
  · rintro truthful ⟨contents, reads, accepts, misplaced⟩
    obtain ⟨tokens, run, rfl⟩ := tokenize_iff.mpr reads
    have accepted : Accepted runtime tokens := fun token inside =>
      accepts _ (List.mem_map_of_mem inside)
    rw [← keyless_content] at misplaced
    obtain ⟨parsed, told⟩ := parseTokens_accepted runtime accepted ⟨[], [], none⟩
    obtain ⟨-, terms, first⟩ := parseTokens_ok runtime told
    have lies := (tokenize_lies input).1 tokens run
    have failed : ∃ e, finish parsed = .error e := by
      obtain ⟨text, is, short⟩ := misplaced.short
      rw [List.map_map, ← List.nil_append (List.map _ _), ← terms] at is
      simp [finish, is, countCodePoints, minTextLength, short]
    obtain ⟨e, failed⟩ := failed
    have located : Located input e := truthful.located e (by
      rw [parseQuery, run]
      simp only [Except.bind, told, failed])
    obtain ⟨text, is, short, shown, starts, stops⟩ := finish_error failed
    rw [terms, List.nil_append] at is
    rw [first, Option.none_or] at starts
    exact (located_text lies is short shown starts stops).mp located misplaced
  · intro fine
    refine ⟨fun tokens run => ((tokenize_lies input).1 tokens run).placed, fun e failed => ?_⟩
    rw [parseQuery] at failed
    cases run : tokenize input with
    | error unclosed =>
      rw [run] at failed
      cases failed
      exact (tokenize_lies input).2 _ run
    | ok tokens =>
      have lies := (tokenize_lies input).1 tokens run
      simp only [run, Except.bind] at failed
      cases told : parseTokens runtime ⟨[], [], none⟩ tokens with
      | error blamed =>
        rw [told] at failed
        cases failed
        obtain ⟨token, inside, shown, starts, stops⟩ := parseTokens_error runtime told
        obtain ⟨front, back, rfl, place, width, -⟩ := lies.place inside
        exact located_of_eq back shown (by omega) (by omega)
      | ok parsed =>
        rw [told] at failed
        obtain ⟨accepted, terms, first⟩ := parseTokens_ok runtime told
        obtain ⟨text, is, short, shown, starts, stops⟩ := finish_error failed
        rw [terms, List.nil_append] at is
        rw [first, Option.none_or] at starts
        refine (located_text lies is short shown starts stops).mpr fun misplaced => fine ?_
        rw [keyless_content] at misplaced
        exact ⟨_, tokenize_iff.mp ⟨tokens, run, rfl⟩, List.forall_mem_map.mpr accepted, misplaced⟩

/-- The offsets of a quoted letter are those of its quotation mark. -/
theorem quoted_letter_misplaced : ¬ ∀ runtime input, Truthful runtime input := by
  intro always
  have failed : parseQuery ⟨fun _ => none, fun _ => none⟩ "\"a\"".toList = .error
      { code := .queryTooShort
        message := "Search text must contain at least 2 characters".toList
        detail := { token := "a".toList, offsetStart := 0, offsetEnd := 1 } } := by decide
  have located := (always _ _).located _ failed
  exact absurd located.same (by decide)

end PrSearch.Query
