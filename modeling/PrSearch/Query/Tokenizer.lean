import Mathlib.Algebra.Ring.Nat
import PrSearch.Query.Ast

/-! # The tokenizer

A query is a list of `key:value`, `-key:value` and words without a key. A value may be put into
quotation marks, and there `\` takes the next character for itself. A token keeps its place in the
query, for the errors; what it says does not depend on the place. `Reads` states the loop without its
counters.
-/
namespace PrSearch.Query

/-- `\s` of a regular expression -/
def isSpace (c : Char) : Bool :=
  let code := c.toNat
  (9 ≤ code && code ≤ 13) || code == 0x20 || code == 0xA0 || code == 0x1680 ||
    (0x2000 ≤ code && code ≤ 0x200A) || code == 0x2028 || code == 0x2029 || code == 0x202F ||
      code == 0x205F || code == 0x3000 || code == 0xFEFF

variable {c : Char} {input next : Text} {content : Content} {contents : List Content}

-- The visible characters of ASCII are no spaces.
theorem isSpace_of_printable (low : 33 ≤ c.toNat) (high : c.toNat ≤ 126) : isSpace c = false := by
  simp only [isSpace, Bool.or_eq_false_iff, Bool.and_eq_false_iff, decide_eq_false_iff_not,
    beq_eq_false_iff_ne]
  omega

theorem isSpace_of_isAlphanum (is : c.isAlphanum = true) : isSpace c = false := by
  delta Char.isAlphanum Char.isAlpha Char.isUpper Char.isLower Char.isDigit at is
  simp only [Bool.or_eq_true, Bool.and_eq_true, decide_eq_true_eq, UInt32.le_iff_toNat_le, ge_iff_le] at is
  change ((65 ≤ c.toNat ∧ c.toNat ≤ 90) ∨ (97 ≤ c.toNat ∧ c.toNat ≤ 122)) ∨
    (48 ≤ c.toNat ∧ c.toNat ≤ 57) at is
  apply isSpace_of_printable <;> omega

/-- `String.length`: characters beyond the basic plane count twice. -/
def units (text : Text) : Nat := (text.map fun c => if c.toNat < 0x10000 then 1 else 2).sum

/-- `KEY_PATTERN` -/
def keyPattern : Text → Bool
  | [] => false
  | first :: rest => first.isAlpha && rest.all fun c => c.isAlphanum || c == '_'

/-- What a token says. Without a key the value is the word itself. -/
structure Content where
  negated : Bool
  key : Option Text
  value : Text
  quoted : Bool
  deriving DecidableEq, Repr

structure RawToken where
  raw : Text
  start : Nat
  stop : Nat
  content : Content
  deriving DecidableEq, Repr

def skipSpace (input : Text) : Text := input.dropWhile isSpace

/-- The value up to the closing quotation mark, and what follows the mark. -/
def readQuoted : Text → Option (Text × Text)
  | [] => none
  | ['\\'] => none
  | '\\' :: escaped :: rest => (readQuoted rest).map fun (value, next) => (escaped :: value, next)
  | '"' :: rest => some ([], rest)
  | c :: rest => (readQuoted rest).map fun (value, next) => (c :: value, next)

/-- What stands before the next space, and what follows. -/
def readBare (input : Text) : Text × Text :=
  (input.takeWhile fun c => !isSpace c, input.dropWhile fun c => !isSpace c)

/-- The key that ends at the next colon, and what follows the colon. -/
def readKey (input : Text) : Option (Text × Text) :=
  if input.head? = some '"' then none
  else
    match input.dropWhile fun c => c != ':' with
    | [] => none
    | _ :: after =>
        if keyPattern (input.takeWhile fun c => c != ':') then
          some (input.takeWhile fun c => c != ':', after)
        else none

/-- The value that begins here, quoted or bare. -/
def readValue (negated : Bool) (key : Option Text) : Text → Option (Content × Text)
  | '"' :: rest => (readQuoted rest).map fun (value, next) => (⟨negated, key, value, true⟩, next)
  | input => let (value, next) := readBare input; some (⟨negated, key, value, false⟩, next)

/-- The body of a token, after its minus sign. -/
def readBody (negated : Bool) (body : Text) : Option (Content × Text) :=
  match readKey body with
  | some (key, after) => readValue negated (some key) after
  | none => readValue negated none body

/-- One token from its first character on, and what follows it. Without a closing quotation mark
there is none. -/
def readToken : Text → Option (Content × Text)
  | '-' :: body => readBody true body
  | body => readBody false body

/-- A minus sign alone makes no token. -/
def Content.Kept (content : Content) : Prop :=
  content.value ≠ [] ∨ content.quoted = true ∨ content.key.isSome

instance : DecidablePred Content.Kept := fun _ => inferInstanceAs (Decidable (_ ∨ _ ∨ _))

/-- The token at `start` that is read from the input up to `next`. -/
def RawToken.of (start : Nat) (input next : Text) (content : Content) : RawToken :=
  let raw := input.take (input.length - next.length)
  ⟨raw, start, start + units raw, content⟩

/-- The turns of the loop, each from the first character of a token. -/
def tokenizeFrom : Nat → Nat → Text → Except QueryParseError (List RawToken)
  | _, _, [] => .ok []
  | 0, _, _ :: _ => .ok []
  | fuel + 1, start, c :: rest =>
      match readToken (c :: rest) with
      | none =>
          .error (syntaxError "Unclosed quotation mark".toList (c :: rest) start
            (start + units (c :: rest)))
      | some (content, next) =>
          let token := RawToken.of start (c :: rest) next content
          (tokenizeFrom fuel (token.stop + units (next.takeWhile isSpace)) (skipSpace next)).map
            fun tokens => if content.Kept then token :: tokens else tokens

/-- A token takes one character at least, so the loop turns no more often than there are. -/
def tokenize (input : Text) : Except QueryParseError (List RawToken) :=
  tokenizeFrom input.length (units (input.takeWhile isSpace)) (skipSpace input)

/-! ### The loop without its counters -/

/-- These are the tokens of the input, in their order. -/
inductive Reads : Text → List Content → Prop
  | done {input : Text} (empty : skipSpace input = []) : Reads input []
  | kept {input next : Text} {content : Content} {contents : List Content}
      (more : skipSpace input ≠ []) (read : readToken (skipSpace input) = some (content, next))
      (kept : content.Kept) (rest : Reads next contents) : Reads input (content :: contents)
  | dropped {input next : Text} {content : Content} {contents : List Content}
      (more : skipSpace input ≠ []) (read : readToken (skipSpace input) = some (content, next))
      (dropped : ¬ content.Kept) (rest : Reads next contents) : Reads input contents

variable {value rest : Text} {key : Option Text} {negated : Bool}

/-! ### What a token takes -/

/-- The value is read up to a quotation mark. -/
theorem readQuoted_eq (read : readQuoted input = some (value, next)) :
    ∃ inner, input = inner ++ '"' :: next := by
  induction input using readQuoted.induct generalizing value next with
  | case1 => cases read
  | case2 => cases read
  | case3 escaped rest ih =>
    simp only [readQuoted] at read
    obtain ⟨⟨inner, after⟩, found, same⟩ := Option.map_eq_some_iff.mp read
    cases same
    obtain ⟨front, rfl⟩ := ih found
    exact ⟨'\\' :: escaped :: front, rfl⟩
  | case4 rest =>
    cases read
    exact ⟨[], rfl⟩
  | case5 c rest noEscape noEnd noMark ih =>
    rw [readQuoted] at read
    · obtain ⟨⟨inner, after⟩, found, same⟩ := Option.map_eq_some_iff.mp read
      cases same
      obtain ⟨front, rfl⟩ := ih found
      exact ⟨c :: front, rfl⟩
    all_goals assumption

theorem readQuoted_length (read : readQuoted input = some (value, next)) :
    next.length < input.length := by
  obtain ⟨inner, rfl⟩ := readQuoted_eq read
  simp only [List.length_append, List.length_cons]
  omega

theorem readKey_eq {key after : Text} (read : readKey input = some (key, after)) :
    input = key ++ ':' :: after ∧ keyPattern key = true := by
  unfold readKey at read
  split at read
  · cases read
  · split at read
    · cases read
    next c rest found =>
      split at read
      next isKey =>
        cases read
        -- what stops the search is the colon itself
        have colon : c = ':' := by
          have stops := List.head?_dropWhile_not (fun c => c != ':') input
          rw [found] at stops
          simpa using stops
        have whole : input.takeWhile (fun c => c != ':') ++ input.dropWhile (fun c => c != ':') =
          input := List.takeWhile_append_dropWhile
        rw [found, colon] at whole
        exact ⟨whole.symm, isKey⟩
      · cases read

theorem readValue_length (read : readValue negated key input = some (content, next)) :
    next.length ≤ input.length := by
  unfold readValue at read
  split at read
  · obtain ⟨⟨value, after⟩, found, same⟩ := Option.map_eq_some_iff.mp read
    cases same
    have shorter := readQuoted_length found
    simp only [List.length_cons]
    omega
  · cases read
    exact (List.dropWhile_suffix _).length_le

-- A value takes its first character, unless that is a space.
theorem readValue_length_lt (read : readValue negated key (c :: rest) = some (content, next))
    (visible : isSpace c = false) : next.length < (c :: rest).length := by
  unfold readValue at read
  split at read
  next rest' same =>
    cases same
    obtain ⟨⟨value, after⟩, found, same⟩ := Option.map_eq_some_iff.mp read
    cases same
    have shorter := readQuoted_length found
    simp only [List.length_cons]
    omega
  · simp only [readBare, List.dropWhile_cons, visible, Bool.not_false, if_true] at read
    cases read
    exact Nat.lt_succ_of_le (List.dropWhile_suffix _).length_le

theorem readBody_length {body : Text} (read : readBody negated body = some (content, next)) :
    next.length ≤ body.length := by
  unfold readBody at read
  split at read
  next key after found =>
    obtain ⟨rfl, -⟩ := readKey_eq found
    have shorter := readValue_length read
    simp only [List.length_append, List.length_cons]
    omega
  · exact readValue_length read

theorem readToken_length (read : readToken (c :: rest) = some (content, next))
    (visible : isSpace c = false) : next.length < (c :: rest).length := by
  unfold readToken at read
  split at read
  next body same =>
    cases same
    exact Nat.lt_succ_of_le (readBody_length read)
  · unfold readBody at read
    split at read
    next key after found =>
      have whole := (readKey_eq found).1
      have shorter := readValue_length read
      rw [whole]
      simp only [List.length_append, List.length_cons]
      omega
    · exact readValue_length_lt read visible

theorem visible_of_skipSpace (found : skipSpace input = c :: rest) : isSpace c = false := by
  have stops := List.head?_dropWhile_not isSpace input
  rw [skipSpace] at found
  rw [found] at stops
  simpa using stops

theorem skipSpace_length (input : Text) : (skipSpace input).length ≤ input.length :=
  (List.dropWhile_suffix _).length_le

theorem skipSpace_of_visible (visible : isSpace c = false) (rest : Text) :
    skipSpace (c :: rest) = c :: rest := by
  simp [skipSpace, visible]

theorem map_ok_iff {ε α β : Type} {f : α → β} {x : Except ε α} {b : β} :
    x.map f = .ok b ↔ ∃ a, x = .ok a ∧ f a = b := by
  cases x <;> simp [Except.map]

theorem Reads.done_iff (empty : skipSpace input = []) : Reads input contents ↔ contents = [] := by
  constructor
  · intro reads
    cases reads with
    | done => rfl
    | kept more => exact absurd empty more
    | dropped more => exact absurd empty more
  · rintro rfl
    exact .done empty

/-- What is read when there is more to read. -/
theorem Reads.more_iff (more : skipSpace input ≠ []) :
    Reads input contents ↔ ∃ content next behind,
      readToken (skipSpace input) = some (content, next) ∧ Reads next behind ∧
        (if content.Kept then content :: behind else behind) = contents := by
  constructor
  · intro reads
    cases reads with
    | done empty => exact absurd empty more
    | kept _ read kept rest => exact ⟨_, _, _, read, rest, if_pos kept⟩
    | dropped _ read dropped rest => exact ⟨_, _, _, read, rest, if_neg dropped⟩
  · rintro ⟨content, next, behind, read, rest, rfl⟩
    split
    next kept => exact .kept more read kept rest
    next dropped => exact .dropped more read dropped rest

/-- Enough turns find all tokens. -/
theorem tokenizeFrom_iff {fuel start : Nat} (enough : (skipSpace input).length ≤ fuel) :
    (∃ tokens, tokenizeFrom fuel start (skipSpace input) = .ok tokens ∧
      tokens.map RawToken.content = contents) ↔ Reads input contents := by
  induction fuel generalizing start input contents with
  | zero =>
    have empty : skipSpace input = [] := List.eq_nil_of_length_eq_zero (Nat.le_zero.mp enough)
    rw [Reads.done_iff empty, empty]
    simp [tokenizeFrom, eq_comm]
  | succ fuel ih =>
    cases found : skipSpace input with
    | nil =>
      rw [Reads.done_iff found]
      simp [tokenizeFrom, eq_comm]
    | cons c rest =>
      have more : skipSpace input ≠ [] := by
        rw [found]
        exact List.cons_ne_nil c rest
      rw [Reads.more_iff more, found, tokenizeFrom]
      cases read : readToken (c :: rest) with
      | none => simp
      | some answer =>
        obtain ⟨content, next⟩ := answer
        -- what follows the token is shorter, so the turns left are enough for it
        have left : (skipSpace next).length ≤ fuel := by
          have shorter := readToken_length read (visible_of_skipSpace found)
          have skipped := skipSpace_length next
          rw [found] at enough
          omega
        simp only [map_ok_iff, Option.some.injEq, Prod.mk.injEq]
        constructor
        · rintro ⟨tokens, ⟨behind, run, rfl⟩, rfl⟩
          refine ⟨content, next, _, ⟨rfl, rfl⟩, (ih left).mp ⟨behind, run, rfl⟩, ?_⟩
          split <;> rfl
        · rintro ⟨_, _, behind, ⟨rfl, rfl⟩, rest, rfl⟩
          obtain ⟨tokens, run, rfl⟩ := (ih left).mpr rest
          refine ⟨_, ⟨tokens, run, rfl⟩, ?_⟩
          split <;> rfl

/-- The tokenizer accepts an input exactly when it can be read to its end, and finds what is read. -/
theorem tokenize_iff :
    (∃ tokens, tokenize input = .ok tokens ∧ tokens.map RawToken.content = contents) ↔
      Reads input contents :=
  tokenizeFrom_iff (skipSpace_length input)

theorem Reads.unique {others : List Content} (reads : Reads input contents)
    (again : Reads input others) : contents = others := by
  obtain ⟨tokens, run, rfl⟩ := tokenize_iff.mpr reads
  obtain ⟨tokens', run', rfl⟩ := tokenize_iff.mpr again
  rw [run] at run'
  cases run'
  rfl

end PrSearch.Query
