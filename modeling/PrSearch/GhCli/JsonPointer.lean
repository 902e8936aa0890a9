import PrSearch.Lib.Decimal
import PrSearch.Lib.SplitOn
import PrSearch.GhCli.Constraints

/-! # JSON pointers

A pointer names a place in a document: one token for each step, a member of an object or an index of
an array. It is no expression. What cannot be reached is refused, never replaced by something else.
-/
namespace PrSearch.GhCli

open Query

/-- The values a JSON text stands for. -/
inductive JsonValue
  | null
  | bool (value : Bool)
  | number (number : ℚ)
  | text (text : Text)
  | array (items : List JsonValue)
  | object (members : List (Text × JsonValue))

inductive JsonPointerError
  | tooLong
  | badStart
  | invalidEscape
  | tooDeep
  | forbiddenToken
  | nonexistentMember
  | notAContainer
  | invalidArrayIndex
  | endOfArray
  | indexOutOfRange
deriving DecidableEq

def JsonPointerError.text : JsonPointerError → Text
  | .tooLong => "too_long".toList
  | .badStart => "syntax".toList
  | .invalidEscape => "invalid_escape".toList
  | .tooDeep => "too_deep".toList
  | .forbiddenToken => "forbidden_token".toList
  | .nonexistentMember => "nonexistent_member".toList
  | .notAContainer => "not_a_container".toList
  | .invalidArrayIndex => "invalid_array_index".toList
  | .endOfArray => "end_of_array".toList
  | .indexOutOfRange => "index_out_of_range".toList

/-! ### Tokens -/

def JSON_POINTER_MAX_LENGTH : Nat := 128

def JSON_POINTER_MAX_TOKENS : Nat := 8

def FORBIDDEN_TOKENS : List Text := ["__proto__".toList, "constructor".toList, "prototype".toList]

/-- `~(?![01])` -/
def hasBadEscape : Text → Bool
  | [] => false
  | ['~'] => true
  | '~' :: c :: rest => (c != '0' && c != '1') || hasBadEscape (c :: rest)
  | _ :: rest => hasBadEscape rest

/-- Every `~` with the digit behind it becomes the character. -/
def replaceEscape (digit by_ : Char) : Text → Text
  | [] => []
  | [c] => [c]
  | c :: d :: rest =>
      if c = '~' ∧ d = digit then by_ :: replaceEscape digit by_ rest
      else c :: replaceEscape digit by_ (d :: rest)

/-- `~1` first, then `~0`. -/
def unescape (piece : Text) : Text := replaceEscape '0' '~' (replaceEscape '1' '/' piece)

attribute [local instance] lawfulText

def parseTokens : List Text → Except (JsonPointerError × Option Text) (List Text)
  | [] => .ok []
  | piece :: rest =>
      if hasBadEscape piece then .error (.invalidEscape, some piece)
      else if unescape piece ∈ FORBIDDEN_TOKENS then .error (.forbiddenToken, some (unescape piece))
      else (parseTokens rest).map (unescape piece :: ·)

def parseJsonPointer (pointer : Text) : Except (JsonPointerError × Option Text) (List Text) :=
  if units pointer > JSON_POINTER_MAX_LENGTH then .error (.tooLong, none)
  else
    match pointer with
    | [] => .ok []
    | '/' :: rest =>
        let pieces := rest.splitOn '/'
        if pieces.length > JSON_POINTER_MAX_TOKENS then .error (.tooDeep, none) else parseTokens pieces
    | _ => .error (.badStart, none)

/-! ### Evaluation -/

/-- `^(?:0|[1-9][0-9]*)$` -/
def isArrayIndex : Text → Bool
  | ['0'] => true
  | first :: rest => first != '0' && first.isDigit && rest.all Char.isDigit
  | [] => false

def evaluateTokens : JsonValue → List Text → Except (JsonPointerError × Option Text) JsonValue
  | current, [] => .ok current
  | .array items, token :: rest =>
      if token = ['-'] then .error (.endOfArray, some token)
      else if isArrayIndex token then
        let index := Nat.ofDigitChars 10 token 0
        if isSafeInteger index then
          match items[index]? with
          | some item => evaluateTokens item rest
          | none => .error (.indexOutOfRange, some token)
        else .error (.indexOutOfRange, some token)
      else .error (.invalidArrayIndex, some token)
  | .object members, token :: rest =>
      match members.lookup token with
      | some member => evaluateTokens member rest
      | none => .error (.nonexistentMember, some token)
  | _, token :: _ => .error (.notAContainer, some token)

def evaluateJsonPointer (document : JsonValue) (pointer : Text) :
    Except (JsonPointerError × Option Text) JsonValue :=
  match parseJsonPointer pointer with
  | .error problem => .error problem
  | .ok tokens => evaluateTokens document tokens

/-! ### What a pointer names -/

/-- The value at the end of the steps. -/
inductive Reaches : JsonValue → List Text → JsonValue → Prop
  | here {value : JsonValue} : Reaches value [] value
  | index {items : List JsonValue} {index : Nat} {item value : JsonValue} {rest : List Text}
      (found : items[index]? = some item) (later : Reaches item rest value) :
      Reaches (.array items) (Nat.toDigits 10 index :: rest) value
  | member {members : List (Text × JsonValue)} {name : Text} {member value : JsonValue} {rest : List Text}
      (found : members.lookup name = some member) (later : Reaches member rest value) :
      Reaches (.object members) (name :: rest) value

/-- A token as it stands in a pointer. -/
def escape (token : Text) : Text :=
  token.flatMap fun c => if c = '~' then ['~', '0'] else if c = '/' then ['~', '1'] else [c]

/-- The pointer with these tokens. -/
def writePointer (tokens : List Text) : Text := tokens.flatMap fun token => '/' :: escape token

theorem toDigits_of_isArrayIndex {token : Text} (is : isArrayIndex token = true) :
    token = Nat.toDigits 10 (Nat.ofDigitChars 10 token 0) := by
  unfold isArrayIndex at is
  split at is
  · decide
  next first rest _ =>
    simp only [Bool.and_eq_true, List.all_eq_true, bne_iff_ne] at is
    refine (Lib.Decimal.toDigits_ofDigitChars ⟨List.cons_ne_nil _ _, ?_, ?_⟩).symm
    · intro c inside
      rcases List.mem_cons.mp inside with rfl | later
      · exact is.1.2
      · exact is.2 c later
    · simpa using is.1.1
  · cases is

variable {tokens : List Text} {document value : JsonValue} {c : Char} {pointer : Text}

theorem reaches_of_evaluated (evaluated : evaluateTokens document tokens = .ok value) :
    Reaches document tokens value := by
  induction tokens generalizing document with
  | nil =>
    rw [evaluateTokens] at evaluated
    cases evaluated
    exact .here
  | cons token rest ih =>
    cases document with
    | array items =>
      simp only [evaluateTokens] at evaluated
      split at evaluated
      · cases evaluated
      · split at evaluated
        next isIndex =>
          split at evaluated
          · split at evaluated
            next item found =>
              rw [toDigits_of_isArrayIndex isIndex]
              exact .index found (ih evaluated)
            · cases evaluated
          · cases evaluated
        · cases evaluated
    | object members =>
      simp only [evaluateTokens] at evaluated
      split at evaluated
      next member found => exact .member found (ih evaluated)
      · cases evaluated
    | null | bool | number | text => cases evaluated

theorem replaceEscape_cons {digit by_ : Char} (other : c ≠ '~') (rest : Text) :
    replaceEscape digit by_ (c :: rest) = c :: replaceEscape digit by_ rest := by
  cases rest with
  | nil => rfl
  | cons d rest => rw [replaceEscape, if_neg fun both => other both.1]

theorem unescape_cons (other : c ≠ '~') (rest : Text) :
    unescape (c :: rest) = c :: unescape rest := by
  rw [unescape, replaceEscape_cons other, replaceEscape_cons other, unescape]

theorem unescape_tilde (rest : Text) : unescape ('~' :: '0' :: rest) = '~' :: unescape rest := by
  have kept : replaceEscape '1' '/' ('~' :: '0' :: rest) = '~' :: '0' :: replaceEscape '1' '/' rest := by
    rw [replaceEscape, if_neg (by decide), replaceEscape_cons (by decide)]
  rw [unescape, kept, replaceEscape, if_pos ⟨rfl, rfl⟩, unescape]

theorem unescape_slash (rest : Text) : unescape ('~' :: '1' :: rest) = '/' :: unescape rest := by
  rw [unescape, replaceEscape, if_pos ⟨rfl, rfl⟩, replaceEscape_cons (by decide), unescape]

theorem hasBadEscape_cons (other : c ≠ '~') (rest : Text) :
    hasBadEscape (c :: rest) = hasBadEscape rest := by
  rw [hasBadEscape]
  · rintro rfl _
    exact other rfl
  · rintro _ _ rfl
    exact absurd rfl other

/-- What a piece without a bad escape says is written as the piece again. -/
theorem escape_unescape {piece : Text} (good : hasBadEscape piece = false) (inOne : '/' ∉ piece) :
    escape (unescape piece) = piece := by
  induction piece using List.twoStepInduction with
  | nil => rfl
  | singleton c =>
    by_cases tilde : c = '~'
    · subst tilde
      cases good
    · have slash : c ≠ '/' := fun same => inOne (same ▸ List.mem_cons_self)
      rw [unescape_cons tilde]
      simp [escape, unescape, replaceEscape, tilde, slash]
  | cons_cons c d rest ihRest ihTail =>
    by_cases tilde : c = '~'
    · subst tilde
      simp only [hasBadEscape, Bool.or_eq_false_iff, Bool.and_eq_false_iff, bne_eq_false_iff_eq] at good
      have inRest : '/' ∉ rest := fun inside => inOne (List.mem_cons_of_mem _ (List.mem_cons_of_mem _ inside))
      rcases good.1 with rfl | rfl
      · have goodRest : hasBadEscape rest = false := by
          rw [← good.2, hasBadEscape_cons (by decide)]
        rw [unescape_tilde, escape, List.flatMap_cons, ← escape, ihRest goodRest inRest]
        rfl
      · have goodRest : hasBadEscape rest = false := by
          rw [← good.2, hasBadEscape_cons (by decide)]
        rw [unescape_slash, escape, List.flatMap_cons, ← escape, ihRest goodRest inRest]
        rfl
    · have slash : c ≠ '/' := fun same => inOne (same ▸ List.mem_cons_self)
      rw [hasBadEscape_cons tilde] at good
      have later := ihTail d good fun inside => inOne (List.mem_cons_of_mem _ inside)
      rw [unescape_cons tilde, escape, List.flatMap_cons, ← escape, later, if_neg tilde, if_neg slash]
      rfl

theorem writePointer_of_pieces {pieces : List Text} (parsed : parseTokens pieces = .ok tokens)
    (inOne : ∀ piece ∈ pieces, '/' ∉ piece) :
    writePointer tokens = pieces.flatMap fun piece => '/' :: piece := by
  induction pieces generalizing tokens with
  | nil =>
    cases parsed
    rfl
  | cons piece rest ih =>
    rw [parseTokens] at parsed
    split at parsed
    · cases parsed
    next good =>
      split at parsed
      · cases parsed
      · cases later : parseTokens rest with
        | error problem =>
          rw [later] at parsed
          cases parsed
        | ok others =>
          rw [later] at parsed
          cases parsed
          have own := escape_unescape (Bool.eq_false_iff.mpr good) (inOne piece List.mem_cons_self)
          have rest' := ih later fun other listed => inOne other (List.mem_cons_of_mem _ listed)
          rw [writePointer] at rest' ⊢
          rw [List.flatMap_cons, List.flatMap_cons, own, rest']

/-- A pointer is the text of its tokens. -/
theorem writePointer_of_parsed (parsed : parseJsonPointer pointer = .ok tokens) :
    writePointer tokens = pointer := by
  unfold parseJsonPointer at parsed
  split at parsed
  · cases parsed
  · split at parsed
    · cases parsed
      rfl
    next rest _ =>
      dsimp only at parsed
      split at parsed
      · cases parsed
      · have inOne : ∀ piece ∈ rest.splitOn '/', '/' ∉ piece := fun piece listed => Lib.not_mem_of_mem_splitOn listed
        rw [writePointer_of_pieces parsed inOne]
        obtain ⟨first, others, pieces⟩ : ∃ first others, rest.splitOn '/' = first :: others :=
          List.exists_cons_of_ne_nil (List.splitOn_ne_nil _ _)
        rw [pieces, Lib.flatMap_separator, ← pieces, List.intercalate_splitOn]
    · cases parsed

/-- What an evaluated pointer names. -/
theorem reaches_of_pointer (evaluated : evaluateJsonPointer document pointer = .ok value) :
    ∃ tokens, pointer = writePointer tokens ∧ Reaches document tokens value := by
  unfold evaluateJsonPointer at evaluated
  split at evaluated
  · cases evaluated
  next tokens parsed =>
    exact ⟨tokens, (writePointer_of_parsed parsed).symm, reaches_of_evaluated evaluated⟩

end PrSearch.GhCli
