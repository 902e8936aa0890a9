import Mathlib.Algebra.Ring.Nat
import Mathlib.Data.List.Basic
import Mathlib.Data.List.TakeWhile

/-! # Patterns in a text

A pattern is a row of pieces, one of which is captured. A piece takes a run of characters of a class,
as many as its bounds allow, or stands for a place: between a word and what is none, or at the end.
Where what follows a run does not match, the run gives back one character after the other. The
characters are counted by their sizes. All matches in a text are found from the left, each one after
the end of the one before it.
-/

namespace Pattern

/-- A run of characters, its size at least the first and at most the second bound. -/
structure Run where
  accepts : Char → Bool
  atLeast : Nat
  atMost : Option Nat

inductive Piece
  | run (run : Run)
  | boundary
  | ending

def isWord (c : Char) : Bool := c.isAlphanum || c == '_'

/-- The code units of a character. -/
def size (c : Char) : Nat := if c.toNat < 0x10000 then 1 else 2

def sizeOf (text : List Char) : Nat := (text.map size).sum

/-- How many characters a run can take, the most first. -/
def Run.lengths (run : Run) (text : List Char) : List Nat :=
  (List.range ((text.takeWhile run.accepts).length + 1)).reverse.filter fun n =>
    run.atLeast ≤ sizeOf (text.take n) ∧ ∀ most ∈ run.atMost, sizeOf (text.take n) ≤ most

/-- The character before the place after so many characters. -/
def lastOf (before : Option Char) (taken : List Char) : Option Char := taken.getLast?.or before

variable {run : Run} {n : Nat}

theorem Run.of_mem_lengths {text : List Char} (member : n ∈ run.lengths text) :
    ∀ c ∈ text.take n, run.accepts c = true := by
  have bound : n ≤ (text.takeWhile run.accepts).length := by
    have inside := (List.mem_filter.mp member).1
    rw [List.mem_reverse, List.mem_range] at inside
    exact Nat.le_of_lt_succ inside
  have within : text.take n = (text.takeWhile run.accepts).take n := by
    rw [← List.takeWhile_append_dropWhile (p := run.accepts) (l := text),
      List.take_append_of_le_length bound, List.takeWhile_append_dropWhile]
  intro c inside
  rw [within] at inside
  exact List.mem_takeWhile_imp (List.mem_of_mem_take inside)

theorem Run.le_of_mem_lengths {text : List Char} (member : n ∈ run.lengths text) :
    n ≤ text.length := by
  have inside := (List.mem_filter.mp member).1
  rw [List.mem_reverse, List.mem_range] at inside
  exact Nat.le_trans (Nat.le_of_lt_succ inside) (List.takeWhile_prefix _).length_le

theorem Run.bounds_of_mem_lengths {text : List Char} (member : n ∈ run.lengths text) :
    run.atLeast ≤ sizeOf (text.take n) ∧
      ∀ most ∈ run.atMost, sizeOf (text.take n) ≤ most :=
  of_decide_eq_true (List.mem_filter.mp member).2

section Match

variable {β : Type*}

/-- Whether the place is one between a word and what is none. -/
def atBoundary (before : Option Char) (text : List Char) : Bool :=
  before.any isWord != text.head?.any isWord

/-- The pieces, and then what follows them. -/
def matchPieces : List Piece → (Option Char → List Char → Option β) → Option Char → List Char →
    Option β
  | [], next, before, text => next before text
  | .run run :: pieces, next, before, text =>
      (run.lengths text).findSome? fun n =>
        matchPieces pieces next (lastOf before (text.take n)) (text.drop n)
  | .boundary :: pieces, next, before, text =>
      if atBoundary before text then matchPieces pieces next before text else none
  | .ending :: pieces, next, before, text =>
      if text = [] then matchPieces pieces next before text else none

/-- What the pieces take before the next ones: characters that a run accepts, and at least one for a
run that takes some. -/
theorem of_matchPieces {pieces : List Piece} {next : Option Char → List Char → Option β}
    {before : Option Char} {text : List Char} {found : β}
    (matched : matchPieces pieces next before text = some found) :
    ∃ used before' rest, text = used ++ rest ∧ next before' rest = some found ∧
      (∀ c ∈ used, ∃ run, Piece.run run ∈ pieces ∧ run.accepts c = true) ∧
      ∀ run, Piece.run run ∈ pieces → 0 < run.atLeast → ∃ c ∈ used, run.accepts c = true := by
  induction pieces generalizing before text with
  | nil => exact ⟨[], before, text, rfl, matched, by simp, by simp⟩
  | cons piece pieces ih =>
    -- a place takes nothing
    have place : (∀ run, piece ≠ .run run) → matchPieces pieces next before text = some found →
        ∃ used before' rest, text = used ++ rest ∧ next before' rest = some found ∧
          (∀ c ∈ used, ∃ run, Piece.run run ∈ piece :: pieces ∧ run.accepts c = true) ∧
          ∀ run, Piece.run run ∈ piece :: pieces → 0 < run.atLeast →
            ∃ c ∈ used, run.accepts c = true := by
      intro noRun after
      obtain ⟨used, before', rest, split, holds, taken, some_⟩ := ih after
      refine ⟨used, before', rest, split, holds, fun c inside => ?_, fun run member => ?_⟩
      · obtain ⟨run, member, accepts⟩ := taken c inside
        exact ⟨run, List.mem_cons_of_mem _ member, accepts⟩
      · rcases List.mem_cons.mp member with is | later
        · exact absurd is.symm (noRun run)
        · exact some_ run later
    cases piece with
    | run run =>
      obtain ⟨n, length, after⟩ := List.exists_of_findSome?_eq_some matched
      obtain ⟨used, before', rest, split, holds, taken, some_⟩ := ih after
      refine ⟨text.take n ++ used, before', rest, ?_, holds, fun c inside => ?_,
        fun other member least => ?_⟩
      · rw [List.append_assoc, ← split, List.take_append_drop]
      · rcases List.mem_append.mp inside with first | later
        · exact ⟨run, List.mem_cons_self, run.of_mem_lengths length c first⟩
        · obtain ⟨run', member, accepts⟩ := taken c later
          exact ⟨run', List.mem_cons_of_mem _ member, accepts⟩
      · rcases List.mem_cons.mp member with is | later
        · obtain rfl := Piece.run.inj is
          have size_ := (other.bounds_of_mem_lengths length).1
          cases part : text.take n with
          | nil =>
            rw [part] at size_
            exact absurd size_ (Nat.not_le.mpr least)
          | cons c rest' =>
            exact ⟨c, by simp, other.of_mem_lengths length c (part ▸ List.mem_cons_self)⟩
        · obtain ⟨c, inside, accepts⟩ := some_ other later least
          exact ⟨c, List.mem_append_right _ inside, accepts⟩
    | boundary =>
      rw [matchPieces] at matched
      split at matched
      next => exact place (fun _ => Piece.noConfusion) matched
      next => simp at matched
    | ending =>
      rw [matchPieces] at matched
      split at matched
      next => exact place (fun _ => Piece.noConfusion) matched
      next => simp at matched

end Match

end Pattern

/-- What comes before the captured run, the run, and what comes after it. -/
structure Pattern where
  lead : List Pattern.Piece
  group : Pattern.Run
  trail : List Pattern.Piece := []

namespace Pattern

/-- What the pattern captures at a place, and the text after the match. -/
def matchAt (pattern : Pattern) (before : Option Char) (text : List Char) :
    Option (List Char × List Char) :=
  matchPieces pattern.lead
    (fun before text =>
      (pattern.group.lengths text).findSome? fun n =>
        matchPieces pattern.trail (fun _ rest => some (text.take n, rest))
          (lastOf before (text.take n)) (text.drop n))
    before text

/-- The capture of a pattern that has to match at the beginning. -/
def matchStart (pattern : Pattern) (text : List Char) : Option (List Char) :=
  (pattern.matchAt none text).map (·.1)

/-- The matches from here on, each with its offset. The first number tells how many characters still
belong to the last match. -/
def matchesFrom (pattern : Pattern) : Nat → Option Char → Nat → List Char → List (Nat × List Char)
  | _, _, _, [] => []
  | skip + 1, _, offset, c :: rest => matchesFrom pattern skip (some c) (offset + size c) rest
  | 0, before, offset, c :: rest =>
      match pattern.matchAt before (c :: rest) with
      | none => matchesFrom pattern 0 (some c) (offset + size c) rest
      | some (found, after) =>
          (offset, found) ::
            matchesFrom pattern (rest.length - after.length) (some c) (offset + size c) rest

/-- `exec` in a loop, with the flag `g` -/
def allMatches (pattern : Pattern) (text : List Char) : List (Nat × List Char) :=
  pattern.matchesFrom 0 none 0 text

variable {text : List Char} {pattern : Pattern}

variable {skip offset : Nat} {front back found after : List Char} {one : Nat × List Char}

section Scan

variable {β : Type*} (read : Option Char → List Char → Option (β × List Char))

/-- The loop of `exec` with a reader that gives what it found at a place, and the text after it. -/
def scanFrom : Nat → Option Char → Nat → List Char → List (Nat × β)
  | _, _, _, [] => []
  | skip + 1, _, offset, c :: rest => scanFrom skip (some c) (offset + size c) rest
  | 0, before, offset, c :: rest =>
      match read before (c :: rest) with
      | none => scanFrom 0 (some c) (offset + size c) rest
      | some (found, after) =>
          (offset, found) :: scanFrom (rest.length - after.length) (some c) (offset + size c) rest

def scan (text : List Char) : List (Nat × β) := scanFrom read 0 none 0 text

variable {read}

/-- What is found has been read at a place of the text. -/
theorem of_mem_scanFrom {before : Option Char} {one : Nat × β}
    (member : one ∈ scanFrom read skip before offset text) :
    ∃ before' front back after, text = front ++ back ∧ one.1 = offset + sizeOf front ∧
      back ≠ [] ∧ read before' back = some (one.2, after) := by
  induction text generalizing skip offset before with
  | nil => cases skip <;> simp [scanFrom] at member
  | cons c rest ih =>
    -- what is found later is found one character further on
    have later : ∀ {skip before}, one ∈ scanFrom read skip before (offset + size c) rest →
        ∃ before' front back after, c :: rest = front ++ back ∧
          one.1 = offset + sizeOf front ∧ back ≠ [] ∧ read before' back = some (one.2, after) := by
      intro skip before inside
      obtain ⟨before', front, back, after, rfl, place, some, holds⟩ := ih inside
      refine ⟨before', c :: front, back, after, rfl, ?_, some, holds⟩
      rw [place, sizeOf, sizeOf, List.map_cons, List.sum_cons, Nat.add_assoc]
    cases skip with
    | succ skip => exact later member
    | zero =>
      rw [scanFrom] at member
      split at member
      next => exact later member
      next found after holds =>
        rcases List.mem_cons.mp member with rfl | inside
        · exact ⟨before, [], c :: rest, after, rfl, rfl, List.cons_ne_nil _ _, holds⟩
        · exact later inside

end Scan

/-! ### Sizes -/

theorem size_pos (c : Char) : 0 < size c := by
  unfold size
  split <;> decide

@[simp] theorem sizeOf_nil : sizeOf [] = 0 := rfl

@[simp] theorem sizeOf_cons (c : Char) (text : List Char) :
    sizeOf (c :: text) = size c + sizeOf text := rfl

@[simp] theorem sizeOf_append (front back : List Char) :
    sizeOf (front ++ back) = sizeOf front + sizeOf back := by
  rw [sizeOf, List.map_append, List.sum_append]
  rfl

@[simp] theorem sizeOf_replicate (c : Char) (n : Nat) : sizeOf (List.replicate n c) = n * size c := by
  simp [sizeOf]

/-- Two ways to cut a text at one offset are the same. -/
theorem append_inj_of_sizeOf {front' back' : List Char} (same : front ++ back = front' ++ back')
    (sizes : sizeOf front = sizeOf front') : front = front' ∧ back = back' := by
  induction front generalizing front' with
  | nil =>
    cases front' with
    | nil => exact ⟨rfl, same⟩
    | cons c front' =>
      have pos := size_pos c
      rw [sizeOf_nil, sizeOf_cons] at sizes
      omega
  | cons c front ih =>
    cases front' with
    | nil =>
      have pos := size_pos c
      rw [sizeOf_nil, sizeOf_cons] at sizes
      omega
    | cons d front' =>
      obtain ⟨rfl, later⟩ := List.cons.inj same
      rw [sizeOf_cons, sizeOf_cons] at sizes
      obtain ⟨rfl, rfl⟩ := ih later (Nat.add_left_cancel sizes)
      exact ⟨rfl, rfl⟩

/-! ### What is captured -/

/-- The most that a run can take is tried first: all the characters of its class, if their size is
within the bounds. -/
theorem Run.lengths_append {run : Run} (inside : ∀ c ∈ front, run.accepts c = true)
    (stops : ∀ c ∈ back.head?, run.accepts c = false) (least : run.atLeast ≤ sizeOf front)
    (most : ∀ most ∈ run.atMost, sizeOf front ≤ most) :
    ∃ shorter, run.lengths (front ++ back) = front.length :: shorter := by
  have all : (front ++ back).takeWhile run.accepts = front := by
    rw [List.takeWhile_append_of_pos inside]
    cases back with
    | nil => simp
    | cons c back => simp [stops c rfl]
  rw [lengths, all, List.range_succ, List.reverse_append, List.reverse_singleton,
    List.singleton_append, List.filter_cons_of_pos (by simpa using ⟨least, most⟩)]
  exact ⟨_, rfl⟩

section Greedy

variable {β : Type*} {pieces : List Piece} {next : Option Char → List Char → Option β}
  {before : Option Char}

/-- If the pieces match behind all that a run can take, it takes all of it. -/
theorem matchPieces_all (run : Run) (front : List Char) {found : β}
    (inside : ∀ c ∈ front, run.accepts c = true) (stops : ∀ c ∈ back.head?, run.accepts c = false)
    (least : run.atLeast ≤ sizeOf front) (most : ∀ most ∈ run.atMost, sizeOf front ≤ most)
    (after : matchPieces pieces next (lastOf before front) back = some found) :
    matchPieces (.run run :: pieces) next before (front ++ back) = some found := by
  obtain ⟨shorter, lengths⟩ := Run.lengths_append inside stops least most
  rw [matchPieces, lengths, List.findSome?_cons, List.take_left, List.drop_left, after]

/-- A run of exactly one code unit takes one character, whatever comes after it. -/
theorem matchPieces_one {accepts : Char → Bool} {c : Char} (accepted : accepts c = true)
    (small : size c = 1) (text : List Char) :
    matchPieces (.run ⟨accepts, 1, some 1⟩ :: pieces) next before (c :: text) =
      matchPieces pieces next (some c) text := by
  have only : ∀ n ∈ Run.lengths ⟨accepts, 1, some 1⟩ (c :: text), n = 1 := by
    intro n member
    obtain ⟨least, most⟩ := Run.bounds_of_mem_lengths member
    cases n with
    | zero => simp at least
    | succ n =>
      cases n with
      | zero => rfl
      | succ n =>
        have bound := most 1 rfl
        cases text with
        | nil => simpa using Run.le_of_mem_lengths member
        | cons d text =>
          have pos := size_pos d
          simp [small] at bound
          omega
  have there : 1 ∈ Run.lengths ⟨accepts, 1, some 1⟩ (c :: text) := by
    refine List.mem_filter.mpr ⟨?_, by simp [small]⟩
    rw [List.mem_reverse, List.mem_range, List.takeWhile_cons_of_pos accepted, List.length_cons]
    omega
  rw [matchPieces]
  -- every length that is tried is the same
  generalize Run.lengths ⟨accepts, 1, some 1⟩ (c :: text) = lengths at only there
  cases lengths with
  | nil => cases there
  | cons n rest =>
    obtain rfl := only n List.mem_cons_self
    rw [List.findSome?_cons]
    cases taken : matchPieces pieces next (lastOf before ((c :: text).take 1)) ((c :: text).drop 1) with
    | some found => exact taken.symm
    | none =>
      refine Eq.trans (List.findSome?_eq_none_iff.mpr fun m inside => ?_) taken.symm
      rw [only m (List.mem_cons_of_mem _ inside), taken]

end Greedy

/-- A run of one character or more takes nothing where its class ends at once. -/
theorem Run.lengths_eq_nil {run : Run} (some : 0 < run.atLeast)
    (stops : ∀ c ∈ text.head?, run.accepts c = false) : run.lengths text = [] := by
  have none_ : text.takeWhile run.accepts = [] := by
    cases text with
    | nil => rfl
    | cons c text => simp [stops c rfl]
  refine List.filter_eq_nil_iff.mpr fun n inside holds => ?_
  rw [none_] at inside
  obtain rfl : n = 0 := by simpa using inside
  have least := (of_decide_eq_true holds).1
  rw [List.take_zero] at least
  exact absurd least (Nat.not_le.mpr some)

/-- A capture has a size within the bounds of its run. -/
theorem bounds_of_matchAt {before : Option Char}
    (matched : pattern.matchAt before text = some (found, after)) :
    pattern.group.atLeast ≤ sizeOf found ∧ ∀ most ∈ pattern.group.atMost, sizeOf found ≤ most := by
  obtain ⟨_, _, rest, _, grouped, _⟩ := of_matchPieces matched
  obtain ⟨n, member, trailed⟩ := List.exists_of_findSome?_eq_some grouped
  obtain ⟨_, _, _, _, is, _⟩ := of_matchPieces trailed
  obtain ⟨rfl, _⟩ : rest.take n = found ∧ _ = after := by simpa using is
  exact Run.bounds_of_mem_lengths member

/-- A capture stands in the text and has only characters of its class. -/
theorem of_matchAt {before : Option Char}
    (matched : pattern.matchAt before text = some (found, after)) :
    found <:+: text ∧ ∀ c ∈ found, pattern.group.accepts c = true := by
  obtain ⟨used, before', rest, split, grouped, _⟩ := of_matchPieces matched
  obtain ⟨n, member, trailed⟩ := List.exists_of_findSome?_eq_some grouped
  obtain ⟨_, _, _, _, is, _⟩ := of_matchPieces trailed
  obtain ⟨rfl, _⟩ : rest.take n = found ∧ _ = after := by simpa using is
  refine ⟨⟨used, rest.drop n, ?_⟩, Run.of_mem_lengths member⟩
  rw [List.append_assoc, List.take_append_drop, split]

def pieces (pattern : Pattern) : List Piece :=
  pattern.lead ++ .run pattern.group :: pattern.trail

/-- A match takes characters that one of the runs accepts, those it captures among them. -/
theorem used_of_matchAt {before : Option Char}
    (matched : pattern.matchAt before text = some (found, after)) :
    ∃ used, text = used ++ after ∧ found <:+: used ∧
      ∀ c ∈ used, ∃ run, Piece.run run ∈ pattern.pieces ∧ run.accepts c = true := by
  obtain ⟨front, _, rest, rfl, grouped, leads, _⟩ := of_matchPieces matched
  obtain ⟨n, length, trailed⟩ := List.exists_of_findSome?_eq_some grouped
  obtain ⟨back, _, after', split, is, trails, _⟩ := of_matchPieces trailed
  obtain ⟨rfl, rfl⟩ : rest.take n = found ∧ after' = after := by simpa using is
  refine ⟨front ++ (rest.take n ++ back), ?_, ⟨front, back, by simp⟩, fun c inside => ?_⟩
  · rw [List.append_assoc, List.append_assoc, ← split, List.take_append_drop]
  · simp only [pieces, List.mem_append, List.mem_cons] at inside ⊢
    rcases inside with lead | group | trail
    · obtain ⟨run, member, accepts⟩ := leads c lead
      exact ⟨run, .inl member, accepts⟩
    · exact ⟨pattern.group, .inr (.inl rfl), Run.of_mem_lengths length c group⟩
    · obtain ⟨run, member, accepts⟩ := trails c trail
      exact ⟨run, .inr (.inr member), accepts⟩

/-- The loop is that of the reader that matches the pattern. -/
theorem matchesFrom_eq_scanFrom (pattern : Pattern) (skip : Nat) (before : Option Char) (offset : Nat)
    (text : List Char) :
    pattern.matchesFrom skip before offset text =
      scanFrom pattern.matchAt skip before offset text := by
  induction text generalizing skip before offset with
  | nil => cases skip <;> rfl
  | cons c rest ih =>
    cases skip with
    | succ skip => exact ih _ _ _
    | zero =>
      rw [matchesFrom, scanFrom]
      cases pattern.matchAt before (c :: rest) with
      | none => exact ih _ _ _
      | some found => exact congrArg _ (ih _ _ _)

theorem of_mem_matchesFrom {before : Option Char}
    (member : one ∈ pattern.matchesFrom skip before offset text) :
    one.2 <:+: text ∧ ∀ c ∈ one.2, pattern.group.accepts c = true := by
  induction text generalizing skip offset before with
  | nil => cases skip <;> simp [matchesFrom] at member
  | cons c rest ih =>
    -- what is found later is found in the rest of the text
    have later : ∀ {skip offset before}, one ∈ pattern.matchesFrom skip before offset rest →
        one.2 <:+: c :: rest ∧ ∀ c ∈ one.2, pattern.group.accepts c = true := by
      intro skip offset before inside
      obtain ⟨part, holds⟩ := ih inside
      exact ⟨part.trans (List.suffix_cons c rest).isInfix, holds⟩
    cases skip with
    | succ skip => exact later member
    | zero =>
      rw [matchesFrom] at member
      split at member
      next => exact later member
      next found after matched =>
        rcases List.mem_cons.mp member with rfl | inside
        · exact of_matchAt matched
        · exact later inside

theorem of_mem_allMatches (member : one ∈ pattern.allMatches text) :
    one.2 <:+: text ∧ ∀ c ∈ one.2, pattern.group.accepts c = true :=
  of_mem_matchesFrom member

end Pattern
