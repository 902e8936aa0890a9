import Mathlib.Data.List.Basic
import Mathlib.Order.Nat

/-! # Marked fragments

The index marks what it has found with two characters of a private area. `toPlainFragment` takes the
marks out of a fragment and notes what was between them. A string is a list of UTF-16 code units, with
any surrogates in it.
-/
namespace PrSearch.Search.Fragments

/-- A string. -/
abbrev Units := List UInt16

/-- `HIGHLIGHT_OPEN` -/
def highlightOpen : UInt16 := 0xE000

/-- `HIGHLIGHT_CLOSE` -/
def highlightClose : UInt16 := 0xE001

/-- What `for … of` goes through: a high surrogate with the low one behind it, or a single unit. -/
def codePoints : Units → List Units
  | [] => []
  | [unit] => [[unit]]
  | unit :: next :: rest =>
      if (0xD800 ≤ unit ∧ unit ≤ 0xDBFF) ∧ 0xDC00 ≤ next ∧ next ≤ 0xDFFF then
        [unit, next] :: codePoints rest
      else [unit] :: codePoints (next :: rest)

structure Interval where
  start : Nat
  stop : Nat
  deriving DecidableEq, Repr

structure HighlightFragment where
  text : Units
  found : List Interval
  deriving DecidableEq, Repr

/-- The fragment so far, and where a match has been opened. -/
structure Reading extends HighlightFragment where
  openAt : Option Nat
  deriving DecidableEq, Repr

def Reading.empty : Reading := ⟨⟨[], []⟩, none⟩

/-- What a mark closes: nothing, when nothing is open or the match would be empty. -/
def Reading.closed (s : Reading) : List Interval :=
  match s.openAt with
  | some start => if start < s.text.length then [⟨start, s.text.length⟩] else []
  | none => []

def Reading.add (s : Reading) (char : Units) : Reading :=
  if char = [highlightOpen] then { s with openAt := some s.text.length }
  else if char = [highlightClose] then { s with found := s.found ++ s.closed, openAt := none }
  else { s with text := s.text ++ char }

def toPlainFragment (marked : Units) : HighlightFragment :=
  ((codePoints marked).foldl Reading.add .empty).toHighlightFragment

/-! ### Unit by unit -/

section Reading

variable {s : Reading} {unit : UInt16} {text : Units}

def Marks (unit : UInt16) : Prop := unit = highlightOpen ∨ unit = highlightClose

theorem add_open : s.add [highlightOpen] = { s with openAt := some s.text.length } := if_pos rfl

theorem add_close :
    s.add [highlightClose] = { s with found := s.found ++ s.closed, openAt := none } := by
  simp [Reading.add, highlightOpen, highlightClose]

theorem add_plain (plain : ¬ Marks unit) : s.add [unit] = { s with text := s.text ++ [unit] } := by
  obtain ⟨other, another⟩ := not_or.mp plain
  simp [Reading.add, other, another]

-- No surrogate is a mark, so that a pair may be added one by one.
theorem add_pair {next : UInt16} (high : unit ≤ 0xDBFF) (low : next ≤ 0xDFFF) :
    s.add [unit, next] = (s.add [unit]).add [next] := by
  have plain : ∀ unit : UInt16, unit ≤ 0xDFFF → ¬ Marks unit := by
    rintro unit less (rfl | rfl) <;> exact absurd less (by decide)
  rw [add_plain (plain unit (UInt16.le_trans high (by decide))), add_plain (plain next low)]
  simp [Reading.add]

theorem foldl_codePoints (marked : Units) (s : Reading) :
    (codePoints marked).foldl Reading.add s = marked.foldl (fun s unit => s.add [unit]) s := by
  induction marked using codePoints.induct generalizing s with
  | case1 => rfl
  | case2 unit => rfl
  | case3 unit next rest pair ih =>
    rw [codePoints, if_pos pair, List.foldl_cons, List.foldl_cons, List.foldl_cons, ih,
      add_pair pair.1.2 pair.2.2]
  | case4 unit next rest single ih =>
    rw [codePoints, if_neg single, List.foldl_cons, List.foldl_cons, ih]

/-- The reading of a string. -/
def Reading.read (s : Reading) (marked : Units) : Reading :=
  marked.foldl (fun s unit => s.add [unit]) s

theorem toPlainFragment_eq (marked : Units) :
    toPlainFragment marked = (Reading.empty.read marked).toHighlightFragment := by
  rw [toPlainFragment, foldl_codePoints, Reading.read]

theorem read_append (first last : Units) : s.read (first ++ last) = (s.read first).read last :=
  List.foldl_append

theorem read_plain (plain : ∀ unit ∈ text, ¬ Marks unit) :
    s.read text = { s with text := s.text ++ text } := by
  induction text generalizing s with
  | nil => simp [Reading.read]
  | cons unit text ih =>
    have first : s.read (unit :: text) = (s.add [unit]).read text := rfl
    rw [first, add_plain (plain unit List.mem_cons_self),
      ih fun other inside => plain other (List.mem_cons_of_mem _ inside)]
    simp

end Reading

/-! ### What is returned -/

/-- Matches of a text: none is empty, and each begins where those before it have ended. -/
structure Lie (length : Nat) (found : List Interval) : Prop where
  inside : ∀ interval ∈ found, interval.start < interval.stop ∧ interval.stop ≤ length
  increasing : found.Pairwise fun first last => first.stop ≤ last.start

/-- What holds of every reading. -/
structure Reading.Sound (s : Reading) : Prop where
  plain : ∀ unit ∈ s.text, ¬ Marks unit
  lie : Lie s.text.length s.found
  opened : ∀ start ∈ s.openAt, start ≤ s.text.length ∧ ∀ interval ∈ s.found, interval.stop ≤ start

theorem Reading.Sound.empty : Reading.empty.Sound where
  plain := by simp [Reading.empty]
  lie := ⟨by simp [Reading.empty], .nil⟩
  opened := by simp [Reading.empty]

variable {found : List Interval} {within : Units} {position : Nat}

theorem Lie.longer {length further : Nat} (lie : Lie length found) (more : length ≤ further) :
    Lie further found :=
  ⟨fun interval inside => ⟨(lie.inside interval inside).1, (lie.inside interval inside).2.trans more⟩,
    lie.increasing⟩

theorem Reading.Sound.closed {s : Reading} (sound : s.Sound) :
    Lie s.text.length (s.found ++ s.closed) := by
  unfold Reading.closed
  split
  next start isOpen =>
    split
    next some_ =>
      have before := (sound.opened start isOpen).2
      constructor
      · intro interval inside
        rcases List.mem_append.mp inside with old | new
        · exact sound.lie.inside interval old
        · rw [List.mem_singleton.mp new]
          exact ⟨some_, le_rfl⟩
      · refine List.pairwise_append.mpr ⟨sound.lie.increasing, List.pairwise_singleton _ _, ?_⟩
        intro first inside last new
        rw [List.mem_singleton.mp new]
        exact before first inside
    next => rw [List.append_nil]; exact sound.lie
  next => rw [List.append_nil]; exact sound.lie

/-- One case for each kind of unit. -/
theorem Reading.Sound.add {s : Reading} (sound : s.Sound) (unit : UInt16) : (s.add [unit]).Sound := by
  by_cases isOpen : unit = highlightOpen
  · rw [isOpen, add_open]
    refine ⟨sound.plain, sound.lie, fun start here => ?_⟩
    cases here
    exact ⟨le_rfl, fun interval inside => (sound.lie.inside interval inside).2⟩
  · by_cases isClose : unit = highlightClose
    · rw [isClose, add_close]
      exact ⟨sound.plain, sound.closed, fun start never => by cases never⟩
    · have plain : ¬ Marks unit := not_or.mpr ⟨isOpen, isClose⟩
      rw [add_plain plain]
      have longer : s.text.length ≤ (s.text ++ [unit]).length := by simp
      refine ⟨fun other inside => ?_, sound.lie.longer longer, fun start here => ?_⟩
      · rcases List.mem_append.mp inside with old | new
        · exact sound.plain other old
        · rw [List.mem_singleton.mp new]
          exact plain
      · exact ⟨(sound.opened start here).1.trans longer, (sound.opened start here).2⟩

theorem Reading.Sound.read {s : Reading} (sound : s.Sound) (marked : Units) : (s.read marked).Sound := by
  induction marked generalizing s with
  | nil => exact sound
  | cons unit marked ih => exact ih (sound.add unit)

/-! ### The round trip -/

/-- Puts the marks around matches into a text, whose first unit is the one at `position`. -/
def insertMarkers (position : Nat) (text : Units) : List Interval → Units
  | [] => text
  | interval :: later =>
      let before := text.take (interval.start - position)
      let within := (text.drop (interval.start - position)).take (interval.stop - interval.start)
      before ++ highlightOpen :: within ++ highlightClose ::
        insertMarkers interval.stop (text.drop (interval.stop - position)) later

theorem insertMarkers_append {before after : Units} {interval : Interval} {later : List Interval}
    (start : interval.start - position = before.length)
    (size : interval.stop - interval.start = within.length)
    (stop : interval.stop - position = before.length + within.length) :
    insertMarkers position (before ++ (within ++ after)) (interval :: later) =
      before ++ ((highlightOpen :: within ++ [highlightClose]) ++
        insertMarkers interval.stop after later) := by
  have rest : (before ++ (within ++ after)).drop (before.length + within.length) = after := by
    rw [← List.append_assoc, ← List.length_append, List.drop_left]
  rw [insertMarkers, start, size, stop, rest, List.take_left, List.drop_left, List.take_left]
  simp

/-- A match between its marks is noted. -/
theorem read_match {s : Reading} (some_ : within ≠ []) (plain : ∀ unit ∈ within, ¬ Marks unit) :
    s.read (highlightOpen :: within ++ [highlightClose]) =
      ⟨⟨s.text ++ within, s.found ++ [⟨s.text.length, s.text.length + within.length⟩]⟩, none⟩ := by
  have positive : 0 < within.length := List.length_pos_iff.mpr some_
  have opened : s.read (highlightOpen :: within ++ [highlightClose]) =
      ((s.add [highlightOpen]).read within).add [highlightClose] := by
    rw [List.cons_append]
    exact read_append within [highlightClose]
  rw [opened, add_open, read_plain plain, add_close]
  simp [Reading.closed, positive]

theorem read_insertMarkers {text : Units} {s : Reading} (plain : ∀ unit ∈ text, ¬ Marks unit)
    (inside : ∀ interval ∈ found, position ≤ interval.start ∧ interval.start < interval.stop ∧
      interval.stop ≤ position + text.length)
    (increasing : found.Pairwise fun first last => first.stop ≤ last.start)
    (here : s.text.length = position) (none_ : s.openAt = none) :
    s.read (insertMarkers position text found) = ⟨⟨s.text ++ text, s.found ++ found⟩, none⟩ := by
  induction found generalizing position text s with
  | nil =>
    rw [insertMarkers, read_plain plain, List.append_nil, ← none_]
  | cons interval later ih =>
    obtain ⟨low, some_, high⟩ := inside interval List.mem_cons_self
    obtain ⟨behind, increasing⟩ := List.pairwise_cons.mp increasing
    -- the text up to the match, the match and what follows
    obtain ⟨before, rest, rfl, beforeLength⟩ : ∃ before rest, text = before ++ rest ∧
        before.length = interval.start - position :=
      ⟨_, _, (List.take_append_drop (interval.start - position) text).symm,
        List.length_take_of_le (by omega)⟩
    rw [List.length_append] at high
    obtain ⟨within, after, rfl, withinLength⟩ : ∃ within after, rest = within ++ after ∧
        within.length = interval.stop - interval.start :=
      ⟨_, _, (List.take_append_drop (interval.stop - interval.start) rest).symm,
        List.length_take_of_le (by omega)⟩
    simp only [List.mem_append] at plain
    have nonempty : within ≠ [] := by
      rintro rfl
      simp only [List.length_nil] at withinLength
      omega
    have bounds : ∀ other ∈ later, interval.stop ≤ other.start ∧ other.start < other.stop ∧
        other.stop ≤ interval.stop + after.length := by
      intro other member
      have bound := (inside other (List.mem_cons_of_mem _ member)).2
      have start := behind other member
      simp only [List.length_append] at bound
      omega
    have length : (s.text ++ before ++ within).length = interval.stop := by
      simp only [List.length_append]
      omega
    rw [insertMarkers_append beforeLength.symm withinLength.symm (by omega), read_append, read_append,
      read_plain fun unit member => plain unit (.inl member),
      read_match (s := { s with text := s.text ++ before }) nonempty
        fun unit member => plain unit (.inr (.inl member)),
      ih (fun unit member => plain unit (.inr (.inr member))) bounds increasing length rfl]
    have isMatch : (⟨(s.text ++ before).length, (s.text ++ before).length + within.length⟩ : Interval) =
        interval := by
      rw [List.length_append, here, beforeLength, withinLength]
      cases interval
      simp only [Interval.mk.injEq]
      dsimp only at low some_
      omega
    rw [isMatch]
    simp

/-- The marks around the matches of a text are taken out again, and the matches are found; whatever
the string is, the text has no marks and the matches lie in it. -/
theorem toPlainFragment_matches :
    (∀ text found, (∀ unit ∈ text, ¬ Marks unit) → Lie text.length found →
      toPlainFragment (insertMarkers 0 text found) = ⟨text, found⟩) ∧
    ∀ marked, (∀ unit ∈ (toPlainFragment marked).text, ¬ Marks unit) ∧
      Lie (toPlainFragment marked).text.length (toPlainFragment marked).found := by
  constructor
  · intro text found plain lie
    have all : ∀ interval ∈ found, 0 ≤ interval.start ∧ interval.start < interval.stop ∧
        interval.stop ≤ 0 + text.length := fun interval inside =>
      ⟨Nat.zero_le _, by simpa using lie.inside interval inside⟩
    rw [toPlainFragment_eq, read_insertMarkers plain all lie.increasing rfl rfl]
    simp [Reading.empty]
  · intro marked
    rw [toPlainFragment_eq]
    exact ⟨(Reading.Sound.empty.read marked).plain, (Reading.Sound.empty.read marked).lie⟩

-- A match within a match, one that is not closed, and an empty one.
example : toPlainFragment [0xE000, 0x61, 0xE000, 0x62, 0xE001, 0xE000, 0xE001, 0xE000, 0x63] =
    ⟨[0x61, 0x62, 0x63], [⟨1, 2⟩]⟩ := by decide

end PrSearch.Search.Fragments
