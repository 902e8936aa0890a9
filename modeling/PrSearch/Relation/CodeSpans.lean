import PrSearch.Relation.Reference

/-! # What is code

A run of backticks opens a span that the next run of its length closes; a run without such a partner
is text, and the search goes on with the run after it. The loop of the source ends at the first run
without a partner instead. What it covers is right on exactly those lines where no two of the runs
behind that one have the same length.
-/
namespace PrSearch.Relation

open Query (Text)
open Pattern

/-- A run of backticks, by its offset and its text -/
abbrev TickRun := Nat × Text

def TickRun.length (run : TickRun) : Nat := run.2.length

def TickRun.stop (run : TickRun) : Nat := run.1 + run.length

/-! ### Spans and lines, as they are meant -/

/-- Whether a later run closes the span that a run opens. -/
def TickRun.closedBy (run later : TickRun) : Bool := later.length == run.length

/-- The spans of the runs, the first of which belong to the span before. -/
def pairedSpans : Nat → List TickRun → List (Nat × Nat)
  | _, [] => []
  | skip + 1, _ :: runs => pairedSpans skip runs
  | 0, run :: runs =>
      match runs.find? run.closedBy with
      | some partner =>
          (run.1, partner.stop) :: pairedSpans (runs.findIdx run.closedBy + 1) runs
      | none => pairedSpans 0 runs

/-- The runs after the first one without a partner. -/
def leftOver : Nat → List TickRun → List TickRun
  | _, [] => []
  | skip + 1, _ :: runs => leftOver skip runs
  | 0, run :: runs =>
      match runs.find? run.closedBy with
      | some _ => leftOver (runs.findIdx run.closedBy + 1) runs
      | none => runs

def maskPaired (line : Text) : Text := cover (pairedSpans 0 (backticks.allMatches line)) 0 line

/-- Which of the lines are outside of fences and quotations, from one that may be inside a fence. -/
def outside : Option Text → List Text → List Bool
  | _, [] => []
  | some fence, line :: lines =>
      false :: outside (if closes fence line then none else some fence) lines
  | none, line :: lines =>
      match opener line with
      | some run => false :: outside (some run) lines
      | none => (quotation.matchStart line).isNone :: outside none lines

/-- A line outside is covered by its spans alone, and the others are covered. -/
def maskLine (inline : Text → Text) (line : Text) (plain : Bool) : Text :=
  if plain then inline line else blank line

def maskCode (text : Text) : Text :=
  ['\n'].intercalate
    ((text.splitOn '\n').zipWith (maskLine maskPaired) (outside none (text.splitOn '\n')))

/-- No two of the runs after the first one without a partner have the same length. -/
def PairedThroughout (line : Text) : Prop :=
  ((leftOver 0 (backticks.allMatches line)).map TickRun.length).Nodup

variable {front back : List TickRun}

/-! ### The loop and its end -/

section Runs

variable {run partner : TickRun} {runs : List TickRun}

theorem pairedSpans_skip (skip : Nat) (runs : List TickRun) :
    pairedSpans skip runs = pairedSpans 0 (runs.drop skip) := by
  induction runs generalizing skip with
  | nil => simp [pairedSpans]
  | cons run runs ih =>
    cases skip with
    | zero => rfl
    | succ skip => simpa [pairedSpans] using ih skip

theorem leftOver_skip (skip : Nat) (runs : List TickRun) :
    leftOver skip runs = leftOver 0 (runs.drop skip) := by
  induction runs generalizing skip with
  | nil => simp [leftOver]
  | cons run runs ih =>
    cases skip with
    | zero => rfl
    | succ skip => simpa [leftOver] using ih skip

/-- A run has no partner, or the next one of its length is its partner. -/
theorem partner_cases (run : TickRun) (runs : List TickRun) :
    (∀ later ∈ runs, later.length ≠ run.length) ∨
    ∃ front partner back, runs = front ++ partner :: back ∧ partner.length = run.length ∧
      ∀ later ∈ front, later.length ≠ run.length := by
  cases found : runs.find? run.closedBy with
  | none =>
    refine .inl fun later inside same => ?_
    have open_ := List.find?_eq_none.mp found later inside
    simp [TickRun.closedBy, same] at open_
  | some partner =>
    obtain ⟨closed, front, back, rfl, before⟩ := List.find?_eq_some_iff_append.mp found
    refine .inr ⟨front, partner, back, rfl, by simpa [TickRun.closedBy] using closed, ?_⟩
    intro later inside same
    have open_ := before later inside
    simp [TickRun.closedBy, same] at open_

/-- Runs are read from the left: one without a partner alone, one with a partner up to it. -/
theorem runs_induction {motive : List TickRun → Prop} (nil : motive [])
    (alone : ∀ run runs, (∀ later ∈ runs, TickRun.length later ≠ TickRun.length run) →
      motive runs → motive (run :: runs))
    (closed : ∀ run front partner back, TickRun.length partner = TickRun.length run →
      (∀ later ∈ front, TickRun.length later ≠ TickRun.length run) → motive back →
        motive (run :: (front ++ partner :: back)))
    (runs : List TickRun) : motive runs := by
  induction h : runs.length using Nat.strong_induction_on generalizing runs with
  | _ n ih =>
    subst h
    cases runs with
    | nil => exact nil
    | cons run runs =>
      rcases partner_cases run runs with apart | ⟨front, partner, back, rfl, same, apart⟩
      · exact alone run runs apart (ih runs.length (by simp) runs rfl)
      · exact closed run front partner back same apart (ih back.length (by simp; omega) back rfl)

theorem find_alone (apart : ∀ later ∈ runs, later.length ≠ run.length) :
    runs.find? run.closedBy = none := by
  simpa [TickRun.closedBy] using apart

theorem find_closed (back : List TickRun) (same : partner.length = run.length)
    (apart : ∀ later ∈ front, later.length ≠ run.length) :
    (front ++ partner :: back).find? run.closedBy = some partner ∧
      (front ++ partner :: back).drop ((front ++ partner :: back).findIdx run.closedBy + 1) =
        back := by
  have closed : run.closedBy partner = true := by simp [TickRun.closedBy, same]
  have before : front.findIdx run.closedBy = front.length :=
    List.findIdx_eq_length.mpr fun later inside => by
      simpa [TickRun.closedBy] using apart later inside
  constructor
  · rw [List.find?_append, find_alone apart]
    simp [closed]
  · simp [List.findIdx_append, before, List.findIdx_cons, closed]

theorem pairedSpans_alone (apart : ∀ later ∈ runs, later.length ≠ run.length) :
    pairedSpans 0 (run :: runs) = pairedSpans 0 runs := by
  simp only [pairedSpans, find_alone apart]

theorem pairedSpans_closed (same : partner.length = run.length)
    (apart : ∀ later ∈ front, later.length ≠ run.length) :
    pairedSpans 0 (run :: (front ++ partner :: back)) =
      (run.1, partner.stop) :: pairedSpans 0 back := by
  obtain ⟨found, rest⟩ := find_closed back same apart
  simp only [pairedSpans, found]
  rw [pairedSpans_skip, rest]

theorem leftOver_alone (apart : ∀ later ∈ runs, later.length ≠ run.length) :
    leftOver 0 (run :: runs) = runs := by
  simp only [leftOver, find_alone apart]

theorem leftOver_closed (same : partner.length = run.length)
    (apart : ∀ later ∈ front, later.length ≠ run.length) :
    leftOver 0 (run :: (front ++ partner :: back)) = leftOver 0 back := by
  obtain ⟨found, rest⟩ := find_closed back same apart
  simp only [leftOver, found]
  rw [leftOver_skip, rest]

theorem codeSpans_open (start : Nat) (ticks : Text) (back : List TickRun)
    (apart : ∀ later ∈ front, later.length ≠ ticks.length) :
    codeSpans (some (start, ticks)) (front ++ back) = codeSpans (some (start, ticks)) back := by
  induction front with
  | nil => rfl
  | cons run front ih =>
    have other : run.2.length ≠ ticks.length := apart run List.mem_cons_self
    rw [List.cons_append, codeSpans, if_neg other]
    exact ih fun later inside => apart later (List.mem_cons_of_mem _ inside)

theorem codeSpans_alone (apart : ∀ later ∈ runs, later.length ≠ run.length) :
    codeSpans none (run :: runs) = [] := by
  have all := codeSpans_open run.1 run.2 [] apart
  rw [List.append_nil] at all
  rw [codeSpans, all, codeSpans]

theorem codeSpans_closed (same : partner.length = run.length)
    (apart : ∀ later ∈ front, later.length ≠ run.length) :
    codeSpans none (run :: (front ++ partner :: back)) =
      (run.1, partner.stop) :: codeSpans none back := by
  have closes_ : partner.2.length = run.2.length := same
  rw [codeSpans, codeSpans_open run.1 run.2 _ apart, codeSpans, if_pos closes_]
  rfl

/-- The loop finds the spans up to the first run without a partner. -/
theorem pairedSpans_eq (runs : List TickRun) :
    pairedSpans 0 runs = codeSpans none runs ++ pairedSpans 0 (leftOver 0 runs) := by
  induction runs using runs_induction with
  | nil => rfl
  | alone run runs apart =>
    rw [pairedSpans_alone apart, leftOver_alone apart, codeSpans_alone apart, List.nil_append]
  | closed run front partner back same apart ih =>
    rw [pairedSpans_closed same apart, leftOver_closed same apart, codeSpans_closed same apart, ih]
    rfl

theorem pairedSpans_eq_nil : pairedSpans 0 runs = [] ↔ (runs.map TickRun.length).Nodup := by
  induction runs using runs_induction with
  | nil => simp [pairedSpans]
  | alone run runs apart ih =>
    rw [pairedSpans_alone apart, ih, List.map_cons, List.nodup_cons, List.mem_map]
    exact ⟨fun rest => ⟨fun ⟨later, inside, same⟩ => apart later inside same, rest⟩, And.right⟩
  | closed run front partner back same apart =>
    rw [pairedSpans_closed same apart]
    refine ⟨fun none_ => absurd none_ (List.cons_ne_nil _ _), fun distinct => ?_⟩
    refine absurd ?_ (List.nodup_cons.mp distinct).1
    exact List.mem_map.mpr ⟨partner, by simp, same⟩

end Runs

/-! ### Where the runs are -/

section Places

-- A run takes all the backticks that there are.
theorem matchAt_backticks {ticks back : Text} (all : ∀ c ∈ ticks, c = '`') (some_ : ticks ≠ [])
    (stops : back.head? ≠ some '`') (before : Option Char) :
    backticks.matchAt before (ticks ++ back) = some (ticks, back) := by
  have accepts : ∀ c ∈ ticks, backticks.group.accepts c = true :=
    fun c inside => beq_iff_eq.mpr (all c inside)
  have size_ : 1 ≤ Pattern.sizeOf ticks := by
    obtain ⟨c, rest, rfl⟩ := List.exists_cons_of_ne_nil some_
    have pos := size_pos c
    rw [sizeOf_cons]
    omega
  have ends : ∀ c ∈ back.head?, backticks.group.accepts c = false :=
    fun c is => beq_eq_false_iff_ne.mpr fun tick => stops (tick ▸ is)
  obtain ⟨shorter, lengths⟩ := Run.lengths_append accepts ends size_ (by simp [backticks])
  simp [matchAt, backticks, matchPieces] at lengths ⊢
  simp [lengths]

theorem matchAt_backticks_none {text : Text} (stops : text.head? ≠ some '`') (before : Option Char) :
    backticks.matchAt before text = none := by
  have lengths : backticks.group.lengths text = [] :=
    Run.lengths_eq_nil Nat.one_pos fun c is => beq_eq_false_iff_ne.mpr fun tick => stops (tick ▸ is)
  simp only [backticks] at lengths
  simp [matchAt, backticks, matchPieces, lengths]

theorem sizeOf_ticks {ticks : Text} (all : ∀ c ∈ ticks, c = '`') :
    Pattern.sizeOf ticks = ticks.length := by
  have one_ : size '`' = 1 := by decide
  rw [List.eq_replicate_of_mem all, sizeOf_replicate, one_]
  simp

/-- The runs come one after the other, from the end of what belongs to the last match. -/
theorem runs_inOrder (skip : Nat) (before : Option Char) (offset : Nat) (text : Text) :
    (∀ run ∈ backticks.matchesFrom skip before offset text,
      offset + Pattern.sizeOf (text.take skip) ≤ run.1 ∧ 0 < TickRun.length run) ∧
    (backticks.matchesFrom skip before offset text).Pairwise
      fun (run later : TickRun) => run.stop ≤ later.1 := by
  induction text generalizing skip before offset with
  | nil => cases skip <;> simp [matchesFrom]
  | cons c rest ih =>
    cases skip with
    | succ skip =>
      obtain ⟨later, order⟩ := ih skip (some c) (offset + size c)
      refine ⟨fun run inside => ?_, order⟩
      rw [List.take_succ_cons, sizeOf_cons, ← Nat.add_assoc]
      exact later run inside
    | zero =>
      by_cases tick : c = '`'
      · -- the run, and what comes after it
        obtain ⟨ticks, back, rfl, all, stops⟩ : ∃ ticks back, rest = ticks ++ back ∧
            (∀ d ∈ ticks, d = '`') ∧ back.head? ≠ some '`' := by
          refine ⟨rest.takeWhile (· == '`'), rest.dropWhile (· == '`'),
            List.takeWhile_append_dropWhile.symm, fun d inside => ?_, fun more => ?_⟩
          · have tick := List.mem_takeWhile_imp inside
            simpa using tick
          · have free := List.head?_dropWhile_not (· == '`') rest
            rw [more] at free
            simp at free
        subst tick
        have matched : backticks.matchAt before ('`' :: (ticks ++ back)) = some ('`' :: ticks, back) :=
          matchAt_backticks (by simpa using all) (List.cons_ne_nil _ _) stops before
        rw [matchesFrom, matched]
        obtain ⟨later, order⟩ := ih ((ticks ++ back).length - back.length) (some '`') (offset + size '`')
        have stop : TickRun.stop (offset, '`' :: ticks) =
            offset + size '`' + Pattern.sizeOf
              ((ticks ++ back).take ((ticks ++ back).length - back.length)) := by
          have taken : (ticks ++ back).length - back.length = ticks.length := by simp
          have one_ : size '`' = 1 := by decide
          rw [taken, List.take_left, sizeOf_ticks all, one_]
          simp [TickRun.stop, TickRun.length]
          omega
        refine ⟨fun run inside => ?_, List.Pairwise.cons (fun run inside => ?_) order⟩
        · rcases List.mem_cons.mp inside with rfl | after
          · simp [TickRun.length]
          · have bound := later run after
            rw [← stop] at bound
            refine ⟨Nat.le_trans ?_ bound.1, bound.2⟩
            simp [TickRun.stop]
        · rw [stop]
          exact (later run inside).1
      · rw [matchesFrom, matchAt_backticks_none (by simpa using tick)]
        obtain ⟨later, order⟩ := ih 0 (some c) (offset + size c)
        refine ⟨fun run inside => ?_, order⟩
        have bound := later run inside
        simp only [List.take_zero, sizeOf_nil] at bound ⊢
        omega

theorem tick_of_run {line : Text} {run : TickRun} (member : run ∈ backticks.allMatches line) :
    ∃ front back, line = front ++ '`' :: back ∧ run.1 = Pattern.sizeOf front := by
  rw [allMatches, matchesFrom_eq_scanFrom] at member
  obtain ⟨before, front, back, after, rfl, place, some_, matched⟩ := of_mem_scanFrom member
  obtain ⟨c, back, rfl⟩ := List.exists_cons_of_ne_nil some_
  by_cases tick : c = '`'
  · subst tick
    exact ⟨front, back, rfl, by simpa using place⟩
  · rw [matchAt_backticks_none (by simpa using tick)] at matched
    exact absurd matched.symm (Option.some_ne_none _)

end Places

/-! ### What is covered -/

section Cover

variable {spans others : List (Nat × Nat)}

theorem cover_append (spans : List (Nat × Nat)) (offset : Nat) (front back : Text) :
    cover spans offset (front ++ back) =
      cover spans offset front ++ cover spans (offset + Pattern.sizeOf front) back := by
  induction front generalizing offset with
  | nil => rfl
  | cons c front ih =>
    rw [List.cons_append, cover, ih, cover, List.append_assoc, sizeOf_cons, Nat.add_assoc]

theorem sizeOf_cover (spans : List (Nat × Nat)) (offset : Nat) (line : Text) :
    Pattern.sizeOf (cover spans offset line) = Pattern.sizeOf line := by
  have one_ : size ' ' = 1 := by decide
  induction line generalizing offset with
  | nil => rfl
  | cons c line ih =>
    rw [cover, sizeOf_append, ih, sizeOf_cons]
    split <;> simp [one_]

/-- A backtick that only one of two ways covers tells them apart. -/
theorem cover_ne {front back : Text}
    (covered : ∃ span ∈ others, span.1 ≤ Pattern.sizeOf front ∧ Pattern.sizeOf front < span.2)
    (left : ¬ ∃ span ∈ spans, span.1 ≤ Pattern.sizeOf front ∧ Pattern.sizeOf front < span.2) :
    cover spans 0 (front ++ '`' :: back) ≠ cover others 0 (front ++ '`' :: back) := by
  intro same
  rw [cover_append, cover_append, Nat.zero_add, cover, cover, if_neg left, if_pos covered] at same
  obtain ⟨_, after⟩ := append_inj_of_sizeOf same (by simp [sizeOf_cover])
  have one_ : size '`' = 1 := by decide
  simp [one_] at after

end Cover

section Exact

variable {runs : List TickRun}

theorem leftOver_suffix (runs : List TickRun) : leftOver 0 runs <:+ runs := by
  induction runs using runs_induction with
  | nil => exact List.suffix_rfl
  | alone run runs apart =>
    rw [leftOver_alone apart]
    exact List.suffix_cons run runs
  | closed run front partner back same apart ih =>
    rw [leftOver_closed same apart]
    exact ih.trans ⟨run :: front ++ [partner], by simp⟩

-- What is behind a partner is in order and begins after it.
theorem order_behind {run partner : TickRun}
    (order : (run :: (front ++ partner :: back)).Pairwise fun run later => run.stop ≤ later.1) :
    run.stop ≤ partner.1 ∧ (∀ later ∈ back, partner.stop ≤ later.1) ∧
      back.Pairwise fun run later => run.stop ≤ later.1 := by
  obtain ⟨first, rest⟩ := List.pairwise_cons.mp order
  obtain ⟨later, rest⟩ := List.pairwise_cons.mp (List.pairwise_append.mp rest).2.1
  exact ⟨first partner (by simp), later, rest⟩

/-- The spans of the loop end before what it leaves over. -/
theorem stop_le_leftOver (order : runs.Pairwise fun run later => run.stop ≤ later.1) :
    ∀ span ∈ codeSpans none runs, ∀ later ∈ leftOver 0 runs, span.2 ≤ later.1 := by
  induction runs using runs_induction with
  | nil => exact List.forall_mem_nil _
  | alone run runs apart =>
    rw [codeSpans_alone apart]
    exact List.forall_mem_nil _
  | closed run front partner back same apart ih =>
    obtain ⟨_, later, rest⟩ := order_behind order
    rw [codeSpans_closed same apart, leftOver_closed same apart]
    intro span inside left member
    rcases List.mem_cons.mp inside with rfl | inside
    · exact later left ((leftOver_suffix back).subset member)
    · exact ih rest span inside left member

/-- A span begins with one of the runs. -/
theorem run_of_pairedSpans (order : runs.Pairwise fun run later => run.stop ≤ later.1)
    (some_ : ∀ run ∈ runs, 0 < TickRun.length run) :
    ∀ span ∈ pairedSpans 0 runs, ∃ run ∈ runs, span.1 = run.1 ∧ run.1 < span.2 := by
  induction runs using runs_induction with
  | nil => exact List.forall_mem_nil _
  | alone run runs apart ih =>
    rw [pairedSpans_alone apart]
    intro span inside
    obtain ⟨first, member, is⟩ := ih (List.pairwise_cons.mp order).2
      (fun run inside => some_ run (List.mem_cons_of_mem _ inside)) span inside
    exact ⟨first, List.mem_cons_of_mem _ member, is⟩
  | closed run front partner back same apart ih =>
    obtain ⟨before, _, rest⟩ := order_behind order
    rw [pairedSpans_closed same apart]
    intro span inside
    rcases List.mem_cons.mp inside with rfl | inside
    · have pos := some_ partner (by simp)
      refine ⟨run, List.mem_cons_self, rfl, ?_⟩
      simp only [TickRun.stop] at before ⊢
      omega
    · obtain ⟨first, member, is⟩ := ih rest (fun run inside => some_ run (by simp [inside])) span inside
      exact ⟨first, by simp [member], is⟩

/-- A line is covered as it is meant exactly if no two of the runs behind the first one without a
partner have the same length. -/
theorem maskInlineCode_eq_iff (line : Text) : maskInlineCode line = maskPaired line ↔ PairedThroughout line := by
  obtain ⟨some_, order⟩ := runs_inOrder 0 none 0 line
  have split := pairedSpans_eq (backticks.allMatches line)
  rw [PairedThroughout, ← pairedSpans_eq_nil]
  constructor
  · intro same
    by_contra more
    obtain ⟨span, inside⟩ := List.exists_mem_of_ne_nil _ more
    have suffix_ := leftOver_suffix (backticks.allMatches line)
    obtain ⟨run, left, start, less⟩ := run_of_pairedSpans (order.sublist suffix_.sublist)
      (fun run member => (some_ run (suffix_.subset member)).2) span inside
    obtain ⟨front, back, rfl, place⟩ := tick_of_run (suffix_.subset left)
    refine cover_ne ⟨span, ?_, ?_, ?_⟩ ?_ same
    · rw [split]
      exact List.mem_append_right _ inside
    · omega
    · omega
    · rintro ⟨early, early_in, _, past⟩
      have before := stop_le_leftOver order early early_in run left
      omega
  · intro none_
    rw [maskInlineCode, maskPaired, split, none_, List.append_nil]

end Exact

end PrSearch.Relation
