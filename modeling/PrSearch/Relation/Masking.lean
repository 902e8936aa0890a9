import PrSearch.Lib.SplitOn
import PrSearch.Relation.CodeSpans
import PrSearch.Relation.References

/-! # What is read beside code and quotations

The covered text has the code units of the text, but for those that became blanks, and no newline is
one of them. An expression has no blank in it, so what is read of a covered text stands in the text
itself, at the same place. Exactly the spans are covered where every line outside of fences and
quotations is paired throughout, and then everything else is read.
-/
namespace PrSearch.Relation

open Lib
open Query (Text Url)
open Pattern
open Reference

/-! ### Characters that become blanks -/

/-- The code units of a text: of which character each one is, and which one of it. -/
def unitsOf (text : Text) : List (Char × Nat) :=
  text.flatMap fun c => (List.range (size c)).map (c, ·)

/-- A code unit stays as it is, or becomes a blank and is no newline. -/
def KeptOrBlank (unit later : Char × Nat) : Prop :=
  later = unit ∨ unit.1 ≠ '\n' ∧ later = (' ', 0)

/-- Some characters, none of them a newline, have become blanks. -/
inductive Blanked : Text → Text → Prop
  | nil : Blanked [] []
  | keep (c : Char) {text masked : Text} : Blanked text masked → Blanked (c :: text) (c :: masked)
  | hide {c : Char} (other : c ≠ '\n') {text masked : Text} : Blanked text masked →
      Blanked (c :: text) (List.replicate (size c) ' ' ++ masked)

variable {line part rest front : Text} {lines : List Text} {before : Option Char}
  {found : ScanMatch}

section Blanked

variable {text masked : Text}

theorem Blanked.refl (text : Text) : Blanked text text := by
  induction text with
  | nil => exact .nil
  | cons c text ih => exact .keep c ih

theorem Blanked.append {text' masked' : Text} (first : Blanked text masked)
    (second : Blanked text' masked') : Blanked (text ++ text') (masked ++ masked') := by
  induction first with
  | nil => exact second
  | keep c _ ih => exact .keep c ih
  | hide other _ ih =>
    rw [List.append_assoc]
    exact .hide other ih

theorem blanked_blank (free : '\n' ∉ line) : Blanked line (blank line) := by
  induction line with
  | nil => exact .nil
  | cons c line ih =>
    rw [List.mem_cons, not_or] at free
    exact .hide (Ne.symm free.1) (ih free.2)

theorem blanked_cover (spans : List (Nat × Nat)) (offset : Nat) (free : '\n' ∉ line) :
    Blanked line (cover spans offset line) := by
  induction line generalizing offset with
  | nil => exact .nil
  | cons c line ih =>
    rw [List.mem_cons, not_or] at free
    rw [cover]
    split
    next => exact .hide (Ne.symm free.1) (ih _ free.2)
    next => exact .keep c (ih _ free.2)

theorem unitsOf_blanks (n : Nat) : unitsOf (List.replicate n ' ') = List.replicate n (' ', 0) := by
  have one_ : size ' ' = 1 := by decide
  induction n with
  | zero => rfl
  | succ n ih => simpa [unitsOf, List.replicate_succ, one_] using ih

theorem Blanked.units (blanked : Blanked text masked) :
    List.Forall₂ KeptOrBlank (unitsOf text) (unitsOf masked) := by
  induction blanked with
  | nil => exact .nil
  | keep c _ ih =>
    rw [unitsOf, List.flatMap_cons, unitsOf, List.flatMap_cons]
    exact List.rel_append (List.forall₂_same.mpr fun unit _ => .inl rfl) ih
  | @hide c other text masked _ ih =>
    have blanks : unitsOf (List.replicate (size c) ' ' ++ masked) =
        List.replicate (size c) (' ', 0) ++ unitsOf masked := by
      rw [← unitsOf_blanks, unitsOf, List.flatMap_append]
      rfl
    rw [blanks, unitsOf, List.flatMap_cons]
    refine List.rel_append ?_ ih
    refine List.forall₂_iff_get.mpr ⟨by simp, fun i _ _ => .inr ⟨?_, by simp⟩⟩
    simpa using other

theorem Blanked.begins (blanked : Blanked text masked) (whole : masked = part ++ rest)
    (solid : ' ' ∉ part) : ∃ rest', text = part ++ rest' ∧ Blanked rest' rest := by
  induction blanked generalizing part with
  | nil =>
    obtain ⟨rfl, rfl⟩ := List.append_eq_nil_iff.mp whole.symm
    exact ⟨[], rfl, .nil⟩
  | @keep c text masked later ih =>
    cases part with
    | nil =>
      rw [List.nil_append] at whole
      exact ⟨c :: text, rfl, whole ▸ .keep c later⟩
    | cons d part =>
      obtain ⟨rfl, rfl⟩ := List.cons.inj whole
      obtain ⟨rest', rfl, blanked⟩ := ih rfl fun inside => solid (List.mem_cons_of_mem _ inside)
      exact ⟨rest', rfl, blanked⟩
  | @hide c other text masked later ih =>
    cases part with
    | nil =>
      rw [List.nil_append] at whole
      exact ⟨c :: text, rfl, whole ▸ .hide other later⟩
    | cons d part =>
      obtain ⟨n, is⟩ := Nat.exists_eq_add_one.mpr (size_pos c)
      rw [is, List.replicate_succ, List.cons_append] at whole
      exact absurd ((List.cons.inj whole).1 ▸ List.mem_cons_self) solid

/-- What has no blank in it and stands in the covered text stands in the text, at the same place. -/
theorem Blanked.cut (blanked : Blanked text masked) (whole : masked = front ++ (part ++ rest))
    (some_ : part ≠ []) (solid : ' ' ∉ part) :
    ∃ front' rest', text = front' ++ (part ++ rest') ∧
      Pattern.sizeOf front' = Pattern.sizeOf front := by
  induction blanked generalizing front with
  | nil =>
    obtain ⟨_, none_⟩ := List.append_eq_nil_iff.mp whole.symm
    exact absurd (List.append_eq_nil_iff.mp none_).1 some_
  | @keep c text masked later ih =>
    cases front with
    | nil =>
      rw [List.nil_append] at whole
      obtain ⟨rest', is, _⟩ := (Blanked.keep c later).begins whole solid
      exact ⟨[], rest', is, rfl⟩
    | cons d front =>
      obtain ⟨rfl, is⟩ := List.cons.inj whole
      obtain ⟨front', rest', rfl, size_⟩ := ih is
      exact ⟨c :: front', rest', rfl, by rw [sizeOf_cons, sizeOf_cons, size_]⟩
  | @hide c other text masked later ih =>
    have one_ : size ' ' = 1 := by decide
    rcases List.append_eq_append_iff.mp whole with ⟨front₂, rfl, is⟩ | ⟨blanks, all, is⟩
    · obtain ⟨front', rest', rfl, size_⟩ := ih is
      exact ⟨c :: front', rest', rfl, by simp [size_, one_]⟩
    · -- the part begins where the blanks end
      cases blanks with
      | nil =>
        obtain ⟨front', rest', rfl, size_⟩ := ih (List.nil_append _ ▸ is.symm : masked = [] ++ _)
        refine ⟨c :: front', rest', rfl, ?_⟩
        rw [List.append_nil] at all
        rw [← all]
        simp [size_, one_]
      | cons d blanks =>
        obtain ⟨e, part, rfl⟩ := List.exists_cons_of_ne_nil some_
        have blank_ : d ∈ List.replicate (size c) ' ' := all ▸ by simp
        obtain rfl := (List.mem_replicate.mp blank_).2
        exact absurd ((List.cons.inj is).1 ▸ List.mem_cons_self) solid

-- Nothing but blanks is new.
theorem Blanked.free (blanked : Blanked text masked) {c : Char} (solid : c ≠ ' ') (free : c ∉ text) :
    c ∉ masked := by
  induction blanked with
  | nil => exact List.not_mem_nil
  | keep d _ ih =>
    rw [List.mem_cons, not_or] at free ⊢
    exact ⟨free.1, ih free.2⟩
  | hide other _ ih =>
    rw [List.mem_cons, not_or] at free
    rw [List.mem_append, not_or]
    exact ⟨fun inside => solid (List.mem_replicate.mp inside).2, ih free.2⟩

end Blanked

/-! ### The lines -/

theorem length_outside (fence : Option Text) (lines : List Text) :
    (outside fence lines).length = lines.length := by
  induction lines generalizing fence with
  | nil => cases fence <;> rfl
  | cons line lines ih =>
    cases fence with
    | some fence => simp [outside, ih]
    | none =>
      rw [outside]
      cases opener line <;> simp [ih]

/-- The lines outside are covered by the loop of inline code, the others as a whole. -/
theorem maskLines_eq (fence : Option Text) (lines : List Text) :
    maskLines fence lines = lines.zipWith (maskLine maskInlineCode) (outside fence lines) := by
  induction lines generalizing fence with
  | nil => cases fence <;> rfl
  | cons line lines ih =>
    cases fence with
    | some fence => simp [maskLines, outside, maskLine, ih]
    | none =>
      rw [maskLines, outside]
      cases opener line with
      | some run => simp [maskLine, ih]
      | none => cases quoted : quotation.matchStart line <;> simp [maskLine, ih]

theorem Blanked.intercalate {masked : List Text} (each : List.Forall₂ Blanked lines masked) :
    Blanked (['\n'].intercalate lines) (['\n'].intercalate masked) := by
  induction each with
  | nil => exact .nil
  | @cons line maskedLine lines masked is rest ih =>
    cases rest with
    | nil => simpa using is
    | cons =>
      rw [List.intercalate_cons_cons, List.intercalate_cons_cons]
      exact (is.append (.refl _)).append ih

theorem blanked_maskLines (fence : Option Text) (free : ∀ line ∈ lines, '\n' ∉ line) :
    List.Forall₂ Blanked lines (maskLines fence lines) := by
  induction lines generalizing fence with
  | nil => cases fence <;> exact .nil
  | cons line lines ih =>
    obtain ⟨own, later⟩ := List.forall_mem_cons.mp free
    cases fence with
    | some fence => exact .cons (blanked_blank own) (ih _ later)
    | none =>
      rw [maskLines]
      split
      next => exact .cons (blanked_blank own) (ih _ later)
      next =>
        split
        next => exact .cons (blanked_blank own) (ih _ later)
        next => exact .cons (blanked_cover _ _ own) (ih _ later)

theorem blanked_maskExcluded (text : Text) : Blanked text (maskExcluded text) := by
  have free : ∀ line ∈ text.splitOn '\n', '\n' ∉ line := fun line => not_mem_of_mem_splitOn
  have each := Blanked.intercalate (blanked_maskLines none free)
  rwa [List.intercalate_splitOn] at each

/-- How the lines are covered, one by one. -/
theorem maskExcluded_eq_iff (text : Text) : maskExcluded text = maskCode text ↔
    ∀ entry ∈ (text.splitOn '\n').zip (outside none (text.splitOn '\n')),
      entry.2 = true → PairedThroughout entry.1 := by
  have mapped : ∀ inline : Text → Text,
      (text.splitOn '\n').zipWith (maskLine inline) (outside none (text.splitOn '\n')) =
        ((text.splitOn '\n').zip (outside none (text.splitOn '\n'))).map
          fun entry => maskLine inline entry.1 entry.2 :=
    fun inline => by rw [List.map_zip_eq_zipWith]; rfl
  -- no line of the two has a newline, so the lines are given back by splitting
  have again : ∀ inline : Text → Text, (∀ line, '\n' ∉ line → Blanked line (inline line)) →
      (['\n'].intercalate ((text.splitOn '\n').zipWith (maskLine inline)
        (outside none (text.splitOn '\n')))).splitOn '\n' =
      (text.splitOn '\n').zipWith (maskLine inline) (outside none (text.splitOn '\n')) := by
    intro inline blanks
    refine List.splitOn_intercalate '\n' (fun line inside => ?_) fun none_ => ?_
    · rw [mapped] at inside
      obtain ⟨⟨original, plain⟩, member, rfl⟩ := List.mem_map.mp inside
      have free := not_mem_of_mem_splitOn (List.of_mem_zip member).1
      cases plain with
      | true => exact (blanks original free).free (by decide) free
      | false => exact (blanked_blank free).free (by decide) free
    · have lengths := congrArg List.length none_
      rw [List.length_zipWith, length_outside, Nat.min_self] at lengths
      exact List.splitOn_ne_nil '\n' text (List.length_eq_zero_iff.mp lengths)
  have lines : maskExcluded text = maskCode text ↔
      (text.splitOn '\n').zipWith (maskLine maskInlineCode) (outside none (text.splitOn '\n')) =
        (text.splitOn '\n').zipWith (maskLine maskPaired) (outside none (text.splitOn '\n')) := by
    rw [maskExcluded, maskCode, maskLines_eq]
    refine ⟨fun same => ?_, fun same => by rw [same]⟩
    rw [← again maskInlineCode fun line => blanked_cover _ 0, same,
      again maskPaired fun line => blanked_cover _ 0]
  rw [lines, mapped, mapped, List.map_inj_left]
  refine forall₂_congr fun entry inside => ?_
  cases plain : entry.2 with
  | true => simpa [maskLine] using maskInlineCode_eq_iff entry.1
  | false => simp [maskLine]

/-! ### Expressions have no blanks -/

section Expressions

/-- No run of the pattern takes a blank. -/
def Solid (pattern : Pattern) : Prop :=
  ∀ run, Piece.run run ∈ pattern.pieces → run.accepts ' ' = false

/-- A text that is read at a place is not empty and has no blank in it. -/
def ReadsSolid (text rest : Text) : Prop := ∃ used, text = used ++ rest ∧ used ≠ [] ∧ ' ' ∉ used

theorem Solid.used {pattern : Pattern} (solid : Solid pattern) (some_ : 0 < pattern.group.atLeast)
    {text found : Text} (matched : pattern.matchAt before text = some (found, rest)) :
    ReadsSolid text rest := by
  obtain ⟨used, rfl, inside, accepted⟩ := used_of_matchAt matched
  refine ⟨used, rfl, ?_, fun blank_ => ?_⟩
  · rintro rfl
    obtain rfl := List.infix_nil.mp inside
    exact absurd (bounds_of_matchAt matched).1 (Nat.not_le.mpr some_)
  · obtain ⟨run, member, accepts⟩ := accepted ' ' blank_
    rw [solid run member] at accepts
    cases accepts

theorem solid_urlPattern : Solid urlPattern := by
  intro run member
  simp [pieces, urlPattern, literal, one, perhaps] at member
  rcases member with rfl | rfl | rfl | rfl | rfl | rfl | rfl | rfl | rfl <;> decide

theorem solid_numberPattern : Solid numberPattern := by
  intro run member
  simp only [pieces, numberPattern, one, List.mem_append, List.mem_cons, Piece.run.injEq,
    List.not_mem_nil, or_false] at member
  rcases member with rfl | rfl <;> decide

theorem solid_fullPattern : Solid fullPattern := by
  intro run member
  simp only [pieces, fullPattern, List.mem_append, List.mem_cons, Piece.run.injEq, reduceCtorEq,
    List.not_mem_nil, or_false, false_or] at member
  exact member ▸ by decide

theorem solid_abbrevPattern : Solid abbrevPattern := by
  intro run member
  simp only [pieces, abbrevPattern, List.mem_append, List.mem_cons, Piece.run.injEq, reduceCtorEq,
    List.not_mem_nil, or_false, false_or] at member
  exact member ▸ by decide

/-- A segment takes a character and as many more as there are. -/
theorem readsSolid_segment {first more : Char → Bool} (firstSolid : first ' ' = false)
    (moreSolid : more ' ' = false) {text taken : Text}
    (matched : segment first more text = some (taken, rest)) : ReadsSolid text rest := by
  cases text with
  | nil => simp [Reference.segment] at matched
  | cons c text =>
    rw [Reference.segment] at matched
    split at matched
    next isFirst =>
      obtain ⟨rfl, rfl⟩ := Prod.mk.inj (Option.some.inj matched)
      refine ⟨c :: text.takeWhile more, ?_, List.cons_ne_nil _ _, fun blank_ => ?_⟩
      · rw [List.cons_append, List.takeWhile_append_dropWhile]
      · rcases List.mem_cons.mp blank_ with rfl | later
        · rw [firstSolid] at isFirst
          cases isFirst
        · have accepts := List.mem_takeWhile_imp later
          rw [moreSolid] at accepts
          cases accepts
    next => exact absurd matched.symm (Option.some_ne_none _)

theorem readsSolid_after {text : Text} (some_ : front ≠ []) (solid : ' ' ∉ front)
    (matched : after front text = some rest) : ReadsSolid text rest := by
  unfold after at matched
  split at matched
  next begins =>
    obtain ⟨back, rfl⟩ := begins
    rw [List.drop_left] at matched
    exact ⟨front, by rw [Option.some.inj matched], some_, solid⟩
  next => exact absurd matched.symm (Option.some_ne_none _)

theorem ReadsSolid.trans {text middle : Text} (first : ReadsSolid text middle)
    (second : ReadsSolid middle rest) : ReadsSolid text rest := by
  obtain ⟨used, rfl, some_, solid⟩ := first
  obtain ⟨used', rfl, _, solid'⟩ := second
  refine ⟨used ++ used', (List.append_assoc _ _ _).symm, by simp [some_], ?_⟩
  rw [List.mem_append, not_or]
  exact ⟨solid, solid'⟩

theorem readsSolid_matchCross {text : Text} (matched : matchCross text = some (found, rest)) :
    ReadsSolid text rest := by
  simp only [matchCross, Option.bind_eq_bind, Option.bind_eq_some_iff] at matched
  obtain ⟨⟨owner, _⟩, owned, _, slash, ⟨name, _⟩, named_, _, mark, ⟨digits, _⟩, numbered, is⟩ := matched
  obtain ⟨_, rfl⟩ := Prod.mk.inj (Option.some.inj is)
  refine (readsSolid_segment (by decide) (by decide) owned).trans ?_
  refine (readsSolid_after (by decide) (by decide) slash).trans ?_
  refine (readsSolid_segment (by decide) (by decide) named_).trans ?_
  refine (readsSolid_after (by decide) (by decide) mark).trans ?_
  exact readsSolid_segment (by decide) (by decide) numbered

theorem readsSolid_scanAt {text : Text} (matched : scanAt before text = some (found, rest)) :
    ReadsSolid text rest := by
  rcases of_orElse matched with url | matched
  · obtain ⟨_, holds, is⟩ := Option.map_eq_some_iff.mp url
    cases is
    exact solid_urlPattern.used (by decide) holds
  rcases of_orElse matched with cross | matched
  · exact readsSolid_matchCross cross
  rcases of_orElse matched with number | matched
  · obtain ⟨_, holds, is⟩ := Option.map_eq_some_iff.mp number
    cases is
    exact solid_numberPattern.used (by decide) holds
  rcases of_orElse matched with full | short
  · obtain ⟨_, holds, is⟩ := Option.map_eq_some_iff.mp full
    cases is
    exact solid_fullPattern.used (by decide) holds
  · obtain ⟨_, holds, is⟩ := Option.map_eq_some_iff.mp short
    cases is
    exact solid_abbrevPattern.used (by decide) holds

/-- An expression that is read in a covered text stands in the text itself, at the same place. -/
theorem Blanked.expression {text masked : Text} (blanked : Blanked text masked) {found : Nat × ScanMatch}
    (inside : found ∈ scan scanAt masked) :
    ∃ before front used rest, text = front ++ (used ++ rest) ∧ found.1 = Pattern.sizeOf front ∧
      used ≠ [] ∧ ∃ rest', scanAt before (used ++ rest') = some (found.2, rest') := by
  obtain ⟨before, front, back, after, whole, place, _, matched⟩ := of_mem_scanFrom inside
  obtain ⟨used, rfl, some_, solid⟩ := readsSolid_scanAt matched
  obtain ⟨front', rest', is, size_⟩ := blanked.cut whole some_ solid
  exact ⟨before, front', used, rest', is, by rw [size_, place, Nat.zero_add], some_, after, matched⟩

end Expressions

/-! ### What is read -/

section Reading

variable (absoluteUrl : Text → Option Url) (toLowerCase : Text → Text)

/-- The references in a text, where another one is what is left of it. -/
def readReferences (masked text : Text) (options : ExtractOptions) : List ExtractedReference :=
  (occurrences absoluteUrl toLowerCase masked options).foldl
    (record text (lineIndex masked) options.limit) []

/-- The reverts in a text, where another one is what is left of it. -/
def readReverts (masked text : Text) (isPullRequestTitle : Bool) : List ExtractedRevert :=
  let trailers := (named revertTrailer masked).map fun found =>
    (⟨.commit found.2, .exact_, evidenceLine text found.1⟩ : ExtractedRevert)
  let quoted := (revertQuoted.allMatches masked).filterMap fun found =>
    titleRevert text found.2 found.1
  let prefixed := if isPullRequestTitle then
      ((revertPrefix.matchStart masked).bind fun found =>
        titleRevert text (stripQuotes found) 0).toList
    else []
  Rows.firsts (fun entry => entry.target.key toLowerCase) (trailers ++ quoted ++ prefixed)

/-- What is covered and what is read of a text. -/
structure ReadsBesideCode (text : Text) : Prop where
  -- a code unit is kept, or is no newline and becomes a blank
  units : List.Forall₂ KeptOrBlank (unitsOf text) (unitsOf (maskExcluded text))
  -- an expression is not in what is covered
  expressions : ∀ found ∈ scan scanAt (maskExcluded text), ∃ before front used rest,
    text = front ++ (used ++ rest) ∧ found.1 = Pattern.sizeOf front ∧ used ≠ [] ∧
      ∃ rest', scanAt before (used ++ rest') = some (found.2, rest')
  -- fences, quotations and the spans of the other lines are covered, and nothing else
  exactly : maskExcluded text = maskCode text
  -- all references and reverts outside of them are read, and no others
  references : ∀ options, extractReferences absoluteUrl toLowerCase text options =
    readReferences absoluteUrl toLowerCase (maskCode text) text options
  reverts : ∀ isPullRequestTitle, extractReverts toLowerCase text isPullRequestTitle =
    readReverts toLowerCase (maskCode text) text isPullRequestTitle

/-- A text is read beside its code exactly if on every line outside of fences and quotations, no two
runs of backticks after the first one without a partner have the same length. -/
theorem readsBesideCode_iff (text : Text) : ReadsBesideCode absoluteUrl toLowerCase text ↔
    ∀ entry ∈ (text.splitOn '\n').zip (outside none (text.splitOn '\n')),
      entry.2 = true → PairedThroughout entry.1 := by
  rw [← maskExcluded_eq_iff]
  refine ⟨ReadsBesideCode.exactly, fun same => ?_⟩
  have blanked := blanked_maskExcluded text
  exact {
    units := blanked.units
    expressions := fun found => blanked.expression
    exactly := same
    references := fun options => by rw [← same]; rfl
    reverts := fun isPullRequestTitle => by rw [← same]; rfl }

/-- A run of two backticks has no partner, and the span after it is not covered: its reference is
read. -/
theorem span_after_unpaired_read :
    maskCode "`` see `#12`".toList = "`` see      ".toList ∧
    ((extractReferences (fun _ => none) lowerAscii "`` see `#12`".toList acme).map
      ExtractedReference.referenceKey) = ["pr:12".toList] ∧
    ¬ ReadsBesideCode (fun _ => none) lowerAscii "`` see `#12`".toList := by
  refine ⟨by decide, by decide +kernel, fun reads => ?_⟩
  have differs : maskExcluded "`` see `#12`".toList ≠ maskCode "`` see `#12`".toList := by
    decide
  exact differs reads.exactly

end Reading

end PrSearch.Relation
