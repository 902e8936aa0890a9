import PrSearch.Relation.Reference

/-! # The line of an offset

The lines of a text follow each other, so that halving finds the one of an offset. An offset is in a
trailer when it is on the line of a trailer, after its colon.
-/
namespace PrSearch.Relation.Reference

open Query (Text units)

section LineAt

variable {lines : List LineSpan} {span : LineSpan} {offset : Nat}

/-- The lines follow each other. -/
structure InOrder (lines : List LineSpan) : Prop where
  each : ∀ span ∈ lines, span.start ≤ span.stop
  apart : lines.Pairwise fun left right => left.stop < right.start

theorem InOrder.lt (order : InOrder lines) {i j : Nat} {left right : LineSpan} (less : i < j)
    (hl : lines[i]? = some left) (hr : lines[j]? = some right) : left.stop < right.start := by
  obtain ⟨hi, rfl⟩ := List.getElem?_eq_some_iff.mp hl
  obtain ⟨hj, rfl⟩ := List.getElem?_eq_some_iff.mp hr
  exact List.pairwise_iff_getElem.mp order.apart i j hi hj less

theorem InOrder.le (order : InOrder lines) {i : Nat} (held : lines[i]? = some span) :
    span.start ≤ span.stop := order.each span (List.mem_of_getElem? held)

/-- Halving finds the line among those of the two places. -/
theorem lineAtFrom_eq_some (order : InOrder lines) {rounds low high : Nat}
    (within : high ≤ lines.length) (enough : high - low ≤ rounds) :
    lineAtFrom lines offset rounds low high = some span ↔
      ∃ i, low ≤ i ∧ i < high ∧ lines[i]? = some span ∧ span.start ≤ offset ∧
        offset ≤ span.stop := by
  induction rounds generalizing low high with
  | zero =>
    refine iff_of_false (fun is => Option.some_ne_none _ is.symm) ?_
    rintro ⟨i, _, _, _⟩
    omega
  | succ rounds ih =>
    rw [lineAtFrom]
    by_cases some : low < high
    · rw [if_pos some]
      obtain ⟨mid, is⟩ : ∃ mid, mid = (low + (high - 1)) / 2 := ⟨_, rfl⟩
      have least : low ≤ mid := by omega
      have most : mid < high := by omega
      have held : lines[mid]? = .some lines[mid] := List.getElem?_eq_getElem (by omega)
      simp only [← is, held]
      generalize lines[mid] = middle at held
      have forward := order.le held
      split
      next left =>
        rw [ih (by omega) (by omega)]
        constructor
        · rintro ⟨i, from_, before, rest⟩
          exact ⟨i, from_, by omega, rest⟩
        · rintro ⟨i, from_, before, at_, start, stop⟩
          refine ⟨i, from_, ?_, at_, start, stop⟩
          -- the line is none of the middle or after it
          by_contra notBefore
          rcases Nat.lt_or_eq_of_le (Nat.not_lt.mp notBefore) with beyond | rfl
          · have later := order.lt beyond held at_
            omega
          · obtain rfl := Option.some.inj (held.symm.trans at_)
            omega
      next notLeft =>
        split
        next right =>
          rw [ih (by omega) (by omega)]
          constructor
          · rintro ⟨i, from_, before, rest⟩
            exact ⟨i, by omega, before, rest⟩
          · rintro ⟨i, from_, before, at_, start, stop⟩
            refine ⟨i, ?_, before, at_, start, stop⟩
            by_contra notAfter
            rcases Nat.lt_or_eq_of_le (Nat.lt_succ_iff.mp (Nat.not_le.mp notAfter)) with earlier | rfl
            · have former := order.lt earlier at_ held
              omega
            · obtain rfl := Option.some.inj (held.symm.trans at_)
              omega
        next notRight =>
          constructor
          · rintro ⟨⟩
            exact ⟨mid, least, most, held, by omega, by omega⟩
          · rintro ⟨i, _, _, at_, start, stop⟩
            rcases Nat.lt_trichotomy i mid with earlier | rfl | later
            · have former := order.lt earlier at_ held
              omega
            · exact held.symm.trans at_
            · have behind := order.lt later held at_
              omega
    · rw [if_neg some]
      refine iff_of_false (fun is => Option.some_ne_none _ is.symm) ?_
      rintro ⟨i, _, _, _⟩
      omega

theorem lineAt_eq_some (order : InOrder lines) :
    lineAt lines offset = some span ↔ span ∈ lines ∧ span.start ≤ offset ∧ offset ≤ span.stop := by
  rw [lineAt, lineAtFrom_eq_some order (Nat.le_refl _) (by omega)]
  constructor
  · rintro ⟨i, _, _, at_, inside⟩
    exact ⟨List.mem_of_getElem? at_, inside⟩
  · rintro ⟨member, inside⟩
    obtain ⟨i, at_⟩ := List.mem_iff_getElem?.mp member
    exact ⟨i, Nat.zero_le i, (List.getElem?_eq_some_iff.mp at_).1, at_, inside⟩

/-- The offset of the line after some lines -/
def lineStart (before : List Text) : Nat := (before.map fun line => units line + 1).sum

theorem mem_lineSpans {start : Nat} {texts : List Text} : span ∈ lineSpans start texts ↔
    ∃ before line rest, texts = before ++ line :: rest ∧
      span = ⟨start + lineStart before, start + lineStart before + units line,
        (trailerLength line).map (start + lineStart before + ·)⟩ := by
  induction texts generalizing start with
  | nil => simp [lineSpans]
  | cons first texts ih =>
    rw [lineSpans, List.mem_cons, ih]
    constructor
    · rintro (rfl | ⟨before, line, rest, rfl, rfl⟩)
      · exact ⟨[], first, texts, rfl, rfl⟩
      · refine ⟨first :: before, line, rest, rfl, ?_⟩
        simp [lineStart, Nat.add_assoc]
    · rintro ⟨before, line, rest, whole, rfl⟩
      cases before with
      | nil =>
        obtain ⟨rfl, rfl⟩ := List.cons.inj whole
        exact .inl rfl
      | cons one before =>
        obtain ⟨rfl, rfl⟩ := List.cons.inj whole
        refine .inr ⟨before, line, rest, rfl, ?_⟩
        simp [lineStart, Nat.add_assoc]

theorem inOrder_lineSpans (start : Nat) (texts : List Text) : InOrder (lineSpans start texts) := by
  refine ⟨fun span member => ?_, ?_⟩
  · obtain ⟨_, _, _, _, rfl⟩ := mem_lineSpans.mp member
    exact Nat.le_add_right _ _
  · induction texts generalizing start with
    | nil => exact List.Pairwise.nil
    | cons line texts ih =>
      refine List.Pairwise.cons (fun span member => ?_) (ih _)
      obtain ⟨_, _, _, _, rfl⟩ := mem_lineSpans.mp member
      exact Nat.lt_of_lt_of_le (Nat.lt_succ_self _) (Nat.le_add_right _ _)

/-- The offset is on the line of a trailer, after its colon. -/
def AfterColon (masked : Text) (offset : Nat) : Prop :=
  ∃ before line rest, masked.splitOn '\n' = before ++ line :: rest ∧
    ∃ colon, trailerLength line = some colon ∧ lineStart before + colon ≤ offset ∧
      offset ≤ lineStart before + units line

theorem inTrailer_iff (masked : Text) (offset : Nat) :
    inTrailer (lineIndex masked) offset = true ↔ AfterColon masked offset := by
  rw [inTrailer, Option.any_eq_true]
  simp only [Option.bind_eq_some_iff, lineAt_eq_some (inOrder_lineSpans 0 _), lineIndex,
    mem_lineSpans, Nat.zero_add]
  constructor
  · rintro ⟨from_, ⟨span, ⟨⟨before, line, rest, whole, rfl⟩, start, stop⟩, is⟩, reached⟩
    obtain ⟨colon, trailer, rfl⟩ := Option.map_eq_some_iff.mp is
    exact ⟨before, line, rest, whole, colon, trailer, of_decide_eq_true reached, stop⟩
  · rintro ⟨before, line, rest, whole, colon, trailer, reached, stop⟩
    refine ⟨lineStart before + colon, ⟨_, ⟨⟨before, line, rest, whole, rfl⟩, ?_, stop⟩, ?_⟩,
      decide_eq_true reached⟩
    · exact Nat.le_trans (Nat.le_add_right _ _) reached
    · simp [trailer]

end LineAt

end PrSearch.Relation.Reference
