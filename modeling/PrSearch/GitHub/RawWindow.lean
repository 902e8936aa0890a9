import Mathlib.Data.List.Basic

/-! # A window of a body

A body arrives in chunks. What stands before the window is skipped, and the stream is cut when the window
is full. Whether the body ends there is seen from what is left of the last chunk, and from one more read
if nothing is left. An empty chunk behind the window looks like more of the body.
-/
namespace PrSearch.GitHub

abbrev Bytes := List UInt8

structure RawWindow where
  bytes : Bytes
  eof : Bool
deriving DecidableEq

/-- The variables of the loop. `filled` is the length of `collected`. -/
structure Reading where
  skipped : Nat
  collected : Bytes
  remainder : Bool

variable (offset length : Nat)

/-- One turn of the loop. -/
def takeChunk (reading : Reading) (chunk : Bytes) : Reading :=
  let skip := if reading.skipped < offset then min (offset - reading.skipped) chunk.length else 0
  let bytes := chunk.drop skip
  let take := min bytes.length (length - reading.collected.length)
  ⟨reading.skipped + skip, reading.collected ++ bytes.take take,
    reading.remainder || decide (take < bytes.length)⟩

/-- The loop: up to the end of the body, or until the window is full and with the chunks that are left. -/
def fillWindow (reading : Reading) : List Bytes → Reading × Option (List Bytes)
  | [] => (reading, if reading.collected.length < length then none else some [])
  | chunk :: rest =>
      if reading.collected.length < length then fillWindow (takeChunk offset length reading chunk) rest
      else (reading, some (chunk :: rest))

/-- A response may have no body at all. -/
def readWindow : Option (List Bytes) → RawWindow
  | none => ⟨[], true⟩
  | some chunks =>
      match fillWindow offset length ⟨0, [], false⟩ chunks with
      | (reading, none) => ⟨reading.collected, true⟩
      | (reading, some rest) =>
          ⟨reading.collected, if reading.remainder then false else rest.isEmpty⟩

/-- The bytes of a body. -/
def bytesOf (body : Option (List Bytes)) : Bytes := (body.getD []).flatten

@[simp] theorem bytesOf_some (chunks : List Bytes) : bytesOf (some chunks) = chunks.flatten := rfl

/-! ### The loop -/

/-- What the loop knows of the bytes it has seen. -/
def readingOf (seen : Bytes) : Reading :=
  ⟨min offset seen.length, (seen.drop offset).take length, decide (offset + length < seen.length)⟩

-- What is skipped of a chunk is what is missing to the offset, or the whole chunk.
theorem skip_eq (seen chunk : Bytes) :
    (if min offset seen.length < offset then min (offset - min offset seen.length) chunk.length else 0) =
      min (offset - seen.length) chunk.length := by
  split <;> omega

theorem drop_min_length (count : Nat) (chunk : Bytes) : chunk.drop (min count chunk.length) = chunk.drop count := by
  rcases Nat.le_total count chunk.length with within | beyond
  · rw [Nat.min_eq_left within]
  · rw [Nat.min_eq_right beyond, List.drop_length, List.drop_of_length_le beyond]

theorem take_min_length (count : Nat) (bytes : Bytes) : bytes.take (min bytes.length count) = bytes.take count := by
  rcases Nat.le_total count bytes.length with within | beyond
  · rw [Nat.min_eq_right within]
  · rw [Nat.min_eq_left beyond, List.take_length, List.take_of_length_le beyond]

/-- One turn keeps what is known. -/
theorem takeChunk_readingOf (seen chunk : Bytes) :
    takeChunk offset length (readingOf offset length seen) chunk = readingOf offset length (seen ++ chunk) := by
  unfold takeChunk readingOf
  dsimp only
  rw [skip_eq, drop_min_length, take_min_length, Reading.mk.injEq]
  refine ⟨?_, ?_, ?_⟩
  · rw [List.length_append]
    omega
  · have missing : length - ((seen.drop offset).take length).length = length - (seen.drop offset).length := by
      rw [List.length_take]
      omega
    rw [missing, List.drop_append, List.take_append]
  · rw [← Bool.decide_or, decide_eq_decide]
    simp only [List.length_append, List.length_drop, List.length_take]
    omega

/-- Before its end is seen, the window is not full. -/
theorem room_of_before (some_ : 1 ≤ length) {seen : Bytes} (before : seen.length < offset + length) :
    (readingOf offset length seen).collected.length < length := by
  simp only [readingOf, List.length_take, List.length_drop]
  omega

/-- The loop runs into the end of a body that is too short. -/
theorem fillWindow_short (some_ : 1 ≤ length) (seen : Bytes) (chunks : List Bytes)
    (short : (seen ++ chunks.flatten).length < offset + length) :
    fillWindow offset length (readingOf offset length seen) chunks =
      (readingOf offset length (seen ++ chunks.flatten), none) := by
  induction chunks generalizing seen with
  | nil =>
    rw [List.flatten_nil, List.append_nil] at short
    rw [fillWindow, if_pos (room_of_before offset length some_ short), List.flatten_nil, List.append_nil]
  | cons chunk rest ih =>
    rw [List.flatten_cons, ← List.append_assoc] at short ⊢
    have before : seen.length < offset + length := by
      simp only [List.length_append] at short
      omega
    rw [fillWindow, if_pos (room_of_before offset length some_ before), takeChunk_readingOf,
      ih (seen ++ chunk) short]

/-- Otherwise it stops behind the chunk with the last byte of the window, and that chunk has bytes. -/
theorem fillWindow_full (some_ : 1 ≤ length) (seen : Bytes) (chunks : List Bytes) (before : seen.length < offset + length)
    (enough : offset + length ≤ (seen ++ chunks.flatten).length) :
    ∃ front last rest, chunks = front ++ last :: rest ∧
      (seen ++ front.flatten).length < offset + length ∧
      offset + length ≤ (seen ++ front.flatten ++ last).length ∧
      fillWindow offset length (readingOf offset length seen) chunks =
        (readingOf offset length (seen ++ front.flatten ++ last), some rest) := by
  induction chunks generalizing seen with
  | nil =>
    simp only [List.flatten_nil, List.append_nil] at enough
    omega
  | cons chunk rest ih =>
    rw [fillWindow, if_pos (room_of_before offset length some_ before), takeChunk_readingOf]
    by_cases full : offset + length ≤ (seen ++ chunk).length
    · refine ⟨[], chunk, rest, rfl, by simpa using before, by simpa using full, ?_⟩
      have noRoom : ¬(readingOf offset length (seen ++ chunk)).collected.length < length := by
        simp only [readingOf, List.length_take, List.length_drop]
        omega
      rw [List.flatten_nil, List.append_nil]
      cases rest with
      | nil => rw [fillWindow, if_neg noRoom]
      | cons next later => rw [fillWindow, if_neg noRoom]
    · rw [List.flatten_cons, ← List.append_assoc] at enough
      obtain ⟨front, last, later, parts, under, past, filled⟩ := ih (seen ++ chunk) (by omega) enough
      refine ⟨chunk :: front, last, later, by rw [parts, List.cons_append], ?_, ?_, ?_⟩
      · rwa [List.flatten_cons, ← List.append_assoc]
      · rwa [List.flatten_cons, ← List.append_assoc]
      · rw [filled, List.flatten_cons, ← List.append_assoc]

/-! ### One window -/

/-- The bytes of the slice, and the end of the body where it is. -/
def IsSlice (body : Bytes) (window : RawWindow) : Prop :=
  window.bytes = (body.drop offset).take length ∧ (window.eof = true ↔ body.length ≤ offset + length)

/-- The body ends with the window, and an empty chunk comes behind. -/
def EmptyBehind : Option (List Bytes) → Prop
  | none => False
  | some chunks => chunks.flatten.length = offset + length ∧ chunks.getLast? = some []

theorem readingOf_nil : readingOf offset length [] = ⟨0, [], false⟩ := by
  simp [readingOf]

variable {chunks : List Bytes} {body : Option (List Bytes)}

theorem readWindow_short (some_ : 1 ≤ length) (short : chunks.flatten.length < offset + length) :
    readWindow offset length (some chunks) = ⟨(chunks.flatten.drop offset).take length, true⟩ := by
  rw [readWindow, ← readingOf_nil offset length, fillWindow_short offset length some_ [] chunks short]
  rfl

variable {length}

/-- A window that is filled: what its last chunk leaves and the chunks behind it decide the end. -/
theorem readWindow_full (some_ : 1 ≤ length) (enough : offset + length ≤ chunks.flatten.length) :
    ∃ front last rest, chunks = front ++ last :: rest ∧ front.flatten.length < offset + length ∧
      offset + length ≤ (front.flatten ++ last).length ∧
      readWindow offset length (some chunks) =
        ⟨(chunks.flatten.drop offset).take length,
          if offset + length < (front.flatten ++ last).length then false else rest.isEmpty⟩ := by
  obtain ⟨front, last, rest, rfl, under, past, filled⟩ :=
    fillWindow_full offset length some_ [] chunks (by simp; omega) (by simpa using enough)
  refine ⟨front, last, rest, rfl, under, past, ?_⟩
  rw [readWindow, ← readingOf_nil offset length, filled]
  have inside : length ≤ ((front.flatten ++ last).drop offset).length := by
    rw [List.length_drop]
    simp only [List.nil_append] at past
    omega
  simp only [readingOf, List.nil_append, decide_eq_true_eq, RawWindow.mk.injEq]
  refine ⟨?_, trivial⟩
  have whole : (front ++ last :: rest).flatten = (front.flatten ++ last) ++ rest.flatten := by simp
  have within : offset ≤ (front.flatten ++ last).length := by
    simp only [List.nil_append] at past
    omega
  have same : ((front ++ last :: rest).flatten.drop offset).take length =
      ((front.flatten ++ last).drop offset).take length := by
    rw [whole, List.drop_append_of_le_length within, List.take_append_of_le_length inside]
  exact same.symm

theorem readWindow_bytes (some_ : 1 ≤ length) (body : Option (List Bytes)) :
    (readWindow offset length body).bytes = ((bytesOf body).drop offset).take length := by
  cases body with
  | none => simp [bytesOf, readWindow]
  | some chunks =>
    by_cases short : chunks.flatten.length < offset + length
    · rw [readWindow_short offset length some_ short]
      rfl
    · obtain ⟨_, _, _, _, _, _, read⟩ := readWindow_full offset some_ (Nat.le_of_not_lt short)
      rw [read]
      rfl

/-- A body that is too short for the window has ended. -/
theorem readWindow_eof_of_short (some_ : 1 ≤ length)
    (short : (bytesOf body).length < offset + length) :
    (readWindow offset length body).eof = true := by
  cases body with
  | none => rfl
  | some chunks =>
    rw [bytesOf_some] at short
    rw [readWindow_short offset length some_ short]

/-- An end that is reported is one. -/
theorem length_le_of_eof (some_ : 1 ≤ length) (ended : (readWindow offset length body).eof = true) :
    (bytesOf body).length ≤ offset + length := by
  by_contra longer
  cases body with
  | none => exact longer (Nat.zero_le _)
  | some chunks =>
    rw [bytesOf_some] at longer
    obtain ⟨front, last, rest, rfl, _, past, read⟩ := readWindow_full offset some_ (Nat.le_of_not_le longer)
    rw [read] at ended
    dsimp only at ended
    split at ended
    · cases ended
    next exact_ =>
      rw [List.isEmpty_iff] at ended
      subst ended
      simp only [List.flatten_append, List.flatten_cons, List.flatten_nil, List.append_nil] at longer
      omega

/-- The window is filled by the last byte of the body: its end is seen unless an empty chunk is read. -/
theorem eof_of_exact (some_ : 1 ≤ length) (exact_ : chunks.flatten.length = offset + length) :
    (readWindow offset length (some chunks)).eof = true ↔ chunks.getLast? ≠ some [] := by
  obtain ⟨front, last, rest, rfl, under, past, read⟩ := readWindow_full offset some_ (Nat.le_of_eq exact_.symm)
  have whole : (front ++ last :: rest).flatten = (front.flatten ++ last) ++ rest.flatten := by simp
  rw [whole, List.length_append] at exact_
  have tight : ¬offset + length < (front.flatten ++ last).length := by omega
  rw [read]
  dsimp only
  rw [if_neg tight, List.isEmpty_iff]
  have noMore : rest.flatten = [] := List.eq_nil_of_length_eq_zero (by omega)
  have filled : last ≠ [] := by
    rintro rfl
    rw [List.append_nil] at past
    omega
  constructor
  · rintro rfl
    rw [List.getLast?_append_cons, List.getLast?_singleton, ne_eq, Option.some.injEq]
    exact filled
  · intro nonempty
    by_contra more
    have lastOf : (front ++ last :: rest).getLast? = rest.getLast? := by
      rw [List.getLast?_append_of_ne_nil _ (List.cons_ne_nil _ _), List.getLast?_cons_of_ne_nil more]
    rw [lastOf, List.getLast?_eq_some_getLast more] at nonempty
    have empty := List.flatten_eq_nil_iff.mp noMore _ (List.getLast_mem more)
    exact nonempty (congrArg some empty)

/-- Every window is the slice, and its end is right unless an empty chunk comes behind. -/
theorem isSlice_iff (some_ : 1 ≤ length) (body : Option (List Bytes)) :
    IsSlice offset length (bytesOf body) (readWindow offset length body) ↔ ¬EmptyBehind offset length body := by
  refine (and_iff_right (readWindow_bytes offset some_ body)).trans ?_
  rcases Nat.lt_trichotomy (bytesOf body).length (offset + length) with short | exact_ | longer
  · have ended := readWindow_eof_of_short offset some_ short
    have apart : ¬EmptyBehind offset length body := by
      cases body with
      | none => exact not_false
      | some chunks => exact fun behind => absurd behind.1 (Nat.ne_of_lt short)
    simp [ended, apart, Nat.le_of_lt short]
  · cases body with
    | none => exact absurd exact_ (by simp only [bytesOf, Option.getD_none, List.flatten_nil, List.length_nil]; omega)
    | some chunks =>
      rw [bytesOf_some] at exact_ ⊢
      rw [eof_of_exact offset some_ exact_, iff_true_right (Nat.le_of_eq exact_)]
      exact (not_congr (and_iff_right exact_)).symm
  · have open_ : (readWindow offset length body).eof ≠ true := fun ended =>
      absurd (length_le_of_eof offset some_ ended) (by omega)
    have apart : ¬EmptyBehind offset length body := by
      cases body with
      | none => exact not_false
      | some chunks => exact fun behind => absurd behind.1 (Nat.ne_of_gt longer)
    simp [open_, apart, longer]

/-! ### All windows -/

/-- Window after window until one reports the end, each from a response with chunks of its own. -/
def readWindows (chunkings : Nat → Option (List Bytes)) (length : Nat) : Nat → Nat → Option Bytes
  | 0, _ => none
  | fuel + 1, index =>
      let window := readWindow (index * length) length (chunkings index)
      if window.eof then some window.bytes
      else (readWindows chunkings length fuel (index + 1)).map (window.bytes ++ ·)

theorem readWindows_eq (some_ : 1 ≤ length) {chunkings : Nat → Option (List Bytes)} {body : Bytes}
    (same : ∀ index, bytesOf (chunkings index) = body) (fuel index : Nat)
    (enough : body.length < (index + fuel) * length) :
    readWindows chunkings length fuel index = some (body.drop (index * length)) ∨ fuel = 0 := by
  induction fuel generalizing index with
  | zero => exact .inr rfl
  | succ fuel ih =>
    left
    have bytes := readWindow_bytes (index * length) some_ (chunkings index)
    rw [same index] at bytes
    rw [readWindows, bytes]
    split
    next ended =>
      have last := length_le_of_eof (index * length) some_ ended
      rw [same index] at last
      rw [List.take_of_length_le (by rw [List.length_drop]; omega)]
    next open_ =>
      have more : index * length + length ≤ body.length := by
        by_contra short
        exact open_ (readWindow_eof_of_short (index * length) some_ (by rw [same index]; omega))
      rcases ih (index + 1) (by rwa [Nat.add_right_comm, Nat.add_assoc]) with rest | none_
      · rw [rest, Option.map_some, Nat.succ_mul, ← List.drop_drop, List.take_append_drop]
      · subst none_
        rw [Nat.zero_add, Nat.succ_mul] at enough
        omega

/-- Every window is the slice, with the right end unless an empty chunk comes behind, and the windows
up to the first that reports the end join to the body. -/
theorem readWindow_slices (some_ : 1 ≤ length) :
    (∀ (offset : Nat) (body : Option (List Bytes)),
      (readWindow offset length body).bytes = ((bytesOf body).drop offset).take length ∧
        (IsSlice offset length (bytesOf body) (readWindow offset length body) ↔ ¬EmptyBehind offset length body)) ∧
    ∀ (chunkings : Nat → Option (List Bytes)) (body : Bytes), (∀ index, bytesOf (chunkings index) = body) →
      readWindows chunkings length (body.length / length + 2) 0 = some body := by
  refine ⟨fun offset body => ⟨readWindow_bytes offset some_ body, isSlice_iff offset some_ body⟩, ?_⟩
  intro chunkings body same
  have enough : body.length < (0 + (body.length / length + 2)) * length := by
    have below : body.length < body.length / length * length + length := Nat.lt_div_mul_add (by omega)
    calc body.length < body.length / length * length + length := below
      _ ≤ body.length / length * length + 2 * length := by omega
      _ = (0 + (body.length / length + 2)) * length := by rw [Nat.zero_add, Nat.add_mul]
  rcases readWindows_eq some_ same _ 0 enough with joined | none_
  · rw [joined, Nat.zero_mul, List.drop_zero]
  · exact absurd none_ (Nat.succ_ne_zero _)

/-- One byte, an empty chunk and the end: the window of one byte does not see the end. -/
theorem eof_missed_behind_empty_chunk :
    readWindow 0 1 (some [[7], []]) = ⟨[7], false⟩ ∧ ¬IsSlice 0 1 (bytesOf (some [[7], []])) (readWindow 0 1 (some [[7], []])) := by
  refine ⟨rfl, fun slice => ?_⟩
  exact absurd (slice.2.mpr (by decide)) (by decide)

/-- Windows of two bytes. -/
theorem readWindow_slices_two :
    (∀ (offset : Nat) (body : Option (List Bytes)),
      (readWindow offset 2 body).bytes = ((bytesOf body).drop offset).take 2 ∧
        (IsSlice offset 2 (bytesOf body) (readWindow offset 2 body) ↔ ¬EmptyBehind offset 2 body)) ∧
    ∀ (chunkings : Nat → Option (List Bytes)) (body : Bytes), (∀ index, bytesOf (chunkings index) = body) →
      readWindows chunkings 2 (body.length / 2 + 2) 0 = some body :=
  readWindow_slices (by decide)

end PrSearch.GitHub
