import PrSearch.Source.FileWindow

/-! # Reading a file to its end

A file is a text up to the first byte that is none. A window ends within the text at a boundary, so the
next one starts with a character, or it reaches behind the text and is binary. There is one exception: a
continuation byte right behind a window is taken for an offset that no window has returned.
-/
namespace PrSearch.Source.Files

open Utf8

/-! ### The place where a window ends -/

section Cut

variable {bytes : Bytes} {byte : UInt8} {i : Nat}

theorem lastIndexOf_none (none_ : lastIndexOf byte bytes = none) : byte ∉ bytes := by
  induction bytes with
  | nil => exact List.not_mem_nil
  | cons own bytes ih =>
    rw [lastIndexOf] at none_
    split at none_
    next => cases none_
    next rest =>
      split at none_
      next => cases none_
      next other => simp [ih rest, Ne.symm other]

theorem lastIndexOf_some (found : lastIndexOf byte bytes = some i) :
    bytes[i]? = some byte ∧ ∀ j, i < j → bytes[j]? ≠ some byte := by
  induction bytes generalizing i with
  | nil => cases found
  | cons own bytes ih =>
    rw [lastIndexOf] at found
    split at found
    next j rest =>
      obtain rfl := Option.some.inj found
      obtain ⟨is, later⟩ := ih rest
      refine ⟨is, fun k less => ?_⟩
      obtain ⟨k, rfl⟩ := Nat.exists_eq_succ_of_ne_zero (by omega : k ≠ 0)
      exact later k (by omega)
    next rest =>
      split at found
      next is =>
        obtain rfl := Option.some.inj found
        refine ⟨by rw [is]; rfl, fun k less there => ?_⟩
        obtain ⟨k, rfl⟩ := Nat.exists_eq_succ_of_ne_zero (by omega : k ≠ 0)
        exact lastIndexOf_none rest (List.mem_of_getElem? there)
      next => cases found

theorem skipContinuation_spec (bytes : Bytes) (back rest : Nat) :
    skipContinuation bytes back rest ≤ rest ∧ rest ≤ skipContinuation bytes back rest + back ∧
      (∀ i, skipContinuation bytes back rest ≤ i → i < rest →
        isContinuation (bytes.getD i 0) = true) ∧
      (rest = skipContinuation bytes back rest + back ∨ skipContinuation bytes back rest = 0 ∨
        isContinuation (bytes.getD (skipContinuation bytes back rest - 1) 0) = false) := by
  induction back generalizing rest with
  | zero =>
    rw [skipContinuation]
    exact ⟨Nat.le_refl _, Nat.le_refl _, fun i from_ less => absurd less (Nat.not_lt.mpr from_), .inl rfl⟩
  | succ back ih =>
    cases rest with
    | zero =>
      rw [skipContinuation]
      · exact ⟨Nat.le_refl _, Nat.zero_le _, fun i _ less => absurd less (Nat.not_lt_zero i),
          .inr (.inl rfl)⟩
      · simp
    | succ rest =>
      rw [skipContinuation]
      split
      next continues =>
        obtain ⟨below, few, all, stop⟩ := ih rest
        refine ⟨by omega, by omega, fun i from_ less => ?_, ?_⟩
        · by_cases last : i = rest
          · rw [last]
            exact continues
          · exact all i from_ (by omega)
        · rcases stop with is | is | is
          · exact .inl (by omega)
          · exact .inr (.inl is)
          · exact .inr (.inr is)
      next other =>
        refine ⟨Nat.le_refl _, by omega, fun i from_ less => absurd less (by omega), .inr (.inr ?_)⟩
        rw [Nat.add_sub_cancel]
        simpa using other

end Cut

section Boundary

variable {bytes bad : Bytes} {good : List Char}

/-- A window that ends within a text ends at a boundary of it. -/
theorem utf8Boundary_spec (start : bytes <+: encode good ++ bad) (wide : 4 ≤ bytes.length) :
    0 < utf8Boundary bytes ∧ utf8Boundary bytes ≤ bytes.length ∧
      (utf8Boundary bytes ≤ (encode good).length → Boundary good (utf8Boundary bytes)) := by
  obtain ⟨below, few, all, stop⟩ := skipContinuation_spec bytes 3 bytes.length
  unfold utf8Boundary
  generalize skipContinuation bytes 3 bytes.length = rest at below few all stop ⊢
  obtain ⟨index, rfl⟩ := Nat.exists_eq_succ_of_ne_zero (by omega : rest ≠ 0)
  simp only [Nat.succ_eq_add_one, Nat.add_sub_cancel] at stop ⊢
  -- a byte of the window within the text
  have reads : ∀ i, i < bytes.length → i < (encode good).length →
      (encode good)[i]? = some (bytes.getD i 0) := by
    intro i within inside
    obtain ⟨more, whole⟩ := start
    have here : (bytes ++ more)[i]? = bytes[i]? := List.getElem?_append_left within
    rw [List.getD_eq_getElem?_getD, ← here, whole, List.getElem?_append_left inside,
      List.getElem?_eq_getElem inside, Option.getD_some]
  have small := width_le_four (bytes.getD index 0)
  split
  next complete =>
    refine ⟨by omega, Nat.le_refl _, fun inside => ?_⟩
    have lead := reads index (by omega) (by omega)
    have starts : isContinuation (bytes.getD index 0) = false := by
      rcases stop with many | none_ | starts
      · -- four bytes from the end on, one of them is no continuation byte
        obtain ⟨k, byte, few_, found, is⟩ := exists_not_continuation
          (by omega : index + 3 < (encode good).length)
        rw [reads (index + k) (by omega) (by omega)] at found
        obtain rfl := Option.some.inj found
        by_cases first : k = 0
        · rwa [first, Nat.add_zero] at is
        · have continues := all (index + k) (by omega) (by omega)
          rw [is] at continues
          cases continues
      · cases none_
      · exact starts
    have next_ := ((boundary_of_not_continuation lead starts).next lead).2
    by_cases last : index + width (bytes.getD index 0) = bytes.length
    · rwa [last] at next_
    · -- the character behind would start with a continuation byte
      have within : index + width (bytes.getD index 0) < bytes.length := by omega
      have other := (next_.next (reads _ within (by omega))).1
      have positive := width_pos (bytes.getD index 0)
      have continues := all (index + width (bytes.getD index 0)) (by omega) within
      rw [other] at continues
      cases continues
  next unfinished =>
    refine ⟨by omega, by omega, fun inside => ?_⟩
    by_cases last : index = (encode good).length
    · rw [last]
      exact boundary_length good
    · refine boundary_of_not_continuation (reads index (by omega) (by omega)) ?_
      by_contra continues
      have one : width (bytes.getD index 0) = 1 := width_of_isContinuation (by simpa using continues)
      omega

/-- The bytes end within the character that starts there. -/
def Unfinished (bytes : Bytes) (i : Nat) : Prop :=
  i < bytes.length ∧ isContinuation (bytes.getD i 0) = false ∧
    bytes.length < i + width (bytes.getD i 0) ∧
    ∀ j, i < j → j < bytes.length → isContinuation (bytes.getD j 0) = true

-- Only continuation bytes come behind it.
theorem Unfinished.unique {i k : Nat} (first : Unfinished bytes i) (second : Unfinished bytes k) :
    i = k := by
  obtain ⟨within, starts, _, behind⟩ := first
  obtain ⟨within', starts', _, behind'⟩ := second
  by_contra other
  rcases Nat.lt_or_gt_of_ne other with less | more
  · rw [behind k less within'] at starts'
    cases starts'
  · rw [behind' i more within] at starts
    cases starts

/-- An unfinished character is left out, and otherwise nothing. -/
theorem utf8Boundary_unfinished (wide : 4 ≤ bytes.length) :
    Unfinished bytes (utf8Boundary bytes) ∨
      (utf8Boundary bytes = bytes.length ∧ ∀ i, ¬ Unfinished bytes i) := by
  obtain ⟨below, few, all, stop⟩ := skipContinuation_spec bytes 3 bytes.length
  unfold utf8Boundary
  generalize skipContinuation bytes 3 bytes.length = rest at below few all stop ⊢
  obtain ⟨index, rfl⟩ := Nat.exists_eq_succ_of_ne_zero (by omega : rest ≠ 0)
  simp only [Nat.succ_eq_add_one, Nat.add_sub_cancel] at stop ⊢
  split
  next complete =>
    refine .inr ⟨rfl, fun i unfinished => ?_⟩
    obtain ⟨within, starts, wider, behind⟩ := unfinished
    have small := width_le_four (bytes.getD i 0)
    -- the bytes are skipped back to this character
    have notAfter : ¬ index < i := by
      intro after
      rw [all i (by omega) within] at starts
      cases starts
    have notBefore : ¬ i < index := by
      intro before
      rcases stop with many | none_ | other
      · omega
      · cases none_
      · rw [behind index before (by omega)] at other
        cases other
    obtain rfl : i = index := by omega
    omega
  next unfinished =>
    refine .inl ⟨by omega, ?_, by omega, fun j after within => all j (by omega) within⟩
    by_contra continues
    have one : width (bytes.getD index 0) = 1 := width_of_isContinuation (by simpa using continues)
    omega

end Boundary

/-! ### Exact answers -/

/-- The bytes of the window at an offset. -/
def windowOf (content : Bytes) (offset : Nat) : Bytes := (content.drop offset).take sourceWindowBytes

/-- The answers are about a regular file with this content, and give its bytes in one of both ways. -/
inductive Serves (content : Bytes) (answers : Answers) (offset : Nat) : Prop
  | inline (known : SourceContent) (is : answers.contentObject = .ok known) (file : known.type = "file")
      (size : known.size = content.length) (encoding : known.encoding = some "base64")
      (bytes : known.content = some content)
  | blob (known : SourceContent) (is : answers.contentObject = .ok known) (file : known.type = "file")
      (size : known.size = content.length)
      (other : ∀ bytes, known.encoding = some "base64" → known.content = some bytes →
        bytes.length ≠ content.length)
      (sha : isFullSha known.sha = true) (eof : Bool)
      (window : answers.blobWindow offset sourceWindowBytes = .ok ⟨windowOf content offset, eof⟩)
      (last : eof = true → content.length ≤ offset + sourceWindowBytes)

variable {known : SourceContent}

section Serves

variable {content : Bytes} {answers : Answers} {offset : Nat}

theorem length_windowOf (content : Bytes) (offset : Nat) :
    (windowOf content offset).length = min sourceWindowBytes (content.length - offset) := by
  rw [windowOf, List.length_take, List.length_drop]

theorem windowBytes_inline (size : known.size = content.length)
    (encoding : known.encoding = some "base64") (bytes : known.content = some content) :
    windowBytes answers known offset =
      .ok ⟨windowOf content offset, offset + sourceWindowBytes ≥ content.length⟩ := by
  simp only [windowBytes, encoding, bytes, if_true, size]
  rfl

theorem windowBytes_blob {window : RawWindow} (size : known.size = content.length)
    (other : ∀ bytes, known.encoding = some "base64" → known.content = some bytes →
      bytes.length ≠ content.length) (sha : isFullSha known.sha = true)
    (is : answers.blobWindow offset sourceWindowBytes = .ok window) :
    windowBytes answers known offset = .ok window := by
  unfold windowBytes
  simp only [sha, is, size, Bool.true_eq_false, if_false]
  split
  next => rfl
  next bytes found =>
    split at found
    next encoding => rw [if_neg (other bytes encoding found)]
    next => cases found

/-- With exact answers a request decodes its window of the content. -/
theorem Serves.request (serves : Serves content answers offset)
    (small : content.length ≤ githubBlobMaxBytes) (within : offset ≤ content.length) :
    ∃ sha eof, (eof = true → content.length ≤ offset + sourceWindowBytes) ∧
      sourceFileWindow answers offset =
        decodeWindow ⟨.missing, none, some content.length, sha, none, offset, none⟩
          ⟨windowOf content offset, eof⟩ content.length := by
  have notLarge : ¬ githubBlobMaxBytes < content.length := Nat.not_lt.mpr small
  have notBeyond : ¬ content.length < offset := Nat.not_lt.mpr within
  cases serves with
  | inline known is file size encoding bytes =>
    refine ⟨some known.sha, _, fun last => of_decide_eq_true last, ?_⟩
    simp only [sourceFileWindow, is, file, size, notLarge, notBeyond, if_false, ne_eq,
      not_true_eq_false, windowBytes_inline size encoding bytes]
  | blob known is file size other sha eof window last =>
    refine ⟨some known.sha, eof, last, ?_⟩
    simp only [sourceFileWindow, is, file, size, notLarge, notBeyond, if_false, ne_eq,
      not_true_eq_false, windowBytes_blob size other sha window]

end Serves

/-! ### A request within the text -/

def nul : Char := Char.ofNat 0

/-- A window from `offset` on ends at `stop`: behind its last newline, or without one before the character
it does not reach the end of, or without that behind its last byte. -/
inductive Cut (content : Bytes) (offset stop : Nat) : Prop
  | line (behind : offset < stop) (within : stop ≤ offset + sourceWindowBytes)
      (is : content[stop - 1]? = some newline)
      (last : ∀ i, stop ≤ i → i < offset + sourceWindowBytes → content[i]? ≠ some newline)
  | unfinished (none : ∀ i, offset ≤ i → i < offset + sourceWindowBytes → content[i]? ≠ some newline)
      (i : Nat) (is : stop = offset + i) (unfinished : Unfinished (windowOf content offset) i)
  | full (none : ∀ i, offset ≤ i → i < offset + sourceWindowBytes → content[i]? ≠ some newline)
      (is : stop = offset + sourceWindowBytes) (whole : ∀ i, ¬ Unfinished (windowOf content offset) i)

/-- The content starts with a pointer to a large file, behind a mark or not. -/
def IsLfsPointer (content : Bytes) : Prop :=
  encode lfsPointer <+: content ∨ encode (byteOrderMark :: lfsPointer) <+: content

section Step

variable {content bad chunk piece more : Bytes} {good chars : List Char} {offset stop stop' : Nat}
  {eof : Bool} {base : SourceFile}

theorem getElem?_windowOf {i : Nat} (less : i < sourceWindowBytes) :
    (windowOf content offset)[i]? = content[offset + i]? := by
  rw [windowOf, List.getElem?_take, if_pos less, List.getElem?_drop]

theorem Cut.unique (cut : Cut content offset stop) (cut' : Cut content offset stop') :
    stop = stop' := by
  cases cut with
  | line behind within is last =>
    cases cut' with
    | line behind' within' is' last' =>
      by_contra other
      rcases Nat.lt_or_gt_of_ne other with less | more
      · exact last (stop' - 1) (by omega) (by omega) is'
      · exact last' (stop - 1) (by omega) (by omega) is
    | unfinished none _ _ _ => exact absurd is (none (stop - 1) (by omega) (by omega))
    | full none _ _ => exact absurd is (none (stop - 1) (by omega) (by omega))
  | unfinished none i isStop unfinished =>
    cases cut' with
    | line behind within is _ => exact absurd is (none (stop' - 1) (by omega) (by omega))
    | unfinished _ k isStop' unfinished' => rw [isStop, isStop', unfinished.unique unfinished']
    | full _ _ whole => exact absurd unfinished (whole i)
  | full none isStop whole =>
    cases cut' with
    | line behind within is _ => exact absurd is (none (stop' - 1) (by omega) (by omega))
    | unfinished _ k _ unfinished => exact absurd unfinished (whole k)
    | full _ isStop' _ => rw [isStop, isStop']

/-- A window that is not the last one ends there. -/
theorem cut_windowCut (further : offset + sourceWindowBytes < content.length) :
    Cut content offset (offset + windowCut (windowOf content offset)) := by
  have length : (windowOf content offset).length = sourceWindowBytes := by
    rw [length_windowOf]
    omega
  unfold windowCut
  split
  next i found =>
    obtain ⟨is, later⟩ := lastIndexOf_some found
    have less : i < sourceWindowBytes := by
      rw [← length]
      exact (List.getElem?_eq_some_iff.mp is).1
    refine .line (by omega) (by omega) ?_ fun j from_ within => ?_
    · rw [getElem?_windowOf less] at is
      exact is
    · have not_ := later (j - offset) (by omega)
      rwa [getElem?_windowOf (by omega), Nat.add_sub_cancel' (by omega)] at not_
  next none =>
    have noNewline : ∀ i, offset ≤ i → i < offset + sourceWindowBytes → content[i]? ≠ some newline := by
      intro i from_ within there
      refine lastIndexOf_none none (List.mem_of_getElem? (i := i - offset) ?_)
      rw [getElem?_windowOf (by omega), Nat.add_sub_cancel' (by omega)]
      exact there
    have wide : 4 ≤ (windowOf content offset).length := by
      rw [length]
      decide
    rcases utf8Boundary_unfinished wide with unfinished | ⟨is, whole⟩
    · exact .unfinished noNewline _ rfl unfinished
    · exact .full noNewline (by rw [is, length]) whole

/-- It ends at a boundary when it ends within the text. -/
theorem boundary_windowCut (rest : content.drop offset = encode good ++ bad)
    (further : offset + sourceWindowBytes < content.length) :
    0 < windowCut (windowOf content offset) ∧
      windowCut (windowOf content offset) ≤ sourceWindowBytes ∧
      (windowCut (windowOf content offset) ≤ (encode good).length →
        Boundary good (windowCut (windowOf content offset))) := by
  have length : (windowOf content offset).length = sourceWindowBytes := by
    rw [length_windowOf]
    omega
  have start : windowOf content offset <+: encode good ++ bad := by
    rw [windowOf, rest]
    exact List.take_prefix _ _
  unfold windowCut
  split
  next i found =>
    obtain ⟨is, _⟩ := lastIndexOf_some found
    have less := (List.getElem?_eq_some_iff.mp is).1
    refine ⟨Nat.succ_pos _, by omega, fun inside => ?_⟩
    -- a newline is a character of one byte
    have there : (encode good)[i]? = some newline := by
      obtain ⟨more, whole⟩ := start
      have here : (encode good ++ bad)[i]? = (encode good)[i]? := List.getElem?_append_left inside
      rw [← here, ← whole, List.getElem?_append_left less, is]
    exact ((boundary_of_not_continuation there (by decide)).next there).2
  next =>
    obtain ⟨positive, below, boundary⟩ := utf8Boundary_spec start (by rw [length]; decide)
    exact ⟨positive, by omega, boundary⟩

/-- The text of a window. -/
def textFile (base : SourceFile) (text : List Char) (next : Option Nat) : SourceFile :=
  { base with
    status := .text
    text := some text
    nextOffset := next }

theorem lfs_of_skipMark {rest : Bytes} (is : content = encode chars ++ rest)
    (pointer : lfsPointer <+: skipMark false chars) : IsLfsPointer content := by
  obtain ⟨more, whole⟩ := pointer
  cases chars with
  | nil =>
    have empty : lfsPointer = [] := (List.append_eq_nil_iff.mp whole).1
    exact absurd empty (by decide)
  | cons first chars =>
    rw [skipMark] at whole
    split at whole
    next mark =>
      refine .inr ⟨encode more ++ rest, ?_⟩
      rw [is, mark.1, ← whole, ← List.append_assoc, ← encode_append, List.cons_append]
    next =>
      refine .inl ⟨encode more ++ rest, ?_⟩
      rw [is, ← whole, ← List.append_assoc, ← encode_append]

-- A chunk within the text.
theorem decodeChunk_text (absent : nul ∉ chars) (next : Option Nat)
    (other : base.offset = 0 → ¬ lfsPointer <+: skipMark false chars) :
    decodeChunk base (encode chars) next = textFile base (skipMark (0 < base.offset) chars) next := by
  have clean : ¬ (0 : UInt8) ∈ encode chars := fun inside => absent (zero_mem_encode.mp inside)
  simp only [decodeChunk, clean, if_false, decodeText, decode_encode, Option.map_some]
  split
  next pointer =>
    obtain ⟨start, pointer⟩ := pointer
    simp only [start, Nat.lt_irrefl, decide_false] at pointer
    exact absurd pointer (other start)
  next => rfl

-- A chunk that reaches behind the text.
theorem decodeChunk_binary (base : SourceFile) (chars : List Char) (stops : Stops nul (piece ++ more))
    (some_ : piece ≠ []) (next : Option Nat) :
    ∃ reason, decodeChunk base (encode chars ++ piece) next =
      { base with status := .binary, reason := some reason } := by
  unfold decodeChunk
  split
  next => exact ⟨binaryText, rfl⟩
  next clean =>
    have none_ : decode (encode chars ++ piece) = none := by
      refine Option.eq_none_iff_forall_ne_some.mpr fun decoded is => clean ?_
      rw [decode_eq_some_iff.mp is]
      exact zero_mem_encode.mpr (mem_of_decode_stop stops some_ is)
    rw [decodeText, none_]
    exact ⟨notUtf8Text, rfl⟩

/-- What a request answers from an offset within the text: at the end of the file, and before it. -/
inductive Answered (content : Bytes) (good : List Char) (bad : Bytes) (base : SourceFile) :
    Except Failure SourceFile → Prop
  | whole (clean : bad = []) (last : content.length ≤ base.offset + sourceWindowBytes) :
      Answered content good bad base (.ok (textFile base (skipMark (0 < base.offset) good) none))
  | binary (some_ : bad ≠ []) (reason : String)
      (reaches : ∀ stop, base.offset + sourceWindowBytes < content.length →
        Cut content base.offset stop → base.offset + (encode good).length < stop) :
      Answered content good bad base (.ok { base with status := .binary, reason := some reason })
  | more (first last : List Char) (is : good = first ++ last) (some_ : first ≠ [])
      (further : base.offset + sourceWindowBytes < content.length)
      (cut : Cut content base.offset (base.offset + (encode first).length)) :
      Answered content good bad base (.ok (textFile base (skipMark (0 < base.offset) first)
        (some (base.offset + (encode first).length))))

/-- A request within the text, for an offset that no continuation byte stands at. -/
theorem decodeWindow_spec (rest : content.drop base.offset = encode good ++ bad)
    (absent : nul ∉ good) (stops : Stops nul bad) (within : base.offset ≤ content.length)
    (starts : 0 < base.offset → ∀ byte, content[base.offset]? = some byte →
      isContinuation byte = false)
    (other : ¬ IsLfsPointer content)
    (last : eof = true → content.length ≤ base.offset + sourceWindowBytes) :
    Answered content good bad base
      (decodeWindow base ⟨windowOf content base.offset, eof⟩ content.length) := by
  have length := length_windowOf content base.offset
  have total : content.length - base.offset = (encode good).length + bad.length := by
    rw [← List.length_drop, rest, List.length_append]
  have noPointer : ∀ chars more, encode good ++ bad = encode chars ++ more → base.offset = 0 →
      ¬ lfsPointer <+: skipMark false chars := by
    intro chars more is start pointer
    rw [start, List.drop_zero] at rest
    exact other (lfs_of_skipMark (rest.trans is) pointer)
  unfold decodeWindow
  simp only []
  split
  next refused =>
    obtain ⟨later, some_, continues⟩ := refused
    have there : content[base.offset]? = some ((windowOf content base.offset).getD 0 0) := by
      rw [← Nat.add_zero base.offset, ← getElem?_windowOf (by decide), List.getD_eq_getElem?_getD,
        Nat.add_zero, List.getElem?_eq_getElem some_, Option.getD_some]
    rw [starts later _ there] at continues
    cases continues
  next =>
    by_cases end_ : content.length ≤ base.offset + sourceWindowBytes
    · -- the last window
      have isEnd : content.length ≤ base.offset + (windowOf content base.offset).length := by omega
      have whole : windowOf content base.offset = encode good ++ bad := by
        rw [windowOf, rest, List.take_of_length_le]
        rw [List.length_append]
        omega
      simp only [isEnd, decide_true, Bool.not_true, Bool.and_false, Bool.false_eq_true, if_false,
        if_true, List.take_length]
      rw [whole]
      by_cases clean : bad = []
      · subst clean
        rw [List.append_nil, decodeChunk_text absent none (noPointer good [] rfl)]
        exact .whole rfl end_
      · have stops' : Stops nul (bad ++ []) := by rwa [List.append_nil]
        obtain ⟨reason, is⟩ := decodeChunk_binary base good stops' clean none
        rw [is]
        exact .binary clean reason fun _ further => absurd end_ (Nat.not_le.mpr further)
    · have isFurther : ¬ content.length ≤ base.offset + (windowOf content base.offset).length := by omega
      have going : eof = false := by
        cases eof with
        | false => rfl
        | true => exact absurd (last rfl) end_
      obtain ⟨positive, below, boundary⟩ := boundary_windowCut rest (Nat.not_le.mp end_)
      have cut := cut_windowCut (Nat.not_le.mp end_)
      have chunk : ∀ k, k ≤ sourceWindowBytes →
          (windowOf content base.offset).take k = (encode good ++ bad).take k := by
        intro k few
        rw [windowOf, List.take_take, Nat.min_eq_left few, rest]
      simp only [isFurther, going, decide_false, Bool.false_and, Bool.false_eq_true, if_false]
      rw [chunk _ below]
      generalize windowCut (windowOf content base.offset) = k at positive below boundary cut ⊢
      by_cases inside : k ≤ (encode good).length
      · obtain ⟨first, last, is, rfl, taken, _⟩ := (boundary inside).split bad
        rw [taken, decodeChunk_text (fun member => absent (is ▸ List.mem_append_left last member)) _
          (noPointer first (encode last ++ bad) (by rw [is, encode_append, List.append_assoc]))]
        refine .more first last is ?_ (Nat.not_le.mp end_) cut
        rintro rfl
        exact absurd positive (Nat.lt_irrefl 0)
      · have some_ : bad.take (k - (encode good).length) ≠ [] := by
          intro empty
          have none_ := congrArg List.length empty
          rw [List.length_take, List.length_nil] at none_
          omega
        rw [List.take_append, List.take_of_length_le (by omega)]
        have stops' : Stops nul (bad.take (k - (encode good).length) ++
            bad.drop (k - (encode good).length)) := by rwa [List.take_append_drop]
        obtain ⟨reason, is⟩ := decodeChunk_binary base good stops' some_ (some (base.offset + k))
        rw [is]
        refine .binary (fun none_ => some_ ?_) reason fun stop _ cut' => ?_
        · rw [none_, List.take_nil]
        · rw [← cut.unique cut']
          omega

end Step

end PrSearch.Source.Files
