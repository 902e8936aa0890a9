import PrSearch.Source.FileReading

/-! # The windows of a file are the file

As long as no window ends right before a stray continuation byte, the windows of a text join to the text,
and those of anything else come to a binary one.
-/
namespace PrSearch.Source.Files

open Utf8

/-- A text without NUL. -/
def Clean (bytes : Bytes) : Prop := ∃ chars, decode bytes = some chars ∧ nul ∉ chars

/-- A window starts there after nothing but text. -/
inductive WindowStart (content : Bytes) : Nat → Prop
  | zero : WindowStart content 0
  | next {offset stop : Nat} (before : WindowStart content offset)
      (further : offset + sourceWindowBytes < content.length) (cut : Cut content offset stop)
      (clean : Clean (content.take stop)) : WindowStart content stop

/-- A window ends right before a continuation byte, with nothing but text before it. -/
def Stray (content : Bytes) : Prop :=
  ∃ stop byte, WindowStart content stop ∧ 0 < stop ∧ content[stop]? = some byte ∧
    isContinuation byte = true

abbrev Window := Except Failure SourceFile

def windowText : Window → List Char
  | .ok file => file.text.getD []
  | .error _ => []

/-- The windows of a file make it up. -/
structure Reassembled (content : Bytes) (windows : List Window) : Prop where
  advances : ∀ i, i + 1 < windows.length → ∃ file next, windows[i]? = some (.ok file) ∧
    file.nextOffset = some next ∧ file.offset < next
  ends : ∃ window, windows.getLast? = some window ∧ ∀ file, window = .ok file → file.nextOffset = none
  text : ∀ chars, decode content = some chars → nul ∉ chars →
    (∀ window ∈ windows, ∃ file, window = .ok file ∧ file.status = .text) ∧
      windows.flatMap windowText = skipMark false chars
  binary : ¬ Clean content → (∃ file, .ok file ∈ windows ∧ file.status = .binary) ∧
    ∀ window ∈ windows, ∃ file, window = .ok file
  exact_ : ∀ file, .ok file ∈ windows → file.status = .text → ∃ chars,
    file.text = some (skipMark (0 < file.offset) chars) ∧ encode chars <+: content.drop file.offset

section Reading

variable {content bad : Bytes} {answers : Nat → Answers} {good first : List Char} {offset : Nat}
  {windows : List Window} {file : SourceFile}

/-- The windows from an offset on, with what is left of the text and what comes behind it. -/
structure Reading (content : Bytes) (good : List Char) (bad : Bytes) (offset : Nat)
    (windows : List Window) : Prop where
  advances : ∀ i, i + 1 < windows.length → ∃ file next, windows[i]? = some (.ok file) ∧
    file.nextOffset = some next ∧ file.offset < next
  ends : ∃ window, windows.getLast? = some window ∧ ∀ file, window = .ok file → file.nextOffset = none
  text : bad = [] → (∀ window ∈ windows, ∃ file, window = .ok file ∧ file.status = .text) ∧
    windows.flatMap windowText = skipMark (0 < offset) good
  binary : bad ≠ [] → (∃ file, .ok file ∈ windows ∧ file.status = .binary) ∧
    ∀ window ∈ windows, ∃ file, window = .ok file
  exact_ : ∀ file, .ok file ∈ windows → file.status = .text → ∃ chars,
    file.text = some (skipMark (0 < file.offset) chars) ∧ encode chars <+: content.drop file.offset

theorem skipMark_true (chars : List Char) : skipMark true chars = chars := by
  cases chars with
  | nil => rfl
  | cons first chars => simp [skipMark]

theorem skipMark_append (ignoreBOM : Bool) (some_ : first ≠ []) (last : List Char) :
    skipMark ignoreBOM (first ++ last) = skipMark ignoreBOM first ++ last := by
  cases first with
  | nil => exact absurd rfl some_
  | cons mark first =>
    simp only [List.cons_append, skipMark]
    split <;> rfl

theorem reading_whole (rest : content.drop file.offset = encode good) :
    Reading content good [] file.offset [.ok (textFile file (skipMark (0 < file.offset) good) none)] where
  advances i more := absurd more (by simp)
  ends := ⟨_, rfl, fun other is => by
    obtain rfl := Except.ok.inj is
    rfl⟩
  text _ := ⟨fun window inside => ⟨_, List.mem_singleton.mp inside, rfl⟩, by
    simp [windowText, textFile]⟩
  binary some_ := absurd rfl some_
  exact_ other inside _ := by
    obtain rfl := Except.ok.inj (List.mem_singleton.mp inside)
    refine ⟨good, rfl, ?_⟩
    change encode good <+: content.drop file.offset
    exact ⟨[], by rw [rest, List.append_nil]⟩

theorem reading_binary (some_ : bad ≠ []) (reason : Option String) :
    Reading content good bad offset
      [.ok { file with status := .binary, reason := reason, nextOffset := none }] where
  advances i more := absurd more (by simp)
  ends := ⟨_, rfl, fun other is => by
    obtain rfl := Except.ok.inj is
    rfl⟩
  text clean := absurd clean some_
  binary _ := ⟨⟨_, List.mem_singleton.mpr rfl, rfl⟩, fun window inside =>
    ⟨_, List.mem_singleton.mp inside⟩⟩
  exact_ other inside text := by
    obtain rfl := Except.ok.inj (List.mem_singleton.mp inside)
    cases text

/-- A window of text before the others. -/
theorem Reading.cons {last : List Char} (some_ : first ≠ [])
    (rest : content.drop file.offset = encode first ++ (encode last ++ bad))
    (reading : Reading content last bad (file.offset + (encode first).length) windows) :
    Reading content (first ++ last) bad file.offset
      (.ok (textFile file (skipMark (0 < file.offset) first)
        (some (file.offset + (encode first).length))) :: windows) where
  advances i more := by
    cases i with
    | zero => exact ⟨_, _, rfl, rfl, Nat.lt_add_of_pos_right (length_encode_pos some_)⟩
    | succ i => exact reading.advances i (by simpa using more)
  ends := by
    obtain ⟨window, is, ends⟩ := reading.ends
    refine ⟨window, ?_, ends⟩
    rw [List.getLast?_cons, is, Option.getD_some]
  text clean := by
    obtain ⟨all, joined⟩ := reading.text clean
    refine ⟨List.forall_mem_cons.mpr ⟨⟨_, rfl, rfl⟩, all⟩, ?_⟩
    have later : 0 < file.offset + (encode first).length :=
      Nat.lt_add_left _ (length_encode_pos some_)
    rw [List.flatMap_cons, joined, skipMark_append _ some_, decide_eq_true later, skipMark_true]
    rfl
  binary some_ := by
    obtain ⟨⟨other, inside, binary⟩, all⟩ := reading.binary some_
    exact ⟨⟨other, List.mem_cons_of_mem _ inside, binary⟩, List.forall_mem_cons.mpr ⟨⟨_, rfl⟩, all⟩⟩
  exact_ other inside text := by
    rcases List.mem_cons.mp inside with own | later
    · obtain rfl := Except.ok.inj own
      refine ⟨first, rfl, ?_⟩
      change encode first <+: content.drop file.offset
      rw [rest]
      exact List.prefix_append _ _
    · exact reading.exact_ other later text

theorem starts_of_not_stray (noStray : ¬ Stray content) (start : WindowStart content offset)
    (later : 0 < offset) (byte : UInt8) (there : content[offset]? = some byte) :
    isContinuation byte = false := by
  by_contra continues
  exact noStray ⟨offset, byte, start, later, there, by simpa using continues⟩

theorem request_spec (serves : ∀ offset, Serves content (answers offset) offset)
    (small : content.length ≤ githubBlobMaxBytes) (other : ¬ IsLfsPointer content)
    (rest : content.drop offset = encode good ++ bad) (absent : nul ∉ good) (stops : Stops nul bad)
    (within : offset ≤ content.length)
    (starts : 0 < offset → ∀ byte, content[offset]? = some byte → isContinuation byte = false) :
    ∃ base : SourceFile, base.offset = offset ∧ base.nextOffset = none ∧
      Answered content good bad base (sourceFileWindow (answers offset) offset) := by
  obtain ⟨sha, eof, last, is⟩ := (serves offset).request small within
  refine ⟨⟨.missing, none, some content.length, sha, none, offset, none⟩, rfl, rfl, ?_⟩
  rw [is]
  exact decodeWindow_spec rest absent stops within starts other last

/-- The reading goes on within the text, to the end of the file or to a binary window. -/
theorem reading_readWindows (serves : ∀ offset, Serves content (answers offset) offset)
    (small : content.length ≤ githubBlobMaxBytes) (other : ¬ IsLfsPointer content)
    (noStray : ¬ Stray content) (stops : Stops nul bad) (fuel : Nat)
    (is : content = encode first ++ (encode good ++ bad)) (absentFirst : nul ∉ first)
    (absent : nul ∉ good) (start : WindowStart content (encode first).length)
    (enough : content.length < (encode first).length + fuel) :
    Reading content good bad (encode first).length
      (readWindows answers fuel (encode first).length) := by
  induction fuel generalizing first good with
  | zero =>
    rw [is, List.length_append] at enough
    omega
  | succ fuel ih =>
    have rest : content.drop (encode first).length = encode good ++ bad := by
      rw [is, List.drop_left]
    have within : (encode first).length ≤ content.length := by
      rw [is, List.length_append]
      exact Nat.le_add_right _ _
    obtain ⟨base, isBase, last, answered⟩ := request_spec serves small other rest absent stops within
      fun later => starts_of_not_stray noStray start later
    rw [readWindows]
    generalize sourceFileWindow (answers (encode first).length) (encode first).length = result
      at answered ⊢
    rw [← isBase] at rest ⊢
    cases answered with
    | whole clean _ =>
      subst clean
      rw [List.append_nil] at rest
      exact reading_whole rest
    | binary some_ reason _ =>
      simp only [last]
      exact reading_binary some_ (some reason)
    | more piece later isGood some_ further cut =>
      subst isGood
      have whole : content = encode (first ++ piece) ++ (encode later ++ bad) := by
        rw [is, encode_append, encode_append, List.append_assoc, List.append_assoc]
      have length : (encode (first ++ piece)).length = base.offset + (encode piece).length := by
        rw [encode_append, List.length_append, isBase]
      have absentPiece : nul ∉ first ++ piece := by
        simp only [List.mem_append, not_or] at absent ⊢
        exact ⟨absentFirst, absent.1⟩
      have absentLater : nul ∉ later := fun inside => absent (List.mem_append_right piece inside)
      have clean : Clean (content.take (base.offset + (encode piece).length)) := by
        refine ⟨first ++ piece, ?_, absentPiece⟩
        rw [← length, whole, List.take_left, decode_encode]
      rw [isBase] at further cut
      rw [isBase] at clean
      have next_ : WindowStart content (encode (first ++ piece)).length := by
        rw [length, isBase]
        exact .next start further cut clean
      have positive := length_encode_pos some_
      have onwards := ih whole absentPiece absentLater next_ (by rw [length, isBase]; omega)
      rw [length] at onwards
      rw [encode_append, List.append_assoc] at rest
      exact onwards.cons some_ rest

end Reading

variable {byte : UInt8}

/-! ### A stray continuation byte -/

section Stray

variable {content : Bytes} {answers : Nat → Answers} {offset stop : Nat}

theorem Cut.bounds (cut : Cut content offset stop)
    (further : offset + sourceWindowBytes < content.length) {good : List Char} {bad : Bytes}
    (rest : content.drop offset = encode good ++ bad) :
    offset < stop ∧ stop ≤ offset + sourceWindowBytes := by
  obtain rfl := cut.unique (cut_windowCut further)
  obtain ⟨positive, below, _⟩ := boundary_windowCut rest further
  omega

theorem WindowStart.clean (start : WindowStart content stop) : Clean (content.take stop) := by
  cases start with
  | zero => exact ⟨[], decode_encode [], List.not_mem_nil⟩
  | next _ _ _ clean => exact clean

theorem Clean.encoded {bytes : Bytes} (clean : Clean bytes) :
    ∃ chars, bytes = encode chars ∧ nul ∉ chars := by
  obtain ⟨chars, decoded, absent⟩ := clean
  exact ⟨chars, decode_eq_some_iff.mp decoded, absent⟩

/-- No byte right behind a text is a continuation byte when more text comes. -/
theorem starts_of_encode {first more : List Char} {rest : Bytes} (some_ : more ≠ [])
    (there : (encode first ++ (encode more ++ rest))[(encode first).length]? = some byte) :
    isContinuation byte = false := by
  rw [List.getElem?_append_right (Nat.le_refl _), Nat.sub_self,
    List.getElem?_append_left (length_encode_pos some_)] at there
  exact ((boundary_zero more).next there).1

-- The window before a start ends there.
theorem readWindows_next (serves : ∀ offset, Serves content (answers offset) offset)
    (small : content.length ≤ githubBlobMaxBytes) (other : ¬ IsLfsPointer content)
    (before : Clean (content.take offset)) (within : offset ≤ content.length)
    (further : offset + sourceWindowBytes < content.length) (cut : Cut content offset stop)
    (clean : Clean (content.take stop)) (fuel : Nat) :
    offset < stop ∧ stop ≤ content.length ∧ ∃ window,
      readWindows answers (fuel + 1) offset = window :: readWindows answers fuel stop := by
  obtain ⟨good, bad, isContent, absent, stops⟩ := exists_stop nul content
  obtain ⟨first, isFirst, absentFirst⟩ := before.encoded
  obtain ⟨chars, isChars, absentChars⟩ := clean.encoded
  have length : offset = (encode first).length := by
    rw [← isFirst, List.length_take, Nat.min_eq_left within]
  -- both texts are parts of the longest one
  have sameFirst : encode first ++ content.drop offset = encode good ++ bad := by
    rw [← isFirst, List.take_append_drop, isContent]
  obtain ⟨later, rfl⟩ := isPrefix_of_stops sameFirst absentFirst stops
  have rest : content.drop offset = encode later ++ bad := by
    rw [isContent, length, encode_append, List.append_assoc, List.drop_left]
  have sameChars : encode chars ++ content.drop stop = encode (first ++ later) ++ bad := by
    rw [← isChars, List.take_append_drop, isContent]
  obtain ⟨ahead, below⟩ := cut.bounds further rest
  have lengthChars : stop = (encode chars).length := by
    rw [← isChars, List.length_take, Nat.min_eq_left (by omega)]
  have reaches : stop ≤ offset + (encode later).length := by
    obtain ⟨more, whole⟩ := isPrefix_of_stops sameChars absentChars stops
    have total := congrArg (fun chars => (encode chars).length) whole
    simp only [encode_append, List.length_append] at total
    omega
  have some_ : later ≠ [] := by
    rintro rfl
    rw [encode_nil, List.length_nil] at reaches
    omega
  have starts : 0 < offset → ∀ byte, content[offset]? = some byte → isContinuation byte = false := by
    intro _ byte there
    rw [isContent, length, encode_append, List.append_assoc] at there
    exact starts_of_encode some_ there
  obtain ⟨base, isBase, _, answered⟩ := request_spec serves small other rest
    (fun inside => absent (List.mem_append_right first inside)) stops within starts
  refine ⟨ahead, by omega, ?_⟩
  rw [readWindows]
  generalize sourceFileWindow (answers offset) offset = result at answered ⊢
  cases answered with
  | whole _ last => exact absurd further (by omega)
  | binary _ _ reached =>
    rw [isBase] at reached
    have behind := reached stop further cut
    omega
  | more piece last _ _ _ cut' =>
    rw [isBase] at cut'
    obtain rfl := cut.unique cut'
    rw [← isBase]
    exact ⟨_, rfl⟩

/-- The reading comes to every place where a window starts. -/
theorem readWindows_start (serves : ∀ offset, Serves content (answers offset) offset)
    (small : content.length ≤ githubBlobMaxBytes) (other : ¬ IsLfsPointer content)
    (start : WindowStart content stop) :
    stop ≤ content.length ∧ ∃ windows fuel, content.length < stop + fuel ∧
      readWindows answers (content.length + 1) 0 = windows ++ readWindows answers fuel stop := by
  induction start with
  | zero => exact ⟨Nat.zero_le _, [], content.length + 1, by omega, rfl⟩
  | @next offset stop before further cut clean ih =>
    obtain ⟨within, windows, fuel, enough, is⟩ := ih
    obtain ⟨fuel, rfl⟩ := Nat.exists_eq_succ_of_ne_zero (by omega : fuel ≠ 0)
    obtain ⟨ahead, below, window, next_⟩ :=
      readWindows_next serves small other before.clean within further cut clean fuel
    refine ⟨below, windows ++ [window], fuel, by omega, ?_⟩
    rw [is, next_, List.append_assoc, List.singleton_append]

/-- A request for a place where a continuation byte stands is refused. -/
theorem sourceFileWindow_stray (serves : Serves content (answers stop) stop)
    (small : content.length ≤ githubBlobMaxBytes) (later : 0 < stop)
    (there : content[stop]? = some byte) (continues : isContinuation byte = true) :
    sourceFileWindow (answers stop) stop = .error (.range boundaryText) := by
  have less := (List.getElem?_eq_some_iff.mp there).1
  obtain ⟨sha, eof, _, is⟩ := serves.request small (Nat.le_of_lt less)
  have length := length_windowOf content stop
  have some_ : 0 < (windowOf content stop).length := by
    have : 0 < sourceWindowBytes := by decide
    omega
  have first : (windowOf content stop).getD 0 0 = byte := by
    rw [List.getD_eq_getElem?_getD, getElem?_windowOf (by decide), Nat.add_zero, there,
      Option.getD_some]
  rw [is, decodeWindow]
  simp only [first, continues, later, some_, and_self, if_true]

/-- A text without the character that stops it leaves nothing behind. -/
theorem eq_of_encode_eq_stops {chars good : List Char} {bad : Bytes}
    (same : encode chars = encode good ++ bad) (absent : nul ∉ chars) (stops : Stops nul bad) :
    chars = good ∧ bad = [] := by
  obtain ⟨last, rfl, isBad⟩ := exists_append_of_encode_eq same
  cases last with
  | nil => exact ⟨List.append_nil _, isBad⟩
  | cons c last =>
    -- the first byte behind the text would start a character
    obtain rfl := stops c (encode last) isBad
    exact absurd (List.mem_append_right good List.mem_cons_self) absent

theorem not_clean_of_stray (start : WindowStart content stop) (there : content[stop]? = some byte)
    (continues : isContinuation byte = true) : ¬ Clean content := by
  intro clean
  obtain ⟨chars, isContent, _⟩ := clean.encoded
  obtain ⟨first, isFirst, _⟩ := start.clean.encoded
  have less := (List.getElem?_eq_some_iff.mp there).1
  have length : stop = (encode first).length := by
    rw [← isFirst, List.length_take, Nat.min_eq_left (Nat.le_of_lt less)]
  have same : encode chars = encode first ++ content.drop stop := by
    rw [← isFirst, List.take_append_drop, isContent]
  obtain ⟨last, rfl, _⟩ := exists_append_of_encode_eq same
  rw [isContent] at there
  have boundary : Boundary (first ++ last) stop := ⟨first, last, rfl, length.symm⟩
  have starts := (boundary.next there).1
  rw [continues] at starts
  cases starts

/-- The reading comes to the refused request. -/
theorem refused_of_stray (serves : ∀ offset, Serves content (answers offset) offset)
    (small : content.length ≤ githubBlobMaxBytes) (other : ¬ IsLfsPointer content)
    (start : WindowStart content stop) (later : 0 < stop) (there : content[stop]? = some byte)
    (continues : isContinuation byte = true) :
    Except.error (.range boundaryText) ∈ readWindows answers (content.length + 1) 0 := by
  obtain ⟨within, windows, fuel, enough, is⟩ := readWindows_start serves small other start
  obtain ⟨fuel, rfl⟩ := Nat.exists_eq_succ_of_ne_zero (by omega : fuel ≠ 0)
  rw [is, readWindows, sourceFileWindow_stray (serves stop) small later there continues]
  exact List.mem_append_right _ (List.mem_singleton.mpr rfl)

/-- A file of one window has no place to end another one. -/
theorem not_stray_of_length (one : content.length ≤ sourceWindowBytes) : ¬ Stray content := by
  rintro ⟨stop, byte, start, later, _, _⟩
  cases start with
  | zero => exact absurd later (Nat.lt_irrefl 0)
  | next _ further _ _ => omega

end Stray

/-- The windows of a file make it up exactly when none ends right before a stray continuation byte. -/
theorem reassembled_iff (content : Bytes) (answers : Nat → Answers)
    (serves : ∀ offset, Serves content (answers offset) offset)
    (small : content.length ≤ githubBlobMaxBytes) (other : ¬ IsLfsPointer content) :
    Reassembled content (readWindows answers (content.length + 1) 0) ↔ ¬ Stray content := by
  constructor
  · rintro whole ⟨stop, byte, start, later, there, continues⟩
    obtain ⟨file, isFile⟩ := (whole.binary (not_clean_of_stray start there continues)).2 _
      (refused_of_stray serves small other start later there continues)
    cases isFile
  · intro noStray
    obtain ⟨good, bad, isContent, absent, stops⟩ := exists_stop nul content
    have fromStart : content = encode [] ++ (encode good ++ bad) := isContent
    have enough : content.length < (encode []).length + (content.length + 1) := by
      rw [encode_nil, List.length_nil]
      omega
    have reading := reading_readWindows serves small other noStray stops (content.length + 1) fromStart
      List.not_mem_nil absent .zero enough
    refine ⟨reading.advances, reading.ends, fun chars decoded absentChars => ?_, fun unclean => ?_,
      reading.exact_⟩
    · have same : encode chars = encode good ++ bad := by
        rw [← isContent, decode_eq_some_iff.mp decoded]
      obtain ⟨rfl, rfl⟩ := eq_of_encode_eq_stops same absentChars stops
      exact reading.text rfl
    · refine reading.binary fun none_ => unclean ⟨good, ?_, absent⟩
      rw [isContent, none_, List.append_nil, decode_encode]

def storedSha : String := "e69de29bb2d1d6434b8b29ae775ad8c2e48c5391"

theorem isFullSha_storedSha : isFullSha storedSha = true := by decide

/-- The blob of a file, which does not come with what is known of it. -/
def storedBlob (content : Bytes) : Nat → Answers := fun _ =>
  { contentObject := .ok ⟨"file", content.length, storedSha, some "none", some []⟩
    commit := .ok ()
    aborted := false
    blobAt := .ok none
    blobWindow := fun offset length =>
      .ok ⟨(content.drop offset).take length, content.length ≤ offset + length⟩ }

theorem storedBlob_serves (content : Bytes) (offset : Nat) :
    Serves content (storedBlob content offset) offset :=
  .blob _ rfl rfl rfl (fun _ encoding _ => absurd (Option.some.inj encoding) (by simp))
    isFullSha_storedSha _ rfl of_decide_eq_true

theorem reassembled_iff_line :
    Reassembled [0x61, 0x0a] (readWindows (storedBlob [0x61, 0x0a]) 3 0) :=
  (reassembled_iff [0x61, 0x0a] (storedBlob [0x61, 0x0a]) (storedBlob_serves [0x61, 0x0a]) (by decide)
    (by unfold IsLfsPointer; decide)).mpr (not_stray_of_length (by decide))

/-- A line, and a long one that starts with a continuation byte. -/
def strayContent : Bytes := newline :: 0x80 :: List.replicate sourceWindowBytes 0x61

-- The length is a variable here: the kernel would count a million bytes.
theorem length_two_replicate {α : Type} (a b c : α) (n : Nat) :
    (a :: b :: List.replicate n c).length = n + 2 := by
  simp

theorem strayContent_length : strayContent.length = sourceWindowBytes + 2 :=
  length_two_replicate newline 0x80 0x61 sourceWindowBytes

theorem stray_strayContent : Stray strayContent := by
  refine ⟨1, 0x80, ?_, Nat.one_pos, rfl, by decide⟩
  refine .next .zero ?_ (.line Nat.one_pos ?_ rfl fun i from_ _ there => ?_) ⟨['\n'], rfl, by decide⟩
  · rw [strayContent_length]
    omega
  · decide
  · -- behind the first byte there is no newline
    have inside : newline ∈ (0x80 : UInt8) :: List.replicate sourceWindowBytes 0x61 := by
      obtain ⟨i, rfl⟩ := Nat.exists_eq_succ_of_ne_zero (by omega : i ≠ 0)
      exact List.mem_of_getElem? there
    rcases List.mem_cons.mp inside with is | is
    · exact absurd is (by decide)
    · exact absurd (List.eq_of_mem_replicate is) (by decide)

/-- Not every file is made up by its windows: a request for the next window can be refused. -/
theorem not_reassembled :
    ¬ ∀ (content : Bytes) (answers : Nat → Answers),
      (∀ offset, Serves content (answers offset) offset) → content.length ≤ githubBlobMaxBytes →
      ¬ IsLfsPointer content → Reassembled content (readWindows answers (content.length + 1) 0) := by
  intro always
  have small : strayContent.length ≤ githubBlobMaxBytes := by
    rw [strayContent_length]
    decide
  have other : ¬ IsLfsPointer strayContent := by
    rintro (⟨rest, is⟩ | ⟨rest, is⟩)
    · exact absurd (List.cons.inj is).1 (by decide)
    · exact absurd (List.cons.inj is).1 (by decide)
  have whole := always strayContent (storedBlob strayContent) (storedBlob_serves strayContent) small other
  obtain ⟨stop, byte, start, later, there, continues⟩ := stray_strayContent
  obtain ⟨file, isFile⟩ := (whole.binary (not_clean_of_stray start there continues)).2 _
    (refused_of_stray (storedBlob_serves strayContent) small other start later there continues)
  cases isFile

end PrSearch.Source.Files
