import PrSearch.GhCli.SafeOutput

/-! # Output in chunks

A sequence that is complete stays complete when more bytes come, so taking the sequences out of a part
and then of the rest, behind what was not complete, is taking them out of the whole. However the
bytes are cut, the stream counts and keeps the same and decodes the same text. Only what looks like no
text is told by the bytes that have come so far.
-/
namespace PrSearch.GhCli

open Utf8

/-! ### A sequence that is complete -/

section Complete

variable {index n : Nat} {bytes : List UInt8}

theorem csiLength_append (found : csiLength index bytes = some n) (more : List UInt8) :
    csiLength index (bytes ++ more) = some n ∧ n ≤ index + bytes.length := by
  induction bytes generalizing index with
  | nil => exact absurd found.symm (Option.some_ne_none n)
  | cons byte bytes ih =>
    rw [csiLength] at found
    rw [List.cons_append, csiLength]
    split
    next final =>
      rw [if_pos final] at found
      obtain rfl := Option.some.inj found
      exact ⟨rfl, by simp⟩
    next other =>
      rw [if_neg other] at found
      split
      next broken =>
        rw [if_pos broken] at found
        obtain rfl := Option.some.inj found
        exact ⟨rfl, Nat.le_add_right _ _⟩
      next within =>
        rw [if_neg within] at found
        obtain ⟨same, bound⟩ := ih found
        exact ⟨same, by simp only [List.length_cons]; omega⟩

theorem stringLength_append (found : stringLength index bytes = some n) (more : List UInt8) :
    stringLength index (bytes ++ more) = some n ∧ n ≤ index + bytes.length := by
  induction bytes generalizing index with
  | nil => exact absurd found.symm (Option.some_ne_none n)
  | cons byte bytes ih =>
    rw [stringLength] at found
    rw [List.cons_append, stringLength]
    split
    next bell =>
      rw [if_pos bell] at found
      obtain rfl := Option.some.inj found
      exact ⟨rfl, by simp⟩
    next noBell =>
      rw [if_neg noBell] at found
      split
      next escape =>
        rw [if_pos escape] at found
        cases bytes with
        | nil => exact absurd found.symm (Option.some_ne_none n)
        | cons next bytes =>
          refine ⟨found, ?_⟩
          rw [List.head?_cons, Option.map_some] at found
          obtain rfl := Option.some.inj found
          simp only [List.length_cons]
          split <;> omega
      next inside =>
        rw [if_neg inside] at found
        obtain ⟨same, bound⟩ := ih found
        exact ⟨same, by simp only [List.length_cons]; omega⟩

theorem otherLength_append (found : otherLength index bytes = some n) (more : List UInt8) :
    otherLength index (bytes ++ more) = some n ∧ n ≤ index + bytes.length := by
  induction bytes generalizing index with
  | nil => exact absurd found.symm (Option.some_ne_none n)
  | cons byte bytes ih =>
    rw [otherLength] at found
    rw [List.cons_append, otherLength]
    split
    next intermediate =>
      rw [if_pos intermediate] at found
      obtain ⟨same, bound⟩ := ih found
      exact ⟨same, by simp only [List.length_cons]; omega⟩
    next other =>
      rw [if_neg other] at found
      refine ⟨found, ?_⟩
      split at found
      all_goals
        obtain rfl := Option.some.inj found
        simp

/-- More bytes do not change the length of a sequence that is complete. -/
theorem pendingEscapeLength_append (found : pendingEscapeLength bytes = some n) (more : List UInt8) :
    pendingEscapeLength (bytes ++ more) = some n ∧ n ≤ bytes.length := by
  cases bytes with
  | nil => exact absurd found.symm (Option.some_ne_none n)
  | cons escape bytes =>
    cases bytes with
    | nil => exact absurd found.symm (Option.some_ne_none n)
    | cons kind bytes =>
      rw [pendingEscapeLength] at found
      rw [List.cons_append, List.cons_append, pendingEscapeLength]
      split
      next csi =>
        rw [if_pos csi] at found
        obtain ⟨same, bound⟩ := csiLength_append found more
        exact ⟨same, by simp only [List.length_cons]; omega⟩
      next noCsi =>
        rw [if_neg noCsi] at found
        split
        next string =>
          rw [if_pos string] at found
          obtain ⟨same, bound⟩ := stringLength_append found more
          exact ⟨same, by simp only [List.length_cons]; omega⟩
        next other =>
          rw [if_neg other] at found
          obtain ⟨same, bound⟩ := otherLength_append found more
          exact ⟨same, by simp only [List.length_cons] at bound ⊢; omega⟩

end Complete

/-! ### Taking the sequences out -/

/-- Taking them out of a part and then of what was left of it and the rest -/
theorem stripFrom_append (skip : Nat) (first last : List UInt8) (within : skip ≤ first.length) :
    stripFrom skip (first ++ last) =
      ((stripFrom skip first).1 ++ (stripFrom 0 ((stripFrom skip first).2 ++ last)).1,
        (stripFrom 0 ((stripFrom skip first).2 ++ last)).2) := by
  induction first generalizing skip with
  | nil =>
    obtain rfl : skip = 0 := Nat.le_zero.mp within
    rfl
  | cons byte first ih =>
    cases skip with
    | succ skip => exact ih skip (Nat.le_of_succ_le_succ within)
    | zero =>
      by_cases escape : byte = ESC
      · cases found : pendingEscapeLength (byte :: first) with
        | none =>
          have waits : stripFrom 0 (byte :: first) = ([], byte :: first) := by
            rw [stripFrom, if_pos escape, found]
          rw [waits]
          rfl
        | some length =>
          obtain ⟨same, bound⟩ := pendingEscapeLength_append found last
          have part : stripFrom 0 (byte :: first) = stripFrom (length - 1) first := by
            rw [stripFrom, if_pos escape, found]
          have whole : stripFrom 0 (byte :: first ++ last) = stripFrom (length - 1) (first ++ last) := by
            rw [List.cons_append] at same ⊢
            rw [stripFrom, if_pos escape, same]
          rw [part, whole]
          exact ih _ (by simp only [List.length_cons] at bound; omega)
      · have rest := ih 0 (Nat.zero_le _)
        by_cases removed : (isControl byte || byte == 0x7f) = true
        · have part : ∀ rest, stripFrom 0 (byte :: rest) = stripFrom 0 rest := fun rest => by
            rw [stripFrom, if_neg escape, if_pos removed]
          rw [List.cons_append, part, part, rest]
        · have part : ∀ rest, stripFrom 0 (byte :: rest) =
              (byte :: (stripFrom 0 rest).1, (stripFrom 0 rest).2) := fun rest => by
            rw [stripFrom, if_neg escape, if_neg removed]
          rw [List.cons_append, part, part, rest]
          rfl

/-- What is left has no `ESC`, no control character but the spacing ones, and no `DEL`. -/
theorem clean_of_stripFrom (skip : Nat) (bytes : List UInt8) :
    ∀ byte ∈ (stripFrom skip bytes).1, byte ≠ ESC ∧ isControl byte = false ∧ byte ≠ 0x7f := by
  induction bytes generalizing skip with
  | nil =>
    cases skip <;> exact List.forall_mem_nil _
  | cons first bytes ih =>
    cases skip with
    | succ skip => exact ih skip
    | zero =>
      rw [stripFrom]
      split
      next =>
        split
        next => exact List.forall_mem_nil _
        next length _ => exact ih _
      next noEscape =>
        split
        next => exact ih 0
        next kept =>
          intro byte inside
          rcases List.mem_cons.mp inside with rfl | later
          · simp only [Bool.or_eq_true, not_or, Bool.not_eq_true, beq_eq_false_iff_ne] at kept
            exact ⟨noEscape, kept⟩
          · exact ih 0 byte later

/-! ### The stream after some chunks -/

section Stream

variable {maxBytes : Nat} {done chunks : List (List UInt8)} {stream : SafeOutputStream}
  {pieces : List (List Char)}

def keptOf (maxBytes : Nat) (chunks : List (List UInt8)) : List UInt8 := chunks.flatten.take maxBytes

/-- What is kept has looked like no text after one of the chunks. -/
def SeenBinary (maxBytes : Nat) (chunks : List (List UInt8)) : Prop :=
  ∃ n, looksBinary (keptOf maxBytes (chunks.take n)) = true

/-- The decoder after some bytes, and their text -/
def decoded (bytes : List UInt8) : TextDecoder × List Char :=
  TextDecoder.decode {} (stripFrom 0 bytes).1 true

/-- What the stream knows after some chunks, of which it has given these texts. -/
structure After (maxBytes : Nat) (done : List (List UInt8)) (stream : SafeOutputStream)
    (pieces : List (List Char)) : Prop where
  limit : stream.maxBytes = maxBytes
  unfinished : stream.finished = false
  kept : stream.kept.flatten = keptOf maxBytes done
  total : stream.bytesTotal = done.flatten.length
  count : stream.bytesKept = (keptOf maxBytes done).length
  truncated : stream.truncated = decide (maxBytes < done.flatten.length)
  binary : stream.binary = true ↔ SeenBinary maxBytes done
  carry : stream.binary = false → stream.carry = (stripFrom 0 (keptOf maxBytes done)).2
  decoder : stream.binary = false → stream.decoder = (decoded (keptOf maxBytes done)).1
  text : stream.binary = false → stream.text = stripC1 (decoded (keptOf maxBytes done)).2
  given : stream.binary = false → stream.text = pieces.flatten

theorem keptOf_concat (maxBytes : Nat) (done : List (List UInt8)) (chunk : List UInt8) :
    keptOf maxBytes (done ++ [chunk]) =
      keptOf maxBytes done ++ chunk.take (maxBytes - (keptOf maxBytes done).length) := by
  have room : maxBytes - (keptOf maxBytes done).length = maxBytes - done.flatten.length := by
    rw [keptOf, List.length_take]
    omega
  rw [room, keptOf, List.flatten_append, List.take_append]
  simp [keptOf]

theorem seenBinary_concat (maxBytes : Nat) (done : List (List UInt8)) (chunk : List UInt8) :
    SeenBinary maxBytes (done ++ [chunk]) ↔
      SeenBinary maxBytes done ∨ looksBinary (keptOf maxBytes (done ++ [chunk])) = true := by
  constructor
  · rintro ⟨n, looks⟩
    by_cases early : n ≤ done.length
    · rw [List.take_append_of_le_length early] at looks
      exact .inl ⟨n, looks⟩
    · rw [List.take_of_length_le (by simp; omega)] at looks
      exact .inr looks
  · rintro (⟨n, looks⟩ | looks)
    · refine ⟨min n done.length, ?_⟩
      rw [List.take_append_of_le_length (Nat.min_le_right _ _), List.take_eq_take_min] at *
      simpa using looks
    · exact ⟨(done ++ [chunk]).length, by rwa [List.take_length]⟩

theorem seenBinary_of_kept (looks : looksBinary (keptOf maxBytes done) = true) :
    SeenBinary maxBytes done := ⟨done.length, by rwa [List.take_length]⟩

theorem after_start (maxBytes : Nat) : After maxBytes [] { maxBytes } [] where
  limit := rfl
  unfinished := rfl
  kept := by simp [keptOf]
  total := rfl
  count := by simp [keptOf]
  truncated := by simp
  binary := by simp [SeenBinary, keptOf, looksBinary]
  carry _ := by simp [keptOf, stripFrom]
  decoder _ := by simp [keptOf, stripFrom, decoded, TextDecoder.decode, Decoder.feed, dropMark]
  text _ := by simp [keptOf, stripFrom, decoded, TextDecoder.decode, Decoder.feed, dropMark, stripC1]
  given _ := rfl

theorem stripC1_append (first last : List Char) :
    stripC1 (first ++ last) = stripC1 first ++ stripC1 last := List.filter_append ..

/-- Bytes that come after others are decoded behind what waited of them. -/
theorem decoded_append (first last : List UInt8) : decoded (first ++ last) =
    (((decoded first).1.decode (stripFrom 0 ((stripFrom 0 first).2 ++ last)).1 true).1,
      (decoded first).2 ++
        ((decoded first).1.decode (stripFrom 0 ((stripFrom 0 first).2 ++ last)).1 true).2) := by
  rw [decoded, stripFrom_append 0 first last (Nat.zero_le _), decode_append]
  rfl

theorem After.push (after : After maxBytes done stream pieces) (chunk : List UInt8) :
    ∃ next piece, stream.push chunk = some (next, piece) ∧
      After maxBytes (done ++ [chunk]) next (pieces ++ [piece]) := by
  have more : (done ++ [chunk]).flatten.length = done.flatten.length + chunk.length := by simp
  have count : stream.bytesKept = min maxBytes done.flatten.length := by
    rw [after.count, keptOf, List.length_take]
  have flat : ∀ piece : List Char, (pieces ++ [piece]).flatten = pieces.flatten ++ piece := by simp
  unfold SafeOutputStream.push
  rw [if_neg (by simp [after.unfinished])]
  simp only [after.limit]
  by_cases full : maxBytes - stream.bytesKept = 0
  · -- nothing more is kept
    have same : keptOf maxBytes (done ++ [chunk]) = keptOf maxBytes done := by
      rw [keptOf_concat, ← after.count, full, List.take_zero, List.append_nil]
    rw [if_pos full]
    refine ⟨_, _, rfl, ?_⟩
    exact {
      limit := rfl
      unfinished := after.unfinished
      kept := same ▸ after.kept
      total := by rw [more, ← after.total]
      count := same ▸ after.count
      truncated := by
        rw [after.truncated, more, Bool.eq_iff_iff]
        simp only [Bool.or_eq_true, decide_eq_true_eq]
        omega
      binary := by
        rw [seenBinary_concat, same]
        exact after.binary.trans (or_iff_left_of_imp seenBinary_of_kept).symm
      carry := fun text => same ▸ after.carry text
      decoder := fun text => same ▸ after.decoder text
      text := fun text => same ▸ after.text text
      given := fun text => by rw [flat, List.append_nil]; exact after.given text }
  · rw [if_neg full]
    -- the chunk, or the part of it that there is room for
    have grown : keptOf maxBytes (done ++ [chunk]) =
        keptOf maxBytes done ++ chunk.take (maxBytes - stream.bytesKept) := by
      rw [keptOf_concat, ← after.count]
    have kept : (stream.kept ++ [chunk.take (maxBytes - stream.bytesKept)]).flatten =
        keptOf maxBytes (done ++ [chunk]) := by
      rw [grown, ← after.kept]
      simp
    have counted : stream.bytesKept + (chunk.take (maxBytes - stream.bytesKept)).length =
        (keptOf maxBytes (done ++ [chunk])).length := by
      rw [grown, List.length_append, after.count]
    have truncated : (stream.truncated ||
        decide ((chunk.take (maxBytes - stream.bytesKept)).length < chunk.length)) =
          decide (maxBytes < (done ++ [chunk]).flatten.length) := by
      rw [after.truncated, more, Bool.eq_iff_iff]
      simp only [Bool.or_eq_true, decide_eq_true_eq, List.length_take]
      omega
    have binary : (stream.binary || looksBinary (keptOf maxBytes (done ++ [chunk]))) = true ↔
        SeenBinary maxBytes (done ++ [chunk]) := by
      rw [seenBinary_concat, Bool.or_eq_true, after.binary]
    rw [kept]
    by_cases looks : (stream.binary || looksBinary (keptOf maxBytes (done ++ [chunk]))) = true
    · rw [if_pos looks]
      refine ⟨_, _, rfl, ?_⟩
      exact {
        limit := rfl
        unfinished := after.unfinished
        kept := kept
        total := by rw [more, ← after.total]
        count := counted
        truncated := truncated
        binary := iff_of_true rfl (binary.mp looks)
        carry := fun text => nomatch text
        decoder := fun text => nomatch text
        text := fun text => nomatch text
        given := fun text => nomatch text }
    · rw [if_neg looks]
      have text : stream.binary = false := by
        rw [Bool.or_eq_true, not_or, Bool.not_eq_true] at looks
        exact looks.1
      have parts := decoded_append (keptOf maxBytes done) (chunk.take (maxBytes - stream.bytesKept))
      have strip := stripFrom_append 0 (keptOf maxBytes done)
        (chunk.take (maxBytes - stream.bytesKept)) (Nat.zero_le _)
      rw [← grown, ← after.carry text, ← after.decoder text] at parts
      rw [← grown, ← after.carry text] at strip
      refine ⟨_, _, rfl, ?_⟩
      exact {
        limit := rfl
        unfinished := after.unfinished
        kept := kept
        total := by rw [more, ← after.total]
        count := counted
        truncated := truncated
        binary := iff_of_false (by simp [text]) (mt binary.mpr looks)
        carry := fun _ => by rw [strip]; rfl
        decoder := fun _ => by rw [parts]; rfl
        text := fun _ => by
          have both := congrArg (fun decoded : TextDecoder × List Char => stripC1 decoded.2) parts
          simp only [stripC1_append, ← after.text text] at both
          exact both.symm
        given := fun _ => by rw [flat, ← after.given text] }

theorem After.pushAll (after : After maxBytes done stream pieces) (chunks : List (List UInt8)) :
    ∃ last more, stream.pushAll chunks = some (last, more) ∧
      After maxBytes (done ++ chunks) last (pieces ++ more) := by
  induction chunks generalizing done stream pieces with
  | nil => exact ⟨stream, [], rfl, by simpa using after⟩
  | cons chunk chunks ih =>
    obtain ⟨next, piece, pushed, then_⟩ := after.push chunk
    obtain ⟨last, more, rest, finally_⟩ := ih then_
    refine ⟨last, piece :: more, ?_, by simpa using finally_⟩
    rw [SafeOutputStream.pushAll, pushed]
    simp [rest]

/-- The text of what is kept, if it is one -/
def textOf (bytes : List UInt8) : List Char :=
  stripC1 (decoded bytes).2 ++
    stripC1 ((decoded bytes).1.decode (stripEscapes (stripFrom 0 bytes).2 true).1 false).2

theorem After.finish (after : After maxBytes done stream pieces) :
    stream.finish.2 = {
      text := if stream.binary then [] else textOf (keptOf maxBytes done)
      truncated := decide (maxBytes < done.flatten.length)
      binary := stream.binary
      bytesTotal := done.flatten.length
      bytesKept := (keptOf maxBytes done).length } := by
  unfold SafeOutputStream.finish
  simp only [after.unfinished]
  cases binary : stream.binary with
  | true => simp [binary, after.truncated, after.total, after.count]
  | false =>
    have text := after.text binary
    have flush : stream.flush = stripC1 ((decoded (keptOf maxBytes done)).1.decode
        (stripEscapes (stripFrom 0 (keptOf maxBytes done)).2 true).1 false).2 := by
      rw [SafeOutputStream.flush, after.carry binary, after.decoder binary]
    simp [binary, after.truncated, after.total, after.count, text, flush, textOf]

theorem After.flush (after : After maxBytes done stream pieces) (text : stream.binary = false) :
    textOf (keptOf maxBytes done) = pieces.flatten ++ stream.flush := by
  rw [textOf, ← after.text text, after.given text, SafeOutputStream.flush, after.carry text,
    after.decoder text]

end Stream

/-! ### What may be shown -/

/-- No control characters but tab, newline and carriage return, and so no `ESC`; no `DEL`; and none of
the control characters beyond ASCII. -/
def Inert (text : List Char) : Prop :=
  ∀ c ∈ text, (c = '\t' ∨ c = '\n' ∨ c = '\r' ∨ 0x20 ≤ c.toNat) ∧ c.toNat ≠ 0x7f ∧
    ¬ (0x80 ≤ c.toNat ∧ c.toNat ≤ 0x9f)

section Inert

variable {bytes : List UInt8} {text : List Char}

theorem inert_append {first last : List Char} (one : Inert first) (other : Inert last) :
    Inert (first ++ last) :=
  fun c inside => (List.mem_append.mp inside).elim (one c) (other c)

/-- A byte that is left makes a character that may be shown. -/
theorem inert_of_clean {byte : UInt8} (ascii : byte.toNat ≤ 0x7f) (control : isControl byte = false)
    (noDelete : byte ≠ 0x7f) :
    (Char.ofNat byte.toNat = '\t' ∨ Char.ofNat byte.toNat = '\n' ∨ Char.ofNat byte.toNat = '\r' ∨
      0x20 ≤ byte.toNat) ∧ byte.toNat ≠ 0x7f := by
  refine ⟨?_, fun is => noDelete (UInt8.toNat_inj.mp is)⟩
  by_cases low : byte < 0x20
  · have spacing : isSpacing byte = true := by simpa [isControl, low] using control
    simp only [isSpacing, Bool.or_eq_true, beq_iff_eq] at spacing
    rcases spacing with (rfl | rfl) | rfl
    · exact .inl rfl
    · exact .inr (.inl rfl)
    · exact .inr (.inr (.inl rfl))
  · exact .inr (.inr (.inr (by simpa [UInt8.lt_iff_toNat_lt] using low)))

theorem inert_stripC1 {skip : Nat} (from_ : ∀ c ∈ text, FromBytes (stripFrom skip bytes).1 c) :
    Inert (stripC1 text) := by
  intro c inside
  obtain ⟨there, kept⟩ := List.mem_filter.mp inside
  have noC1 : ¬ (0x80 ≤ c.toNat ∧ c.toNat ≤ 0x9f) := by
    simp only [isC1, Bool.not_eq_true', Bool.and_eq_false_iff, decide_eq_false_iff_not] at kept
    omega
  rcases from_ c there with far | ⟨byte, clean, rfl, ascii⟩
  · exact ⟨.inr (.inr (.inr (by omega))), by omega, noC1⟩
  · obtain ⟨_, control, noDelete⟩ := clean_of_stripFrom skip bytes byte clean
    have is : (Char.ofNat byte.toNat).toNat = byte.toNat := toNat_ofNat (by omega)
    obtain ⟨shown, other⟩ := inert_of_clean ascii control noDelete
    rw [is] at noC1 ⊢
    exact ⟨shown, other, noC1⟩

theorem inert_textOf (bytes : List UInt8) : Inert (textOf bytes) := by
  obtain ⟨sound, chars⟩ : (decoded bytes).1.decoder.Sound ∧
      ∀ c ∈ (decoded bytes).2, FromBytes (stripFrom 0 bytes).1 c :=
    decode_chars Decoder.sound_start _ true
  exact inert_append (inert_stripC1 chars) (inert_stripC1 (decode_chars sound _ false).2)

end Inert

section Result

variable {maxBytes : Nat} {done : List (List UInt8)} {stream : SafeOutputStream}
  {pieces : List (List Char)}

theorem After.inert (after : After maxBytes done stream pieces) : Inert stream.finish.2.text := by
  rw [after.finish]
  cases stream.binary with
  | true => exact List.forall_mem_nil _
  | false => exact inert_textOf _

/-- The whole of the bytes, at once -/
theorem sanitizeOutput_eq (bytes : List UInt8) (maxBytes : Nat) :
    sanitizeOutput bytes maxBytes = some {
      text := if looksBinary (bytes.take maxBytes) then [] else textOf (bytes.take maxBytes)
      truncated := decide (maxBytes < bytes.length)
      binary := looksBinary (bytes.take maxBytes)
      bytesTotal := bytes.length
      bytesKept := (bytes.take maxBytes).length } := by
  obtain ⟨next, piece, pushed, after⟩ := (after_start maxBytes).push bytes
  have kept : keptOf maxBytes ([] ++ [bytes]) = bytes.take maxBytes := by simp [keptOf]
  have binary : next.binary = looksBinary (bytes.take maxBytes) := by
    rw [Bool.eq_iff_iff, after.binary, seenBinary_concat, kept]
    refine or_iff_right ?_
    rintro ⟨n, looks⟩
    simp [keptOf, looksBinary] at looks
  rw [sanitizeOutput, pushed, Option.map_some, after.finish, kept, binary]
  simp

/-- In these chunks the output is the same as at once; if it is text, the texts of the chunks and what
`finish` adds make it; and it may be shown. -/
def SafeInChunks (maxBytes : Nat) (chunks : List (List UInt8)) : Prop :=
  ∃ stream pieces, SafeOutputStream.pushAll { maxBytes } chunks = some (stream, pieces) ∧
    sanitizeOutput chunks.flatten maxBytes = some stream.finish.2 ∧
    (stream.finish.2.binary = false → stream.finish.2.text = pieces.flatten ++ stream.flush) ∧
    Inert stream.finish.2.text

/-- The chunks make no difference exactly if what is kept looks like no text whenever a beginning of
it does that ends with a chunk. -/
theorem safeInChunks_iff (maxBytes : Nat) (chunks : List (List UInt8)) :
    SafeInChunks maxBytes chunks ↔
      ∀ n, looksBinary ((chunks.take n).flatten.take maxBytes) = true →
        looksBinary (chunks.flatten.take maxBytes) = true := by
  obtain ⟨stream, pieces, pushed, after⟩ := (after_start maxBytes).pushAll chunks
  rw [List.nil_append, List.nil_append] at after
  have whole := sanitizeOutput_eq chunks.flatten maxBytes
  constructor
  · rintro ⟨_, _, is, same, _⟩ n looks
    obtain ⟨rfl, rfl⟩ := Prod.mk.inj (Option.some.inj (pushed.symm.trans is))
    have binary := congrArg GhSafeText.binary (Option.some.inj (whole.symm.trans same))
    rw [after.finish] at binary
    exact binary.trans (after.binary.mpr ⟨n, looks⟩)
  · intro alike
    have binary : stream.binary = looksBinary (chunks.flatten.take maxBytes) := by
      rw [Bool.eq_iff_iff, after.binary]
      exact ⟨fun ⟨n, looks⟩ => alike n looks, seenBinary_of_kept⟩
    refine ⟨stream, pieces, pushed, ?_, fun text => ?_, after.inert⟩
    · rw [whole, after.finish, ← binary]
      rfl
    · rw [after.finish] at text ⊢
      have isText : stream.binary = false := text
      simp only [isText]
      exact after.flush isText

/-- One control character in a chunk of its own makes the output no text. Together with what comes
after it, it is taken out. -/
theorem chunk_makes_binary :
    (SafeOutputStream.pushAll { maxBytes := 100 } [[1], List.replicate 8 0x61]).map
      (fun pushed => pushed.1.finish.2) = some ⟨[], false, true, 9, 9⟩ ∧
    sanitizeOutput (1 :: List.replicate 8 0x61) 100 =
      some ⟨List.replicate 8 'a', false, false, 9, 9⟩ ∧
    ¬ SafeInChunks 100 [[1], List.replicate 8 0x61] := by
  have chunks : (SafeOutputStream.pushAll { maxBytes := 100 } [[1], List.replicate 8 0x61]).map
      (fun pushed => pushed.1.finish.2) = some ⟨[], false, true, 9, 9⟩ := by decide
  have once : sanitizeOutput (1 :: List.replicate 8 0x61) 100 =
      some ⟨List.replicate 8 'a', false, false, 9, 9⟩ := by decide
  refine ⟨chunks, once, ?_⟩
  rintro ⟨stream, pieces, pushed, same, _⟩
  rw [pushed, Option.map_some] at chunks
  have whole : sanitizeOutput (1 :: List.replicate 8 0x61) 100 = some stream.finish.2 := same
  rw [once, Option.some.inj chunks] at whole
  exact absurd (congrArg GhSafeText.binary (Option.some.inj whole)) (by decide)

end Result

end PrSearch.GhCli
