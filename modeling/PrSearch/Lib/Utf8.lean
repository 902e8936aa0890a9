import Mathlib.Data.List.Basic

/-! # UTF-8 over lists of bytes

A text is encoded character by character. The first byte of a character says how many bytes it has, and
the others are continuation bytes; so a byte that is no continuation byte begins a character. Places
between two characters are boundaries.
-/
namespace Utf8

def encode (chars : List Char) : List UInt8 := chars.flatMap String.utf8EncodeChar

/-- `none`: the bytes are not the encoding of a text. -/
def decode (bytes : List UInt8) : Option (List Char) :=
  bytes.toByteArray.utf8Decode?.map Array.toList

def isContinuation (byte : UInt8) : Bool := byte &&& 0xc0 = 0x80

/-- How many bytes a character has that starts with this one. -/
def width (lead : UInt8) : Nat :=
  if 0xf0 ≤ lead then 4 else if 0xe0 ≤ lead then 3 else if 0xc0 ≤ lead then 2 else 1

/-! ### Decoding -/

section Decode

variable {bytes : List UInt8} {chars others : List Char}

@[simp] theorem encode_nil : encode [] = [] := rfl

@[simp] theorem encode_cons (c : Char) (chars : List Char) :
    encode (c :: chars) = String.utf8EncodeChar c ++ encode chars := rfl

@[simp] theorem encode_append (first last : List Char) :
    encode (first ++ last) = encode first ++ encode last := List.flatMap_append

theorem toByteArray_encode (chars : List Char) : (encode chars).toByteArray = chars.utf8Encode := rfl

@[simp] theorem decode_encode (chars : List Char) : decode (encode chars) = some chars := by
  rw [decode, toByteArray_encode, List.utf8Decode?_utf8Encode]
  rfl

/-- A text is what its encoding decodes to, and nothing else decodes. -/
theorem decode_eq_some_iff : decode bytes = some chars ↔ bytes = encode chars := by
  constructor
  · intro decoded
    obtain ⟨array, found, rfl⟩ := Option.map_eq_some_iff.mp decoded
    have same : array.toList.utf8Encode = bytes.toByteArray := by
      have isSome : bytes.toByteArray.utf8Decode?.isSome := by rw [found]; rfl
      have back : (bytes.toByteArray.utf8Decode?.get isSome).toList.utf8Encode = bytes.toByteArray :=
        ByteArray.utf8Encode_get_utf8Decode?
      simpa [found] using back
    rw [← toByteArray_encode] at same
    exact (List.toByteArray_inj.mp same).symm
  · rintro rfl
    exact decode_encode chars

theorem encode_injective (same : encode chars = encode others) : chars = others :=
  Option.some.inj ((decode_encode chars).symm.trans (same ▸ decode_encode others))

/-- A text whose encoding starts with that of another one starts with it. -/
theorem exists_append_of_encode_eq {rest : List UInt8} (same : encode chars = encode others ++ rest) :
    ∃ last, chars = others ++ last ∧ rest = encode last := by
  have start : others <+: chars := by
    refine List.isPrefix_of_utf8Encode_append_eq_utf8Encode rest.toByteArray ?_
    rw [← toByteArray_encode, ← toByteArray_encode, same, List.toByteArray_append]
  obtain ⟨last, rfl⟩ := start
  rw [encode_append] at same
  exact ⟨last, rfl, (List.append_cancel_left same).symm⟩

end Decode

/-! ### The bytes of a character -/

theorem ascii_byte : ∀ k < 0x80, isContinuation (UInt8.ofNat k) = false ∧ width (UInt8.ofNat k) = 1 := by
  decide

theorem lead_two : ∀ k < 0x20, isContinuation (UInt8.ofNat (k + 0xc0)) = false ∧
    width (UInt8.ofNat (k + 0xc0)) = 2 := by
  decide

theorem lead_three : ∀ k < 0x10, isContinuation (UInt8.ofNat (k + 0xe0)) = false ∧
    width (UInt8.ofNat (k + 0xe0)) = 3 := by
  decide

theorem lead_four : ∀ k < 0x08, isContinuation (UInt8.ofNat (k + 0xf0)) = false ∧
    width (UInt8.ofNat (k + 0xf0)) = 4 := by
  decide

theorem continuation_byte : ∀ k < 0x40, isContinuation (UInt8.ofNat (k + 0x80)) = true := by
  decide

theorem continuation_mod (k : Nat) : isContinuation (UInt8.ofNat (k % 0x40 + 0x80)) = true :=
  continuation_byte _ (Nat.mod_lt _ (by decide))

/-- A character is a first byte, which says how many there are, and continuation bytes. -/
theorem utf8EncodeChar_shape (c : Char) :
    ∃ lead tail, String.utf8EncodeChar c = lead :: tail ∧ isContinuation lead = false ∧
      (∀ byte ∈ tail, isContinuation byte = true) ∧ width lead = tail.length + 1 := by
  unfold String.utf8EncodeChar
  generalize c.val.toNat = v
  simp only []
  split
  next one =>
    obtain ⟨lead, wide⟩ := ascii_byte v (by omega)
    exact ⟨_, [], rfl, lead, fun _ inside => (nomatch inside), wide⟩
  next =>
    split
    next two =>
      obtain ⟨lead, wide⟩ := lead_two (v / 64 % 0x20) (Nat.mod_lt _ (by decide))
      refine ⟨_, _, rfl, lead, ?_, wide⟩
      exact List.forall_mem_cons.mpr ⟨continuation_mod v, fun _ inside => (nomatch inside)⟩
    next =>
      split
      next three =>
        obtain ⟨lead, wide⟩ := lead_three (v / 4096 % 0x10) (Nat.mod_lt _ (by decide))
        refine ⟨_, _, rfl, lead, ?_, wide⟩
        exact List.forall_mem_cons.mpr ⟨continuation_mod (v / 64), List.forall_mem_cons.mpr
          ⟨continuation_mod v, fun _ inside => (nomatch inside)⟩⟩
      next four =>
        obtain ⟨lead, wide⟩ := lead_four (v / 262144 % 0x08) (Nat.mod_lt _ (by decide))
        refine ⟨_, _, rfl, lead, ?_, wide⟩
        exact List.forall_mem_cons.mpr ⟨continuation_mod (v / 4096), List.forall_mem_cons.mpr
          ⟨continuation_mod (v / 64), List.forall_mem_cons.mpr
            ⟨continuation_mod v, fun _ inside => (nomatch inside)⟩⟩⟩

theorem width_le_four (byte : UInt8) : width byte ≤ 4 := by
  unfold width
  split
  · exact Nat.le_refl 4
  · split
    · decide
    · split <;> decide

theorem width_pos (byte : UInt8) : 0 < width byte := by
  unfold width
  split
  · decide
  · split
    · decide
    · split <;> decide

theorem width_continuation_ofNat : ∀ k < 0x100, isContinuation (UInt8.ofNat k) = true →
    width (UInt8.ofNat k) = 1 := by
  decide +kernel

theorem width_of_isContinuation {byte : UInt8} (continues : isContinuation byte = true) :
    width byte = 1 := by
  rw [← UInt8.ofNat_toNat (x := byte)] at continues ⊢
  exact width_continuation_ofNat byte.toNat byte.toNat_lt continues

theorem length_encode_pos {chars : List Char} (some_ : chars ≠ []) : 0 < (encode chars).length := by
  cases chars with
  | nil => exact absurd rfl some_
  | cons c chars =>
    obtain ⟨lead, tail, shape, _⟩ := utf8EncodeChar_shape c
    rw [encode_cons, shape]
    exact Nat.succ_pos _

/-! ### Boundaries -/

/-- The place is between two characters, or at an end. -/
def Boundary (chars : List Char) (n : Nat) : Prop :=
  ∃ first last, chars = first ++ last ∧ (encode first).length = n

section Boundaries

variable {chars : List Char} {n : Nat} {byte : UInt8}

theorem boundary_zero (chars : List Char) : Boundary chars 0 := ⟨[], chars, rfl, rfl⟩

theorem boundary_length (chars : List Char) : Boundary chars (encode chars).length :=
  ⟨chars, [], (List.append_nil _).symm, rfl⟩

theorem Boundary.cons (boundary : Boundary chars n) (c : Char) :
    Boundary (c :: chars) ((String.utf8EncodeChar c).length + n) := by
  obtain ⟨first, last, rfl, rfl⟩ := boundary
  exact ⟨c :: first, last, rfl, by rw [encode_cons, List.length_append]⟩

theorem utf8EncodeChar_getElem?_zero (c : Char) (rest : List UInt8) :
    ∃ lead, (String.utf8EncodeChar c ++ rest)[0]? = some lead ∧ isContinuation lead = false ∧
      (String.utf8EncodeChar c).length = width lead := by
  obtain ⟨lead, tail, shape, starts, _, wide⟩ := utf8EncodeChar_shape c
  exact ⟨lead, by rw [shape]; rfl, starts, by rw [shape, List.length_cons, wide]⟩

/-- A byte that is no continuation byte begins a character. -/
theorem boundary_of_not_continuation (found : (encode chars)[n]? = some byte)
    (starts : isContinuation byte = false) : Boundary chars n := by
  induction chars generalizing n with
  | nil => simp at found
  | cons c chars ih =>
    rw [encode_cons, List.getElem?_append] at found
    split at found
    next inside =>
      obtain ⟨lead, tail, shape, _, continues, _⟩ := utf8EncodeChar_shape c
      rw [shape] at found
      cases n with
      | zero => exact boundary_zero _
      | succ n =>
        rw [List.getElem?_cons_succ] at found
        have more := continues byte (List.mem_of_getElem? found)
        rw [starts] at more
        cases more
    next behind =>
      have later := (ih found).cons c
      rwa [Nat.add_sub_cancel' (Nat.not_lt.mp behind)] at later

/-- The character at a boundary ends at the next one. -/
theorem Boundary.next (boundary : Boundary chars n) (found : (encode chars)[n]? = some byte) :
    isContinuation byte = false ∧ Boundary chars (n + width byte) := by
  obtain ⟨first, last, rfl, rfl⟩ := boundary
  rw [encode_append, List.getElem?_append_right (Nat.le_refl _), Nat.sub_self] at found
  cases last with
  | nil => simp at found
  | cons c last =>
    obtain ⟨lead, isLead, starts, wide⟩ := utf8EncodeChar_getElem?_zero c (encode last)
    rw [encode_cons] at found
    obtain rfl : byte = lead := Option.some.inj (found.symm.trans isLead)
    refine ⟨starts, first ++ [c], last, by simp, ?_⟩
    rw [encode_append, List.length_append, encode_cons, encode_nil, List.append_nil, wide]

/-- Every byte is one of a character. -/
theorem exists_boundary (less : n < (encode chars).length) :
    ∃ b lead, b ≤ n ∧ Boundary chars b ∧ (encode chars)[b]? = some lead ∧ n < b + width lead := by
  induction chars generalizing n with
  | nil => simp at less
  | cons c chars ih =>
    obtain ⟨lead, isLead, _, wide⟩ := utf8EncodeChar_getElem?_zero c (encode chars)
    by_cases inside : n < (String.utf8EncodeChar c).length
    · exact ⟨0, lead, Nat.zero_le _, boundary_zero _, isLead, by omega⟩
    · rw [encode_cons, List.length_append] at less
      obtain ⟨b, lead, before, boundary, found, within⟩ := ih
        (by omega : n - (String.utf8EncodeChar c).length < (encode chars).length)
      refine ⟨(String.utf8EncodeChar c).length + b, lead, by omega, boundary.cons c, ?_, by omega⟩
      rw [encode_cons, List.getElem?_append_right (Nat.le_add_right _ _), Nat.add_sub_cancel_left]
      exact found

/-- No four continuation bytes stand in a row. -/
theorem exists_not_continuation (within : n + 3 < (encode chars).length) :
    ∃ k byte, k ≤ 3 ∧ (encode chars)[n + k]? = some byte ∧ isContinuation byte = false := by
  obtain ⟨b, lead, before, boundary, found, inside⟩ := exists_boundary (Nat.lt_of_add_right_lt within)
  have starts := (boundary.next found).1
  have next_ := (boundary.next found).2
  have wide := width_le_four lead
  by_cases own : b = n
  · subst own
    exact ⟨0, lead, Nat.zero_le _, found, starts⟩
  · have less : b + width lead < (encode chars).length := by omega
    have there := List.getElem?_eq_getElem less
    refine ⟨b + width lead - n, _, by omega, ?_, (next_.next there).1⟩
    rw [Nat.add_sub_cancel' (Nat.le_of_lt inside)]
    exact there

theorem Boundary.split (boundary : Boundary chars n) (rest : List UInt8) :
    ∃ first last, chars = first ++ last ∧ n = (encode first).length ∧
      (encode chars ++ rest).take n = encode first ∧
      (encode chars ++ rest).drop n = encode last ++ rest := by
  obtain ⟨first, last, rfl, rfl⟩ := boundary
  refine ⟨first, last, rfl, rfl, ?_, ?_⟩
  · rw [encode_append, List.append_assoc, List.take_left]
  · rw [encode_append, List.append_assoc, List.drop_left]

end Boundaries

/-! ### The first byte that is no text -/

section Stop

variable {chars : List Char} {bytes piece : List UInt8} {stop : Char}

/-- The bytes begin with no character but this one. -/
def Stops (stop : Char) (bytes : List UInt8) : Prop :=
  ∀ c rest, bytes = String.utf8EncodeChar c ++ rest → c = stop

/-- Bytes are a text without the character, and what stops it. -/
theorem exists_stop (stop : Char) (bytes : List UInt8) :
    ∃ good bad, bytes = encode good ++ bad ∧ stop ∉ good ∧ Stops stop bad := by
  induction size : bytes.length using Nat.strongRecOn generalizing bytes with
  | ind size_ ih =>
    by_cases more : ∃ c rest, bytes = String.utf8EncodeChar c ++ rest ∧ c ≠ stop
    · obtain ⟨c, rest, rfl, other⟩ := more
      obtain ⟨lead, tail, shape, _⟩ := utf8EncodeChar_shape c
      have shorter : rest.length < size_ := by
        rw [← size, shape, List.length_append, List.length_cons]
        omega
      obtain ⟨good, bad, rfl, absent, stops⟩ := ih rest.length shorter rest rfl
      exact ⟨c :: good, bad, by rw [encode_cons, List.append_assoc],
        by simp [absent, Ne.symm other], stops⟩
    · refine ⟨[], bytes, rfl, List.not_mem_nil, fun c rest is => ?_⟩
      by_contra other
      exact more ⟨c, rest, is, other⟩

/-- A part of what stops a text does not decode without the character. -/
theorem mem_of_decode_stop (stops : Stops stop (piece ++ bytes)) (some_ : piece ≠ [])
    {decoded : List Char} (is : decode (encode chars ++ piece) = some decoded) : stop ∈ decoded := by
  obtain ⟨last, rfl, rfl⟩ := exists_append_of_encode_eq (decode_eq_some_iff.mp is).symm
  cases last with
  | nil => exact absurd rfl some_
  | cons c last =>
    have own := stops c (encode last ++ bytes) (by rw [encode_cons, List.append_assoc])
    simp [own]

/-- A text without the character is part of the longest one. -/
theorem isPrefix_of_stops {good : List Char} {rest bad : List UInt8}
    (same : encode chars ++ rest = encode good ++ bad) (absent : stop ∉ chars)
    (stops : Stops stop bad) : chars <+: good := by
  induction chars generalizing good with
  | nil => exact List.nil_prefix
  | cons c chars ih =>
    cases good with
    | nil =>
      have own := stops c (encode chars ++ rest) (by
        rw [← List.append_assoc, ← encode_cons, same, encode_nil, List.nil_append])
      exact absurd (own ▸ List.mem_cons_self) absent
    | cons c' good =>
      rw [encode_cons, encode_cons, List.append_assoc, List.append_assoc] at same
      have own : c = c' := by
        have reads := congrArg (fun bytes => bytes.toByteArray.utf8DecodeChar? 0) same
        simp only [List.toByteArray_append, ByteArray.utf8DecodeChar?_utf8EncodeChar_append,
          Option.some.injEq] at reads
        exact reads
      subst own
      have later := ih (List.append_cancel_left same) fun inside => absent (List.mem_cons_of_mem c inside)
      exact List.cons_prefix_cons.mpr ⟨rfl, later⟩

theorem zero_mem_encode : (0 : UInt8) ∈ encode chars ↔ Char.ofNat 0 ∈ chars := by
  constructor
  · intro inside
    obtain ⟨c, member, byte⟩ := List.mem_flatMap.mp inside
    obtain ⟨lead, tail, shape, _, continues, wide⟩ := utf8EncodeChar_shape c
    rw [shape] at byte
    rcases List.mem_cons.mp byte with is | more
    · subst is
      have alone : tail = [] := by
        have one : width 0 = 1 := by decide
        rw [one] at wide
        exact List.eq_nil_of_length_eq_zero (by omega)
      have same : encode [c] = encode [Char.ofNat 0] := by
        rw [encode_cons, shape, alone]
        decide
      have own : c = Char.ofNat 0 := by simpa using encode_injective same
      exact own ▸ member
    · have not_ := continues 0 more
      exact absurd not_ (by decide)
  · intro member
    exact List.mem_flatMap.mpr ⟨_, member, by decide⟩

end Stop

end Utf8
