import Mathlib.Algebra.Ring.Nat
import Mathlib.Data.List.Basic

/-! # Decoding bytes as they come

A decoder reads UTF-8 byte by byte and keeps what it knows of a character that is not complete. A byte
that cannot go on with the character ends it: the replacement character stands for it, and the byte
is read again as the first one of a character. A mark at the very beginning is left out. Decoding a
part and then the rest is decoding the whole, however it is cut.
-/
namespace Utf8

def replacement : Char := '\uFFFD'

def byteOrderMark : Char := '\uFEFF'

/-- What is known of a character: its bits so far, how many bytes are needed, and between which bounds
the next one has to be. -/
structure Decoder where
  codePoint : Nat := 0
  needed : Nat := 0
  lower : Nat := 0x80
  upper : Nat := 0xbf
  deriving DecidableEq

/-- The first byte of a character -/
def Decoder.begin (byte : UInt8) : Decoder × List Char :=
  let b := byte.toNat
  if b ≤ 0x7f then ({}, [Char.ofNat b])
  else if 0xc2 ≤ b ∧ b ≤ 0xdf then (⟨b - 0xc0, 1, 0x80, 0xbf⟩, [])
  else if 0xe0 ≤ b ∧ b ≤ 0xef then
    (⟨b - 0xe0, 2, if b = 0xe0 then 0xa0 else 0x80, if b = 0xed then 0x9f else 0xbf⟩, [])
  else if 0xf0 ≤ b ∧ b ≤ 0xf4 then
    (⟨b - 0xf0, 3, if b = 0xf0 then 0x90 else 0x80, if b = 0xf4 then 0x8f else 0xbf⟩, [])
  else ({}, [replacement])

def Decoder.step (decoder : Decoder) (byte : UInt8) : Decoder × List Char :=
  let b := byte.toNat
  if decoder.needed = 0 then begin byte
  else if decoder.lower ≤ b ∧ b ≤ decoder.upper then
    let codePoint := decoder.codePoint * 64 + (b - 0x80)
    if decoder.needed = 1 then ({}, [Char.ofNat codePoint])
    else (⟨codePoint, decoder.needed - 1, 0x80, 0xbf⟩, [])
  else
    -- the byte is read again
    let (decoder, chars) := begin byte
    (decoder, replacement :: chars)

def Decoder.feed (decoder : Decoder) : List UInt8 → Decoder × List Char
  | [] => (decoder, [])
  | byte :: bytes =>
      let (after, chars) := decoder.step byte
      let (last, rest) := after.feed bytes
      (last, chars ++ rest)

/-- At the end, a character that is not complete is replaced. -/
def Decoder.flush (decoder : Decoder) : List Char :=
  if decoder.needed = 0 then [] else [replacement]

structure TextDecoder where
  decoder : Decoder := {}
  markSeen : Bool := false
  deriving DecidableEq

/-- The mark is left out as the first character, and only there. -/
def dropMark : Bool → List Char → Bool × List Char
  | seen, [] => (seen, [])
  | true, c :: rest => (true, c :: rest)
  | false, c :: rest => (true, if c = byteOrderMark then rest else c :: rest)

/-- `decode(bytes, { stream })`: at the end of a stream, the decoder is as it was before it. -/
def TextDecoder.decode (decoder : TextDecoder) (bytes : List UInt8) (stream : Bool) :
    TextDecoder × List Char :=
  let (after, chars) := decoder.decoder.feed bytes
  if stream then
    let (seen, text) := dropMark decoder.markSeen chars
    (⟨after, seen⟩, text)
  else ({}, (dropMark decoder.markSeen (chars ++ after.flush)).2)

/-! ### A part and then the rest -/

section Parts

theorem feed_append (decoder : Decoder) (first last : List UInt8) :
    decoder.feed (first ++ last) =
      (((decoder.feed first).1.feed last).1,
        (decoder.feed first).2 ++ ((decoder.feed first).1.feed last).2) := by
  induction first generalizing decoder with
  | nil => rfl
  | cons byte first ih =>
    simp only [List.cons_append, Decoder.feed, ih, List.append_assoc]

theorem dropMark_append (seen : Bool) (first last : List Char) :
    dropMark seen (first ++ last) =
      ((dropMark (dropMark seen first).1 last).1,
        (dropMark seen first).2 ++ (dropMark (dropMark seen first).1 last).2) := by
  cases first with
  | nil => rfl
  | cons c first =>
    cases seen <;> cases last <;> simp [dropMark] <;> split <;> simp

theorem decode_append (decoder : TextDecoder) (first last : List UInt8) :
    decoder.decode (first ++ last) true =
      (((decoder.decode first true).1.decode last true).1,
        (decoder.decode first true).2 ++ ((decoder.decode first true).1.decode last true).2) := by
  simp only [TextDecoder.decode, feed_append, dropMark_append, if_true]

end Parts

variable {decoder : Decoder} {b : Nat}

/-! ### What is decoded -/

section Decoded

/-- Where a character may come from: it is beyond ASCII, or it is one of the bytes. -/
def FromBytes (bytes : List UInt8) (c : Char) : Prop :=
  0x80 ≤ c.toNat ∨ ∃ byte ∈ bytes, c = Char.ofNat byte.toNat ∧ byte.toNat ≤ 0x7f

/-- What the bytes that are still needed can make of the bits so far. -/
structure Decoder.Sound (decoder : Decoder) : Prop where
  few : decoder.needed ≤ 3
  bounds : 0x80 ≤ decoder.lower ∧ decoder.lower ≤ decoder.upper ∧ decoder.upper ≤ 0xbf
  -- no character of ASCII, no surrogate, and nothing beyond the last code point
  least : 0 < decoder.needed →
    0x80 ≤ (decoder.codePoint * 64 + (decoder.lower - 0x80)) * 64 ^ (decoder.needed - 1)
  valid : 0 < decoder.needed →
    (decoder.codePoint * 64 + (decoder.upper - 0x80) + 1) * 64 ^ (decoder.needed - 1) ≤ 0xd800 ∨
    0xe000 ≤ (decoder.codePoint * 64 + (decoder.lower - 0x80)) * 64 ^ (decoder.needed - 1) ∧
      (decoder.codePoint * 64 + (decoder.upper - 0x80) + 1) * 64 ^ (decoder.needed - 1) ≤ 0x110000

theorem Decoder.sound_start : Decoder.Sound {} where
  few := Nat.zero_le 3
  bounds := by decide
  least := fun positive => absurd positive (Nat.lt_irrefl 0)
  valid := fun positive => absurd positive (Nat.lt_irrefl 0)

theorem Decoder.sound_begin (byte : UInt8) : (begin byte).1.Sound := by
  unfold begin
  simp only
  split
  · exact sound_start
  split
  · constructor <;> simp
    all_goals omega
  split
  · constructor <;> simp
    all_goals split <;> (try split) <;> omega
  split
  · constructor <;> simp
    all_goals split <;> (try split) <;> omega
  · exact sound_start

theorem toNat_ofNat {n : Nat} (valid : n < 0xd800 ∨ 0xe000 ≤ n ∧ n < 0x110000) :
    (Char.ofNat n).toNat = n := by
  have isValid : n.isValidChar := by
    unfold Nat.isValidChar
    omega
  unfold Char.ofNat
  rw [dif_pos isValid]
  unfold Char.ofNatAux Char.toNat
  simp

/-- A byte within the bounds keeps what the others can make. -/
theorem Decoder.Sound.more (sound : decoder.Sound) (within : decoder.lower ≤ b ∧ b ≤ decoder.upper)
    (many : 1 < decoder.needed) :
    Decoder.Sound ⟨decoder.codePoint * 64 + (b - 0x80), decoder.needed - 1, 0x80, 0xbf⟩ := by
  obtain ⟨codePoint, needed, lower, upper⟩ := decoder
  obtain ⟨few, bounds, least, valid⟩ := sound
  dsimp only at few bounds least valid within many ⊢
  have least := least (Nat.lt_of_lt_of_le Nat.zero_lt_one (Nat.le_of_lt many))
  have valid := valid (Nat.lt_of_lt_of_le Nat.zero_lt_one (Nat.le_of_lt many))
  have power : 64 ^ (needed - 1) = 64 * 64 ^ (needed - 1 - 1) := by
    rw [← Nat.pow_succ']
    congr 1
    omega
  rw [power, ← Nat.mul_assoc] at least
  rw [power, ← Nat.mul_assoc, ← Nat.mul_assoc] at valid
  -- a byte between the bounds makes what is between theirs
  have above : (codePoint * 64 + (lower - 0x80)) * 64 * 64 ^ (needed - 1 - 1) ≤
      (codePoint * 64 + (b - 0x80)) * 64 * 64 ^ (needed - 1 - 1) :=
    Nat.mul_le_mul_right _ (Nat.mul_le_mul_right _ (by omega))
  have below : (codePoint * 64 + (b - 0x80) + 1) * 64 * 64 ^ (needed - 1 - 1) ≤
      (codePoint * 64 + (upper - 0x80) + 1) * 64 * 64 ^ (needed - 1 - 1) :=
    Nat.mul_le_mul_right _ (Nat.mul_le_mul_right _ (by omega))
  have first : (codePoint * 64 + (b - 0x80)) * 64 + (0x80 - 0x80) =
      (codePoint * 64 + (b - 0x80)) * 64 := by omega
  have beyond : (codePoint * 64 + (b - 0x80)) * 64 + (0xbf - 0x80) + 1 =
      (codePoint * 64 + (b - 0x80) + 1) * 64 := by omega
  refine ⟨Nat.le_trans (Nat.sub_le _ _) few, ?_, fun _ => ?_, fun _ => ?_⟩
  · exact ⟨Nat.le_refl 0x80, (by decide : 0x80 ≤ 0xbf), Nat.le_refl 0xbf⟩
  · dsimp only
    rw [first]
    exact Nat.le_trans least above
  · dsimp only
    rw [first, beyond]
    exact valid.imp (Nat.le_trans below) fun both =>
      ⟨Nat.le_trans both.1 above, Nat.le_trans below both.2⟩

/-- The last byte makes a character beyond ASCII. -/
theorem Decoder.Sound.last (sound : decoder.Sound) (within : decoder.lower ≤ b ∧ b ≤ decoder.upper)
    (one_ : decoder.needed = 1) :
    0x80 ≤ (Char.ofNat (decoder.codePoint * 64 + (b - 0x80))).toNat := by
  obtain ⟨codePoint, needed, lower, upper⟩ := decoder
  obtain ⟨few, bounds, least, valid⟩ := sound
  simp only at *
  subst one_
  have least := least (by decide)
  have valid := valid (by decide)
  simp at least valid
  rw [toNat_ofNat (by omega)]
  omega

theorem Decoder.begin_chars (byte : UInt8) : ∀ c ∈ (begin byte).2, FromBytes [byte] c := by
  have far : 0x80 ≤ replacement.toNat := by decide
  unfold begin
  simp only
  split
  next ascii =>
    intro c inside
    obtain rfl := List.mem_singleton.mp inside
    exact .inr ⟨byte, List.mem_singleton_self _, rfl, ascii⟩
  next =>
    split
    · exact List.forall_mem_nil _
    split
    · exact List.forall_mem_nil _
    split
    · exact List.forall_mem_nil _
    · intro c inside
      obtain rfl := List.mem_singleton.mp inside
      exact .inl far

theorem Decoder.Sound.step (sound : decoder.Sound) (byte : UInt8) :
    (decoder.step byte).1.Sound ∧ ∀ c ∈ (decoder.step byte).2, FromBytes [byte] c := by
  have far : 0x80 ≤ replacement.toNat := by decide
  unfold Decoder.step
  simp only
  split
  next => exact ⟨sound_begin byte, begin_chars byte⟩
  next some_ =>
    split
    next within =>
      split
      next one_ =>
        refine ⟨sound_start, fun c inside => .inl ?_⟩
        rw [List.mem_singleton.mp inside]
        exact sound.last within one_
      next many => exact ⟨sound.more within (by omega), List.forall_mem_nil _⟩
    next =>
      refine ⟨sound_begin byte, fun c inside => ?_⟩
      rcases List.mem_cons.mp inside with rfl | again
      · exact .inl far
      · exact begin_chars byte c again

theorem FromBytes.mono {bytes more : List UInt8} {c : Char} (from_ : FromBytes bytes c)
    (sub : bytes ⊆ more) : FromBytes more c := by
  rcases from_ with far | ⟨byte, inside, is, ascii⟩
  · exact .inl far
  · exact .inr ⟨byte, sub inside, is, ascii⟩

/-- Whatever is decoded is beyond ASCII, or one of the bytes. -/
theorem Decoder.Sound.feed (sound : decoder.Sound) (bytes : List UInt8) :
    (decoder.feed bytes).1.Sound ∧ ∀ c ∈ (decoder.feed bytes).2, FromBytes bytes c := by
  induction bytes generalizing decoder with
  | nil => exact ⟨sound, List.forall_mem_nil _⟩
  | cons byte bytes ih =>
    obtain ⟨after, own⟩ := sound.step byte
    obtain ⟨last, rest⟩ := ih after
    rw [Decoder.feed]
    refine ⟨last, fun c inside => ?_⟩
    rcases List.mem_append.mp inside with first | later
    · exact (own c first).mono (by simp)
    · exact (rest c later).mono (List.subset_cons_self byte bytes)

theorem dropMark_sublist (seen : Bool) (chars : List Char) : (dropMark seen chars).2.Sublist chars := by
  cases chars with
  | nil => exact List.Sublist.refl []
  | cons c rest =>
    cases seen with
    | true => exact List.Sublist.refl _
    | false =>
      rw [dropMark]
      split
      · exact List.sublist_cons_self c rest
      · exact List.Sublist.refl _

theorem Decoder.flush_chars (decoder : Decoder) : ∀ c ∈ decoder.flush, FromBytes [] c := by
  intro c inside
  unfold flush at inside
  split at inside
  · exact absurd inside List.not_mem_nil
  · obtain rfl := List.mem_singleton.mp inside
    exact .inl (by decide)

theorem decode_chars {decoder : TextDecoder} (sound : decoder.decoder.Sound) (bytes : List UInt8)
    (stream : Bool) : (decoder.decode bytes stream).1.decoder.Sound ∧
      ∀ c ∈ (decoder.decode bytes stream).2, FromBytes bytes c := by
  obtain ⟨after, own⟩ := sound.feed bytes
  cases stream with
  | true => exact ⟨after, fun c inside => own c ((dropMark_sublist _ _).subset inside)⟩
  | false =>
    refine ⟨Decoder.sound_start, fun c inside => ?_⟩
    rcases List.mem_append.mp ((dropMark_sublist _ _).subset inside) with fed | flushed
    · exact own c fed
    · exact (Decoder.flush_chars _ c flushed).mono (List.nil_subset bytes)

end Decoded

end Utf8
