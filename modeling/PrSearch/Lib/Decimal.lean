import Mathlib.Data.List.Induction
import Mathlib.Tactic.IntervalCases

/-! # Decimal texts

A natural number is written with digits, without a leading zero unless it is zero itself. Such texts
and the numbers correspond to each other.
-/
namespace PrSearch.Lib.Decimal

/-- A row of digits that a number is written with. -/
def Canonical (digits : List Char) : Prop :=
  digits ≠ [] ∧ (∀ c ∈ digits, c.isDigit = true) ∧ digits.head? ≠ some '0'

variable {c : Char} {n : Nat}

theorem toNat_of_isDigit (digit : c.isDigit = true) : 48 ≤ c.toNat ∧ c.toNat ≤ 57 := by
  simpa [Char.isDigit, UInt32.le_iff_toNat_le] using digit

theorem digitChar_of_isDigit (digit : c.isDigit = true) : Nat.digitChar (c.toNat - 48) = c := by
  obtain ⟨low, high⟩ := toNat_of_isDigit digit
  obtain ⟨value, is⟩ : ∃ value, c.toNat = 48 + value := ⟨c.toNat - 48, by omega⟩
  have small : value < 10 := by omega
  have same : (Nat.digitChar value).toNat = c.toNat := by
    rw [Nat.toNat_digitChar_of_lt_ten small, is]
  rw [is, Nat.add_sub_cancel_left]
  exact Char.toNat_inj.mp same

theorem head_append {front : List Char} (some : front ≠ []) (rest : List Char) :
    (front ++ rest).head? = front.head? := by
  rw [List.head?_append, List.head?_eq_some_head some, Option.some_or]

theorem ofDigitChars_concat (digits : List Char) (c : Char) :
    Nat.ofDigitChars 10 (digits ++ [c]) 0 =
      10 * Nat.ofDigitChars 10 digits 0 + (c.toNat - 48) := by
  simp [Nat.ofDigitChars_eq_foldl]

/-- Reading a number and writing it again. -/
theorem toDigits_ofDigitChars {digits : List Char} (canonical : Canonical digits) :
    Nat.toDigits 10 (Nat.ofDigitChars 10 digits 0) = digits := by
  obtain ⟨some, areDigits, noZero⟩ := canonical
  induction digits using List.reverseRecOn with
  | nil => exact absurd rfl some
  | append_singleton front c ih =>
    have digit := areDigits c (by simp)
    obtain ⟨low, high⟩ := toNat_of_isDigit digit
    rw [ofDigitChars_concat]
    by_cases alone : front = []
    · subst alone
      rw [Nat.ofDigitChars_nil, Nat.mul_zero, Nat.zero_add,
        Nat.toDigits_of_lt_base (by omega), digitChar_of_isDigit digit]
      rfl
    · have frontHead : front.head? ≠ Option.some '0' := by
        rwa [head_append alone] at noZero
      have written := ih alone (fun d inside => areDigits d (List.mem_append_left _ inside)) frontHead
      -- a number written without a leading zero is not zero
      have positive : 0 < Nat.ofDigitChars 10 front 0 := by
        rw [Nat.pos_iff_ne_zero]
        intro zero
        rw [zero, Nat.toDigits_zero] at written
        rw [← written] at frontHead
        exact frontHead rfl
      have joined := Nat.toDigits_append_toDigits (b := 10) (by decide) positive
        (by omega : c.toNat - 48 < 10)
      rw [← joined, written, Nat.toDigits_of_lt_base (by omega), digitChar_of_isDigit digit]

theorem head_toDigits (positive : 0 < n) : (Nat.toDigits 10 n).head? ≠ some '0' := by
  induction n using Nat.strongRecOn with
  | ind n ih =>
    by_cases small : n < 10
    · rw [Nat.toDigits_of_lt_base small, List.head?_cons, ne_eq, Option.some.injEq]
      interval_cases n <;> decide
    · rw [Nat.toDigits_of_base_le (by decide) (by omega),
        head_append Nat.toDigits_ne_nil]
      exact ih (n / 10) (by omega) (by omega)

/-- A positive number is written canonically. -/
theorem canonical_toDigits (positive : 0 < n) : Canonical (Nat.toDigits 10 n) :=
  ⟨Nat.toDigits_ne_nil, fun _ => Nat.isDigit_of_mem_toDigits (by decide) (by decide),
    head_toDigits positive⟩

end PrSearch.Lib.Decimal
