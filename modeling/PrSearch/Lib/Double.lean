import Mathlib.Data.Nat.Log
import Mathlib.Data.List.DropRight
import PrSearch.Lib.Decimal

/-! # Whole numbers as doubles

A natural number is read as the nearest one that fifty-three bits and an exponent can hold, of two
that are equally near as the even one, and from `2 ^ 1024` on as infinity. It is written with as few
digits as tell it from the others, below `10 ^ 21` without an exponent. What is written is read as the
same number.
-/
namespace PrSearch.Lib.Double

/-! ### Reading -/

/-- The distance between the doubles around a number. -/
def unit (n : Nat) : Nat := 2 ^ (n.log2 - 52)

/-- The double nearest to a number. -/
def nearest (n : Nat) : Nat :=
  let half := 2 * (n % unit n)
  if unit n < half ∨ (unit n = half ∧ (n / unit n) % 2 = 1) then (n / unit n + 1) * unit n
  else n / unit n * unit n

theorem unit_pos (n : Nat) : 0 < unit n := Nat.two_pow_pos _

variable {n : Nat} {x : Number} {digits : List Char}

theorem nearest_of_dvd (whole : unit n ∣ n) : nearest n = n := by
  have positive := unit_pos n
  have noRest : n % unit n = 0 := Nat.mod_eq_zero_of_dvd whole
  simp only [nearest, noRest, Nat.mul_zero]
  rw [if_neg (by omega), Nat.div_mul_cancel whole]

/-- The quotient by the unit has at most fifty-three bits. -/
theorem quotient_lt (n : Nat) : n / unit n < 2 ^ 53 := by
  rw [Nat.div_lt_iff_lt_mul (unit_pos n), unit, ← pow_add]
  calc n < 2 ^ (n.log2 + 1) := Nat.lt_log2_self
    _ ≤ 2 ^ (53 + (n.log2 - 52)) := Nat.pow_le_pow_right (by decide) (by omega)

theorem nearest_eq_mul (n : Nat) : ∃ k ≤ 2 ^ 53, nearest n = k * unit n := by
  have few := quotient_lt n
  simp only [nearest]
  split
  · exact ⟨n / unit n + 1, by omega, rfl⟩
  · exact ⟨n / unit n, by omega, rfl⟩

-- Rounding up may reach the next power of two, which has a greater unit and is a multiple of it.
theorem unit_dvd_nearest (n : Nat) : unit (nearest n) ∣ nearest n := by
  obtain ⟨k, few, is⟩ := nearest_eq_mul n
  have bound : nearest n ≤ 2 ^ (53 + (n.log2 - 52)) := by
    rw [is, unit, pow_add]
    exact Nat.mul_le_mul_right _ few
  by_cases small : (nearest n).log2 - 52 ≤ n.log2 - 52
  · have inside : unit (nearest n) ∣ unit n := Nat.pow_dvd_pow 2 small
    rw [is] at inside ⊢
    exact inside.mul_left k
  · have positive : nearest n ≠ 0 := by
      intro zero
      simp [zero] at small
    have reached := Nat.log2_self_le positive
    have above : 53 + (n.log2 - 52) ≤ (nearest n).log2 := by omega
    have power : nearest n = 2 ^ (nearest n).log2 :=
      le_antisymm (bound.trans (Nat.pow_le_pow_right (by decide) above)) reached
    rw [unit]
    nth_rewrite 2 [power]
    exact Nat.pow_dvd_pow 2 (Nat.sub_le _ _)

theorem nearest_nearest (n : Nat) : nearest (nearest n) = nearest n :=
  nearest_of_dvd (unit_dvd_nearest n)

@[irreducible]
def overflow : Nat := 2 ^ 1024

/-- A whole number that is not negative, or infinity. -/
structure Number where
  value : Option Nat
  lawful : ∀ n ∈ value, nearest n = n ∧ n < overflow
  deriving DecidableEq

@[ext]
theorem Number.ext {y : Number} (same : x.value = y.value) : x = y := by
  cases x
  cases y
  exact (Number.mk.injEq ..).mpr same

/-- The number that a natural number is read as. -/
def ofNat (n : Nat) : Number where
  value := if nearest n < overflow then some (nearest n) else none
  lawful := by
    intro m is
    split at is
    next small =>
      cases Option.some.inj is
      exact ⟨nearest_nearest n, small⟩
    next => exact absurd is (Option.not_mem_none m)

theorem ofNat_eq (holds : x.value = some (nearest n)) : ofNat n = x := by
  refine Number.ext ?_
  rw [holds]
  exact if_pos (x.lawful _ holds).2

/-- `Number(digits)` -/
def ofDigits (digits : List Char) : Number := ofNat (Nat.ofDigitChars 10 digits 0)

/-! ### Writing -/

/-- The multiples of a power of ten around a number, the nearer one first. -/
def candidates (n zeros : Nat) : List Nat :=
  let down := n / 10 ^ zeros * 10 ^ zeros
  if 2 * (n - down) ≤ 10 ^ zeros then [down, down + 10 ^ zeros] else [down + 10 ^ zeros, down]

/-- The number with as many zeros at its end as can be that is read as the given one. -/
def shortest (n : Nat) : Nat :=
  ((List.range 310).reverse.findSome? fun zeros =>
    (candidates n zeros).find? fun m => nearest m = n).getD n

theorem nearest_shortest (double : nearest n = n) : nearest (shortest n) = n := by
  unfold shortest
  cases found : (List.range 310).reverse.findSome? fun zeros =>
      (candidates n zeros).find? fun m => nearest m = n with
  | none => exact double
  | some m =>
    obtain ⟨zeros, _, there⟩ := List.exists_of_findSome?_eq_some found
    simpa using List.find?_some there

/-- The first number that is written with an exponent -/
def exponentFrom : Nat := 10 ^ 21

/-- The digits up to the last one that is no zero. -/
def significant (digits : List Char) : List Char := digits.rdropWhile (· == '0')

def mantissa : List Char → List Char
  | [] => []
  | [first] => [first]
  | first :: rest => first :: '.' :: rest

def exponential (digits : List Char) : List Char :=
  mantissa (significant digits) ++ 'e' :: '+' :: Nat.toDigits 10 (digits.length - 1)

/-- `String(number)` -/
def Number.toText (x : Number) : List Char :=
  match x.value with
  | none => "Infinity".toList
  | some n =>
      let digits := Nat.toDigits 10 (shortest n)
      if n < exponentFrom then digits else exponential digits

/-! ### What is written is told from the rest -/

theorem value_of_shortest (is : x.value = some n) : ofNat (shortest n) = x := by
  refine ofNat_eq ?_
  rw [nearest_shortest (x.lawful n is).1]
  exact is

/-- A number is plain when it is written with digits only. -/
def Number.Plain (x : Number) : Prop := ∃ n, x.value = some n ∧ n < exponentFrom

instance (x : Number) : Decidable x.Plain :=
  match is : x.value with
  | none => isFalse fun ⟨_, plain, _⟩ => by simp [is] at plain
  | some n =>
      decidable_of_iff (n < exponentFrom) ⟨fun small => ⟨n, is, small⟩, fun ⟨m, same, small⟩ => by
        rw [is] at same
        exact Option.some.inj same ▸ small⟩

theorem ofDigits_toText (plain : x.Plain) : ofDigits x.toText = x := by
  obtain ⟨n, is, small⟩ := plain
  simp only [Number.toText, is, if_pos small]
  rw [ofDigits, Nat.ofDigitChars_ten_toDigits, value_of_shortest is]

theorem isDigit_toText (plain : x.Plain) : ∀ c ∈ x.toText, c.isDigit = true := by
  obtain ⟨n, is, small⟩ := plain
  simp only [Number.toText, is, if_pos small]
  exact fun c => Nat.isDigit_of_mem_toDigits (by decide) (by decide)

theorem toText_ne_nil (plain : x.Plain) : x.toText ≠ [] := by
  obtain ⟨n, is, small⟩ := plain
  simp only [Number.toText, is, if_pos small]
  exact Nat.toDigits_ne_nil

/-! The text with an exponent: what stands before the `e`, without the point, are the digits up to the
zeros, and what stands after it tells how many zeros there are. -/

theorem significant_append (digits : List Char) :
    ∃ zeros, digits = significant digits ++ List.replicate zeros '0' := by
  refine ⟨(digits.rtakeWhile (· == '0')).length, ?_⟩
  have zeros : ∀ c ∈ digits.rtakeWhile (· == '0'), c = '0' :=
    fun c inside => beq_iff_eq.mp (List.mem_rtakeWhile_imp (p := (· == '0')) inside)
  rw [← List.eq_replicate_of_mem zeros]
  exact (List.rdropWhile_append_rtakeWhile ..).symm

theorem isDigit_significant (are : ∀ c ∈ digits, c.isDigit = true) :
    ∀ c ∈ significant digits, c.isDigit = true := by
  obtain ⟨zeros, is⟩ := significant_append digits
  intro c inside
  exact are c (is ▸ List.mem_append_left _ inside)

theorem filter_mantissa (are : ∀ c ∈ digits, c.isDigit = true) :
    (mantissa digits).filter (· != '.') = digits := by
  have kept : ∀ c ∈ digits, c ≠ '.' := by
    rintro c inside rfl
    exact absurd (are _ inside) (by decide)
  have all : digits.filter (· != '.') = digits :=
    List.filter_eq_self.mpr fun c inside => bne_iff_ne.mpr (kept c inside)
  match digits with
  | [] => rfl
  | [_] => exact all
  | first :: second :: rest =>
    have first_kept : (first != '.') = true := bne_iff_ne.mpr (kept first List.mem_cons_self)
    simpa [mantissa, List.filter_cons, first_kept] using all

theorem mantissa_ne_e (are : ∀ c ∈ digits, c.isDigit = true) : ∀ c ∈ mantissa digits, c ≠ 'e' := by
  rintro c inside rfl
  have kept : 'e' ∈ (mantissa digits).filter (· != '.') := List.mem_filter.mpr ⟨inside, by decide⟩
  rw [filter_mantissa are] at kept
  exact absurd (are _ kept) (by decide)

theorem takeWhile_exponential (are : ∀ c ∈ digits, c.isDigit = true) :
    (exponential digits).takeWhile (· ≠ 'e') = mantissa (significant digits) := by
  have before := mantissa_ne_e (isDigit_significant are)
  rw [exponential, List.takeWhile_append_of_pos (by simpa using before),
    List.takeWhile_cons_of_neg (by simp), List.append_nil]

theorem exponential_inj {digits' : List Char} (are : ∀ c ∈ digits, c.isDigit = true)
    (are' : ∀ c ∈ digits', c.isDigit = true) (some : digits ≠ []) (some' : digits' ≠ [])
    (same : exponential digits = exponential digits') : digits = digits' := by
  have fronts : mantissa (significant digits) = mantissa (significant digits') := by
    rw [← takeWhile_exponential are, ← takeWhile_exponential are', same]
  have significants : significant digits = significant digits' := by
    rw [← filter_mantissa (isDigit_significant are), fronts,
      filter_mantissa (isDigit_significant are')]
  have exponents : digits.length - 1 = digits'.length - 1 := by
    rw [exponential, exponential, fronts] at same
    have written := List.append_cancel_left same
    simp only [List.cons.injEq, true_and] at written
    rw [← Nat.ofDigitChars_ten_toDigits (n := digits.length - 1), written,
      Nat.ofDigitChars_ten_toDigits]
  obtain ⟨zeros, is⟩ := significant_append digits
  obtain ⟨zeros', is'⟩ := significant_append digits'
  have lengths : digits.length = digits'.length := by
    have positive := List.length_pos_iff.mpr some
    have positive' := List.length_pos_iff.mpr some'
    omega
  -- the same beginning and the same number of zeros
  have count : zeros = zeros' := by
    rw [is, is', significants] at lengths
    simpa using lengths
  rw [is, is', significants, count]

theorem toText_infinity (is : x.value = none) : x.toText = "Infinity".toList := by
  rw [Number.toText, is]

theorem toText_plain (is : x.value = some n) (small : n < exponentFrom) :
    x.toText = Nat.toDigits 10 (shortest n) := by
  simp only [Number.toText, is, if_pos small]

theorem toText_exponential (is : x.value = some n) (large : ¬ n < exponentFrom) :
    x.toText = exponential (Nat.toDigits 10 (shortest n)) := by
  simp only [Number.toText, is, if_neg large]

theorem isDigit_toDigits (n : Nat) : ∀ c ∈ Nat.toDigits 10 n, c.isDigit = true :=
  fun _ => Nat.isDigit_of_mem_toDigits (by decide) (by decide)

/-- What a number is written with that is not plain has a letter in it. -/
theorem letter_of_not_plain (fancy : ¬ x.Plain) : ∃ c ∈ x.toText, c.isDigit = false := by
  cases is : x.value with
  | none =>
    rw [toText_infinity is]
    exact ⟨'I', by decide, by decide⟩
  | some n =>
    have large : ¬ n < exponentFrom := fun small => fancy ⟨n, is, small⟩
    rw [toText_exponential is large]
    exact ⟨'e', by simp [exponential], by decide⟩

/-- The characters that numbers are written with -/
theorem mem_toText {c : Char} (inside : c ∈ x.toText) :
    c.isDigit = true ∨ c ∈ "Infinity.e+".toList := by
  cases is : x.value with
  | none =>
    rw [toText_infinity is] at inside
    exact .inr (List.mem_append_left ".e+".toList inside)
  | some n =>
    by_cases small : n < exponentFrom
    · rw [toText_plain is small] at inside
      exact .inl (isDigit_toDigits _ c inside)
    · rw [toText_exponential is small, exponential] at inside
      by_cases point : c = '.'
      · subst point
        exact .inr (by decide)
      · rcases List.mem_append.mp inside with front | back
        · have kept : c ∈ (mantissa (significant (Nat.toDigits 10 (shortest n)))).filter (· != '.') :=
            List.mem_filter.mpr ⟨front, bne_iff_ne.mpr point⟩
          rw [filter_mantissa (isDigit_significant (isDigit_toDigits _))] at kept
          exact .inl (isDigit_significant (isDigit_toDigits _) c kept)
        · rcases List.mem_cons.mp back with rfl | back
          · exact .inr (by decide)
          · rcases List.mem_cons.mp back with rfl | back
            · exact .inr (by decide)
            · exact .inl (isDigit_toDigits _ c back)

theorem digits_inj {m : Nat} (same : Nat.toDigits 10 n = Nat.toDigits 10 m) : n = m := by
  rw [← Nat.ofDigitChars_ten_toDigits (n := n), same, Nat.ofDigitChars_ten_toDigits]

-- The first characters tell infinity from a digit; the rest is the case above.
theorem toText_inj {y : Number} (same : x.toText = y.toText) : x = y := by
  by_cases plain : x.Plain
  · have plain' : y.Plain := by
      by_contra fancy
      obtain ⟨c, inside, letter⟩ := letter_of_not_plain fancy
      rw [← same] at inside
      exact absurd (isDigit_toText plain c inside) (by simp [letter])
    rw [← ofDigits_toText plain, same, ofDigits_toText plain']
  · have fancy' : ¬ y.Plain := by
      intro plain'
      obtain ⟨c, inside, letter⟩ := letter_of_not_plain plain
      rw [same] at inside
      exact absurd (isDigit_toText plain' c inside) (by simp [letter])
    -- neither is plain: infinity has no digit before its `e`-free text
    cases is : x.value with
    | none =>
      cases is' : y.value with
      | none => exact Number.ext (is.trans is'.symm)
      | some m =>
        have large : ¬ m < exponentFrom := fun small => fancy' ⟨m, is', small⟩
        rw [toText_infinity is, toText_exponential is' large] at same
        have there : 'e' ∈ "Infinity".toList := same ▸ (by simp [exponential])
        exact absurd there (by decide)
    | some n =>
      have large : ¬ n < exponentFrom := fun small => plain ⟨n, is, small⟩
      cases is' : y.value with
      | none =>
        rw [toText_infinity is', toText_exponential is large] at same
        have there : 'e' ∈ "Infinity".toList := same ▸ (by simp [exponential])
        exact absurd there (by decide)
      | some m =>
        have large' : ¬ m < exponentFrom := fun small => fancy' ⟨m, is', small⟩
        rw [toText_exponential is large, toText_exponential is' large'] at same
        have digits := exponential_inj (isDigit_toDigits _) (isDigit_toDigits _)
          Nat.toDigits_ne_nil Nat.toDigits_ne_nil same
        rw [← value_of_shortest is, digits_inj digits, value_of_shortest is']

end PrSearch.Lib.Double
