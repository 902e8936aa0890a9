import Mathlib.Data.List.Basic

/-! # Consecutive numbers for some of the entries of a list

A list of places, some of which hold an entry. Walking it from the front, each entry takes the next
number and an empty place takes none. The numbers are then exactly one to the number of entries,
they grow with the places, and a longer list gives every place of a shorter one the number it had.
-/

namespace Tally

variable {α : Type}

/-- How many places hold an entry. -/
def total : List (Option α) → Nat
  | [] => 0
  | none :: rest => total rest
  | some _ :: rest => total rest + 1

/-- The number of the entry at a place. -/
def numberAt : List (Option α) → Nat → Option Nat
  | [], _ => none
  | none :: _, 0 => none
  | some _ :: _, 0 => some 1
  | none :: rest, i + 1 => numberAt rest i
  | some _ :: rest, i + 1 => (numberAt rest i).map (· + 1)

@[simp] theorem total_nil : total ([] : List (Option α)) = 0 := rfl

@[simp] theorem total_none (rest : List (Option α)) : total (none :: rest) = total rest := rfl

@[simp] theorem total_some (a : α) (rest : List (Option α)) :
    total (some a :: rest) = total rest + 1 := rfl

@[simp] theorem numberAt_nil (i : Nat) : numberAt ([] : List (Option α)) i = none := rfl

@[simp] theorem numberAt_none_zero (rest : List (Option α)) : numberAt (none :: rest) 0 = none := rfl

@[simp] theorem numberAt_some_zero (a : α) (rest : List (Option α)) :
    numberAt (some a :: rest) 0 = some 1 := rfl

@[simp] theorem numberAt_none_succ (rest : List (Option α)) (i : Nat) :
    numberAt (none :: rest) (i + 1) = numberAt rest i := rfl

@[simp] theorem numberAt_some_succ (a : α) (rest : List (Option α)) (i : Nat) :
    numberAt (some a :: rest) (i + 1) = (numberAt rest i).map (· + 1) := rfl

theorem total_append (first rest : List (Option α)) :
    total (first ++ rest) = total first + total rest := by
  induction first with
  | nil => simp
  | cons entry more ih =>
    cases entry with
    | none => simp [ih]
    | some a =>
      simp only [List.cons_append, total_some, ih]
      omega

/-- The places with a number are those that hold an entry. -/
theorem numberAt_isSome_iff (entries : List (Option α)) (i : Nat) :
    (numberAt entries i).isSome ↔ ∃ a, entries[i]? = some (some a) := by
  induction entries generalizing i with
  | nil => simp
  | cons entry rest ih =>
    cases entry with
    | none => cases i <;> simp [ih]
    | some a => cases i <;> simp [ih]

variable {entries : List (Option α)} {i n : Nat}

theorem numberAt_of_length_le (beyond : entries.length ≤ i) : numberAt entries i = none := by
  rw [← Option.not_isSome_iff_eq_none, numberAt_isSome_iff]
  rintro ⟨a, here⟩
  rw [List.getElem?_eq_none beyond] at here
  cases here

theorem lt_length_of_numberAt (numbered : numberAt entries i = some n) : i < entries.length := by
  by_contra beyond
  rw [numberAt_of_length_le (Nat.le_of_not_lt beyond)] at numbered
  cases numbered

theorem numberAt_of_none (here : entries[i]? = some none) : numberAt entries i = none := by
  rw [← Option.not_isSome_iff_eq_none, numberAt_isSome_iff]
  rintro ⟨a, there⟩
  rw [here] at there
  cases there

/-- The numbers lie between one and the number of entries. -/
theorem numberAt_bounds (numbered : numberAt entries i = some n) : 1 ≤ n ∧ n ≤ total entries := by
  induction entries generalizing i n with
  | nil => cases numbered
  | cons entry rest ih =>
    cases entry with
    | none =>
      cases i with
      | zero => cases numbered
      | succ i => exact ih numbered
    | some a =>
      cases i with
      | zero =>
        cases numbered
        simp only [total_some]
        omega
      | succ i =>
        obtain ⟨m, inner, rfl⟩ := Option.map_eq_some_iff.mp numbered
        have bounds := ih inner
        simp only [total_some]
        omega

/-- Every number up to the number of entries is taken. -/
theorem exists_numberAt (positive : 1 ≤ n) (most : n ≤ total entries) :
    ∃ i, numberAt entries i = some n := by
  induction entries generalizing n with
  | nil =>
    simp only [total_nil] at most
    omega
  | cons entry rest ih =>
    cases entry with
    | none =>
      obtain ⟨i, here⟩ := ih positive most
      exact ⟨i + 1, here⟩
    | some a =>
      by_cases first : n = 1
      · exact ⟨0, by simp [first]⟩
      · simp only [total_some] at most
        -- The number is not the first one, so it is one more than a number of the rest.
        obtain ⟨i, here⟩ := ih (n := n - 1) (by omega) (by omega)
        refine ⟨i + 1, ?_⟩
        simp only [numberAt_some_succ, here, Option.map_some]
        congr 1
        omega

/-- Later places have larger numbers. -/
theorem numberAt_lt {j m : Nat} (before : i < j) (first : numberAt entries i = some m)
    (second : numberAt entries j = some n) : m < n := by
  induction entries generalizing i j m n with
  | nil => cases first
  | cons entry rest ih =>
    obtain ⟨j, rfl⟩ : ∃ k, j = k + 1 := ⟨j - 1, by omega⟩
    cases entry with
    | none =>
      cases i with
      | zero => cases first
      | succ i => exact ih (by omega) first second
    | some a =>
      obtain ⟨n, inner, rfl⟩ := Option.map_eq_some_iff.mp second
      cases i with
      | zero =>
        cases first
        have bounds := numberAt_bounds inner
        omega
      | succ i =>
        obtain ⟨m, outer, rfl⟩ := Option.map_eq_some_iff.mp first
        have less := ih (by omega) outer inner
        omega

/-- What comes later does not change a number. -/
theorem numberAt_append_left {first : List (Option α)} (rest : List (Option α))
    (inside : i < first.length) : numberAt (first ++ rest) i = numberAt first i := by
  induction first generalizing i with
  | nil => cases inside
  | cons entry more ih =>
    cases i with
    | zero => cases entry <;> rfl
    | succ i =>
      have tail := ih (i := i) (by simpa using inside)
      cases entry <;> simp [tail]

/-- The numbers of what is appended go on where the first ones end. -/
theorem numberAt_append_right (first rest : List (Option α)) (i : Nat) :
    numberAt (first ++ rest) (first.length + i) =
      (numberAt rest i).map (· + total first) := by
  induction first with
  | nil => cases h : numberAt rest i <;> simp [h]
  | cons entry more ih =>
    have shift : (entry :: more).length + i = (more.length + i) + 1 := by
      simp only [List.length_cons]
      omega
    rw [shift, List.cons_append]
    cases entry with
    | none => simp only [numberAt_none_succ, ih, total_none]
    | some a =>
      simp only [numberAt_some_succ, ih, total_some, Option.map_map]
      congr 1

end Tally
