import Mathlib.Data.List.Basic

/-! # Lists cut at a separator

The parts hold no separator, and the list is its parts with one separator between any two.
-/
namespace PrSearch.Lib

variable {α : Type} [DecidableEq α]

theorem not_mem_of_mem_splitOn {c : α} {text line : List α} (inside : line ∈ text.splitOn c) :
    c ∉ line := by
  induction text generalizing line with
  | nil =>
    obtain rfl : line = [] := by simpa using inside
    exact List.not_mem_nil
  | cons d text ih =>
    rw [List.splitOn_cons_eq_if_modifyHead] at inside
    split at inside
    next =>
      rcases List.mem_cons.mp inside with rfl | later
      · exact List.not_mem_nil
      · exact ih later
    next other =>
      cases lines : text.splitOn c with
      | nil => exact absurd lines (List.splitOn_ne_nil c text)
      | cons first rest =>
        rw [lines, List.modifyHead_cons] at inside
        rcases List.mem_cons.mp inside with rfl | later
        · have free := ih (lines ▸ List.mem_cons_self)
          simp only [List.mem_cons, not_or]
          exact ⟨fun same => other (beq_iff_eq.mpr same.symm), free⟩
        · exact ih (lines ▸ List.mem_cons_of_mem _ later)

omit [DecidableEq α] in
/-- A separator before each part is one before the whole. -/
theorem flatMap_separator (c : α) (first : List α) (rest : List (List α)) :
    ((first :: rest).flatMap fun part => c :: part) = c :: [c].intercalate (first :: rest) := by
  induction rest generalizing first with
  | nil => simp
  | cons second rest ih =>
    rw [List.flatMap_cons, ih, List.intercalate_cons_cons]
    simp

end PrSearch.Lib
