import Mathlib.Data.List.Basic

/-! # Reading a sorted list by pages

A list is read in pages. A cursor is the key of the last item of a page, and the next page begins
with the items beyond it. When each page is an initial part of what lies beyond its cursor, and its
cursor is the key of its last item, the pages come to an end and together they are the list.
-/

namespace Paging

variable {α κ : Type*} (key : α → κ) (beyond : κ → α → Bool)

/-- What is left to read after a cursor. -/
def left (whole : List α) : Option κ → List α
  | none => whole
  | some cursor => whole.filter (beyond cursor)

/-- Exactly the later items are beyond the key of an item. -/
def Sorted (whole : List α) : Prop :=
  (∀ item ∈ whole, beyond (key item) item = false) ∧
    whole.Pairwise fun earlier later =>
      beyond (key earlier) later = true ∧ beyond (key later) earlier = false

/-- The page is an initial part of what is left. Its cursor is the key of its last item, and when it
has none nothing is left. -/
structure IsPage (remaining page : List α) (next : Option κ) : Prop where
  initial : page <+: remaining
  ends : next = none → page = remaining
  last : ∀ cursor ∈ next, ∃ item ∈ page.getLast?, key item = cursor

/-- The pages from a cursor on, with at most so many calls. -/
def read (fetch : Option κ → List α × Option κ) : Nat → Option κ → Option (List (List α))
  | 0, _ => none
  | calls + 1, cursor =>
      match (fetch cursor).2 with
      | none => some [(fetch cursor).1]
      | some next => (read fetch calls (some next)).map ((fetch cursor).1 :: ·)

variable {key beyond} {whole : List α}

theorem left_append (first second : List α) (cursor : Option κ) :
    left beyond (first ++ second) cursor = left beyond first cursor ++ left beyond second cursor := by
  cases cursor <;> simp [left]

-- What is left after an item is what comes after it in the list.
theorem left_of_sorted {before after : List α} {item : α}
    (sorted : Sorted key beyond (before ++ item :: after)) :
    left beyond (before ++ item :: after) (some (key item)) = after := by
  obtain ⟨self, pairs⟩ := sorted
  obtain ⟨_, later, across⟩ := List.pairwise_append.mp pairs
  have earlier : before.filter (beyond (key item)) = [] := by
    refine List.filter_eq_nil_iff.mpr fun other member => ?_
    simp [(across other member item List.mem_cons_self).2]
  have further : after.filter (beyond (key item)) = after := by
    refine List.filter_eq_self.mpr fun other member => ?_
    exact ((List.pairwise_cons.mp later).1 other member).1
  have own : beyond (key item) item = false := self item (by simp)
  simp [left, earlier, further, own]

variable {fetch : Option κ → List α × Option κ}

/-- Pages that fit on each other are the list, and they come to an end. -/
theorem read_from (sorted : Sorted key beyond whole)
    (serves : ∀ cursor, IsPage key (left beyond whole cursor) (fetch cursor).1 (fetch cursor).2)
    {done remaining : List α} {cursor : Option κ} (parts : whole = done ++ remaining)
    (here : left beyond whole cursor = remaining) {calls : Nat} (enough : remaining.length < calls) :
    ∃ pages, read fetch calls cursor = some pages ∧ pages.flatten = remaining := by
  induction calls generalizing done remaining cursor with
  | zero => exact absurd enough (Nat.not_lt_zero _)
  | succ calls ih =>
    have page := serves cursor
    rw [here] at page
    rw [read]
    cases next : (fetch cursor).2 with
    | none => exact ⟨[(fetch cursor).1], rfl, by simp [page.ends next]⟩
    | some cursor' =>
      obtain ⟨item, last, is⟩ := page.last cursor' next
      obtain ⟨front, emitted⟩ := List.getLast?_eq_some_iff.mp last
      obtain ⟨rest, whole'⟩ := page.initial
      -- the next page begins behind the last item of this one
      have split : whole = (done ++ front) ++ item :: rest := by
        rw [parts, ← whole', emitted]
        simp
      have behind : left beyond whole (some cursor') = rest := by
        rw [split, ← is]
        exact left_of_sorted (split ▸ sorted)
      have shorter : rest.length < calls := by
        have size := congrArg List.length whole'
        rw [emitted] at size
        simp only [List.length_append, List.length_singleton] at size
        omega
      obtain ⟨pages, reads, joined⟩ := ih (by simp [split] : whole = (done ++ front ++ [item]) ++ rest)
        behind shorter
      exact ⟨(fetch cursor).1 :: pages, by simp [reads], by simp [joined, ← whole']⟩

/-- Read from the start, the pages are the whole list. -/
theorem read_all (sorted : Sorted key beyond whole)
    (serves : ∀ cursor, IsPage key (left beyond whole cursor) (fetch cursor).1 (fetch cursor).2) :
    ∃ pages, read fetch (whole.length + 1) none = some pages ∧ pages.flatten = whole :=
  read_from sorted serves (List.nil_append whole).symm rfl (Nat.lt_succ_self _)

end Paging
