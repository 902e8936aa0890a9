import Mathlib.Data.List.Basic

/-! # Common sublists and edit scripts

A script goes through two lists at once: it adds items of the second one, removes items of the first
one and keeps common ones. A script with the fewest items added and removed keeps as many as the
longest common sublist has.
-/

namespace EditScript

/-! ### Longest common sublists -/

section Common

variable {α β : Type*} {xs ys : List α} {k : Nat}

/-- The length of a longest common sublist. -/
structure IsLongest (xs ys : List α) (k : Nat) : Prop where
  reached : ∃ zs : List α, zs.Sublist xs ∧ zs.Sublist ys ∧ zs.length = k
  most : ∀ zs : List α, zs.Sublist xs → zs.Sublist ys → zs.length ≤ k

theorem isLongest_nil_left (ys : List α) : IsLongest [] ys 0 where
  reached := ⟨[], List.nil_sublist _, List.nil_sublist _, rfl⟩
  most zs left _ := by simp [List.sublist_nil.mp left]

theorem IsLongest.symm (longest : IsLongest xs ys k) : IsLongest ys xs k where
  reached := by
    obtain ⟨zs, left, right, length⟩ := longest.reached
    exact ⟨zs, right, left, length⟩
  most zs left right := longest.most zs right left

theorem isLongest_nil_right (xs : List α) : IsLongest xs [] 0 := (isLongest_nil_left xs).symm

/-- A common first item belongs to a longest common sublist. -/
theorem IsLongest.cons (longest : IsLongest xs ys k) (x : α) :
    IsLongest (x :: xs) (x :: ys) (k + 1) where
  reached := by
    obtain ⟨zs, left, right, length⟩ := longest.reached
    exact ⟨x :: zs, left.cons_cons x, right.cons_cons x, by rw [List.length_cons, length]⟩
  most zs left right := by
    have shorter := longest.most zs.tail left.tail right.tail
    rw [List.length_tail] at shorter
    omega

theorem IsLongest.append_left (longest : IsLongest xs ys k) (first : List α) :
    IsLongest (first ++ xs) (first ++ ys) (first.length + k) := by
  induction first with
  | nil => simpa using longest
  | cons x first ih =>
    have length : (x :: first).length + k = first.length + k + 1 := by
      rw [List.length_cons]
      omega
    rw [length]
    exact ih.cons x

theorem IsLongest.reverse (longest : IsLongest xs ys k) : IsLongest xs.reverse ys.reverse k where
  reached := by
    obtain ⟨zs, left, right, length⟩ := longest.reached
    exact ⟨zs.reverse, left.reverse, right.reverse, by rw [List.length_reverse, length]⟩
  most zs left right := by
    have back := longest.most zs.reverse
      (by simpa using left.reverse) (by simpa using right.reverse)
    rwa [List.length_reverse] at back

theorem IsLongest.append_right (longest : IsLongest xs ys k) (last : List α) :
    IsLongest (xs ++ last) (ys ++ last) (k + last.length) := by
  have reversed := (longest.reverse.append_left last.reverse).reverse
  rw [List.reverse_append, List.reverse_append, List.length_reverse, Nat.add_comm] at reversed
  simpa using reversed

/-- Names that tell the items apart have the same common sublists. -/
theorem IsLongest.of_map {name : α → β} (item : β → α)
    (known : ∀ x, x ∈ xs ∨ x ∈ ys → item (name x) = x)
    (longest : IsLongest (xs.map name) (ys.map name) k) : IsLongest xs ys k where
  reached := by
    have back : ∀ zs : List α, (∀ x ∈ zs, x ∈ xs ∨ x ∈ ys) → (zs.map name).map item = zs := by
      intro zs from_
      rw [List.map_map]
      exact (List.map_congr_left fun x inside => known x (from_ x inside)).trans (List.map_id zs)
    obtain ⟨zs, left, right, length⟩ := longest.reached
    have left' := left.map item
    have right' := right.map item
    rw [back xs fun x inside => .inl inside] at left'
    rw [back ys fun x inside => .inr inside] at right'
    exact ⟨zs.map item, left', right', by rw [List.length_map, length]⟩
  most zs left right := by
    have named := longest.most (zs.map name) (left.map name) (right.map name)
    rwa [List.length_map] at named

end Common

/-! ### Scripts -/

structure Change where
  count : Nat
  added : Bool
  removed : Bool
  deriving DecidableEq, Repr

section Scripts

variable {α : Type*} {xs ys : List α} {changes : List Change}

/-- The changes lead from the first list to the second. -/
inductive Script : List α → List α → List Change → Prop
  | done : Script [] [] []
  | add {xs ys : List α} {changes : List Change} (new : List α) (removed : Bool)
      (rest : Script xs ys changes) : Script xs (new ++ ys) (⟨new.length, true, removed⟩ :: changes)
  | remove {xs ys : List α} {changes : List Change} (old : List α) (rest : Script xs ys changes) :
      Script (old ++ xs) ys (⟨old.length, false, true⟩ :: changes)
  | keep {xs ys : List α} {changes : List Change} (common : List α) (rest : Script xs ys changes) :
      Script (common ++ xs) (common ++ ys) (⟨common.length, false, false⟩ :: changes)

/-- How many items are added and removed. -/
def cost : List Change → Nat
  | [] => 0
  | change :: changes => (if change.added || change.removed then change.count else 0) + cost changes

/-- How many items are kept. -/
def kept : List Change → Nat
  | [] => 0
  | change :: changes => (if change.added || change.removed then 0 else change.count) + kept changes

/-- No script adds and removes fewer items. -/
structure Shortest (xs ys : List α) (changes : List Change) : Prop where
  script : Script xs ys changes
  least : ∀ other, Script xs ys other → cost changes ≤ cost other

theorem Script.length_add (script : Script xs ys changes) :
    xs.length + ys.length = cost changes + 2 * kept changes := by
  induction script with
  | done => rfl
  | add new removed rest ih => simp [cost, kept]; omega
  | remove old rest ih => simp [cost, kept]; omega
  | keep common rest ih => simp [cost, kept]; omega

/-- What a script keeps is common. -/
theorem Script.common (script : Script xs ys changes) :
    ∃ zs : List α, zs.Sublist xs ∧ zs.Sublist ys ∧ zs.length = kept changes := by
  induction script with
  | done => exact ⟨[], List.Sublist.refl _, List.Sublist.refl _, rfl⟩
  | add new removed rest ih =>
    obtain ⟨zs, left, right, length⟩ := ih
    exact ⟨zs, left, List.sublist_append_of_sublist_right right, by simp [kept, length]⟩
  | remove old rest ih =>
    obtain ⟨zs, left, right, length⟩ := ih
    exact ⟨zs, List.sublist_append_of_sublist_right left, right, by simp [kept, length]⟩
  | keep common rest ih =>
    obtain ⟨zs, left, right, length⟩ := ih
    exact ⟨common ++ zs, left.append_left common, right.append_left common,
      by simp [kept, length]⟩

-- The first item of a sublist stands somewhere, and the others come after it.
theorem exists_append_of_cons_sublist {x : α} {zs : List α} (sublist : (x :: zs).Sublist ys) :
    ∃ before after, ys = before ++ x :: after ∧ zs.Sublist after := by
  induction ys with
  | nil => cases sublist
  | cons y ys ih =>
    cases sublist with
    | cons _ later =>
      obtain ⟨before, after, rfl, rest⟩ := ih later
      exact ⟨y :: before, after, rfl, rest⟩
    | cons_cons _ rest => exact ⟨[], ys, rfl, rest⟩

/-- What is common can be kept. -/
theorem exists_script {zs : List α} (left : zs.Sublist xs) (right : zs.Sublist ys) :
    ∃ changes, Script xs ys changes ∧ kept changes = zs.length := by
  induction left generalizing ys with
  | slnil => exact ⟨_, by simpa using Script.add ys false Script.done, rfl⟩
  | cons x _ ih =>
    obtain ⟨changes, script, length⟩ := ih right
    exact ⟨_, Script.remove [x] script, by simpa [kept] using length⟩
  | cons_cons x _ ih =>
    obtain ⟨before, after, rfl, rest⟩ := exists_append_of_cons_sublist right
    obtain ⟨changes, script, length⟩ := ih rest
    refine ⟨_, Script.add before false (Script.keep [x] script), ?_⟩
    simp only [kept, Bool.or_self, Bool.or_false, if_true, List.length_cons]
    simp [length]
    omega

/-- A shortest script keeps a longest common sublist. -/
theorem Shortest.isLongest (shortest : Shortest xs ys changes) : IsLongest xs ys (kept changes) where
  reached := shortest.script.common
  most zs left right := by
    obtain ⟨other, script, length⟩ := exists_script left right
    have least := shortest.least other script
    have total := shortest.script.length_add
    have total' := script.length_add
    omega

end Scripts

end EditScript
