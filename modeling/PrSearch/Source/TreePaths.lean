import Mathlib.Algebra.Ring.Nat
import Mathlib.Data.Fin.Basic
import Mathlib.Data.List.Lex
import Mathlib.Order.Fin.Basic

/-! # The order of the paths in a tree

Paths are compared by one pass over their code units, in which the separator comes before all the
others. That is the order of their segments, compared one by one: an ancestor comes before what lies
below it, and a name that is the start of another one comes first with all that lies below it.
-/
namespace PrSearch.Source

/-- A code unit of UTF-16. -/
abbrev CodeUnit := Fin (2 ^ 16)

abbrev Path := List CodeUnit

/-- `SLASH` -/
def slash : CodeUnit := 0x2f

/-- `-1`, `0` and `1` are `lt`, `eq` and `gt`. -/
def compareTreePaths : Path → Path → Ordering
  | [], [] => .eq
  | [], _ :: _ => .lt
  | _ :: _, [] => .gt
  | left :: a, right :: b =>
      if left = right then compareTreePaths a b
      else if left = slash then .lt
      else if right = slash then .gt
      else if left < right then .lt
      else .gt

def compareNames (a b : Path) : Ordering := if a < b then .lt else if b < a then .gt else .eq

/-- The segments are compared one by one. -/
def compareSegments : List Path → List Path → Ordering
  | [], [] => .eq
  | [], _ :: _ => .lt
  | _ :: _, [] => .gt
  | left :: a, right :: b => (compareNames left right).then (compareSegments a b)

/-! ### One pass is a lexicographic order -/

/-- The place of a code unit when the separator comes first. -/
def rank (unit : CodeUnit) : Nat := if unit = slash then 0 else unit.val + 1

theorem rank_injective : Function.Injective rank := by
  intro left right same
  unfold rank at same
  split at same <;> split at same
  next is is' => rw [is, is']
  next => omega
  next => omega
  next => exact Fin.ext (Nat.succ.inj same)

variable {left right : CodeUnit} {a b : Path}

theorem rank_lt_iff (apart : left ≠ right) :
    rank left < rank right ↔ left = slash ∨ (right ≠ slash ∧ left < right) := by
  unfold rank
  split <;> split
  next is is' => exact absurd (is.trans is'.symm) apart
  next is _ => exact iff_of_true (Nat.succ_pos _) (.inl is)
  next named is =>
    refine iff_of_false (Nat.not_lt_zero _) ?_
    rintro (is' | ⟨other, _⟩)
    · exact named is'
    · exact other is
  next named named' =>
    rw [Nat.add_lt_add_iff_right, Fin.val_fin_lt]
    simp [named, named']

/-- The paths are compared as the lists of these places. -/
theorem compareTreePaths_eq (a b : Path) :
    compareTreePaths a b = if a.map rank < b.map rank then .lt
      else if b.map rank < a.map rank then .gt else .eq := by
  induction a generalizing b with
  | nil => cases b <;> simp [compareTreePaths]
  | cons left a ih =>
    cases b with
    | nil => simp [compareTreePaths]
    | cons right b =>
      rw [compareTreePaths]
      by_cases same : left = right
      · subst same
        simp [ih]
      · have apart : rank left ≠ rank right := fun is => same (rank_injective is)
        have down := rank_lt_iff same
        have up := rank_lt_iff (Ne.symm same)
        have one : left < right ∨ right < left := lt_or_gt_of_ne same
        have not_both : ¬ (left < right ∧ right < left) := fun both => lt_asymm both.1 both.2
        simp only [List.map_cons, List.cons_lt_cons_iff, same, apart, apart.symm, false_and,
          or_false, down, up, if_false]
        by_cases first : left = slash
        · have second : right ≠ slash := fun is => same (first.trans is.symm)
          simp [first]
        · by_cases second : right = slash
          · simp [first, second]
          · rcases one with less | more
            · simp [first, second, less]
            · simp [first, second, more, lt_asymm more]

theorem compareTreePaths_lt_iff : compareTreePaths a b = .lt ↔ a.map rank < b.map rank := by
  rw [compareTreePaths_eq]
  split
  next less => exact iff_of_true rfl less
  next none => split <;> simp [none]

theorem compareTreePaths_swap (a b : Path) :
    compareTreePaths b a = (compareTreePaths a b).swap := by
  rw [compareTreePaths_eq, compareTreePaths_eq]
  rcases lt_trichotomy (a.map rank) (b.map rank) with less | same | more
  · simp [less, lt_asymm less]
  · simp [same]
  · simp [more, lt_asymm more]

theorem compareTreePaths_eq_iff : compareTreePaths a b = .eq ↔ a = b := by
  rw [compareTreePaths_eq]
  have inj : a.map rank = b.map rank ↔ a = b := (List.map_injective_iff.mpr rank_injective).eq_iff
  rcases lt_trichotomy (a.map rank) (b.map rank) with less | same | more
  · simp [less, ← inj, less.ne]
  · simp [inj.mp same]
  · simp [more, lt_asymm more, ← inj, more.ne']

theorem compareTreePaths_trans {c : Path} (ab : compareTreePaths a b = .lt)
    (bc : compareTreePaths b c = .lt) : compareTreePaths a c = .lt := by
  rw [compareTreePaths_lt_iff] at *
  exact ab.trans bc

theorem compareTreePaths_gt_iff : compareTreePaths a b = .gt ↔ compareTreePaths b a = .lt := by
  rw [compareTreePaths_swap a b, Ordering.swap_eq_lt]

@[simp] theorem compareTreePaths_self (a : Path) : compareTreePaths a a = .eq :=
  compareTreePaths_eq_iff.mpr rfl

/-! ### It is the order of the segments -/

def segments (path : Path) : List Path := path.splitOn slash

theorem segments_nil : segments [] = [[]] := rfl

theorem segments_cons (unit : CodeUnit) (path : Path) : segments (unit :: path) =
    if unit = slash then [] :: segments path else (segments path).modifyHead (unit :: ·) := by
  unfold segments List.splitOn
  rw [List.splitOnP_cons_eq_if_modifyHead]
  simp

theorem segments_ne_nil (path : Path) : segments path ≠ [] := List.splitOnP_ne_nil _ path

@[simp] theorem compareNames_cons (unit : CodeUnit) (a b : Path) :
    compareNames (unit :: a) (unit :: b) = compareNames a b := by
  simp [compareNames]

@[simp] theorem compareNames_self (a : Path) : compareNames a a = .eq := by simp [compareNames]

@[simp] theorem compareNames_nil_cons (unit : CodeUnit) (a : Path) :
    compareNames [] (unit :: a) = .lt := by simp [compareNames]

@[simp] theorem compareNames_cons_nil (unit : CodeUnit) (a : Path) :
    compareNames (unit :: a) [] = .gt := by simp [compareNames]

theorem compareNames_of_ne (apart : left ≠ right) (a b : Path) :
    compareNames (left :: a) (right :: b) = if left < right then .lt else .gt := by
  rcases lt_or_gt_of_ne apart with less | more
  · simp [compareNames, List.cons_lt_cons_iff, less]
  · simp [compareNames, List.cons_lt_cons_iff, more, lt_asymm more, apart]

-- The first segments begin with the same code unit.
theorem compareSegments_modifyHead (unit : CodeUnit) {a b : List Path} (ha : a ≠ []) (hb : b ≠ []) :
    compareSegments (a.modifyHead (unit :: ·)) (b.modifyHead (unit :: ·)) = compareSegments a b := by
  cases a with
  | nil => exact absurd rfl ha
  | cons left a =>
    cases b with
    | nil => exact absurd rfl hb
    | cons right b => simp [compareSegments]

-- A name that has ended comes before one that goes on.
theorem compareSegments_ended (unit : CodeUnit) {a b : List Path} (hb : b ≠ []) :
    compareSegments ([] :: a) (b.modifyHead (unit :: ·)) = .lt ∧
      compareSegments (b.modifyHead (unit :: ·)) ([] :: a) = .gt := by
  cases b with
  | nil => exact absurd rfl hb
  | cons right b => simp [compareSegments]

theorem compareSegments_of_ne (apart : left ≠ right) {a b : List Path} (ha : a ≠ []) (hb : b ≠ []) :
    compareSegments (a.modifyHead (left :: ·)) (b.modifyHead (right :: ·)) =
      if left < right then .lt else .gt := by
  cases a with
  | nil => exact absurd rfl ha
  | cons first a =>
    cases b with
    | nil => exact absurd rfl hb
    | cons second b =>
      simp only [List.modifyHead_cons, compareSegments, compareNames_of_ne apart]
      split <;> rfl

theorem compareSegments_nil_segments (path : Path) :
    compareSegments [] (segments path) = .lt ∧ compareSegments (segments path) [] = .gt := by
  obtain ⟨first, rest, is⟩ := List.exists_cons_of_ne_nil (segments_ne_nil path)
  simp [is, compareSegments]

/-- One pass over the code units is the comparison of the segments. -/
theorem compareTreePaths_segments (a b : Path) :
    compareTreePaths a b = compareSegments (segments a) (segments b) := by
  induction a generalizing b with
  | nil =>
    cases b with
    | nil => simp [compareTreePaths, segments_nil, compareSegments]
    | cons right b =>
      rw [compareTreePaths, segments_nil, segments_cons]
      split
      · simp [compareSegments, compareSegments_nil_segments]
      · exact (compareSegments_ended right (segments_ne_nil b)).1.symm
  | cons left a ih =>
    cases b with
    | nil =>
      rw [compareTreePaths, segments_nil, segments_cons]
      split
      · simp [compareSegments, compareSegments_nil_segments]
      · exact (compareSegments_ended left (segments_ne_nil a)).2.symm
    | cons right b =>
      rw [compareTreePaths, segments_cons, segments_cons]
      by_cases same : left = right
      · subst same
        -- the segments go on alike, or both end here
        by_cases ended : left = slash
        · simp [ended, ih, compareSegments]
        · simp [ended, ih, compareSegments_modifyHead left (segments_ne_nil a) (segments_ne_nil b)]
      · by_cases first : left = slash
        · have second : right ≠ slash := fun is => same (first.trans is.symm)
          simp [first, second, Ne.symm second, compareSegments_ended right (segments_ne_nil b)]
        · by_cases second : right = slash
          · simp [first, second, compareSegments_ended left (segments_ne_nil a)]
          · simp [same, first, second,
              compareSegments_of_ne same (segments_ne_nil a) (segments_ne_nil b)]

/-! ### Names, and what lies below them -/

theorem compareTreePaths_append (start a b : Path) :
    compareTreePaths (start ++ a) (start ++ b) = compareTreePaths a b := by
  induction start with
  | nil => rfl
  | cons unit start ih => simp [compareTreePaths, ih]

/-- An ancestor comes before what lies below it. -/
theorem ancestor_first (path below : Path) :
    compareTreePaths path (path ++ slash :: below) = .lt := by
  have same := compareTreePaths_append path [] (slash :: below)
  rw [List.append_nil] at same
  rw [same, compareTreePaths]

-- What is below two names is ordered as they are.
theorem below_of_lt (ha : slash ∉ a) (hb : slash ∉ b) (less : a < b) (c d : Path)
    (below : c = [] ∨ c.head? = some slash) (below' : d = [] ∨ d.head? = some slash) :
    compareTreePaths (a ++ c) (b ++ d) = .lt := by
  induction a generalizing b with
  | nil =>
    cases b with
    | nil => simp at less
    | cons right b =>
      have other : right ≠ slash := fun is => hb (is ▸ List.mem_cons_self)
      rcases below with rfl | head
      · rfl
      · obtain ⟨rest, rfl⟩ := List.head?_eq_some_iff.mp head
        simp [compareTreePaths, Ne.symm other]
  | cons left a ih =>
    cases b with
    | nil => simp at less
    | cons right b =>
      have first : left ≠ slash := fun is => ha (is ▸ List.mem_cons_self)
      have second : right ≠ slash := fun is => hb (is ▸ List.mem_cons_self)
      rcases List.cons_lt_cons_iff.mp less with down | ⟨rfl, further⟩
      · simp [compareTreePaths, first, second, down, down.ne]
      · have inner := ih (fun is => ha (List.mem_cons_of_mem _ is))
          (fun is => hb (List.mem_cons_of_mem _ is)) further
        simpa [compareTreePaths] using inner

/-- A total order of the paths, with ancestors first, that compares the segments. -/
structure OrdersPaths (compare : Path → Path → Ordering) : Prop where
  equal : ∀ a b, compare a b = .eq ↔ a = b
  swap : ∀ a b, compare b a = (compare a b).swap
  trans : ∀ a b c, compare a b = .lt → compare b c = .lt → compare a c = .lt
  ancestors : ∀ path below, compare path (path ++ slash :: below) = .lt
  segments : ∀ a b, compare a b = compareSegments (segments a) (segments b)

theorem ordersPaths : OrdersPaths compareTreePaths where
  equal _ _ := compareTreePaths_eq_iff
  swap := compareTreePaths_swap
  trans _ _ _ := compareTreePaths_trans
  ancestors := ancestor_first
  segments := compareTreePaths_segments

end PrSearch.Source
