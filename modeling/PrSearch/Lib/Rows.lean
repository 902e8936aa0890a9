import Mathlib.Data.List.Induction
import Mathlib.Data.List.Nodup
import Mathlib.Data.List.Sort

/-! # Rows of a table

A table is a list of rows, each under a key of its own. Rows are selected by a condition, in an
order and up to a limit. A row is written in the place of the one that has its key. From a list in
which keys come again, the first row of each key can be kept.
-/

namespace Rows

/-! ### Selecting rows -/

section Select

variable {ρ : Type*} (before : ρ → ρ → Prop) [DecidableRel before]

/-- `WHERE`, `ORDER BY` and `LIMIT` -/
def select (rows : List ρ) (wanted : ρ → Bool) (limit : Nat) : List ρ :=
  ((rows.filter wanted).insertionSort before).take limit

variable {before} {rows : List ρ} {wanted : ρ → Bool} {limit : Nat} {row : ρ}

theorem of_mem_select (member : row ∈ select before rows wanted limit) :
    row ∈ rows ∧ wanted row = true := by
  have sorted := List.mem_of_mem_take member
  exact List.mem_filter.mp ((List.mem_insertionSort before).mp sorted)

-- A limit that is not passed leaves nothing out.
theorem mem_select (within : (rows.filter wanted).length ≤ limit) :
    row ∈ select before rows wanted limit ↔ row ∈ rows ∧ wanted row = true := by
  refine ⟨of_mem_select, fun holds => ?_⟩
  have all : (rows.filter wanted).insertionSort before =
      select before rows wanted limit := by
    refine (List.take_of_length_le ?_).symm
    rwa [List.length_insertionSort]
  rw [← all, List.mem_insertionSort]
  exact List.mem_filter.mpr holds

end Select

/-! ### The greatest numbers -/

section Top

variable {ρ κ : Type*} [LinearOrder κ] (number : ρ → κ) {rows : List ρ} {wanted : ρ → Bool}
  {limit : Nat} {row : ρ}

/-- In a list in strict order an item is among the first ones when few items come before it. -/
theorem mem_take_of_pairwise {first : ρ → ρ → Prop} [DecidableRel first]
    (asymm : ∀ a b, first a b → ¬ first b a) {items : List ρ} (sorted : items.Pairwise first) :
    row ∈ items.take limit ↔
      row ∈ items ∧ items.countP (fun other => first other row) < limit := by
  induction items generalizing limit with
  | nil => simp
  | cons head rest ih =>
    obtain ⟨headFirst, restSorted⟩ := List.pairwise_cons.mp sorted
    cases limit with
    | zero => simp
    | succ limit =>
      rw [List.take_succ_cons, List.mem_cons, List.mem_cons, List.countP_cons, ih restSorted]
      by_cases isHead : row = head
      · subst isHead
        -- nothing comes before the head
        have none : rest.countP (fun other => first other row) = 0 := by
          rw [List.countP_eq_zero]
          intro other inside
          simpa using asymm _ _ (headFirst other inside)
        have notItself : ¬ first row row := fun before => asymm row row before before
        simp [none, notItself]
      · by_cases inside : row ∈ rest
        · simp [isHead, inside, headFirst row inside]
        · simp [isHead, inside]

/-- The rows with the greatest numbers, the greatest first. -/
def top (rows : List ρ) (wanted : ρ → Bool) (limit : Nat) : List ρ :=
  select (fun a b => number b ≤ number a) rows wanted limit

variable {number}

theorem length_top_le : (top number rows wanted limit).length ≤ rows.length := by
  rw [top, select]
  exact (List.length_take_le' ..).trans
    ((List.length_insertionSort _ _).le.trans (List.length_filter_le ..))

theorem pairwise_sorted (distinct : ((rows.filter wanted).map number).Nodup) :
    ((rows.filter wanted).insertionSort fun a b => number b ≤ number a).Pairwise
      fun a b => number b < number a := by
  have sorted := List.pairwise_insertionSort (fun a b => number b ≤ number a) (rows.filter wanted)
  have apart : ((rows.filter wanted).insertionSort fun a b => number b ≤ number a).Pairwise
      fun a b => number a ≠ number b := by
    have nodup := ((List.perm_insertionSort (fun a b => number b ≤ number a)
      (rows.filter wanted)).map number).nodup_iff.mpr distinct
    exact List.pairwise_map.mp nodup
  exact sorted.imp₂ (fun a b le ne => lt_of_le_of_ne le ne.symm) apart

theorem pairwise_top (distinct : ((rows.filter wanted).map number).Nodup) :
    (top number rows wanted limit).Pairwise fun a b => number b < number a :=
  (pairwise_sorted distinct).sublist (List.take_sublist ..)

/-- A row is among them when fewer rows than the limit have a greater number. -/
theorem mem_top (distinct : ((rows.filter wanted).map number).Nodup) :
    row ∈ top number rows wanted limit ↔ row ∈ rows ∧ wanted row = true ∧
      (rows.filter wanted).countP (fun other => number row < number other) < limit := by
  rw [top, select, mem_take_of_pairwise (fun a b less => not_lt.mpr less.le)
    (pairwise_sorted distinct), List.mem_insertionSort, List.mem_filter, and_assoc,
    (List.perm_insertionSort _ _).countP_eq]

end Top
/-! ### One row for each key -/

section Upsert

variable {ρ κ : Type*} [DecidableEq κ] (key : ρ → κ)

/-- `INSERT … ON CONFLICT DO UPDATE` -/
def upsert (merge : ρ → ρ → ρ) (row : ρ) (rows : List ρ) : List ρ :=
  if ∃ stored ∈ rows, key stored = key row then
    rows.map fun stored => if key stored = key row then merge stored row else stored
  else rows ++ [row]

/-- No two rows have the same key. -/
def Keyed (rows : List ρ) : Prop := (rows.map key).Nodup

instance (rows : List ρ) : Decidable (Keyed key rows) :=
  inferInstanceAs (Decidable (rows.map key).Nodup)

variable {key} {rows : List ρ} {merge : ρ → ρ → ρ} {row : ρ}

omit [DecidableEq κ] in
theorem Keyed.eq (keyed : Keyed key rows) {left right : ρ} (hl : left ∈ rows) (hr : right ∈ rows)
    (same : key left = key right) : left = right :=
  List.inj_on_of_nodup_map keyed hl hr same

theorem Keyed.find? (keyed : Keyed key rows) (member : row ∈ rows) :
    rows.find? (fun stored => key stored = key row) = some row := by
  cases found : rows.find? (fun stored => key stored = key row) with
  | none => simpa using List.find?_eq_none.mp found row member
  | some stored =>
    have same : key stored = key row := by simpa using List.find?_some found
    rw [keyed.eq (List.mem_of_find?_eq_some found) member same]

theorem Keyed.find?_eq_some (keyed : Keyed key rows) {wanted : κ} :
    rows.find? (fun stored => key stored = wanted) = some row ↔ row ∈ rows ∧ key row = wanted := by
  constructor
  · intro found
    exact ⟨List.mem_of_find?_eq_some found, by simpa using List.find?_some found⟩
  · rintro ⟨member, rfl⟩
    exact keyed.find? member

theorem Keyed.upsert (keyed : Keyed key rows)
    (merges : ∀ stored, key stored = key row → key (merge stored row) = key row) :
    Keyed key (upsert key merge row rows) := by
  unfold Rows.upsert
  split
  next =>
    -- a row keeps its key, whether it is merged or not
    have keeps : (fun stored => key (if key stored = key row then merge stored row else stored)) =
        key := by
      funext stored
      split
      next same => rw [merges stored same, same]
      next => rfl
    rw [Keyed, List.map_map]
    change (rows.map fun stored =>
      key (if key stored = key row then merge stored row else stored)).Nodup
    rwa [keeps]
  next absent =>
    rw [Keyed, List.map_append, List.map_singleton]
    refine List.Nodup.append keyed (List.nodup_singleton _) ?_
    rw [List.disjoint_singleton]
    intro inside
    obtain ⟨stored, member, same⟩ := List.mem_map.mp inside
    exact absent ⟨stored, member, same⟩

theorem mem_upsert {row' : ρ} : row' ∈ upsert key merge row rows ↔
    (row' ∈ rows ∧ key row' ≠ key row) ∨
      (∃ stored ∈ rows, key stored = key row ∧ row' = merge stored row) ∨
        ((∀ stored ∈ rows, key stored ≠ key row) ∧ row' = row) := by
  unfold upsert
  split
  next there =>
    obtain ⟨held, member, same⟩ := there
    constructor
    · intro reached
      obtain ⟨stored, inside, is⟩ := List.mem_map.mp reached
      split at is
      next matched => exact .inr (.inl ⟨stored, inside, matched, is.symm⟩)
      next apart => exact .inl (is ▸ ⟨inside, apart⟩)
    · rintro (⟨inside, apart⟩ | ⟨stored, inside, matched, rfl⟩ | ⟨absent, _⟩)
      · exact List.mem_map.mpr ⟨row', inside, if_neg apart⟩
      · exact List.mem_map.mpr ⟨stored, inside, if_pos matched⟩
      · exact absurd same (absent held member)
  next absent =>
    have apart : ∀ stored ∈ rows, key stored ≠ key row :=
      fun stored member same => absent ⟨stored, member, same⟩
    rw [List.mem_append, List.mem_singleton]
    constructor
    · rintro (inside | rfl)
      · exact .inl ⟨inside, apart row' inside⟩
      · exact .inr (.inr ⟨apart, rfl⟩)
    · rintro (⟨inside, _⟩ | ⟨stored, inside, matched, _⟩ | ⟨_, rfl⟩)
      · exact .inl inside
      · exact absurd matched (apart stored inside)
      · exact .inr rfl

omit [DecidableEq κ] in
theorem Keyed.select (keyed : Keyed key rows) {before : ρ → ρ → Prop} [DecidableRel before]
    {wanted : ρ → Bool} {limit : Nat} : Keyed key (select before rows wanted limit) := by
  have sorted : Keyed key ((rows.filter wanted).insertionSort before) :=
    ((List.perm_insertionSort before _).map key).nodup_iff.mpr
      ((keyed : List.Nodup _).sublist (List.filter_sublist.map key))
  exact (sorted : List.Nodup _).sublist ((List.take_sublist limit _).map key)

end Upsert

/-! ### Tables -/

/-- Rows of different keys. -/
@[ext]
structure Table {ρ κ : Type*} (key : ρ → κ) where
  rows : List ρ
  keyed : Keyed key rows

namespace Table

variable {ρ κ : Type*} {key : ρ → κ}

def empty : Table key := ⟨[], List.nodup_nil⟩

/-- The rows without those of the condition. -/
def delete (table : Table key) (condition : ρ → Bool) : Table key where
  rows := table.rows.filter fun row => !condition row
  keyed := (table.keyed : List.Nodup _).sublist (List.filter_sublist.map key)

/-- A change of the rows that leaves their keys. -/
def update (table : Table key) (change : ρ → ρ) (keeps : ∀ row, key (change row) = key row) :
    Table key where
  rows := table.rows.map change
  keyed := by
    rw [Keyed, List.map_map, (funext keeps : key ∘ change = key)]
    exact table.keyed

variable [DecidableEq κ]

/-- The row in the place of the one with its key. -/
def put (table : Table key) (row : ρ) : Table key where
  rows := upsert key (fun _ row => row) row table.rows
  keyed := table.keyed.upsert fun _ _ => rfl

/-- The row, if there is none with its key. -/
def putNew (table : Table key) (row : ρ) : Table key where
  rows := upsert key (fun stored _ => stored) row table.rows
  keyed := table.keyed.upsert fun _ same => same

/-- A row that is merged with the one of its key, and inserted when there is none. -/
def merge (table : Table key) (change : ρ → ρ → ρ)
    (keeps : ∀ stored row, key stored = key row → key (change stored row) = key row) (row : ρ) :
    Table key where
  rows := upsert key change row table.rows
  keyed := table.keyed.upsert fun stored => keeps stored row

/-- The row of a key -/
def find (table : Table key) (wanted : κ) : Option ρ :=
  table.rows.find? fun row => key row = wanted

def putAll (table : Table key) (rows : List ρ) : Table key := rows.foldl put table

def putAllNew (table : Table key) (rows : List ρ) : Table key := rows.foldl putNew table

variable {table : Table key} {row row' : ρ} {rows : List ρ}

omit [DecidableEq κ] in
theorem mem_delete {condition : ρ → Bool} :
    row ∈ (table.delete condition).rows ↔ row ∈ table.rows ∧ condition row = false := by
  simp [delete]

theorem mem_put : row' ∈ (table.put row).rows ↔
    row' = row ∨ (row' ∈ table.rows ∧ key row' ≠ key row) := by
  rw [put, mem_upsert]
  constructor
  · rintro (kept | ⟨_, _, _, is⟩ | ⟨_, is⟩)
    · exact .inr kept
    · exact .inl is
    · exact .inl is
  · rintro (rfl | kept)
    · by_cases there : ∃ stored ∈ table.rows, key stored = key row'
      · obtain ⟨stored, member, same⟩ := there
        exact .inr (.inl ⟨stored, member, same, rfl⟩)
      · exact .inr (.inr ⟨fun stored member same => there ⟨stored, member, same⟩, rfl⟩)
    · exact .inl kept

-- Rows of different keys do not write over each other.
theorem mem_putAll (distinct : (rows.map key).Nodup) : row ∈ (table.putAll rows).rows ↔
    row ∈ rows ∨ (row ∈ table.rows ∧ ∀ written ∈ rows, key row ≠ key written) := by
  induction rows generalizing table with
  | nil => simp [putAll]
  | cons first rest ih =>
    obtain ⟨apart, others⟩ := List.nodup_cons.mp distinct
    change row ∈ ((table.put first).putAll rest).rows ↔ _
    rw [ih others, mem_put, List.mem_cons, List.forall_mem_cons]
    constructor
    · rintro (later | ⟨rfl | ⟨stored, other⟩, kept⟩)
      · exact .inl (.inr later)
      · exact .inl (.inl rfl)
      · exact .inr ⟨stored, other, kept⟩
    · rintro ((rfl | later) | ⟨stored, other, kept⟩)
      · refine .inr ⟨.inl rfl, fun written member same => apart ?_⟩
        exact List.mem_map.mpr ⟨written, member, same.symm⟩
      · exact .inl later
      · exact .inr ⟨.inr ⟨stored, other⟩, kept⟩

theorem mem_putNew : row' ∈ (table.putNew row).rows ↔
    row' ∈ table.rows ∨ (row' = row ∧ ∀ stored ∈ table.rows, key stored ≠ key row) := by
  rw [putNew, mem_upsert]
  constructor
  · rintro (⟨kept, _⟩ | ⟨stored, kept, _, rfl⟩ | ⟨absent, is⟩)
    · exact .inl kept
    · exact .inl kept
    · exact .inr ⟨is, absent⟩
  · rintro (kept | ⟨is, absent⟩)
    · by_cases same : key row' = key row
      · exact .inr (.inl ⟨row', kept, same, rfl⟩)
      · exact .inl ⟨kept, same⟩
    · exact .inr (.inr ⟨absent, is⟩)

-- A row comes from the table or from the list.
theorem of_mem_putAllNew (member : row ∈ (table.putAllNew rows).rows) :
    row ∈ table.rows ∨ row ∈ rows := by
  induction rows generalizing table with
  | nil => exact .inl member
  | cons first rest ih =>
    rcases ih member with earlier | later
    · rcases mem_putNew.mp earlier with old | ⟨rfl, _⟩
      · exact .inl old
      · exact .inr List.mem_cons_self
    · exact .inr (List.mem_cons_of_mem _ later)

theorem mem_putAllNew_of_mem (member : row ∈ table.rows) : row ∈ (table.putAllNew rows).rows := by
  induction rows generalizing table with
  | nil => exact member
  | cons first rest ih => exact ih (mem_putNew.mpr (.inl member))

-- Nothing is written where every key is there already.
theorem putAllNew_eq (held : ∀ row ∈ rows, ∃ stored ∈ table.rows, key stored = key row) :
    table.putAllNew rows = table := by
  induction rows with
  | nil => rfl
  | cons first rest ih =>
    have same : table.putNew first = table := by
      refine Table.ext ?_
      change upsert key (fun stored _ => stored) first table.rows = table.rows
      rw [upsert, if_pos (held first List.mem_cons_self)]
      simp
    change (table.putNew first).putAllNew rest = table
    rw [same]
    exact ih fun row member => held row (List.mem_cons_of_mem _ member)

/-! What is found under a key after each of the writes. -/

section Find

variable {wanted : κ}

theorem find_eq_some : table.find wanted = some row ↔ row ∈ table.rows ∧ key row = wanted :=
  table.keyed.find?_eq_some

theorem find_eq_none : table.find wanted = none ↔ ∀ row ∈ table.rows, key row ≠ wanted := by
  simp [find]

theorem find_key (member : row ∈ table.rows) : table.find (key row) = some row :=
  find_eq_some.mpr ⟨member, rfl⟩

theorem find_put : (table.put row).find wanted =
    if key row = wanted then some row else table.find wanted := by
  split
  next same => exact find_eq_some.mpr ⟨mem_put.mpr (.inl rfl), same⟩
  next other =>
    refine Option.ext fun found => ?_
    rw [find_eq_some, find_eq_some, mem_put]
    constructor
    · rintro ⟨rfl | ⟨stored, _⟩, same⟩
      · exact absurd same other
      · exact ⟨stored, same⟩
    · rintro ⟨stored, rfl⟩
      exact ⟨.inr ⟨stored, Ne.symm other⟩, rfl⟩

-- Of rows of different keys each one is found.
theorem find_putAll (distinct : (rows.map key).Nodup) : (table.putAll rows).find wanted =
    (rows.find? fun row => key row = wanted).or (table.find wanted) := by
  induction rows generalizing table with
  | nil => simp [putAll]
  | cons first rest ih =>
    obtain ⟨apart, others⟩ := List.nodup_cons.mp distinct
    change ((table.put first).putAll rest).find wanted = _
    rw [ih others, find_put, List.find?_cons]
    by_cases same : key first = wanted
    · -- no later row has the key of the first
      have none : (rest.find? fun row => key row = wanted) = none := by
        rw [List.find?_eq_none]
        intro later member is
        refine apart (List.mem_map.mpr ⟨later, member, ?_⟩)
        rw [same, of_decide_eq_true is]
      simp [same, none]
    · simp [same]

theorem find_putNew : (table.putNew row).find wanted =
    (table.find wanted).or (if key row = wanted then some row else none) := by
  refine Option.ext fun found => ?_
  rw [find_eq_some, mem_putNew]
  cases held : table.find wanted with
  | some stored =>
    obtain ⟨member, is⟩ := find_eq_some.mp held
    rw [Option.some_or, Option.some.injEq]
    constructor
    · rintro ⟨inside | ⟨rfl, absent⟩, same⟩
      · exact table.keyed.eq member inside (is.trans same.symm)
      · exact absurd (is.trans same.symm) (absent stored member)
    · rintro rfl
      exact ⟨.inl member, is⟩
  | none =>
    have absent := find_eq_none.mp held
    rw [Option.none_or]
    constructor
    · rintro ⟨inside | ⟨rfl, _⟩, same⟩
      · exact absurd same (absent found inside)
      · rw [if_pos same]
    · intro is
      split at is
      next same =>
        obtain rfl := Option.some.inj is
        exact ⟨.inr ⟨rfl, fun stored member => same ▸ absent stored member⟩, same⟩
      next => cases is

-- Of several rows of one key the first one is inserted.
theorem find_putAllNew : (table.putAllNew rows).find wanted =
    (table.find wanted).or (rows.find? fun row => key row = wanted) := by
  induction rows generalizing table with
  | nil => simp [putAllNew]
  | cons first rest ih =>
    change ((table.putNew first).putAllNew rest).find wanted = _
    rw [ih, find_putNew, Option.or_assoc, List.find?_cons]
    by_cases same : key first = wanted <;> simp [same]

theorem find_update {change : ρ → ρ} {keeps : ∀ row, key (change row) = key row} :
    (table.update change keeps).find wanted = (table.find wanted).map change := by
  rw [find, update, List.find?_map, find]
  simp [Function.comp_def, keeps]

-- A merge that makes the row of what is stored puts it in its place.
theorem merge_eq_put {change : ρ → ρ → ρ}
    {keeps : ∀ stored row, key stored = key row → key (change stored row) = key row}
    (makes : ∀ stored ∈ table.rows, key stored = key row → change stored row = row) :
    table.merge change keeps row = table.put row := by
  refine Table.ext ?_
  change upsert key change row table.rows = upsert key (fun _ row => row) row table.rows
  rw [upsert, upsert]
  split
  next =>
    refine List.map_congr_left fun stored member => ?_
    split
    next same => exact makes stored member same
    next => rfl
  next => rfl

end Find

end Table

/-! ### The first row of each key -/

section Firsts

variable {ρ κ : Type*} [DecidableEq κ] (key : ρ → κ)

/-- The rows whose key has not come before. -/
def firstsAfter : List κ → List ρ → List ρ
  | _, [] => []
  | seen, row :: rows =>
      if key row ∈ seen then firstsAfter seen rows else row :: firstsAfter (key row :: seen) rows

def firsts (rows : List ρ) : List ρ := firstsAfter key [] rows

variable {key} {rows : List ρ} {row : ρ}

variable {seen : List κ}

theorem mem_firstsAfter :
    row ∈ firstsAfter key seen rows ↔
    key row ∉ seen ∧ rows.find? (fun other => key other = key row) = some row := by
  induction rows generalizing seen with
  | nil => simp [firstsAfter]
  | cons first rest ih =>
    rw [firstsAfter, List.find?_cons]
    by_cases same : key first = key row
    · -- the first row is the one of its key, if its key is a new one
      simp only [same, decide_true, Option.some.injEq]
      split
      next old =>
        rw [ih]
        exact iff_of_false (fun holds => holds.1 old) fun holds => holds.1 old
      next fresh =>
        rw [List.mem_cons, ih]
        constructor
        · rintro (is | ⟨new, _⟩)
          · exact ⟨fresh, is.symm⟩
          · exact absurd List.mem_cons_self new
        · rintro ⟨_, is⟩
          exact .inl is.symm
    · simp only [same, decide_false]
      split
      next old => exact ih
      next fresh =>
        have other : row ≠ first := fun is => same (is ▸ rfl)
        rw [List.mem_cons, ih, List.mem_cons, not_or]
        constructor
        · rintro (is | ⟨⟨_, new⟩, found⟩)
          · exact absurd is other
          · exact ⟨new, found⟩
        · rintro ⟨new, found⟩
          exact .inr ⟨⟨Ne.symm same, new⟩, found⟩

theorem mem_firsts : row ∈ firsts key rows ↔
    rows.find? (fun other => key other = key row) = some row := by
  rw [firsts, mem_firstsAfter]
  simp

-- A row is added where its key is a new one.
theorem firstsAfter_concat :
    firstsAfter key seen (rows ++ [row]) =
    if key row ∈ seen ∨ key row ∈ rows.map key then firstsAfter key seen rows
    else firstsAfter key seen rows ++ [row] := by
  induction rows generalizing seen with
  | nil => by_cases old : key row ∈ seen <;> simp [firstsAfter, old]
  | cons first rest ih =>
    rw [List.cons_append, firstsAfter, firstsAfter]
    by_cases old : key first ∈ seen
    · -- the key of a row that is left out is one that came before
      have same : key row ∈ seen ∨ key row ∈ rest.map key ↔
          key row ∈ seen ∨ key row ∈ (first :: rest).map key := by
        rw [List.map_cons, List.mem_cons]
        exact ⟨fun holds => holds.imp_right .inr, fun holds => holds.elim .inl fun more =>
          more.elim (fun is => .inl (is ▸ old)) .inr⟩
      rw [if_pos old, if_pos old, ih]
      exact if_congr same rfl rfl
    · have same : key row ∈ key first :: seen ∨ key row ∈ rest.map key ↔
          key row ∈ seen ∨ key row ∈ (first :: rest).map key := by
        rw [List.map_cons, List.mem_cons, List.mem_cons, or_assoc, or_left_comm]
      rw [if_neg old, if_neg old, ih]
      by_cases holds : key row ∈ seen ∨ key row ∈ (first :: rest).map key
      · rw [if_pos holds, if_pos (same.mpr holds)]
      · rw [if_neg holds, if_neg (mt same.mp holds)]
        rfl

theorem firsts_concat : firsts key (rows ++ [row]) =
    if key row ∈ rows.map key then firsts key rows else firsts key rows ++ [row] := by
  rw [firsts, firstsAfter_concat]
  simp [firsts]

theorem mem_map_firsts {wanted : κ} : wanted ∈ (firsts key rows).map key ↔ wanted ∈ rows.map key := by
  induction rows using List.reverseRecOn with
  | nil => rfl
  | append_singleton rows row ih =>
    rw [firsts_concat, List.map_append, List.map_singleton, List.mem_append, List.mem_singleton]
    split
    next old =>
      rw [ih]
      exact ⟨.inl, fun holds => holds.elim id fun is => is ▸ old⟩
    next => rw [List.map_append, List.map_singleton, List.mem_append, List.mem_singleton, ih]

theorem of_mem_firsts (member : row ∈ firsts key rows) : row ∈ rows :=
  List.mem_of_find?_eq_some (mem_firsts.mp member)

-- Where the key tells the rows apart, none is dropped.
theorem mem_firsts_of_inj
    (inj : ∀ left ∈ rows, ∀ right ∈ rows, key left = key right → left = right) :
    row ∈ firsts key rows ↔ row ∈ rows := by
  refine ⟨of_mem_firsts, fun member => mem_firsts.mpr ?_⟩
  cases found : rows.find? (fun other => key other = key row) with
  | none => simpa using List.find?_eq_none.mp found row member
  | some other =>
    have same : key other = key row := by simpa using List.find?_some found
    rw [inj other (List.mem_of_find?_eq_some found) row member same]

theorem nodup_firstsAfter : ((firstsAfter key seen rows).map key).Nodup := by
  induction rows generalizing seen with
  | nil => exact List.nodup_nil
  | cons first rest ih =>
    rw [firstsAfter]
    split
    next => exact ih
    next =>
      refine List.nodup_cons.mpr ⟨fun inside => ?_, ih⟩
      -- what comes later has another key
      obtain ⟨later, member, same⟩ := List.mem_map.mp inside
      exact (mem_firstsAfter.mp member).1 (same ▸ List.mem_cons_self)

theorem nodup_firsts : ((firsts key rows).map key).Nodup := nodup_firstsAfter

theorem firsts_inj {left right : ρ} (hl : left ∈ firsts key rows) (hr : right ∈ firsts key rows)
    (same : key left = key right) : left = right := by
  have found := mem_firsts.mp hl
  rw [same, mem_firsts.mp hr] at found
  exact (Option.some.inj found).symm

end Firsts

end Rows
