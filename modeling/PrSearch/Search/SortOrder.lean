import PrSearch.Lib.Paging
import PrSearch.Search.Elastic

/-! # A sort leaves no ties

The last level of a sort is the identity of a document. Of two documents one comes after the other at the
first level where their values differ, so a sorted list is sorted strictly, and what comes after the values
of an item is the rest of the list.
-/
namespace PrSearch.Search.Listing

open Index Query

/-! ### One level -/

section Ordered

variable {α : Type} [LinearOrder α] {order : SortOrder} {a b c : α}

theorem ordered_irrefl (order : SortOrder) (a : α) : ordered order a a = false := by
  cases order <;> simp [ordered]

theorem ordered_trans (first : ordered order a b = true) (second : ordered order b c = true) :
    ordered order a c = true := by
  cases order with
  | asc =>
    simp only [ordered, decide_eq_true_eq] at first second ⊢
    exact lt_trans first second
  | desc =>
    simp only [ordered, decide_eq_true_eq] at first second ⊢
    exact lt_trans second first

theorem ordered_total (order : SortOrder) (a b : α) :
    ordered order a b = true ∨ a = b ∨ ordered order b a = true := by
  cases order with
  | asc =>
    simp only [ordered, decide_eq_true_eq]
    exact lt_trichotomy a b
  | desc =>
    simp only [ordered, decide_eq_true_eq]
    rcases lt_trichotomy a b with less | same | more
    · exact .inr (.inr less)
    · exact .inr (.inl same)
    · exact .inl more

end Ordered

section Levels

variable {σ : Type} [LinearOrder σ] {order : SortOrder} {a b c : SortValue σ}
  {level : SortCombination} {sort : List SortCombination} {xs ys zs : List (SortValue σ)}

theorem precedes_irrefl (order : SortOrder) (a : SortValue σ) : precedes order a a = false := by
  cases a <;> exact ordered_irrefl order _

theorem precedes_trans (first : precedes order a b = true) (second : precedes order b c = true) :
    precedes order a c = true := by
  cases a <;> cases b <;> first | cases first | skip
  all_goals cases c <;> first | cases second | exact ordered_trans first second

/-- A value is of the kind of its level. -/
def Fits : SortCombination → SortValue σ → Prop
  | .field .., .number _ => True
  | .score _, .score _ => True
  | .tiebreak, .keyword _ => True
  | _, _ => False

theorem precedes_total (first : Fits level a) (second : Fits level b) (order : SortOrder) :
    precedes order a b = true ∨ a = b ∨ precedes order b a = true := by
  cases level with
  | field =>
    cases a with
    | number n =>
      cases b with
      | number m => exact (ordered_total order n m).imp_right (.imp_left (congrArg _))
      | _ => cases second
    | _ => cases first
  | score =>
    cases a with
    | score n =>
      cases b with
      | score m => exact (ordered_total order n m).imp_right (.imp_left (congrArg _))
      | _ => cases second
    | _ => cases first
  | tiebreak =>
    cases a with
    | keyword n =>
      cases b with
      | keyword m => exact (ordered_total order n m).imp_right (.imp_left (congrArg _))
      | _ => cases second
    | _ => cases first

/-! ### All levels -/

theorem comesAfter_cons {level : SortCombination} :
    comesAfter (level :: sort) (a :: xs) (b :: ys) = true ↔
      precedes level.order a b = true ∨ a = b ∧ comesAfter sort xs ys = true := by
  simp [comesAfter]

theorem comesAfter_irrefl (sort : List SortCombination) (xs : List (SortValue σ)) :
    comesAfter sort xs xs = false := by
  induction sort generalizing xs with
  | nil => cases xs <;> rfl
  | cons level sort ih =>
    cases xs with
    | nil => rfl
    | cons a xs =>
      rw [Bool.eq_false_iff, ne_eq, comesAfter_cons, precedes_irrefl, ih]
      simp

theorem comesAfter_trans (first : comesAfter sort xs ys = true) (second : comesAfter sort ys zs = true) :
    comesAfter sort xs zs = true := by
  induction sort generalizing xs ys zs with
  | nil => cases xs <;> cases first
  | cons level sort ih =>
    cases xs with
    | nil => cases first
    | cons a xs =>
      cases ys with
      | nil => cases first
      | cons b ys =>
        cases zs with
        | nil => cases second
        | cons c zs =>
          rw [comesAfter_cons] at first second ⊢
          rcases first with before | ⟨rfl, later⟩
          · rcases second with before' | ⟨rfl, _⟩
            · exact .inl (precedes_trans before before')
            · exact .inl before
          · rcases second with before | ⟨rfl, later'⟩
            · exact .inl before
            · exact .inr ⟨rfl, ih later later'⟩

theorem comesAfter_asymm (after : comesAfter sort xs ys = true) : comesAfter sort ys xs = false := by
  by_contra other
  have around := comesAfter_trans after (by simpa using other)
  rw [comesAfter_irrefl] at around
  cases around

theorem comesAfter_total (first : List.Forall₂ Fits sort xs) (second : List.Forall₂ Fits sort ys) :
    comesAfter sort xs ys = true ∨ xs = ys ∨ comesAfter sort ys xs = true := by
  induction first generalizing ys with
  | nil =>
    cases second
    exact .inr (.inl rfl)
  | @cons level a sort xs fits _ ih =>
    cases second with
    | @cons _ b _ ys fits' rest =>
      rw [comesAfter_cons, comesAfter_cons]
      rcases precedes_total fits fits' level.order with before | rfl | behind
      · exact .inl (.inl before)
      · rcases ih rest with before | rfl | behind
        · exact .inl (.inr ⟨rfl, before⟩)
        · exact .inr (.inl rfl)
        · exact .inr (.inr (.inr ⟨rfl, behind⟩))
      · exact .inr (.inr (.inl behind))

end Levels

/-! ### Documents -/

section Documents

variable {σ : Type} [LinearOrder σ] (elastic : Elastic σ) (query : Query) {sort : List SortCombination}
  {documents : List StoredDocument} {first second : StoredDocument}

theorem fits_sortValues (sort : List SortCombination) (document : StoredDocument) :
    List.Forall₂ Fits sort (sortValues elastic query sort document) := by
  induction sort with
  | nil => exact .nil
  | cons level sort ih =>
    refine .cons ?_ ih
    cases level <;> trivial

/-- Documents with the same values are the same document. -/
theorem docId_of_sortValues (tied : SortCombination.tiebreak ∈ sort)
    (same : sortValues elastic query sort first = sortValues elastic query sort second) :
    first.docId = second.docId := by
  have each := List.map_inj_left.mp same .tiebreak tied
  exact SortValue.keyword.inj each

theorem tiebreak_mem_buildSort (key : SortKey) (order : SortOrder) :
    SortCombination.tiebreak ∈ buildSort key order := by
  cases key <;> simp [buildSort, sortField, defaultSortKey]

theorem sorted_perm (sort : List SortCombination) (documents : List StoredDocument) :
    (sorted elastic query sort documents).Perm documents := List.mergeSort_perm _ _

/-- A sorted list of distinct documents is sorted strictly. -/
theorem sorted_strict (tied : SortCombination.tiebreak ∈ sort)
    (distinct : (documents.map StoredDocument.docId).Nodup) :
    Paging.Sorted (sortValues elastic query sort)
      (fun values document => comesAfter sort values (sortValues elastic query sort document))
      (sorted elastic query sort documents) := by
  refine ⟨fun document _ => comesAfter_irrefl sort _, ?_⟩
  have total : ∀ a b, comesAfter sort (sortValues elastic query sort a) (sortValues elastic query sort b) =
      true ∨ sortValues elastic query sort a = sortValues elastic query sort b ∨
      comesAfter sort (sortValues elastic query sort b) (sortValues elastic query sort a) = true :=
    fun a b => comesAfter_total (fits_sortValues elastic query sort a) (fits_sortValues elastic query sort b)
  have weak : (sorted elastic query sort documents).Pairwise fun a b =>
      (!comesAfter sort (sortValues elastic query sort b) (sortValues elastic query sort a)) = true :=
    List.pairwise_mergeSort
    (by
      intro a b c first second
      rw [Bool.not_eq_true'] at first second ⊢
      by_contra after
      rw [Bool.not_eq_false] at after
      rcases total a b with before | same | behind
      · rw [comesAfter_trans after before] at second
        cases second
      · rw [same, second] at after
        cases after
      · rw [behind] at first
        cases first)
    (by
      intro a b
      rw [Bool.or_eq_true, Bool.not_eq_true', Bool.not_eq_true']
      cases after : comesAfter sort (sortValues elastic query sort b) (sortValues elastic query sort a) with
      | false => exact .inl rfl
      | true => exact .inr (comesAfter_asymm after))
    documents
  have apart : (sorted elastic query sort documents).Pairwise fun a b => a.docId ≠ b.docId := by
    have nodup := ((sorted_perm elastic query sort documents).map StoredDocument.docId).nodup_iff.mpr distinct
    exact List.pairwise_map.mp nodup
  refine (weak.and apart).imp fun {a b} both => ?_
  obtain ⟨weakly, other⟩ := both
  rw [Bool.not_eq_true'] at weakly
  rcases total a b with after | same | behind
  · exact ⟨after, weakly⟩
  · exact absurd (docId_of_sortValues elastic query tied same) other
  · rw [behind] at weakly
    cases weakly

end Documents
end PrSearch.Search.Listing
