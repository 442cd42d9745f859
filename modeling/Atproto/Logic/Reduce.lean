import Mathlib.Data.List.Basic
import Mathlib.Data.List.Pairwise
import Mathlib.Tactic.ByContra

/-!
# Reducing a list by a relation

The elements of a list are kept one after another.  An element that is covered by another one that is
kept is left out, and one that covers others takes their place.  What is kept covers what the list
covers, and no kept element covers another.
-/

namespace Logic

variable {α : Type} [DecidableEq α] (covers : α → α → Bool)

/-- The elements that are kept without those that another one covers. -/
def uncovered (kept : List α) (x : α) : List α :=
  kept.filter fun y => !(covers x y && decide (x ≠ y))

/-- Keep an element, unless another one that is kept covers it, in place of those that it covers. -/
def keep (kept : List α) (x : α) : List α :=
  if kept.any fun y => covers y x && decide (y ≠ x) then kept
  else if (uncovered covers kept x).any fun y => decide (y = x) then uncovered covers kept x
  else uncovered covers kept x ++ [x]

/-- Keep the elements of a list one after another. -/
def reduce (xs : List α) : List α := xs.foldl (keep covers) []

variable {covers} {kept xs : List α} {x : α}

/-- The elements are kept apart: none is there twice, and none covers another. -/
def Apart (covers : α → α → Bool) (xs : List α) : Prop :=
  xs.Pairwise fun y z => y ≠ z ∧ covers y z = false ∧ covers z y = false

/-- What is kept has been kept before, or is the element. -/
theorem mem_keep {y : α} (h : y ∈ keep covers kept x) :
  y ∈ kept ∨ y = x
  := by
  rw [keep] at h
  split_ifs at h with hcovered hthere
  · exact .inl h
  · exact .inl (List.mem_of_mem_filter h)
  · rcases List.mem_append.mp h with hmem | hmem
    · exact .inl (List.mem_of_mem_filter hmem)
    · exact .inr (List.mem_singleton.mp hmem)

/-- What is kept covers the element and what was kept before, if elements cover themselves. -/
theorem exists_covers_keep (hrefl : ∀ y, covers y y = true) {y : α} (hy : y ∈ kept ∨ y = x) :
  ∃ z ∈ keep covers kept x, covers z y = true
  := by
  rw [keep]
  split_ifs with hcovered hthere
  · rcases hy with hy | rfl
    · exact ⟨y, hy, hrefl y⟩
    · obtain ⟨z, hz, hcovers⟩ := List.any_eq_true.mp hcovered
      exact ⟨z, hz, (Bool.and_eq_true_iff.mp hcovers).1⟩
  · obtain ⟨z, hz, heq⟩ := List.any_eq_true.mp hthere
    obtain rfl := of_decide_eq_true heq
    rcases hy with hy | rfl
    · by_cases hcovers : (covers z y && decide (z ≠ y)) = true
      · exact ⟨z, hz, (Bool.and_eq_true_iff.mp hcovers).1⟩
      · refine ⟨y, List.mem_filter.mpr ⟨hy, ?_⟩, hrefl y⟩
        rw [eq_false_of_ne_true hcovers]
        rfl
    · exact ⟨y, hz, hrefl y⟩
  · rcases hy with hy | rfl
    · by_cases hcovers : (covers x y && decide (x ≠ y)) = true
      · exact ⟨x, List.mem_append_right _ List.mem_cons_self, (Bool.and_eq_true_iff.mp hcovers).1⟩
      · refine ⟨y, List.mem_append_left _ (List.mem_filter.mpr ⟨hy, ?_⟩), hrefl y⟩
        rw [eq_false_of_ne_true hcovers]
        rfl
    · exact ⟨y, List.mem_append_right _ List.mem_cons_self, hrefl y⟩

/-- Elements stay apart. -/
theorem Apart.keep (h : Apart covers kept) (x : α) :
  Apart covers (keep covers kept x)
  := by
  rw [Logic.keep]
  split_ifs with hcovered hthere
  · exact h
  · exact h.filter _
  · rw [Apart, List.pairwise_append]
    refine ⟨h.filter _, List.pairwise_singleton _ x, ?_⟩
    intro y hy z hz
    obtain rfl := List.mem_singleton.mp hz
    obtain ⟨hkept, huncovered⟩ := List.mem_filter.mp hy
    have hne : y ≠ z := by
      rintro rfl
      apply hthere
      rw [List.any_eq_true]
      exact ⟨y, hy, decide_eq_true rfl⟩
    refine ⟨hne, ?_, ?_⟩
    · by_contra hcovers
      apply hcovered
      rw [List.any_eq_true]
      use y, hkept
      rw [eq_true_of_ne_false hcovers, decide_eq_true hne]
      rfl
    · rw [decide_eq_true hne.symm, Bool.and_true, Bool.not_eq_true'] at huncovered
      exact huncovered

/-- The elements of a reduced list are apart. -/
theorem apart_reduce (xs : List α) :
  Apart covers (reduce covers xs)
  := by
  have hfold : ∀ kept, Apart covers kept → Apart covers (xs.foldl (Logic.keep covers) kept) := by
    induction xs with
    | nil => exact fun kept h => h
    | cons x xs ih => exact fun kept h => ih _ (h.keep x)
  exact hfold [] List.Pairwise.nil

/-- A property that passes to what covers is had by an element of the reduced list exactly when it is by
one of the list. -/
theorem exists_reduce_iff (hrefl : ∀ y, covers y y = true) {P : α → Prop}
    (hP : ∀ y z, covers z y = true → P y → P z) (xs : List α) :
  (∃ y ∈ reduce covers xs, P y) ↔ ∃ y ∈ xs, P y
  := by
  have hfold : ∀ kept, (∃ y ∈ xs.foldl (Logic.keep covers) kept, P y) ↔
      (∃ y ∈ kept, P y) ∨ ∃ y ∈ xs, P y := by
    induction xs with
    | nil =>
      intro kept
      rw [List.foldl_nil]
      apply (or_iff_left _).symm
      rintro ⟨y, hy, -⟩
      cases hy
    | cons x xs ih =>
      intro kept
      rw [List.foldl_cons, ih, List.exists_mem_cons_iff, ← or_assoc]
      apply or_congr_left
      constructor
      · rintro ⟨y, hy, hPy⟩
        rcases mem_keep hy with hmem | rfl
        · exact .inl ⟨y, hmem, hPy⟩
        · exact .inr hPy
      · rintro (⟨y, hy, hPy⟩ | hPx)
        · obtain ⟨z, hz, hcovers⟩ := exists_covers_keep hrefl (.inl hy)
          exact ⟨z, hz, hP y z hcovers hPy⟩
        · obtain ⟨z, hz, hcovers⟩ := exists_covers_keep hrefl (.inr rfl)
          exact ⟨z, hz, hP x z hcovers hPx⟩
  rw [reduce, hfold, or_iff_right]
  rintro ⟨y, hy, -⟩
  cases hy

end Logic
