import Mathlib.Data.List.Infix

/-!
# Splitting texts

A text is split at the first separator, at every separator, or behind a known start.
-/

namespace Wire

variable {α : Type} [DecidableEq α]

/-- The parts of a text before and behind its first separator. -/
@[grind =]
def splitFirst (separator : α) : List α → Option (List α × List α)
  | [] => none
  | c :: text =>
    if c = separator then some ([], text)
    else (splitFirst separator text).map fun parts => (c :: parts.1, parts.2)

/-- What follows a known start of a text. -/
def stripFront (front text : List α) : Option (List α) :=
  if front.isPrefixOf text then some (text.drop front.length) else none

variable {separator : α} {text : List α}

theorem splitFirst_append {before : List α} (h : separator ∉ before) (behind : List α) :
  splitFirst separator (before ++ separator :: behind) = some (before, behind)
  := by
  induction before with
  | nil => exact if_pos rfl
  | cons c before ih =>
    obtain ⟨hc, hbefore⟩ := not_or.mp (mt List.mem_cons.mpr h)
    rw [List.cons_append, splitFirst, if_neg (Ne.symm hc), ih hbefore]
    rfl

theorem splitFirst_eq_none :
  splitFirst separator text = none ↔ separator ∉ text
  := by
  induction text with
  | nil => exact iff_of_true rfl List.not_mem_nil
  | cons c text ih =>
    rw [splitFirst, List.mem_cons, not_or]
    by_cases hc : c = separator
    · rw [if_pos hc]
      apply iff_of_false
      · intro h
        cases h
      · intro h
        exact h.1 hc.symm
    · rw [if_neg hc, Option.map_eq_none_iff, ih]
      exact (and_iff_right (Ne.symm hc)).symm

theorem splitFirst_eq_some {before behind : List α} :
  splitFirst separator text = some (before, behind) ↔
    text = before ++ separator :: behind ∧ separator ∉ before
  := by
  constructor
  · intro h
    induction text generalizing before with
    | nil => cases h
    | cons c text ih =>
      rw [splitFirst] at h
      by_cases hc : c = separator
      · rw [if_pos hc] at h
        cases h
        exact ⟨congrArg (· :: _) hc, List.not_mem_nil⟩
      · rw [if_neg hc] at h
        obtain ⟨⟨first, rest⟩, hsplit, hparts⟩ := Option.map_eq_some_iff.mp h
        cases hparts
        obtain ⟨rfl, hfirst⟩ := ih hsplit
        refine ⟨rfl, ?_⟩
        rw [List.mem_cons, not_or]
        exact ⟨Ne.symm hc, hfirst⟩
  · rintro ⟨rfl, h⟩
    exact splitFirst_append h behind

theorem stripFront_append (front rest : List α) :
  stripFront front (front ++ rest) = some rest
  := by
  rw [stripFront, if_pos (List.isPrefixOf_iff_prefix.mpr (List.prefix_append front rest)),
    List.drop_left]

theorem stripFront_eq_some {front rest : List α} :
  stripFront front text = some rest ↔ text = front ++ rest
  := by
  constructor
  · intro h
    rw [stripFront] at h
    split_ifs at h with hfront
    obtain ⟨tail, rfl⟩ := List.isPrefixOf_iff_prefix.mp hfront
    rw [List.drop_left] at h
    cases h
    rfl
  · rintro rfl
    exact stripFront_append front rest

end Wire
