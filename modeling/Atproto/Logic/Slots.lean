import Mathlib.Data.List.Induction
import Mathlib.Data.Set.Insert
import Mathlib.Data.Set.Pairwise.Basic

/-!
# Rows in slots

A table has at most one row in each slot.  A row that is written either takes the place of the row
in its slot, or is dropped when there is one.
-/

namespace Logic

variable {ρ : Type*}

/-! ### Rows that take the place of others -/

section Overwrite

variable (same : ρ → ρ → Prop)

/-- The rows when one has been written over those in its slot. -/
def overwrite (row : ρ) (rows : Set ρ) : Set ρ := insert row {other ∈ rows | ¬ same other row}

/-- The rows when some have been written one after another. -/
def overwriteAll (written : List ρ) (rows : Set ρ) : Set ρ :=
  written.foldl (fun rows row => overwrite same row rows) rows

/-- No two rows are in one slot. -/
def Separated (rows : Set ρ) : Prop := rows.Pairwise fun a b => ¬ same a b

variable {same} {row : ρ} {rows : Set ρ} {written : List ρ}

/-- What is left are the last rows of their slots, and the rows before whose slots no row was
written to. -/
theorem mem_overwriteAll {other : ρ} :
  other ∈ overwriteAll same written rows ↔
    (∃ before after, written = before ++ other :: after ∧ ∀ later ∈ after, ¬ same other later) ∨
      (other ∈ rows ∧ ∀ later ∈ written, ¬ same other later)
  := by
  induction written using List.reverseRecOn with
  | nil =>
    constructor
    · intro h
      exact Or.inr ⟨h, fun _ hlater => absurd hlater List.not_mem_nil⟩
    · rintro (⟨before, after, hnil, -⟩ | ⟨h, -⟩)
      · cases before with
        | nil => cases hnil
        | cons head before => cases hnil
      · exact h
  | append_singleton written last ih =>
    rw [overwriteAll, List.foldl_append, ← overwriteAll]
    change other = last ∨ (other ∈ overwriteAll same written rows ∧ ¬ same other last) ↔ _
    rw [ih]
    constructor
    · rintro (rfl | ⟨⟨before, after, rfl, hafter⟩ | ⟨h, hwritten⟩, hlast⟩)
      · exact Or.inl ⟨written, [], rfl, fun _ hlater => absurd hlater List.not_mem_nil⟩
      · refine Or.inl ⟨before, after ++ [last], List.append_assoc _ _ _, ?_⟩
        intro later hlater
        rcases List.mem_append.mp hlater with hlater | hlater
        · exact hafter later hlater
        · rw [List.mem_singleton.mp hlater]
          exact hlast
      · refine Or.inr ⟨h, ?_⟩
        intro later hlater
        rcases List.mem_append.mp hlater with hlater | hlater
        · exact hwritten later hlater
        · rw [List.mem_singleton.mp hlater]
          exact hlast
    · rintro (⟨before, after, heq, hafter⟩ | ⟨h, hwritten⟩)
      · rcases List.eq_nil_or_concat after with rfl | ⟨after, x, rfl⟩
        · exact Or.inl (List.singleton_inj.mp (List.append_inj_right' heq rfl)).symm
        · have hassoc : before ++ other :: after.concat x = (before ++ other :: after) ++ [x] := by
            rw [List.concat_eq_append, List.append_assoc, List.cons_append]
          rw [hassoc] at heq
          obtain ⟨rfl, hx⟩ := List.append_inj' heq rfl
          cases hx
          refine Or.inr ⟨Or.inl ⟨before, after, rfl, ?_⟩, hafter last (by simp)⟩
          exact fun later hlater => hafter later (by simp [hlater])
      · refine Or.inr ⟨Or.inr ⟨h, ?_⟩, hwritten last (by simp)⟩
        exact fun later hlater => hwritten later (List.mem_append_left _ hlater)

theorem separated_overwrite (hsymm : ∀ a b, same a b → same b a) (h : Separated same rows) :
  Separated same (overwrite same row rows)
  := by
  intro a ha b hb hne
  rcases ha with rfl | ⟨ha, hrow⟩
  · rcases hb with rfl | ⟨hb, hrow⟩
    · exact absurd rfl hne
    · exact fun hsame => hrow (hsymm _ _ hsame)
  · rcases hb with rfl | ⟨hb, -⟩
    · exact hrow
    · exact h ha hb hne

theorem separated_overwriteAll (hsymm : ∀ a b, same a b → same b a) (h : Separated same rows) :
  Separated same (overwriteAll same written rows)
  := by
  induction written generalizing rows with
  | nil => exact h
  | cons row written ih => exact ih (separated_overwrite hsymm h)

/-- Every slot that is written to has a last row. -/
theorem exists_last (hsame : Equivalence same) {x : ρ} (hx : x ∈ written) :
  ∃ y ∈ overwriteAll same written rows, y ∈ written ∧ same x y
  := by
  induction written generalizing rows x with
  | nil => cases hx
  | cons head written ih =>
    rcases List.mem_cons.mp hx with rfl | hx
    · by_cases hlater : ∃ y ∈ written, same x y
      · obtain ⟨y, hy, hxy⟩ := hlater
        obtain ⟨z, hz, hmem, hyz⟩ := @ih (overwrite same x rows) y hy
        exact ⟨z, hz, List.mem_cons_of_mem _ hmem, hsame.trans hxy hyz⟩
      · refine ⟨x, mem_overwriteAll.mpr (Or.inl ⟨[], written, rfl, ?_⟩), hx, hsame.refl x⟩
        exact fun later hmem hsame' => hlater ⟨later, hmem, hsame'⟩
    · obtain ⟨y, hy, hmem, hxy⟩ := @ih (overwrite same head rows) x hx
      exact ⟨y, hy, List.mem_cons_of_mem _ hmem, hxy⟩

/-- The rows that are left are exactly the written ones when no two of these are in one slot and
each row before is in the slot of one of them. -/
theorem overwriteAll_exact_iff (hsame : Equivalence same) (hrows : Separated same rows) :
  (∀ row, row ∈ overwriteAll same written rows ↔ row ∈ written) ↔
    (∀ a ∈ written, ∀ b ∈ written, same a b → a = b) ∧ ∀ row ∈ rows, ∃ a ∈ written, same row a
  := by
  constructor
  · intro hexact
    constructor
    · intro a ha b hb hab
      by_contra hne
      have hseparated := @separated_overwriteAll ρ same rows written (fun _ _ => hsame.symm) hrows
      exact hseparated ((hexact a).mpr ha) ((hexact b).mpr hb) hne hab
    · intro row hrow
      by_contra hnone
      push Not at hnone
      have hleft := (hexact row).mp (mem_overwriteAll.mpr (Or.inr ⟨hrow, hnone⟩))
      exact hnone row hleft (hsame.refl row)
  · rintro ⟨hwritten, hcovered⟩ row
    constructor
    · intro h
      rcases mem_overwriteAll.mp h with ⟨before, after, rfl, -⟩ | ⟨hrow, hnone⟩
      · exact List.mem_append_right _ List.mem_cons_self
      · obtain ⟨a, ha, hsame'⟩ := hcovered row hrow
        exact absurd hsame' (hnone a ha)
    · intro h
      obtain ⟨y, hy, hmem, hrowy⟩ := @exists_last ρ same rows written hsame row h
      rw [hwritten row h y hmem hrowy]
      exact hy

end Overwrite

/-! ### Rows that are dropped when there is one already -/

section Fill

variable {κ π β : Type*}

/-- The rows when one has been added, unless there is one with its key. -/
def fill [DecidableEq κ] (row : κ × β) (rows : List (κ × β)) : List (κ × β) :=
  if rows.any fun other => other.1 = row.1 then rows else rows ++ [row]

/-- The rows when some have been added one after another. -/
def fillAll [DecidableEq κ] (added : List (κ × β)) (rows : List (κ × β)) : List (κ × β) :=
  added.foldl (fun rows row => fill row rows) rows

/-- The first row with each key. -/
def firsts (added : List (κ × β)) : Set (κ × β) :=
  {row | ∃ before after, added = before ++ row :: after ∧ ∀ other ∈ before, other.1 ≠ row.1}

variable [DecidableEq κ] {row : κ × β} {rows added : List (κ × β)}

theorem mem_fill {other : κ × β} :
  other ∈ fill row rows ↔ other ∈ rows ∨ (other = row ∧ ∀ prior ∈ rows, prior.1 ≠ row.1)
  := by
  rw [fill]
  by_cases hany : (rows.any fun prior => prior.1 = row.1) = true
  · rw [if_pos hany]
    obtain ⟨prior, hprior, heq⟩ := List.any_eq_true.mp hany
    constructor
    · exact Or.inl
    · rintro (h | ⟨-, hnone⟩)
      · exact h
      · exact absurd (of_decide_eq_true heq) (hnone prior hprior)
  · rw [if_neg hany, List.mem_append, List.mem_singleton]
    have hnone : ∀ prior ∈ rows, prior.1 ≠ row.1 := by
      intro prior hprior heq
      exact hany (List.any_eq_true.mpr ⟨prior, hprior, decide_eq_true heq⟩)
    exact or_congr_right (and_iff_left hnone).symm

omit [DecidableEq κ] in
theorem mem_firsts_cons {first : κ × β} :
  row ∈ firsts (first :: added) ↔ row = first ∨ (row ∈ firsts added ∧ first.1 ≠ row.1)
  := by
  constructor
  · rintro ⟨before, after, heq, hbefore⟩
    cases before with
    | nil => exact Or.inl (List.cons.inj heq).1.symm
    | cons x before =>
      obtain ⟨rfl, rfl⟩ := List.cons.inj heq
      obtain ⟨hx, hbefore⟩ := List.forall_mem_cons.mp hbefore
      exact Or.inr ⟨⟨before, after, rfl, hbefore⟩, hx⟩
  · rintro (rfl | ⟨⟨before, after, rfl, hbefore⟩, hne⟩)
    · exact ⟨[], added, rfl, fun _ hother => absurd hother List.not_mem_nil⟩
    · exact ⟨first :: before, after, rfl, List.forall_mem_cons.mpr ⟨hne, hbefore⟩⟩

omit [DecidableEq κ] in
theorem mem_of_firsts (h : row ∈ firsts added) :
  row ∈ added
  := by
  obtain ⟨before, after, rfl, -⟩ := h
  exact List.mem_append_right _ List.mem_cons_self

omit [DecidableEq κ] in
/-- Two first rows with one key are the same. -/
theorem firsts_unique {a b : κ × β} (ha : a ∈ firsts added) (hb : b ∈ firsts added)
    (hkey : a.1 = b.1) :
  a = b
  := by
  induction added with
  | nil => exact absurd (mem_of_firsts ha) List.not_mem_nil
  | cons first added ih =>
    rcases mem_firsts_cons.mp ha with rfl | ⟨ha, hfirst⟩
    · rcases mem_firsts_cons.mp hb with rfl | ⟨-, hfirst⟩
      · rfl
      · exact absurd hkey hfirst
    · rcases mem_firsts_cons.mp hb with rfl | ⟨hb, -⟩
      · exact absurd hkey.symm hfirst
      · exact ih ha hb

/-- Every key of an added row has a first row. -/
theorem exists_first (h : row ∈ added) :
  ∃ first ∈ firsts added, first.1 = row.1
  := by
  induction added with
  | nil => cases h
  | cons head added ih =>
    by_cases hhead : head.1 = row.1
    · exact ⟨head, mem_firsts_cons.mpr (Or.inl rfl), hhead⟩
    · rcases List.mem_cons.mp h with rfl | h
      · exact absurd rfl hhead
      · obtain ⟨first, hfirst, hkey⟩ := ih h
        exact ⟨first, mem_firsts_cons.mpr (Or.inr ⟨hfirst, hkey ▸ hhead⟩), hkey⟩

/-- What is there afterwards are the rows before, and the first rows of the other keys. -/
theorem mem_fillAll :
  row ∈ fillAll added rows ↔
    row ∈ rows ∨ (row ∈ firsts added ∧ ∀ prior ∈ rows, prior.1 ≠ row.1)
  := by
  induction added generalizing rows with
  | nil =>
    constructor
    · exact Or.inl
    · rintro (h | ⟨h, -⟩)
      · exact h
      · exact absurd (mem_of_firsts h) List.not_mem_nil
  | cons head added ih =>
    rw [fillAll, List.foldl_cons, ← fillAll, ih, mem_firsts_cons]
    simp only [mem_fill]
    constructor
    · rintro ((h | ⟨rfl, hnone⟩) | ⟨h, hnone⟩)
      · exact Or.inl h
      · exact Or.inr ⟨Or.inl rfl, hnone⟩
      · have hrows : ∀ prior ∈ rows, prior.1 ≠ row.1 := fun prior hprior =>
          hnone prior (Or.inl hprior)
        refine Or.inr ⟨Or.inr ⟨h, ?_⟩, hrows⟩
        intro heq
        exact hnone head (Or.inr ⟨rfl, fun prior hprior => heq ▸ hrows prior hprior⟩) heq
    · rintro (h | ⟨rfl | ⟨h, hne⟩, hnone⟩)
      · exact Or.inl (Or.inl h)
      · exact Or.inl (Or.inr ⟨rfl, hnone⟩)
      · refine Or.inr ⟨h, ?_⟩
        rintro prior (hprior | ⟨rfl, -⟩)
        · exact hnone prior hprior
        · exact hne

/-! #### Keys that are written in another form -/

variable {readable : π → Prop} {form : π → κ} {written : List (π × β)}

/-- The rows that are read from a table whose keys have another form. -/
def readBack (readable : π → Prop) (form : π → κ) (rows : List (κ × β)) : Set (π × β) :=
  {row | readable row.1 ∧ (form row.1, row.2) ∈ rows}

/-- The rows in the other form. -/
def inForm (form : π → κ) (written : List (π × β)) : List (κ × β) :=
  written.map fun row => (form row.1, row.2)

omit [DecidableEq κ] in
theorem firsts_inForm (hform : ∀ a b, readable a → readable b → form a = form b → a = b)
    (hwritten : ∀ row ∈ written, readable row.1) {row : π × β} (hrow : readable row.1) :
  (form row.1, row.2) ∈ firsts (inForm form written) ↔ row ∈ firsts written
  := by
  induction written with
  | nil =>
    constructor
    · intro h
      exact absurd (mem_of_firsts h) List.not_mem_nil
    · intro h
      exact absurd (mem_of_firsts h) List.not_mem_nil
  | cons head written ih =>
    obtain ⟨hhead, hwritten⟩ := List.forall_mem_cons.mp hwritten
    rw [inForm, List.map_cons, mem_firsts_cons, mem_firsts_cons, ← inForm, ih hwritten]
    have hkey : form head.1 = form row.1 ↔ head.1 = row.1 :=
      ⟨hform _ _ hhead hrow, congrArg form⟩
    apply or_congr
    · constructor
      · intro heq
        obtain ⟨hfst, hsnd⟩ := Prod.ext_iff.mp heq
        exact Prod.ext (hkey.mp hfst.symm).symm hsnd
      · rintro rfl
        rfl
    · exact and_congr_right fun _ => not_congr hkey

/-- What is read back are exactly the first rows of what was written, when the rows before are
among them and the keys of all of them can be read. -/
theorem readBack_exact_iff (hform : ∀ a b, readable a → readable b → form a = form b → a = b) :
  readBack readable form (fillAll (inForm form written) rows) = firsts written ↔
    readBack readable form rows ⊆ firsts written ∧ ∀ row ∈ firsts written, readable row.1
  := by
  constructor
  · intro hexact
    constructor
    · rintro row ⟨hreadable, hrow⟩
      rw [← hexact]
      exact ⟨hreadable, mem_fillAll.mpr (Or.inl hrow)⟩
    · intro row hrow
      rw [← hexact] at hrow
      exact hrow.1
  · rintro ⟨hrows, hreadable⟩
    have hwritten : ∀ row ∈ written, readable row.1 := by
      classical
      intro row hrow
      obtain ⟨first, hfirst, hkey⟩ := exists_first hrow
      rw [← hkey]
      exact hreadable first hfirst
    apply Set.Subset.antisymm
    · rintro row ⟨hrow, hmem⟩
      rcases mem_fillAll.mp hmem with hmem | ⟨hmem, -⟩
      · exact hrows ⟨hrow, hmem⟩
      · exact (firsts_inForm hform hwritten hrow).mp hmem
    · intro row hrow
      have hread := hreadable row hrow
      refine ⟨hread, mem_fillAll.mpr ?_⟩
      by_cases hprior : ∃ prior ∈ rows, prior.1 = form row.1
      · obtain ⟨prior, hprior, hkey⟩ := hprior
        have hfirst : (row.1, prior.2) ∈ firsts written := by
          apply hrows
          refine ⟨hread, ?_⟩
          rw [← hkey]
          exact hprior
        have heq := firsts_unique hfirst hrow rfl
        have hsnd : prior.2 = row.2 := congrArg Prod.snd heq
        rw [← hkey, ← hsnd]
        exact Or.inl hprior
      · push Not at hprior
        exact Or.inr ⟨(firsts_inForm hform hwritten hread).mpr hrow, hprior⟩

end Fill

end Logic
