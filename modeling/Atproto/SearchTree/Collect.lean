import Atproto.SearchTree.SortedList

/-!
# Collecting pairs into a map

Pairs with distinct keys are collected into a map, or put into another order of their
keys.  Either way the result is the one arrangement of the pairs in that order.
-/

namespace SearchTree

variable {K V : Type}

/-- The keys of the pairs are distinct. -/
def Distinct (xs : List (K × V)) : Prop := xs.Pairwise fun a b => a.1 ≠ b.1

theorem Distinct.perm {xs ys : List (K × V)} (h : Distinct xs) (hperm : xs.Perm ys) :
  Distinct ys
  := List.Pairwise.perm h hperm fun hne => hne.symm

theorem Distinct.eq_of_mem {xs : List (K × V)} (h : Distinct xs) {x y : K × V} (hx : x ∈ xs)
    (hy : y ∈ xs) (hkey : x.1 = y.1) :
  x = y
  := by
  induction xs with
  | nil => cases hx
  | cons z xs ih =>
    obtain ⟨hz, hxs⟩ := List.pairwise_cons.mp h
    obtain rfl | hx' := List.mem_cons.mp hx
    · obtain rfl | hy' := List.mem_cons.mp hy
      · rfl
      · exact absurd hkey (hz y hy')
    · obtain rfl | hy' := List.mem_cons.mp hy
      · exact absurd hkey.symm (hz x hx')
      · exact ih hxs hx' hy'

/-- Pairs with distinct keys have one arrangement in a given order of the keys. -/
theorem Distinct.arrangement_unique {R : K → K → Prop} (hanti : ∀ a b, R a b → R b a → a = b)
    {xs ys : List (K × V)} (h : Distinct ys) (hxs : xs.Pairwise fun a b => R a.1 b.1)
    (hys : ys.Pairwise fun a b => R a.1 b.1) (hperm : xs.Perm ys) :
  xs = ys
  := by
  apply hperm.eq_of_pairwise _ hxs hys
  intro a b ha hb hab hba
  exact h.eq_of_mem (hperm.subset ha) hb (hanti _ _ hab hba)

/-! ### Maps -/

variable [LinearOrder K]

/-- Insert pairs into a map one after another. -/
def collect (pairs : List (K × V)) : List (K × V) :=
  pairs.foldl (fun xs pair => insert pair.1 pair.2 xs) []

theorem Sorted.distinct {xs : List (K × V)} (h : Sorted xs) :
  Distinct xs
  := h.imp fun hlt => hlt.ne

/-- Inserting a new key adds its pair. -/
theorem insert_perm {k : K} {v : V} {xs : List (K × V)} (h : ∀ x ∈ xs, x.1 ≠ k) :
  (insert k v xs).Perm ((k, v) :: xs)
  := by
  have habove : above k xs = xs.filter fun x => !decide (x.1 < k) := by
    apply List.filter_congr
    intro x hx
    rw [← decide_not, decide_eq_decide, not_lt]
    exact ⟨le_of_lt, fun hle => hle.lt_of_ne (h x hx).symm⟩
  calc (insert k v xs).Perm ((k, v) :: (below k xs ++ above k xs)) := List.perm_middle
    _ = (k, v) :: (xs.filter (fun x => decide (x.1 < k)) ++
        xs.filter fun x => !decide (x.1 < k)) := by rw [habove, below]
    List.Perm _ ((k, v) :: xs) := (List.filter_append_perm _ xs).cons (k, v)

theorem foldl_insert_spec (pairs : List (K × V)) {xs : List (K × V)} (hxs : Sorted xs)
    (hdistinct : Distinct (xs ++ pairs)) :
  Sorted (pairs.foldl (fun xs pair => insert pair.1 pair.2 xs) xs) ∧
    (pairs.foldl (fun xs pair => insert pair.1 pair.2 xs) xs).Perm (xs ++ pairs)
  := by
  induction pairs generalizing xs with
  | nil =>
    rw [List.append_nil]
    exact ⟨hxs, List.Perm.refl xs⟩
  | cons pair pairs ih =>
    have hnew : ∀ x ∈ xs, x.1 ≠ pair.1 := fun x hx =>
      (List.pairwise_append.mp hdistinct).2.2 x hx pair List.mem_cons_self
    have hperm : (insert pair.1 pair.2 xs ++ pairs).Perm (xs ++ pair :: pairs) :=
      ((insert_perm hnew).append_right pairs).trans List.perm_middle.symm
    obtain ⟨hsorted, hfold⟩ := ih (hxs.insert pair.1 pair.2) (hdistinct.perm hperm.symm)
    exact ⟨hsorted, hfold.trans hperm⟩

/-- Collecting the pairs of a map in any order gives the map. -/
theorem collect_eq {pairs xs : List (K × V)} (hxs : Sorted xs) (hperm : pairs.Perm xs) :
  collect pairs = xs
  := by
  obtain ⟨hsorted, hcollect⟩ :=
    foldl_insert_spec pairs Sorted.nil (hxs.distinct.perm hperm.symm)
  exact hxs.distinct.arrangement_unique (fun a b hab hba => absurd hba hab.asymm) hsorted hxs
    (hcollect.trans hperm)

/-- Collecting pairs with distinct keys keeps them. -/
theorem collect_spec {pairs : List (K × V)} (h : Distinct pairs) :
  Sorted (collect pairs) ∧ (collect pairs).Perm pairs
  := foldl_insert_spec pairs Sorted.nil h

end SearchTree
