import Atproto.SearchTree.SortedList
import Mathlib.Algebra.BigOperators.Group.List.Basic

/-!
# Totals and values of finite maps

The total of a function over the pairs of a sorted list, and how it changes when the value of
one key does.  A map over the values keeps the keys.
-/

namespace SearchTree

variable {K V G : Type} [AddCommGroup G]

/-- The sum of a function over the pairs of a list. -/
def total (f : K × V → G) (xs : List (K × V)) : G := (xs.map f).sum

variable {f : K × V → G} {xs ys : List (K × V)}

theorem total_append :
  total f (xs ++ ys) = total f xs + total f ys
  := by
  rw [total, List.map_append, List.sum_append]
  rfl

theorem total_cons {x : K × V} :
  total f (x :: xs) = f x + total f xs
  := by
  rw [total, List.map_cons, List.sum_cons]
  rfl

variable [LinearOrder K] {k : K} {v w : V}

/-- A new value adds its own term to the total of the other keys. -/
theorem total_insert :
  total f (insert k v xs) = total f (erase k xs) + f (k, v)
  := by
  rw [insert, erase, total_append, total_append, total_cons, add_comm (f (k, v)), add_assoc]

/-- Removing a key takes its term out of the total. -/
theorem total_erase (hs : Sorted xs) (h : lookup k xs = some w) :
  total f (erase k xs) = total f xs - f (k, w)
  := by
  have hxs : insert k w xs = xs := by
    apply (hs.insert k w).ext hs
    intro k'
    rw [lookup_insert]
    split
    · rename_i heq
      rw [heq, h]
    · rfl
  rw [eq_sub_iff_add_eq, ← total_insert, hxs]

/-- A key that is not there has no term. -/
theorem total_erase_of_none (hs : Sorted xs) (h : lookup k xs = none) :
  total f (erase k xs) = total f xs
  := by
  congr 1
  apply (hs.erase k).ext hs
  intro k'
  rw [lookup_erase]
  split
  · rename_i heq
    rw [heq, h]
  · rfl

/-! ### Values -/

/-- Replace each value by a function of it. -/
def mapValues {W : Type} (g : V → W) (xs : List (K × V)) : List (K × W) :=
  xs.map fun x => (x.1, g x.2)

variable {W : Type} {g : V → W}

theorem mapValues_below :
  mapValues g (below k xs) = below k (mapValues g xs)
  := by
  rw [mapValues, mapValues, below, below, List.filter_map]
  rfl

theorem mapValues_above :
  mapValues g (above k xs) = above k (mapValues g xs)
  := by
  rw [mapValues, mapValues, above, above, List.filter_map]
  rfl

theorem mapValues_insert :
  mapValues g (insert k v xs) = insert k (g v) (mapValues g xs)
  := by
  rw [insert, insert, ← mapValues_below, ← mapValues_above, mapValues, List.map_append,
    List.map_cons]
  rfl

theorem mapValues_erase :
  mapValues g (erase k xs) = erase k (mapValues g xs)
  := by
  rw [erase, erase, ← mapValues_below, ← mapValues_above, mapValues, List.map_append]
  rfl

end SearchTree
