import Mathlib.Data.List.Sort
import Mathlib.Order.Lattice

/-!
# Finite maps as sorted lists

A finite map from a linearly ordered type of keys is a list of pairs with strictly
increasing keys.  Every operation at a key `k` leaves the pairs below and above `k` alone,
which is what `AgreeOff` says.
-/

namespace SearchTree

variable {K V : Type} [LinearOrder K]

/-- The keys of the list increase strictly. -/
def Sorted (xs : List (K × V)) : Prop := xs.Pairwise fun a b => a.1 < b.1

/-- The pairs with a key below `k`. -/
def below (k : K) (xs : List (K × V)) : List (K × V) := xs.filter fun x => x.1 < k

/-- The pairs with a key above `k`. -/
def above (k : K) (xs : List (K × V)) : List (K × V) := xs.filter fun x => k < x.1

/-- The value of a key. -/
@[grind =]
def lookup (k : K) : List (K × V) → Option V
  | [] => none
  | x :: xs => if x.1 = k then some x.2 else lookup k xs

/-- Give the key `k` the value `v`. -/
def insert (k : K) (v : V) (xs : List (K × V)) : List (K × V) :=
  below k xs ++ (k, v) :: above k xs

/-- Remove the key `k`. -/
def erase (k : K) (xs : List (K × V)) : List (K × V) := below k xs ++ above k xs

/-- Two lists agree below and above `k`. -/
def AgreeOff (k : K) (xs ys : List (K × V)) : Prop :=
  below k xs = below k ys ∧ above k xs = above k ys

/-- What is below a key is smaller than it. -/
theorem lt_of_mem_below {k : K} {xs : List (K × V)} {x : K × V} (h : x ∈ below k xs) :
  x.1 < k
  := by
  simpa using List.of_mem_filter h

/-- What is above a key is greater than it. -/
theorem lt_of_mem_above {k : K} {xs : List (K × V)} {x : K × V} (h : x ∈ above k xs) :
  k < x.1
  := by
  simpa using List.of_mem_filter h

theorem mem_of_mem_below {k : K} {xs : List (K × V)} {x : K × V} (h : x ∈ below k xs) :
  x ∈ xs
  := List.mem_of_mem_filter h

theorem mem_of_mem_above {k : K} {xs : List (K × V)} {x : K × V} (h : x ∈ above k xs) :
  x ∈ xs
  := List.mem_of_mem_filter h

/-- The part below a key, of two lists put together. -/
@[simp]
theorem below_append (k : K) (xs ys : List (K × V)) :
  below k (xs ++ ys) = below k xs ++ below k ys
  := List.filter_append xs ys

/-- The part above a key, of two lists put together. -/
@[simp]
theorem above_append (k : K) (xs ys : List (K × V)) :
  above k (xs ++ ys) = above k xs ++ above k ys
  := List.filter_append xs ys

/-- A list of smaller keys is its own part below a key. -/
theorem below_eq_self {k : K} {xs : List (K × V)} (h : ∀ x ∈ xs, x.1 < k) :
  below k xs = xs
  := by
  rw [below, List.filter_eq_self]
  simpa using h

/-- A list without smaller keys has no part below a key. -/
theorem below_eq_nil {k : K} {xs : List (K × V)} (h : ∀ x ∈ xs, k ≤ x.1) :
  below k xs = []
  := by
  rw [below, List.filter_eq_nil_iff]
  simpa using h

/-- A list of greater keys is its own part above a key. -/
theorem above_eq_self {k : K} {xs : List (K × V)} (h : ∀ x ∈ xs, k < x.1) :
  above k xs = xs
  := by
  rw [above, List.filter_eq_self]
  simpa using h

/-- A list without greater keys has no part above a key. -/
theorem above_eq_nil {k : K} {xs : List (K × V)} (h : ∀ x ∈ xs, x.1 ≤ k) :
  above k xs = []
  := by
  rw [above, List.filter_eq_nil_iff]
  simpa using h

theorem below_cons_self (k : K) (v : V) (xs : List (K × V)) :
  below k ((k, v) :: xs) = below k xs
  := by
  simp [below]

theorem above_cons_self (k : K) (v : V) (xs : List (K × V)) :
  above k ((k, v) :: xs) = above k xs
  := by
  simp [above]

namespace Sorted

variable {xs ys zs : List (K × V)}

theorem nil :
  Sorted ([] : List (K × V))
  := List.Pairwise.nil

theorem left (h : Sorted (xs ++ ys)) :
  Sorted xs
  := (List.pairwise_append.mp h).1

theorem right (h : Sorted (xs ++ ys)) :
  Sorted ys
  := (List.pairwise_append.mp h).2.1

/-- In a sorted list the keys of a first part are smaller than those of the rest. -/
theorem lt (h : Sorted (xs ++ ys)) {x y : K × V} (hx : x ∈ xs) (hy : y ∈ ys) :
  x.1 < y.1
  := (List.pairwise_append.mp h).2.2 x hx y hy

/-- Sorted lists are put together to one when all keys of the first are smaller. -/
theorem append (hxs : Sorted xs) (hys : Sorted ys) (h : ∀ x ∈ xs, ∀ y ∈ ys, x.1 < y.1) :
  Sorted (xs ++ ys)
  := List.pairwise_append.mpr ⟨hxs, hys, h⟩

/-- The first key of a sorted list is smaller than the others. -/
theorem cons_lt {x : K × V} (h : Sorted (x :: xs)) {y : K × V} (hy : y ∈ xs) :
  x.1 < y.1
  := (List.pairwise_cons.mp h).1 y hy

theorem tail {x : K × V} (h : Sorted (x :: xs)) :
  Sorted xs
  := (List.pairwise_cons.mp h).2

/-- A smaller key is put before a sorted list. -/
theorem cons {x : K × V} (hxs : Sorted xs) (h : ∀ y ∈ xs, x.1 < y.1) :
  Sorted (x :: xs)
  := List.pairwise_cons.mpr ⟨h, hxs⟩

theorem below (h : Sorted xs) (k : K) :
  Sorted (below k xs)
  := List.Pairwise.filter _ h

theorem above (h : Sorted xs) (k : K) :
  Sorted (above k xs)
  := List.Pairwise.filter _ h

/-- Storing a value under a key keeps a list sorted. -/
theorem insert (h : Sorted xs) (k : K) (v : V) :
  Sorted (insert k v xs)
  := by
  apply append (h.below k)
  · apply cons (h.above k)
    intro y hy
    exact lt_of_mem_above hy
  · intro x hx y hy
    have hxk := lt_of_mem_below hx
    obtain rfl | hy := List.mem_cons.mp hy
    · exact hxk
    · exact hxk.trans (lt_of_mem_above hy)

/-- Removing a key keeps a list sorted. -/
theorem erase (h : Sorted xs) (k : K) :
  Sorted (erase k xs)
  := by
  apply append (h.below k) (h.above k)
  intro x hx y hy
  exact (lt_of_mem_below hx).trans (lt_of_mem_above hy)

end Sorted

/-! ### Looking up a key -/

@[simp]
theorem lookup_nil (k : K) :
  lookup k ([] : List (K × V)) = none
  := rfl

/-- A key is looked up in the first part of a list, and then in the rest. -/
@[simp]
theorem lookup_append (k : K) (xs ys : List (K × V)) :
  lookup k (xs ++ ys) = (lookup k xs).or (lookup k ys)
  := by
  induction xs with
  | nil => rfl
  | cons x xs ih =>
    rw [List.cons_append, lookup, lookup, ih]
    split_ifs
    · rfl
    · rfl

/-- A key is found when it is among the keys. -/
theorem lookup_isSome_iff {k : K} {xs : List (K × V)} :
  (lookup k xs).isSome = true ↔ k ∈ xs.map Prod.fst
  := by
  induction xs with
  | nil => exact iff_of_false Bool.noConfusion List.not_mem_nil
  | cons x xs ih =>
    rw [lookup, List.map_cons, List.mem_cons]
    by_cases h : x.1 = k
    · rw [if_pos h]
      exact iff_of_true rfl (Or.inl h.symm)
    · rw [if_neg h, ih]
      exact (or_iff_right fun heq => h heq.symm).symm

/-- A key that is in no pair has no value. -/
theorem lookup_eq_none {k : K} {xs : List (K × V)} (h : ∀ x ∈ xs, x.1 ≠ k) :
  lookup k xs = none
  := by
  induction xs with
  | nil => rfl
  | cons x xs ih =>
    rw [lookup, if_neg (h x List.mem_cons_self)]
    exact ih fun y hy => h y (List.mem_cons_of_mem x hy)

/-- A value that is found is in a pair of the list. -/
theorem mem_of_lookup {k : K} {v : V} {xs : List (K × V)} (h : lookup k xs = some v) :
  (k, v) ∈ xs
  := by
  induction xs with
  | nil => cases h
  | cons x xs ih =>
    rw [lookup] at h
    split_ifs at h with hx
    · obtain ⟨key, value⟩ := x
      cases hx
      cases h
      exact List.mem_cons_self
    · exact List.mem_cons_of_mem x (ih h)

/-- In a sorted list every pair is found. -/
theorem Sorted.lookup_of_mem {k : K} {v : V} {xs : List (K × V)} (hs : Sorted xs)
    (h : (k, v) ∈ xs) :
  lookup k xs = some v
  := by
  induction xs with
  | nil => cases h
  | cons x xs ih =>
    obtain rfl | h := List.mem_cons.mp h
    · simp [lookup]
    · have hlt := hs.cons_lt h
      rw [lookup, if_neg hlt.ne]
      exact ih hs.tail h

/-- A sorted list is determined by the values it gives to keys. -/
theorem Sorted.ext {xs ys : List (K × V)} (hxs : Sorted xs) (hys : Sorted ys)
    (h : ∀ k, lookup k xs = lookup k ys) :
  xs = ys
  := by
  have hmem : ∀ x, x ∈ xs ↔ x ∈ ys := by
    rintro ⟨k, v⟩
    constructor
    · intro hx
      exact mem_of_lookup ((h k).symm.trans (hxs.lookup_of_mem hx))
    · intro hy
      exact mem_of_lookup ((h k).trans (hys.lookup_of_mem hy))
  have hperm : xs.Perm ys := by
    apply (List.perm_ext_iff_of_nodup _ _).mpr hmem
    · exact hxs.imp fun hlt heq => hlt.ne (congrArg Prod.fst heq)
    · exact hys.imp fun hlt heq => hlt.ne (congrArg Prod.fst heq)
  apply hperm.eq_of_pairwise _ hxs hys
  intro a b _ _ hab hba
  exact absurd hba hab.asymm

/-- A sorted list among some pairs in the order of their keys is one of their sublists. -/
theorem Sorted.sublist {pairs xs : List (K × V)} (hxs : Sorted xs)
    (hpairs : pairs.Pairwise fun a b => a.1 ≤ b.1) (hmem : ∀ x ∈ xs, x ∈ pairs) :
  xs.Sublist pairs
  := by
  induction pairs generalizing xs with
  | nil =>
    cases xs with
    | nil => exact List.Sublist.refl []
    | cons x xs => cases hmem x List.mem_cons_self
  | cons pair pairs ih =>
    obtain ⟨hpair, hpairs⟩ := List.pairwise_cons.mp hpairs
    cases xs with
    | nil => exact List.nil_sublist _
    | cons x xs =>
      obtain ⟨hx, hsorted⟩ := List.pairwise_cons.mp hxs
      obtain ⟨hfirst, hmem⟩ := List.forall_mem_cons.mp hmem
      obtain heq | hin := List.mem_cons.mp hfirst
      · rw [heq]
        apply (ih hsorted hpairs _).cons_cons
        intro y hy
        obtain rfl | hin := List.mem_cons.mp (hmem y hy)
        · rw [heq] at hx
          exact absurd (hx y hy) (lt_irrefl _)
        · exact hin
      · apply (ih hxs hpairs _).cons
        intro y hy
        obtain rfl | hy := List.mem_cons.mp hy
        · exact hin
        · obtain rfl | hyin := List.mem_cons.mp (hmem y hy)
          · exact absurd (hx y hy) (not_lt_of_ge (hpair x hin))
          · exact hyin

/-- The pairs that are left after a key was removed were there, under other keys. -/
theorem mem_of_mem_erase {k : K} {xs : List (K × V)} {x : K × V}
    (h : x ∈ erase k xs) :
  x ∈ xs ∧ x.1 ≠ k
  := by
  rcases List.mem_append.mp h with h | h
  · exact ⟨mem_of_mem_below h, (lt_of_mem_below h).ne⟩
  · exact ⟨mem_of_mem_above h, (lt_of_mem_above h).ne'⟩

/-- After a value was stored, the pairs are the new one and those that are left of the others. -/
theorem mem_insert {k : K} {v : V} {xs : List (K × V)} {x : K × V} :
  x ∈ insert k v xs ↔ x = (k, v) ∨ x ∈ erase k xs
  := by
  rw [insert, erase, List.mem_append, List.mem_append, List.mem_cons]
  constructor
  · rintro (h | h | h)
    · exact .inr (.inl h)
    · exact .inl h
    · exact .inr (.inr h)
  · rintro (h | h | h)
    · exact .inr (.inl h)
    · exact .inl h
    · exact .inr (.inr h)

/-- Below a key the smaller keys have their values, and no others. -/
theorem lookup_below (k k' : K) (xs : List (K × V)) :
  lookup k' (below k xs) = if k' < k then lookup k' xs else none
  := by
  induction xs with
  | nil => simp [below]
  | cons x xs ih =>
    by_cases hx : x.1 < k
    · rw [below, List.filter_cons_of_pos (by simpa using hx), lookup, lookup]
      by_cases heq : x.1 = k'
      · rw [if_pos heq, if_pos heq, if_pos (heq ▸ hx)]
      · rw [if_neg heq, if_neg heq]
        exact ih
    · rw [below, List.filter_cons_of_neg (by simpa using hx), lookup]
      by_cases heq : x.1 = k'
      · have hlt : ¬ k' < k := heq ▸ hx
        rw [if_neg hlt]
        exact ih.trans (if_neg hlt)
      · rw [if_neg heq]
        exact ih

/-- Above a key the greater keys have their values, and no others. -/
theorem lookup_above (k k' : K) (xs : List (K × V)) :
  lookup k' (above k xs) = if k < k' then lookup k' xs else none
  := by
  induction xs with
  | nil => simp [above]
  | cons x xs ih =>
    by_cases hx : k < x.1
    · rw [above, List.filter_cons_of_pos (by simpa using hx), lookup, lookup]
      by_cases heq : x.1 = k'
      · rw [if_pos heq, if_pos heq, if_pos (heq ▸ hx)]
      · rw [if_neg heq, if_neg heq]
        exact ih
    · rw [above, List.filter_cons_of_neg (by simpa using hx), lookup]
      by_cases heq : x.1 = k'
      · have hlt : ¬ k < k' := heq ▸ hx
        rw [if_neg hlt]
        exact ih.trans (if_neg hlt)
      · rw [if_neg heq]
        exact ih

/-- After a value was stored, its key has it and the others have what they had. -/
theorem lookup_insert (k k' : K) (v : V) (xs : List (K × V)) :
  lookup k' (insert k v xs) = if k' = k then some v else lookup k' xs
  := by
  rw [insert, lookup_append, lookup, lookup_below, lookup_above]
  obtain hlt | rfl | hgt := lt_trichotomy k' k
  · simp [hlt, hlt.ne, hlt.ne', hlt.asymm]
  · simp
  · simp [hgt, hgt.ne, hgt.ne', hgt.asymm]

/-- After a key was removed, it has no value and the others have what they had. -/
theorem lookup_erase (k k' : K) (xs : List (K × V)) :
  lookup k' (erase k xs) = if k' = k then none else lookup k' xs
  := by
  rw [erase, lookup_append, lookup_below, lookup_above]
  obtain hlt | rfl | hgt := lt_trichotomy k' k
  · simp [hlt, hlt.ne, hlt.asymm]
  · simp
  · simp [hgt, hgt.ne', hgt.asymm]

/-! ### Splitting at a key -/

/-- A sorted list that has no value at `k` is what is below `k` followed by what is above. -/
theorem Sorted.eq_erase {k : K} {xs : List (K × V)} (hs : Sorted xs)
    (h : lookup k xs = none) :
  xs = SearchTree.erase k xs
  := by
  apply hs.ext (hs.erase k)
  intro k'
  rw [lookup_erase]
  split_ifs with hk
  · rw [hk, h]
  · rfl

/-- A sorted list that has a value at `k` has it between what is below `k` and above. -/
theorem Sorted.eq_insert {k : K} {v : V} {xs : List (K × V)} (hs : Sorted xs)
    (h : lookup k xs = some v) :
  xs = SearchTree.insert k v xs
  := by
  apply hs.ext (hs.insert k v)
  intro k'
  rw [lookup_insert]
  split_ifs with hk
  · rw [hk, h]
  · rfl

/-- A sorted list is what is below `k` followed by what is not. -/
theorem Sorted.exists_split {xs : List (K × V)} (hs : Sorted xs) (k : K) :
  ∃ lo hi, xs = lo ++ hi ∧ (∀ x ∈ lo, x.1 < k) ∧ ∀ x ∈ hi, k ≤ x.1
  := by
  cases h : lookup k xs with
  | none =>
    use SearchTree.below k xs, SearchTree.above k xs, hs.eq_erase h
    exact ⟨fun _ => lt_of_mem_below, fun _ hx => (lt_of_mem_above hx).le⟩
  | some v =>
    use SearchTree.below k xs, (k, v) :: SearchTree.above k xs, hs.eq_insert h
    use fun _ => lt_of_mem_below
    intro x hx
    obtain rfl | hx := List.mem_cons.mp hx
    · exact le_refl k
    · exact (lt_of_mem_above hx).le

/-- The part above a key is the end of a sorted list. -/
theorem Sorted.exists_above {xs : List (K × V)} (hs : Sorted xs) (k : K) :
  ∃ lo, xs = lo ++ SearchTree.above k xs ∧ ∀ x ∈ lo, x.1 ≤ k
  := by
  cases h : lookup k xs with
  | none =>
    use SearchTree.below k xs, hs.eq_erase h
    exact fun _ hx => (lt_of_mem_below hx).le
  | some v =>
    use SearchTree.below k xs ++ [(k, v)]
    constructor
    · have heq := hs.eq_insert h
      rwa [SearchTree.insert, ← List.singleton_append, ← List.append_assoc] at heq
    · intro x hx
      obtain hx | hx := List.mem_append.mp hx
      · exact (lt_of_mem_below hx).le
      · rw [List.mem_singleton.mp hx]

/-- The part below a key is the beginning of a sorted list. -/
theorem Sorted.exists_below {xs : List (K × V)} (hs : Sorted xs) (k : K) :
  ∃ hi, xs = SearchTree.below k xs ++ hi ∧ ∀ x ∈ hi, k ≤ x.1
  := by
  cases h : lookup k xs with
  | none =>
    use SearchTree.above k xs, hs.eq_erase h
    exact fun _ hx => (lt_of_mem_above hx).le
  | some v =>
    use (k, v) :: SearchTree.above k xs, hs.eq_insert h
    intro x hx
    obtain rfl | hx := List.mem_cons.mp hx
    · exact le_refl k
    · exact (lt_of_mem_above hx).le

theorem insert_ne_nil (k : K) (v : V) (xs : List (K × V)) :
  insert k v xs ≠ []
  := List.append_ne_nil_of_right_ne_nil _ (List.cons_ne_nil _ _)

/-- A new key is stored between the smaller keys and the greater ones. -/
theorem insert_append {k : K} {lo hi : List (K × V)} (v : V) (hlo : ∀ x ∈ lo, x.1 < k)
    (hhi : ∀ x ∈ hi, k < x.1) :
  insert k v (lo ++ hi) = lo ++ (k, v) :: hi
  := by
  rw [insert, below_append, above_append, below_eq_self hlo, above_eq_self hhi,
    below_eq_nil fun x hx => (hhi x hx).le, above_eq_nil fun x hx => (hlo x hx).le,
    List.append_nil, List.nil_append]

/-- A value under a key that is there is replaced in its place. -/
theorem insert_append_cons {k : K} {lo hi : List (K × V)} (v w : V) (hlo : ∀ x ∈ lo, x.1 < k)
    (hhi : ∀ x ∈ hi, k < x.1) :
  insert k v (lo ++ (k, w) :: hi) = lo ++ (k, v) :: hi
  := by
  rw [insert, below_append, above_append, below_cons_self, above_cons_self, below_eq_self hlo,
    above_eq_self hhi, below_eq_nil fun x hx => (hhi x hx).le,
    above_eq_nil fun x hx => (hlo x hx).le, List.append_nil, List.nil_append]

/-- A key is removed from its place. -/
theorem erase_append_cons {k : K} {lo hi : List (K × V)} (w : V) (hlo : ∀ x ∈ lo, x.1 < k)
    (hhi : ∀ x ∈ hi, k < x.1) :
  erase k (lo ++ (k, w) :: hi) = lo ++ hi
  := by
  rw [erase, below_append, above_append, below_cons_self, above_cons_self, below_eq_self hlo,
    above_eq_self hhi, below_eq_nil fun x hx => (hhi x hx).le,
    above_eq_nil fun x hx => (hlo x hx).le, List.append_nil, List.nil_append]

/-- Inserting into a middle segment that spans `k` inserts into the whole. -/
theorem insert_middle {k : K} {lo mid hi : List (K × V)} (v : V) (hlo : ∀ x ∈ lo, x.1 < k)
    (hhi : ∀ x ∈ hi, k < x.1) :
  insert k v (lo ++ mid ++ hi) = lo ++ insert k v mid ++ hi
  := by
  simp only [insert, below_append, above_append, below_eq_self hlo, above_eq_self hhi,
    below_eq_nil fun x hx => (hhi x hx).le, above_eq_nil fun x hx => (hlo x hx).le]
  simp

/-- Erasing from a middle segment that spans `k` erases from the whole. -/
theorem erase_middle {k : K} {lo mid hi : List (K × V)} (hlo : ∀ x ∈ lo, x.1 < k)
    (hhi : ∀ x ∈ hi, k < x.1) :
  erase k (lo ++ mid ++ hi) = lo ++ erase k mid ++ hi
  := by
  simp only [erase, below_append, above_append, below_eq_self hlo, above_eq_self hhi,
    below_eq_nil fun x hx => (hhi x hx).le, above_eq_nil fun x hx => (hlo x hx).le]
  simp

/-! ### Agreement off a key -/

theorem AgreeOff.symm {k : K} {xs ys : List (K × V)} (h : AgreeOff k xs ys) :
  AgreeOff k ys xs
  := ⟨h.1.symm, h.2.symm⟩

theorem below_below (k : K) (xs : List (K × V)) :
  below k (below k xs) = below k xs
  := below_eq_self fun _ => lt_of_mem_below

theorem above_above (k : K) (xs : List (K × V)) :
  above k (above k xs) = above k xs
  := above_eq_self fun _ => lt_of_mem_above

theorem below_above (k : K) (xs : List (K × V)) :
  below k (above k xs) = []
  := below_eq_nil fun _ hx => (lt_of_mem_above hx).le

theorem above_below (k : K) (xs : List (K × V)) :
  above k (below k xs) = []
  := above_eq_nil fun _ hx => (lt_of_mem_below hx).le

/-- Storing a value changes nothing off its key. -/
theorem agreeOff_insert (k : K) (v : V) (xs : List (K × V)) :
  AgreeOff k xs (insert k v xs)
  := by
  constructor
  · rw [insert, below_append, below_cons_self, below_below, below_above, List.append_nil]
  · rw [insert, above_append, above_cons_self, above_below, above_above, List.nil_append]

/-- Removing a key changes nothing off it. -/
theorem agreeOff_erase (k : K) (xs : List (K × V)) :
  AgreeOff k xs (erase k xs)
  := by
  constructor
  · rw [erase, below_append, below_below, below_above, List.append_nil]
  · rw [erase, above_append, above_below, above_above, List.nil_append]

end SearchTree
