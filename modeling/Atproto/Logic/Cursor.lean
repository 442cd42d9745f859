import Mathlib.Order.Lattice

/-!
# Reading an ordered list after a cursor

The elements of a list are ordered by a key, and a reader that has seen everything up to a
cursor goes on with the elements whose key is above it.
-/

namespace Logic

variable {α κ : Type} [LinearOrder κ] (key : α → κ)

/-- The keys of a list increase strictly. -/
def Ordered (xs : List α) : Prop := xs.Pairwise fun a b => key a < key b

/-- The elements above a cursor. -/
def after (cursor : κ) (xs : List α) : List α := xs.filter fun x => cursor < key x

variable {key} {xs rest : List α} {x : α} {c d : κ}

theorem mem_after :
  x ∈ after key c xs ↔ x ∈ xs ∧ c < key x
  := by
  rw [after, List.mem_filter, decide_eq_true_iff]

theorem Ordered.sublist {ys : List α} (h : Ordered key ys) (hsub : xs.Sublist ys) :
  Ordered key xs
  := List.Pairwise.sublist hsub h

theorem Ordered.filter (h : Ordered key xs) (p : α → Bool) :
  Ordered key (xs.filter p)
  := h.sublist List.filter_sublist

/-- Moving the cursor on leaves out more elements. -/
theorem after_after (h : c ≤ d) :
  after key d (after key c xs) = after key d xs
  := by
  rw [after, after, List.filter_filter]
  apply List.filter_congr
  intro x _
  rw [← Bool.decide_and]
  apply decide_eq_decide.mpr
  constructor
  · exact And.left
  · exact fun hlt => ⟨hlt, lt_of_le_of_lt h hlt⟩

/-- After an element of an ordered list come the elements that stand behind it. -/
theorem Ordered.after_append {ys : List α} (h : Ordered key (ys ++ x :: rest)) :
  after key (key x) (ys ++ x :: rest) = rest
  := by
  obtain ⟨-, htail, hlt⟩ := List.pairwise_append.mp h
  have hys : after key (key x) ys = [] := by
    apply List.filter_eq_nil_iff.mpr
    intro y hy hafter
    exact lt_asymm (hlt y hy x List.mem_cons_self) (of_decide_eq_true hafter)
  have hrest : after key (key x) rest = rest := by
    apply List.filter_eq_self.mpr
    exact fun y hy => decide_eq_true ((List.pairwise_cons.mp htail).1 y hy)
  rw [after, List.filter_append, List.filter_cons_of_neg]
  · exact (congrArg (· ++ _) hys).trans hrest
  · exact fun hlt => lt_irrefl _ (of_decide_eq_true hlt)

/-- After the first element above the cursor come the others. -/
theorem Ordered.after_of_cons (h : Ordered key xs) (hcons : after key c xs = x :: rest) :
  after key (key x) xs = rest
  := by
  have hx : x ∈ after key c xs := by
    rw [hcons]
    exact List.mem_cons_self
  have hordered : Ordered key ([] ++ x :: rest) := by
    rw [List.nil_append, ← hcons]
    exact h.filter _
  rw [← after_after (le_of_lt (mem_after.mp hx).2), hcons]
  exact hordered.after_append

/-- Two ordered lists with the same elements are equal. -/
theorem Ordered.ext {ys : List α} (hxs : Ordered key xs) (hys : Ordered key ys)
    (h : ∀ x, x ∈ xs ↔ x ∈ ys) :
  xs = ys
  := by
  induction xs generalizing ys with
  | nil =>
    symm
    apply List.eq_nil_iff_forall_not_mem.mpr
    exact fun y hy => List.not_mem_nil ((h y).mpr hy)
  | cons x xs ih =>
    obtain ⟨hx, htail⟩ := List.pairwise_cons.mp hxs
    cases ys with
    | nil => exact absurd ((h x).mp List.mem_cons_self) List.not_mem_nil
    | cons y ys =>
      obtain ⟨hy, htail'⟩ := List.pairwise_cons.mp hys
      obtain rfl : x = y := by
        obtain heq | hmem := List.mem_cons.mp ((h x).mp List.mem_cons_self)
        · exact heq
        · obtain heq | hmem' := List.mem_cons.mp ((h y).mpr List.mem_cons_self)
          · exact heq.symm
          · exact absurd (hy x hmem) (lt_asymm (hx y hmem'))
      congr 1
      apply ih htail htail'
      intro z
      constructor
      · intro hz
        obtain rfl | hmem := List.mem_cons.mp ((h z).mp (List.mem_cons_of_mem _ hz))
        · exact absurd (hx z hz) (lt_irrefl _)
        · exact hmem
      · intro hz
        obtain rfl | hmem := List.mem_cons.mp ((h z).mpr (List.mem_cons_of_mem _ hz))
        · exact absurd (hy z hz) (lt_irrefl _)
        · exact hmem

/-! ### Adding an element -/

variable (key)

/-- Put an element in its place, instead of the one with its key. -/
def put (x : α) (xs : List α) : List α :=
  (xs.filter fun y => key y < key x) ++ x :: after key (key x) xs

variable {key}

theorem mem_put {y : α} :
  y ∈ put key x xs ↔ y = x ∨ y ∈ xs ∧ key y ≠ key x
  := by
  rw [put, List.mem_append, List.mem_cons, mem_after, List.mem_filter, decide_eq_true_iff,
    or_left_comm, ← and_or_left, ← lt_or_lt_iff_ne]

theorem Ordered.put (h : Ordered key xs) (x : α) :
  Ordered key (put key x xs)
  := by
  refine List.pairwise_append.mpr ⟨h.filter _, List.pairwise_cons.mpr ⟨?_, h.filter _⟩, ?_⟩
  · intro y hy
    exact (mem_after.mp hy).2
  · intro y hy z hz
    have hlt : key y < key x := of_decide_eq_true (List.mem_filter.mp hy).2
    obtain rfl | hz := List.mem_cons.mp hz
    · exact hlt
    · exact lt_trans hlt (mem_after.mp hz).2

/-- An element above all others is put at the end. -/
theorem put_of_last (h : ∀ y ∈ xs, key y < key x) :
  put key x xs = xs ++ [x]
  := by
  have hbelow : (xs.filter fun y => key y < key x) = xs := by
    apply List.filter_eq_self.mpr
    exact fun y hy => decide_eq_true (h y hy)
  have habove : after key (key x) xs = [] := by
    apply List.eq_nil_iff_forall_not_mem.mpr
    intro y hy
    obtain ⟨hy, hlt⟩ := mem_after.mp hy
    exact lt_asymm hlt (h y hy)
  rw [put, hbelow, habove]

theorem Ordered.concat (hxs : Ordered key xs) (h : ∀ y ∈ xs, key y < key x) :
  Ordered key (xs ++ [x])
  := by
  apply List.pairwise_append.mpr
  refine ⟨hxs, List.pairwise_singleton _ _, ?_⟩
  intro y hy z hz
  rw [List.mem_singleton.mp hz]
  exact h y hy

/-! ### Pages -/

variable (key)

/-- The elements above a cursor, or all of them when there is none. -/
def afterOption (cursor : Option κ) (xs : List α) : List α :=
  match cursor with
  | none => xs
  | some cursor => after key cursor xs

/-- Read page by page, each time after the last element of the page before, until a page is
empty. -/
def readPages (read : Option κ → List α) : Nat → Option κ → List α
  | 0, _ => []
  | fuel + 1, cursor =>
    match (read cursor).getLast? with
    | none => []
    | some last => read cursor ++ readPages read fuel (some (key last))

variable {key}

theorem Ordered.afterOption (h : Ordered key xs) (cursor : Option κ) :
  Ordered key (afterOption key cursor xs)
  := by
  cases cursor with
  | none => exact h
  | some cursor => exact h.filter _

/-- What comes above an element that is above the cursor. -/
theorem afterOption_afterOption {cursor : Option κ} (h : x ∈ afterOption key cursor xs) :
  after key (key x) (afterOption key cursor xs) = after key (key x) xs
  := by
  cases cursor with
  | none => rfl
  | some cursor => exact after_after (le_of_lt (mem_after.mp h).2)

/-- Pages of any length put together are the whole list. -/
theorem Ordered.readPages_eq (h : Ordered key xs) {read : Option κ → List α} {limit : Nat}
    (hlimit : 0 < limit) (hread : ∀ cursor, read cursor = (Logic.afterOption key cursor xs).take limit)
    {fuel : Nat} {cursor : Option κ} (hfuel : (Logic.afterOption key cursor xs).length ≤ fuel) :
  readPages key read fuel cursor = Logic.afterOption key cursor xs
  := by
  induction fuel generalizing cursor with
  | zero => exact (List.eq_nil_of_length_eq_zero (Nat.le_zero.mp hfuel)).symm
  | succ fuel ih =>
    rw [readPages, hread]
    have hsplit := List.take_append_drop limit (Logic.afterOption key cursor xs)
    cases hlast : ((Logic.afterOption key cursor xs).take limit).getLast? with
    | none =>
      rw [List.getLast?_eq_none_iff, List.take_eq_nil_iff] at hlast
      obtain hzero | hnil := hlast
      · exact absurd hzero hlimit.ne'
      · exact hnil.symm
    | some last =>
      obtain ⟨init, hinit⟩ := List.getLast?_eq_some_iff.mp hlast
      rw [hinit, List.append_assoc, List.singleton_append] at hsplit
      have hmem : last ∈ Logic.afterOption key cursor xs := by
        rw [← hsplit]
        exact List.mem_append_right _ List.mem_cons_self
      have hrest : Logic.afterOption key (some (key last)) xs =
          (Logic.afterOption key cursor xs).drop limit := by
        have hordered := h.afterOption cursor
        rw [← hsplit] at hordered
        have hafter := hordered.after_append
        rw [hsplit, afterOption_afterOption hmem] at hafter
        exact hafter
      dsimp only
      rw [ih, hrest, hinit, List.append_assoc, List.singleton_append, hsplit]
      rw [hrest, List.length_drop]
      have hpos := List.length_pos_of_mem hmem
      omega

omit [LinearOrder κ] in
/-- Read page by page, following the cursor that comes with each page until a page has none. -/
def followPages (read : Option κ → List α × Option κ) : Nat → Option κ → List α
  | 0, _ => []
  | fuel + 1, cursor =>
    match (read cursor).2 with
    | none => (read cursor).1
    | some next => (read cursor).1 ++ followPages read fuel (some next)

variable (key) in
/-- A page begins the list after the cursor.  Without a cursor of its own it is all of it, and its
cursor is the key of its last element. -/
structure IsPage (cursor : Option κ) (xs : List α) (page : List α × Option κ) : Prop where
  begins : page.1 <+: Logic.afterOption key cursor xs
  last : page.2 = none → page.1 = Logic.afterOption key cursor xs
  next : ∀ next, page.2 = some next → ∃ x, page.1.getLast? = some x ∧ next = key x

/-- A page of at most `limit` elements, whose cursor is given when the page is full. -/
theorem isPage_take {cursor : Option κ} {limit : Nat} (hlimit : 0 < limit) :
  IsPage key cursor xs ((Logic.afterOption key cursor xs).take limit,
    if ((Logic.afterOption key cursor xs).take limit).length = limit then
      ((Logic.afterOption key cursor xs).take limit).getLast?.map key
    else none)
  := by
  refine ⟨List.take_prefix _ _, ?_, ?_⟩
  · intro hnone
    dsimp only at hnone ⊢
    split at hnone
    · rename_i hfull
      rw [Option.map_eq_none_iff, List.getLast?_eq_none_iff] at hnone
      rw [hnone, List.length_nil] at hfull
      omega
    · rename_i hshort
      rw [List.length_take] at hshort
      apply List.take_of_length_le
      omega
  · intro next hnext
    dsimp only at hnext
    split at hnext
    · obtain ⟨x, hx, rfl⟩ := Option.map_eq_some_iff.mp hnext
      exact ⟨x, hx, rfl⟩
    · cases hnext

/-- A page of at most `limit` elements, for which one more is read, and whose cursor is given when
that one is there. -/
theorem isPage_probe {cursor : Option κ} {limit : Nat} (hlimit : 0 < limit) :
  IsPage key cursor xs
    (if limit < ((Logic.afterOption key cursor xs).take (limit + 1)).length then
      (((Logic.afterOption key cursor xs).take (limit + 1)).take limit,
        (((Logic.afterOption key cursor xs).take (limit + 1)).take limit).getLast?.map key)
    else ((Logic.afterOption key cursor xs).take (limit + 1), none))
  := by
  split
  · rename_i hmore
    refine ⟨?_, ?_, ?_⟩
    · exact (List.take_prefix _ _).trans (List.take_prefix _ _)
    · intro hnone
      rw [Option.map_eq_none_iff, List.getLast?_eq_none_iff] at hnone
      have hlength := congrArg List.length hnone
      rw [List.length_take, List.length_nil] at hlength
      omega
    · intro next hnext
      obtain ⟨x, hx, rfl⟩ := Option.map_eq_some_iff.mp hnext
      exact ⟨x, hx, rfl⟩
  · rename_i hlast
    refine ⟨List.take_prefix _ _, ?_, ?_⟩
    · intro _
      rw [List.length_take] at hlast
      apply List.take_of_length_le
      omega
    · intro next hnext
      cases hnext

theorem afterOption_map {β : Type} {f : α → β} {key' : β → κ} (hkey : ∀ x ∈ xs, key' (f x) = key x)
    (cursor : Option κ) :
  Logic.afterOption key' cursor (xs.map f) = (Logic.afterOption key cursor xs).map f
  := by
  cases cursor with
  | none => rfl
  | some cursor =>
    rw [Logic.afterOption, Logic.afterOption, after, after, List.filter_map]
    congr 1
    apply List.filter_congr
    intro x hx
    rw [Function.comp_apply, hkey x hx]

/-- The elements of a page may be shown in another form that has the same keys. -/
theorem IsPage.map {β : Type} {f : α → β} {key' : β → κ} {cursor : Option κ}
    {page : List α × Option κ} (h : IsPage key cursor xs page)
    (hkey : ∀ x ∈ xs, key' (f x) = key x) :
  IsPage key' cursor (xs.map f) (page.1.map f, page.2)
  := by
  have hafter := afterOption_map hkey cursor
  refine ⟨?_, ?_, ?_⟩
  · rw [hafter]
    exact h.begins.map f
  · intro hnone
    rw [hafter, ← h.last hnone]
  · intro next hnext
    obtain ⟨x, hx, rfl⟩ := h.next next hnext
    have hmem : x ∈ xs := by
      have hpage := h.begins.subset (List.mem_of_getLast? hx)
      cases cursor with
      | none => exact hpage
      | some cursor => exact (mem_after.mp hpage).1
    refine ⟨f x, ?_, (hkey x hmem).symm⟩
    rw [List.getLast?_map, hx]
    rfl

/-- Following the cursors gives the whole list. -/
theorem Ordered.followPages_eq (h : Ordered key xs) {read : Option κ → List α × Option κ}
    (hread : ∀ cursor, IsPage key cursor xs (read cursor)) {fuel : Nat} {cursor : Option κ}
    (hfuel : (Logic.afterOption key cursor xs).length < fuel) :
  followPages read fuel cursor = Logic.afterOption key cursor xs
  := by
  induction fuel generalizing cursor with
  | zero => exact absurd hfuel (Nat.not_lt_zero _)
  | succ fuel ih =>
    obtain ⟨⟨rest, hrest⟩, hlast, hnext⟩ := hread cursor
    rw [followPages]
    cases hcursor : (read cursor).2 with
    | none => exact hlast hcursor
    | some next =>
      obtain ⟨x, hx, rfl⟩ := hnext next hcursor
      obtain ⟨init, hinit⟩ := List.getLast?_eq_some_iff.mp hx
      rw [hinit, List.append_assoc, List.singleton_append] at hrest
      have hmem : x ∈ Logic.afterOption key cursor xs := by
        rw [← hrest]
        exact List.mem_append_right _ List.mem_cons_self
      have hafter : Logic.afterOption key (some (key x)) xs = rest := by
        have hordered := h.afterOption cursor
        rw [← hrest] at hordered
        have htail := hordered.after_append
        rw [hrest, afterOption_afterOption hmem] at htail
        exact htail
      dsimp only
      rw [ih, hafter, hinit, List.append_assoc, List.singleton_append, hrest]
      rw [hafter]
      rw [← hrest, List.length_append, List.length_cons] at hfuel
      omega

end Logic
