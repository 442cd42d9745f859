import Atproto.Logic.Cursor
import Mathlib.Data.List.Sort

/-!
# Pages cut from a scan

A scan meets the elements of a list in an order of its own.  A page is made of the first elements
above the cursor that the scan meets, sorted by their keys.  What is met late and belongs on an early
page is never read.  So the pages together are the sorted list exactly when the scan meets the
elements in the order of the pages they belong on.
-/

namespace Logic

variable {α κ : Type} [LinearOrder κ] (key : α → κ)

/-- The first elements above a cursor that are met, sorted. -/
def scanPage (limit : Nat) (xs : List α) (cursor : Option κ) : List α :=
  ((afterOption key cursor xs).take limit).insertionSort fun a b => key a ≤ key b

/-- The number of elements below an element. -/
def rank (xs : List α) (x : α) : Nat := xs.countP fun y => key y < key x

/-- The elements are met in the order of the pages that they belong on. -/
def InPageOrder (limit : Nat) (xs : List α) : Prop :=
  xs.Pairwise fun a b => rank key xs a / limit ≤ rank key xs b / limit

/-- No two elements have one key. -/
def DistinctKeys (xs : List α) : Prop := xs.Pairwise fun a b => key a ≠ key b

variable {key} {xs ys : List α} {x : α}

theorem exists_least (h : xs ≠ []) :
  ∃ x ∈ xs, ∀ y ∈ xs, key x ≤ key y
  := by
  induction xs with
  | nil => exact absurd rfl h
  | cons x xs ih =>
    cases xs with
    | nil =>
      refine ⟨x, List.mem_cons_self, ?_⟩
      intro y hy
      rw [List.mem_singleton.mp hy]
    | cons x' xs =>
      obtain ⟨least, hmem, hle⟩ := ih (List.cons_ne_nil _ _)
      rcases le_total (key x) (key least) with h | h
      · refine ⟨x, List.mem_cons_self, ?_⟩
        intro y hy
        rcases List.mem_cons.mp hy with rfl | hy
        · exact le_refl _
        · exact le_trans h (hle y hy)
      · refine ⟨least, List.mem_cons_of_mem _ hmem, ?_⟩
        intro y hy
        rcases List.mem_cons.mp hy with rfl | hy
        · exact h
        · exact hle y hy

omit [LinearOrder κ] in
theorem DistinctKeys.eq (h : DistinctKeys key xs) {a b : α} (ha : a ∈ xs) (hb : b ∈ xs)
    (heq : key a = key b) :
  a = b
  := by
  induction xs with
  | nil => cases ha
  | cons x xs ih =>
    obtain ⟨hx, hxs⟩ := List.pairwise_cons.mp h
    rcases List.mem_cons.mp ha with rfl | ha'
    · rcases List.mem_cons.mp hb with rfl | hb'
      · rfl
      · exact absurd heq (hx b hb')
    · rcases List.mem_cons.mp hb with rfl | hb'
      · exact absurd heq.symm (hx a ha')
      · exact ih hxs ha' hb'

/-- A sorted list without repeated keys is ordered. -/
theorem ordered_insertionSort (h : DistinctKeys key xs) :
  Ordered key (xs.insertionSort fun a b => key a ≤ key b)
  := by
  have hperm := List.perm_insertionSort (fun a b => key a ≤ key b) xs
  have : Std.Total fun a b : α => key a ≤ key b := ⟨fun a b => le_total _ _⟩
  have : IsTrans α fun a b => key a ≤ key b := ⟨fun a b c => le_trans⟩
  have hsorted := List.pairwise_insertionSort (fun a b => key a ≤ key b) xs
  have hne : DistinctKeys key (xs.insertionSort fun a b => key a ≤ key b) :=
    (hperm.pairwise_iff fun hab => Ne.symm hab).mpr h
  exact hsorted.imp₂ (fun _ _ hle hab => lt_of_le_of_ne hle hab) hne

/-- The elements below an element of the first part, when the second part is above it. -/
theorem rank_append (first second : List α) (x : α) :
  rank key (first ++ second) x = rank key first x + rank key second x
  := List.countP_append

theorem rank_eq_length (h : ∀ y ∈ xs, key y < key x) :
  rank key xs x = xs.length
  := List.countP_eq_length.mpr fun y hy => decide_eq_true (h y hy)

theorem rank_eq_zero (h : ∀ y ∈ xs, key x ≤ key y) :
  rank key xs x = 0
  := by
  apply List.countP_eq_zero.mpr
  intro y hy hlt
  exact not_lt.mpr (h y hy) (of_decide_eq_true hlt)

/-- Fewer elements are below an element than there are. -/
theorem rank_lt_length (h : x ∈ xs) :
  rank key xs x < xs.length
  := by
  obtain ⟨before, behind, rfl⟩ := List.append_of_mem h
  have hself : rank key (x :: behind) x = rank key behind x := by
    rw [rank, List.countP_cons_of_neg, rank]
    exact fun hlt => lt_irrefl _ (of_decide_eq_true hlt)
  rw [rank_append, hself, List.length_append, List.length_cons]
  have hbefore : rank key before x ≤ before.length := List.countP_le_length
  have hbehind : rank key behind x ≤ behind.length := List.countP_le_length
  omega

/-- All other elements are below the greatest. -/
theorem rank_greatest (hne : DistinctKeys key xs) (h : x ∈ xs) (hle : ∀ y ∈ xs, key y ≤ key x) :
  rank key xs x + 1 = xs.length
  := by
  obtain ⟨before, behind, rfl⟩ := List.append_of_mem h
  obtain ⟨-, hbehind, hbefore⟩ := List.pairwise_append.mp hne
  have hself : rank key (x :: behind) x = rank key behind x := by
    rw [rank, List.countP_cons_of_neg, rank]
    exact fun hlt => lt_irrefl _ (of_decide_eq_true hlt)
  rw [rank_append, hself, rank_eq_length, rank_eq_length, List.length_append, List.length_cons]
  · omega
  · intro y hy
    exact lt_of_le_of_ne (hle y (List.mem_append_right _ (List.mem_cons_of_mem _ hy)))
      ((List.pairwise_cons.mp hbehind).1 y hy).symm
  · intro y hy
    exact lt_of_le_of_ne (hle y (List.mem_append_left _ hy)) (hbefore y hy x List.mem_cons_self)

/-- In the order of the pages, the first page is below all others. -/
theorem InPageOrder.below {limit : Nat} (hne : DistinctKeys key (xs ++ ys))
    (hlength : xs.length = limit) (h : InPageOrder key limit (xs ++ ys)) {x y : α} (hx : x ∈ xs)
    (hy : y ∈ ys) :
  key x < key y
  := by
  by_contra hnot
  have hpos : 0 < limit := hlength ▸ List.length_pos_of_mem hx
  obtain ⟨hxs, hys, hcross⟩ := List.pairwise_append.mp hne
  -- the greatest element of the first page is above the least of the others
  obtain ⟨greatest, hgreatest, hmax⟩ :=
    @exists_least α κᵒᵈ inferInstance (fun a => OrderDual.toDual (key a)) xs (List.ne_nil_of_mem hx)
  have hmax : ∀ z ∈ xs, key z ≤ key greatest := hmax
  obtain ⟨least, hleast, hmin⟩ := @exists_least α κ _ key ys (List.ne_nil_of_mem hy)
  have hlt : key least < key greatest := by
    apply lt_of_le_of_ne
    · exact le_trans (hmin y hy) (le_trans (not_lt.mp hnot) (hmax x hx))
    · exact (hcross greatest hgreatest least hleast).symm
  have hhigh : limit ≤ rank key (xs ++ ys) greatest := by
    have hfirst := rank_greatest hxs hgreatest hmax
    have hsecond : 0 < rank key ys greatest := by
      apply List.countP_pos_iff.mpr
      exact ⟨least, hleast, decide_eq_true hlt⟩
    rw [rank_append]
    omega
  have hlow : rank key (xs ++ ys) least < limit := by
    have hzero : rank key ys least = 0 := rank_eq_zero hmin
    have hmono : rank key xs least ≤ rank key xs greatest := by
      apply List.countP_mono_left
      intro z _ hz
      exact decide_eq_true (lt_trans (of_decide_eq_true hz) hlt)
    have hless := @rank_lt_length α κ _ key xs greatest hgreatest
    rw [rank_append]
    omega
  have horder := (List.pairwise_append.mp h).2.2 greatest hgreatest least hleast
  rw [Nat.div_eq_of_lt hlow] at horder
  have hone := Nat.div_pos hhigh hpos
  omega

/-- Where the first page is below all others, the order of the pages is the one of the others. -/
theorem inPageOrder_append {limit : Nat} (hlimit : 0 < limit) (hlength : xs.length = limit)
    (hbelow : ∀ x ∈ xs, ∀ y ∈ ys, key x < key y) :
  InPageOrder key limit (xs ++ ys) ↔ InPageOrder key limit ys
  := by
  have hfirst : ∀ x ∈ xs, rank key (xs ++ ys) x / limit = 0 := by
    intro x hx
    have hzero : rank key ys x = 0 := rank_eq_zero fun y hy => (hbelow x hx y hy).le
    have hless := @rank_lt_length α κ _ key xs x hx
    apply Nat.div_eq_of_lt
    rw [rank_append]
    omega
  have hothers : ∀ y ∈ ys, rank key (xs ++ ys) y / limit = rank key ys y / limit + 1 := by
    intro y hy
    have hall : rank key xs y = xs.length := rank_eq_length fun x hx => hbelow x hx y hy
    rw [rank_append, hall, hlength, Nat.add_div_left _ hlimit]
  constructor
  · intro h
    refine (List.pairwise_append.mp h).2.1.imp_of_mem ?_
    intro a b ha hb hab
    rw [hothers a ha, hothers b hb] at hab
    exact Nat.le_of_succ_le_succ hab
  · intro h
    refine List.pairwise_append.mpr ⟨?_, ?_, ?_⟩
    · apply List.pairwise_of_forall_mem_list
      intro a ha b hb
      rw [hfirst a ha, hfirst b hb]
    · refine List.Pairwise.imp_of_mem ?_ h
      intro a b ha hb hab
      rw [hothers a ha, hothers b hb]
      exact Nat.succ_le_succ hab
    · intro x hx y hy
      rw [hfirst x hx]
      exact Nat.zero_le _

/-- All elements that fit on one page are in order. -/
theorem inPageOrder_of_length_le {limit : Nat} (hlength : xs.length ≤ limit) :
  InPageOrder key limit xs
  := by
  apply List.pairwise_of_forall_mem_list
  intro a ha b hb
  have hzero : ∀ x ∈ xs, rank key xs x / limit = 0 := by
    intro x hx
    exact Nat.div_eq_of_lt (lt_of_lt_of_le (rank_lt_length hx) hlength)
  rw [hzero a ha, hzero b hb]

/-- The elements of a list are read once each, in ascending order. -/
def ListsAll (key : α → κ) (xs read : List α) : Prop :=
  Ordered key read ∧ ∀ x, x ∈ read ↔ x ∈ xs

/-- What is read page by page: the first page lists its part, and the rest the others. -/
theorem listsAll_append {page rest : List α} (hpage : Ordered key page)
    (hmem : ∀ x, x ∈ page ↔ x ∈ xs) (hrest : ∀ y ∈ rest, y ∈ ys)
    (hbelow : ∀ x ∈ xs, ∀ y ∈ ys, key x < key y) :
  ListsAll key (xs ++ ys) (page ++ rest) ↔ ListsAll key ys rest
  := by
  constructor
  · rintro ⟨hordered, hall⟩
    refine ⟨(List.pairwise_append.mp hordered).2.1, ?_⟩
    intro y
    refine ⟨hrest y, ?_⟩
    intro hy
    rcases List.mem_append.mp ((hall y).mpr (List.mem_append_right _ hy)) with hpageMem | hrestMem
    · exact absurd (hbelow y ((hmem y).mp hpageMem) y hy) (lt_irrefl _)
    · exact hrestMem
  · rintro ⟨hordered, hall⟩
    constructor
    · refine List.pairwise_append.mpr ⟨hpage, hordered, ?_⟩
      intro x hx y hy
      exact hbelow x ((hmem x).mp hx) y (hrest y hy)
    · intro y
      rw [List.mem_append, hmem, hall, ← List.mem_append]

/-- Above the last element of the first page come the others. -/
theorem after_append_below {last : α} (hle : ∀ x ∈ xs, key x ≤ key last)
    (hbelow : ∀ y ∈ ys, key last < key y) :
  after key (key last) (xs ++ ys) = ys
  := by
  have hfirst : after key (key last) xs = [] := by
    apply List.filter_eq_nil_iff.mpr
    intro x hx hlt
    exact not_lt.mpr (hle x hx) (of_decide_eq_true hlt)
  have hothers : after key (key last) ys = ys := by
    apply List.filter_eq_self.mpr
    exact fun y hy => decide_eq_true (hbelow y hy)
  rw [after, List.filter_append, ← after, ← after, hfirst, hothers, List.nil_append]

section Pages

variable {limit : Nat} {cursor : Option κ}

theorem mem_scanPage :
  x ∈ scanPage key limit xs cursor ↔ x ∈ (afterOption key cursor xs).take limit
  := List.mem_insertionSort _

theorem mem_afterOption_of_after {last : α} (hlast : last ∈ afterOption key cursor xs)
    (h : x ∈ after key (key last) xs) :
  x ∈ afterOption key cursor xs
  := by
  obtain ⟨hmem, hlt⟩ := mem_after.mp h
  cases cursor with
  | none => exact hmem
  | some cursor => exact mem_after.mpr ⟨hmem, lt_trans (mem_after.mp hlast).2 hlt⟩

/-- Only elements above the cursor are read. -/
theorem mem_of_mem_readPages {fuel : Nat}
    (h : x ∈ readPages key (scanPage key limit xs) fuel cursor) :
  x ∈ afterOption key cursor xs
  := by
  induction fuel generalizing cursor with
  | zero => cases h
  | succ fuel ih =>
    rw [readPages] at h
    cases hlast : (scanPage key limit xs cursor).getLast? with
    | none =>
      rw [hlast] at h
      cases h
    | some last =>
      rw [hlast] at h
      have hmem := List.mem_of_mem_take (mem_scanPage.mp (List.mem_of_getLast? hlast))
      rcases List.mem_append.mp h with h | h
      · exact List.mem_of_mem_take (mem_scanPage.mp h)
      · exact mem_afterOption_of_after hmem (ih h)

/-- No element of an ordered list is above its last. -/
theorem Ordered.le_last (h : Ordered key xs) {last : α} (hlast : xs.getLast? = some last)
    (hx : x ∈ xs) :
  key x ≤ key last
  := by
  obtain ⟨init, rfl⟩ := List.getLast?_eq_some_iff.mp hlast
  rcases List.mem_append.mp hx with hx | hx
  · exact ((List.pairwise_append.mp h).2.2 x hx last (List.mem_singleton_self _)).le
  · rw [List.mem_singleton.mp hx]

/-- The pages that are cut from a scan list all elements above the cursor exactly when the scan meets
them in the order of the pages. -/
theorem readPages_scan_iff (hlimit : 0 < limit) (hne : DistinctKeys key xs) {fuel : Nat}
    (hfuel : (afterOption key cursor xs).length ≤ fuel) :
  ListsAll key (afterOption key cursor xs) (readPages key (scanPage key limit xs) fuel cursor) ↔
    InPageOrder key limit (afterOption key cursor xs)
  := by
  induction fuel generalizing cursor with
  | zero =>
    rw [List.eq_nil_of_length_eq_zero (Nat.le_zero.mp hfuel)]
    exact iff_of_true ⟨List.Pairwise.nil, fun x => Iff.rfl⟩ List.Pairwise.nil
  | succ fuel ih =>
    have hsplit := List.take_append_drop limit (afterOption key cursor xs)
    have hsub : (afterOption key cursor xs).Sublist xs := by
      cases cursor with
      | none => exact List.Sublist.refl _
      | some cursor => exact List.filter_sublist
    have hneAfter : DistinctKeys key (afterOption key cursor xs) := List.Pairwise.sublist hsub hne
    have hpage : Ordered key (scanPage key limit xs cursor) :=
      ordered_insertionSort (List.Pairwise.sublist (List.take_sublist _ _) hneAfter)
    rw [readPages]
    cases hlast : (scanPage key limit xs cursor).getLast? with
    | none =>
      have hnil : scanPage key limit xs cursor = [] := List.getLast?_eq_none_iff.mp hlast
      have htake : (afterOption key cursor xs).take limit = [] := by
        apply List.eq_nil_iff_forall_not_mem.mpr
        intro x hx
        have hmem := mem_scanPage.mpr hx
        rw [hnil] at hmem
        cases hmem
      rcases List.take_eq_nil_iff.mp htake with hzero | hempty
      · exact absurd hzero hlimit.ne'
      · rw [hempty]
        exact iff_of_true ⟨List.Pairwise.nil, fun x => Iff.rfl⟩ List.Pairwise.nil
    | some last =>
      dsimp only
      have hlastMem := List.mem_of_mem_take (mem_scanPage.mp (List.mem_of_getLast? hlast))
      have hle : ∀ x ∈ (afterOption key cursor xs).take limit, key x ≤ key last :=
        fun x hx => hpage.le_last hlast (mem_scanPage.mpr hx)
      by_cases hbelow : ∀ x ∈ (afterOption key cursor xs).take limit,
          ∀ y ∈ (afterOption key cursor xs).drop limit, key x < key y
      · have hrest : afterOption key (some (key last)) xs =
            (afterOption key cursor xs).drop limit := by
          have hlastTake := mem_scanPage.mp (List.mem_of_getLast? hlast)
          have happend := after_append_below hle (hbelow last hlastTake)
          rw [hsplit, afterOption_afterOption hlastMem] at happend
          exact happend
        have hshort : (afterOption key (some (key last)) xs).length ≤ fuel := by
          have hpos := List.length_pos_of_mem hlastMem
          rw [hrest, List.length_drop]
          omega
        have hread := ih hshort
        have hrestMem : ∀ y ∈ readPages key (scanPage key limit xs) fuel (some (key last)),
            y ∈ (afterOption key cursor xs).drop limit := by
          intro y hy
          rw [← hrest]
          exact mem_of_mem_readPages hy
        rw [hrest] at hread
        have hlists := listsAll_append hpage (fun x => mem_scanPage) hrestMem hbelow
        rw [hsplit] at hlists
        rw [hlists, hread]
        have hcases : ((afterOption key cursor xs).take limit).length = limit ∨
            (afterOption key cursor xs).length ≤ limit := by
          rw [List.length_take]
          omega
        rcases hcases with hlength | hlength
        · have horder := inPageOrder_append hlimit hlength hbelow
          rw [hsplit] at horder
          exact horder.symm
        · rw [List.drop_of_length_le hlength]
          exact iff_of_true List.Pairwise.nil (inPageOrder_of_length_le hlength)
      · push Not at hbelow
        obtain ⟨x, hx, y, hy, hnot⟩ := hbelow
        have hlength : ((afterOption key cursor xs).take limit).length = limit := by
          have hpos := List.length_pos_of_mem hy
          rw [List.length_drop] at hpos
          rw [List.length_take]
          omega
        have hcross := (List.pairwise_append.mp (hsplit.symm ▸ hneAfter)).2.2
        apply iff_of_false
        · rintro ⟨-, hall⟩
          have hmem := (hall y).mpr (List.mem_of_mem_drop hy)
          rcases List.mem_append.mp hmem with hmem | hmem
          · exact hcross y (mem_scanPage.mp hmem) y hy rfl
          · have hlt := (mem_after.mp (mem_of_mem_readPages hmem)).2
            exact absurd hlt (not_lt.mpr (le_trans hnot (hle x hx)))
        · intro horder
          rw [← hsplit] at horder hneAfter
          exact absurd (horder.below hneAfter hlength hx hy) (not_lt.mpr hnot)

end Pages

end Logic
