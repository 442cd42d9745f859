import Atproto.SearchTree.SortedList
import Mathlib.Data.List.DropRight

/-!
# The canonical tree of a sorted list

Every key has a height.  In the canonical tree of a sorted list a node at layer `L` holds
the keys of height `L` of a segment, interleaved with the addresses of the nodes at layer
`L - 1` of the gaps between them.  A gap is a maximal segment of keys of height below `L`;
an empty gap has no node.  The address of a node is a function `addr` of its entries.
-/

namespace SearchTree

/-- An entry of a node: a key with its value, or the address of a child. -/
inductive Entry (K V A : Type) where
  | leaf (key : K) (value : V)
  | tree (child : A)
deriving DecidableEq

/-- No two children are adjacent. -/
def Spaced {K V A : Type} : List (Entry K V A) → Prop
  | [] => True
  | .leaf _ _ :: es => Spaced es
  | .tree _ :: .leaf _ _ :: es => Spaced es
  | [.tree _] => True
  | .tree _ :: .tree _ :: _ => False

variable {K V A : Type} (height : K → Nat)

/-! ### Interleaving keys with gaps -/

/-- The leading gap of a list at layer `L`, and the entries after it, the entries of each
gap being given by `child`. -/
def weaveAux (child : List (K × V) → List (Entry K V A)) (L : Nat) :
    List (K × V) → List (K × V) × List (Entry K V A)
  | [] => ([], [])
  | x :: xs =>
    let rest := weaveAux child L xs
    if height x.1 < L then (x :: rest.1, rest.2)
    else ([], .leaf x.1 x.2 :: (child rest.1 ++ rest.2))

/-- The entries of a list at layer `L`. -/
def weave (child : List (K × V) → List (Entry K V A)) (L : Nat) (xs : List (K × V)) :
    List (Entry K V A) :=
  child (weaveAux height child L xs).1 ++ (weaveAux height child L xs).2

/-- Every key of the list has height below `L`. -/
def Low (L : Nat) (xs : List (K × V)) : Prop := ∀ x ∈ xs, height x.1 < L

variable {height}

theorem Low.nil (L : Nat) :
  Low height L ([] : List (K × V))
  := by
  intro x hx
  cases hx

theorem Low.append {L : Nat} {xs ys : List (K × V)} (hxs : Low height L xs)
    (hys : Low height L ys) :
  Low height L (xs ++ ys)
  := by
  intro x hx
  obtain hx | hx := List.mem_append.mp hx
  · exact hxs x hx
  · exact hys x hx

theorem Low.left {L : Nat} {xs ys : List (K × V)} (h : Low height L (xs ++ ys)) :
  Low height L xs
  := fun x hx => h x (List.mem_append_left ys hx)

theorem Low.right {L : Nat} {xs ys : List (K × V)} (h : Low height L (xs ++ ys)) :
  Low height L ys
  := fun x hx => h x (List.mem_append_right xs hx)

theorem Low.mono {L M : Nat} {xs : List (K × V)} (h : Low height L xs) (hLM : L ≤ M) :
  Low height M xs
  := fun x hx => (h x hx).trans_le hLM

theorem weaveAux_cons_low {child : List (K × V) → List (Entry K V A)} {L : Nat} {x : K × V}
    (hx : height x.1 < L) (xs : List (K × V)) :
  weaveAux height child L (x :: xs) =
    (x :: (weaveAux height child L xs).1, (weaveAux height child L xs).2)
  := if_pos hx

theorem weaveAux_cons_high {child : List (K × V) → List (Entry K V A)} {L : Nat} {x : K × V}
    (hx : L ≤ height x.1) (xs : List (K × V)) :
  weaveAux height child L (x :: xs) = ([], .leaf x.1 x.2 :: weave height child L xs)
  := if_neg (Nat.not_lt.mpr hx)

/-- A low list is a single gap. -/
theorem weaveAux_low {child : List (K × V) → List (Entry K V A)} {L : Nat} {xs : List (K × V)}
    (h : Low height L xs) :
  weaveAux height child L xs = (xs, [])
  := by
  induction xs with
  | nil => rfl
  | cons x xs ih =>
    have hxs : Low height L xs := fun y hy => h y (List.mem_cons_of_mem x hy)
    rw [weaveAux_cons_low (h x List.mem_cons_self), ih hxs]

theorem weave_low {child : List (K × V) → List (Entry K V A)} {L : Nat} {xs : List (K × V)}
    (h : Low height L xs) :
  weave height child L xs = child xs
  := by
  rw [weave, weaveAux_low h, List.append_nil]

/-- A key of height at least `L` separates the entries before it from those after it. -/
theorem weave_append_cons {child : List (K × V) → List (Entry K V A)} {L : Nat}
    (xs : List (K × V)) {y : K × V} (hy : L ≤ height y.1) (ys : List (K × V)) :
  weave height child L (xs ++ y :: ys) =
    weave height child L xs ++ .leaf y.1 y.2 :: weave height child L ys
  := by
  have haux : weaveAux height child L (xs ++ y :: ys) =
      ((weaveAux height child L xs).1,
        (weaveAux height child L xs).2 ++ .leaf y.1 y.2 :: weave height child L ys) := by
    induction xs with
    | nil => exact weaveAux_cons_high hy ys
    | cons x xs ih =>
      obtain hx | hx := Nat.lt_or_ge (height x.1) L
      · rw [List.cons_append, weaveAux_cons_low hx, weaveAux_cons_low hx, ih]
      · have hxs : weave height child L (xs ++ y :: ys) =
            weave height child L xs ++ .leaf y.1 y.2 :: weave height child L ys := by
          rw [weave, ih]
          exact (List.append_assoc _ _ _).symm
        rw [List.cons_append, weaveAux_cons_high hx, weaveAux_cons_high hx, hxs]
        rfl
  rw [weave, haux]
  exact (List.append_assoc _ _ _).symm

theorem weave_cons {child : List (K × V) → List (Entry K V A)} (hchild : child [] = [])
    {L : Nat} {y : K × V} (hy : L ≤ height y.1) (ys : List (K × V)) :
  weave height child L (y :: ys) = .leaf y.1 y.2 :: weave height child L ys
  := by
  rw [← List.nil_append (y :: ys), weave_append_cons [] hy ys, weave_low (Low.nil L), hchild,
    List.nil_append]

theorem weave_concat {child : List (K × V) → List (Entry K V A)} (hchild : child [] = [])
    {L : Nat} (xs : List (K × V)) {y : K × V} (hy : L ≤ height y.1) :
  weave height child L (xs ++ [y]) = weave height child L xs ++ [.leaf y.1 y.2]
  := by
  rw [weave_append_cons xs hy, weave_low (Low.nil L), hchild]

/-- The keys of the leaves are keys of the list. -/
theorem mem_of_leaf_mem_weave {child : List (K × V) → List (Entry K V A)}
    (hchild : ∀ gap k v, Entry.leaf k v ∉ child gap) {L : Nat} {xs : List (K × V)} {k : K} {v : V}
    (h : Entry.leaf k v ∈ weave height child L xs) :
  (k, v) ∈ xs ∧ L ≤ height k
  := by
  have haux : Entry.leaf k v ∈ (weaveAux height child L xs).2 → (k, v) ∈ xs ∧ L ≤ height k := by
    clear h
    induction xs with
    | nil => nofun
    | cons x xs ih =>
      obtain hx | hx := Nat.lt_or_ge (height x.1) L
      · rw [weaveAux_cons_low hx]
        intro hmem
        exact ⟨List.mem_cons_of_mem x (ih hmem).1, (ih hmem).2⟩
      · rw [weaveAux_cons_high hx]
        intro hmem
        obtain heq | hmem := List.mem_cons.mp hmem
        · cases heq
          exact ⟨List.mem_cons_self, hx⟩
        · obtain hgap | hrest := List.mem_append.mp hmem
          · exact absurd hgap (hchild _ k v)
          · exact ⟨List.mem_cons_of_mem x (ih hrest).1, (ih hrest).2⟩
  obtain hgap | hrest := List.mem_append.mp h
  · exact absurd hgap (hchild _ k v)
  · exact haux hrest

/-! ### Gaps -/

/-- The segment `gap` between `lo` and `hi` is a gap at layer `L`: its keys are low, and
the keys next to it, where there are any, are not. -/
structure Gap (height : K → Nat) (L : Nat) (lo gap hi : List (K × V)) : Prop where
  low : Low height L gap
  before : lo = [] ∨ ∃ lo' x, lo = lo' ++ [x] ∧ L ≤ height x.1
  after : hi = [] ∨ ∃ x hi', hi = x :: hi' ∧ L ≤ height x.1

theorem weave_gap {child : List (K × V) → List (Entry K V A)} (hchild : child [] = []) {L : Nat}
    {lo gap hi : List (K × V)} (h : Gap height L lo gap hi) :
  weave height child L (lo ++ gap ++ hi) =
    weave height child L lo ++ child gap ++ weave height child L hi
  := by
  have hnil : weave height child L ([] : List (K × V)) = [] := by
    rw [weave_low (Low.nil L), hchild]
  have hlo : weave height child L (lo ++ gap) = weave height child L lo ++ child gap := by
    obtain rfl | ⟨lo', x, rfl, hx⟩ := h.before
    · rw [hnil, List.nil_append, List.nil_append, weave_low h.low]
    · rw [List.append_assoc, List.singleton_append, weave_append_cons lo' hx,
        weave_concat hchild lo' hx, weave_low h.low, List.append_assoc]
      rfl
  obtain rfl | ⟨x, hi', rfl, hx⟩ := h.after
  · rw [hnil, List.append_nil, List.append_nil, hlo]
  · rw [weave_append_cons (lo ++ gap) hx, weave_cons hchild hx, hlo]

/-- Every position of a list is in a gap. -/
theorem exists_gap (height : K → Nat) (L : Nat) (lo hi : List (K × V)) :
  ∃ lo' left right hi', lo = lo' ++ left ∧ hi = right ++ hi' ∧
    Gap height L lo' (left ++ right) hi'
  := by
  let low : K × V → Bool := fun x => height x.1 < L
  use lo.rdropWhile low, lo.rtakeWhile low, hi.takeWhile low, hi.dropWhile low
  use List.rdropWhile_append_rtakeWhile.symm, List.takeWhile_append_dropWhile.symm
  constructor
  · apply Low.append
    · intro x hx
      simpa [low] using List.mem_rtakeWhile_imp hx
    · intro x hx
      simpa [low] using List.mem_takeWhile_imp hx
  · obtain hnil | ⟨init, x, hconcat⟩ := List.eq_nil_or_concat (lo.rdropWhile low)
    · exact Or.inl hnil
    · right
      rw [List.concat_eq_append] at hconcat
      use init, x, hconcat
      have hlast := List.rdropWhile_last_not low lo (by simp [hconcat])
      simpa [hconcat, low] using hlast
  · cases hdrop : hi.dropWhile low with
    | nil => exact Or.inl rfl
    | cons x hi' =>
      right
      use x, hi', rfl
      have hne : hi.dropWhile low ≠ [] := by simp [hdrop]
      have hhead := List.head_dropWhile_not low hne
      simpa [hdrop, low] using hhead

/-- Every list starts with a gap. -/
theorem exists_first_gap (height : K → Nat) (L : Nat) (xs : List (K × V)) :
  ∃ gap hi, xs = gap ++ hi ∧ Gap height L [] gap hi
  := by
  obtain ⟨lo, left, right, hi, hlo, rfl, hgap⟩ := exists_gap height L [] xs
  obtain ⟨rfl, rfl⟩ := List.append_eq_nil_iff.mp hlo.symm
  exact ⟨right, hi, rfl, hgap⟩

/-- Every list ends with a gap. -/
theorem exists_last_gap (height : K → Nat) (L : Nat) (xs : List (K × V)) :
  ∃ lo gap, xs = lo ++ gap ∧ Gap height L lo gap []
  := by
  obtain ⟨lo, left, right, hi, rfl, hnil, hgap⟩ := exists_gap height L xs []
  obtain ⟨rfl, rfl⟩ := List.append_eq_nil_iff.mp hnil.symm
  rw [List.append_nil] at hgap
  exact ⟨lo, left, rfl, hgap⟩

theorem Gap.low_zero {lo gap hi : List (K × V)} (h : Gap height 0 lo gap hi) :
  gap = []
  := by
  cases gap with
  | nil => rfl
  | cons x gap => exact absurd (h.low x List.mem_cons_self) (Nat.not_lt_zero _)

theorem low_or_exists (height : K → Nat) (L : Nat) (xs : List (K × V)) :
  Low height L xs ∨ ∃ lo x hi, xs = lo ++ x :: hi ∧ L ≤ height x.1
  := by
  by_cases h : ∃ x ∈ xs, L ≤ height x.1
  · right
    obtain ⟨x, hx, hheight⟩ := h
    obtain ⟨lo, hi, rfl⟩ := List.append_of_mem hx
    use lo, x, hi
  · left
    intro x hx
    by_contra hheight
    exact h ⟨x, hx, Nat.not_lt.mp hheight⟩

/-- A gap of a list whose keys are all low is the whole list. -/
theorem Gap.eq_whole {L : Nat} {lo gap hi : List (K × V)} (h : Gap height L lo gap hi)
    (hlow : Low height L (lo ++ gap ++ hi)) :
  lo = [] ∧ hi = []
  := by
  constructor
  · obtain hnil | ⟨lo', x, rfl, hx⟩ := h.before
    · exact hnil
    · have hlt := hlow x (by simp)
      omega
  · obtain hnil | ⟨x, hi', rfl, hx⟩ := h.after
    · exact hnil
    · have hlt := hlow x (by simp)
      omega

theorem Gap.whole {L : Nat} {xs : List (K × V)} (h : Low height L xs) :
  Gap height L [] xs []
  := ⟨h, Or.inl rfl, Or.inl rfl⟩

/-! ### The top layer -/

/-- The layer of the root: the largest height of a key. -/
def top (height : K → Nat) (xs : List (K × V)) : Nat :=
  xs.foldr (fun x layer => max (height x.1) layer) 0

theorem low_top (height : K → Nat) (xs : List (K × V)) :
  Low height (top height xs + 1) xs
  := by
  induction xs with
  | nil => exact Low.nil _
  | cons x xs ih =>
    intro y hy
    rw [top, List.foldr_cons, Nat.lt_succ_iff]
    obtain rfl | hy := List.mem_cons.mp hy
    · exact le_max_left _ _
    · exact (Nat.lt_succ_iff.mp (ih y hy)).trans (le_max_right _ _)

/-- The top layer holds a key. -/
theorem exists_height_eq_top {xs : List (K × V)} (h : xs ≠ []) :
  ∃ x ∈ xs, height x.1 = top height xs
  := by
  induction xs with
  | nil => exact absurd rfl h
  | cons x xs ih =>
    rw [top, List.foldr_cons]
    obtain rfl | hne := eq_or_ne xs []
    · exact ⟨x, List.mem_cons_self, (max_eq_left (Nat.zero_le _)).symm⟩
    · obtain ⟨y, hy, hheight⟩ := ih hne
      obtain hle | hle := Nat.le_total (height x.1) (top height xs)
      · exact ⟨y, List.mem_cons_of_mem x hy, hheight.trans (max_eq_right hle).symm⟩
      · exact ⟨x, List.mem_cons_self, (max_eq_left hle).symm⟩

theorem top_eq {L : Nat} {xs : List (K × V)} (hlow : Low height (L + 1) xs)
    (h : ∃ x ∈ xs, height x.1 = L) :
  top height xs = L
  := by
  obtain ⟨x, hx, rfl⟩ := h
  obtain ⟨y, hy, heq⟩ := exists_height_eq_top (List.ne_nil_of_mem hx)
  apply le_antisymm
  · rw [← heq]
    exact Nat.lt_succ_iff.mp (hlow y hy)
  · exact Nat.lt_succ_iff.mp (low_top height xs x hx)

/-! ### The nodes of the canonical tree -/

section Address

variable (height) (addr : List (Entry K V A) → A)

/-- The entries of the canonical node of a list at a layer. -/
def entries : Nat → List (K × V) → List (Entry K V A)
  | 0, xs => weave height (fun _ => []) 0 xs
  | L + 1, xs =>
    weave height (fun gap => if gap.isEmpty then [] else [.tree (addr (entries L gap))]) (L + 1) xs

/-- The address of the canonical node of a list at a layer. -/
def address (L : Nat) (xs : List (K × V)) : A := addr (entries height addr L xs)

/-- The address of the canonical node of a list, unless the list is empty. -/
def address? (L : Nat) (xs : List (K × V)) : Option A :=
  if xs.isEmpty then none else some (address height addr L xs)

/-- The entries of a gap at a layer: the address of its node one layer below. -/
def gapEntries : Nat → List (K × V) → List (Entry K V A)
  | 0, _ => []
  | L + 1, gap => (address? height addr L gap).toList.map .tree

variable {height} {addr}

@[simp]
theorem address?_nil (L : Nat) :
  address? height addr L ([] : List (K × V)) = none
  := rfl

theorem address?_of_ne_nil {L : Nat} {xs : List (K × V)} (h : xs ≠ []) :
  address? height addr L xs = some (address height addr L xs)
  := by
  simp [address?, h]

@[simp]
theorem gapEntries_nil (L : Nat) :
  gapEntries height addr L ([] : List (K × V)) = []
  := by
  cases L with
  | zero => rfl
  | succ L => rfl

theorem gapEntries_succ {L : Nat} {gap : List (K × V)} (h : gap ≠ []) :
  gapEntries height addr (L + 1) gap = [.tree (address height addr L gap)]
  := by
  rw [gapEntries, address?_of_ne_nil h]
  rfl

theorem leaf_not_mem_gapEntries (L : Nat) (gap : List (K × V)) (k : K) (v : V) :
  Entry.leaf k v ∉ gapEntries height addr L gap
  := by
  cases L with
  | zero => exact List.not_mem_nil
  | succ L => simp [gapEntries]

theorem entries_eq (L : Nat) (xs : List (K × V)) :
  entries height addr L xs = weave height (gapEntries height addr L) L xs
  := by
  cases L with
  | zero => rfl
  | succ L =>
    rw [entries]
    congr 1
    funext gap
    rw [gapEntries, address?]
    split_ifs
    · rfl
    · rfl

@[simp]
theorem entries_nil (L : Nat) :
  entries height addr L ([] : List (K × V)) = []
  := by
  rw [entries_eq, weave_low (Low.nil L), gapEntries_nil]

theorem entries_low {L : Nat} {xs : List (K × V)} (h : Low height L xs) :
  entries height addr L xs = gapEntries height addr L xs
  := by
  rw [entries_eq, weave_low h]

theorem entries_cons {L : Nat} {x : K × V} (hx : L ≤ height x.1) (xs : List (K × V)) :
  entries height addr L (x :: xs) = .leaf x.1 x.2 :: entries height addr L xs
  := by
  rw [entries_eq, weave_cons (gapEntries_nil L) hx, ← entries_eq]

theorem entries_concat {L : Nat} (xs : List (K × V)) {x : K × V} (hx : L ≤ height x.1) :
  entries height addr L (xs ++ [x]) = entries height addr L xs ++ [.leaf x.1 x.2]
  := by
  rw [entries_eq, weave_concat (gapEntries_nil L) xs hx, ← entries_eq]

theorem entries_append_cons {L : Nat} (xs : List (K × V)) {x : K × V} (hx : L ≤ height x.1)
    (ys : List (K × V)) :
  entries height addr L (xs ++ x :: ys) =
    entries height addr L xs ++ .leaf x.1 x.2 :: entries height addr L ys
  := by
  rw [entries_eq, weave_append_cons xs hx, ← entries_eq, ← entries_eq]

theorem entries_gap {L : Nat} {lo gap hi : List (K × V)} (h : Gap height L lo gap hi) :
  entries height addr L (lo ++ gap ++ hi) =
    entries height addr L lo ++ gapEntries height addr L gap ++ entries height addr L hi
  := by
  rw [entries_eq, weave_gap (gapEntries_nil L) h, ← entries_eq, ← entries_eq]

theorem mem_of_leaf_mem_entries {L : Nat} {xs : List (K × V)} {k : K} {v : V}
    (h : Entry.leaf k v ∈ entries height addr L xs) :
  (k, v) ∈ xs ∧ L ≤ height k
  := by
  rw [entries_eq] at h
  exact mem_of_leaf_mem_weave (leaf_not_mem_gapEntries L) h

theorem entries_ne_nil {L : Nat} {xs : List (K × V)} (h : xs ≠ []) :
  entries height addr L xs ≠ []
  := by
  obtain hlow | ⟨lo, x, hi, rfl, hx⟩ := low_or_exists height L xs
  · rw [entries_low hlow]
    cases L with
    | zero => exact absurd (Gap.whole hlow).low_zero h
    | succ L =>
      rw [gapEntries_succ h]
      exact List.cons_ne_nil _ _
  · rw [entries_append_cons lo hx]
    simp

theorem spaced_gapEntries_append (L : Nat) (gap : List (K × V)) {es : List (Entry K V A)}
    (hes : Spaced es) (hhead : es = [] ∨ ∃ k v rest, es = .leaf k v :: rest) :
  Spaced (gapEntries height addr L gap ++ es)
  := by
  obtain rfl | hne := eq_or_ne gap []
  · rw [gapEntries_nil]
    exact hes
  · cases L with
    | zero => exact hes
    | succ L =>
      rw [gapEntries_succ hne]
      obtain rfl | ⟨k, v, rest, rfl⟩ := hhead
      · trivial
      · exact hes

/-- The children of a node are separated by keys. -/
theorem spaced_entries (L : Nat) (xs : List (K × V)) :
  Spaced (entries height addr L xs)
  := by
  rw [entries_eq, weave]
  have haux : Spaced (weaveAux height (gapEntries height addr L) L xs).2 ∧
      ((weaveAux height (gapEntries height addr L) L xs).2 = [] ∨ ∃ k v rest,
        (weaveAux height (gapEntries height addr L) L xs).2 = .leaf k v :: rest) := by
    induction xs with
    | nil => exact ⟨trivial, Or.inl rfl⟩
    | cons x xs ih =>
      obtain hx | hx := Nat.lt_or_ge (height x.1) L
      · rw [weaveAux_cons_low hx]
        exact ih
      · rw [weaveAux_cons_high hx]
        constructor
        · exact spaced_gapEntries_append L _ ih.1 ih.2
        · exact Or.inr ⟨_, _, _, rfl⟩
  exact spaced_gapEntries_append L _ haux.1 haux.2

/-- The entries of a node are a single child exactly when all its keys are lower. -/
theorem entries_eq_tree_iff {L : Nat} {xs : List (K × V)} (h : xs ≠ []) :
  (∃ a, entries height addr L xs = [.tree a]) ↔ Low height L xs
  := by
  constructor
  · rintro ⟨a, ha⟩
    obtain hlow | ⟨lo, x, hi, rfl, hx⟩ := low_or_exists height L xs
    · exact hlow
    · rw [entries_append_cons lo hx] at ha
      have hmem : Entry.leaf x.1 x.2 ∈ [Entry.tree a] := by
        rw [← ha]
        simp
      simp at hmem
  · intro hlow
    rw [entries_low hlow]
    cases L with
    | zero => exact absurd (Gap.whole hlow).low_zero h
    | succ L => exact ⟨_, gapEntries_succ h⟩

end Address

end SearchTree
