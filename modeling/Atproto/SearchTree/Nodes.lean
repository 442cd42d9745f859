import Atproto.SearchTree.Canonical

/-!
# All nodes of a tree

The nodes of the canonical tree of a list are those of the maximal low segments of the
list.  Where different nodes have different addresses, an address determines the layer and
the list it stands for.
-/

namespace SearchTree

variable {K V A : Type} {height : K → Nat} {addr : List (Entry K V A) → A}

/-- The segment `seg` of `xs` has a node at layer `l`. -/
def IsNode (height : K → Nat) (l : Nat) (seg xs : List (K × V)) : Prop :=
  seg ≠ [] ∧ ∃ lo hi, xs = lo ++ seg ++ hi ∧ Gap height (l + 1) lo seg hi

namespace IsNode

variable {l L : Nat} {seg xs lo gap hi : List (K × V)}

theorem mem (h : IsNode height l seg xs) {x : K × V} (hx : x ∈ seg) :
  x ∈ xs
  := by
  obtain ⟨-, lo, hi, rfl, -⟩ := h
  simp [hx]

theorem low (h : IsNode height l seg xs) :
  Low height (l + 1) seg
  := by
  obtain ⟨-, lo, hi, -, hgap⟩ := h
  exact hgap.low

theorem whole (hlow : Low height (L + 1) xs) (hne : xs ≠ []) :
  IsNode height L xs xs
  := ⟨hne, [], [], by simp, Gap.whole hlow⟩

/-- The nodes of a gap are nodes of the list. -/
theorem of_gap (h : IsNode height l seg gap) (hgap : Gap height L lo gap hi) (hl : l < L) :
  IsNode height l seg (lo ++ gap ++ hi)
  := by
  obtain ⟨hne, lo', hi', rfl, hgap'⟩ := h
  use hne, lo ++ lo', hi' ++ hi, by simp
  refine ⟨hgap'.low, ?_, ?_⟩
  · obtain rfl | ⟨init, x, rfl, hx⟩ := hgap'.before
    · obtain rfl | ⟨init, x, rfl, hx⟩ := hgap.before
      · exact Or.inl rfl
      · exact Or.inr ⟨init, x, by simp, by omega⟩
    · exact Or.inr ⟨lo ++ init, x, by simp, hx⟩
  · obtain rfl | ⟨x, rest, rfl, hx⟩ := hgap'.after
    · obtain rfl | ⟨x, rest, rfl, hx⟩ := hgap.after
      · exact Or.inl rfl
      · exact Or.inr ⟨x, rest, by simp, by omega⟩
    · exact Or.inr ⟨x, rest ++ hi, by simp, hx⟩

/-- The nodes after a high key are nodes of the list. -/
theorem of_tail {x : K × V} (h : IsNode height l seg hi) (hx : L ≤ height x.1) (hl : l < L) :
  IsNode height l seg (lo ++ x :: hi)
  := by
  obtain ⟨hne, lo', hi', rfl, hgap⟩ := h
  use hne, lo ++ x :: lo', hi', by simp
  refine ⟨hgap.low, ?_, hgap.after⟩
  right
  obtain rfl | ⟨init, y, rfl, hy⟩ := hgap.before
  · exact ⟨lo, x, rfl, by omega⟩
  · exact ⟨lo ++ x :: init, y, by simp, hy⟩

end IsNode

/-- `has` holds of the entries of every node up to layer `L`. -/
def Throughout (height : K → Nat) (addr : List (Entry K V A) → A)
    (has : List (Entry K V A) → Prop) (L : Nat) (xs : List (K × V)) : Prop :=
  ∀ l ≤ L, ∀ seg, IsNode height l seg xs → has (entries height addr l seg)

namespace Throughout

variable {has : List (Entry K V A) → Prop} {L : Nat} {xs lo hi : List (K × V)}

theorem mono {has' : List (Entry K V A) → Prop} (h : Throughout height addr has L xs)
    (hhas : ∀ es, has es → has' es) :
  Throughout height addr has' L xs
  := fun l hl seg hseg => hhas _ (h l hl seg hseg)

theorem self (h : Throughout height addr has L xs) (hlow : Low height (L + 1) xs) (hne : xs ≠ []) :
  has (entries height addr L xs)
  := h L (le_refl L) xs (IsNode.whole hlow hne)

theorem inner {gap : List (K × V)} (h : Throughout height addr has (L + 1) (lo ++ gap ++ hi))
    (hgap : Gap height (L + 1) lo gap hi) :
  Throughout height addr has L gap
  := fun l hl seg hseg => h l (hl.trans (Nat.le_succ L)) seg (hseg.of_gap hgap (Nat.lt_succ_of_le hl))

/-- The nodes below a node are nodes of the tree. -/
theorem node {l : Nat} {seg : List (K × V)} (h : Throughout height addr has L xs)
    (hseg : IsNode height l seg xs) (hl : l ≤ L) :
  Throughout height addr has l seg
  := by
  intro m hm seg' hseg'
  obtain ⟨-, lo, hi, rfl, hgap⟩ := hseg
  exact h m (hm.trans hl) seg' (hseg'.of_gap hgap (Nat.lt_succ_of_le hm))

theorem of_le {M : Nat} (h : Throughout height addr has L xs) (hM : M ≤ L) :
  Throughout height addr has M xs
  := fun l hl seg hseg => h l (hl.trans hM) seg hseg

end Throughout

/-! ### An address determines its list -/

/-- The first leaf of a list of entries splits it in one way only. -/
theorem leaf_split {es es' rest rest' : List (Entry K V A)} {k k' : K} {v v' : V}
    (hes : ∀ k v, Entry.leaf k v ∉ es) (hes' : ∀ k v, Entry.leaf k v ∉ es')
    (h : es ++ .leaf k v :: rest = es' ++ .leaf k' v' :: rest') :
  es = es' ∧ k = k' ∧ v = v' ∧ rest = rest'
  := by
  obtain ⟨more, rfl, hrest⟩ | ⟨more, rfl, hrest⟩ := List.append_eq_append_iff.mp h
  · cases more with
    | nil =>
      cases hrest
      simp
    | cons e more =>
      cases hrest
      exact absurd (by simp) (hes' k v)
  · cases more with
    | nil =>
      cases hrest
      simp
    | cons e more =>
      cases hrest
      exact absurd (by simp) (hes k' v')

theorem weave_first {child : List (K × V) → List (Entry K V A)} (hchild : child [] = []) {L : Nat}
    {gap hi : List (K × V)} (h : Gap height L [] gap hi) :
  weave height child L (gap ++ hi) = child gap ++ weave height child L hi
  := by
  have hgap := weave_gap hchild h
  rwa [List.nil_append, weave_low (Low.nil L), hchild, List.nil_append] at hgap

/-- Interleaved lists are equal when the entries of their gaps determine the gaps. -/
theorem weave_inj {child : List (K × V) → List (Entry K V A)} {L : Nat}
    {good : List (K × V) → Prop} (hchild : child [] = [])
    (hleaf : ∀ gap k v, Entry.leaf k v ∉ child gap)
    (hgood : ∀ gap gap', good gap → good gap' → child gap = child gap' → gap = gap') :
  ∀ (n : Nat) (xs ys : List (K × V)), xs.length < n →
    (∀ lo gap hi, xs = lo ++ gap ++ hi → Gap height L lo gap hi → good gap) →
    (∀ lo gap hi, ys = lo ++ gap ++ hi → Gap height L lo gap hi → good gap) →
    weave height child L xs = weave height child L ys → xs = ys
  := by
  intro n
  induction n with
  | zero => nofun
  | succ n ih =>
    intro xs ys hn hxs hys h
    obtain ⟨gap, hi, rfl, hgap⟩ := exists_first_gap height L xs
    obtain ⟨gap', hi', rfl, hgap'⟩ := exists_first_gap height L ys
    have hsame : child gap = child gap' → gap = gap' :=
      hgood gap gap' (hxs [] gap hi rfl hgap) (hys [] gap' hi' rfl hgap')
    have hnil : weave height child L ([] : List (K × V)) = [] := by
      rw [weave_low (Low.nil L), hchild]
    rw [weave_first hchild hgap, weave_first hchild hgap'] at h
    obtain rfl | ⟨x, rest, rfl, hx⟩ := hgap.after
    · obtain rfl | ⟨x', rest', rfl, hx'⟩ := hgap'.after
      · rw [hnil, List.append_nil, List.append_nil] at h
        rw [hsame h]
      · rw [hnil, List.append_nil, weave_cons hchild hx'] at h
        exact absurd (by simp [h]) (hleaf gap x'.1 x'.2)
    · obtain rfl | ⟨x', rest', rfl, hx'⟩ := hgap'.after
      · rw [hnil, List.append_nil, weave_cons hchild hx] at h
        exact absurd (by simp [← h]) (hleaf gap' x.1 x.2)
      · rw [weave_cons hchild hx, weave_cons hchild hx'] at h
        obtain ⟨hchildren, hk, hv, hrest⟩ := leaf_split (hleaf gap) (hleaf gap') h
        -- The gaps after the first key are gaps of the whole list.
        have htail : ∀ {first last : List (K × V)} {y : K × V}, L ≤ height y.1 →
            (∀ lo gap hi, first ++ y :: last = lo ++ gap ++ hi → Gap height L lo gap hi →
              good gap) →
            ∀ lo gap hi, last = lo ++ gap ++ hi → Gap height L lo gap hi → good gap := by
          rintro first last y hy hall lo gap hi rfl hgap
          apply hall (first ++ y :: lo) gap hi (by simp)
          refine ⟨hgap.low, ?_, hgap.after⟩
          obtain rfl | ⟨init, z, rfl, hz⟩ := hgap.before
          · exact Or.inr ⟨first, y, rfl, hy⟩
          · exact Or.inr ⟨first ++ y :: init, z, by simp, hz⟩
        have hlast := ih rest rest' (by simp at hn; omega) (htail hx hxs) (htail hx' hys) hrest
        rw [hsame hchildren, hlast, Prod.ext hk hv]

section Inj

variable {has : List (Entry K V A) → Prop}

/-- A gap whose nodes are all there. -/
private def Known (height : K → Nat) (addr : List (Entry K V A) → A)
    (has : List (Entry K V A) → Prop) (L : Nat) (gap : List (K × V)) : Prop :=
  Low height L gap ∧ ∀ M, L = M + 1 → Throughout height addr has M gap

private theorem known_of_gap {L : Nat} {xs lo gap hi : List (K × V)}
    (h : Throughout height addr has L xs) (hxs : xs = lo ++ gap ++ hi)
    (hgap : Gap height L lo gap hi) :
  Known height addr has L gap
  := by
  use hgap.low
  rintro M rfl
  subst hxs
  exact h.inner hgap

/-- Where addresses are unique among the nodes of two trees, their roots have the same
address only when the lists are the same and at the same layer. -/
theorem address_inj (haddr : ∀ es es', has es → has es' → addr es = addr es' → es = es') :
  ∀ (L M : Nat) (xs ys : List (K × V)), Low height (L + 1) xs → Low height (M + 1) ys →
    xs ≠ [] → ys ≠ [] → Throughout height addr has L xs → Throughout height addr has M ys →
    address height addr L xs = address height addr M ys → L = M ∧ xs = ys
  := by
  intro L
  induction L using Nat.strong_induction_on with
  | h L ih =>
    intro M xs ys hlow hlow' hxs hys hhas hhas' h
    have hentries : entries height addr L xs = entries height addr M ys :=
      haddr _ _ (hhas.self hlow hxs) (hhas'.self hlow' hys) h
    obtain hlower | ⟨lo, x, hi, rfl, hx⟩ := low_or_exists height L xs
    · -- A layer of pure structure over the same list.
      have hlower' : Low height M ys := by
        rw [← @entries_eq_tree_iff _ _ _ _ addr M ys hys, ← hentries, entries_eq_tree_iff hxs]
        exact hlower
      cases L with
      | zero => exact absurd (Gap.whole hlower).low_zero hxs
      | succ L =>
        cases M with
        | zero => exact absurd (Gap.whole hlower').low_zero hys
        | succ M =>
          rw [entries_low hlower, entries_low hlower', gapEntries_succ hxs,
            gapEntries_succ hys] at hentries
          simp only [List.cons.injEq, Entry.tree.injEq, and_true] at hentries
          obtain ⟨rfl, heq⟩ := ih L (Nat.lt_succ_self L) M xs ys hlower hlower' hxs hys
            (hhas.of_le (Nat.le_succ L)) (hhas'.of_le (Nat.le_succ M)) hentries
          exact ⟨rfl, heq⟩
    · -- A key of the node tells the layer, and the gaps are the same by induction.
      have hmem : Entry.leaf x.1 x.2 ∈ entries height addr M ys := by
        rw [← hentries, entries_append_cons lo hx]
        simp
      obtain ⟨hin, hle⟩ := mem_of_leaf_mem_entries hmem
      have hltL := hlow x (by simp)
      have hltM := hlow' (x.1, x.2) hin
      obtain rfl : L = M := by
        simp only at hltM
        omega
      use rfl
      rw [entries_eq, entries_eq] at hentries
      have hgood : ∀ gap gap', Known height addr has L gap → Known height addr has L gap' →
          gapEntries height addr L gap = gapEntries height addr L gap' → gap = gap' := by
        rintro gap gap' ⟨hgap, hknown⟩ ⟨hgap', hknown'⟩ heq
        cases L with
        | zero => rw [(Gap.whole hgap).low_zero, (Gap.whole hgap').low_zero]
        | succ L =>
          obtain rfl | hne := eq_or_ne gap []
          · obtain rfl | hne' := eq_or_ne gap' []
            · rfl
            · rw [gapEntries_nil, gapEntries_succ hne'] at heq
              cases heq
          · obtain rfl | hne' := eq_or_ne gap' []
            · rw [gapEntries_nil, gapEntries_succ hne] at heq
              cases heq
            · rw [gapEntries_succ hne, gapEntries_succ hne'] at heq
              simp only [List.cons.injEq, Entry.tree.injEq, and_true] at heq
              exact (ih L (Nat.lt_succ_self L) L gap gap' hgap hgap' hne hne' (hknown L rfl)
                (hknown' L rfl) heq).2
      apply weave_inj (gapEntries_nil L) (leaf_not_mem_gapEntries L) hgood _ _ _
        (Nat.lt_succ_self _) _ _ hentries
      · exact fun _ _ _ heq hgap => known_of_gap hhas heq hgap
      · exact fun _ _ _ heq hgap => known_of_gap hhas' heq hgap

end Inj

end SearchTree
