import Atproto.SearchTree.Canonical

/-!
# The nodes around a position

A position of a sorted list is given by the keys before it.  The nodes around it, one at
each layer, are the nodes of the maximal low segments that the position is in or at the
end of.  They are what an operation at that position reads, so an incomplete store that
has them is as good as a complete one.
-/

namespace SearchTree

variable {K V A : Type} {height : K → Nat} {addr : List (Entry K V A) → A}

/-- The position given by `p` is in the gap, or at an end of it. -/
structure GapAt (height : K → Nat) (p : K → Prop) (L : Nat) (lo gap hi : List (K × V)) : Prop
    extends Gap height L lo gap hi where
  before_pos : ∀ x ∈ lo, p x.1
  after_pos : ∀ x ∈ hi, ¬ p x.1

private theorem GapAt.before_eq {p : K → Prop} {L : Nat} {lo gap hi extra gap' hi' : List (K × V)}
    (h : GapAt height p L lo gap hi) (h' : GapAt height p L (lo ++ extra) gap' hi')
    (heq : gap ++ hi = extra ++ (gap' ++ hi')) :
  extra = []
  := by
  obtain rfl | ⟨init, x, rfl⟩ := List.eq_nil_or_concat' extra
  · rfl
  · have hp := h'.before_pos x (by simp)
    have hhigh : L ≤ height x.1 := by
      obtain hnil | ⟨lo', y, hy, hheight⟩ := h'.before
      · simp at hnil
      · rw [← List.append_assoc] at hy
        rwa [(List.append_inj' hy rfl).2 |> List.cons.inj |>.1]
    have hmem : x ∈ gap ++ hi := by
      rw [heq]
      simp
    obtain hgap | hhi := List.mem_append.mp hmem
    · exact absurd (h.low x hgap) (Nat.not_lt.mpr hhigh)
    · exact absurd hp (h.after_pos x hhi)

private theorem Gap.after_eq {L : Nat} {lo gap hi lo' extra hi' : List (K × V)}
    (h : Gap height L lo (gap ++ extra) hi) (h' : Gap height L lo' gap (extra ++ hi')) :
  extra = []
  := by
  cases extra with
  | nil => rfl
  | cons x extra =>
    have hlow := h.low x (by simp)
    obtain hnil | ⟨y, rest, hy, hheight⟩ := h'.after
    · simp at hnil
    · rw [List.cons_append, List.cons.injEq] at hy
      rw [← hy.1] at hheight
      omega

/-- The position is in one gap only. -/
theorem GapAt.unique {p : K → Prop} {L : Nat} {lo gap hi lo' gap' hi' : List (K × V)}
    (h : GapAt height p L lo gap hi) (h' : GapAt height p L lo' gap' hi')
    (heq : lo ++ gap ++ hi = lo' ++ gap' ++ hi') :
  lo = lo' ∧ gap = gap' ∧ hi = hi'
  := by
  rw [List.append_assoc, List.append_assoc] at heq
  have hlo : lo = lo' := by
    obtain ⟨extra, rfl, hrest⟩ | ⟨extra, rfl, hrest⟩ := List.append_eq_append_iff.mp heq
    · rw [h.before_eq h' hrest, List.append_nil]
    · rw [h'.before_eq h hrest, List.append_nil]
  subst hlo
  have hrest := List.append_cancel_left heq
  obtain ⟨extra, rfl, rfl⟩ | ⟨extra, rfl, rfl⟩ := List.append_eq_append_iff.mp hrest
  · have hnil := h'.toGap.after_eq h.toGap
    simp [hnil]
  · have hnil := h.toGap.after_eq h'.toGap
    simp [hnil]

/-- Every position has a gap. -/
theorem exists_gapAt (height : K → Nat) (p : K → Prop) (L : Nat) {lo hi : List (K × V)}
    (hlo : ∀ x ∈ lo, p x.1) (hhi : ∀ x ∈ hi, ¬ p x.1) :
  ∃ lo' left right hi', lo = lo' ++ left ∧ hi = right ++ hi' ∧
    GapAt height p L lo' (left ++ right) hi'
  := by
  obtain ⟨lo', left, right, hi', rfl, rfl, hgap⟩ := exists_gap height L lo hi
  use lo', left, right, hi', rfl, rfl
  constructor
  · exact hgap
  · intro x hx
    exact hlo x (List.mem_append_left left hx)
  · intro x hx
    exact hhi x (List.mem_append_right right hx)

/-- The nodes around the position, up to layer `L`, have the property `has`. -/
def Around (height : K → Nat) (addr : List (Entry K V A) → A) (has : List (Entry K V A) → Prop) (p : K → Prop)
    (L : Nat) (xs : List (K × V)) : Prop :=
  ∀ l lo seg hi, l ≤ L → xs = lo ++ seg ++ hi → GapAt height p (l + 1) lo seg hi → seg ≠ [] →
    has (entries height addr l seg)

namespace Around

variable {has has' : List (Entry K V A) → Prop} {p q : K → Prop} {L : Nat} {xs : List (K × V)}

theorem mono (h : Around height addr has p L xs) (hhas : ∀ es, has es → has' es) :
  Around height addr has' p L xs
  := by
  intro l lo seg hi hl heq hgap hne
  exact hhas _ (h l lo seg hi hl heq hgap hne)

theorem nil (L : Nat) :
  Around height addr has p L ([] : List (K × V))
  := by
  intro l lo seg hi _ heq _ hne
  have hseg := (List.append_eq_nil_iff.mp (List.append_eq_nil_iff.mp heq.symm).1).2
  exact absurd hseg hne

/-- Only the keys of the list matter for the position. -/
theorem congr (h : Around height addr has p L xs) (hpq : ∀ x ∈ xs, p x.1 ↔ q x.1) :
  Around height addr has q L xs
  := by
  intro l lo seg hi hl heq hgap hne
  apply h l lo seg hi hl heq _ hne
  subst heq
  constructor
  · exact hgap.toGap
  · intro x hx
    exact (hpq x (by simp [hx])).mpr (hgap.before_pos x hx)
  · intro x hx
    exact fun hpx => hgap.after_pos x hx ((hpq x (by simp [hx])).mp hpx)

/-- Lower layers are enough for lower lists. -/
theorem of_le {M : Nat} (h : Around height addr has p L xs) (hM : M ≤ L) :
  Around height addr has p M xs
  := by
  intro l lo seg hi hl heq hgap hne
  exact h l lo seg hi (hl.trans hM) heq hgap hne

/-- The node itself is around every position. -/
theorem self (h : Around height addr has p L xs) (hlow : Low height (L + 1) xs) (hne : xs ≠ []) :
  has (entries height addr L xs)
  := by
  apply h L [] xs [] (le_refl L) (by simp) _ hne
  exact ⟨Gap.whole hlow, by simp, by simp⟩

/-- What is around the position in a gap is around it in the list. -/
theorem gap {lo gap hi : List (K × V)} (h : Around height addr has p (L + 1) (lo ++ gap ++ hi))
    (hgap : GapAt height p (L + 1) lo gap hi) :
  Around height addr has p L gap
  := by
  rintro l lo' seg hi' hl rfl hgap' hne
  apply h l (lo ++ lo') seg (hi' ++ hi) (by omega) (by simp) _ hne
  refine ⟨⟨hgap'.low, ?_, ?_⟩, ?_, ?_⟩
  · obtain rfl | ⟨init, x, rfl, hx⟩ := hgap'.before
    · obtain rfl | ⟨init, x, rfl, hx⟩ := hgap.before
      · exact Or.inl rfl
      · exact Or.inr ⟨init, x, by simp, by omega⟩
    · exact Or.inr ⟨lo ++ init, x, by simp, hx⟩
  · obtain rfl | ⟨x, rest, rfl, hx⟩ := hgap'.after
    · obtain rfl | ⟨x, rest, rfl, hx⟩ := hgap.after
      · exact Or.inl rfl
      · exact Or.inr ⟨x, rest, by simp, by omega⟩
    · exact Or.inr ⟨x, rest ++ hi, by simp, hx⟩
  · intro x hx
    obtain hx | hx := List.mem_append.mp hx
    · exact hgap.before_pos x hx
    · exact hgap'.before_pos x hx
  · intro x hx
    obtain hx | hx := List.mem_append.mp hx
    · exact hgap'.after_pos x hx
    · exact hgap.after_pos x hx

/-- The nodes around a position are the node itself and those around the position in its
gap. -/
theorem of_gap {lo gap hi : List (K × V)}
    (hself : lo ++ gap ++ hi ≠ [] → has (entries height addr L (lo ++ gap ++ hi)))
    (hlow : Low height (L + 1) (lo ++ gap ++ hi)) (hgap : GapAt height p L lo gap hi)
    (h : ∀ M, L = M + 1 → Around height addr has p M gap) :
  Around height addr has p L (lo ++ gap ++ hi)
  := by
  intro l lo' seg hi' hl heq hgap' hne
  obtain rfl | hlt := Nat.eq_or_lt_of_le hl
  · rw [heq] at hlow hself
    obtain ⟨rfl, rfl⟩ := hgap'.toGap.eq_whole hlow
    simpa using hself (by simpa using hne)
  · obtain ⟨M, rfl⟩ := Nat.exists_eq_succ_of_ne_zero (Nat.ne_zero_of_lt hlt)
    -- The segment lies in a gap of the next layers, which is the gap at the position.
    obtain ⟨lo₀, left, right, hi₀, rfl, hright, hgap₀⟩ := exists_gap height (M + 1) lo' (seg ++ hi')
    have hseg : ∃ rest, right = seg ++ rest ∧ hi' = rest ++ hi₀ := by
      obtain ⟨rest, hr, hh⟩ | ⟨rest, hr, hh⟩ := List.append_eq_append_iff.mp hright
      · exact ⟨rest, hr, hh⟩
      · use []
        cases rest with
        | nil => simp_all
        | cons x rest =>
          have hx := hgap'.low x (by simp [hr])
          obtain hnil | ⟨y, ys, hy, hheight⟩ := hgap₀.after
          · simp [hnil] at hh
          · rw [hy, List.cons_append, List.cons.injEq] at hh
            rw [hh.1] at hheight
            omega
    obtain ⟨rest, rfl, rfl⟩ := hseg
    have hgapAt : GapAt height p (M + 1) lo₀ (left ++ (seg ++ rest)) hi₀ := by
      refine ⟨hgap₀, ?_, ?_⟩
      · exact fun x hx => hgap'.before_pos x (by simp [hx])
      · exact fun x hx => hgap'.after_pos x (by simp [hx])
    obtain ⟨rfl, rfl, rfl⟩ := hgap.unique hgapAt (by simp [heq])
    apply h M rfl l left seg rest (by omega) (by simp) _ hne
    refine ⟨⟨hgap'.low, ?_, ?_⟩, ?_, ?_⟩
    · obtain rfl | ⟨init, x, rfl⟩ := List.eq_nil_or_concat' left
      · exact Or.inl rfl
      · obtain hnil | ⟨lo', y, hy, hheight⟩ := hgap'.before
        · simp at hnil
        · rw [← List.append_assoc] at hy
          rw [← (List.cons.inj (List.append_inj' hy rfl).2).1] at hheight
          exact Or.inr ⟨init, x, rfl, hheight⟩
    · cases rest with
      | nil => exact Or.inl rfl
      | cons x rest =>
        obtain hnil | ⟨y, ys, hy, hheight⟩ := hgap'.after
        · simp at hnil
        · rw [List.cons_append, List.cons.injEq] at hy
          rw [← hy.1] at hheight
          exact Or.inr ⟨x, rest, rfl, hheight⟩
    · exact fun x hx => hgap'.before_pos x (by simp [hx])
    · exact fun x hx => hgap'.after_pos x (by simp [hx])

end Around

/-! ### Positions apart from a changed key -/

section Frame

variable [LinearOrder K] {has : List (Entry K V A) → Prop} {p : K → Prop} {L L' : Nat} {k : K}
  {xs xs' : List (K × V)}

/-- A node to the right of the changed key is a node of the old list. -/
private theorem Around.frame_right (h : Around height addr has p L xs)
    (hp : ∀ a b, a < b → p b → p a) (hs : Sorted xs) (hlow : Low height (L + 1) xs)
    (hagree : AgreeOff k xs xs') {l : Nat} {lo seg hi : List (K × V)}
    (hs' : Sorted (lo ++ seg ++ hi)) (heq : xs' = lo ++ seg ++ hi)
    (hgap : GapAt height p (l + 1) lo seg hi) (hne : seg ≠ []) (hk : ∃ x ∈ lo, k < x.1) :
  has (entries height addr l seg)
  := by
  obtain ⟨x, hx, hkx⟩ := hk
  obtain ⟨rest, hxs, hrest⟩ := hs.exists_above k
  rw [List.append_assoc] at hs' heq
  have hright : above k (seg ++ hi) = seg ++ hi :=
    above_eq_self fun y hy => hkx.trans (hs'.lt hx hy)
  rw [hagree.2, heq, above_append, hright] at hxs
  obtain rfl | ⟨init, z, rfl, hz⟩ := hgap.before
  · cases hx
  have hkz : k < z.1 := by
    obtain hinit | hlast := List.mem_append.mp hx
    · exact hkx.trans (hs'.left.lt hinit (List.mem_singleton_self z))
    · rwa [← List.mem_singleton.mp hlast]
  have hlast : above k (init ++ [z]) = above k init ++ [z] := by
    have hsingle : above k [z] = [z] := above_eq_self (by simpa using hkz)
    rw [above_append, hsingle]
  rw [hlast] at hxs
  have hzL := hlow z (by simp [hxs])
  apply h l (rest ++ (above k init ++ [z])) seg hi (by omega) (by simp [hxs]) _ hne
  refine ⟨⟨hgap.low, Or.inr ⟨rest ++ above k init, z, by simp, hz⟩, hgap.after⟩, ?_, ?_⟩
  · intro y hy
    have hpz := hgap.before_pos z (by simp)
    obtain hy | hy := List.mem_append.mp hy
    · exact hp _ _ ((hrest y hy).trans_lt hkz) hpz
    · apply hgap.before_pos y
      rw [← hlast] at hy
      exact mem_of_mem_above hy
  · exact hgap.after_pos

/-- A node to the left of the changed key is a node of the old list. -/
private theorem Around.frame_left (h : Around height addr has p L xs)
    (hp : ∀ a b, a < b → p b → p a) (hs : Sorted xs) (hlow : Low height (L + 1) xs)
    (hagree : AgreeOff k xs xs') {l : Nat} {lo seg hi : List (K × V)}
    (hs' : Sorted (lo ++ seg ++ hi)) (heq : xs' = lo ++ seg ++ hi)
    (hgap : GapAt height p (l + 1) lo seg hi) (hne : seg ≠ []) (hk : ∃ x ∈ hi, x.1 < k) :
  has (entries height addr l seg)
  := by
  obtain ⟨x, hx, hkx⟩ := hk
  obtain ⟨rest, hxs, hrest⟩ := hs.exists_below k
  have hleft : below k (lo ++ seg) = lo ++ seg :=
    below_eq_self fun y hy => (hs'.lt hy hx).trans hkx
  rw [hagree.1, heq, below_append, hleft] at hxs
  obtain rfl | ⟨z, init, rfl, hz⟩ := hgap.after
  · cases hx
  have hkz : z.1 < k := by
    obtain rfl | hinit := List.mem_cons.mp hx
    · exact hkx
    · exact (hs'.right.cons_lt hinit).trans hkx
  have hhead : below k (z :: init) = z :: below k init := by
    rw [below, List.filter_cons_of_pos (by simpa using hkz)]
    rfl
  rw [hhead] at hxs
  have hzL := hlow z (by simp [hxs])
  apply h l lo seg (z :: below k init ++ rest) (by omega) (by simp [hxs]) _ hne
  refine ⟨⟨hgap.low, hgap.before, Or.inr ⟨z, below k init ++ rest, by simp, hz⟩⟩, ?_, ?_⟩
  · exact hgap.before_pos
  · intro y hy hpy
    have hpz := hgap.after_pos z (by simp)
    obtain hy | hy := List.mem_append.mp hy
    · rw [← hhead] at hy
      exact hgap.after_pos y (mem_of_mem_below hy) hpy
    · exact hpz (hp _ _ (hkz.trans_le (hrest y hy)) hpy)

/-- After a change at the key `k`, the nodes around another position are nodes around the
key or were around that position before. -/
theorem Around.frame (h : Around height addr has p L xs) (hp : ∀ a b, a < b → p b → p a)
    (hs : Sorted xs) (hs' : Sorted xs') (hlow : Low height (L + 1) xs)
    (hagree : AgreeOff k xs xs') (hlt : Around height addr has (· < k) L' xs')
    (hle : Around height addr has (· ≤ k) L' xs') :
  Around height addr has p L' xs'
  := by
  intro l lo seg hi hl heq hgap hne
  have hsorted : Sorted (lo ++ seg ++ hi) := heq ▸ hs'
  by_cases hright : ∃ x ∈ lo, k < x.1
  · exact h.frame_right hp hs hlow hagree hsorted heq hgap hne hright
  by_cases hleft : ∃ x ∈ hi, x.1 < k
  · exact h.frame_left hp hs hlow hagree hsorted heq hgap hne hleft
  have hlo : ∀ x ∈ lo, x.1 ≤ k := fun x hx => not_lt.mp fun hkx => hright ⟨x, hx, hkx⟩
  have hhi : ∀ x ∈ hi, k ≤ x.1 := fun x hx => not_lt.mp fun hkx => hleft ⟨x, hx, hkx⟩
  by_cases hmem : ∃ x ∈ lo, x.1 = k
  · obtain ⟨x, hx, rfl⟩ := hmem
    apply hle l lo seg hi hl heq _ hne
    refine ⟨hgap.toGap, hlo, ?_⟩
    intro y hy
    exact not_le.mpr (hsorted.lt (List.mem_append_left seg hx) hy)
  · apply hlt l lo seg hi hl heq _ hne
    refine ⟨hgap.toGap, ?_, fun y hy => not_lt.mpr (hhi y hy)⟩
    intro x hx
    exact lt_of_le_of_ne (hlo x hx) fun hxk => hmem ⟨x, hx, hxk⟩

end Frame

end SearchTree
