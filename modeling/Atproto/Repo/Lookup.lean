import Atproto.Repo.Canonical

/-!
# Looking up a key

A key splits the child list of a node at the first leaf that is not below it.  What the
operations find there, the leaf of the key or the subtree before it, is the head of the
rest of the list or the gap that the key falls into.
-/

namespace Atproto.Repo

open Atproto.Dasl SearchTree Logic

variable {ctx : Context} {U : Key × Cid → Prop} {S : BlockStore ctx.sha256}
  {L : Nat} {key : Key} {value : Cid} {lo gap hi xs : List (Key × Cid)}

/-! ### The child list of a node at a key -/

theorem findLeafIndex_append {es es' : List NodeEntry}
    (hes : ∀ k v, Entry.leaf k v ∈ es → k < key)
    (hes' : es' = [] ∨ ∃ k v rest, es' = .leaf k v :: rest ∧ key ≤ k) :
  findLeafIndex (es ++ es') key = es.length
  := by
  induction es with
  | nil =>
    obtain rfl | ⟨k, v, rest, rfl, hk⟩ := hes'
    · rfl
    · simp [findLeafIndex, leafKey, hk]
  | cons e es ih =>
    have hrest := ih fun k v hmem => hes k v (List.mem_cons_of_mem e hmem)
    cases e with
    | leaf k v =>
      have hk := hes k v List.mem_cons_self
      simp [findLeafIndex, leafKey, hk, hrest]
    | tree child => simp [findLeafIndex, leafKey, hrest]

/-- The child list before the key: the entries before the gap and the child of the gap. -/
def entriesBefore (ctx : Context) (L : Nat) (lo gap : List (Key × Cid)) : List NodeEntry :=
  canonicalEntries ctx L lo ++ gapEntries (keyHeight ctx.sha256) (nodeCid ctx) L gap

/-- The gap of a key among the keys of a node. -/
abbrev GapOf (ctx : Context) (key : Key) (L : Nat) (lo gap hi : List (Key × Cid)) : Prop :=
  GapAt (keyHeight ctx.sha256) (· < key) L lo gap hi

theorem canonicalEntries_gap (h : GapOf ctx key L lo gap hi) :
  canonicalEntries ctx L (lo ++ gap ++ hi) = entriesBefore ctx L lo gap ++ canonicalEntries ctx L hi
  := entries_gap h.toGap

theorem canonicalEntries_after (h : GapOf ctx key L lo gap hi) :
  canonicalEntries ctx L hi = [] ∨
    ∃ k v rest, canonicalEntries ctx L hi = .leaf k v :: rest ∧ key ≤ k
  := by
  obtain rfl | ⟨x, hi', rfl, hx⟩ := h.after
  · exact Or.inl (entries_nil L)
  · have hkey := not_lt.mp (h.after_pos x List.mem_cons_self)
    exact Or.inr ⟨x.1, x.2, _, entries_cons hx hi', hkey⟩

theorem findLeafIndex_before (h : GapOf ctx key L lo gap hi) :
  findLeafIndex (entriesBefore ctx L lo gap ++ canonicalEntries ctx L hi) key =
    (entriesBefore ctx L lo gap).length
  := by
  apply findLeafIndex_append _ (canonicalEntries_after h)
  intro k v hmem
  obtain hlo | hgap := List.mem_append.mp hmem
  · exact h.before_pos (k, v) (mem_of_leaf_mem_entries hlo).1
  · exact absurd hgap (leaf_not_mem_gapEntries L gap k v)

/-- The key is the first key after its gap, or all of these are above it. -/
theorem head_eq_or_above (hs : Sorted hi) (h : ∀ x ∈ hi, ¬ x.1 < key) :
  (∃ v hi', hi = (key, v) :: hi') ∨ ∀ x ∈ hi, key < x.1
  := by
  cases hi with
  | nil => exact Or.inr nofun
  | cons x hi =>
    obtain heq | hlt := eq_or_lt_of_le (not_lt.mp (h x List.mem_cons_self))
    · exact Or.inl ⟨x.2, hi, by rw [heq]⟩
    · right
      intro y hy
      obtain rfl | hy := List.mem_cons.mp hy
      · exact hlt
      · exact hlt.trans (hs.cons_lt hy)

theorem le_height_of_head (h : GapOf ctx key L lo gap ((key, value) :: hi)) :
  L ≤ keyHeight ctx.sha256 key
  := by
  obtain hnil | ⟨x, rest, heq, hx⟩ := h.after
  · cases hnil
  · cases heq
    exact hx

theorem canonicalEntries_head (h : GapOf ctx key L lo gap ((key, value) :: hi)) :
  canonicalEntries ctx L ((key, value) :: hi) = .leaf key value :: canonicalEntries ctx L hi
  := entries_cons (le_height_of_head h) hi

theorem leafAt_of_head {es es' : List NodeEntry} :
  leafAt (es ++ .leaf key value :: es') es.length key = some value
  := by
  simp [leafAt]

theorem leafAt_of_above (h : GapOf ctx key L lo gap hi) (hhi : ∀ x ∈ hi, key < x.1) :
  leafAt (entriesBefore ctx L lo gap ++ canonicalEntries ctx L hi)
    (entriesBefore ctx L lo gap).length key = none
  := by
  obtain rfl | ⟨x, hi', rfl, hx⟩ := h.after
  · simp [leafAt, canonicalEntries]
  · have hne := (hhi x List.mem_cons_self).ne'
    have hentries : canonicalEntries ctx L (x :: hi') =
      .leaf x.1 x.2 :: canonicalEntries ctx L hi' := entries_cons hx hi'
    simp [leafAt, hentries, hne]

theorem childBefore_append (es es' : List NodeEntry) :
  childBefore (es ++ es') es.length =
    match es.getLast? with
    | some (.tree child) => some child
    | _ => none
  := by
  obtain rfl | ⟨init, e, rfl⟩ := List.eq_nil_or_concat' es
  · rfl
  · simp only [childBefore, List.length_append, List.length_cons, List.length_nil,
      List.getLast?_append_cons, List.getLast?_singleton]
    cases e with
    | leaf k v => simp
    | tree child => simp

/-- There is no subtree before the key when its gap is empty. -/
theorem getLast?_entriesBefore_nil (h : Gap (keyHeight ctx.sha256) L lo [] hi) :
  ∀ child, (entriesBefore ctx L lo []).getLast? ≠ some (.tree child)
  := by
  intro child
  rw [entriesBefore, gapEntries_nil, List.append_nil]
  obtain rfl | ⟨lo', x, rfl, hx⟩ := h.before
  · simp [canonicalEntries]
  · have hentries : canonicalEntries ctx L (lo' ++ [x]) =
      canonicalEntries ctx L lo' ++ [.leaf x.1 x.2] := entries_concat lo' hx
    simp [hentries]

theorem childBefore_of_nil (h : Gap (keyHeight ctx.sha256) L lo [] hi) (es : List NodeEntry) :
  childBefore (entriesBefore ctx L lo [] ++ es) (entriesBefore ctx L lo []).length = none
  := by
  rw [childBefore_append]
  have hlast := getLast?_entriesBefore_nil h
  split
  · next child heq => exact absurd heq (hlast child)
  · rfl

theorem entriesBefore_of_ne_nil (hne : gap ≠ []) :
  entriesBefore ctx (L + 1) lo gap =
    canonicalEntries ctx (L + 1) lo ++ [.tree (canonicalCid ctx L gap)]
  := by
  rw [entriesBefore, gapEntries_succ hne]

/-- The subtree before the key is the one of its gap. -/
theorem childBefore_of_ne_nil (hne : gap ≠ []) (es : List NodeEntry) :
  childBefore (entriesBefore ctx (L + 1) lo gap ++ es)
    (entriesBefore ctx (L + 1) lo gap).length = some (canonicalCid ctx L gap)
  := by
  rw [childBefore_append, entriesBefore_of_ne_nil hne]
  simp

/-- A gap of a node at layer zero is empty. -/
theorem exists_succ_of_gap_ne_nil (h : GapOf ctx key L lo gap hi) (hne : gap ≠ []) :
  ∃ M, L = M + 1
  := by
  cases L with
  | zero => exact absurd h.toGap.low_zero hne
  | succ M => exact ⟨M, rfl⟩

/-- Every list has a gap of a key, and the key splits it. -/
theorem exists_gapOf (ctx : Context) (hs : Sorted xs) (key : Key) (L : Nat) :
  ∃ lo left right hi, xs = lo ++ (left ++ right) ++ hi ∧ GapOf ctx key L lo (left ++ right) hi ∧
    (∀ x ∈ left, x.1 < key) ∧ ∀ x ∈ right, key ≤ x.1
  := by
  obtain ⟨lower, upper, rfl, hlower, hupper⟩ := hs.exists_split key
  have hupper' : ∀ x ∈ upper, ¬ x.1 < key := fun x hx => not_lt.mpr (hupper x hx)
  obtain ⟨lo, left, right, hi, rfl, rfl, hgap⟩ := exists_gapAt (keyHeight ctx.sha256)
      (· < key) L hlower hupper'
  use lo, left, right, hi, by simp, hgap
  constructor
  · exact fun x hx => hlower x (List.mem_append_right lo hx)
  · exact fun x hx => hupper x (List.mem_append_left hi hx)

theorem gap_left (h : GapOf ctx key L lo (gap ++ xs) hi) :
  Gap (keyHeight ctx.sha256) L lo gap []
  := ⟨h.low.left, h.before, Or.inl rfl⟩

theorem gap_right (h : GapOf ctx key L lo (gap ++ xs) hi) :
  Gap (keyHeight ctx.sha256) L [] xs hi
  := ⟨h.low.right, Or.inl rfl, h.after⟩

/-- A key is a key of the node, with gaps on both of its sides, or it falls into a gap. -/
theorem key_cases (ctx : Context) (hs : Sorted xs) (key : Key) (L : Nat) :
  (∃ lo left v right hi, xs = lo ++ left ++ (key, v) :: (right ++ hi) ∧
      Gap (keyHeight ctx.sha256) L lo left [] ∧ Gap (keyHeight ctx.sha256) L [] right hi ∧
      L ≤ keyHeight ctx.sha256 key) ∨
    ∃ lo left right hi, xs = lo ++ (left ++ right) ++ hi ∧ GapOf ctx key L lo (left ++ right) hi ∧
      (∀ x ∈ left, x.1 < key) ∧ (∀ x ∈ right, key ≤ x.1) ∧ ∀ x ∈ hi, key < x.1
  := by
  obtain ⟨lo, left, right, hi, rfl, hgap, hleft, hright⟩ := exists_gapOf ctx hs key L
  obtain ⟨v, rest, rfl⟩ | habove := head_eq_or_above hs.right hgap.after_pos
  · left
    have hnil : right = [] := by
      apply List.eq_nil_iff_forall_not_mem.mpr
      intro x hx
      exact absurd (hs.lt (by simp [hx]) List.mem_cons_self) (hright x hx).not_gt
    subst hnil
    obtain ⟨right, hi, rfl, hfirst⟩ := exists_first_gap (keyHeight ctx.sha256) L rest
    use lo, left, v, right, hi, by simp
    exact ⟨gap_left hgap, hfirst, le_height_of_head hgap⟩
  · right
    exact ⟨lo, left, right, hi, rfl, hgap, hleft, hright, habove⟩

/-- Outside its gap and the head after it, a key has no value. -/
theorem lookup_gap (h : GapOf ctx key L lo gap hi) (hhi : ∀ x ∈ hi, key < x.1) :
  lookup key (lo ++ gap ++ hi) = lookup key gap
  := by
  have hlo : lookup key lo = none := lookup_eq_none fun x hx => (h.before_pos x hx).ne
  have hhi' : lookup key hi = none := lookup_eq_none fun x hx => (hhi x hx).ne'
  rw [lookup_append, lookup_append, hlo, hhi', Option.none_or, Option.or_none]

theorem lookup_head (hs : Sorted (lo ++ gap ++ (key, value) :: hi)) :
  lookup key (lo ++ gap ++ (key, value) :: hi) = some value
  := hs.lookup_of_mem (by simp)

/-- Looking up a key from a canonical node finds its value in the list. -/
theorem getAt_spec (hctx : ctx.Sound) (hU : Short U) (key : Key) :
  ∀ (depth L : Nat) (xs : List (Key × Cid)) (S : BlockStore ctx.sha256),
    Within U xs → Low (keyHeight ctx.sha256) (L + 1) xs → xs ≠ [] →
    Around (keyHeight ctx.sha256) (nodeCid ctx) (Holds S) (· < key) L xs →
    Action.Meets (getAt ctx depth (canonicalCid ctx L xs) key) S
      (fun found _ => found = lookup key xs) (depth ≤ L ∨ ¬ AllFit ctx L U)
  := by
  intro depth
  induction depth with
  | zero =>
    intro L xs S _ _ _ _
    exact Action.Meets.throw (Or.inl (Nat.zero_le L))
  | succ depth ih =>
    intro L xs S hxs hlow hne haround
    have hload := loadEntries_spec hctx hU hxs (haround.self hlow hne)
    apply (hload.mono (fun _ _ _ h => h) Or.inr).bind
    intro children T hST hchildren
    subst hchildren
    obtain ⟨lo, left, right, hi, rfl, hgap, -, -⟩ := exists_gapOf ctx hxs.sorted key L
    generalize hgapeq : left ++ right = gap at *
    simp only [canonicalEntries_gap hgap, findLeafIndex_before hgap]
    obtain ⟨v, hi', rfl⟩ | habove := head_eq_or_above hxs.sorted.right hgap.after_pos
    · rw [canonicalEntries_head hgap, leafAt_of_head, lookup_head hxs.sorted]
      exact Action.Meets.pure rfl
    · rw [leafAt_of_above hgap habove, lookup_gap hgap habove]
      obtain rfl | hgapne := eq_or_ne gap []
      · rw [childBefore_of_nil hgap.toGap]
        exact Action.Meets.pure rfl
      · obtain ⟨M, rfl⟩ := exists_succ_of_gap_ne_nil hgap hgapne
        rw [childBefore_of_ne_nil hgapne]
        have hrec := ih M gap T hxs.left.right hgap.low hgapne
          ((haround.gap hgap).mono fun _ h => h.mono hST)
        exact hrec.mono (fun _ _ _ h => h) tooDeep_succ

/-! ### The layer of a root -/

theorem layerForEntries_of_leaf {children : List NodeEntry} {k : Key} {v : Cid}
    (hmem : Entry.leaf k v ∈ children)
    (h : ∀ k v, Entry.leaf k v ∈ children → keyHeight ctx.sha256 k = L) :
  layerForEntries ctx.sha256 children = some L
  := by
  induction children with
  | nil => cases hmem
  | cons e children ih =>
    cases e with
    | leaf k' v' =>
      simp only [layerForEntries, leafKey]
      rw [h k' v' List.mem_cons_self]
    | tree child =>
      obtain heq | hmem := List.mem_cons.mp hmem
      · cases heq
      · exact ih hmem fun k v hkv => h k v (List.mem_cons_of_mem _ hkv)

/-- The layer of a node that holds a key is found at once. -/
theorem layerOf_spec (hctx : ctx.Sound) (hU : Short U) (depth : Nat) (hxs : Within U xs)
    (hlow : Low (keyHeight ctx.sha256) (L + 1) xs)
    (hkey : ∃ x ∈ xs, keyHeight ctx.sha256 x.1 = L)
    (hS : Holds S (canonicalEntries ctx L xs)) :
  Action.Meets (layerOf ctx depth (canonicalCid ctx L xs)) S
    (fun layer _ => layer = L) (depth = 0 ∨ ¬ AllFit ctx L U)
  := by
  cases depth with
  | zero => exact Action.Meets.throw (Or.inl rfl)
  | succ depth =>
    have hload := loadEntries_spec hctx hU hxs hS
    apply (hload.mono (fun _ _ _ h => h) Or.inr).bind
    intro children T _ hchildren
    subst hchildren
    obtain ⟨x, hx, hheight⟩ := hkey
    obtain ⟨lo, hi, rfl⟩ := List.append_of_mem hx
    have hmem : Entry.leaf x.1 x.2 ∈ canonicalEntries ctx L (lo ++ x :: hi) := by
      rw [canonicalEntries, entries_append_cons lo hheight.ge]
      simp
    have hlayer : layerForEntries ctx.sha256 (canonicalEntries ctx L (lo ++ x :: hi)) = some L := by
      apply layerForEntries_of_leaf hmem
      intro k v hkv
      obtain ⟨hin, hle⟩ := mem_of_leaf_mem_entries hkv
      have hlt := hlow (k, v) hin
      simp only at hlt
      omega
    rw [hlayer]
    exact Action.Meets.pure rfl

end Atproto.Repo
