import Atproto.Repo.Insert

/-!
# Deleting a key

Deleting from a canonical node gives the canonical node of the list without the key.  The
gaps on both sides of a deleted key become one gap, and their subtrees are joined.
-/

namespace Atproto.Repo

open Atproto.Dasl SearchTree Logic

variable {ctx : Context} {U : Key × Cid → Prop} {S : BlockStore ctx.sha256}
  {L : Nat} {key : Key} {value : Cid} {lo left right hi xs ys : List (Key × Cid)}

/-! ### Joining subtrees -/

/-- The store has the nodes around the position between two lists that are joined. -/
def HoldsJoin (S : BlockStore ctx.sha256) (L : Nat) (xs ys : List (Key × Cid)) : Prop :=
  ∀ p : Key → Prop, (∀ x ∈ xs, p x.1) → (∀ y ∈ ys, ¬ p y.1) → HoldsAround S p L (xs ++ ys)

theorem HoldsJoin.grow {T : BlockStore ctx.sha256} (h : HoldsJoin S L xs ys) (hST : S ≤ T) :
  HoldsJoin T L xs ys
  := fun p hxs hys => HoldsAround.grow (h p hxs hys) hST

/-- When one of the lists is empty there is nothing to join. -/
theorem HoldsJoin.of_nil (h : xs = [] ∨ ys = []) (hxs : HoldsAround S (fun _ => True) L xs)
    (hys : HoldsAround S (fun _ => False) L ys) :
  HoldsJoin S L xs ys
  := by
  intro p hp hnp
  obtain rfl | rfl := h
  · apply hys.congr
    intro y hy
    simp [hnp y hy]
  · rw [List.append_nil]
    apply hxs.congr
    intro x hx
    simp [hp x hx]

/-- The nodes around the position between two lists are the node of the joined list and
those in the gap there. -/
theorem HoldsJoin.of_gap
    (hS : lo ++ (left ++ right) ++ hi ≠ [] →
      Holds S (canonicalEntries ctx L (lo ++ (left ++ right) ++ hi)))
    (hlow : Low (keyHeight ctx.sha256) (L + 1) (lo ++ (left ++ right) ++ hi))
    (hgap : Gap (keyHeight ctx.sha256) L lo (left ++ right) hi)
    (h : ∀ M, L = M + 1 → HoldsJoin S M left right) :
  HoldsJoin S L (lo ++ left) (right ++ hi)
  := by
  intro p hp hnp
  have hassoc : lo ++ left ++ (right ++ hi) = lo ++ (left ++ right) ++ hi := by simp
  rw [hassoc]
  apply Around.of_gap hS hlow
  · refine ⟨hgap, ?_, ?_⟩
    · exact fun x hx => hp x (List.mem_append_left left hx)
    · exact fun x hx => hnp x (List.mem_append_right right hx)
  · intro M hM
    apply h M hM p
    · exact fun x hx => hp x (List.mem_append_right lo hx)
    · exact fun x hx => hnp x (List.mem_append_left hi hx)

/-- The nodes around a deleted key are those around the position that it leaves. -/
theorem HoldsJoin.holdsKey (h : HoldsJoin S L xs ys) (hxs : ∀ x ∈ xs, x.1 < key)
    (hys : ∀ y ∈ ys, key < y.1) :
  HoldsKey S key L (xs ++ ys)
  := by
  constructor
  · exact h _ hxs fun y hy => (hys y hy).not_gt
  · exact h _ (fun x hx => (hxs x hx).le) fun y hy => (hys y hy).not_ge

/-- The child list after a position: the child of the gap and the entries after the gap. -/
def entriesAfter (ctx : Context) (L : Nat) (gap hi : List (Key × Cid)) : List NodeEntry :=
  gapEntries (keyHeight ctx.sha256) (nodeCid ctx) L gap ++ canonicalEntries ctx L hi

theorem canonicalEntries_last (h : Gap (keyHeight ctx.sha256) L lo left []) :
  canonicalEntries ctx L (lo ++ left) = entriesBefore ctx L lo left
  := by
  have hentries := @entries_gap _ _ _ _ (nodeCid ctx) _ _ _ _ h
  simp only [List.append_nil, entries_nil] at hentries
  exact hentries

theorem canonicalEntries_first (h : Gap (keyHeight ctx.sha256) L [] right hi) :
  canonicalEntries ctx L (right ++ hi) = entriesAfter ctx L right hi
  := by
  have hentries := @entries_gap _ _ _ _ (nodeCid ctx) _ _ _ _ h
  simp only [List.nil_append, entries_nil] at hentries
  exact hentries

theorem entriesAfter_of_ne_nil (hne : right ≠ []) :
  entriesAfter ctx (L + 1) right hi =
    .tree (canonicalCid ctx L right) :: canonicalEntries ctx (L + 1) hi
  := by
  rw [entriesAfter, gapEntries_succ hne]
  rfl

/-- There is no subtree after a position when its gap is empty. -/
theorem head?_entriesAfter_nil (h : Gap (keyHeight ctx.sha256) L lo [] hi) (child : Cid) :
  (entriesAfter ctx L [] hi).head? ≠ some (.tree child)
  := by
  rw [entriesAfter, gapEntries_nil, List.nil_append]
  obtain rfl | ⟨x, hi', rfl, hx⟩ := h.after
  · simp [canonicalEntries]
  · have hentries : canonicalEntries ctx L (x :: hi') =
      .leaf x.1 x.2 :: canonicalEntries ctx L hi' := entries_cons hx hi'
    simp [hentries]

/-- Side by side, two child lists that do not both have a subtree there are one. -/
theorem entriesBefore_append_entriesAfter (h : left = [] ∨ right = []) :
  entriesBefore ctx L lo left ++ entriesAfter ctx L right hi =
    entriesBefore ctx L lo (left ++ right) ++ canonicalEntries ctx L hi
  := by
  obtain rfl | rfl := h
  · simp [entriesBefore, entriesAfter]
  · simp [entriesBefore, entriesAfter]

/-- Storing the node of two lists that are joined. -/
theorem storeUnlessEmpty_join (hctx : ctx.Sound) {children : List NodeEntry}
    (hxs : Within U (lo ++ (left ++ right) ++ hi))
    (hlow : Low (keyHeight ctx.sha256) (L + 1) (lo ++ (left ++ right) ++ hi))
    (hgap : Gap (keyHeight ctx.sha256) L lo (left ++ right) hi)
    (h : ∀ M, L = M + 1 → HoldsJoin S M left right)
    (hchildren : children =
      entriesBefore ctx L lo (left ++ right) ++ canonicalEntries ctx L hi) :
  Action.Meets (storeUnlessEmpty ctx children) S
    (fun cid T => cid = canonicalCid? ctx L (lo ++ (left ++ right) ++ hi) ∧
      HoldsJoin T L (lo ++ left) (right ++ hi))
    (¬ AllFit ctx L U)
  := by
  have hentries : children = canonicalEntries ctx L (lo ++ (left ++ right) ++ hi) :=
    hchildren.trans (entries_gap hgap).symm
  apply (storeUnlessEmpty_spec hctx hxs hentries).mono _ id
  rintro cid T hST ⟨hcid, hT⟩
  use hcid
  exact HoldsJoin.of_gap hT hlow hgap fun M hM => (h M hM).grow hST

theorem storeEntries_join (hctx : ctx.Sound) {children : List NodeEntry}
    (hxs : Within U (lo ++ (left ++ right) ++ hi))
    (hlow : Low (keyHeight ctx.sha256) (L + 1) (lo ++ (left ++ right) ++ hi))
    (hgap : Gap (keyHeight ctx.sha256) L lo (left ++ right) hi)
    (h : ∀ M, L = M + 1 → HoldsJoin S M left right)
    (hchildren : children =
      entriesBefore ctx L lo (left ++ right) ++ canonicalEntries ctx L hi) :
  Action.Meets (storeEntries ctx children) S
    (fun cid T => cid = canonicalCid ctx L (lo ++ (left ++ right) ++ hi) ∧
      HoldsJoin T L (lo ++ left) (right ++ hi))
    (¬ AllFit ctx L U)
  := by
  have hentries : children = canonicalEntries ctx L (lo ++ (left ++ right) ++ hi) :=
    hchildren.trans (entries_gap hgap).symm
  apply (storeEntries_spec hctx hxs hentries).mono _ id
  rintro cid T hST ⟨hcid, hT⟩
  use hcid
  exact HoldsJoin.of_gap (fun _ => hT) hlow hgap fun M hM => (h M hM).grow hST

/-- Joining the canonical nodes of two lists gives the canonical node of the joined list. -/
theorem appendMerge_spec (hctx : ctx.Sound) (hU : Short U) :
  ∀ (depth L : Nat) (xs ys : List (Key × Cid)) (S : BlockStore ctx.sha256),
    Within U (xs ++ ys) → Low (keyHeight ctx.sha256) (L + 1) (xs ++ ys) → xs ≠ [] → ys ≠ [] →
    HoldsAround S (fun _ => True) L xs → HoldsAround S (fun _ => False) L ys →
    Action.Meets (appendMerge ctx depth (canonicalCid ctx L xs) (canonicalCid ctx L ys)) S
      (fun cid T => cid = canonicalCid ctx L (xs ++ ys) ∧ HoldsJoin T L xs ys)
      (depth ≤ L ∨ ¬ AllFit ctx L U)
  := by
  intro depth
  induction depth with
  | zero =>
    intro L xs ys S _ _ _ _ _ _
    exact Action.Meets.throw (Or.inl (Nat.zero_le L))
  | succ depth ih =>
    intro L xs ys S hwithin hlow hxs hys haround haround'
    have hload := loadEntries_spec hctx hU hwithin.left (haround.self hlow.left hxs)
    apply (hload.mono (fun _ _ _ h => h) Or.inr).bind
    intro children T hST hchildren
    subst hchildren
    have hload' := loadEntries_spec hctx hU hwithin.right
      ((HoldsAround.grow haround' hST).self hlow.right hys)
    apply (hload'.mono (fun _ _ _ h => h) Or.inr).bind
    intro children T' hTT' hchildren
    subst hchildren
    have hST' := hST.trans hTT'
    obtain ⟨lo, left, rfl, hleft⟩ := exists_last_gap (keyHeight ctx.sha256) L xs
    obtain ⟨right, hi, rfl, hright⟩ := exists_first_gap (keyHeight ctx.sha256) L ys
    have hassoc : lo ++ left ++ (right ++ hi) = lo ++ (left ++ right) ++ hi := by simp
    have hgap : Gap (keyHeight ctx.sha256) L lo (left ++ right) hi :=
      ⟨hleft.low.append hright.low, hleft.before, hright.after⟩
    -- The nodes in the two gaps that become one.
    have hsides : ∀ M, L = M + 1 → HoldsAround T' (fun _ => True) M left ∧
        HoldsAround T' (fun _ => False) M right := by
      rintro M rfl
      rw [← List.append_nil (lo ++ left)] at haround
      rw [← List.nil_append (right ++ hi), ← List.append_assoc] at haround'
      constructor
      · exact HoldsAround.grow (haround.gap ⟨hleft, by simp, by simp⟩) hST'
      · exact HoldsAround.grow (haround'.gap ⟨hright, by simp, by simp⟩) hST'
    rw [canonicalEntries_last hleft, canonicalEntries_first hright]
    have hwithin' := hwithin
    rw [hassoc] at hwithin hlow ⊢
    by_cases hnil : left = [] ∨ right = []
    · -- At most one of the two nodes has a subtree at the joint.
      have hstore := @storeEntries_join ctx U T' L lo left right hi hctx _ hwithin hlow hgap
        (fun M hM => HoldsJoin.of_nil hnil (hsides M hM).1 (hsides M hM).2)
        (entriesBefore_append_entriesAfter hnil)
      split
      · next innerLeft innerRight hl hr =>
        obtain rfl | rfl := hnil
        · exact absurd hl (getLast?_entriesBefore_nil hleft innerLeft)
        · exact absurd hr (head?_entriesAfter_nil hright innerRight)
      · exact hstore.mono (fun _ _ _ h => h) Or.inr
    · -- Both have one, and these are joined first.
      rw [not_or] at hnil
      obtain ⟨M, rfl⟩ : ∃ M, L = M + 1 := by
        cases L with
        | zero => exact absurd hleft.low_zero hnil.1
        | succ M => exact ⟨M, rfl⟩
      rw [entriesBefore_of_ne_nil hnil.1, entriesAfter_of_ne_nil hnil.2]
      simp only [List.getLast?_append_cons, List.getLast?_singleton, List.head?_cons,
        List.dropLast_concat, List.drop_succ_cons, List.drop_zero]
      have hrec := ih M left right T' hwithin.left.right hgap.low hnil.1 hnil.2
        (hsides M rfl).1 (hsides M rfl).2
      apply (hrec.mono (fun _ _ _ h => h) tooDeep_succ).bind
      rintro _ T'' _ ⟨rfl, hjoin⟩
      apply (storeEntries_join hctx hwithin hlow hgap _ _).mono (fun _ _ _ h => h) Or.inr
      · intro M' hM'
        cases hM'
        exact hjoin
      · rw [entriesBefore_of_ne_nil (List.append_ne_nil_of_left_ne_nil hnil.1 right)]
        simp

/-! ### Deletion -/

theorem low_erase (hlow : Low (keyHeight ctx.sha256) L xs) (key : Key) :
  Low (keyHeight ctx.sha256) L (SearchTree.erase key xs)
  := by
  intro x hx
  obtain hx | hx := List.mem_append.mp hx
  · exact hlow x (mem_of_mem_below hx)
  · exact hlow x (mem_of_mem_above hx)

/-- Deleting a key of the node. -/
theorem deleteAt_here (hctx : ctx.Sound) (hU : Short U) {depth : Nat}
    (hxs : Within U (lo ++ left ++ (key, value) :: (right ++ hi)))
    (hlow : Low (keyHeight ctx.sha256) (L + 1) (lo ++ left ++ (key, value) :: (right ++ hi)))
    (hleft : Gap (keyHeight ctx.sha256) L lo left [])
    (hright : Gap (keyHeight ctx.sha256) L [] right hi) (hheight : L ≤ keyHeight ctx.sha256 key)
    (h : HoldsKey S key L (lo ++ left ++ (key, value) :: (right ++ hi))) :
  Action.Meets
    (deleteAt ctx (depth + 1) (canonicalCid ctx L (lo ++ left ++ (key, value) :: (right ++ hi))) key)
    S
    (fun cid T => cid = canonicalCid? ctx L (lo ++ (left ++ right) ++ hi) ∧
      HoldsKey T key L (lo ++ (left ++ right) ++ hi))
    (depth + 1 ≤ L ∨ ¬ AllFit ctx L U)
  := by
  have hne : lo ++ left ++ (key, value) :: (right ++ hi) ≠ [] :=
    List.append_ne_nil_of_right_ne_nil _ (List.cons_ne_nil _ _)
  have hload := loadEntries_spec hctx hU hxs (h.before.self hlow hne)
  apply (hload.mono (fun _ _ _ h => h) Or.inr).bind
  intro children T hST hchildren
  subst hchildren
  have hlower : ∀ x ∈ lo ++ left, x.1 < key := fun x hx => hxs.sorted.lt hx List.mem_cons_self
  have hupper : ∀ x ∈ right ++ hi, key < x.1 := fun x hx => hxs.sorted.right.cons_lt hx
  have hassoc : lo ++ left ++ (right ++ hi) = lo ++ (left ++ right) ++ hi := by simp
  have hwithin : Within U (lo ++ (left ++ right) ++ hi) := by
    have herase := hxs.erase key
    rwa [erase_append_cons value hlower hupper, hassoc] at herase
  have hlow' : Low (keyHeight ctx.sha256) (L + 1) (lo ++ (left ++ right) ++ hi) := by
    have herase := low_erase hlow key
    rwa [erase_append_cons value hlower hupper, hassoc] at herase
  have hgap : Gap (keyHeight ctx.sha256) L lo (left ++ right) hi :=
    ⟨hleft.low.append hright.low, hleft.before, hright.after⟩
  have hsides : ∀ M, L = M + 1 → HoldsAround T (fun _ => True) M left ∧
      HoldsAround T (fun _ => False) M right := by
    rintro M rfl
    have hboth := h.sides hxs.sorted hheight hleft hright
    exact ⟨HoldsAround.grow hboth.1 hST, HoldsAround.grow hboth.2 hST⟩
  have hstore := fun {T' : BlockStore ctx.sha256} {children : List NodeEntry} =>
    @storeUnlessEmpty_join ctx U T' L lo left right hi hctx children hwithin hlow' hgap
  have hkey : ∀ T' : BlockStore ctx.sha256, HoldsJoin T' L (lo ++ left) (right ++ hi) →
      HoldsKey T' key L (lo ++ (left ++ right) ++ hi) := by
    intro T' hjoin
    rw [← hassoc]
    exact hjoin.holdsKey hlower hupper
  simp only [canonicalEntries_sides hheight hleft hright, findLeafIndex_sides hlower,
    leafAt_of_head]
  have herase : (entriesBefore ctx L lo left ++ .leaf key value :: (entriesAfter ctx L right hi)).eraseIdx
      (entriesBefore ctx L lo left).length =
      entriesBefore ctx L lo left ++ entriesAfter ctx L right hi := by
    rw [List.eraseIdx_append_of_length_le (le_refl _), Nat.sub_self]
    rfl
  have hentry : (entriesBefore ctx L lo left ++ entriesAfter ctx L right hi)[
      (entriesBefore ctx L lo left).length]? = (entriesAfter ctx L right hi).head? := by
    rw [List.getElem?_append_right (le_refl _), Nat.sub_self, List.head?_eq_getElem?]
  rw [entriesAfter] at herase
  rw [herase, ← entriesAfter, hentry]
  by_cases hnil : left = [] ∨ right = []
  · have hstored := hstore (fun M hM => HoldsJoin.of_nil hnil (hsides M hM).1 (hsides M hM).2)
      (entriesBefore_append_entriesAfter hnil)
    split
    · next innerLeft innerRight hl hr =>
      obtain rfl | rfl := hnil
      · rw [childBefore_of_nil hleft] at hl
        cases hl
      · exact absurd hr (head?_entriesAfter_nil hright innerRight)
    · exact hstored.mono (fun cid T' _ hT' => ⟨hT'.1, hkey T' hT'.2⟩) Or.inr
  · rw [not_or] at hnil
    obtain ⟨M, rfl⟩ : ∃ M, L = M + 1 := by
      cases L with
      | zero => exact absurd hleft.low_zero hnil.1
      | succ M => exact ⟨M, rfl⟩
    have hmiddle : Within U (left ++ right) := hwithin.left.right
    rw [childBefore_of_ne_nil hnil.1, entriesAfter_of_ne_nil hnil.2]
    simp only [List.head?_cons]
    have hmerge := appendMerge_spec hctx hU depth M left right T hmiddle hgap.low hnil.1 hnil.2
      (hsides M rfl).1 (hsides M rfl).2
    apply (hmerge.mono (fun _ _ _ h => h) tooDeep_succ).bind
    rintro _ T' _ ⟨rfl, hjoin⟩
    apply (hstore _ _).mono (fun cid T'' _ hT'' => ⟨hT''.1, hkey T'' hT''.2⟩) Or.inr
    · intro M' hM'
      cases hM'
      exact hjoin
    · rw [entriesBefore_of_ne_nil hnil.1,
        entriesBefore_of_ne_nil (List.append_ne_nil_of_left_ne_nil hnil.1 right)]
      rw [List.drop_length_add_append]
      simp

/-- Deleting a key below the layer of the node, given how the child of its gap is dealt
with. -/
theorem deleteAt_below (hctx : ctx.Sound) (hU : Short U) {depth : Nat} {gap : List (Key × Cid)}
    (hxs : Within U (lo ++ gap ++ hi))
    (hlow : Low (keyHeight ctx.sha256) (L + 1) (lo ++ gap ++ hi)) (hne : lo ++ gap ++ hi ≠ [])
    (hgap : GapOf ctx key L lo gap hi) (hhi : ∀ x ∈ hi, key < x.1)
    (h : HoldsKey S key L (lo ++ gap ++ hi))
    (hrec : ∀ M T, L = M + 1 → gap ≠ [] → HoldsKey T key M gap →
      Action.Meets (deleteAt ctx depth (canonicalCid ctx M gap) key) T
        (fun cid T => cid = canonicalCid? ctx M (SearchTree.erase key gap) ∧
          HoldsKey T key M (SearchTree.erase key gap))
        (depth ≤ M ∨ ¬ AllFit ctx M U)) :
  Action.Meets (deleteAt ctx (depth + 1) (canonicalCid ctx L (lo ++ gap ++ hi)) key) S
    (fun cid T => cid = canonicalCid? ctx L (lo ++ SearchTree.erase key gap ++ hi) ∧
      HoldsKey T key L (lo ++ SearchTree.erase key gap ++ hi))
    (depth + 1 ≤ L ∨ ¬ AllFit ctx L U)
  := by
  have hload := loadEntries_spec hctx hU hxs (h.before.self hlow hne)
  apply (hload.mono (fun _ _ _ h => h) Or.inr).bind
  intro children T hST hchildren
  subst hchildren
  simp only [canonicalEntries_gap hgap, findLeafIndex_before hgap, leafAt_of_above hgap hhi]
  obtain rfl | hgapne := eq_or_ne gap []
  · -- The key is not there.
    rw [childBefore_of_nil hgap.toGap]
    apply Action.Meets.pure
    exact ⟨(canonicalCid?_of_ne_nil hne).symm, h.grow hST⟩
  · obtain ⟨M, rfl⟩ := exists_succ_of_gap_ne_nil hgap hgapne
    have hwithin := hxs.erase key
    have hlow' := low_erase hlow key
    rw [erase_middle hgap.before_pos hhi] at hwithin hlow'
    have hgap' : Gap (keyHeight ctx.sha256) (M + 1) lo (SearchTree.erase key gap) hi :=
      ⟨low_erase hgap.low key, hgap.before, hgap.after⟩
    -- The node is stored with the child that is left of the gap, if any.
    have hstore : ∀ {T' : BlockStore ctx.sha256} {children : List NodeEntry},
        HoldsKey T' key M (SearchTree.erase key gap) →
        children = entriesBefore ctx (M + 1) lo (SearchTree.erase key gap) ++
          canonicalEntries ctx (M + 1) hi →
        Action.Meets (storeUnlessEmpty ctx children) T'
          (fun cid T => cid = canonicalCid? ctx (M + 1) (lo ++ SearchTree.erase key gap ++ hi) ∧
            HoldsKey T key (M + 1) (lo ++ SearchTree.erase key gap ++ hi))
          (depth + 1 ≤ M + 1 ∨ ¬ AllFit ctx (M + 1) U) := by
      intro T' children hinner hchildren
      have hentries := hchildren.trans (entries_gap hgap').symm
      apply (storeUnlessEmpty_spec hctx hwithin hentries).mono _ Or.inr
      rintro cid T'' hT'' ⟨hcid, hholds⟩
      use hcid
      apply HoldsKey.of_gap hholds hlow' hgap' hgap.before_pos hhi
      intro M' hM'
      cases hM'
      exact hinner.grow hT''
    rw [childBefore_of_ne_nil hgapne]
    have hchild := hrec M T rfl hgapne ((h.inner hgap hhi).grow hST)
    apply (hchild.mono (fun _ _ _ h => h) tooDeep_succ).bind
    rintro _ T' _ ⟨rfl, hinner⟩
    rw [entriesBefore_of_ne_nil hgapne]
    obtain hnil | hne' := eq_or_ne (SearchTree.erase key gap) []
    · rw [hnil] at hinner hstore ⊢
      apply hstore hinner
      simp [entriesBefore, List.eraseIdx_append_of_length_le]
    · rw [canonicalCid?_of_ne_nil hne']
      apply hstore hinner
      rw [entriesBefore_of_ne_nil hne']
      simp

/-- Deleting from a canonical node gives the canonical node of the list without the key. -/
theorem deleteAt_spec (hctx : ctx.Sound) (hU : Short U) (key : Key) :
  ∀ (depth L : Nat) (xs : List (Key × Cid)) (S : BlockStore ctx.sha256),
    Within U xs → Low (keyHeight ctx.sha256) (L + 1) xs → xs ≠ [] → HoldsKey S key L xs →
    Action.Meets (deleteAt ctx depth (canonicalCid ctx L xs) key) S
      (fun cid T => cid = canonicalCid? ctx L (SearchTree.erase key xs) ∧
        HoldsKey T key L (SearchTree.erase key xs))
      (depth ≤ L ∨ ¬ AllFit ctx L U)
  := by
  intro depth
  induction depth with
  | zero =>
    intro L xs S _ _ _ _
    exact Action.Meets.throw (Or.inl (Nat.zero_le L))
  | succ depth ih =>
    intro L xs S hxs hlow hne h
    obtain ⟨lo, left, v, right, hi, rfl, hleft, hright, hheight⟩ |
      ⟨lo, left, right, hi, rfl, hgap, -, -, habove⟩ := key_cases ctx hxs.sorted key L
    · have hlower : ∀ x ∈ lo ++ left, x.1 < key := fun x hx => hxs.sorted.lt hx List.mem_cons_self
      have hupper : ∀ x ∈ right ++ hi, key < x.1 := fun x hx => hxs.sorted.right.cons_lt hx
      have hassoc : lo ++ left ++ (right ++ hi) = lo ++ (left ++ right) ++ hi := by simp
      rw [erase_append_cons v hlower hupper, hassoc]
      exact deleteAt_here hctx hU hxs hlow hleft hright hheight h
    · rw [erase_middle hgap.before_pos habove]
      apply deleteAt_below hctx hU hxs hlow hne hgap habove h
      rintro M T rfl hgapne hT
      exact ih M _ T hxs.left.right hgap.low hgapne hT

/-- Trimming drops the layers above the highest key. -/
theorem trimTop_spec (hctx : ctx.Sound) (hU : Short U) {p : Key → Prop} (hxs : Within U xs)
    (hne : xs ≠ []) :
  ∀ (depth L : Nat), Low (keyHeight ctx.sha256) (L + 1) xs → HoldsAround S p L xs →
    Action.Meets (trimTop ctx depth (canonicalCid ctx L xs)) S
      (fun cid _ => ∃ M ≤ L, cid = canonicalCid ctx M xs ∧ Low (keyHeight ctx.sha256) (M + 1) xs ∧
        ∃ x ∈ xs, keyHeight ctx.sha256 x.1 = M)
      (depth ≤ L ∨ ¬ AllFit ctx L U)
  := by
  intro depth
  induction depth generalizing S with
  | zero =>
    intro L _ _
    exact Action.Meets.throw (Or.inl (Nat.zero_le L))
  | succ depth ih =>
    intro L hlow haround
    have hload := loadEntries_spec hctx hU hxs (haround.self hlow hne)
    apply (hload.mono (fun _ _ _ h => h) Or.inr).bind
    intro children T hST hchildren
    subst hchildren
    obtain hlower | ⟨lo, x, hi, rfl, hx⟩ := low_or_exists (keyHeight ctx.sha256) L xs
    · cases L with
      | zero => exact absurd (Gap.whole hlower).low_zero hne
      | succ M =>
        rw [canonicalEntries_wrap hlower hne]
        have hrec := ih M hlower ((HoldsAround.grow haround hST).of_le (Nat.le_succ M))
        apply hrec.mono _ tooDeep_succ
        rintro cid _ _ ⟨M', hM', hcid⟩
        exact ⟨M', hM'.trans (Nat.le_succ M), hcid⟩
    · have hmem : x ∈ lo ++ x :: hi := List.mem_append_right lo List.mem_cons_self
      split
      · next child heq =>
        have hiff := (@entries_eq_tree_iff _ _ _ _ (nodeCid ctx) L _ hne).mp ⟨child, heq⟩
        exact absurd (hiff x hmem) (Nat.not_lt.mpr hx)
      · apply Action.Meets.pure
        exact ⟨L, le_refl L, rfl, hlow, x, hmem, le_antisymm (Nat.lt_succ_iff.mp (hlow x hmem)) hx⟩

end Atproto.Repo
