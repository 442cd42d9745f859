import Atproto.Repo.Lookup

/-!
# Inserting a key

Inserting into a canonical node gives the canonical node of the list with the key, and
leaves the store with the nodes around the key.
-/

namespace Atproto.Repo

open Atproto.Dasl SearchTree Logic

variable {ctx : Context} {U : Key × Cid → Prop} {S : BlockStore ctx.sha256}
  {L : Nat} {key : Key} {value : Cid} {lo gap hi xs : List (Key × Cid)}

/-- The CID of the canonical node of a list, unless the list is empty. -/
abbrev canonicalCid? (ctx : Context) (L : Nat) (xs : List (Key × Cid)) : Option Cid :=
  address? (keyHeight ctx.sha256) (nodeCid ctx) L xs

theorem canonicalCid?_of_ne_nil (h : xs ≠ []) :
  canonicalCid? ctx L xs = some (canonicalCid ctx L xs)
  := address?_of_ne_nil h

/-- The store has the nodes around a position. -/
abbrev HoldsAround (S : BlockStore ctx.sha256) (p : Key → Prop) (L : Nat)
    (xs : List (Key × Cid)) : Prop :=
  Around (keyHeight ctx.sha256) (nodeCid ctx) (Holds S) p L xs

theorem HoldsAround.grow {S T : BlockStore ctx.sha256} {p : Key → Prop}
    (h : HoldsAround S p L xs) (hST : S ≤ T) :
  HoldsAround T p L xs
  := h.mono fun _ hes => hes.mono hST

theorem storeUnlessEmpty_spec (hctx : ctx.Sound) {children : List NodeEntry} (hxs : Within U xs)
    (hchildren : children = canonicalEntries ctx L xs) :
  Action.Meets (storeUnlessEmpty ctx children) S
    (fun cid T => cid = canonicalCid? ctx L xs ∧ (xs ≠ [] → Holds T (canonicalEntries ctx L xs)))
    (¬ AllFit ctx L U)
  := by
  obtain rfl | hne := eq_or_ne xs []
  · have hnil : children = [] := hchildren.trans (entries_nil L)
    rw [hnil]
    exact Action.Meets.pure ⟨rfl, fun hne => absurd rfl hne⟩
  · have hnonempty : children.isEmpty = false := by
      rw [List.isEmpty_eq_false_iff, hchildren]
      exact entries_ne_nil hne
    rw [storeUnlessEmpty, hnonempty]
    apply (storeEntries_spec hctx hxs hchildren).bind
    rintro cid T _ ⟨hcid, hholds⟩
    apply Action.Meets.pure
    rw [hcid, canonicalCid?_of_ne_nil hne]
    exact ⟨rfl, fun _ => hholds⟩

theorem storeSides_spec (hctx : ctx.Sound) {left right : List NodeEntry}
    {lower upper : List (Key × Cid)} (hlower : Within U lower) (hupper : Within U upper)
    (hleft : left = canonicalEntries ctx L lower) (hright : right = canonicalEntries ctx L upper) :
  Action.Meets (storeSides ctx left right) S
    (fun sides T => sides = (canonicalCid? ctx L lower, canonicalCid? ctx L upper) ∧
      (lower ≠ [] → Holds T (canonicalEntries ctx L lower)) ∧
      (upper ≠ [] → Holds T (canonicalEntries ctx L upper)))
    (¬ AllFit ctx L U)
  := by
  apply (storeUnlessEmpty_spec hctx hlower hleft).bind
  rintro leftCid T - ⟨rfl, hholdsLeft⟩
  apply (storeUnlessEmpty_spec hctx hupper hright).bind
  rintro rightCid T' hTT' ⟨rfl, hholdsRight⟩
  apply Action.Meets.pure
  exact ⟨rfl, fun hne => (hholdsLeft hne).mono hTT', hholdsRight⟩

/-- Splitting a canonical node around a key gives the canonical nodes of the two sides. -/
theorem splitAround_spec (hctx : ctx.Sound) (hU : Short U) (key : Key) :
  ∀ (depth L : Nat) (lower upper : List (Key × Cid)) (S : BlockStore ctx.sha256),
    Within U (lower ++ upper) → Low (keyHeight ctx.sha256) (L + 1) (lower ++ upper) →
    lower ++ upper ≠ [] → (∀ x ∈ lower, x.1 < key) → (∀ x ∈ upper, key < x.1) →
    HoldsAround S (· < key) L (lower ++ upper) →
    Action.Meets (splitAround ctx depth (canonicalCid ctx L (lower ++ upper)) key) S
      (fun sides T => sides = (canonicalCid? ctx L lower, canonicalCid? ctx L upper) ∧
        HoldsAround T (fun _ => True) L lower ∧ HoldsAround T (fun _ => False) L upper)
      (depth ≤ L ∨ ¬ AllFit ctx L U)
  := by
  intro depth
  induction depth with
  | zero =>
    intro L lower upper S _ _ _ _ _ _
    exact Action.Meets.throw (Or.inl (Nat.zero_le L))
  | succ depth ih =>
    intro L lower upper S hxs hlow hne hlower hupper haround
    have hload := loadEntries_spec hctx hU hxs (haround.self hlow hne)
    apply (hload.mono (fun _ _ _ h => h) Or.inr).bind
    intro children T hST hchildren
    subst hchildren
    have hupper' : ∀ x ∈ upper, ¬ x.1 < key := fun x hx => (hupper x hx).not_gt
    obtain ⟨lo, left, right, hi, rfl, rfl, hgap⟩ := exists_gapAt (keyHeight ctx.sha256)
      (· < key) L hlower hupper'
    have hassoc : lo ++ left ++ (right ++ hi) = lo ++ (left ++ right) ++ hi := by simp
    rw [hassoc] at haround hload ⊢
    simp only [canonicalEntries_gap hgap, findLeafIndex_before hgap, List.take_left,
      List.drop_left]
    have hlowLeft := hlow.left
    have hlowRight := hlow.right
    have hentriesLeft := @entries_gap _ _ _ _ (nodeCid ctx) _ _ _ _ (gap_left hgap)
    have hentriesRight := @entries_gap _ _ _ _ (nodeCid ctx) _ _ _ _ (gap_right hgap)
    simp only [List.append_nil, entries_nil, List.nil_append] at hentriesLeft hentriesRight
    -- Storing the two sides is all that remains once the gap is cut in two.
    have hstore : ∀ {T' : BlockStore ctx.sha256} {l r : List NodeEntry},
        (∀ M, L = M + 1 → HoldsAround T' (fun _ => True) M left ∧
          HoldsAround T' (fun _ => False) M right) →
        l = canonicalEntries ctx L (lo ++ left) → r = canonicalEntries ctx L (right ++ hi) →
        Action.Meets (storeSides ctx l r) T'
          (fun sides T => sides = (canonicalCid? ctx L (lo ++ left), canonicalCid? ctx L (right ++ hi)) ∧
            HoldsAround T (fun _ => True) L (lo ++ left) ∧
            HoldsAround T (fun _ => False) L (right ++ hi))
          (depth + 1 ≤ L ∨ ¬ AllFit ctx L U) := by
      intro T' l r hinner hl hr
      apply (storeSides_spec hctx hxs.left hxs.right hl hr).mono _ Or.inr
      rintro sides T'' hT'' ⟨hsides, hholdsLeft, hholdsRight⟩
      refine ⟨hsides, ?_, ?_⟩
      · rw [← List.append_nil (lo ++ left)] at hholdsLeft hlowLeft ⊢
        apply Around.of_gap hholdsLeft hlowLeft ⟨gap_left hgap, by simp, by simp⟩
        exact fun M hM => (hinner M hM).1.grow hT''
      · rw [← List.nil_append (right ++ hi), ← List.append_assoc] at hholdsRight hlowRight ⊢
        apply Around.of_gap hholdsRight hlowRight ⟨gap_right hgap, by simp, by simp⟩
        exact fun M hM => (hinner M hM).2.grow hT''
    obtain hnil | hgapne := eq_or_ne (left ++ right) []
    · obtain ⟨rfl, rfl⟩ := List.append_eq_nil_iff.mp hnil
      have hlast := getLast?_entriesBefore_nil hgap.toGap
      split
      · next child heq => exact absurd heq (hlast child)
      · apply hstore
        · exact fun M _ => ⟨Around.nil M, Around.nil M⟩
        · simp [entriesBefore]
        · rfl
    · obtain ⟨M, rfl⟩ := exists_succ_of_gap_ne_nil hgap hgapne
      rw [entriesBefore_of_ne_nil hgapne]
      simp only [List.getLast?_append_cons, List.getLast?_singleton, List.dropLast_concat]
      have hmiddle : Within U (left ++ right) := by
        rw [hassoc] at hxs
        exact hxs.left.right
      have hrec := ih M left right T hmiddle hgap.low hgapne
        (fun x hx => hlower x (by simp [hx])) (fun x hx => hupper x (by simp [hx]))
        (HoldsAround.grow (haround.gap hgap) hST)
      have hrec' := hrec.mono (fun _ _ _ h => h) tooDeep_succ
      apply hrec'.bind
      rintro _ T' _ ⟨rfl, hleft, hright⟩
      apply hstore
      · intro M' hM'
        cases hM'
        exact ⟨hleft, hright⟩
      · exact hentriesLeft.symm
      · exact hentriesRight.symm

/-! ### Layers of pure structure -/

theorem canonicalEntries_wrap (hlow : Low (keyHeight ctx.sha256) (L + 1) xs) (hne : xs ≠ []) :
  canonicalEntries ctx (L + 1) xs = [.tree (canonicalCid ctx L xs)]
  := by
  rw [canonicalEntries, entries_low hlow, gapEntries_succ hne]

/-- A layer of pure structure is around every position of the layer below. -/
theorem HoldsAround.wrap {p : Key → Prop} (h : HoldsAround S p L xs)
    (hlow : Low (keyHeight ctx.sha256) (L + 1) xs)
    (hS : xs ≠ [] → Holds S (canonicalEntries ctx (L + 1) xs)) :
  HoldsAround S p (L + 1) xs
  := by
  have hwhole : [] ++ xs ++ [] = xs := by simp
  rw [← hwhole] at hS ⊢
  apply Around.of_gap hS
  · rw [hwhole]
    exact hlow.mono (Nat.le_succ _)
  · exact ⟨Gap.whole hlow, by simp, by simp⟩
  · intro M hM
    cases hM
    exact h

theorem wrap_spec (hctx : ctx.Sound) (n : Nat) (hxs : Within U xs)
    (hlow : Low (keyHeight ctx.sha256) (L + 1) xs) (hne : xs ≠ []) :
  Action.Meets (wrap ctx n (canonicalCid ctx L xs)) S
    (fun cid T => cid = canonicalCid ctx (L + n) xs ∧
      ∀ p, HoldsAround S p L xs → HoldsAround T p (L + n) xs)
    (¬ AllFit ctx (L + n) U)
  := by
  induction n generalizing L S with
  | zero => exact Action.Meets.pure ⟨rfl, fun _ h => h⟩
  | succ n ih =>
    have hstore := @storeEntries_spec ctx U xs S hctx _ _ hxs (canonicalEntries_wrap hlow hne).symm
    apply (hstore.mono (fun _ _ _ h => h) (not_allFit_mono (by omega))).bind
    rintro _ T hST ⟨rfl, hT⟩
    have hrec := @ih T (L + 1) (hlow.mono (Nat.le_succ _))
    rw [Nat.succ_add_eq_add_succ] at hrec
    apply hrec.mono _ id
    rintro cid T' _ ⟨hcid, haround⟩
    refine ⟨hcid, fun p hp => haround p ?_⟩
    exact HoldsAround.wrap (HoldsAround.grow hp hST) hlow fun _ => hT

theorem wrapOption_spec (hctx : ctx.Sound) {p : Key → Prop} (hxs : Within U xs)
    (hlow : Low (keyHeight ctx.sha256) (L + 1) xs) (haround : HoldsAround S p L xs) :
  Action.Meets (wrapOption ctx (canonicalCid? ctx L xs)) S
    (fun cid T => cid = canonicalCid? ctx (L + 1) xs ∧ HoldsAround T p (L + 1) xs)
    (¬ AllFit ctx (L + 1) U)
  := by
  obtain rfl | hne := eq_or_ne xs []
  · exact Action.Meets.pure ⟨rfl, Around.nil _⟩
  · rw [canonicalCid?_of_ne_nil hne]
    apply (storeEntries_spec hctx hxs (canonicalEntries_wrap hlow hne).symm).bind
    rintro _ T hST ⟨rfl, hT⟩
    apply Action.Meets.pure
    rw [canonicalCid?_of_ne_nil hne]
    exact ⟨rfl, HoldsAround.wrap (HoldsAround.grow haround hST) hlow fun _ => hT⟩

theorem wrapBoth_spec (hctx : ctx.Sound) (n : Nat) {p q : Key → Prop}
    {lower upper : List (Key × Cid)} (hlower : Within U lower) (hupper : Within U upper)
    (hlowLower : Low (keyHeight ctx.sha256) (L + 1) lower)
    (hlowUpper : Low (keyHeight ctx.sha256) (L + 1) upper) (hp : HoldsAround S p L lower)
    (hq : HoldsAround S q L upper) :
  Action.Meets (wrapBoth ctx n (canonicalCid? ctx L lower) (canonicalCid? ctx L upper)) S
    (fun sides T =>
      sides = (canonicalCid? ctx (L + n) lower, canonicalCid? ctx (L + n) upper) ∧
        HoldsAround T p (L + n) lower ∧ HoldsAround T q (L + n) upper)
    (¬ AllFit ctx (L + n) U)
  := by
  induction n generalizing L S with
  | zero => exact Action.Meets.pure ⟨rfl, hp, hq⟩
  | succ n ih =>
    have hexcuse : ¬ AllFit ctx (L + 1) U → ¬ AllFit ctx (L + (n + 1)) U :=
      not_allFit_mono (by omega)
    apply ((wrapOption_spec hctx hlower hlowLower hp).mono (fun _ _ _ h => h) hexcuse).bind
    rintro _ T hST ⟨rfl, hp'⟩
    have hright := wrapOption_spec hctx hupper hlowUpper (HoldsAround.grow hq hST)
    apply (hright.mono (fun _ _ _ h => h) hexcuse).bind
    rintro _ T' hTT' ⟨rfl, hq'⟩
    have hrec := ih (hlowLower.mono (Nat.le_succ _)) (hlowUpper.mono (Nat.le_succ _))
      (HoldsAround.grow hp' hTT') hq'
    rwa [Nat.succ_add_eq_add_succ] at hrec

/-! ### Insertion -/

/-- The store has the nodes around a key: around the positions just before and after it. -/
structure HoldsKey (S : BlockStore ctx.sha256) (key : Key) (L : Nat)
    (xs : List (Key × Cid)) : Prop where
  before : HoldsAround S (· < key) L xs
  after : HoldsAround S (· ≤ key) L xs

theorem HoldsKey.grow {T : BlockStore ctx.sha256} (h : HoldsKey S key L xs) (hST : S ≤ T) :
  HoldsKey T key L xs
  := ⟨HoldsAround.grow h.before hST, HoldsAround.grow h.after hST⟩

/-- The gap before a key of the node. -/
theorem gapAt_before {left : List (Key × Cid)} (hs : Sorted (lo ++ left ++ (key, value) :: hi))
    (hheight : L ≤ keyHeight ctx.sha256 key) (hleft : Gap (keyHeight ctx.sha256) L lo left []) :
  GapAt (keyHeight ctx.sha256) (· < key) L lo left ((key, value) :: hi)
  := by
  refine ⟨⟨hleft.low, hleft.before, Or.inr ⟨_, _, rfl, hheight⟩⟩, ?_, ?_⟩
  · exact fun x hx => hs.lt (List.mem_append_left left hx) List.mem_cons_self
  · intro x hx
    obtain rfl | hx := List.mem_cons.mp hx
    · exact lt_irrefl key
    · exact (hs.right.cons_lt hx).not_gt

/-- The gap after a key of the node. -/
theorem gapAt_after {right : List (Key × Cid)} (hs : Sorted (lo ++ (key, value) :: (right ++ hi)))
    (hheight : L ≤ keyHeight ctx.sha256 key) (hright : Gap (keyHeight ctx.sha256) L [] right hi) :
  GapAt (keyHeight ctx.sha256) (· ≤ key) L (lo ++ [(key, value)]) right hi
  := by
  refine ⟨⟨hright.low, Or.inr ⟨_, _, rfl, hheight⟩, hright.after⟩, ?_, ?_⟩
  · intro x hx
    obtain hx | hx := List.mem_append.mp hx
    · exact (hs.lt hx List.mem_cons_self).le
    · rw [List.mem_singleton.mp hx]
  · exact fun x hx => (hs.right.cons_lt (List.mem_append_right right hx)).not_ge

/-- Around a key of the node itself are the gaps on both of its sides. -/
theorem HoldsKey.of_sides {left right : List (Key × Cid)}
    (hS : Holds S (canonicalEntries ctx L (lo ++ left ++ (key, value) :: (right ++ hi))))
    (hlow : Low (keyHeight ctx.sha256) (L + 1) (lo ++ left ++ (key, value) :: (right ++ hi)))
    (hs : Sorted (lo ++ left ++ (key, value) :: (right ++ hi)))
    (hheight : L ≤ keyHeight ctx.sha256 key) (hleft : Gap (keyHeight ctx.sha256) L lo left [])
    (hright : Gap (keyHeight ctx.sha256) L [] right hi)
    (h : ∀ M, L = M + 1 → HoldsAround S (fun _ => True) M left ∧
      HoldsAround S (fun _ => False) M right) :
  HoldsKey S key L (lo ++ left ++ (key, value) :: (right ++ hi))
  := by
  constructor
  · apply Around.of_gap (fun _ => hS) hlow (gapAt_before hs hheight hleft)
    intro M hM
    apply (h M hM).1.congr
    intro x hx
    simp [hs.lt (List.mem_append_right lo hx) List.mem_cons_self]
  · have hassoc : lo ++ left ++ (key, value) :: (right ++ hi) =
        (lo ++ left ++ [(key, value)]) ++ right ++ hi := by simp
    have hgap := gapAt_after hs hheight hright
    rw [hassoc] at hS hlow ⊢
    apply Around.of_gap (fun _ => hS) hlow hgap
    intro M hM
    apply (h M hM).2.congr
    intro x hx
    simp [hs.right.cons_lt (List.mem_append_left hi hx)]

/-- The nodes around a key of the node are around it in the gaps on both of its sides. -/
theorem HoldsKey.sides {left right : List (Key × Cid)}
    (h : HoldsKey S key (L + 1) (lo ++ left ++ (key, value) :: (right ++ hi)))
    (hs : Sorted (lo ++ left ++ (key, value) :: (right ++ hi)))
    (hheight : L + 1 ≤ keyHeight ctx.sha256 key)
    (hleft : Gap (keyHeight ctx.sha256) (L + 1) lo left [])
    (hright : Gap (keyHeight ctx.sha256) (L + 1) [] right hi) :
  HoldsAround S (fun _ => True) L left ∧ HoldsAround S (fun _ => False) L right
  := by
  constructor
  · apply (h.before.gap (gapAt_before hs hheight hleft)).congr
    intro x hx
    simp [hs.lt (List.mem_append_right lo hx) List.mem_cons_self]
  · have hassoc : lo ++ left ++ (key, value) :: (right ++ hi) =
        (lo ++ left ++ [(key, value)]) ++ right ++ hi := by simp
    have hgap := gapAt_after hs hheight hright
    have hafter := h.after
    rw [hassoc] at hafter
    apply (hafter.gap hgap).congr
    intro x hx
    simp [hs.right.cons_lt (List.mem_append_left hi hx)]

/-- Around a key that falls into a gap are the nodes around it in the gap. -/
theorem HoldsKey.of_gap
    (hS : lo ++ gap ++ hi ≠ [] → Holds S (canonicalEntries ctx L (lo ++ gap ++ hi)))
    (hlow : Low (keyHeight ctx.sha256) (L + 1) (lo ++ gap ++ hi))
    (hgap : Gap (keyHeight ctx.sha256) L lo gap hi) (hlo : ∀ x ∈ lo, x.1 < key)
    (hhi : ∀ x ∈ hi, key < x.1) (h : ∀ M, L = M + 1 → HoldsKey S key M gap) :
  HoldsKey S key L (lo ++ gap ++ hi)
  := by
  constructor
  · apply Around.of_gap hS hlow
    · exact ⟨hgap, hlo, fun x hx => (hhi x hx).not_gt⟩
    · exact fun M hM => (h M hM).before
  · apply Around.of_gap hS hlow
    · exact ⟨hgap, fun x hx => (hlo x hx).le, fun x hx => (hhi x hx).not_ge⟩
    · exact fun M hM => (h M hM).after

/-- The nodes around a key that falls into a gap are around it in the gap. -/
theorem HoldsKey.inner (h : HoldsKey S key (L + 1) (lo ++ gap ++ hi))
    (hgap : GapOf ctx key (L + 1) lo gap hi) (hhi : ∀ x ∈ hi, key < x.1) :
  HoldsKey S key L gap
  := by
  constructor
  · exact h.before.gap hgap
  · apply h.after.gap
    exact ⟨hgap.toGap, fun x hx => (hgap.before_pos x hx).le, fun x hx => (hhi x hx).not_ge⟩

/-- A node with a single key is around it. -/
theorem HoldsKey.singleton
    (hS : Holds S (canonicalEntries ctx (keyHeight ctx.sha256 key) [(key, value)])) :
  HoldsKey S key (keyHeight ctx.sha256 key) [(key, value)]
  := by
  have hlow : Low (keyHeight ctx.sha256) (keyHeight ctx.sha256 key + 1) [(key, value)] := by
    intro x hx
    rw [List.mem_singleton.mp hx]
    exact Nat.lt_succ_self _
  have hempty : Gap (keyHeight ctx.sha256) (keyHeight ctx.sha256 key) []
      ([] : List (Key × Cid)) [] := Gap.whole (Low.nil _)
  have hsides : HoldsKey S key (keyHeight ctx.sha256 key) ([] ++ [] ++ (key, value) :: ([] ++ [])) :=
    HoldsKey.of_sides hS hlow (List.pairwise_singleton _ _) (le_refl _) hempty hempty
      fun M _ => ⟨Around.nil M, Around.nil M⟩
  exact hsides

theorem canonicalEntries_singleton (key : Key) (value : Cid) :
  canonicalEntries ctx (keyHeight ctx.sha256 key) [(key, value)] = [.leaf key value]
  := by
  have hheight : keyHeight ctx.sha256 key ≤ keyHeight ctx.sha256 (key, value).1 := le_refl _
  rw [canonicalEntries, entries_cons hheight, entries_nil]

/-- The child list of a node that a key of its layer cuts in two. -/
theorem canonicalEntries_sides {left right : List (Key × Cid)}
    (hheight : L ≤ keyHeight ctx.sha256 key) (hleft : Gap (keyHeight ctx.sha256) L lo left [])
    (hright : Gap (keyHeight ctx.sha256) L [] right hi) :
  canonicalEntries ctx L (lo ++ left ++ (key, value) :: (right ++ hi)) =
    entriesBefore ctx L lo left ++ .leaf key value ::
      (gapEntries (keyHeight ctx.sha256) (nodeCid ctx) L right ++ canonicalEntries ctx L hi)
  := by
  have hl := @entries_gap _ _ _ _ (nodeCid ctx) _ _ _ _ hleft
  have hr := @entries_gap _ _ _ _ (nodeCid ctx) _ _ _ _ hright
  simp only [List.append_nil, entries_nil, List.nil_append] at hl hr
  have hx : L ≤ keyHeight ctx.sha256 (key, value).1 := hheight
  rw [canonicalEntries, entries_append_cons (lo ++ left) hx, hl, hr]
  rfl

theorem low_insert (hlow : Low (keyHeight ctx.sha256) (L + 1) xs)
    (hheight : keyHeight ctx.sha256 key ≤ L) :
  Low (keyHeight ctx.sha256) (L + 1) (SearchTree.insert key value xs)
  := by
  intro x hx
  obtain hx | hx := List.mem_append.mp hx
  · exact hlow x (mem_of_mem_below hx)
  · obtain rfl | hx := List.mem_cons.mp hx
    · exact Nat.lt_succ_of_le hheight
    · exact hlow x (mem_of_mem_above hx)

theorem findLeafIndex_sides {left : List (Key × Cid)} {rest : List NodeEntry}
    (h : ∀ x ∈ lo ++ left, x.1 < key) :
  findLeafIndex (entriesBefore ctx L lo left ++ .leaf key value :: rest) key =
    (entriesBefore ctx L lo left).length
  := by
  apply findLeafIndex_append _ (Or.inr ⟨key, value, rest, rfl, le_refl key⟩)
  intro k v hmem
  obtain hlo | hgap := List.mem_append.mp hmem
  · exact h (k, v) (List.mem_append_left left (mem_of_leaf_mem_entries hlo).1)
  · exact absurd hgap (leaf_not_mem_gapEntries L left k v)

/-- The store after writing a node that a key of its layer cuts in two. -/
theorem storeEntries_sides (hctx : ctx.Sound) {left right : List (Key × Cid)}
    {children : List NodeEntry} (hxs : Within U (lo ++ left ++ (key, value) :: (right ++ hi)))
    (hlow : Low (keyHeight ctx.sha256) (L + 1) (lo ++ left ++ (key, value) :: (right ++ hi)))
    (hheight : L ≤ keyHeight ctx.sha256 key) (hleft : Gap (keyHeight ctx.sha256) L lo left [])
    (hright : Gap (keyHeight ctx.sha256) L [] right hi)
    (h : ∀ M, L = M + 1 → HoldsAround S (fun _ => True) M left ∧
      HoldsAround S (fun _ => False) M right)
    (hchildren : children = entriesBefore ctx L lo left ++ .leaf key value ::
      (gapEntries (keyHeight ctx.sha256) (nodeCid ctx) L right ++ canonicalEntries ctx L hi)) :
  Action.Meets (storeEntries ctx children) S
    (fun cid T => cid = canonicalCid ctx L (lo ++ left ++ (key, value) :: (right ++ hi)) ∧
      HoldsKey T key L (lo ++ left ++ (key, value) :: (right ++ hi)))
    (¬ AllFit ctx L U)
  := by
  rw [← canonicalEntries_sides hheight hleft hright] at hchildren
  apply (storeEntries_spec hctx hxs hchildren).mono _ id
  rintro cid T hST ⟨hcid, hT⟩
  refine ⟨hcid, HoldsKey.of_sides hT hlow hxs.sorted hheight hleft hright ?_⟩
  exact fun M hM => ⟨HoldsAround.grow (h M hM).1 hST, HoldsAround.grow (h M hM).2 hST⟩

/-- Inserting a key of the layer of the node. -/
theorem insertAt_here (hctx : ctx.Sound) (hU : Short U) {depth : Nat} (hkey : U (key, value))
    (hxs : Within U xs) (hlow : Low (keyHeight ctx.sha256) (L + 1) xs) (hne : xs ≠ [])
    (hheight : keyHeight ctx.sha256 key = L) (h : HoldsKey S key L xs) :
  Action.Meets (insertAt ctx (depth + 1) (canonicalCid ctx L xs) L key value L) S
    (fun cid T => cid = canonicalCid ctx L (SearchTree.insert key value xs) ∧
      HoldsKey T key L (SearchTree.insert key value xs))
    (depth + 1 ≤ L ∨ ¬ AllFit ctx L U)
  := by
  have hwithin := hxs.insert hkey
  have hlow' := @low_insert ctx _ key value _ hlow hheight.le
  have hload := loadEntries_spec hctx hU hxs (h.before.self hlow hne)
  apply (hload.mono (fun _ _ _ h => h) Or.inr).bind
  intro children T hST hchildren
  subst hchildren
  obtain ⟨lo, left, v, right, hi, rfl, hleft, hright, -⟩ |
    ⟨lo, left, right, hi, rfl, hgap, hlt, hge, habove⟩ := key_cases ctx hxs.sorted key L
  · -- The key is there: its value is replaced.
    have hlower : ∀ x ∈ lo ++ left, x.1 < key := fun x hx => hxs.sorted.lt hx List.mem_cons_self
    have hupper : ∀ x ∈ right ++ hi, key < x.1 := fun x hx => hxs.sorted.right.cons_lt hx
    rw [insert_append_cons value v hlower hupper] at hwithin hlow' ⊢
    simp only [canonicalEntries_sides hheight.ge hleft hright, findLeafIndex_sides hlower,
      leafAt_of_head, if_true]
    apply (storeEntries_sides hctx hwithin hlow' hheight.ge hleft hright _ _).mono
      (fun _ _ _ h => h) Or.inr
    · rintro M rfl
      have hsides := h.sides hxs.sorted hheight.ge hleft hright
      exact ⟨HoldsAround.grow hsides.1 hST, HoldsAround.grow hsides.2 hST⟩
    · simp
  · -- The key falls into a gap, which is cut in two around it.
    have hlower : ∀ x ∈ lo ++ left, x.1 < key := by
      intro x hx
      obtain hx | hx := List.mem_append.mp hx
      · exact hgap.before_pos x hx
      · exact hlt x hx
    have hright : ∀ x ∈ right, key < x.1 := by
      intro x hx
      apply lt_of_le_of_ne (hge x hx)
      rintro rfl
      exact absurd (hgap.low x (List.mem_append_right left hx)) (Nat.not_lt.mpr hheight.ge)
    have hupper : ∀ x ∈ right ++ hi, key < x.1 := by
      intro x hx
      obtain hx | hx := List.mem_append.mp hx
      · exact hright x hx
      · exact habove x hx
    have hassoc : lo ++ (left ++ right) ++ hi = lo ++ left ++ (right ++ hi) := by simp
    have hinsert : SearchTree.insert key value (lo ++ (left ++ right) ++ hi) =
        lo ++ left ++ (key, value) :: (right ++ hi) := by
      rw [hassoc, insert_append value hlower hupper]
    rw [hinsert] at hwithin hlow' ⊢
    have hstore := fun {T' : BlockStore ctx.sha256} {children : List NodeEntry} =>
      @storeEntries_sides ctx U T' L key value lo hi hctx left right children hwithin hlow'
        hheight.ge (gap_left hgap) (gap_right hgap)
    simp only [canonicalEntries_gap hgap, findLeafIndex_before hgap, if_true,
      leafAt_of_above hgap habove]
    obtain hnil | hgapne := eq_or_ne (left ++ right) []
    · obtain ⟨rfl, rfl⟩ := List.append_eq_nil_iff.mp hnil
      rw [List.append_nil, childBefore_of_nil hgap.toGap]
      apply (hstore (fun M _ => ⟨Around.nil M, Around.nil M⟩) _).mono (fun _ _ _ h => h) Or.inr
      simp
    · obtain ⟨M, rfl⟩ := exists_succ_of_gap_ne_nil hgap hgapne
      rw [childBefore_of_ne_nil hgapne]
      have hsplit := splitAround_spec hctx hU key depth M left right T hxs.left.right hgap.low
        hgapne hlt hright (HoldsAround.grow (h.before.gap hgap) hST)
      apply (hsplit.mono (fun _ _ _ h => h) tooDeep_succ).bind
      rintro _ T' _ ⟨rfl, hl, hr⟩
      apply (hstore _ _).mono (fun _ _ _ h => h) Or.inr
      · intro M' hM'
        cases hM'
        exact ⟨hl, hr⟩
      · rw [entriesBefore_of_ne_nil hgapne]
        simp [entriesBefore, gapEntries, treeEntries]

/-- Inserting a key above the layer of the node. -/
theorem insertAt_above (hctx : ctx.Sound) (hU : Short U) {depth : Nat} (hkey : U (key, value))
    (hxs : Within U xs) (hlow : Low (keyHeight ctx.sha256) (L + 1) xs) (hne : xs ≠ [])
    (hheight : L < keyHeight ctx.sha256 key) (h : HoldsKey S key L xs) :
  Action.Meets
    (insertAt ctx (depth + 1) (canonicalCid ctx L xs) L key value (keyHeight ctx.sha256 key)) S
    (fun cid T =>
      cid = canonicalCid ctx (keyHeight ctx.sha256 key) (SearchTree.insert key value xs) ∧
        HoldsKey T key (keyHeight ctx.sha256 key) (SearchTree.insert key value xs))
    (depth ≤ L ∨ ¬ AllFit ctx (keyHeight ctx.sha256 key) U)
  := by
  have hwithin := hxs.insert hkey
  have hlow' := @low_insert ctx _ key value _ (hlow.mono (Nat.succ_le_succ hheight.le)) (le_refl _)
  have hload := loadEntries_spec hctx hU hxs (h.before.self hlow hne)
  have hexcuse : ¬ AllFit ctx L U → ¬ AllFit ctx (keyHeight ctx.sha256 key) U :=
    not_allFit_mono hheight.le
  apply (hload.mono (fun _ _ _ h => h) (fun hfit => Or.inr (hexcuse hfit))).bind
  intro children T hST _
  simp only [hheight.ne', hheight.not_gt, if_false]
  obtain ⟨lower, upper, rfl, hlower, hupper⟩ := hxs.sorted.exists_split key
  have hupper' : ∀ x ∈ upper, key < x.1 := by
    intro x hx
    apply lt_of_le_of_ne (hupper x hx)
    rintro rfl
    exact absurd (hlow x (List.mem_append_right lower hx)) (by omega)
  rw [insert_append value hlower hupper'] at hwithin hlow' ⊢
  obtain ⟨n, hn⟩ := Nat.exists_eq_add_of_lt hheight
  have hsplit := splitAround_spec hctx hU key depth L lower upper T hxs hlow hne hlower hupper'
    (HoldsAround.grow h.before hST)
  apply (hsplit.mono (fun _ _ _ h => h) (Or.imp_right hexcuse)).bind
  rintro _ T' _ ⟨rfl, hl, hr⟩
  have hwrap := wrapBoth_spec hctx n hxs.left hxs.right hlow.left hlow.right hl hr
  have hcount : keyHeight ctx.sha256 key - L - 1 = n := by omega
  simp only [hcount]
  have hlayer : L + n ≤ keyHeight ctx.sha256 key := by omega
  apply (hwrap.mono (fun _ _ _ h => h) fun hfit => Or.inr (not_allFit_mono hlayer hfit)).bind
  rintro _ T'' _ ⟨rfl, hl', hr'⟩
  have hlower' : Low (keyHeight ctx.sha256) (keyHeight ctx.sha256 key) lower :=
    hlow.left.mono hheight
  have hupper'' : Low (keyHeight ctx.sha256) (keyHeight ctx.sha256 key) upper :=
    hlow.right.mono hheight
  have hstore := @storeEntries_sides ctx U T'' (keyHeight ctx.sha256 key) key value [] [] hctx lower
    upper _ (by simpa using hwithin) (by simpa using hlow') (le_refl _) (Gap.whole hlower')
    (Gap.whole hupper'') (by
      intro M hM
      have hMn : M = L + n := by omega
      subst hMn
      exact ⟨hl', hr'⟩) rfl
  simp only [List.append_nil, List.nil_append] at hstore
  have hchildren : entriesBefore ctx (keyHeight ctx.sha256 key) [] lower ++ .leaf key value ::
        (gapEntries (keyHeight ctx.sha256) (nodeCid ctx) (keyHeight ctx.sha256 key) upper ++
          canonicalEntries ctx (keyHeight ctx.sha256 key) []) =
      treeEntries (canonicalCid? ctx (L + n) lower) ++ .leaf key value ::
        treeEntries (canonicalCid? ctx (L + n) upper) := by
    rw [hn]
    simp [entriesBefore, gapEntries, treeEntries]
  rw [hchildren] at hstore
  exact hstore.mono (fun _ _ _ h => h) Or.inr

/-- Storing a node whose gap has received the key. -/
theorem storeEntries_gap (hctx : ctx.Sound) {children : List NodeEntry}
    (hxs : Within U (lo ++ gap ++ hi))
    (hlow : Low (keyHeight ctx.sha256) (L + 2) (lo ++ gap ++ hi))
    (hgap : Gap (keyHeight ctx.sha256) (L + 1) lo gap hi) (hlo : ∀ x ∈ lo, x.1 < key)
    (hhi : ∀ x ∈ hi, key < x.1) (h : HoldsKey S key L gap)
    (hchildren : children = entriesBefore ctx (L + 1) lo gap ++ canonicalEntries ctx (L + 1) hi) :
  Action.Meets (storeEntries ctx children) S
    (fun cid T => cid = canonicalCid ctx (L + 1) (lo ++ gap ++ hi) ∧
      HoldsKey T key (L + 1) (lo ++ gap ++ hi))
    (¬ AllFit ctx (L + 1) U)
  := by
  have hentries : children = canonicalEntries ctx (L + 1) (lo ++ gap ++ hi) :=
    hchildren.trans (entries_gap hgap).symm
  apply (storeEntries_spec hctx hxs hentries).mono _ id
  rintro cid T hST ⟨hcid, hT⟩
  refine ⟨hcid, HoldsKey.of_gap (fun _ => hT) hlow hgap hlo hhi ?_⟩
  intro M hM
  cases hM
  exact h.grow hST

/-- Inserting a key below the layer of the node, given how the child of its gap is dealt
with. -/
theorem insertAt_below (hctx : ctx.Sound) (hU : Short U) {depth : Nat} (hkey : U (key, value))
    (hxs : Within U xs) (hlow : Low (keyHeight ctx.sha256) (L + 2) xs) (hne : xs ≠ [])
    (hheight : keyHeight ctx.sha256 key ≤ L) (h : HoldsKey S key (L + 1) xs)
    (hrec : ∀ gap T, Within U gap → Low (keyHeight ctx.sha256) (L + 1) gap → gap ≠ [] →
      HoldsKey T key L gap →
      Action.Meets
        (insertAt ctx depth (canonicalCid ctx L gap) L key value (keyHeight ctx.sha256 key)) T
        (fun cid T => cid = canonicalCid ctx L (SearchTree.insert key value gap) ∧
          HoldsKey T key L (SearchTree.insert key value gap))
        (depth ≤ L ∨ ¬ AllFit ctx L U)) :
  Action.Meets
    (insertAt ctx (depth + 1) (canonicalCid ctx (L + 1) xs) (L + 1) key value
      (keyHeight ctx.sha256 key)) S
    (fun cid T => cid = canonicalCid ctx (L + 1) (SearchTree.insert key value xs) ∧
      HoldsKey T key (L + 1) (SearchTree.insert key value xs))
    (depth + 1 ≤ L + 1 ∨ ¬ AllFit ctx (L + 1) U)
  := by
  have hwithin := hxs.insert hkey
  have hlow' := @low_insert ctx _ key value _ hlow (hheight.trans (Nat.le_succ L))
  have hload := loadEntries_spec hctx hU hxs (h.before.self hlow hne)
  apply (hload.mono (fun _ _ _ h => h) Or.inr).bind
  intro children T hST hchildren
  subst hchildren
  have hlt : keyHeight ctx.sha256 key < L + 1 := Nat.lt_succ_of_le hheight
  simp only [hlt.ne, hlt, if_true, if_false]
  obtain ⟨lo, left, v, right, hi, -, -, -, hle⟩ | ⟨lo, left, right, hi, rfl, hgap, -, -, habove⟩ :=
    key_cases ctx hxs.sorted key (L + 1)
  · omega
  generalize left ++ right = gap at *
  rw [insert_middle value hgap.before_pos habove] at hwithin hlow' ⊢
  have hgap' : Gap (keyHeight ctx.sha256) (L + 1) lo (SearchTree.insert key value gap) hi :=
    ⟨low_insert hgap.low hheight, hgap.before, hgap.after⟩
  simp only [canonicalEntries_gap hgap, findLeafIndex_before hgap]
  obtain rfl | hgapne := eq_or_ne gap []
  · -- The child of the gap is made from the key alone.
    have hsingle : SearchTree.insert key value [] = [(key, value)] := rfl
    rw [hsingle] at hwithin hlow' hgap' ⊢
    have hkeyWithin : Within U [(key, value)] := Within.singleton hkey
    rw [childBefore_of_nil hgap.toGap]
    have hleaf := @storeEntries_spec ctx U _ T hctx _ _ hkeyWithin
      (canonicalEntries_singleton key value).symm
    apply (hleaf.mono (fun _ _ _ h => h) fun hfit => Or.inr (not_allFit_mono hlt.le hfit)).bind
    rintro _ T' _ ⟨rfl, hT'⟩
    have hlowSingle : Low (keyHeight ctx.sha256) (keyHeight ctx.sha256 key + 1) [(key, value)] := by
      intro x hx
      rw [List.mem_singleton.mp hx]
      exact Nat.lt_succ_self _
    have hwrap := @wrap_spec ctx U T' _ _ hctx (L + 1 - (keyHeight ctx.sha256 key + 1)) hkeyWithin
      hlowSingle (List.cons_ne_nil _ _)
    have hlayer : keyHeight ctx.sha256 key + (L + 1 - (keyHeight ctx.sha256 key + 1)) = L := by omega
    rw [hlayer] at hwrap
    apply (hwrap.mono (fun _ _ _ h => h) fun hfit => Or.inr (not_allFit_mono L.le_succ hfit)).bind
    rintro _ T'' _ ⟨rfl, haround⟩
    have hsingleton := HoldsKey.singleton hT'
    have hinner : HoldsKey T'' key L [(key, value)] :=
      ⟨haround _ hsingleton.before, haround _ hsingleton.after⟩
    apply (storeEntries_gap hctx hwithin hlow' hgap' hgap.before_pos habove hinner _).mono
      (fun _ _ _ h => h) Or.inr
    rw [entriesBefore_of_ne_nil (List.cons_ne_nil _ _)]
    simp [entriesBefore]
  · rw [childBefore_of_ne_nil hgapne]
    have hchild := hrec gap T hxs.left.right hgap.low hgapne ((h.inner hgap habove).grow hST)
    apply (hchild.mono (fun _ _ _ h => h) tooDeep_succ).bind
    rintro _ T' _ ⟨rfl, hinner⟩
    apply (storeEntries_gap hctx hwithin hlow' hgap' hgap.before_pos habove hinner _).mono
      (fun _ _ _ h => h) Or.inr
    rw [entriesBefore_of_ne_nil hgapne, entriesBefore_of_ne_nil (insert_ne_nil key value gap)]
    simp

/-- Inserting into a canonical node gives the canonical node of the list with the key, at
the layer of the node or of the key, whichever is higher. -/
theorem insertAt_spec (hctx : ctx.Sound) (hU : Short U) (hkey : U (key, value)) :
  ∀ (depth L : Nat) (xs : List (Key × Cid)) (S : BlockStore ctx.sha256),
    Within U xs → Low (keyHeight ctx.sha256) (L + 1) xs → xs ≠ [] → HoldsKey S key L xs →
    Action.Meets
      (insertAt ctx depth (canonicalCid ctx L xs) L key value (keyHeight ctx.sha256 key)) S
      (fun cid T =>
        cid = canonicalCid ctx (max L (keyHeight ctx.sha256 key)) (SearchTree.insert key value xs) ∧
          HoldsKey T key (max L (keyHeight ctx.sha256 key)) (SearchTree.insert key value xs))
      (depth ≤ max L (keyHeight ctx.sha256 key) ∨
        ¬ AllFit ctx (max L (keyHeight ctx.sha256 key)) U)
  := by
  intro depth
  induction depth with
  | zero =>
    intro L xs S _ _ _ _
    exact Action.Meets.throw (Or.inl (Nat.zero_le _))
  | succ depth ih =>
    intro L xs S hxs hlow hne h
    obtain hlt | heq | hgt := Nat.lt_trichotomy (keyHeight ctx.sha256 key) L
    · obtain ⟨M, rfl⟩ := Nat.exists_eq_succ_of_ne_zero (Nat.ne_zero_of_lt hlt)
      have hle : keyHeight ctx.sha256 key ≤ M := Nat.le_of_lt_succ hlt
      rw [max_eq_left hlt.le]
      apply insertAt_below hctx hU hkey hxs hlow hne hle h
      intro gap T hgap hlowGap hgapne hT
      have hrec := ih M gap T hgap hlowGap hgapne hT
      rwa [max_eq_left hle] at hrec
    · rw [heq, max_self]
      exact insertAt_here hctx hU hkey hxs hlow hne heq h
    · rw [max_eq_right hgt.le]
      apply (insertAt_above hctx hU hkey hxs hlow hne hgt h).mono (fun _ _ _ h => h)
      exact fun hexcuse => hexcuse.imp_left fun hle => (Nat.succ_le_succ hle).trans hgt

end Atproto.Repo
