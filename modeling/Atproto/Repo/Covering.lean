import Atproto.Repo.Entries

/-!
# Covering proofs

The left descent of a covering proof follows the position just before the key and the
right descent the position just after it.  A store with the nodes of the proof alone has
the nodes around the key, which is all that reading, inserting or deleting the key needs.
-/

namespace Atproto.Repo

open Atproto.Dasl SearchTree Logic

variable {ctx : Context} {U : Key × Cid → Prop} {S : BlockStore ctx.sha256}
  {L N : Nat} {key : Key} {value : Cid} {lo gap hi xs : List (Key × Cid)}

/-! ### The three descents -/

/-- Every node of a path is a canonical node in the store, of layer `N` at most. -/
def PathIn (S : BlockStore ctx.sha256) (U : Key × Cid → Prop) (N : Nat) (path : List Cid) : Prop :=
  ∀ cid ∈ path, ∃ L ≤ N, ∃ xs, Within U xs ∧ Holds S (canonicalEntries ctx L xs) ∧
    cid = canonicalCid ctx L xs

theorem PathIn.grow {T : BlockStore ctx.sha256} {path : List Cid} (h : PathIn S U N path)
    (hST : S ≤ T) :
  PathIn T U N path
  := by
  intro cid hcid
  obtain ⟨L, hL, xs, hxs, hS, heq⟩ := h cid hcid
  exact ⟨L, hL, xs, hxs, hS.mono hST, heq⟩

theorem PathIn.le {M : Nat} {path : List Cid} (h : PathIn S U M path) (hM : M ≤ N) :
  PathIn S U N path
  := by
  intro cid hcid
  obtain ⟨L, hL, hnode⟩ := h cid hcid
  exact ⟨L, hL.trans hM, hnode⟩

theorem PathIn.nil :
  PathIn S U N []
  := nofun

theorem PathIn.cons {path : List Cid} (h : PathIn S U L path) (hxs : Within U xs)
    (hS : Holds S (canonicalEntries ctx L xs)) :
  PathIn S U L (canonicalCid ctx L xs :: path)
  := by
  intro cid hcid
  obtain rfl | hcid := List.mem_cons.mp hcid
  · exact ⟨L, le_refl L, xs, hxs, hS, rfl⟩
  · exact h cid hcid

/-- The path has the nodes around a position. -/
abbrev PathAround (ctx : Context) (path : List Cid) (p : Key → Prop) (L : Nat)
    (xs : List (Key × Cid)) : Prop :=
  Around (keyHeight ctx.sha256) (nodeCid ctx) (fun es => nodeCid ctx es ∈ path) p L xs

/-- A descent returns a path that has the nodes around a position. -/
abbrev Covers (S : BlockStore ctx.sha256) (U : Key × Cid → Prop) (descent : StoreM ctx (List Cid))
    (p : Key → Prop) (L : Nat) (xs : List (Key × Cid)) (excuse : Prop) : Prop :=
  Action.Meets descent S (fun path T => PathIn T U L path ∧ PathAround ctx path p L xs) excuse

/-- The path down the gap of the position, with the node before it. -/
theorem pathAround_cons {path : List Cid} {p : Key → Prop}
    (hlow : Low (keyHeight ctx.sha256) (L + 1) (lo ++ gap ++ hi))
    (hgap : GapAt (keyHeight ctx.sha256) p L lo gap hi)
    (h : ∀ M, L = M + 1 → PathAround ctx path p M gap) :
  PathAround ctx (canonicalCid ctx L (lo ++ gap ++ hi) :: path) p L (lo ++ gap ++ hi)
  := by
  refine Around.of_gap ?_ hlow hgap ?_
  · exact fun _ => List.mem_cons_self
  · exact fun M hM => (h M hM).mono fun _ hes => List.mem_cons_of_mem _ hes

/-- The end of a descent that finds the gap empty. -/
theorem covers_last {p : Key → Prop} {excuse : Prop} (hxs : Within U (lo ++ [] ++ hi))
    (hS : Holds S (canonicalEntries ctx L (lo ++ [] ++ hi)))
    (hlow : Low (keyHeight ctx.sha256) (L + 1) (lo ++ [] ++ hi))
    (hgap : GapAt (keyHeight ctx.sha256) p L lo [] hi) :
  Covers S U (pure [canonicalCid ctx L (lo ++ [] ++ hi)]) p L (lo ++ [] ++ hi) excuse
  := by
  apply Action.Meets.pure
  use PathIn.nil.cons hxs hS
  exact pathAround_cons hlow hgap fun M _ => Around.nil M

/-- A step of a descent into the gap. -/
theorem covers_step {descent : StoreM ctx (List Cid)} {p : Key → Prop} {excuse : Prop}
    (hxs : Within U (lo ++ gap ++ hi))
    (hS : Holds S (canonicalEntries ctx (L + 1) (lo ++ gap ++ hi)))
    (hlow : Low (keyHeight ctx.sha256) (L + 2) (lo ++ gap ++ hi))
    (hgap : GapAt (keyHeight ctx.sha256) p (L + 1) lo gap hi)
    (h : Covers S U descent p L gap excuse) :
  Covers S U (do
      let path ← descent
      pure (canonicalCid ctx (L + 1) (lo ++ gap ++ hi) :: path)) p (L + 1) (lo ++ gap ++ hi) excuse
  := by
  apply h.bind
  rintro path T hST ⟨hpath, haround⟩
  apply Action.Meets.pure
  use (hpath.le L.le_succ).cons hxs (hS.mono hST)
  apply pathAround_cons hlow hgap
  intro M hM
  cases hM
  exact haround

/-- The left descent follows the position before the key. -/
theorem proofForLeftSib_spec (hctx : ctx.Sound) (hU : Short U) (key : Key) :
  ∀ (steps L : Nat) (xs : List (Key × Cid)) (S : BlockStore ctx.sha256),
    Within U xs → Low (keyHeight ctx.sha256) (L + 1) xs → xs ≠ [] →
    HoldsAround S (· < key) L xs →
    Covers S U (proofForLeftSib ctx steps (canonicalCid ctx L xs) key) (· < key) L xs
      (steps ≤ L ∨ ¬ AllFit ctx L U)
  := by
  intro steps
  induction steps with
  | zero =>
    intro L xs S _ _ _ _
    exact Action.Meets.throw (Or.inl (Nat.zero_le L))
  | succ steps ih =>
    intro L xs S hxs hlow hne haround
    have hself := haround.self hlow hne
    apply ((loadEntries_spec hctx hU hxs hself).mono (fun _ _ _ h => h) Or.inr).bind
    intro children T hST hchildren
    subst hchildren
    obtain ⟨lo, left, right, hi, rfl, hgap, -, -⟩ := exists_gapOf ctx hxs.sorted key L
    generalize left ++ right = gap at *
    simp only [canonicalEntries_gap hgap, findLeafIndex_before hgap]
    obtain rfl | hgapne := eq_or_ne gap []
    · rw [childBefore_of_nil hgap.toGap]
      exact covers_last hxs (hself.mono hST) hlow hgap
    · obtain ⟨M, rfl⟩ := exists_succ_of_gap_ne_nil hgap hgapne
      rw [childBefore_of_ne_nil hgapne]
      apply covers_step hxs (hself.mono hST) hlow hgap
      have hrec := ih M gap T hxs.left.right hgap.low hgapne
        (HoldsAround.grow (haround.gap hgap) hST)
      exact hrec.mono (fun _ _ _ h => h) tooDeep_succ

/-- The descent to the key stays in the store. -/
theorem proofForKey_spec (hctx : ctx.Sound) (hU : Short U) (key : Key) :
  ∀ (steps L : Nat) (xs : List (Key × Cid)) (S : BlockStore ctx.sha256),
    Within U xs → Low (keyHeight ctx.sha256) (L + 1) xs → xs ≠ [] →
    HoldsAround S (· < key) L xs →
    Action.Meets (proofForKey ctx steps (canonicalCid ctx L xs) key) S
      (fun path T => PathIn T U L path) (steps ≤ L ∨ ¬ AllFit ctx L U)
  := by
  intro steps
  induction steps with
  | zero =>
    intro L xs S _ _ _ _
    exact Action.Meets.throw (Or.inl (Nat.zero_le L))
  | succ steps ih =>
    intro L xs S hxs hlow hne haround
    have hself := haround.self hlow hne
    apply ((loadEntries_spec hctx hU hxs hself).mono (fun _ _ _ h => h) Or.inr).bind
    intro children T hST hchildren
    subst hchildren
    dsimp only
    split
    · exact Action.Meets.pure (PathIn.nil.cons hxs (hself.mono hST))
    · obtain ⟨lo, left, right, hi, rfl, hgap, -, -⟩ := exists_gapOf ctx hxs.sorted key L
      generalize left ++ right = gap at *
      simp only [canonicalEntries_gap hgap, findLeafIndex_before hgap]
      obtain rfl | hgapne := eq_or_ne gap []
      · rw [childBefore_of_nil hgap.toGap]
        exact Action.Meets.pure PathIn.nil
      · obtain ⟨M, rfl⟩ := exists_succ_of_gap_ne_nil hgap hgapne
        rw [childBefore_of_ne_nil hgapne]
        have hrec := ih M gap T hxs.left.right hgap.low hgapne
          (HoldsAround.grow (haround.gap hgap) hST)
        apply (hrec.mono (fun _ _ _ h => h) tooDeep_succ).bind
        intro path T' hTT' hpath
        apply Action.Meets.pure
        exact (hpath.le M.le_succ).cons hxs (hself.mono (hST.trans hTT'))

/-! ### The right descent -/

/-- Away from the key itself the right descent goes into the gap of the key. -/
theorem rightNeighbour_eq_childBefore {es es' : List NodeEntry}
    (hes : ∀ v, Entry.leaf key v ∉ es) (hes' : es' = [] ∨ ∃ k v rest, es' = .leaf k v :: rest ∧ k ≠ key) :
  rightNeighbour (es ++ es') es.length key = childBefore (es ++ es') es.length
  := by
  rw [childBefore_append]
  obtain rfl | ⟨init, e, rfl⟩ := List.eq_nil_or_concat' es
  · obtain rfl | ⟨k, v, rest, rfl, hk⟩ := hes'
    · rfl
    · simp [rightNeighbour, hk]
  · have hlast : (init ++ [e] ++ es')[(init ++ [e]).length - 1]? = some e := by simp
    have hpos : 0 < (init ++ [e]).length := by simp
    rw [List.getLast?_append_cons, List.getLast?_singleton]
    obtain rfl | ⟨k, v, rest, rfl, hk⟩ := hes'
    · have hnone : (init ++ [e] ++ [])[(init ++ [e]).length]? = none := by simp
      simp only [rightNeighbour, hnone, hpos, if_true, hlast]
      cases e with
      | tree child => rfl
      | leaf k v =>
        have hk : k ≠ key := by
          rintro rfl
          exact hes v (by simp)
        simp [hk]
    · have hhead : (init ++ [e] ++ .leaf k v :: rest)[(init ++ [e]).length]? = some (.leaf k v) := by
        simp
      cases e with
      | tree child => simp only [rightNeighbour, hhead, hk, hpos.ne', if_false, hlast]
      | leaf k v => simp only [rightNeighbour, hhead, hk, hpos.ne', if_false, hlast]

/-- At the key itself the right descent goes into the gap after it. -/
theorem rightNeighbour_of_leaf {es es' : List NodeEntry} :
  rightNeighbour (es ++ .leaf key value :: es') es.length key =
    match es'.head? with
    | some (.tree child) => some child
    | _ => none
  := by
  have hfound : (es ++ .leaf key value :: es')[es.length]? = some (.leaf key value) := by simp
  have hnext : (es ++ .leaf key value :: es')[es.length + 1]? = es'.head? := by
    rw [List.getElem?_append_right (Nat.le_succ _), Nat.succ_sub (le_refl _), Nat.sub_self,
      List.getElem?_cons_succ, List.head?_eq_getElem?]
  rcases es' with _ | ⟨_ | _, _⟩
  · simp only [rightNeighbour, hfound, hnext, if_true, List.head?_nil]
  · simp only [rightNeighbour, hfound, hnext, if_true, List.head?_cons]
  · simp only [rightNeighbour, hfound, hnext, if_true, List.head?_cons]

/-- The right descent follows the position after the key. -/
theorem proofForRightSib_spec (hctx : ctx.Sound) (hU : Short U) (key : Key) :
  ∀ (steps L : Nat) (xs : List (Key × Cid)) (S : BlockStore ctx.sha256),
    Within U xs → Low (keyHeight ctx.sha256) (L + 1) xs → xs ≠ [] →
    HoldsAround S (· ≤ key) L xs →
    Covers S U (proofForRightSib ctx steps (canonicalCid ctx L xs) key) (· ≤ key) L xs
      (steps ≤ L ∨ ¬ AllFit ctx L U)
  := by
  intro steps
  induction steps with
  | zero =>
    intro L xs S _ _ _ _
    exact Action.Meets.throw (Or.inl (Nat.zero_le L))
  | succ steps ih =>
    intro L xs S hxs hlow hne haround
    have hself := haround.self hlow hne
    apply ((loadEntries_spec hctx hU hxs hself).mono (fun _ _ _ h => h) Or.inr).bind
    intro children T hST hchildren
    subst hchildren
    obtain ⟨lo, left, v, right, hi, rfl, hleft, hright, hheight⟩ |
      ⟨lo, left, right, hi, rfl, hgap, -, -, habove⟩ := key_cases ctx hxs.sorted key L
    · -- The key is there: the descent goes on after it.
      have hlower : ∀ x ∈ lo ++ left, x.1 < key := fun x hx => hxs.sorted.lt hx List.mem_cons_self
      simp only [canonicalEntries_sides hheight hleft hright, findLeafIndex_sides hlower,
        rightNeighbour_of_leaf]
      rw [← entriesAfter]
      have hassoc : lo ++ left ++ (key, v) :: (right ++ hi) =
          (lo ++ left ++ [(key, v)]) ++ right ++ hi := by simp
      have hgap := gapAt_after hxs.sorted hheight hright
      rw [hassoc] at hxs hlow haround hself ⊢
      obtain rfl | hne' := eq_or_ne right []
      · have hhead := head?_entriesAfter_nil hright
        split
        · next child heq =>
          split at heq
          · next child' heq' => exact absurd heq' (hhead child')
          · cases heq
        · exact covers_last hxs (hself.mono hST) hlow hgap
      · obtain ⟨M, rfl⟩ : ∃ M, L = M + 1 := by
          cases L with
          | zero => exact absurd hright.low_zero hne'
          | succ M => exact ⟨M, rfl⟩
        rw [entriesAfter_of_ne_nil hne']
        simp only [List.head?_cons]
        apply covers_step hxs (hself.mono hST) hlow hgap
        have hrec := ih M right T hxs.left.right hgap.low hne'
          (HoldsAround.grow (haround.gap hgap) hST)
        exact hrec.mono (fun _ _ _ h => h) tooDeep_succ
    · -- The key falls into a gap.
      generalize left ++ right = gap at *
      have hgap' : GapAt (keyHeight ctx.sha256) (· ≤ key) L lo gap hi :=
        ⟨hgap.toGap, fun x hx => (hgap.before_pos x hx).le, fun x hx => (habove x hx).not_ge⟩
      have hbefore : ∀ v, Entry.leaf key v ∉ entriesBefore ctx L lo gap := by
        intro v hmem
        obtain hmem | hmem := List.mem_append.mp hmem
        · exact lt_irrefl key (hgap.before_pos _ (mem_of_leaf_mem_entries hmem).1)
        · exact leaf_not_mem_gapEntries L gap key v hmem
      have hafter : canonicalEntries ctx L hi = [] ∨
          ∃ k v rest, canonicalEntries ctx L hi = .leaf k v :: rest ∧ k ≠ key := by
        obtain rfl | ⟨x, hi', rfl, hx⟩ := hgap.after
        · exact Or.inl (entries_nil L)
        · exact Or.inr ⟨x.1, x.2, _, entries_cons hx hi', (habove x List.mem_cons_self).ne'⟩
      simp only [canonicalEntries_gap hgap, findLeafIndex_before hgap,
        rightNeighbour_eq_childBefore hbefore hafter]
      obtain rfl | hgapne := eq_or_ne gap []
      · rw [childBefore_of_nil hgap.toGap]
        exact covers_last hxs (hself.mono hST) hlow hgap'
      · obtain ⟨M, rfl⟩ := exists_succ_of_gap_ne_nil hgap hgapne
        rw [childBefore_of_ne_nil hgapne]
        apply covers_step hxs (hself.mono hST) hlow hgap'
        have hrec := ih M gap T hxs.left.right hgap.low hgapne
          (HoldsAround.grow (haround.gap hgap') hST)
        exact hrec.mono (fun _ _ _ h => h) tooDeep_succ

/-! ### The blocks of a proof -/

/-- The blocks are blocks of the store. -/
def BlocksIn (S : BlockStore ctx.sha256) (blocks : List (Cid × Bytes)) : Prop :=
  ∀ block ∈ blocks, S.blocks block.1 = some block.2

theorem BlocksIn.nil :
  BlocksIn S []
  := fun _ hblock => absurd hblock List.not_mem_nil

theorem BlocksIn.grow {T : BlockStore ctx.sha256} {blocks : List (Cid × Bytes)}
    (h : BlocksIn S blocks) (hST : S ≤ T) :
  BlocksIn T blocks
  := fun block hblock => hST _ _ (h block hblock)

/-- The blocks after adding a path are those before and one for each node of the path. -/
structure Extends (path : List Cid) (blocks blocks' : List (Cid × Bytes)) : Prop where
  old : ∀ block ∈ blocks, block ∈ blocks'
  new : ∀ cid ∈ path, ∃ bytes, (cid, bytes) ∈ blocks'

theorem addPath_spec (hctx : ctx.Sound) {path : List Cid} {blocks : List (Cid × Bytes)}
    (hpath : PathIn S U N path) (hblocks : BlocksIn S blocks) :
  Action.Meets (addPath ctx path blocks) S
    (fun blocks' T => BlocksIn T blocks' ∧ Extends path blocks blocks') (¬ AllFit ctx N U)
  := by
  induction path generalizing blocks S with
  | nil => exact Action.Meets.pure ⟨hblocks, ⟨fun _ hblock => hblock, nofun⟩⟩
  | cons cid path ih =>
    have hrest : PathIn S U N path := fun c hc => hpath c (List.mem_cons_of_mem cid hc)
    rw [addPath]
    split
    · next hany =>
      apply (ih hrest hblocks).mono _ id
      rintro blocks' T _ ⟨hblocks', hold, hnew⟩
      refine ⟨hblocks', hold, ?_⟩
      intro c hc
      obtain rfl | hc := List.mem_cons.mp hc
      · obtain ⟨⟨c', bytes⟩, hmem, heq⟩ := List.any_eq_true.mp hany
        obtain rfl : c' = c := of_decide_eq_true heq
        exact ⟨bytes, hold _ hmem⟩
      · exact hnew c hc
    · obtain ⟨L, hL, xs, hxs, hS, rfl⟩ := hpath cid List.mem_cons_self
      have hload := loadCanonical_spec hctx hxs hS
      apply (hload.mono (fun _ _ _ h => h) (not_allFit_mono hL)).bind
      intro node T hST hnode
      obtain ⟨node', bytes, hnode', hbytes, hget⟩ := hS
      rw [hnode] at hnode'
      cases hnode'
      have hmapped : (ctx.codec.toBytes node).mapError MstError.serialization = .ok bytes := by
        rw [hbytes]
        rfl
      have hencode : Action.Meets
          (Action.ofExcept ((ctx.codec.toBytes node).mapError .serialization) : StoreM ctx Bytes) T
          (fun found _ => found = bytes) (¬ AllFit ctx N U) := Action.Meets.ofExcept hmapped rfl
      apply hencode.bind
      rintro found T' hTT' rfl
      have hST' := hST.trans hTT'
      have hblocks' : BlocksIn T' (blocks ++ [(canonicalCid ctx L xs, found)]) := by
        intro block hblock
        obtain hold | hnew := List.mem_append.mp hblock
        · exact hST' _ _ (hblocks block hold)
        · rw [List.mem_singleton.mp hnew]
          exact hST' _ _ hget
      apply (ih (hrest.grow hST') hblocks').mono _ id
      rintro blocks'' T'' _ ⟨hblocks'', hold, hnew⟩
      refine ⟨hblocks'', fun block hblock => hold _ (List.mem_append_left _ hblock), ?_⟩
      intro c hc
      obtain rfl | hc := List.mem_cons.mp hc
      · exact ⟨found, hold _ (by simp)⟩
      · exact hnew c hc

/-- A store with the blocks of a path around a position has the nodes around it. -/
theorem HoldsAround.of_blocks {path : List Cid} {blocks : List (Cid × Bytes)} {p : Key → Prop}
    {R : BlockStore ctx.sha256} (h : HoldsAround S p L xs) (hpath : PathAround ctx path p L xs)
    (hblocks : BlocksIn S blocks) (hnew : ∀ cid ∈ path, ∃ bytes, (cid, bytes) ∈ blocks)
    (hR : BlocksIn R blocks) :
  HoldsAround R p L xs
  := by
  intro l lo seg hi hl heq hgap hne
  obtain ⟨node, bytes, hnode, hbytes, hget⟩ := h l lo seg hi hl heq hgap hne
  obtain ⟨bytes', hmem⟩ := hnew _ (hpath l lo seg hi hl heq hgap hne)
  have hget' := hblocks _ hmem
  rw [hget] at hget'
  obtain rfl : bytes = bytes' := Option.some.inj hget'
  exact ⟨node, bytes, hnode, hbytes, hR _ hmem⟩

/-- Blocks under their own CIDs that are enough for a key. -/
def Suffices (ctx : Context) (blocks : List (Cid × Bytes)) (key : Key) (L : Nat)
    (xs : List (Key × Cid)) : Prop :=
  (∀ block ∈ blocks, computeCid ctx.sha256 block.2 = block.1) ∧
    ∀ R : BlockStore ctx.sha256, BlocksIn R blocks → HoldsKey R key L xs

theorem coveringProofRoot_spec (hctx : ctx.Sound) (hU : Short U) (steps : Nat) (hxs : Within U xs)
    (h : HoldsKey S key (topLayer ctx xs) xs) :
  Action.Meets (coveringProofRoot ctx steps (rootCid? ctx xs) key) S
    (fun blocks _ => Suffices ctx blocks key (topLayer ctx xs) xs)
    (steps ≤ topLayer ctx xs ∨ ¬ AllFit ctx (topLayer ctx xs) U)
  := by
  obtain rfl | hne := eq_or_ne xs []
  · apply Action.Meets.pure
    exact ⟨nofun, fun R _ => ⟨Around.nil _, Around.nil _⟩⟩
  · have hlow := low_top (keyHeight ctx.sha256) xs
    rw [rootCid?, canonicalCid?_of_ne_nil hne]
    apply (proofForKey_spec hctx hU key steps _ xs S hxs hlow hne h.before).bind
    intro path T hST hpath
    apply ((addPath_spec hctx hpath BlocksIn.nil).mono (fun _ _ _ h => h) Or.inr).bind
    rintro out T₁ hT₁ ⟨hout, -⟩
    have h₁ := h.grow (hST.trans hT₁)
    apply (proofForLeftSib_spec hctx hU key steps _ xs T₁ hxs hlow hne h₁.before).bind
    rintro left T₂ hT₂ ⟨hleft, hleftAround⟩
    apply ((addPath_spec hctx hleft (hout.grow hT₂)).mono (fun _ _ _ h => h) Or.inr).bind
    rintro out' T₃ hT₃ ⟨hout', -, hleftNew⟩
    have h₃ := h₁.grow (hT₂.trans hT₃)
    apply (proofForRightSib_spec hctx hU key steps _ xs T₃ hxs hlow hne h₃.after).bind
    rintro right T₄ hT₄ ⟨hright, hrightAround⟩
    apply (addPath_spec hctx hright (hout'.grow hT₄)).mono _ Or.inr
    rintro out'' T₅ hT₅ ⟨hout'', hold, hrightNew⟩
    have h₅ := h₃.grow (hT₄.trans hT₅)
    use fun block hblock => T₅.honest _ _ (hout'' block hblock)
    intro R hR
    constructor
    · apply HoldsAround.of_blocks h₅.before hleftAround hout'' _ hR
      intro cid hcid
      obtain ⟨bytes, hmem⟩ := hleftNew cid hcid
      exact ⟨bytes, hold _ hmem⟩
    · exact HoldsAround.of_blocks h₅.after hrightAround hout'' hrightNew hR

namespace Mst.Represents

variable {P : Key → Prop} {mst : Mst ctx} {steps : Nat}

/-- What a covering proof is. -/
theorem coveringProof_spec (h : mst.Represents U P xs) (hctx : ctx.Sound) (hU : Short U)
    (hP : P key) :
  match mst.coveringProof steps key with
  | .ok blocks => Suffices ctx blocks key (topLayer ctx xs) xs
  | .error _ => steps ≤ topLayer ctx xs ∨ ¬ AllFit ctx (topLayer ctx xs) U
  := by
  obtain ⟨-, hmatch⟩ := coveringProofRoot_spec hctx hU steps h.within (h.holds key hP)
  rw [← h.root] at hmatch
  rw [Mst.coveringProof]
  cases hproof : (coveringProofRoot ctx steps mst.root key mst.storage).1 with
  | ok blocks =>
    rw [hproof] at hmatch
    exact hmatch
  | error e =>
    rw [hproof] at hmatch
    exact hmatch

/-- Covering proofs exist, and with their blocks alone the tree is as good as before for
their keys. -/
theorem exists_coveringProofs (h : mst.Represents U P xs) (hctx : ctx.Sound) (hU : Short U)
    (hfit : AllFit ctx (topLayer ctx xs) U) (hsteps : topLayer ctx xs < steps) {keys : List Key}
    (hkeys : ∀ key ∈ keys, P key) :
  ∃ blocks, mst.coveringProofs steps keys = .ok blocks ∧
    (∀ block ∈ blocks, computeCid ctx.sha256 block.2 = block.1) ∧
    ∀ R : BlockStore ctx.sha256, BlocksIn R blocks →
      ∀ key ∈ keys, HoldsKey R key (topLayer ctx xs) xs
  := by
  induction keys with
  | nil => exact ⟨[], rfl, nofun, fun _ _ => nofun⟩
  | cons key keys ih =>
    obtain ⟨more, hmore, hhonest, hmoreHolds⟩ := ih fun k hk => hkeys k (List.mem_cons_of_mem _ hk)
    have hspec := @coveringProof_spec ctx U key xs P mst steps h hctx hU
      (hkeys key List.mem_cons_self)
    cases hproof : mst.coveringProof steps key with
    | error e =>
      rw [hproof] at hspec
      obtain hle | hnot := hspec
      · exact absurd hsteps (Nat.not_lt.mpr hle)
      · exact absurd hfit hnot
    | ok blocks =>
      rw [hproof] at hspec
      refine ⟨blocks ++ more, ?_, ?_, ?_⟩
      · rw [Mst.coveringProofs, hproof, hmore]
        rfl
      · intro block hblock
        obtain hblock | hblock := List.mem_append.mp hblock
        · exact hspec.1 block hblock
        · exact hhonest block hblock
      · intro R hR k hk
        obtain rfl | hk := List.mem_cons.mp hk
        · exact hspec.2 R fun block hblock => hR block (List.mem_append_left _ hblock)
        · exact hmoreHolds R (fun block hblock => hR block (List.mem_append_right _ hblock)) k hk

/-- The tree over the blocks of the covering proofs of some keys stands for the same list,
as far as these keys go. -/
theorem exists_withBlocks (h : mst.Represents U P xs) (hctx : ctx.Sound) (hU : Short U)
    (hfit : AllFit ctx (topLayer ctx xs) U) (hsteps : topLayer ctx xs < steps) {keys : List Key}
    (hkeys : ∀ key ∈ keys, P key) :
  ∃ blocks, mst.coveringProofs steps keys = .ok blocks ∧
    (mst.withBlocks blocks).Represents U (· ∈ keys) xs
  := by
  obtain ⟨blocks, hblocks, hhonest, hholds⟩ := h.exists_coveringProofs hctx hU hfit hsteps hkeys
  refine ⟨blocks, hblocks, h.within, h.root, ?_⟩
  apply hholds
  intro block hblock
  have hdata := BlockStore.ofBlocks_of_mem hctx.hash (List.mem_map_of_mem hblock : block.2 ∈ _)
  rwa [hhonest block hblock] at hdata

end Mst.Represents

end Atproto.Repo
