import Atproto.Repo.Run
import Atproto.Repo.Walk
import Atproto.SearchTree.Nodes

/-!
# Walking over all entries

The walk from a canonical node collects the list of the node.  It meets no node twice,
because equal CIDs stand for equal lists.
-/

namespace Atproto.Repo

open Atproto.Dasl SearchTree Logic

variable {ctx : Context} {U : Key × Cid → Prop} {S : BlockStore ctx.sha256}
  {L : Nat} {xs ys : List (Key × Cid)}

/-! ### CIDs of nodes in a store -/

/-- The store has all nodes of a canonical tree. -/
abbrev HoldsAll (S : BlockStore ctx.sha256) (L : Nat) (xs : List (Key × Cid)) : Prop :=
  Throughout (keyHeight ctx.sha256) (nodeCid ctx) (Holds S) L xs

theorem HoldsAll.grow {T : BlockStore ctx.sha256} (h : HoldsAll S L xs) (hST : S ≤ T) :
  HoldsAll T L xs
  := h.mono fun _ hes => hes.mono hST

theorem nodeCid_inj (hctx : ctx.Sound) {es es' : List NodeEntry} (hes : Holds S es)
    (hes' : Holds S es') (hshort : ShortKeys es) (hshort' : ShortKeys es')
    (h : nodeCid ctx es = nodeCid ctx es') :
  es = es'
  := by
  obtain ⟨node, bytes, hnode, hbytes, hget⟩ := hes
  obtain ⟨node', bytes', hnode', hbytes', hget'⟩ := hes'
  rw [h, hget'] at hget
  cases hget
  obtain rfl := hctx.codec.inj node node' bytes hbytes hbytes'
  have hround := fromNode_of_toNode hnode hshort
  rw [fromNode_of_toNode hnode' hshort'] at hround
  cases hround
  rfl

/-- The CID of a canonical node in a store determines its layer and its list. -/
theorem canonicalCid_inj (hctx : ctx.Sound) (hU : Short U) {M : Nat} (hxs : ∀ x ∈ xs, U x)
    (hys : ∀ y ∈ ys, U y) (hlow : Low (keyHeight ctx.sha256) (L + 1) xs)
    (hlow' : Low (keyHeight ctx.sha256) (M + 1) ys) (hne : xs ≠ []) (hne' : ys ≠ [])
    (hall : HoldsAll S L xs) (hall' : HoldsAll S M ys)
    (h : canonicalCid ctx L xs = canonicalCid ctx M ys) :
  L = M ∧ xs = ys
  := by
  have hknown : ∀ {L : Nat} {xs : List (Key × Cid)}, (∀ x ∈ xs, U x) → HoldsAll S L xs →
      Throughout (keyHeight ctx.sha256) (nodeCid ctx)
        (fun es => Holds S es ∧ ShortKeys es) L xs := by
    intro L xs hxs hall l hl seg hseg
    use hall l hl seg hseg
    intro key value hmem
    exact hU (key, value) (hxs _ (hseg.mem (mem_of_leaf_mem_entries hmem).1))
  apply address_inj _ L M xs ys hlow hlow' hne hne' (hknown hxs hall) (hknown hys hall') h
  rintro es es' ⟨hes, hshort⟩ ⟨hes', hshort'⟩
  exact nodeCid_inj hctx hes hes' hshort hshort'

/-- Different nodes of a tree have different CIDs. -/
theorem canonicalCid_inj_of_isNode (hctx : ctx.Sound) (hU : Short U) (hxs : Within U xs) {l l' : Nat}
    {seg seg' : List (Key × Cid)} (hall : HoldsAll S L xs) (hl : l ≤ L) (hl' : l' ≤ L)
    (hseg : IsNode (keyHeight ctx.sha256) l seg xs) (hseg' : IsNode (keyHeight ctx.sha256) l' seg' xs)
    (h : canonicalCid ctx l seg = canonicalCid ctx l' seg') :
  l = l' ∧ seg = seg'
  := by
  apply canonicalCid_inj hctx hU _ _ hseg.low hseg'.low hseg.1 hseg'.1 (hall.node hseg hl)
    (hall.node hseg' hl') h
  · exact fun x hx => hxs.mem x (hseg.mem hx)
  · exact fun x hx => hxs.mem x (hseg'.mem hx)

/-- A tree that has the nodes around every key has all nodes. -/
theorem Mst.Represents.holdsAll {mst : Mst ctx} (h : mst.Represents U (fun _ => True) xs) :
  HoldsAll mst.storage (topLayer ctx xs) xs
  := by
  rintro l hl seg ⟨hne, lo, hi, heq, hgap⟩
  obtain ⟨x, rest, rfl⟩ := List.exists_cons_of_ne_nil hne
  have hs : Sorted (lo ++ x :: rest ++ hi) := heq ▸ h.within.sorted
  apply (h.holds x.1 trivial).before l lo (x :: rest) hi hl heq _ hne
  refine ⟨hgap, ?_, ?_⟩
  · exact fun y hy => hs.left.lt hy List.mem_cons_self
  · exact fun y hy => (hs.lt (List.mem_append_right lo List.mem_cons_self) hy).not_gt

/-! ### The walk over the interleaved sequence -/

section Walk

variable (walk : Cid → WalkState → StoreM ctx WalkState)

/-- Walk over a child list: collect the leaves and walk into the subtrees. -/
def walkEntries : List NodeEntry → WalkState → StoreM ctx WalkState
  | [], state => pure state
  | .leaf key value :: rest, state => walkEntries rest (state.1 ++ [(key, value)], state.2)
  | .tree child :: rest, state => do
    let state ← walk child state
    walkEntries rest state

theorem collectNode_eq {previous : Key} {children : List NodeEntry} {entries : List TreeEntry}
    (h : toEntries previous children = .ok entries) (hprevious : previous.bytes.length < 2 ^ 32)
    (hshort : ShortKeys children) (state : WalkState) :
  collectNode ctx walk previous entries state = walkEntries walk children state
  := by
  induction previous, children using toEntries.induct generalizing entries state with
  | case1 previous =>
    cases h
    rfl
  | case2 previous key value cid rest ih =>
    rw [toEntries, Logic.bind_eq_ok] at h
    obtain ⟨more, hmore, heq⟩ := h
    cases heq
    have hkey := hshort key value List.mem_cons_self
    funext S
    rw [collectNode, reconstructKey_withPrefix hprevious key value (some cid)]
    have hrest := fun state => ih hmore hkey hshort.tail.tail state
    have hcollect : collectNode ctx walk key more = walkEntries walk rest := funext hrest
    simp only [walkEntries, walkChild, Action.bind_apply, Action.ofExcept, hcollect]
    rfl
  | case3 previous key value rest hrest ih =>
    rw [toEntries] at h
    · rw [Logic.bind_eq_ok] at h
      obtain ⟨more, hmore, heq⟩ := h
      cases heq
      have hkey := hshort key value List.mem_cons_self
      funext S
      have hfirst : (TreeEntry.withPrefix previous key value).reconstructKey previous = .ok key :=
        reconstructKey_withPrefix hprevious key value none
      have hrest := fun state => ih hmore hkey hshort.tail state
      have hcollect : collectNode ctx walk key more = walkEntries walk rest := funext hrest
      rw [collectNode, hfirst]
      simp only [walkEntries, Action.bind_apply, Action.ofExcept, hcollect]
      rfl
    · exact hrest
  | case4 previous cid rest => cases h

theorem collectNode_toNode {children : List NodeEntry} {node : MstNode}
    (h : toNode children = .ok node) (hshort : ShortKeys children) (state : WalkState) :
  (do
    let state ← walkChild ctx walk node.left state
    collectNode ctx walk Text.empty node.entries state) = walkEntries walk children state
  := by
  have hempty : Text.empty.bytes.length < 2 ^ 32 := by decide
  cases children with
  | nil =>
    cases h
    rfl
  | cons entry rest =>
    cases entry with
    | tree cid =>
      rw [toNode, Logic.bind_eq_ok] at h
      obtain ⟨entries, hentries, heq⟩ := h
      cases heq
      have hcollect : collectNode ctx walk Text.empty entries = walkEntries walk rest :=
        funext fun state => collectNode_eq walk hentries hempty hshort.tail state
      rw [walkEntries, ← hcollect]
      rfl
    | leaf key value =>
      rw [toNode, Logic.bind_eq_ok] at h
      · obtain ⟨entries, hentries, heq⟩ := h
        cases heq
        exact collectNode_eq walk hentries hempty hshort state
      · intro cid rest' heq
        cases heq

end Walk

/-! ### What the walk collects -/

/-- No node seen so far is a node below layer `L` of the list. -/
def Unseen (ctx : Context) (visited : List Cid) (L : Nat) (xs : List (Key × Cid)) : Prop :=
  ∀ cid ∈ visited, ∀ l < L, ∀ seg, IsNode (keyHeight ctx.sha256) l seg xs →
    cid ≠ canonicalCid ctx l seg

/-- The nodes seen since are nodes below layer `L` of the list. -/
def SeenSince (ctx : Context) (visited visited' : List Cid) (L : Nat)
    (xs : List (Key × Cid)) : Prop :=
  ∀ cid ∈ visited', cid ∈ visited ∨
    ∃ l < L, ∃ seg, IsNode (keyHeight ctx.sha256) l seg xs ∧ cid = canonicalCid ctx l seg

/-- The walk collects the pairs of the list and sees only its nodes. -/
def Collects (ctx : Context) (state state' : WalkState) (L : Nat) (xs : List (Key × Cid)) : Prop :=
  state'.1 = state.1 ++ xs ∧ SeenSince ctx state.2 state'.2 L xs

/-- The walk into a canonical node collects its list. -/
def WalksInto (walk : Cid → WalkState → StoreM ctx WalkState) (U : Key × Cid → Prop) (L : Nat)
    (excuse : Prop) : Prop :=
  ∀ (xs : List (Key × Cid)) (S : BlockStore ctx.sha256) (state : WalkState),
    Within U xs → Low (keyHeight ctx.sha256) (L + 1) xs → xs ≠ [] → HoldsAll S L xs →
    Unseen ctx state.2 (L + 1) xs →
    Action.Meets (walk (canonicalCid ctx L xs) state) S
      (fun state' _ => Collects ctx state state' (L + 1) xs) excuse

/-- The walk over the child of a first gap. -/
theorem walk_gap {walk : Cid → WalkState → StoreM ctx WalkState} {excuse : Prop}
    (hwalk : ∀ M, L = M + 1 → WalksInto walk U M excuse) {gap hi : List (Key × Cid)}
    {rest : List NodeEntry} {state : WalkState} {post : WalkState → BlockStore ctx.sha256 → Prop}
    (hxs : Within U (gap ++ hi)) (hgap : Gap (keyHeight ctx.sha256) L [] gap hi)
    (hall : ∀ M, L = M + 1 → HoldsAll S M (gap ++ hi)) (hunseen : Unseen ctx state.2 L (gap ++ hi))
    (hrest : ∀ state' T, S ≤ T → Collects ctx state state' L gap →
      Action.Meets (walkEntries walk rest state') T post excuse) :
  Action.Meets
    (walkEntries walk (gapEntries (keyHeight ctx.sha256) (nodeCid ctx) L gap ++ rest) state) S
    post excuse
  := by
  obtain rfl | hne := eq_or_ne gap []
  · rw [gapEntries_nil]
    apply hrest state S (le_refl S)
    use (List.append_nil _).symm
    exact fun cid hcid => Or.inl hcid
  · cases L with
    | zero => exact absurd hgap.low_zero hne
    | succ M =>
      rw [gapEntries_succ hne]
      have hinner : HoldsAll S M gap := fun l hl seg hseg =>
        hall M rfl l hl seg (hseg.of_gap hgap (Nat.lt_succ_of_le hl))
      have hunseen' : Unseen ctx state.2 (M + 1) gap := fun cid hcid l hl seg hseg =>
        hunseen cid hcid l hl seg (hseg.of_gap hgap hl)
      apply (hwalk M rfl gap S state hxs.left hgap.low hne hinner hunseen').bind
      exact fun state' T hST hcollects => hrest state' T hST hcollects

/-- The walk over the child list of a canonical node, given how it walks into the gaps. -/
theorem walkEntries_spec (hctx : ctx.Sound) (hU : Short U)
    {walk : Cid → WalkState → StoreM ctx WalkState} {excuse : Prop}
    (hwalk : ∀ M, L = M + 1 → WalksInto walk U M excuse) :
  ∀ (n : Nat) (xs : List (Key × Cid)) (S : BlockStore ctx.sha256) (state : WalkState),
    xs.length < n → Within U xs → (∀ M, L = M + 1 → HoldsAll S M xs) → Unseen ctx state.2 L xs →
    Action.Meets (walkEntries walk (canonicalEntries ctx L xs) state) S
      (fun state' _ => Collects ctx state state' L xs) excuse
  := by
  intro n
  induction n with
  | zero => nofun
  | succ n ih =>
    intro xs S state hn hxs hall hunseen
    obtain ⟨gap, hi, rfl, hgap⟩ := exists_first_gap (keyHeight ctx.sha256) L xs
    have hentries := @entries_gap _ _ _ _ (nodeCid ctx) _ _ _ _ hgap
    rw [entries_nil, List.nil_append, List.nil_append] at hentries
    rw [canonicalEntries, hentries]
    apply walk_gap hwalk hxs hgap hall hunseen
    rintro state' T hST ⟨hresults, hseen⟩
    obtain rfl | ⟨x, rest, rfl, hx⟩ := hgap.after
    · rw [entries_nil]
      apply Action.Meets.pure
      rw [List.append_nil]
      exact ⟨hresults, hseen⟩
    · rw [entries_cons hx]
      have hrest : Unseen ctx state'.2 L rest := by
        intro cid hcid l hl seg hseg
        obtain hold | ⟨l', hl', seg', hseg', rfl⟩ := hseen cid hcid
        · exact hunseen cid hold l hl seg (hseg.of_tail hx hl)
        · -- A node of the gap shares no key with a node after it.
          intro heq
          cases L with
          | zero => cases hl
          | succ M =>
            have hnode := @IsNode.of_tail _ _ _ _ _ _ gap _ x hseg hx hl
            obtain ⟨-, rfl⟩ := canonicalCid_inj_of_isNode hctx hU hxs (hall M rfl)
              (Nat.lt_succ_iff.mp hl') (Nat.lt_succ_iff.mp hl) (hseg'.of_gap hgap hl') hnode heq
            obtain ⟨y, more, rfl⟩ := List.exists_cons_of_ne_nil hseg.1
            have hbefore := hseg'.mem List.mem_cons_self
            have hafter := List.mem_cons_of_mem x (hseg.mem List.mem_cons_self)
            exact absurd (hxs.sorted.lt hbefore hafter) (lt_irrefl _)
      have hall' : ∀ M, L = M + 1 → HoldsAll T M rest := by
        rintro M rfl l hl seg hseg
        exact (hall M rfl l hl seg (hseg.of_tail hx (Nat.lt_succ_of_le hl))).mono hST
      have hlength : rest.length < n := by
        simp only [List.length_append, List.length_cons] at hn
        omega
      have hrec := ih rest T (state'.1 ++ [x], state'.2) hlength
        ⟨hxs.sorted.right.tail, fun y hy => hxs.mem y (by simp [hy])⟩ hall' hrest
      apply hrec.mono _ id
      rintro state'' _ _ ⟨hresults', hseen'⟩
      constructor
      · rw [hresults', hresults]
        simp
      · intro cid hcid
        obtain hold | ⟨l, hl, seg, hseg, heq⟩ := hseen' cid hcid
        · obtain hold | ⟨l, hl, seg, hseg, heq⟩ := hseen cid hold
          · exact Or.inl hold
          · exact Or.inr ⟨l, hl, seg, hseg.of_gap hgap hl, heq⟩
        · exact Or.inr ⟨l, hl, seg, hseg.of_tail hx hl, heq⟩

/-- The walk from a canonical node collects its list. -/
theorem collectEntries_spec (hctx : ctx.Sound) (hU : Short U) :
  ∀ depth L, WalksInto (collectEntries ctx depth) U L (depth ≤ L ∨ ¬ AllFit ctx L U)
  := by
  intro depth
  induction depth with
  | zero =>
    intro L xs S state _ _ _ _ _
    exact Action.Meets.throw (Or.inl (Nat.zero_le L))
  | succ depth ih =>
    intro L xs S state hxs hlow hne hall hunseen
    have hself : IsNode (keyHeight ctx.sha256) L xs xs := IsNode.whole hlow hne
    have hnew : canonicalCid ctx L xs ∉ state.2 := fun hmem =>
      hunseen _ hmem L (Nat.lt_succ_self L) xs hself rfl
    rw [collectEntries, if_neg hnew]
    apply ((loadCanonical_spec hctx hxs (hall.self hlow hne)).mono (fun _ _ _ h => h) Or.inr).bind
    intro node T hST hnode
    rw [collectNode_toNode _ hnode (shortKeys_canonicalEntries hU L hxs)]
    have hwalk : ∀ M, L = M + 1 →
        WalksInto (collectEntries ctx depth) U M (depth + 1 ≤ L ∨ ¬ AllFit ctx L U) := by
      rintro M rfl ys S' state' hys hlow' hne' hall' hunseen'
      apply (ih M ys S' state' hys hlow' hne' hall' hunseen').mono (fun _ _ _ h => h)
      exact tooDeep_succ
    have hunseen' : Unseen ctx (canonicalCid ctx L xs :: state.2) L xs := by
      intro cid hcid l hl seg hseg
      obtain rfl | hold := List.mem_cons.mp hcid
      · intro heq
        obtain ⟨rfl, -⟩ := canonicalCid_inj_of_isNode hctx hU hxs hall (le_refl L) hl.le hself hseg heq
        exact absurd hl (Nat.lt_irrefl L)
      · exact hunseen cid hold l (hl.trans (Nat.lt_succ_self L)) seg hseg
    have hspec := walkEntries_spec hctx hU hwalk (xs.length + 1) xs T
      (state.1, canonicalCid ctx L xs :: state.2) (Nat.lt_succ_self _) hxs
      (fun M hM => (hall.grow hST).of_le (by omega)) hunseen'
    apply hspec.mono _ id
    rintro state' _ _ ⟨hresults, hseen⟩
    use hresults
    intro cid hcid
    obtain hold | ⟨l, hl, seg, hseg, heq⟩ := hseen cid hcid
    · obtain rfl | hold := List.mem_cons.mp hold
      · exact Or.inr ⟨L, Nat.lt_succ_self L, xs, hself, rfl⟩
      · exact Or.inl hold
    · exact Or.inr ⟨l, hl.trans (Nat.lt_succ_self L), seg, hseg, heq⟩

/-- What the entries of a tree are. -/
theorem Mst.Represents.entries_spec {mst : Mst ctx} (h : mst.Represents U (fun _ => True) xs)
    (hctx : ctx.Sound) (hU : Short U) :
  match mst.entries with
  | .ok entries => entries = xs
  | .error _ => ctx.maxDepth < topLayer ctx xs ∨ ¬ AllFit ctx (topLayer ctx xs) U
  := by
  obtain rfl | hne := eq_or_ne xs []
  · rw [Mst.entries, h.root]
    exact rfl
  · have hspec := collectEntries_spec hctx hU (allowedLevels ctx) (topLayer ctx xs) xs mst.storage
      ([], []) h.within (low_top _ xs) hne h.holdsAll nofun
    rw [Mst.entries, h.root, rootCid?, canonicalCid?_of_ne_nil hne]
    obtain ⟨-, hmatch⟩ := hspec
    simp only
    cases hwalk : (collectEntries ctx (allowedLevels ctx) (canonicalCid ctx (topLayer ctx xs) xs)
        ([], []) mst.storage).1 with
    | ok state =>
      rw [hwalk] at hmatch
      exact hmatch.1
    | error e =>
      rw [hwalk] at hmatch
      exact hmatch

/-- What looking up a key returns. -/
theorem Mst.Represents.get_spec {P : Key → Prop} {mst : Mst ctx} (h : mst.Represents U P xs)
    (hctx : ctx.Sound) (hU : Short U) {key : Key} (hP : P key) :
  match mst.get key with
  | .ok found => found = lookup key xs
  | .error _ => ctx.maxDepth < topLayer ctx xs ∨ ¬ AllFit ctx (topLayer ctx xs) U
  := by
  obtain rfl | hne := eq_or_ne xs []
  · rw [Mst.get, h.root]
    exact rfl
  · have hspec := getAt_spec hctx hU key (allowedLevels ctx) (topLayer ctx xs) xs mst.storage
      h.within (low_top _ xs) hne (h.holds key hP).before
    rw [Mst.get, h.root, rootCid?, canonicalCid?_of_ne_nil hne]
    obtain ⟨-, hmatch⟩ := hspec
    simp only
    cases hget : (getAt ctx (allowedLevels ctx) (canonicalCid ctx (topLayer ctx xs) xs) key
        mst.storage).1 with
    | ok found =>
      rw [hget] at hmatch
      exact hmatch
    | error e =>
      rw [hget] at hmatch
      exact hmatch

end Atproto.Repo
