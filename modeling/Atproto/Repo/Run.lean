import Atproto.Repo.Delete

/-!
# Runs of operations

A tree represents a sorted list when its root is the canonical root of the list and its
storage has the nodes around the keys of interest.  Insertion and deletion keep this, so
after any run the root is a function of the final map.
-/

namespace Atproto.Repo

open Atproto.Dasl SearchTree Logic

variable {ctx : Context} {U : Key × Cid → Prop} {P : Key → Prop} {S : BlockStore ctx.sha256}
  {L : Nat} {key : Key} {value : Cid} {xs ys : List (Key × Cid)}

/-- The layer of the root of a list. -/
abbrev topLayer (ctx : Context) (xs : List (Key × Cid)) : Nat := top (keyHeight ctx.sha256) xs

/-- The root of the canonical tree of a list. -/
def rootCid? (ctx : Context) (xs : List (Key × Cid)) : Option Cid :=
  canonicalCid? ctx (topLayer ctx xs) xs

theorem topLayer_insert (key : Key) (value : Cid) (hs : Sorted xs) :
  topLayer ctx (SearchTree.insert key value xs) = max (topLayer ctx xs) (keyHeight ctx.sha256 key)
  := by
  apply top_eq
  · apply low_insert _ (le_max_right _ _)
    exact (low_top _ xs).mono (Nat.succ_le_succ (le_max_left _ _))
  · have hkey : (key, value) ∈ SearchTree.insert key value xs :=
      mem_of_lookup (by rw [lookup_insert, if_pos rfl])
    obtain hle | hlt := Nat.lt_or_ge (keyHeight ctx.sha256 key) (topLayer ctx xs)
    · obtain rfl | hne := eq_or_ne xs []
      · exact absurd hle (Nat.not_lt_zero _)
      · obtain ⟨x, hx, heq⟩ := @exists_height_eq_top _ _ (keyHeight ctx.sha256) _ hne
        rw [max_eq_left hle.le]
        refine ⟨x, ?_, heq⟩
        apply mem_of_lookup
        rw [lookup_insert, if_neg]
        · exact hs.lookup_of_mem hx
        · rintro rfl
          exact absurd heq hle.ne
    · exact ⟨(key, value), hkey, (max_eq_right hlt).symm⟩

/-- After a change around one key the store has the nodes around the others as well. -/
theorem HoldsKey.frame {T : BlockStore ctx.sha256} {k : Key} {L' : Nat} (h : HoldsKey S k L xs)
    (hST : S ≤ T) (hs : Sorted xs) (hs' : Sorted ys) (hlow : Low (keyHeight ctx.sha256) (L + 1) xs)
    (hagree : AgreeOff key xs ys) (hkey : HoldsKey T key L' ys) :
  HoldsKey T k L' ys
  := by
  constructor
  · apply (HoldsAround.grow h.before hST).frame _ hs hs' hlow hagree hkey.before hkey.after
    exact fun a b hab hb => hab.trans hb
  · apply (HoldsAround.grow h.after hST).frame _ hs hs' hlow hagree hkey.before hkey.after
    exact fun a b hab hb => hab.le.trans hb

/-- The tree stands for a list: its root is canonical, and its storage has the nodes
around the keys with `P`. -/
structure Mst.Represents (U : Key × Cid → Prop) (P : Key → Prop) (mst : Mst ctx)
    (xs : List (Key × Cid)) : Prop where
  within : Within U xs
  root : mst.root = rootCid? ctx xs
  holds : ∀ k, P k → HoldsKey mst.storage k (topLayer ctx xs) xs

theorem Mst.represents_new (U : Key × Cid → Prop) (P : Key → Prop) (S : BlockStore ctx.sha256) :
  (Mst.new S).Represents U P []
  := by
  refine ⟨Within.nil, rfl, ?_⟩
  exact fun k _ => ⟨Around.nil _, Around.nil _⟩

theorem Mst.Represents.mono {U' : Key × Cid → Prop} {mst : Mst ctx} (h : mst.Represents U P xs)
    (hU : ∀ x, U x → U' x) :
  mst.Represents U' P xs
  := ⟨⟨h.within.sorted, fun x hx => hU x (h.within.mem x hx)⟩, h.root, h.holds⟩

namespace Mst

theorem insertRoot_spec (hctx : ctx.Sound) (hU : Short U) (hkey : U (key, value))
    (hxs : Within U xs) (h : HoldsKey S key (topLayer ctx xs) xs) :
  Action.Meets (insertRoot (rootCid? ctx xs) key value) S
    (fun cid T => some cid = rootCid? ctx (SearchTree.insert key value xs) ∧
      HoldsKey T key (topLayer ctx (SearchTree.insert key value xs))
        (SearchTree.insert key value xs))
    (ctx.maxDepth < topLayer ctx (SearchTree.insert key value xs) ∨
      ¬ AllFit ctx (topLayer ctx (SearchTree.insert key value xs)) U)
  := by
  rw [rootCid?, rootCid?, topLayer_insert key value hxs.sorted,
    canonicalCid?_of_ne_nil (insert_ne_nil key value xs)]
  obtain rfl | hne := eq_or_ne xs []
  · have hleaf := @storeEntries_spec ctx U _ S hctx _ _ (Within.singleton hkey)
      (canonicalEntries_singleton key value).symm
    have hlayer : max (topLayer ctx []) (keyHeight ctx.sha256 key) = keyHeight ctx.sha256 key :=
      max_eq_right (Nat.zero_le _)
    rw [hlayer]
    apply hleaf.mono _ Or.inr
    rintro _ T _ ⟨rfl, hT⟩
    exact ⟨rfl, HoldsKey.singleton hT⟩
  · rw [canonicalCid?_of_ne_nil hne]
    have hlow := low_top (keyHeight ctx.sha256) xs
    have hlayer := layerOf_spec hctx hU (allowedLevels ctx) hxs hlow (exists_height_eq_top hne)
      (h.before.self hlow hne)
    apply (hlayer.mono (fun _ _ _ h => h) _).bind
    · rintro _ T hST rfl
      have hinsert := insertAt_spec hctx hU hkey (allowedLevels ctx) (topLayer ctx xs) xs T hxs hlow
        hne (h.grow hST)
      apply hinsert.mono _ id
      rintro _ T' _ ⟨rfl, hT'⟩
      exact ⟨rfl, hT'⟩
    · rintro (hzero | hfit)
      · exact absurd hzero (Nat.succ_ne_zero _)
      · exact Or.inr (not_allFit_mono (le_max_left _ _) hfit)

theorem deleteRoot_spec (hctx : ctx.Sound) (hU : Short U) (hxs : Within U xs)
    (h : HoldsKey S key (topLayer ctx xs) xs) :
  Action.Meets (deleteRoot (rootCid? ctx xs) key) S
    (fun cid T => cid = rootCid? ctx (SearchTree.erase key xs) ∧
      HoldsKey T key (topLayer ctx (SearchTree.erase key xs)) (SearchTree.erase key xs))
    (ctx.maxDepth < topLayer ctx xs ∨ ¬ AllFit ctx (topLayer ctx xs) U)
  := by
  obtain rfl | hne := eq_or_ne xs []
  · exact Action.Meets.pure ⟨rfl, h⟩
  · rw [rootCid?, canonicalCid?_of_ne_nil hne]
    have hlow := low_top (keyHeight ctx.sha256) xs
    apply (deleteAt_spec hctx hU key (allowedLevels ctx) (topLayer ctx xs) xs S hxs hlow hne h).bind
    rintro _ T _ ⟨rfl, hT⟩
    obtain hnil | hne' := eq_or_ne (SearchTree.erase key xs) []
    · rw [hnil] at hT ⊢
      exact Action.Meets.pure ⟨rfl, Around.nil _, Around.nil _⟩
    · rw [canonicalCid?_of_ne_nil hne']
      have htrim := trimTop_spec hctx hU (hxs.erase key) hne' (allowedLevels ctx)
        (topLayer ctx xs) (low_erase hlow key) hT.before
      apply htrim.bind
      rintro _ T' hTT' ⟨M, hM, rfl, hlowM, hkeyM⟩
      apply Action.Meets.pure
      rw [rootCid?, topLayer, top_eq hlowM hkeyM, canonicalCid?_of_ne_nil hne']
      have hT' := hT.grow hTT'
      exact ⟨rfl, hT'.before.of_le hM, hT'.after.of_le hM⟩

end Mst

/-! ### Operations and runs -/

/-- A call that changes the tree. -/
inductive Operation where
  | insert (key : Key) (value : Cid)
  | delete (key : Key)
deriving DecidableEq

namespace Operation

/-- The key of an operation. -/
def target : Operation → Key
  | .insert key _ => key
  | .delete key => key

/-- The value that an operation leaves at its key. -/
def value? : Operation → Option Cid
  | .insert _ value => some value
  | .delete _ => none

/-- The effect of an operation on a map. -/
def update (op : Operation) (map : Key → Option Cid) : Key → Option Cid :=
  Function.update map op.target op.value?

/-- The effect of an operation on a sorted list. -/
def edit : Operation → List (Key × Cid) → List (Key × Cid)
  | .insert key value, xs => SearchTree.insert key value xs
  | .delete key, xs => SearchTree.erase key xs

/-- An inserted key has a collection and a record key. -/
def Valid : Operation → Prop
  | .insert key _ => validateKey key = .ok ()
  | .delete _ => True

/-- What an operation inserts is among `U`. -/
def Inserts (U : Key × Cid → Prop) : Operation → Prop
  | .insert key value => U (key, value)
  | .delete _ => True

theorem lookup_edit (op : Operation) (xs : List (Key × Cid)) (k : Key) :
  lookup k (op.edit xs) = op.update (fun k => lookup k xs) k
  := by
  cases op with
  | insert key value =>
    simp only [edit, lookup_insert, update, target, value?, Function.update_apply]
  | delete key =>
    simp only [edit, lookup_erase, update, target, value?, Function.update_apply]

theorem agreeOff_edit (op : Operation) (xs : List (Key × Cid)) :
  AgreeOff op.target xs (op.edit xs)
  := by
  cases op with
  | insert key value => exact agreeOff_insert key value xs
  | delete key => exact agreeOff_erase key xs

end Operation

/-- The map after a sequence of operations on the empty map. -/
def mapAfter (ops : List Operation) : Key → Option Cid :=
  ops.foldl (fun map op => op.update map) fun _ => none

/-- Run an operation on the tree. -/
def Mst.apply (mst : Mst ctx) : Operation → Except MstError (Mst ctx)
  | .insert key value =>
    match mst.insert key value with
    | (.ok _, mst) => .ok mst
    | (.error e, _) => .error e
  | .delete key =>
    match mst.delete key with
    | (.ok _, mst) => .ok mst
    | (.error e, _) => .error e

/-- Run a sequence of operations, each of which has to succeed. -/
def Mst.run (mst : Mst ctx) : List Operation → Except MstError (Mst ctx)
  | [] => .ok mst
  | op :: ops => do
    let mst ← mst.apply op
    mst.run ops

/-! ### What an operation and a run leave behind -/

section Runs

variable {mst mst' : Mst ctx} {op : Operation} {ops : List Operation}

theorem Mst.Represents.apply_ok (h : mst.Represents U P xs) (hctx : ctx.Sound) (hU : Short U)
    (hop : op.Inserts U) (hP : P op.target) (hrun : mst.apply op = .ok mst') :
  mst'.Represents U P (op.edit xs) ∧ mst.storage ≤ mst'.storage
  := by
  have hkey := h.holds op.target hP
  have hagree := op.agreeOff_edit xs
  have hlow := low_top (keyHeight ctx.sha256) xs
  cases op with
  | insert key value =>
    have hspec := insertRoot_spec hctx hU hop h.within hkey
    rw [← h.root] at hspec
    simp only [Mst.apply, Mst.insert] at hrun
    split at hrun
    · next hinsert =>
      split at hinsert
      · cases hinsert
      · split at hinsert
        · next hstore =>
          cases hinsert
          cases hrun
          obtain ⟨hle, hroot, hkey'⟩ := hspec.of_ok hstore
          have hwithin := h.within.insert hop
          refine ⟨⟨hwithin, hroot, ?_⟩, hle⟩
          exact fun k hk => (h.holds k hk).frame hle h.within.sorted hwithin.sorted hlow hagree hkey'
        · cases hinsert
    · cases hrun
  | delete key =>
    have hspec := deleteRoot_spec hctx hU h.within hkey
    rw [← h.root] at hspec
    simp only [Mst.apply, Mst.delete] at hrun
    split at hrun
    · next hdelete =>
      split at hdelete
      · next hstore =>
        cases hdelete
        cases hrun
        obtain ⟨hle, hroot, hkey'⟩ := hspec.of_ok hstore
        have hwithin := h.within.erase key
        refine ⟨⟨hwithin, hroot, ?_⟩, hle⟩
        exact fun k hk => (h.holds k hk).frame hle h.within.sorted hwithin.sorted hlow hagree hkey'
      · cases hdelete
    · cases hrun

/-- An operation succeeds unless it goes too deep or a node does not fit the codec. -/
theorem Mst.Represents.exists_apply (h : mst.Represents U P xs) (hctx : ctx.Sound) (hU : Short U)
    (hop : op.Inserts U) (hP : P op.target) (hvalid : op.Valid)
    (hdepth : topLayer ctx xs ≤ ctx.maxDepth) (hdepth' : topLayer ctx (op.edit xs) ≤ ctx.maxDepth)
    (hfit : AllFit ctx ctx.maxDepth U) :
  ∃ mst', mst.apply op = .ok mst'
  := by
  have hkey := h.holds op.target hP
  cases op with
  | insert key value =>
    have hspec := insertRoot_spec hctx hU hop h.within hkey
    rw [← h.root] at hspec
    have hexcuse : ¬ (ctx.maxDepth < topLayer ctx (SearchTree.insert key value xs) ∨
        ¬ AllFit ctx (topLayer ctx (SearchTree.insert key value xs)) U) := by
      rintro (hlt | hnot)
      · exact absurd hdepth' (Nat.not_le.mpr hlt)
      · exact hnot (hfit.anti hdepth')
    obtain ⟨root, T, hstore, -⟩ := hspec.exists_ok hexcuse
    use { storage := T, root := some root }
    have hvalid' : validateKey key = .ok () := hvalid
    simp only [Mst.apply, Mst.insert, hvalid', hstore]
  | delete key =>
    have hspec := @deleteRoot_spec ctx U mst.storage key xs hctx hU h.within hkey
    rw [← h.root] at hspec
    have hexcuse : ¬ (ctx.maxDepth < topLayer ctx xs ∨ ¬ AllFit ctx (topLayer ctx xs) U) := by
      rintro (hlt | hnot)
      · exact absurd hdepth (Nat.not_le.mpr hlt)
      · exact hnot (hfit.anti hdepth)
    obtain ⟨root, T, hstore, -⟩ := hspec.exists_ok hexcuse
    use { storage := T, root := root }
    simp only [Mst.apply, Mst.delete, hstore]

/-- The sorted list after a sequence of operations. -/
def editAll (ops : List Operation) (xs : List (Key × Cid)) : List (Key × Cid) :=
  ops.foldl (fun xs op => op.edit xs) xs

theorem Mst.Represents.run_ok (h : mst.Represents U P xs) (hctx : ctx.Sound) (hU : Short U)
    (hops : ∀ op ∈ ops, op.Inserts U ∧ P op.target) (hrun : mst.run ops = .ok mst') :
  mst'.Represents U P (editAll ops xs) ∧ mst.storage ≤ mst'.storage
  := by
  induction ops generalizing mst xs with
  | nil =>
    cases hrun
    exact ⟨h, le_refl _⟩
  | cons op ops ih =>
    obtain ⟨next, happly, hrest⟩ := bind_eq_ok.mp hrun
    obtain ⟨hop, hP⟩ := hops op List.mem_cons_self
    obtain ⟨hnext, hle⟩ := h.apply_ok hctx hU hop hP happly
    obtain ⟨hlast, hle'⟩ := ih hnext (fun op hmem => hops op (List.mem_cons_of_mem _ hmem)) hrest
    exact ⟨hlast, hle.trans hle'⟩

theorem lookup_editAll (ops : List Operation) (xs : List (Key × Cid)) (k : Key) :
  lookup k (editAll ops xs) = ops.foldl (fun map op => op.update map) (fun k => lookup k xs) k
  := by
  induction ops generalizing xs with
  | nil => rfl
  | cons op ops ih =>
    rw [editAll, List.foldl_cons, List.foldl_cons]
    have hedit : (fun k => lookup k (op.edit xs)) = op.update fun k => lookup k xs :=
      funext fun k => op.lookup_edit xs k
    rw [← hedit]
    exact ih (op.edit xs)

theorem lookup_editAll_nil (ops : List Operation) (k : Key) :
  lookup k (editAll ops []) = mapAfter ops k
  := lookup_editAll ops [] k

end Runs

end Atproto.Repo
