import Atproto.Repo.Entries

/-!
# The emptied tree

A commit always names a root, so a tree that has lost all its keys is stored as an empty node.
The operations take such a root for the empty list.
-/

namespace Atproto.Repo

open Atproto.Dasl SearchTree Logic

variable {ctx : Context} {U : Key × Cid → Prop} {S : BlockStore ctx.sha256}
  {key : Key} {value : Cid} {xs : List (Key × Cid)} {mst mst' : Mst ctx}

/-- The root is an empty node. -/
def Mst.Emptied (mst : Mst ctx) : Prop :=
  mst.root = some (nodeCid ctx []) ∧ Holds mst.storage []

/-- The tree stands for a list; its root is the canonical one, or an empty node for the empty
list. -/
def Mst.Stands (U : Key × Cid → Prop) (mst : Mst ctx) (xs : List (Key × Cid)) : Prop :=
  mst.Represents U (fun _ => True) xs ∨ xs = [] ∧ mst.Emptied

theorem loadEmpty_spec (hctx : ctx.Sound) (hS : Holds S []) :
  Action.Meets (loadEntries ctx (nodeCid ctx [])) S (fun children _ => children = []) True
  := by
  have hshort : Short fun x : Key × Cid => x.1.bytes.length < 2 ^ 32 := fun _ hx => hx
  have hentries : canonicalEntries ctx 0 [] = [] := entries_nil 0
  have hspec := @loadEntries_spec ctx _ [] S hctx hshort 0 Within.nil (by
    rw [hentries]
    exact hS)
  have hcid : canonicalCid ctx 0 [] = nodeCid ctx [] := by
    rw [canonicalCid, address]
    exact congrArg (nodeCid ctx) hentries
  rw [hcid, hentries] at hspec
  exact hspec.mono (fun _ _ _ h => h) fun _ => trivial

theorem splitAround_empty (hctx : ctx.Sound) (hS : Holds S []) (depth : Nat) (key : Key) :
  Action.Meets (splitAround ctx depth (nodeCid ctx []) key) S
    (fun sides _ => sides = (none, none)) True
  := by
  cases depth with
  | zero => exact Action.Meets.throw trivial
  | succ depth =>
    apply (loadEmpty_spec hctx hS).bind
    rintro _ T _ rfl
    exact Action.Meets.pure rfl

theorem wrapBoth_none (n : Nat) (S : BlockStore ctx.sha256) :
  Action.Meets (wrapBoth ctx n none none) S (fun sides _ => sides = (none, none)) True
  := by
  induction n with
  | zero => exact Action.Meets.pure rfl
  | succ n ih => exact ih

/-- Inserting into an emptied tree makes a first node. -/
theorem insertRoot_emptied (hctx : ctx.Sound) (hkey : U (key, value)) (hS : Holds S []) :
  Action.Meets (Mst.insertRoot (some (nodeCid ctx [])) key value) S
    (fun cid T => some cid = rootCid? ctx (SearchTree.insert key value []) ∧
      HoldsKey T key (topLayer ctx (SearchTree.insert key value []))
        (SearchTree.insert key value []))
    True
  := by
  have hlayer : topLayer ctx (SearchTree.insert key value []) = keyHeight ctx.sha256 key := by
    rw [topLayer_insert key value Sorted.nil]
    exact max_eq_right (Nat.zero_le _)
  rw [rootCid?, hlayer, canonicalCid?_of_ne_nil (insert_ne_nil key value [])]
  have hleaf : ∀ T : BlockStore ctx.sha256, Action.Meets (storeEntries ctx [.leaf key value]) T
      (fun cid T => some cid =
          some (canonicalCid ctx (keyHeight ctx.sha256 key) (SearchTree.insert key value [])) ∧
        HoldsKey T key (keyHeight ctx.sha256 key) (SearchTree.insert key value [])) True := by
    intro T
    have hstore := @storeEntries_spec ctx U _ T hctx _ _ (Within.singleton hkey)
      (canonicalEntries_singleton key value).symm
    apply hstore.mono _ fun _ => trivial
    rintro _ T' _ ⟨rfl, hT'⟩
    exact ⟨rfl, HoldsKey.singleton hT'⟩
  have hlayerOf : Action.Meets (layerOf ctx (allowedLevels ctx) (nodeCid ctx [])) S
      (fun layer _ => layer = 0) True := by
    apply (loadEmpty_spec hctx hS).bind
    rintro _ T _ rfl
    exact Action.Meets.pure rfl
  apply hlayerOf.bind
  rintro _ T hST rfl
  apply (loadEmpty_spec hctx (hS.mono hST)).bind
  rintro _ T' hTT' rfl
  dsimp only
  by_cases hheight : keyHeight ctx.sha256 key = 0
  · rw [if_pos hheight]
    exact hleaf T'
  · rw [if_neg hheight, if_neg (Nat.not_lt_zero _)]
    apply (splitAround_empty hctx (hS.mono (hST.trans hTT')) _ key).bind
    rintro _ T'' _ rfl
    apply (wrapBoth_none _ T'').bind
    rintro _ T''' _ rfl
    exact hleaf T'''

theorem Mst.stands_new (U : Key × Cid → Prop) (S : BlockStore ctx.sha256) :
  (Mst.new S).Stands U []
  := Or.inl (Mst.represents_new U _ S)

theorem Mst.Stands.sorted (h : mst.Stands U xs) :
  Sorted xs
  := by
  obtain hrepr | ⟨rfl, -⟩ := h
  · exact hrepr.within.sorted
  · exact Sorted.nil

/-- The tree stands for the same list over a larger store. -/
theorem Mst.Stands.grow (h : mst.Stands U xs) {T : BlockStore ctx.sha256} (hT : mst.storage ≤ T) :
  Mst.Stands U { mst with storage := T } xs
  := by
  obtain hrepr | ⟨rfl, hroot, hholds⟩ := h
  · exact Or.inl ⟨hrepr.within, hrepr.root, fun k hk => (hrepr.holds k hk).grow hT⟩
  · exact Or.inr ⟨rfl, hroot, hholds.mono hT⟩

/-- What a lookup returns. -/
theorem Mst.Stands.get_ok (h : mst.Stands U xs) (hctx : ctx.Sound) (hU : Short U) {found : Option Cid}
    (hget : mst.get key = .ok found) :
  found = lookup key xs
  := by
  obtain hrepr | ⟨rfl, hroot, hholds⟩ := h
  · have hspec := @Mst.Represents.get_spec _ _ _ _ _ hrepr hctx hU key trivial
    rw [hget] at hspec
    exact hspec
  · have hspec : Action.Meets (getAt ctx (allowedLevels ctx) (nodeCid ctx []) key) mst.storage
        (fun found _ => found = none) True := by
      apply (loadEmpty_spec hctx hholds).bind
      rintro _ T _ rfl
      exact Action.Meets.pure rfl
    rw [Mst.get, hroot] at hget
    obtain ⟨-, hmatch⟩ := hspec
    dsimp only at hget
    rw [hget] at hmatch
    exact hmatch

/-- What listing an emptied tree returns. -/
theorem Mst.Emptied.entries_spec (h : mst.Emptied) (hctx : ctx.Sound) (U : Key × Cid → Prop) :
  match mst.entries with
  | .ok pairs => pairs = []
  | .error _ => ¬ AllFit ctx 0 U
  := by
  obtain ⟨hroot, node, bytes, hnode, hbytes, hget⟩ := h
  cases hnode
  have hspec : Action.Meets (collectEntries ctx (allowedLevels ctx) (nodeCid ctx []) ([], []))
      mst.storage (fun state _ => state.1 = []) (¬ AllFit ctx 0 U) := by
    unfold allowedLevels
    rw [collectEntries, if_neg List.not_mem_nil]
    have hfits : ctx.codec.fromBytes bytes ≠ .ok MstNode.empty → ¬ AllFit ctx 0 U := by
      intro hne hfit
      obtain ⟨node, bytes', hnode, hbytes', hfrom⟩ := hfit 0 (le_refl 0) [] Within.nil
      have hentries : canonicalEntries ctx 0 [] = [] := entries_nil 0
      rw [hentries] at hnode
      cases hnode
      rw [hbytes] at hbytes'
      cases hbytes'
      exact hne hfrom
    apply ((loadNode_spec hctx hbytes hget).mono (fun _ _ _ h => h) hfits).bind
    rintro _ T _ rfl
    exact Action.Meets.pure rfl
  rw [Mst.entries, hroot]
  obtain ⟨-, hmatch⟩ := hspec
  dsimp only
  cases hwalk : (collectEntries ctx (allowedLevels ctx) (nodeCid ctx []) ([], []) mst.storage).1 with
  | ok state =>
    rw [hwalk] at hmatch
    exact hmatch
  | error error =>
    rw [hwalk] at hmatch
    exact hmatch

/-- What the listing returns. -/
theorem Mst.Stands.entries_spec (h : mst.Stands U xs) (hctx : ctx.Sound) (hU : Short U) :
  match mst.entries with
  | .ok pairs => pairs = xs
  | .error _ => ctx.maxDepth < topLayer ctx xs ∨ ¬ AllFit ctx (topLayer ctx xs) U
  := by
  obtain hrepr | ⟨rfl, hemptied⟩ := h
  · exact hrepr.entries_spec hctx hU
  · have hspec := hemptied.entries_spec hctx U
    cases hentries : mst.entries with
    | ok pairs =>
      rw [hentries] at hspec
      exact hspec
    | error error =>
      rw [hentries] at hspec
      exact Or.inr hspec

/-- The tree stands for the list among fewer pairs as well. -/
theorem Mst.Stands.within (h : mst.Stands U xs) {U' : Key × Cid → Prop} (hmem : ∀ x ∈ xs, U' x) :
  mst.Stands U' xs
  := by
  obtain hrepr | hemptied := h
  · exact Or.inl ⟨⟨hrepr.within.sorted, hmem⟩, hrepr.root, hrepr.holds⟩
  · exact Or.inr hemptied

/-- The pairs of the list are among the allowed ones. -/
theorem Mst.Stands.mem (h : mst.Stands U xs) :
  ∀ x ∈ xs, U x
  := by
  obtain hrepr | ⟨rfl, -⟩ := h
  · exact hrepr.within.mem
  · nofun

/-- An insertion that succeeds. -/
theorem Mst.Stands.insert_ok (h : mst.Stands U xs) (hctx : ctx.Sound) (hU : Short U)
    (hkey : U (key, value)) (hrun : mst.apply (.insert key value) = .ok mst') :
  mst'.Stands U (SearchTree.insert key value xs) ∧ mst.storage ≤ mst'.storage
  := by
  obtain hrepr | ⟨rfl, hroot, hholds⟩ := h
  · have hop : (Operation.insert key value).Inserts U := hkey
    obtain ⟨hrepr', hle⟩ := hrepr.apply_ok hctx hU hop trivial hrun
    exact ⟨Or.inl hrepr', hle⟩
  · have hspec := insertRoot_emptied hctx hkey hholds
    rw [← hroot] at hspec
    rw [Mst.apply, Mst.insert] at hrun
    cases hvalid : validateKey key with
    | error reason =>
      rw [hvalid] at hrun
      cases hrun
    | ok _ =>
      rw [hvalid] at hrun
      cases hinsert : Mst.insertRoot mst.root key value mst.storage with
      | mk result storage =>
        cases result with
        | error error =>
          rw [hinsert] at hrun
          cases hrun
        | ok root =>
          rw [hinsert] at hrun
          cases hrun
          obtain ⟨hle, hcid, hholds'⟩ := hspec.of_ok hinsert
          refine ⟨Or.inl ⟨?_, hcid, ?_⟩, hle⟩
          · exact Within.nil.insert hkey
          · intro k _
            apply @HoldsKey.frame ctx mst.storage 0 key [] _ storage k _
              ⟨Around.nil _, Around.nil _⟩ hle Sorted.nil (Sorted.nil.insert key value) (Low.nil _)
              (agreeOff_insert key value []) hholds'

/-- An insertion only adds blocks, also when it fails. -/
theorem Mst.Stands.insert_grows (h : mst.Stands U xs) (hctx : ctx.Sound) (hU : Short U)
    (hkey : U (key, value)) :
  mst.storage ≤ (mst.insert key value).2.storage
  := by
  have hle : mst.storage ≤ (Mst.insertRoot mst.root key value mst.storage).2 := by
    obtain hrepr | ⟨rfl, hroot, hholds⟩ := h
    · have hspec := Mst.insertRoot_spec hctx hU hkey hrepr.within (hrepr.holds key trivial)
      rw [← hrepr.root] at hspec
      exact hspec.1
    · rw [hroot]
      exact (insertRoot_emptied hctx hkey hholds).1
  rw [Mst.insert]
  cases hvalid : validateKey key with
  | error reason => exact le_refl _
  | ok _ =>
    dsimp only
    cases hinsert : Mst.insertRoot mst.root key value mst.storage with
    | mk result storage =>
      rw [hinsert] at hle
      cases result with
      | ok root => exact hle
      | error error => exact hle

/-- A deletion of a key of the list only adds blocks, also when it fails. -/
theorem Mst.Stands.delete_grows (h : mst.Stands U xs) (hctx : ctx.Sound) (hU : Short U)
    (hfound : lookup key xs ≠ none) :
  mst.storage ≤ (mst.delete key).2.storage
  := by
  obtain hrepr | ⟨rfl, -⟩ := h
  · have hspec := Mst.deleteRoot_spec hctx hU hrepr.within (hrepr.holds key trivial)
    rw [← hrepr.root] at hspec
    have hle := hspec.1
    rw [Mst.delete]
    cases hdelete : Mst.deleteRoot mst.root key mst.storage with
    | mk result storage =>
      rw [hdelete] at hle
      cases result with
      | ok root => exact hle
      | error error => exact hle
  · exact absurd rfl hfound

/-- A deletion that succeeds, of a key of the list. -/
theorem Mst.Stands.delete_ok (h : mst.Stands U xs) (hctx : ctx.Sound) (hU : Short U)
    (hfound : lookup key xs ≠ none) (hrun : mst.apply (.delete key) = .ok mst') :
  mst'.Stands U (SearchTree.erase key xs) ∧ mst.storage ≤ mst'.storage
  := by
  obtain hrepr | ⟨rfl, -⟩ := h
  · have hop : (Operation.delete key).Inserts U := trivial
    obtain ⟨hrepr', hle⟩ := hrepr.apply_ok hctx hU hop trivial hrun
    exact ⟨Or.inl hrepr', hle⟩
  · exact absurd rfl hfound

end Atproto.Repo
