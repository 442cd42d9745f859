import Atproto.Repo.Store

/-!
# Operations of the Merkle search tree

The recursive operations check their depth against the limit of the configuration; here
they recurse on the number of levels that the limit still allows, and fail when none is
left.
-/

namespace Atproto.Repo

open Atproto.Dasl SearchTree Logic

variable (ctx : Context)

/-- The error of a descent that is too deep. -/
def maxDepthExceeded : MstError :=
  .structureViolation s!"max depth {ctx.maxDepth} exceeded"

/-- The number of levels that the limit allows from the root. -/
def allowedLevels : Nat := ctx.maxDepth + 1

/-- The value of the leaf at an index, when it is the leaf of `key`. -/
def leafAt (entries : List NodeEntry) (index : Nat) (key : Key) : Option Cid :=
  match entries[index]? with
  | some (.leaf found value) => if found = key then some value else none
  | _ => none

/-- The subtree just before an index. -/
def childBefore (entries : List NodeEntry) (index : Nat) : Option Cid :=
  match index with
  | 0 => none
  | i + 1 =>
    match entries[i]? with
    | some (.tree child) => some child
    | _ => none

/-- The entries of an optional subtree. -/
def treeEntries (child : Option Cid) : List NodeEntry := child.toList.map .tree

/-- Look for `key` in the node at `cid`, descending as needed. -/
def getAt : Nat → Cid → Key → StoreM ctx (Option Cid)
  | 0, _, _ => Action.throw (maxDepthExceeded ctx)
  | depth + 1, cid, key => do
    let entries ← loadEntries ctx cid
    let index := findLeafIndex entries key
    match leafAt entries index key with
    | some value => pure (some value)
    | none =>
      match childBefore entries index with
      | some child => getAt depth child key
      | none => pure none

/-- Store a child list, unless it is empty. -/
def storeUnlessEmpty (entries : List NodeEntry) : StoreM ctx (Option Cid) :=
  if entries.isEmpty then pure none else do
    let cid ← storeEntries ctx entries
    pure (some cid)

/-- Store the two sides of a cut, each unless it is empty. -/
def storeSides (left right : List NodeEntry) : StoreM ctx (Option Cid × Option Cid) := do
  let left ← storeUnlessEmpty ctx left
  let right ← storeUnlessEmpty ctx right
  pure (left, right)

/-- Cut the subtree at `cid` into the parts below and above `key`. -/
def splitAround : Nat → Cid → Key → StoreM ctx (Option Cid × Option Cid)
  | 0, _, _ => Action.throw (maxDepthExceeded ctx)
  | depth + 1, cid, key => do
    let entries ← loadEntries ctx cid
    let index := findLeafIndex entries key
    let left := entries.take index
    let right := entries.drop index
    match left.getLast? with
    | some (.tree child) => do
      let (innerLeft, innerRight) ← splitAround depth child key
      storeSides ctx (left.dropLast ++ treeEntries innerLeft) (treeEntries innerRight ++ right)
    | _ => storeSides ctx left right

/-- Wrap a subtree into `n` nodes of pure structure. -/
def wrap : Nat → Cid → StoreM ctx Cid
  | 0, child => pure child
  | n + 1, child => do
    let child ← storeEntries ctx [.tree child]
    wrap n child

/-- Wrap an optional subtree into a node of pure structure. -/
def wrapOption (child : Option Cid) : StoreM ctx (Option Cid) :=
  match child with
  | some cid => do
    let cid ← storeEntries ctx [.tree cid]
    pure (some cid)
  | none => pure none

/-- Wrap two optional subtrees into `n` nodes of pure structure each. -/
def wrapBoth : Nat → Option Cid → Option Cid → StoreM ctx (Option Cid × Option Cid)
  | 0, left, right => pure (left, right)
  | n + 1, left, right => do
    let left ← wrapOption ctx left
    let right ← wrapOption ctx right
    wrapBoth n left right

/-- Insert into the node at `cid`, which sits at `layer`. -/
def insertAt : Nat → Cid → Nat → Key → Cid → Nat → StoreM ctx Cid
  | 0, _, _, _, _, _ => Action.throw (maxDepthExceeded ctx)
  | depth + 1, cid, layer, key, value, height => do
    let entries ← loadEntries ctx cid
    let index := findLeafIndex entries key
    if height = layer then
      match leafAt entries index key with
      | some _ => storeEntries ctx (entries.set index (.leaf key value))
      | none =>
        match childBefore entries index with
        -- A subtree occupies the gap the key falls into and is cut in two around it.
        | some child => do
          let (left, right) ← splitAround ctx depth child key
          storeEntries ctx (entries.take (index - 1) ++
            (treeEntries left ++ .leaf key value :: treeEntries right) ++ entries.drop index)
        | none => storeEntries ctx (entries.take index ++ .leaf key value :: entries.drop index)
    else if height < layer then
      match childBefore entries index with
      | some child => do
        let updated ← insertAt depth child (layer - 1) key value height
        storeEntries ctx (entries.set (index - 1) (.tree updated))
      -- The gap is empty: its child is made and wrapped up to the layer below this node.
      | none => do
        let child ← storeEntries ctx [.leaf key value]
        let child ← wrap ctx (layer - (height + 1)) child
        storeEntries ctx (entries.take index ++ .tree child :: entries.drop index)
    else do
      -- The key belongs above: both halves hang off a new node.
      let (left, right) ← splitAround ctx depth cid key
      let (left, right) ← wrapBoth ctx (height - layer - 1) left right
      storeEntries ctx (treeEntries left ++ .leaf key value :: treeEntries right)

/-- Join two adjacent subtrees of the same layer into one. -/
def appendMerge : Nat → Cid → Cid → StoreM ctx Cid
  | 0, _, _ => Action.throw (maxDepthExceeded ctx)
  | depth + 1, left, right => do
    let leftEntries ← loadEntries ctx left
    let rightEntries ← loadEntries ctx right
    match leftEntries.getLast?, rightEntries.head? with
    | some (.tree innerLeft), some (.tree innerRight) => do
      let merged ← appendMerge depth innerLeft innerRight
      storeEntries ctx (leftEntries.dropLast ++ .tree merged :: rightEntries.drop 1)
    | _, _ => storeEntries ctx (leftEntries ++ rightEntries)

/-- Remove `key` from the node at `cid`; the result is `none` when nothing is left. -/
def deleteAt : Nat → Cid → Key → StoreM ctx (Option Cid)
  | 0, _, _ => Action.throw (maxDepthExceeded ctx)
  | depth + 1, cid, key => do
    let entries ← loadEntries ctx cid
    let index := findLeafIndex entries key
    match leafAt entries index key with
    | some _ => do
      let entries := entries.eraseIdx index
      -- The subtrees on both sides of the leaf are now side by side and are joined.
      match childBefore entries index, entries[index]? with
      | some left, some (.tree right) => do
        let merged ← appendMerge ctx depth left right
        storeUnlessEmpty ctx
          (entries.take (index - 1) ++ .tree merged :: entries.drop (index + 1))
      | _, _ => storeUnlessEmpty ctx entries
    | none =>
      match childBefore entries index with
      | some child => do
        match ← deleteAt depth child key with
        | some updated => storeUnlessEmpty ctx (entries.set (index - 1) (.tree updated))
        | none => storeUnlessEmpty ctx (entries.eraseIdx (index - 1))
      | none => pure (some cid)

/-- Drop layers above the highest one that still holds a key. -/
def trimTop : Nat → Cid → StoreM ctx Cid
  | 0, _ => Action.throw (maxDepthExceeded ctx)
  | depth + 1, cid => do
    let entries ← loadEntries ctx cid
    match entries with
    | [.tree child] => trimTop depth child
    | _ => pure cid

/-- The layer a node sits at, descending until a leaf reveals it. -/
def layerOf : Nat → Cid → StoreM ctx Nat
  | 0, _ => Action.throw (maxDepthExceeded ctx)
  | depth + 1, cid => do
    let entries ← loadEntries ctx cid
    match layerForEntries ctx.sha256 entries with
    | some layer => pure layer
    | none =>
      match entries.head? with
      | some (.tree child) => do
        let layer ← layerOf depth child
        pure (layer + 1)
      | _ => pure 0

/-! ### The tree -/

/-- A Merkle search tree: its storage and its root, absent when the tree is empty. -/
structure Mst where
  storage : BlockStore ctx.sha256
  root : Option Cid

namespace Mst

variable {ctx}

/-- An empty tree. -/
def new (storage : BlockStore ctx.sha256) : Mst ctx where
  storage := storage
  root := none

/-- The tree at a root. -/
def fromRoot (root : Cid) (storage : BlockStore ctx.sha256) : Mst ctx where
  storage := storage
  root := some root

/-- The value of a key. -/
def get (mst : Mst ctx) (key : Key) : Except MstError (Option Cid) :=
  match mst.root with
  | none => .ok none
  | some root => (getAt ctx (allowedLevels ctx) root key mst.storage).1

/-- Insert below a root, or make a first node. -/
def insertRoot (root : Option Cid) (key : Key) (value : Cid) : StoreM ctx Cid :=
  match root with
  | some root => do
    let layer ← layerOf ctx (allowedLevels ctx) root
    insertAt ctx (allowedLevels ctx) root layer key value (keyHeight ctx.sha256 key)
  | none => storeEntries ctx [.leaf key value]

/-- Give a key a value; the result is the new root. -/
def insert (mst : Mst ctx) (key : Key) (value : Cid) : Except MstError Cid × Mst ctx :=
  match validateKey key with
  | .error reason => (.error (.invalidNode reason), mst)
  | .ok () =>
    match insertRoot mst.root key value mst.storage with
    | (.ok root, storage) => (.ok root, { storage := storage, root := some root })
    | (.error e, storage) => (.error e, { storage := storage, root := mst.root })

/-- Delete below a root and trim what is left. -/
def deleteRoot (root : Option Cid) (key : Key) : StoreM ctx (Option Cid) :=
  match root with
  | some root => do
    match ← deleteAt ctx (allowedLevels ctx) root key with
    | some cid => do
      let cid ← trimTop ctx (allowedLevels ctx) cid
      pure (some cid)
    | none => pure none
  | none => pure none

/-- Remove a key; the result is the new root. -/
def delete (mst : Mst ctx) (key : Key) : Except MstError (Option Cid) × Mst ctx :=
  match deleteRoot mst.root key mst.storage with
  | (.ok root, storage) => (.ok root, { storage := storage, root := root })
  | (.error e, storage) => (.error e, { storage := storage, root := mst.root })

end Mst

end Atproto.Repo
