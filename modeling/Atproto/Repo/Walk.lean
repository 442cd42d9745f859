import Atproto.Repo.Tree

/-!
# Walks over the tree

The walk over all entries refuses a node it has seen before.  A covering proof is the
union of three descents; these have no depth check and run here for a given number of
steps.
-/

namespace Atproto.Repo

open Atproto.Dasl SearchTree Logic

variable (ctx : Context)

/-! ### All entries -/

/-- The entries collected and the nodes visited so far. -/
abbrev WalkState : Type := List (Key × Cid) × List Cid

/-- Walk into an optional subtree. -/
def walkChild (walk : Cid → WalkState → StoreM ctx WalkState) (child : Option Cid)
    (state : WalkState) : StoreM ctx WalkState :=
  match child with
  | some tree => walk tree state
  | none => pure state

/-- Append the entries of a node in key order, each followed by those of its subtree. -/
def collectNode (walk : Cid → WalkState → StoreM ctx WalkState) (previous : Key) :
    List TreeEntry → WalkState → StoreM ctx WalkState
  | [], state => pure state
  | entry :: rest, (results, visited) => do
    let key ← Action.ofExcept (entry.reconstructKey previous)
    let state ← walkChild ctx walk entry.tree (results ++ [(key, entry.value)], visited)
    collectNode walk key rest state

/-- Walk every node below `cid`, appending its entries in key order. -/
def collectEntries : Nat → Cid → WalkState → StoreM ctx WalkState
  | 0, _, _ => Action.throw (maxDepthExceeded ctx)
  | depth + 1, cid, (results, visited) =>
    if cid ∈ visited then Action.throw (.repeatedNode cid) else do
      let node ← loadNode ctx cid
      let state ← walkChild ctx (collectEntries depth) node.left (results, cid :: visited)
      collectNode ctx (collectEntries depth) Text.empty node.entries state

/-- All pairs of the tree in sorted order. -/
def Mst.entries {ctx : Context} (mst : Mst ctx) : Except MstError (List (Key × Cid)) :=
  match mst.root with
  | none => .ok []
  | some root =>
    ((collectEntries ctx (allowedLevels ctx) root ([], []) mst.storage).1).map Prod.fst

/-! ### Covering proofs -/

/-- The path from the root down to `key`, without the last node when the key is absent. -/
def proofForKey : Nat → Cid → Key → StoreM ctx (List Cid)
  | 0, _, _ => Action.throw .unfinished
  | steps + 1, cid, key => do
    let entries ← loadEntries ctx cid
    let index := findLeafIndex entries key
    match leafAt entries index key with
    | some _ => pure [cid]
    | none =>
      match childBefore entries index with
      | some child => do
        let path ← proofForKey steps child key
        pure (cid :: path)
      | none => pure []

/-- The path down the left-hand neighbour of `key`. -/
def proofForLeftSib : Nat → Cid → Key → StoreM ctx (List Cid)
  | 0, _, _ => Action.throw .unfinished
  | steps + 1, cid, key => do
    let entries ← loadEntries ctx cid
    let index := findLeafIndex entries key
    match childBefore entries index with
    | some child => do
      let path ← proofForLeftSib steps child key
      pure (cid :: path)
    | none => pure [cid]

/-- The child that the descent to the right-hand neighbour follows. -/
def rightNeighbour (entries : List NodeEntry) (index : Nat) (key : Key) : Option Cid :=
  let found :=
    match entries[index]? with
    | some entry => some entry
    | none => if index > 0 then entries[index - 1]? else none
  match found with
  | none => none
  | some (.tree child) => some child
  | some (.leaf foundKey _) =>
    let neighbour :=
      if foundKey = key then entries[index + 1]?
      else if index = 0 then none
      else entries[index - 1]?
    match neighbour with
    | some (.tree child) => some child
    | _ => none

/-- The path down the right-hand neighbour of `key`. -/
def proofForRightSib : Nat → Cid → Key → StoreM ctx (List Cid)
  | 0, _, _ => Action.throw .unfinished
  | steps + 1, cid, key => do
    let entries ← loadEntries ctx cid
    let index := findLeafIndex entries key
    match rightNeighbour entries index key with
    | some child => do
      let path ← proofForRightSib steps child key
      pure (cid :: path)
    | none => pure [cid]

/-- Add the nodes of a path to a proof. -/
def addPath : List Cid → List (Cid × Bytes) → StoreM ctx (List (Cid × Bytes))
  | [], out => pure out
  | cid :: path, out =>
    if out.any fun block => block.1 = cid then addPath path out else do
      let node ← loadNode ctx cid
      let bytes ← Action.ofExcept ((ctx.codec.toBytes node).mapError .serialization)
      addPath path (out ++ [(cid, bytes)])

/-- The blocks of the three descents from the root. -/
def coveringProofRoot (steps : Nat) (root : Option Cid) (key : Key) :
    StoreM ctx (List (Cid × Bytes)) :=
  match root with
  | none => pure []
  | some root => do
    let path ← proofForKey ctx steps root key
    let out ← addPath ctx path []
    let path ← proofForLeftSib ctx steps root key
    let out ← addPath ctx path out
    let path ← proofForRightSib ctx steps root key
    addPath ctx path out

/-- Blocks proving what the tree says about `key`. -/
def Mst.coveringProof {ctx : Context} (mst : Mst ctx) (steps : Nat) (key : Key) :
    Except MstError (List (Cid × Bytes)) :=
  (coveringProofRoot ctx steps mst.root key mst.storage).1

/-- The blocks of the covering proofs of several keys. -/
def Mst.coveringProofs {ctx : Context} (mst : Mst ctx) (steps : Nat) :
    List Key → Except MstError (List (Cid × Bytes))
  | [] => .ok []
  | key :: keys => do
    let blocks ← mst.coveringProof steps key
    let more ← mst.coveringProofs steps keys
    .ok (blocks ++ more)

/-- The tree over a store that has some blocks only. -/
def Mst.withBlocks {ctx : Context} (mst : Mst ctx) (blocks : List (Cid × Bytes)) : Mst ctx where
  storage := BlockStore.ofBlocks (blocks.map Prod.snd)
  root := mst.root

end Atproto.Repo
