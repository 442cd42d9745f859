import Atproto.Repo.Node

/-!
# Block storage

Nodes are stored as blocks under the CIDs of their bytes.  A store only ever holds a block
under its own CID, and it grows as nodes are stored.
-/

namespace Atproto.Repo

open Atproto.Dasl SearchTree Logic

/-- The bytes of nodes. -/
structure NodeCodec where
  toBytes : MstNode → Except EncodeError Bytes
  fromBytes : Bytes → Except DecodeError MstNode

/-- What the operations are given: the hash function, the bytes of nodes, and the limit of
the configuration on the depth of a descent. -/
structure Context where
  sha256 : Bytes → Bytes
  codec : NodeCodec
  maxDepth : Nat

/-- A block storage whose blocks are stored under their CIDs. -/
structure BlockStore (sha256 : Bytes → Bytes) where
  blocks : Cid → Option Bytes
  honest : ∀ cid data, blocks cid = some data → computeCid sha256 data = cid

namespace BlockStore

variable {sha256 : Bytes → Bytes}

/-- A store is below another that has all its blocks. -/
instance : Preorder (BlockStore sha256) where
  le S T := ∀ cid data, S.blocks cid = some data → T.blocks cid = some data
  le_refl _ _ _ h := h
  le_trans _ _ _ hST hTU cid data h := hTU cid data (hST cid data h)

/-- The store without blocks. -/
def empty : BlockStore sha256 where
  blocks _ := none
  honest := nofun

/-- Store a block under its CID. -/
def put (data : Bytes) (S : BlockStore sha256) : BlockStore sha256 where
  blocks := Function.update S.blocks (computeCid sha256 data) (some data)
  honest cid data' h := by
    by_cases heq : cid = computeCid sha256 data
    · subst heq
      rw [Function.update_self] at h
      cases h
      rfl
    · rw [Function.update_of_ne heq] at h
      exact S.honest cid data' h

/-- The store has a block for the CID. -/
def Has (S : BlockStore sha256) (cid : Cid) : Prop := (S.blocks cid).isSome

theorem Has.mono {S T : BlockStore sha256} {cid : Cid} (h : S.Has cid) (hST : S ≤ T) :
  T.Has cid
  := by
  obtain ⟨data, hdata⟩ := Option.isSome_iff_exists.mp h
  exact Option.isSome_iff_exists.mpr ⟨data, hST cid data hdata⟩

/-- Without collisions a store only grows. -/
theorem le_put (h : Function.Injective sha256) (data : Bytes) (S : BlockStore sha256) :
  S ≤ S.put data
  := by
  intro cid data' hdata'
  by_cases heq : cid = computeCid sha256 data
  · subst heq
    have hdata := computeCid_injective h (S.honest _ _ hdata')
    simp [put, hdata]
  · simpa [put, Function.update_of_ne heq] using hdata'

/-- The store of some blocks. -/
def ofBlocks (blocks : List Bytes) : BlockStore sha256 := blocks.foldr put empty

theorem ofBlocks_of_mem (h : Function.Injective sha256) {blocks : List Bytes} {data : Bytes}
    (hdata : data ∈ blocks) :
  (ofBlocks blocks : BlockStore sha256).blocks (computeCid sha256 data) = some data
  := by
  induction blocks with
  | nil => cases hdata
  | cons first blocks ih =>
    obtain rfl | hdata := List.mem_cons.mp hdata
    · exact Function.update_self _ _ _
    · exact le_put h first (ofBlocks blocks) _ _ (ih hdata)

end BlockStore

/-- An operation on the store. -/
abbrev StoreM (ctx : Context) (α : Type) : Type := Action MstError (BlockStore ctx.sha256) α

variable (ctx : Context)

/-- Load a node. -/
def loadNode (cid : Cid) : StoreM ctx MstNode := do
  let bytes ← Action.read fun S =>
    match S.blocks cid with
    | some bytes => .ok bytes
    | none => .error (.nodeNotFound cid)
  Action.ofExcept ((ctx.codec.fromBytes bytes).mapError .deserialization)

/-- Store a node. -/
def storeNode (node : MstNode) : StoreM ctx Cid := do
  let bytes ← Action.ofExcept ((ctx.codec.toBytes node).mapError .serialization)
  Action.modify (BlockStore.put bytes)
  pure (computeCid ctx.sha256 bytes)

/-- Load the child list of a node. -/
def loadEntries (cid : Cid) : StoreM ctx (List NodeEntry) := do
  let node ← loadNode ctx cid
  Action.ofExcept (fromNode node)

/-- Store a child list as a node. -/
def storeEntries (entries : List NodeEntry) : StoreM ctx Cid := do
  let node ← Action.ofExcept (toNode entries)
  storeNode ctx node

end Atproto.Repo
