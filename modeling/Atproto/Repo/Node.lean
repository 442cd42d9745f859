import Atproto.Dasl.Errors
import Atproto.Logic.Action
import Atproto.Repo.Key
import Atproto.SearchTree.Canonical

/-!
# Nodes of the Merkle search tree

A stored node has an optional left child and entries, each with a key, a value and an
optional child to its right.  A key is stored as the length of the prefix it shares with
the key before it and the rest of its bytes.  The operations work on the interleaved
sequence of keys and children, and `fromNode` and `toNode` convert between the two.
-/

namespace Atproto.Repo

open Atproto.Dasl SearchTree

/-- Errors of tree operations.  A structure violation whose reason names a node is
`repeatedNode`; `unfinished` is no error of the source and says that a descent without a
depth check has not ended after the steps allowed to it. -/
inductive MstError where
  | invalidNode (reason : String)
  | invalidPrefix (reason : String)
  | nodeNotFound (cid : Cid)
  | serialization (error : EncodeError)
  | deserialization (error : DecodeError)
  | structureViolation (reason : String)
  | repeatedNode (cid : Cid)
  | unfinished
deriving DecidableEq

/-- One child of a node: a record, or a pointer to a subtree. -/
abbrev NodeEntry : Type := Entry Key Cid Cid

/-- An entry of a stored node. -/
structure TreeEntry where
  prefixLen : Nat
  keySuffix : Bytes
  value : Cid
  tree : Option Cid
deriving DecidableEq

namespace TreeEntry

/-- An entry with prefix compression relative to the previous key; the length of the
prefix is cast to 32 bits. -/
def withPrefix (prevKey key : Key) (value : Cid) : TreeEntry where
  prefixLen := commonPrefixLen prevKey.bytes key.bytes % 2 ^ 32
  keySuffix := key.bytes.drop (commonPrefixLen prevKey.bytes key.bytes)
  value := value
  tree := none

/-- The full key of an entry, given the previous key. -/
def reconstructKey (entry : TreeEntry) (prevKey : Key) : Except MstError Key :=
  if entry.prefixLen > prevKey.bytes.length then
    .error (.invalidPrefix s!"prefix_len {entry.prefixLen} exceeds previous key length {prevKey.bytes.length}")
  else
    match Text.fromUtf8 (prevKey.bytes.take entry.prefixLen ++ entry.keySuffix) with
    | some key => .ok key
    | none => .error (.invalidPrefix
        s!"prefix_len {entry.prefixLen} and key suffix do not form a valid UTF-8 key")

end TreeEntry

/-- A stored node. -/
structure MstNode where
  left : Option Cid
  entries : List TreeEntry
deriving DecidableEq

/-- The node without entries. -/
def MstNode.empty : MstNode where
  left := none
  entries := []

/-- The child list of stored entries, after the key `previous`. -/
@[grind =]
def fromEntries (previous : Key) : List TreeEntry → Except MstError (List NodeEntry)
  | [] => .ok []
  | entry :: rest => do
    let key ← entry.reconstructKey previous
    let more ← fromEntries key rest
    .ok (.leaf key entry.value :: (entry.tree.toList.map .tree ++ more))

/-- The interleaved child list of a stored node. -/
def fromNode (node : MstNode) : Except MstError (List NodeEntry) := do
  let entries ← fromEntries Text.empty node.entries
  .ok (node.left.toList.map .tree ++ entries)

/-- The stored entries of a child list that starts with a leaf, after the key `previous`. -/
@[grind =]
def toEntries (previous : Key) : List NodeEntry → Except MstError (List TreeEntry)
  | [] => .ok []
  | .leaf key value :: .tree cid :: rest => do
    let more ← toEntries key rest
    .ok ({ TreeEntry.withPrefix previous key value with tree := some cid } :: more)
  | .leaf key value :: rest => do
    let more ← toEntries key rest
    .ok (TreeEntry.withPrefix previous key value :: more)
  | .tree _ :: _ => .error (.structureViolation "two adjacent subtrees in one node")

/-- The stored node of an interleaved child list. -/
def toNode : List NodeEntry → Except MstError MstNode
  | .tree cid :: rest => do
    let entries ← toEntries Text.empty rest
    .ok { left := some cid, entries := entries }
  | children => do
    let entries ← toEntries Text.empty children
    .ok { left := none, entries := entries }

/-- The key of a leaf. -/
def leafKey : NodeEntry → Option Key
  | .leaf key _ => some key
  | .tree _ => none

/-- The index of the first leaf whose key is at least `key`, or the length. -/
def findLeafIndex : List NodeEntry → Key → Nat
  | [], _ => 0
  | entry :: rest, key =>
    match leafKey entry with
    | some k => if k ≥ key then 0 else findLeafIndex rest key + 1
    | none => findLeafIndex rest key + 1

/-- The layer of a node, derived from its first leaf. -/
def layerForEntries (sha256 : Bytes → Bytes) : List NodeEntry → Option Nat
  | [] => none
  | entry :: rest =>
    match leafKey entry with
    | some k => some (keyHeight sha256 k)
    | none => layerForEntries sha256 rest

/-! ### The two forms of a node -/

/-- The keys of the leaves are shorter than `2 ^ 32` bytes. -/
def ShortKeys (children : List NodeEntry) : Prop :=
  ∀ key value, Entry.leaf key value ∈ children → key.bytes.length < 2 ^ 32

theorem reconstructKey_withPrefix {previous : Key} (h : previous.bytes.length < 2 ^ 32) (key : Key)
    (value : Cid) (tree : Option Cid) :
  { TreeEntry.withPrefix previous key value with tree := tree }.reconstructKey previous = .ok key
  := by
  have hle := commonPrefixLen_le previous.bytes key.bytes
  have hmod := Nat.mod_eq_of_lt (hle.trans_lt h)
  simp only [TreeEntry.reconstructKey, TreeEntry.withPrefix, hmod, Nat.not_lt.mpr hle,
    if_false, take_commonPrefixLen_append, Text.fromUtf8_bytes]

theorem ShortKeys.tail {entry : NodeEntry} {children : List NodeEntry}
    (h : ShortKeys (entry :: children)) :
  ShortKeys children
  := fun key value hmem => h key value (List.mem_cons_of_mem entry hmem)

/-- Stored entries give back the child list they came from. -/
theorem fromEntries_of_toEntries {previous : Key} {children : List NodeEntry}
    {entries : List TreeEntry} (h : toEntries previous children = .ok entries)
    (hprevious : previous.bytes.length < 2 ^ 32) (hshort : ShortKeys children) :
  fromEntries previous entries = .ok children
  := by
  induction previous, children using toEntries.induct generalizing entries with
  | case1 previous =>
    cases h
    rfl
  | case2 previous key value cid rest ih =>
    rw [toEntries, Logic.bind_eq_ok] at h
    obtain ⟨more, hmore, heq⟩ := h
    cases heq
    have hkey := hshort key value List.mem_cons_self
    have hrest := ih hmore hkey hshort.tail.tail
    rw [fromEntries, reconstructKey_withPrefix hprevious key value (some cid)]
    simp only [Logic.bind_eq_ok]
    exact ⟨key, rfl, rest, hrest, rfl⟩
  | case3 previous key value rest hrest ih =>
    rw [toEntries] at h
    · rw [Logic.bind_eq_ok] at h
      obtain ⟨more, hmore, heq⟩ := h
      cases heq
      have hkey := hshort key value List.mem_cons_self
      have hmore' := ih hmore hkey hshort.tail
      rw [fromEntries]
      simp only [Logic.bind_eq_ok]
      have hfirst := reconstructKey_withPrefix hprevious key value none
      exact ⟨key, hfirst, rest, hmore', rfl⟩
    · exact hrest
  | case4 previous cid rest => cases h

/-- A stored node gives back the child list it came from. -/
theorem fromNode_of_toNode {children : List NodeEntry} {node : MstNode}
    (h : toNode children = .ok node) (hshort : ShortKeys children) :
  fromNode node = .ok children
  := by
  have hempty : Text.empty.bytes.length < 2 ^ 32 := by decide
  cases children with
  | nil =>
    cases h
    rfl
  | cons entry rest =>
    cases entry with
    | tree cid =>
      rw [toNode, Logic.bind_eq_ok] at h
      obtain ⟨entries, hentries, heq⟩ := h
      cases heq
      rw [fromNode, Logic.bind_eq_ok]
      exact ⟨rest, fromEntries_of_toEntries hentries hempty hshort.tail, rfl⟩
    | leaf key value =>
      rw [toNode, Logic.bind_eq_ok] at h
      · obtain ⟨entries, hentries, heq⟩ := h
        cases heq
        rw [fromNode, Logic.bind_eq_ok]
        exact ⟨_, fromEntries_of_toEntries hentries hempty hshort, rfl⟩
      · nofun

/-- A child list without adjacent children, after a key, can be stored. -/
theorem exists_toEntries {previous key : Key} {value : Cid} {rest : List NodeEntry}
    (h : Spaced rest) :
  ∃ entries, toEntries previous (.leaf key value :: rest) = .ok entries
  := by
  match rest, h with
  | [], _ => exact ⟨_, rfl⟩
  | .leaf key' value' :: rest, h =>
    obtain ⟨more, hmore⟩ := @exists_toEntries key key' value' rest h
    use TreeEntry.withPrefix previous key value :: more
    rw [toEntries, hmore]
    · rfl
    · nofun
  | [.tree cid], _ => exact ⟨_, rfl⟩
  | .tree cid :: .leaf key' value' :: rest, h =>
    obtain ⟨more, hmore⟩ := @exists_toEntries key key' value' rest h
    use { TreeEntry.withPrefix previous key value with tree := some cid } :: more
    rw [toEntries, hmore]
    rfl
termination_by rest.length

/-- A child list without adjacent children can be stored. -/
theorem exists_toNode {children : List NodeEntry} (h : Spaced children) :
  ∃ node, toNode children = .ok node
  := by
  match children, h with
  | [], _ => exact ⟨_, rfl⟩
  | .leaf key value :: rest, h =>
    obtain ⟨entries, hentries⟩ := @exists_toEntries Text.empty key value rest h
    use { left := none, entries := entries }
    rw [toNode, hentries]
    · rfl
    · nofun
  | [.tree cid], _ => exact ⟨_, rfl⟩
  | .tree cid :: .leaf key value :: rest, h =>
    obtain ⟨entries, hentries⟩ := @exists_toEntries Text.empty key value rest h
    use { left := some cid, entries := entries }
    rw [toNode, hentries]
    rfl

end Atproto.Repo
