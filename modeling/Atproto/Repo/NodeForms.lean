import Atproto.Repo.Node

/-!
# The two forms of a node

A child list and the stored node that it is turned into give each other back.  The length of a shared
prefix is stored with 32 bits.
-/

namespace Atproto.Repo

open Atproto.Dasl SearchTree Logic

/-- Every key shares fewer than `2 ^ 32` bytes with the key of the leaf before it. -/
@[grind =]
def SharesLess (previous : Key) : List NodeEntry → Prop
  | [] => True
  | .tree _ :: children => SharesLess previous children
  | .leaf key _ :: children =>
    commonPrefixLen previous.bytes key.bytes < 2 ^ 32 ∧ SharesLess key children

/-- Every key is stored with the longest prefix that it shares with the key before it. -/
def Compressed (previous : Key) : List TreeEntry → Prop
  | [] => True
  | entry :: entries => ∀ key, entry.reconstructKey previous = .ok key →
    entry.prefixLen = commonPrefixLen previous.bytes key.bytes ∧ Compressed key entries

/-- The lengths of prefixes are numbers of 32 bits. -/
def HasU32Prefixes (entries : List TreeEntry) : Prop :=
  ∀ entry ∈ entries, entry.prefixLen < 2 ^ 32

variable {previous key : Key} {children : List NodeEntry} {entries : List TreeEntry}
  {entry : TreeEntry} {node : MstNode}

theorem commonPrefixLen_le_right (a b : Bytes) :
  commonPrefixLen a b ≤ b.length
  := by
  have h := congrArg List.length (take_commonPrefixLen_append a b)
  rw [List.length_append, List.length_take, List.length_drop,
    Nat.min_eq_left (commonPrefixLen_le a b)] at h
  omega

theorem commonPrefixLen_self (a : Bytes) :
  commonPrefixLen a a = a.length
  := by
  induction a with
  | nil => rfl
  | cons byte a ih => rw [commonPrefixLen, if_pos rfl, ih, List.length_cons]

/-! ### One entry -/

/-- The bytes of a key that is read. -/
theorem reconstructKey_eq_ok :
  entry.reconstructKey previous = .ok key ↔ entry.prefixLen ≤ previous.bytes.length ∧
    key.bytes = previous.bytes.take entry.prefixLen ++ entry.keySuffix
  := by
  rw [TreeEntry.reconstructKey]
  split_ifs with h
  · simp only [false_iff, not_and]
    omega
  · cases hread : Text.fromUtf8 (previous.bytes.take entry.prefixLen ++ entry.keySuffix) with
    | none =>
      simp only [reduceCtorEq, false_iff, not_and]
      intro _ hbytes
      rw [← hbytes, Text.fromUtf8_bytes] at hread
      cases hread
    | some read =>
      have hbytes : read.bytes = previous.bytes.take entry.prefixLen ++ entry.keySuffix := by
        rw [Text.fromUtf8] at hread
        split_ifs at hread
        cases hread
        rfl
      simp only [Except.ok.injEq]
      constructor
      · rintro rfl
        exact ⟨Nat.not_lt.mp h, hbytes⟩
      · rintro ⟨-, hkey⟩
        exact Text.ext (hbytes.trans hkey.symm)

/-- A key is read back exactly when the length of its prefix fits. -/
theorem reconstructKey_withPrefix_iff (value : Cid) (tree : Option Cid) :
  { TreeEntry.withPrefix previous key value with tree := tree }.reconstructKey previous = .ok key ↔
    commonPrefixLen previous.bytes key.bytes < 2 ^ 32
  := by
  have hle := commonPrefixLen_le previous.bytes key.bytes
  have hle' := commonPrefixLen_le_right previous.bytes key.bytes
  simp only [reconstructKey_eq_ok, TreeEntry.withPrefix]
  constructor
  · rintro ⟨hfront, hbytes⟩
    have hlength := congrArg List.length hbytes
    rw [List.length_append, List.length_take, List.length_drop, Nat.min_eq_left hfront] at hlength
    have hmod : commonPrefixLen previous.bytes key.bytes % 2 ^ 32 =
        commonPrefixLen previous.bytes key.bytes := by omega
    rw [← hmod]
    apply Nat.mod_lt _ (by norm_num)
  · intro hlt
    rw [Nat.mod_eq_of_lt hlt]
    exact ⟨hle, (take_commonPrefixLen_append _ _).symm⟩

/-- An entry that is read is what its key is stored as exactly when it has the longest prefix. -/
theorem withPrefix_eq_iff (hread : entry.reconstructKey previous = .ok key)
    (hu32 : entry.prefixLen < 2 ^ 32) :
  { TreeEntry.withPrefix previous key entry.value with tree := entry.tree } = entry ↔
    entry.prefixLen = commonPrefixLen previous.bytes key.bytes
  := by
  obtain ⟨hfront, hbytes⟩ := reconstructKey_eq_ok.mp hread
  have hle := commonPrefixLen_le_right previous.bytes key.bytes
  have hlength := congrArg List.length hbytes
  rw [List.length_append, List.length_take, Nat.min_eq_left hfront] at hlength
  constructor
  · intro h
    have hsuffix := congrArg (fun entry => entry.keySuffix.length) h
    simp only [TreeEntry.withPrefix, List.length_drop] at hsuffix
    omega
  · intro h
    have hdrop : key.bytes.drop entry.prefixLen = entry.keySuffix := by
      rw [hbytes]
      apply List.drop_left'
      rw [List.length_take, Nat.min_eq_left hfront]
    rw [TreeEntry.withPrefix, ← h, Nat.mod_eq_of_lt hu32, hdrop]

/-! ### From child lists to nodes -/

/-- Entries that are stored come from children without adjacent subtrees. -/
theorem spaced_of_toEntries (h : toEntries previous children = .ok entries) :
  Spaced children ∧ ∀ cid, Spaced (.tree cid :: children)
  := by
  induction previous, children using toEntries.induct generalizing entries with
  | case1 previous => exact ⟨trivial, fun cid => trivial⟩
  | case2 previous key value cid rest ih =>
    rw [toEntries, bind_eq_ok] at h
    obtain ⟨more, hmore, -⟩ := h
    exact ⟨(ih hmore).2 cid, fun _ => (ih hmore).2 cid⟩
  | case3 previous key value rest hrest ih =>
    rw [toEntries] at h
    · obtain ⟨more, hmore, -⟩ := bind_eq_ok.mp h
      exact ⟨(ih hmore).1, fun _ => (ih hmore).1⟩
    · exact hrest
  | case4 previous cid rest => cases h

/-- A child list is stored exactly when no two subtrees are adjacent. -/
theorem exists_toNode_iff :
  (∃ node, toNode children = .ok node) ↔ Spaced children
  := by
  constructor
  · rintro ⟨node, h⟩
    rw [toNode.eq_def] at h
    split at h
    · obtain ⟨entries, hentries, -⟩ := bind_eq_ok.mp h
      exact (spaced_of_toEntries hentries).2 _
    · obtain ⟨entries, hentries, -⟩ := bind_eq_ok.mp h
      exact (spaced_of_toEntries hentries).1
  · exact exists_toNode

/-- Stored entries give back the child list that they come from exactly when the lengths of the
prefixes fit. -/
theorem fromEntries_toEntries_iff (h : toEntries previous children = .ok entries) :
  fromEntries previous entries = .ok children ↔ SharesLess previous children
  := by
  induction previous, children using toEntries.induct generalizing entries with
  | case1 previous =>
    cases h
    exact iff_of_true rfl trivial
  | case2 previous key value cid rest ih =>
    rw [toEntries, bind_eq_ok] at h
    obtain ⟨more, hmore, heq⟩ := h
    cases heq
    rw [fromEntries, SharesLess, SharesLess, ← ih hmore,
      ← reconstructKey_withPrefix_iff value (some cid), bind_eq_ok]
    constructor
    · rintro ⟨key', hkey, hrest⟩
      obtain ⟨children, hchildren, heq⟩ := bind_eq_ok.mp hrest
      cases heq
      exact ⟨hkey, hchildren⟩
    · rintro ⟨hkey, hrest⟩
      exact ⟨key, hkey, bind_eq_ok.mpr ⟨rest, hrest, rfl⟩⟩
  | case3 previous key value rest hspaced ih =>
    rw [toEntries] at h
    · obtain ⟨more, hmore, heq⟩ := bind_eq_ok.mp h
      cases heq
      rw [fromEntries, SharesLess, ← ih hmore, ← reconstructKey_withPrefix_iff value none, bind_eq_ok]
      constructor
      · rintro ⟨key', hkey, hrest⟩
        obtain ⟨children, hchildren, heq⟩ := bind_eq_ok.mp hrest
        cases heq
        exact ⟨hkey, hchildren⟩
      · rintro ⟨hkey, hrest⟩
        exact ⟨key, hkey, bind_eq_ok.mpr ⟨rest, hrest, rfl⟩⟩
    · exact hspaced
  | case4 previous cid rest => cases h

/-- A stored node gives back the child list that it comes from exactly when the lengths of the
prefixes fit. -/
theorem fromNode_toNode_iff (h : toNode children = .ok node) :
  fromNode node = .ok children ↔ SharesLess Text.empty children
  := by
  rw [toNode.eq_def] at h
  split at h
  · obtain ⟨entries, hentries, heq⟩ := bind_eq_ok.mp h
    cases heq
    rw [SharesLess, ← fromEntries_toEntries_iff hentries, fromNode, bind_eq_ok]
    constructor
    · rintro ⟨read, hread, heq⟩
      cases heq
      exact hread
    · intro hread
      exact ⟨_, hread, rfl⟩
  · obtain ⟨entries, hentries, heq⟩ := bind_eq_ok.mp h
    cases heq
    rw [← fromEntries_toEntries_iff hentries, fromNode, bind_eq_ok]
    constructor
    · rintro ⟨read, hread, heq⟩
      cases heq
      exact hread
    · intro hread
      exact ⟨_, hread, rfl⟩

/-! ### From nodes to child lists -/

/-- The children of entries do not start with a subtree. -/
theorem fromEntries_ne_tree (h : fromEntries previous entries = .ok children) (cid : Cid)
    (rest : List NodeEntry) :
  children ≠ .tree cid :: rest
  := by
  rintro rfl
  cases entries with
  | nil => cases h
  | cons entry entries =>
    rw [fromEntries, bind_eq_ok] at h
    obtain ⟨key, -, h⟩ := h
    obtain ⟨more, -, heq⟩ := bind_eq_ok.mp h
    cases heq

/-- Entries that are read are stored as they were exactly when they are compressed. -/
theorem toEntries_fromEntries_iff (h : fromEntries previous entries = .ok children)
    (hu32 : HasU32Prefixes entries) :
  toEntries previous children = .ok entries ↔ Compressed previous entries
  := by
  induction entries generalizing previous children with
  | nil =>
    cases h
    exact iff_of_true rfl trivial
  | cons entry entries ih =>
    rw [fromEntries, bind_eq_ok] at h
    obtain ⟨key, hkey, h⟩ := h
    obtain ⟨more, hmore, heq⟩ := bind_eq_ok.mp h
    cases heq
    obtain ⟨hentry, hentries⟩ := List.forall_mem_cons.mp hu32
    have hcompressed : Compressed previous (entry :: entries) ↔
        { TreeEntry.withPrefix previous key entry.value with tree := entry.tree } = entry ∧
          Compressed key entries := by
      rw [Compressed, withPrefix_eq_iff hkey hentry]
      constructor
      · exact fun hall => hall key hkey
      · intro hboth other hother
        rw [hkey] at hother
        cases hother
        exact hboth
    have hstep : toEntries previous
        (.leaf key entry.value :: (entry.tree.toList.map .tree ++ more)) =
          toEntries key more >>= fun rest => .ok
            ({ TreeEntry.withPrefix previous key entry.value with tree := entry.tree } :: rest) := by
      cases htree : entry.tree with
      | some cid => rfl
      | none =>
        rw [Option.toList_none, List.map_nil, List.nil_append, toEntries]
        · rfl
        · exact fun cid rest => fromEntries_ne_tree hmore cid rest
    rw [hcompressed, hstep, ← ih hmore hentries, bind_eq_ok]
    constructor
    · rintro ⟨rest, hrest, heq⟩
      obtain ⟨hsame, rfl⟩ := List.cons.inj (Except.ok.inj heq)
      exact ⟨hsame, hrest⟩
    · rintro ⟨heq, hrest⟩
      refine ⟨entries, hrest, ?_⟩
      rw [heq]

/-- A node that is read is stored as it was exactly when it is compressed. -/
theorem toNode_fromNode_iff (h : fromNode node = .ok children)
    (hu32 : HasU32Prefixes node.entries) :
  toNode children = .ok node ↔ Compressed Text.empty node.entries
  := by
  obtain ⟨left, entries⟩ := node
  rw [fromNode, bind_eq_ok] at h
  obtain ⟨read, hread, heq⟩ := h
  cases heq
  rw [← toEntries_fromEntries_iff hread hu32]
  have hstep : toNode (left.toList.map .tree ++ read) =
      toEntries Text.empty read >>= fun entries => .ok { left, entries } := by
    cases left with
    | some cid => rfl
    | none =>
      rw [Option.toList_none, List.map_nil, List.nil_append, toNode]
      exact fun cid rest => fromEntries_ne_tree hread cid rest
  rw [hstep, bind_eq_ok]
  constructor
  · rintro ⟨stored, hstored, heq⟩
    cases heq
    exact hstored
  · intro hstored
    exact ⟨entries, hstored, rfl⟩

/-! ### The round trips -/

/-- A child list is stored exactly when no two subtrees are adjacent, and it is then read back exactly
when each key shares fewer than `2 ^ 32` bytes with the key before it.  A node that is read is stored
as it was exactly when every key has the longest prefix. -/
theorem node_round_trips (children : List NodeEntry) (node : MstNode) :
  ((∃ stored, toNode children = .ok stored) ↔ Spaced children) ∧
  (∀ stored, toNode children = .ok stored →
    (fromNode stored = .ok children ↔ SharesLess Text.empty children)) ∧
  ∀ read, HasU32Prefixes node.entries → fromNode node = .ok read →
    (toNode read = .ok node ↔ Compressed Text.empty node.entries)
  := by
  refine ⟨exists_toNode_iff, ?_, ?_⟩
  · intro stored h
    exact fromNode_toNode_iff h
  · intro read hu32 h
    exact toNode_fromNode_iff h hu32

/-- A key of `2 ^ 32` bytes. -/
def hugeKey : Key where
  bytes := List.replicate (2 ^ 32) 0x61
  utf8 := isUtf8_of_ascii fun byte hbyte => by
    rw [List.eq_of_mem_replicate hbyte]
    decide

/-- Two leaves with that key. -/
def hugeChildren : List NodeEntry :=
  let value := computeCid (fun _ => List.replicate 32 0) []
  [.leaf hugeKey value, .leaf hugeKey value]

/-- Children whose shared prefix does not fit are stored, and not read back. -/
theorem node_round_trips_huge :
  Spaced hugeChildren ∧
    ∃ node, toNode hugeChildren = .ok node ∧ fromNode node ≠ .ok hugeChildren
  := by
  have hspaced : Spaced hugeChildren := trivial
  obtain ⟨node, hnode⟩ := exists_toNode_iff.mpr hspaced
  refine ⟨hspaced, node, hnode, ?_⟩
  rw [Ne, fromNode_toNode_iff hnode, hugeChildren, SharesLess, SharesLess, commonPrefixLen_self]
  rintro ⟨-, hlt, -⟩
  rw [hugeKey, List.length_replicate] at hlt
  exact lt_irrefl _ hlt

end Atproto.Repo
