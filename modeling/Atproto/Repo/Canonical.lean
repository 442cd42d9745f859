import Atproto.Repo.Tree
import Atproto.SearchTree.Around

/-!
# Canonical nodes in the store

The node of a sorted list at a layer is canonical, and so is its CID.  Loading it gives
its child list back and storing the child list gives the CID back, as long as the codec
accepts the node.
-/

namespace Atproto.Repo

open Atproto.Dasl SearchTree Logic

instance : Inhabited Cid := ⟨{ version := .v1, codec := 0, hashCode := 0, digest := [], v0 := nofun }⟩

variable (ctx : Context)

/-- The CID of the node of a child list, when it has one. -/
def nodeCid (children : List NodeEntry) : Cid :=
  match toNode children with
  | .error _ => default
  | .ok node =>
    match ctx.codec.toBytes node with
    | .error _ => default
    | .ok bytes => computeCid ctx.sha256 bytes

/-- The child list of the canonical node of a list at a layer. -/
abbrev canonicalEntries (L : Nat) (xs : List (Key × Cid)) : List NodeEntry :=
  entries (keyHeight ctx.sha256) (nodeCid ctx) L xs

/-- The CID of the canonical node of a list at a layer. -/
abbrev canonicalCid (L : Nat) (xs : List (Key × Cid)) : Cid :=
  address (keyHeight ctx.sha256) (nodeCid ctx) L xs

/-- The codec reads back what it wrote, and writes different nodes differently. -/
structure NodeCodec.Faithful (codec : NodeCodec) : Prop where
  round : ∀ node node' bytes, codec.toBytes node = .ok bytes →
    codec.fromBytes bytes = .ok node' → node' = node
  inj : ∀ node node' bytes, codec.toBytes node = .ok bytes → codec.toBytes node' = .ok bytes →
    node = node'

/-- The hash function has no collisions and the codec is faithful. -/
structure Context.Sound (ctx : Context) : Prop where
  hash : Function.Injective ctx.sha256
  codec : ctx.codec.Faithful

/-- The codec accepts the node of a child list. -/
def Fits (children : List NodeEntry) : Prop :=
  ∃ node bytes, toNode children = .ok node ∧ ctx.codec.toBytes node = .ok bytes ∧
    ctx.codec.fromBytes bytes = .ok node

/-- The list is sorted and all its pairs are among `U`. -/
structure Within (U : Key × Cid → Prop) (xs : List (Key × Cid)) : Prop where
  sorted : Sorted xs
  mem : ∀ x ∈ xs, U x

theorem Within.nil {U : Key × Cid → Prop} :
  Within U []
  := ⟨Sorted.nil, List.forall_mem_nil U⟩

/-- The codec accepts every canonical node of pairs among `U` up to layer `L`. -/
def AllFit (L : Nat) (U : Key × Cid → Prop) : Prop :=
  ∀ M ≤ L, ∀ xs, Within U xs → Fits ctx (canonicalEntries ctx M xs)

/-- The keys of the pairs are shorter than `2 ^ 32` bytes. -/
def Short (U : Key × Cid → Prop) : Prop := ∀ x, U x → x.1.bytes.length < 2 ^ 32

variable {ctx}

theorem AllFit.anti {L M : Nat} {U : Key × Cid → Prop} (h : AllFit ctx L U) (hM : M ≤ L) :
  AllFit ctx M U
  := fun M' hM' => h M' (hM'.trans hM)

/-- What does not fit up to a layer does not fit up to a higher one. -/
theorem not_allFit_mono {L M : Nat} {U : Key × Cid → Prop} (hM : M ≤ L) :
  ¬ AllFit ctx M U → ¬ AllFit ctx L U
  := mt fun h => h.anti hM

/-- The excuses of a descent one level up. -/
theorem tooDeep_succ {depth M : Nat} {U : Key × Cid → Prop} :
  depth ≤ M ∨ ¬ AllFit ctx M U → depth + 1 ≤ M + 1 ∨ ¬ AllFit ctx (M + 1) U
  := Or.imp Nat.succ_le_succ (not_allFit_mono (Nat.le_succ M))

/-- The store has the node of a child list. -/
def Holds (S : BlockStore ctx.sha256) (children : List NodeEntry) : Prop :=
  ∃ node bytes, toNode children = .ok node ∧ ctx.codec.toBytes node = .ok bytes ∧
    S.blocks (nodeCid ctx children) = some bytes

theorem Holds.mono {S T : BlockStore ctx.sha256} {children : List NodeEntry}
    (h : Holds S children) (hST : S ≤ T) :
  Holds T children
  := by
  obtain ⟨node, bytes, hnode, hbytes, hget⟩ := h
  exact ⟨node, bytes, hnode, hbytes, hST _ _ hget⟩

theorem nodeCid_eq {children : List NodeEntry} {node : MstNode} {bytes : Bytes}
    (hnode : toNode children = .ok node) (hbytes : ctx.codec.toBytes node = .ok bytes) :
  nodeCid ctx children = computeCid ctx.sha256 bytes
  := by
  rw [nodeCid, hnode]
  simp only [hbytes]

namespace Within

variable {U : Key × Cid → Prop} {xs ys : List (Key × Cid)}

theorem left (h : Within U (xs ++ ys)) :
  Within U xs
  := ⟨h.sorted.left, fun x hx => h.mem x (List.mem_append_left ys hx)⟩

theorem right (h : Within U (xs ++ ys)) :
  Within U ys
  := ⟨h.sorted.right, fun x hx => h.mem x (List.mem_append_right xs hx)⟩

theorem append (hxs : Within U xs) (hys : Within U ys) (h : ∀ x ∈ xs, ∀ y ∈ ys, x.1 < y.1) :
  Within U (xs ++ ys)
  := by
  use hxs.sorted.append hys.sorted h
  intro x hx
  obtain hx | hx := List.mem_append.mp hx
  · exact hxs.mem x hx
  · exact hys.mem x hx

theorem singleton {x : Key × Cid} (h : U x) :
  Within U [x]
  := by
  use List.pairwise_singleton _ x
  intro y hy
  rwa [List.mem_singleton.mp hy]

theorem insert (h : Within U xs) {k : Key} {v : Cid} (hkv : U (k, v)) :
  Within U (SearchTree.insert k v xs)
  := by
  use h.sorted.insert k v
  intro x hx
  obtain hx | hx := List.mem_append.mp hx
  · exact h.mem x (mem_of_mem_below hx)
  · obtain rfl | hx := List.mem_cons.mp hx
    · exact hkv
    · exact h.mem x (mem_of_mem_above hx)

theorem erase (h : Within U xs) (k : Key) :
  Within U (SearchTree.erase k xs)
  := by
  use h.sorted.erase k
  intro x hx
  obtain hx | hx := List.mem_append.mp hx
  · exact h.mem x (mem_of_mem_below hx)
  · exact h.mem x (mem_of_mem_above hx)

end Within

/-! ### Loading and storing -/

section Store

variable {U : Key × Cid → Prop} {xs : List (Key × Cid)} {S : BlockStore ctx.sha256}

theorem shortKeys_canonicalEntries (hU : Short U) (L : Nat) (hxs : Within U xs) :
  ShortKeys (canonicalEntries ctx L xs)
  := by
  intro key value hmem
  have hx := (mem_of_leaf_mem_entries hmem).1
  exact hU (key, value) (hxs.mem _ hx)

theorem loadNode_spec (hctx : ctx.Sound) {cid : Cid} {node : MstNode} {bytes : Bytes}
    (hbytes : ctx.codec.toBytes node = .ok bytes) (hget : S.blocks cid = some bytes) :
  Action.Meets (loadNode ctx cid) S (fun node' _ => node' = node)
    (ctx.codec.fromBytes bytes ≠ .ok node)
  := by
  have hload : loadNode ctx cid S = ((ctx.codec.fromBytes bytes).mapError .deserialization, S) := by
    unfold loadNode
    rw [Action.bind_apply]
    simp only [Action.read, hget]
    rfl
  rw [Action.Meets, hload]
  use le_refl S
  cases hfrom : ctx.codec.fromBytes bytes with
  | ok node' => exact hctx.codec.round node node' bytes hbytes hfrom
  | error e =>
    intro hround
    cases hround

/-- Loading a canonical node gives the stored form of its child list. -/
theorem loadCanonical_spec (hctx : ctx.Sound) {L : Nat} (hxs : Within U xs)
    (hS : Holds S (canonicalEntries ctx L xs)) :
  Action.Meets (loadNode ctx (canonicalCid ctx L xs)) S
    (fun node _ => toNode (canonicalEntries ctx L xs) = .ok node) (¬ AllFit ctx L U)
  := by
  obtain ⟨node, bytes, hnode, hbytes, hget⟩ := hS
  apply (loadNode_spec hctx hbytes hget).mono
  · rintro _ _ _ rfl
    exact hnode
  · intro hne hfit
    obtain ⟨node', bytes', hnode', hbytes', hfrom⟩ := hfit L (le_refl L) xs hxs
    rw [hnode] at hnode'
    cases hnode'
    rw [hbytes] at hbytes'
    cases hbytes'
    exact hne hfrom

theorem loadEntries_spec (hctx : ctx.Sound) (hU : Short U) {L : Nat} (hxs : Within U xs)
    (hS : Holds S (canonicalEntries ctx L xs)) :
  Action.Meets (loadEntries ctx (canonicalCid ctx L xs)) S
    (fun children _ => children = canonicalEntries ctx L xs) (¬ AllFit ctx L U)
  := by
  apply (loadCanonical_spec hctx hxs hS).bind
  intro node T _ hnode
  have hshort : ShortKeys (canonicalEntries ctx L xs) := shortKeys_canonicalEntries hU L hxs
  exact Action.Meets.ofExcept (fromNode_of_toNode hnode hshort) rfl

theorem storeEntries_spec (hctx : ctx.Sound) {L : Nat} {children : List NodeEntry}
    (hxs : Within U xs) (hchildren : children = canonicalEntries ctx L xs) :
  Action.Meets (storeEntries ctx children) S
    (fun cid T => cid = canonicalCid ctx L xs ∧ Holds T (canonicalEntries ctx L xs))
    (¬ AllFit ctx L U)
  := by
  subst hchildren
  obtain ⟨node, hnode⟩ : ∃ node, toNode (canonicalEntries ctx L xs) = .ok node :=
    exists_toNode (spaced_entries L xs)
  cases hbytes : ctx.codec.toBytes node with
  | ok bytes =>
    have hcid := nodeCid_eq hnode hbytes
    have hstore : storeEntries ctx (canonicalEntries ctx L xs) S =
        (.ok (computeCid ctx.sha256 bytes), S.put bytes) := by
      simp only [storeEntries, storeNode, Action.bind_apply, Action.ofExcept, hnode, hbytes]
      rfl
    rw [Action.Meets, hstore]
    use BlockStore.le_put hctx.hash bytes S, hcid.symm, node, bytes, hnode, hbytes
    rw [hcid]
    exact Function.update_self _ _ _
  | error e =>
    have hstore : storeEntries ctx (canonicalEntries ctx L xs) S =
        (.error (.serialization e), S) := by
      simp only [storeEntries, storeNode, Action.bind_apply, Action.ofExcept, hnode, hbytes]
      rfl
    rw [Action.Meets, hstore]
    use le_refl S
    intro hfit
    obtain ⟨node', bytes', hnode', hbytes', -⟩ := hfit L (le_refl L) xs hxs
    rw [hnode] at hnode'
    cases hnode'
    rw [hbytes] at hbytes'
    cases hbytes'

end Store

end Atproto.Repo
