import Atproto.Repo.Commit
import Atproto.Repo.Diff
import Atproto.Repo.Store
import Atproto.Repo.Tree

/-!
# Verifying a commit from its blocks

A commit comes with a slice of blocks.  The tree is walked from the root that the commit signs
through the blocks of the slice, and each operation is looked up in that tree.  The walk says
that the tree is real, the lookups say that the operations describe it.
-/

namespace Atproto.Repo

open Atproto.Dasl Logic

/-- A block of a CAR, under the CID that it claims. -/
structure CarBlock where
  cid : Cid
  data : Bytes

/-- What a commit can be refused for. -/
inductive RepoError where
  | blockMismatch (claimed computed : Cid)
  | rootMissing (root : Cid)
  | blockMissing (cid : Cid)
  | opWithoutCid (action : RepoOpAction) (path : Text)
  | mst (error : MstError)
  | foreignDid (did accountDid : Text)
  | headMissing (cid : Cid)
  | headMalformed (cid : Cid) (error : DecodeError)
  | notACommit (cid : Cid) (error : DecodeError)
  | encode (error : EncodeError)
  | signature (reason : Text)
  /-- No error of the source: the loop does not end. -/
  | unfinished

variable {ctx : Context}

/-! ### The walk -/

/-- The data of a CID in a slice.  Of two blocks with one CID the last one counts. -/
def findBlock (blocks : List CarBlock) (cid : Cid) : Option Bytes :=
  (blocks.reverse.find? fun block => block.cid = cid).map CarBlock.data

/-- The CIDs that a node points to; a block that is no node points to nothing. -/
def nodeChildren (ctx : Context) (data : Bytes) : List Cid :=
  match ctx.codec.fromBytes data with
  | .error _ => []
  | .ok node =>
    node.left.toList ++ node.entries.flatMap fun entry => entry.value :: entry.tree.toList

/-- Walk from a stack of CIDs.  A CID outside the slice is accepted when there was a tree before.
The result says whether there was one. -/
@[grind =]
def walkSlice (ctx : Context) (prevData : Option Cid) (blocks : List CarBlock) :
    Nat → List Cid → List Cid → Bool → Except RepoError Bool
  | _, _, [], usedPrevData => .ok usedPrevData
  | 0, _, _ :: _, _ => .error .unfinished
  | fuel + 1, visited, cid :: stack, usedPrevData =>
    if cid ∈ visited then walkSlice ctx prevData blocks fuel visited stack usedPrevData
    else
      match findBlock blocks cid with
      | none =>
        if prevData.isNone then .error (.blockMissing cid)
        else walkSlice ctx prevData blocks fuel (cid :: visited) stack true
      | some data =>
        walkSlice ctx prevData blocks fuel (cid :: visited) ((nodeChildren ctx data).reverse ++ stack)
          usedPrevData

/-- More steps than a walk over the slice takes: each block is expanded once. -/
def walkFuel (ctx : Context) (blocks : List CarBlock) : Nat :=
  1 + (blocks.map fun block => (nodeChildren ctx block.data).length).sum

/-- What a walk found. -/
structure InductiveVerification where
  newRoot : Cid
  blocksConsumed : Nat
  usedPrevData : Bool

/-- Check that the blocks claim the CIDs of their data. -/
@[grind =]
def checkBlocks (sha256 : Bytes → Bytes) : List CarBlock → Except RepoError Unit
  | [] => .ok ()
  | block :: blocks =>
    let computed := computeCid sha256 block.data
    if computed ≠ block.cid then .error (.blockMismatch block.cid computed)
    else checkBlocks sha256 blocks

/-- Walk the tree of a commit through its slice. -/
def verifyInductive (ctx : Context) (prevData : Option Cid) (newRoot : Cid)
    (blocks : List CarBlock) : Except RepoError InductiveVerification := do
  checkBlocks ctx.sha256 blocks
  if (findBlock blocks newRoot).isNone then .error (.rootMissing newRoot)
  else do
    let usedPrevData ← walkSlice ctx prevData blocks (walkFuel ctx blocks) [] [newRoot] false
    .ok ⟨newRoot, blocks.length, usedPrevData⟩

theorem checkBlocks_eq_ok {sha256 : Bytes → Bytes} {blocks : List CarBlock} :
  checkBlocks sha256 blocks = .ok () ↔ ∀ block ∈ blocks, computeCid sha256 block.data = block.cid
  := by
  induction blocks with
  | nil => exact iff_of_true rfl fun _ h => absurd h List.not_mem_nil
  | cons block blocks ih =>
    rw [checkBlocks, List.forall_mem_cons, ← ih]
    split
    · rename_i hne
      exact iff_of_false nofun fun h => hne h.1
    · rename_i heq
      exact (and_iff_right (not_not.mp heq)).symm

theorem checkBlocks_ne_unfinished {sha256 : Bytes → Bytes} {blocks : List CarBlock} :
  checkBlocks sha256 blocks ≠ .error .unfinished
  := by
  induction blocks with
  | nil => nofun
  | cons block blocks ih =>
    rw [checkBlocks]
    split
    · nofun
    · exact ih

/-- What an accepted slice has passed. -/
theorem verifyInductive_eq_ok {prevData : Option Cid} {root : Cid} {blocks : List CarBlock}
    {result : InductiveVerification} :
  verifyInductive ctx prevData root blocks = .ok result ↔
    checkBlocks ctx.sha256 blocks = .ok () ∧ (findBlock blocks root).isSome = true ∧
      ∃ usedPrevData, walkSlice ctx prevData blocks (walkFuel ctx blocks) [] [root] false =
        .ok usedPrevData ∧ result = ⟨root, blocks.length, usedPrevData⟩
  := by
  rw [verifyInductive, bind_eq_ok]
  constructor
  · rintro ⟨u, hcheck, h⟩
    split at h
    · cases h
    · rename_i hroot
      obtain ⟨usedPrevData, hwalk, heq⟩ := bind_eq_ok.mp h
      refine ⟨hcheck, ?_, usedPrevData, hwalk, (Except.ok.inj heq).symm⟩
      exact Option.isSome_iff_ne_none.mpr (Option.isNone_iff_eq_none.not.mp hroot)
  · rintro ⟨hcheck, hroot, usedPrevData, hwalk, rfl⟩
    refine ⟨(), hcheck, ?_⟩
    rw [if_neg (Option.isNone_iff_eq_none.not.mpr (Option.isSome_iff_ne_none.mp hroot))]
    exact bind_eq_ok.mpr ⟨usedPrevData, hwalk, rfl⟩

theorem mem_of_findBlock {blocks : List CarBlock} {cid : Cid} {data : Bytes}
    (h : findBlock blocks cid = some data) :
  ∃ block ∈ blocks, block.cid = cid ∧ block.data = data
  := by
  obtain ⟨block, hfind, hdata⟩ := Option.map_eq_some_iff.mp h
  have hcid := List.find?_some hfind
  exact ⟨block, List.mem_reverse.mp (List.mem_of_find?_eq_some hfind), of_decide_eq_true hcid, hdata⟩

/-! ### What a walk that ends has seen -/

section Walk

variable {blocks : List CarBlock}

/-- A CID is linked from a root through the blocks of a slice. -/
inductive Reaches (ctx : Context) (blocks : List CarBlock) (root : Cid) : Cid → Prop
  | root : Reaches ctx blocks root root
  | child {cid child : Cid} {data : Bytes} (h : Reaches ctx blocks root cid)
    (hdata : findBlock blocks cid = some data) (hchild : child ∈ nodeChildren ctx data) :
    Reaches ctx blocks root child

/-- The CIDs that a CID of the slice links to are among some CIDs. -/
def Linked (ctx : Context) (blocks : List CarBlock) (cids : List Cid) (cid : Cid) : Prop :=
  ∃ data, findBlock blocks cid = some data ∧ ∀ child ∈ nodeChildren ctx data, child ∈ cids

/-- Without a tree before, a walk that ends has seen CIDs that are closed under links. -/
theorem walkSlice_closed {fuel : Nat} {visited stack : List Cid} {usedPrevData result : Bool}
    (h : walkSlice ctx none blocks fuel visited stack usedPrevData = .ok result)
    (hvisited : ∀ cid ∈ visited, Linked ctx blocks (visited ++ stack) cid) :
  ∃ seen, (∀ cid ∈ visited ++ stack, cid ∈ seen) ∧ ∀ cid ∈ seen, Linked ctx blocks seen cid
  := by
  have hmono : ∀ {cids cids' : List Cid} {cid : Cid}, (∀ x ∈ cids, x ∈ cids') →
      Linked ctx blocks cids cid → Linked ctx blocks cids' cid := by
    rintro cids cids' cid hsub ⟨data, hdata, hchildren⟩
    exact ⟨data, hdata, fun child hchild => hsub child (hchildren child hchild)⟩
  induction fuel generalizing visited stack usedPrevData with
  | zero =>
    cases stack with
    | nil => exact ⟨visited ++ [], fun _ h => h, fun cid hcid => hvisited cid (by simpa using hcid)⟩
    | cons cid stack => cases h
  | succ fuel ih =>
    cases stack with
    | nil => exact ⟨visited ++ [], fun _ h => h, fun cid hcid => hvisited cid (by simpa using hcid)⟩
    | cons cid stack =>
      rw [walkSlice] at h
      by_cases hseen : cid ∈ visited
      · rw [if_pos hseen] at h
        have hsub : ∀ x ∈ visited ++ cid :: stack, x ∈ visited ++ stack := by
          intro x hx
          rcases List.mem_append.mp hx with hx | hx
          · exact List.mem_append_left _ hx
          · rcases List.mem_cons.mp hx with rfl | hx
            · exact List.mem_append_left _ hseen
            · exact List.mem_append_right _ hx
        obtain ⟨seen, hall, hlinked⟩ := ih h fun x hx => hmono hsub (hvisited x hx)
        exact ⟨seen, fun x hx => hall x (hsub x hx), hlinked⟩
      · rw [if_neg hseen] at h
        cases hfind : findBlock blocks cid with
        | none =>
          rw [hfind] at h
          cases h
        | some data =>
          rw [hfind] at h
          have hsub : ∀ x ∈ visited ++ cid :: stack,
              x ∈ cid :: visited ++ ((nodeChildren ctx data).reverse ++ stack) := by
            intro x hx
            simp only [List.mem_append, List.mem_cons] at hx ⊢
            tauto
          obtain ⟨seen, hall, hlinked⟩ := ih h (by
            intro x hx
            rcases List.mem_cons.mp hx with rfl | hx
            · refine ⟨data, hfind, fun child hchild => ?_⟩
              simp only [List.mem_append, List.mem_reverse]
              exact .inr (.inl hchild)
            · exact hmono hsub (hvisited x hx))
          exact ⟨seen, fun x hx => hall x (hsub x hx), hlinked⟩

/-- Without a tree before, a walk that ends has found a block for every CID that is reached. -/
theorem walkSlice_reaches {fuel : Nat} {root : Cid} {usedPrevData result : Bool}
    (h : walkSlice ctx none blocks fuel [] [root] usedPrevData = .ok result) {cid : Cid}
    (hcid : Reaches ctx blocks root cid) :
  (findBlock blocks cid).isSome = true
  := by
  obtain ⟨seen, hall, hlinked⟩ := walkSlice_closed h fun _ h => absurd h List.not_mem_nil
  have hmem : cid ∈ seen := by
    induction hcid with
    | root => exact hall root List.mem_cons_self
    | child _ hdata hchild ih =>
      obtain ⟨data, hdata', hchildren⟩ := hlinked _ ih
      obtain rfl := Option.some.inj (hdata.symm.trans hdata')
      exact hchildren _ hchild
  obtain ⟨data, hdata, -⟩ := hlinked cid hmem
  rw [hdata]
  rfl

/-- The number of links in the blocks that were not expanded yet. -/
@[grind =]
def pendingLinks (ctx : Context) : List CarBlock → List Cid → Nat
  | [], _ => 0
  | block :: blocks, visited =>
    (if block.cid ∈ visited then 0 else (nodeChildren ctx block.data).length) +
      pendingLinks ctx blocks visited

theorem pendingLinks_nil :
  pendingLinks ctx blocks [] = (blocks.map fun block => (nodeChildren ctx block.data).length).sum
  := by
  induction blocks with
  | nil => rfl
  | cons block blocks ih =>
    rw [pendingLinks, ih, if_neg List.not_mem_nil]
    rfl

/-- Seeing a CID leaves at most as many links. -/
theorem pendingLinks_le (cid : Cid) (visited : List Cid) :
  pendingLinks ctx blocks (cid :: visited) ≤ pendingLinks ctx blocks visited
  := by
  induction blocks with
  | nil => exact le_rfl
  | cons block blocks ih =>
    rw [pendingLinks, pendingLinks]
    apply Nat.add_le_add _ ih
    by_cases hseen : block.cid ∈ visited
    · rw [if_pos hseen, if_pos (List.mem_cons_of_mem _ hseen)]
    · rw [if_neg hseen]
      split
      · exact Nat.zero_le _
      · exact le_rfl

/-- Expanding a block takes its links out of the ones that are pending. -/
theorem pendingLinks_cons {cid : Cid} {data : Bytes} {visited : List Cid}
    (hdata : findBlock blocks cid = some data) (hseen : cid ∉ visited) :
  pendingLinks ctx blocks (cid :: visited) + (nodeChildren ctx data).length ≤
    pendingLinks ctx blocks visited
  := by
  obtain ⟨block, hmem, rfl, rfl⟩ := mem_of_findBlock hdata
  clear hdata
  induction blocks with
  | nil => exact absurd hmem List.not_mem_nil
  | cons first blocks ih =>
    rw [pendingLinks, pendingLinks]
    rcases List.mem_cons.mp hmem with rfl | hmem
    · have hle : pendingLinks ctx blocks (block.cid :: visited) ≤ pendingLinks ctx blocks visited :=
        pendingLinks_le block.cid visited
      rw [if_pos List.mem_cons_self, if_neg hseen]
      omega
    · have hle := ih hmem
      have hfirst : (if first.cid ∈ block.cid :: visited then 0
          else (nodeChildren ctx first.data).length) ≤
          if first.cid ∈ visited then 0 else (nodeChildren ctx first.data).length := by
        by_cases hfirst : first.cid ∈ visited
        · rw [if_pos hfirst, if_pos (List.mem_cons_of_mem _ hfirst)]
        · rw [if_neg hfirst]
          split
          · exact Nat.zero_le _
          · exact le_rfl
      omega

/-- A walk with enough steps is never cut short. -/
theorem walkSlice_ne_unfinished {prevData : Option Cid} {fuel : Nat} {visited stack : List Cid}
    {usedPrevData : Bool} (hfuel : stack.length + pendingLinks ctx blocks visited ≤ fuel) :
  walkSlice ctx prevData blocks fuel visited stack usedPrevData ≠ .error .unfinished
  := by
  induction fuel generalizing visited stack usedPrevData with
  | zero =>
    cases stack with
    | nil => nofun
    | cons cid stack =>
      rw [List.length_cons] at hfuel
      omega
  | succ fuel ih =>
    cases stack with
    | nil => nofun
    | cons cid stack =>
      rw [List.length_cons] at hfuel
      rw [walkSlice]
      by_cases hseen : cid ∈ visited
      · rw [if_pos hseen]
        apply ih
        omega
      · rw [if_neg hseen]
        cases hfind : findBlock blocks cid with
        | none =>
          dsimp only
          split
          · nofun
          · apply ih
            have hle : pendingLinks ctx blocks (cid :: visited) ≤ pendingLinks ctx blocks visited :=
              pendingLinks_le cid visited
            omega
        | some data =>
          apply ih
          rw [List.length_append, List.length_reverse]
          have hlinks : pendingLinks ctx blocks (cid :: visited) + (nodeChildren ctx data).length ≤
              pendingLinks ctx blocks visited := pendingLinks_cons hfind hseen
          omega

/-- The walk from a root always ends. -/
theorem verifyInductive_ne_unfinished {prevData : Option Cid} {root : Cid} :
  verifyInductive ctx prevData root blocks ≠ .error .unfinished
  := by
  have hwalk : walkSlice ctx prevData blocks (walkFuel ctx blocks) [] [root] false ≠
      .error .unfinished := by
    apply walkSlice_ne_unfinished
    rw [pendingLinks_nil]
    exact le_rfl
  intro h
  rcases bind_eq_error.mp h with hcheck | ⟨u, -, h⟩
  · exact checkBlocks_ne_unfinished hcheck
  · split at h
    · cases h
    · rcases bind_eq_error.mp h with h | ⟨usedPrevData, -, h⟩
      · exact hwalk h
      · cases h

end Walk

/-! ### The operations -/

/-- The verdict on one operation. -/
structure OpInclusion where
  path : Text
  verified : Bool
  found : Option Cid

/-- The bytes before the first slash of a path. -/
def collectionOf (path : Text) : Bytes := path.bytes.takeWhile (· ≠ slash)

/-- The caller asks for the operation; an empty list asks for all. -/
def isTracked (collections : List Text) (op : RepoOp) : Bool :=
  collections.isEmpty || collections.any fun collection => collection.bytes = collectionOf op.path

/-- Look an operation up in the tree. -/
def opInclusion (mst : Mst ctx) (op : RepoOp) : Except RepoError OpInclusion := do
  let found ← (mst.get op.path).mapError .mst
  let verified ← (match op.action with
    | .delete => .ok found.isNone
    | action =>
      match op.cid with
      | none => .error (.opWithoutCid action op.path)
      | some expected => .ok (found = some expected))
  .ok ⟨op.path, verified, if verified then none else found⟩

/-- Look the tracked operations up in the tree. -/
def opInclusions (mst : Mst ctx) (collections : List Text) : List RepoOp →
    Except RepoError (List OpInclusion)
  | [] => .ok []
  | op :: ops =>
    if isTracked collections op then do
      let verdict ← opInclusion mst op
      let verdicts ← opInclusions mst collections ops
      .ok (verdict :: verdicts)
    else opInclusions mst collections ops

/-- The tree at a root over the blocks of a slice that claim the CIDs of their data. -/
def sliceTree (ctx : Context) (dataRoot : Cid) (blocks : List CarBlock) : Mst ctx :=
  Mst.fromRoot dataRoot (.ofBlocks (blocks.map CarBlock.data))

/-- Look the tracked operations up in the tree that a slice describes.  The walk has checked the
CIDs of the slice before. -/
def verifyOpInclusion (ctx : Context) (dataRoot : Cid) (ops : List RepoOp)
    (blocks : List CarBlock) (collections : List Text) : Except RepoError (List OpInclusion) :=
  if ops.any (isTracked collections) then
    opInclusions (sliceTree ctx dataRoot blocks) collections ops
  else .ok []

end Atproto.Repo
