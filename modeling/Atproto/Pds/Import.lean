import Atproto.Car.Archive
import Atproto.Json.Convert
import Atproto.Pds.BlobRefs
import Atproto.Repo.Inductive
import Atproto.Repo.Walk

/-!
# Importing a repository

An archive is read whole, and the chain of commits that ends with its root is walked back as far
as the archive goes.  The chain is verified forward, its blocks and commits are stored, and the
records of the tree of the last commit are written into the index one by one, together with the
references of their values to blobs.
-/

namespace Atproto.Pds

open Atproto.Dasl Atproto.Repo Logic SearchTree

/-! ### The archive -/

/-- What an import can fail for. -/
inductive ImportError where
  | dasl (error : Car.CarError)
  | noRoots
  | tooLarge (total max : Nat)
  | repo (error : RepoError)
  | notACommit (root : Cid)
  | walk (error : MstError)

/-- An importer: the limit on the bytes of an archive, and the check of the signatures of a chain
against the log of the directory, when there is one. -/
structure Importer where
  maxBytes : Nat
  plcVerifier : Option (List Commit → Except ImportError Unit)

/-- What an import reports. -/
structure ImportOutcome where
  headCid : Cid
  headRev : Text
  blocksIngested : Nat
  commitsIndexed : Nat

variable {ctx : Context} (account : Account) (importer : Importer)

section Archive

variable {σ : Type} (sha256 : Bytes → Bytes) (format : CidFormat) (source : Wire.Source σ)

/-- Read the blocks of an archive up to the limit on their bytes. -/
def ingest (maxBytes : Nat) (r : Car.CarReader σ) (total : Nat) :
    Except ImportError (List CarBlock) :=
  match _h : r.nextBlock format sha256 source with
  | .error error => .error (.dasl error)
  | .ok none => .ok []
  | .ok (some (block, r')) =>
    let total := min (total + block.data.length) (2 ^ 64 - 1)
    if total > maxBytes then .error (.tooLarge total maxBytes)
    else (ingest maxBytes r' total).map fun blocks => ⟨block.cid, block.data⟩ :: blocks
termination_by r.config.limits.maxBlockCount - r.blocksRead
decreasing_by exact Car.nextBlock_decreases _h

/-- Walk the chain back from a commit, in front of those that were found already.  A chain of more
commits than there are blocks has come back to one of them. -/
def walkChain (format : CidFormat) (blocks : List CarBlock) :
    Nat → Cid → List Commit → Except RepoError (List Commit)
  | 0, _, _ => .error .unfinished
  | fuel + 1, cid, chain =>
    match findBlock blocks cid with
    -- Only the root has to be there; history is optional.
    | none => if chain.isEmpty then .error (.headMissing cid) else .ok chain
    | some data =>
      match Commit.fromBytes format data with
      | .error error =>
        if chain.isEmpty then .error (.headMalformed cid error) else .error (.notACommit cid error)
      | .ok commit =>
        match commit.prev with
        | none => .ok (commit :: chain)
        | some prev => walkChain format blocks fuel prev (commit :: chain)

/-- The chain of commits that ends with the head, the oldest one first. -/
def buildCommitChain (format : CidFormat) (blocks : List CarBlock) (head : Cid) :
    Except RepoError (List Commit) :=
  walkChain format blocks (blocks.length + 1) head []

end Archive

/-- Verify a chain forward, each commit against the tree of the one before. -/
def verifyChain (ctx : Context) (account : Account) (blocks : List CarBlock) :
    Option Cid → List Commit → Except ImportError Unit
  | _, [] => .ok ()
  | prevData, commit :: chain =>
    if commit.did ≠ account.did then .error (.repo (.foreignDid commit.did account.did))
    else do
      let _ ← (verifyInductive ctx prevData commit.data blocks).mapError .repo
      verifyChain ctx account blocks (some commit.data) chain

/-- An archive that was verified. -/
structure Verified where
  blocks : List CarBlock
  chain : List Commit
  head : Commit

/-- Check the signatures, when there is something to check them against. -/
def Importer.checkSignatures (importer : Importer) (chain : List Commit) :
    Except ImportError Unit :=
  match importer.plcVerifier with
  | none => .ok ()
  | some verify => verify chain

/-- Verify the blocks of an archive, from its root. -/
def verifyBlocks (ctx : Context) (root : Cid) (blocks : List CarBlock) :
    Except ImportError Verified := do
  let chain ← (buildCommitChain account.format blocks root).mapError .repo
  match chain.getLast? with
  | none => .error (.notACommit root)
  | some head => do
    verifyChain ctx account blocks none chain
    importer.checkSignatures chain
    .ok ⟨blocks, chain, head⟩

/-- Read and verify an archive. -/
def readVerified (ctx : Context) {σ : Type} (source : Wire.Source σ) (s : σ) :
    Except ImportError Verified := do
  let r ← (Car.CarReader.withConfig account.format source s .default).mapError .dasl
  match r.header.roots.head? with
  | none => .error .noRoots
  | some root => do
    let blocks ← ingest ctx.sha256 account.format source importer.maxBytes r 0
    verifyBlocks account importer ctx root blocks

/-! ### What is stored -/

/-- What is stored for a repository, with the references of its records to blobs. -/
structure PublicRealm (ctx : Context) where
  storage : Storage ctx
  blobRefs : BlobRefs

/-- Nothing is stored. -/
def PublicRealm.empty (ctx : Context) (backend : Backend) : PublicRealm ctx :=
  ⟨.empty ctx backend, .empty backend⟩

/-- Store a block, unless there is one under its CID. -/
def putNew {sha256 : Bytes → Bytes} (data : Bytes) (S : BlockStore sha256) : BlockStore sha256 :=
  if (S.blocks (computeCid sha256 data)).isSome then S else S.put data

/-- Store the blocks of an archive.  Their CIDs were checked. -/
def storeBlocks {sha256 : Bytes → Bytes} (blocks : List CarBlock) (S : BlockStore sha256) :
    BlockStore sha256 :=
  blocks.foldl (fun S block => putNew block.data S) S

/-- The CID of a commit. -/
def commitCid (ctx : Context) (account : Account) (commit : Commit) : Except ImportError Cid :=
  ((commit.toBytes account.format).map (computeCid ctx.sha256)).mapError fun error =>
    .repo (.encode error)

/-- The row of an imported commit. -/
def importedRow (cid : Cid) (commit : Commit) (prevData : Option Cid) : CommitRow where
  cid := cid
  rev := commit.rev
  dataCid := commit.data
  prevCid := commit.prev
  prevDataCid := prevData
  signature := commit.sig

/-- Insert a row; a duplicate that is refused does not count as a failure. -/
def insertCommit (row : CommitRow) (commits : CommitObjStorage) : CommitObjStorage :=
  match commits.insert row with
  | .ok commits' => commits'
  | .error _ => commits

/-- Insert the commits of a chain, each with the root before it. -/
def insertCommits (account : Account) :
    Option Cid → List Commit → Action ImportError (PublicRealm ctx) Unit
  | _, [] => pure ()
  | prevData, commit :: chain => do
    let cid ← Action.ofExcept (commitCid ctx account commit)
    Action.modify fun realm =>
      { realm with storage := { realm.storage with
        commits := insertCommit (importedRow cid commit prevData) realm.storage.commits } }
    insertCommits account (some commit.data) chain

/-- The blobs of a stored record; a record that is missing or does not decode has none. -/
def recordBlobs {sha256 : Bytes → Bytes} (forms : TextForms) (format : CidFormat)
    (blocks : BlockStore sha256) (cid : Cid) : List BlobRef :=
  match blocks.blocks cid with
  | none => []
  | some bytes =>
    match Ipld.fromSlice format bytes with
    | .error _ => []
    | .ok value => walkBlobRefs (jsonFromIpld forms value)

theorem slash_ascii :
  slash.toNat < 0x80
  := by decide

/-- The record that a key of the tree names. -/
def recordOfKey (key : Key) : Option (Text × Text) := key.splitOnce slash slash_ascii

/-- Write a record of the tree into the index; a key that names no record is skipped. -/
def indexRecord (forms : TextForms) (account : Account) (rev : Text) (realm : PublicRealm ctx)
    (pair : Key × Cid) : PublicRealm ctx :=
  match recordOfKey pair.1 with
  | none => realm
  | some record =>
    let uri := uriOf account.did record
    { storage := { realm.storage with
        records := realm.storage.records.upsert ⟨uri, pair.2, record.1, record.2, rev⟩ }
      blobRefs := realm.blobRefs.addRefs uri
        (recordBlobs forms account.format realm.storage.blocks pair.2) }

/-- Write the records of a tree into the index. -/
def indexRecords (forms : TextForms) (account : Account) (root : Cid) (rev : Text) :
    Action ImportError (PublicRealm ctx) Unit := do
  let pairs ← Action.read fun realm =>
    ((Mst.fromRoot root realm.storage.blocks).entries).mapError .walk
  Action.modify fun realm => pairs.foldl (indexRecord forms account rev) realm

/-- Store and index what was verified. -/
def importVerified (forms : TextForms) (verified : Verified) :
    Action ImportError (PublicRealm ctx) ImportOutcome := do
  Action.modify fun realm =>
    { realm with storage := { realm.storage with
      blocks := storeBlocks verified.blocks realm.storage.blocks } }
  insertCommits account none verified.chain
  let headCid ← Action.ofExcept (commitCid ctx account verified.head)
  indexRecords forms account verified.head.data verified.head.rev
  pure {
    headCid := headCid
    headRev := verified.head.rev
    blocksIngested := verified.blocks.length
    commitsIndexed := verified.chain.length }

/-- Import a repository from an archive. -/
def importFromStream (forms : TextForms) {σ : Type} (source : Wire.Source σ) (s : σ) :
    Action ImportError (PublicRealm ctx) ImportOutcome := do
  let verified ← Action.ofExcept (readVerified account importer ctx source s)
  importVerified account forms verified

end Atproto.Pds
