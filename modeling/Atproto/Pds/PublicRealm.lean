import Atproto.Lexicon.Syntax
import Atproto.Repo.Commit
import Atproto.Repo.Store
import Atproto.Space.SetHash
import Mathlib.Logic.Function.Basic

/-!
# The storage of a repository

The commits of a repository are stored by CID, and the latest one is found by its revision.
The record index has one row for each record.  Both are kept either in SQL tables or in fjall
keyspaces, where the index has a second keyspace that finds the URI of a record.
-/

namespace Atproto.Pds

open Atproto.Dasl Atproto.Lexicon Atproto.Repo SearchTree

/-- What went wrong in the PDS.  Of the error below a storage error its cause is kept when it is
one of the tree. -/
inductive PdsError where
  | storage (doing : String)
  | mst (doing : String) (error : MstError)
  | notFound (what : Text)
  | invalidSwap (expected actual : Text)
  | authDenied (reason : Text)
  | invalidCollection (collection : Text) (error : DataValidationError)
  | invalidRkey (rkey : Text) (error : DataValidationError)
  | invalidRecord (reason : Text)
  | spaceNotFound (uri : Text)
  | notSpaceOwner (uri : Text)
  | unsupportedPolicy (value : Text)
  | space (error : Space.SpaceError)
  /-- No error of the source: the call panics. -/
  | panicked

/-- The two storages. -/
inductive Backend where
  | sql
  | fjall
deriving DecidableEq

/-! ### Commits -/

/-- A stored commit, with the root of its tree and the roots and commits before it. -/
structure CommitRow where
  cid : Cid
  rev : Text
  dataCid : Cid
  prevCid : Option Cid
  prevDataCid : Option Cid
  signature : Bytes

/-- The commits that are stored.  The SQL rows stand in the order in which they were inserted,
and the fjall CIDs in the order of their revisions. -/
inductive CommitObjStorage where
  | sql (commitObj : List CommitRow)
  | fjall (commitObj : Cid → Option CommitRow) (commitByRev : List (Text × Cid))

namespace CommitObjStorage

/-- No commits. -/
def empty : Backend → CommitObjStorage
  | .sql => .sql []
  | .fjall => .fjall (fun _ => none) []

/-- The row with the greatest revision, the last one among equals. -/
def latestRow (commitObj : List CommitRow) : Option CommitRow :=
  commitObj.foldl (fun best row =>
    match best with
    | none => some row
    | some other => if other.rev ≤ row.rev then some row else some other) none

/-- The latest commit. -/
def latest : CommitObjStorage → Option CommitRow
  | .sql commitObj => latestRow commitObj
  | .fjall commitObj commitByRev => do
    let (_, cid) ← commitByRev.getLast?
    commitObj cid

/-- The rows that are stored. -/
def Stored (row : CommitRow) : CommitObjStorage → Prop
  | .sql commitObj => row ∈ commitObj
  | .fjall commitObj _ => commitObj row.cid = some row

/-- Insert a commit.  In SQL a CID that is there already is refused; in fjall the row and the
CID of the revision are overwritten. -/
def insert (row : CommitRow) : CommitObjStorage → Except PdsError CommitObjStorage
  | .sql commitObj =>
    if commitObj.any fun other => other.cid = row.cid then .error (.storage "commit_obj insert")
    else .ok (.sql (commitObj ++ [row]))
  | .fjall commitObj commitByRev =>
    .ok (.fjall (Function.update commitObj row.cid (some row))
      (SearchTree.insert row.rev row.cid commitByRev))

end CommitObjStorage

/-! ### The record index -/

/-- A row of the record index. -/
structure RecordRow where
  uri : Text
  cid : Cid
  collection : Text
  rkey : Text
  rev : Text

/-- The path of a record in the tree. -/
def mstKey (collection rkey : Text) : Key := collection ++ textOf "/" ++ rkey

/-- The AT URI of a record. -/
def recordUri (did collection rkey : Text) : Text :=
  textOf "at://" ++ did ++ textOf "/" ++ mstKey collection rkey

/-- The key of the second keyspace, without the DID in front. -/
def byCollectionKey (collection rkey : Text) : Bytes := collection.bytes ++ 0 :: rkey.bytes

/-- The record index.  A SQL row is found by its collection and record key; its URI is made of
them, so that the other key of the table never conflicts.  In fjall it is found by its URI. -/
inductive RepoRecordStorage where
  | sql (repoRecord : Text × Text → Option RecordRow)
  | fjall (repoRecord : Text → Option RecordRow) (byCollection : Bytes → Option Text)

namespace RepoRecordStorage

/-- No records. -/
def empty : Backend → RepoRecordStorage
  | .sql => .sql fun _ => none
  | .fjall => .fjall (fun _ => none) (fun _ => none)

/-- There is a row for the record, with a CID. -/
def Row (collection rkey : Text) (cid : Cid) : RepoRecordStorage → Prop
  | .sql repoRecord => ∃ row, repoRecord (collection, rkey) = some row ∧ row.cid = cid
  | .fjall repoRecord _ => ∃ uri row, repoRecord uri = some row ∧ row.collection = collection ∧
      row.rkey = rkey ∧ row.cid = cid

/-- Write a row over the one of the same record. -/
def upsert (row : RecordRow) : RepoRecordStorage → RepoRecordStorage
  | .sql repoRecord => .sql (Function.update repoRecord (row.collection, row.rkey) (some row))
  | .fjall repoRecord byCollection =>
    let key := byCollectionKey row.collection row.rkey
    -- The row under another URI is dropped first.
    let cleared :=
      match byCollection key with
      | some priorUri =>
        if priorUri = row.uri then repoRecord else Function.update repoRecord priorUri none
      | none => repoRecord
    .fjall (Function.update cleared row.uri (some row)) (Function.update byCollection key row.uri)

/-- Write the rows of a commit, then remove its deleted records.  In SQL the URI of a row that is
there stays; in fjall the deleted records are looked up before anything is written. -/
def applyBatch (upserts : List RecordRow) (deletes : List (Text × Text)) :
    RepoRecordStorage → RepoRecordStorage
  | .sql repoRecord =>
    let written := upserts.foldl (fun table row =>
      let uri := ((table (row.collection, row.rkey)).map RecordRow.uri).getD row.uri
      Function.update table (row.collection, row.rkey) (some { row with uri := uri })) repoRecord
    .sql (deletes.foldl (fun table key => Function.update table key none) written)
  | .fjall repoRecord byCollection =>
    let pairs := deletes.filterMap fun (collection, rkey) =>
      (byCollection (byCollectionKey collection rkey)).map fun uri =>
        (uri, byCollectionKey collection rkey)
    let written := upserts.foldl (fun (table : Text → Option RecordRow) row =>
      Function.update table row.uri (some row)) repoRecord
    let found := upserts.foldl (fun (table : Bytes → Option Text) row =>
      Function.update table (byCollectionKey row.collection row.rkey) (some row.uri)) byCollection
    .fjall (pairs.foldl (fun table pair => Function.update table pair.1 none) written)
      (pairs.foldl (fun table pair => Function.update table pair.2 none) found)

end RepoRecordStorage

/-! ### Everything that is stored -/

variable (ctx : Context)

/-- What is stored for a repository. -/
structure Storage where
  blocks : BlockStore ctx.sha256
  commits : CommitObjStorage
  records : RepoRecordStorage

/-- Nothing is stored. -/
def Storage.empty (backend : Backend) : Storage ctx :=
  ⟨.empty, .empty backend, .empty backend⟩

/-- What a commit stores. -/
structure CommitBatch where
  commit : CommitRow
  commitBlock : Bytes
  recordUpserts : List RecordRow
  recordDeletes : List (Text × Text)

variable {ctx}

/-- Store a commit, its block and what it changes in the index, all or nothing. -/
def applyAtomicCommit (batch : CommitBatch) (storage : Storage ctx) :
    Except PdsError (Storage ctx) := do
  let commits ← storage.commits.insert batch.commit
  .ok {
    blocks := storage.blocks.put batch.commitBlock
    commits := commits
    records := storage.records.applyBatch batch.recordUpserts batch.recordDeletes }

end Atproto.Pds
