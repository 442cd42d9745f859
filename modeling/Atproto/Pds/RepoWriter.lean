import Atproto.Json.Value
import Atproto.Pds.PublicRealm
import Atproto.Repo.Diff
import Atproto.Repo.Emptied

/-!
# The writer of a repository

A batch of operations becomes one signed commit: the operations are checked, applied to the tree
of the latest commit one after another, and the commit is stored together with the rows of the
record index.  What an operation does to the tree depends on the operations before it; the rows
of the index are gathered and written at the end.
-/

namespace Atproto.Pds

open Atproto.Dasl Atproto.Lexicon Atproto.Record Atproto.Repo Logic SearchTree

/-! ### Operations -/

/-- The kind of a write. -/
inductive WriteAction where
  | create
  | update
  | delete
deriving DecidableEq

/-- A write that is asked for.  The value is missing for a deletion. -/
structure WriteOp where
  action : WriteAction
  collection : Text
  rkey : Text
  value : Option Json
  swapRecord : Option Text

/-- The path of the record in the tree. -/
def WriteOp.mstKey (op : WriteOp) : Key := Pds.mstKey op.collection op.rkey

/-- Check a collection. -/
def checkCollection (collection : Text) : Except PdsError Unit :=
  (validateNsid collection).mapError (.invalidCollection collection)

/-- Check a record key. -/
def checkRkey (rkey : Text) : Except PdsError Unit :=
  (validateRecordKey rkey).mapError (.invalidRkey rkey)

/-- Make the type of a record agree with its collection. -/
def reconcileType (collection : Text) : Json → Except PdsError Json
  | .object fields =>
    match lookup (textOf "$type") fields with
    | none => .ok (.object (SearchTree.insert (textOf "$type") (.string collection) fields))
    | some (.string type) =>
      if type = collection then .ok (.object fields)
      else .error (.invalidRecord
        (textOf "record $type is " ++ type ++ textOf ", expected " ++ collection))
    | some _ => .error (.invalidRecord (textOf "record $type must be a string"))
  | _ => .error (.invalidRecord (textOf "record must be a JSON object"))

/-- Check an operation and complete its value. -/
def prepareOp (op : WriteOp) : Except PdsError WriteOp := do
  checkCollection op.collection
  checkRkey op.rkey
  match op.value with
  | some value => do
    let value ← reconcileType op.collection value
    .ok { op with value := some value }
  | none => .ok op

/-- Check the operations of a batch. -/
def prepareOps : List WriteOp → Except PdsError (List WriteOp)
  | [] => .ok []
  | op :: ops => do
    let op ← prepareOp op
    let ops ← prepareOps ops
    .ok (op :: ops)

/-! ### The tree -/

variable {ctx : Context}

/-- What the writer is given for a repository: its DID, the byte form and the text form of CIDs,
and the encoding of records. -/
structure Account where
  did : Text
  format : CidFormat
  cidText : Cid → Text
  recordBytes : Json → Except EncodeError Bytes

/-- The tree and what was gathered from the operations so far. -/
structure Draft (ctx : Context) where
  mst : Mst ctx
  diffs : List MstDiff
  recordRows : List (Text × Text × Cid)
  deleteRkeys : List (Text × Text)
  touchedKeys : List Key

/-- Store a block. -/
def putBlock (data : Bytes) : Action PdsError (Draft ctx) Unit :=
  Action.modify fun draft =>
    { draft with mst := { draft.mst with storage := draft.mst.storage.put data } }

/-- Look up a key. -/
def getKey (key : Key) : Action PdsError (Draft ctx) (Option Cid) :=
  Action.read fun draft => (draft.mst.get key).mapError (.mst "mst get")

/-- Give a key a value. -/
def insertKey (key : Key) (cid : Cid) : Action PdsError (Draft ctx) Unit := fun draft =>
  match draft.mst.insert key cid with
  | (.ok _, mst) => (.ok (), { draft with mst := mst })
  | (.error error, mst) => (.error (.mst "mst insert" error), { draft with mst := mst })

/-- Remove a key. -/
def deleteKey (key : Key) : Action PdsError (Draft ctx) Unit := fun draft =>
  match draft.mst.delete key with
  | (.ok _, mst) => (.ok (), { draft with mst := mst })
  | (.error error, mst) => (.error (.mst "mst delete" error), { draft with mst := mst })

/-- Check the record that the caller expects. -/
def checkSwapRecord (account : Account) (op : WriteOp) (prior : Option Cid) : Except PdsError Unit :=
  match op.swapRecord with
  | none => .ok ()
  | some expected =>
    if prior.map account.cidText = some expected then .ok ()
    else if op.action = .delete then
      .error (.authDenied (textOf "swapRecord mismatch on delete: " ++ op.mstKey))
    else
      let found := match prior with
        | none => textOf "None"
        | some cid => textOf "Some(\"" ++ account.cidText cid ++ textOf "\")"
      .error (.authDenied (textOf "swapRecord mismatch on " ++ op.mstKey ++ textOf ": expected " ++
        expected ++ textOf ", found " ++ found))

/-- Apply a creation or an update. -/
def applyWrite (account : Account) (op : WriteOp) : Action PdsError (Draft ctx) Unit := do
  let value ← Action.ofExcept (match op.value with
    | some value => .ok value
    | none => .error (.notFound (textOf "write " ++ op.mstKey ++ textOf " requires value")))
  let bytes ← Action.ofExcept ((account.recordBytes value).mapError fun _ => .storage "encode value")
  let cid := computeCid ctx.sha256 bytes
  putBlock bytes
  let prior ← getKey op.mstKey
  if op.action = .create ∧ prior.isSome then
    Action.throw (.notFound (textOf "record " ++ op.mstKey ++ textOf " already exists"))
  else do
    Action.ofExcept (checkSwapRecord account op prior)
    Action.modify fun draft => { draft with touchedKeys := draft.touchedKeys ++ [op.mstKey] }
    insertKey op.mstKey cid
    let diff := match prior with
      | some old => MstDiff.update op.mstKey old cid
      | none => MstDiff.add op.mstKey cid
    Action.modify fun draft =>
      { draft with
        recordRows := draft.recordRows ++ [(op.collection, op.rkey, cid)]
        diffs := draft.diffs ++ [diff] }

/-- Apply a deletion. -/
def applyDelete (account : Account) (op : WriteOp) : Action PdsError (Draft ctx) Unit := do
  match ← getKey op.mstKey with
  | none =>
    Action.throw (.notFound (textOf "record " ++ op.mstKey ++ textOf " not found for delete"))
  | some prior => do
    Action.ofExcept (checkSwapRecord account op (some prior))
    Action.modify fun draft => { draft with touchedKeys := draft.touchedKeys ++ [op.mstKey] }
    deleteKey op.mstKey
    Action.modify fun draft =>
      { draft with
        deleteRkeys := draft.deleteRkeys ++ [(op.collection, op.rkey)]
        diffs := draft.diffs ++ [.delete op.mstKey prior] }

/-- Apply an operation. -/
def applyOp (account : Account) (op : WriteOp) : Action PdsError (Draft ctx) Unit :=
  match op.action with
  | .create => applyWrite account op
  | .update => applyWrite account op
  | .delete => applyDelete account op

/-- Apply operations one after another. -/
def applyOps (account : Account) : List WriteOp → Action PdsError (Draft ctx) Unit
  | [] => pure ()
  | op :: ops => do
    applyOp account op
    applyOps account ops

/-- The root of the tree; a tree without keys is stored as an empty node. -/
def newRoot : Action PdsError (Draft ctx) Cid := fun draft =>
  match draft.mst.root with
  | some root => (.ok root, draft)
  | none =>
    match ctx.codec.toBytes MstNode.empty with
    | .error _ => (.error (.storage "encode empty MST node"), draft)
    | .ok bytes =>
      let mst := { draft.mst with storage := draft.mst.storage.put bytes }
      (.ok (computeCid ctx.sha256 bytes), { draft with mst := mst })

/-- Apply the operations of a batch; the result is the new root. -/
def draftRoot (account : Account) (ops : List WriteOp) : Action PdsError (Draft ctx) Cid := do
  applyOps account ops
  newRoot

/-- The tree of the commit before, or an empty one. -/
def openDraft (prior : Option CommitRow) (blocks : BlockStore ctx.sha256) : Draft ctx where
  mst :=
    match prior with
    | some row => Mst.fromRoot row.dataCid blocks
    | none => Mst.new blocks
  diffs := []
  recordRows := []
  deleteRkeys := []
  touchedKeys := []

/-! ### The commit -/

/-- What a write meets outside: the clock and random bits, the signing key, and whether the body of
the event can be built and the transaction commits. -/
structure Environment where
  timestampMicros : Nat
  random : Nat
  sign : Bytes → Except PdsError Bytes
  announces : Bool
  stores : Bool

/-- Refuse the write when the caller expects another commit. -/
def checkSwap (account : Account) (swapCommit : Option Text) (current : Option Cid) :
    Except PdsError Unit :=
  match swapCommit with
  | none => .ok ()
  | some expected =>
    if current.map account.cidText = some expected then .ok ()
    else .error (.invalidSwap expected ((current.map account.cidText).getD (textOf "none")))

/-- Build and sign a commit; the result comes with its bytes. -/
def signCommit (account : Account) (env : Environment) (root : Cid) (rev : Text) :
    Except PdsError (Commit × Bytes) := do
  let unsigned := UnsignedCommit.new account.did root rev none
  let signingBytes ← (unsigned.toBytes account.format).mapError fun _ =>
    .storage "encode unsigned commit"
  let sig ← env.sign signingBytes
  let signed := unsigned.sign sig
  let bytes ← (signed.toBytes account.format).mapError fun _ => .storage "encode signed commit"
  .ok (signed, bytes)

/-- The row of the index for a record that was written. -/
def indexRow (account : Account) (rev : Text) : Text × Text × Cid → RecordRow
  | (collection, rkey, cid) =>
    { uri := recordUri account.did collection rkey
      cid := cid
      collection := collection
      rkey := rkey
      rev := rev }

/-- What a commit of a draft stores. -/
def commitBatch (account : Account) (prior : Option CommitRow) (draft : Draft ctx) (root : Cid)
    (rev : Text) (signed : Commit) (bytes : Bytes) : CommitBatch where
  commit :=
    { cid := computeCid ctx.sha256 bytes
      rev := rev
      dataCid := root
      prevCid := prior.map CommitRow.cid
      prevDataCid := prior.map CommitRow.dataCid
      signature := signed.sig }
  commitBlock := bytes
  recordUpserts := draft.recordRows.map (indexRow account rev)
  recordDeletes := draft.deleteRkeys

/-- Sign, announce and store a draft. -/
def storeDraft (account : Account) (env : Environment) (prior : Option CommitRow)
    (draft : Draft ctx) (root : Cid) (rev : Text) (storage : Storage ctx) :
    Except PdsError (CommitBatch × Storage ctx) := do
  let (signed, bytes) ← signCommit account env root rev
  let batch := commitBatch account prior draft root rev signed bytes
  if ¬ env.announces then .error (.storage "build the body of the event")
  else if ¬ env.stores then .error (.storage "atomic commit")
  else do
    let storage ← applyAtomicCommit batch storage
    .ok (batch, storage)

/-- Write a batch over a commit.  The blocks that were stored stay when it fails.  The result is
the TID cell, what was stored, and the storage. -/
def writeOver (account : Account) (env : Environment) (prior : Option CommitRow)
    (ops : List WriteOp) (last : Tid.LastTid) (storage : Storage ctx) :
    Tid.LastTid × Except PdsError CommitBatch × Storage ctx :=
  match draftRoot account ops (openDraft prior storage.blocks) with
  | (.error error, draft) => (last, .error error, { storage with blocks := draft.mst.storage })
  | (.ok root, draft) =>
    let storage := { storage with blocks := draft.mst.storage }
    match Tid.newWithTime last env.timestampMicros env.random with
    | none => (last, .error .panicked, storage)
    | some (tid, last) =>
      match storeDraft account env prior draft root (revOf tid) storage with
      | .error error => (last, .error error, storage)
      | .ok (batch, storage) => (last, .ok batch, storage)

/-- Write a batch over the latest commit. -/
def commit (account : Account) (env : Environment) (ops : List WriteOp) (swapCommit : Option Text)
    (last : Tid.LastTid) (storage : Storage ctx) :
    Tid.LastTid × Except PdsError CommitBatch × Storage ctx :=
  match prepareOps ops with
  | .error error => (last, .error error, storage)
  | .ok ops =>
    let prior := storage.commits.latest
    match checkSwap account swapCommit (prior.map CommitRow.cid) with
    | .error error => (last, .error error, storage)
    | .ok () => writeOver account env prior ops last storage

/-- Write a batch that is not empty. -/
def applyWrites (account : Account) (env : Environment) (ops : List WriteOp)
    (swapCommit : Option Text) (last : Tid.LastTid) (storage : Storage ctx) :
    Tid.LastTid × Except PdsError CommitBatch × Storage ctx :=
  if ops.isEmpty then
    (last, .error (.notFound (textOf "applyWrites called with empty ops")), storage)
  else commit account env ops swapCommit last storage

end Atproto.Pds
