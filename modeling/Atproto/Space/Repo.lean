import Atproto.Logic.Action
import Atproto.Logic.Cursor
import Atproto.Logic.Machine
import Atproto.Record.Tid
import Atproto.Repo.Codec
import Atproto.SearchTree.Total
import Atproto.Space.SetHash
import Mathlib.Data.Char
import Mathlib.Data.Prod.Lex

/-!
# The repository of a space

A batch of operations is formatted against the stored records: the set hash loses the element
of each record that is replaced or deleted and gains the element of each new one, and one
oplog entry is made for each operation.  Then the prepared commit is stored, in memory or in
SQL tables.  The revision of a commit is a TID, and the oplog is read in the order of the
revisions.
-/

namespace Atproto.Space

open Atproto.Dasl Atproto.Record Atproto.Repo Logic SearchTree

/-- A revision, the text of a TID. -/
abbrev Rev : Type := List Char

/-- A collection and a record key, ordered lexicographically. -/
abbrev RecordKey : Type := Text ×ₗ Text

/-- The kind of an operation. -/
inductive OpAction where
  | create
  | update
  | delete
deriving DecidableEq

/-- The text of an action. -/
def OpAction.asStr : OpAction → Text
  | .create => textOf "create"
  | .update => textOf "update"
  | .delete => textOf "delete"

/-- An operation of a batch.  A deletion has no CID and no value. -/
structure Op where
  action : OpAction
  collection : Text
  rkey : Text
  cid : Option Text
  value : Option Bytes

/-- The key of the record that an operation is on. -/
def Op.key (op : Op) : RecordKey := toLex (op.collection, op.rkey)

/-- A record. -/
structure RecordRow where
  collection : Text
  rkey : Text
  cid : Text
  value : Bytes
  repoRev : Rev
  indexedAt : Text

/-- The key of a record. -/
def RecordRow.key (row : RecordRow) : RecordKey := toLex (row.collection, row.rkey)

/-- An entry of the oplog.  The value is joined in when the oplog is read. -/
structure OplogEntry where
  rev : Rev
  idx : Nat
  action : Text
  collection : Option Text
  rkey : Option Text
  cid : Option Text
  prev : Option Text
  value : Option Bytes

/-- The oplog is ordered by revision and index. -/
def OplogEntry.key (entry : OplogEntry) : Rev ×ₗ Nat := toLex (entry.rev, entry.idx)

/-- A change of one record. -/
inductive RecordChange where
  | create (row : RecordRow)
  | update (row : RecordRow) (priorCid : Text)
  | delete (collection rkey priorCid : Text)

/-- What a commit changes. -/
structure PreparedCommitRecords where
  newSetHash : Bytes
  rev : Rev
  recordChanges : List RecordChange
  oplogEntries : List OplogEntry

/-- What is stored for a space: the records, the oplog, and the set hash and the revision of
the last commit. -/
structure SpaceStore where
  records : List (RecordKey × RecordRow)
  oplog : List OplogEntry
  setHash : Option Bytes
  rev : Option Rev

/-- A space without records. -/
def SpaceStore.empty : SpaceStore := ⟨[], [], none, none⟩

/-- The row of a record. -/
def SpaceStore.getRecord (store : SpaceStore) (key : RecordKey) : Option RecordRow :=
  lookup key store.records

/-- The set hash that is stored. -/
def SpaceStore.loadHash (store : SpaceStore) : Except SpaceError LtHash :=
  match store.setHash with
  | some bytes => LtHash.fromStateBytes bytes
  | none => .ok LtHash.empty

/-! ### Formatting a commit -/

variable (blake3 : Bytes → Fin stateLength → UInt8)

/-- The first operation on a key that was named before. -/
def firstDuplicate : List RecordKey → List Op → Option Op
  | _, [] => none
  | seen, op :: ops => if op.key ∈ seen then some op else firstDuplicate (op.key :: seen) ops

/-- The hash, the changes and the oplog entries gathered so far. -/
structure Draft where
  hash : LtHash
  changes : List RecordChange
  entries : List OplogEntry

/-- The value of an optional field that an action needs. -/
def required {α : Type} (reason : String) (field : Option α) : Except SpaceError α :=
  match field with
  | some value => .ok value
  | none => .error (.contextEncoding reason)

/-- The oplog entry of an operation. -/
def Op.entry (op : Op) (rev : Rev) (idx : Nat) (cid prev : Option Text) : OplogEntry where
  rev := rev
  idx := idx % 2 ^ 32
  action := op.action.asStr
  collection := op.collection
  rkey := op.rkey
  cid := cid
  prev := prev
  value := none

/-- The row that an operation writes. -/
def Op.row (op : Op) (rev : Rev) (now cid : Text) (value : Bytes) : RecordRow where
  collection := op.collection
  rkey := op.rkey
  cid := cid
  value := value
  repoRev := rev
  indexedAt := now

/-- Format one operation against the row stored for its record. -/
def formatOp (rev : Rev) (now : Text) (prior : Option RecordRow) (idx : Nat) (op : Op)
    (draft : Draft) : Except SpaceError Draft :=
  match op.action, prior with
  | .create, some _ => .error (.recordAlreadyExists op.collection op.rkey)
  | .create, none => do
    let cid ← required "create requires cid" op.cid
    let value ← required "create requires value" op.value
    .ok {
      hash := LtHash.add blake3 draft.hash (recordElementBytes op.collection op.rkey cid)
      changes := draft.changes ++ [.create (op.row rev now cid value)]
      entries := draft.entries ++ [op.entry rev idx (some cid) none] }
  | .update, none => .error (.recordNotFound op.collection op.rkey)
  | .update, some row => do
    let cid ← required "update requires cid" op.cid
    let value ← required "update requires value" op.value
    .ok {
      hash := LtHash.add blake3
        (LtHash.remove blake3 draft.hash (recordElementBytes op.collection op.rkey row.cid))
        (recordElementBytes op.collection op.rkey cid)
      changes := draft.changes ++ [.update (op.row rev now cid value) row.cid]
      entries := draft.entries ++ [op.entry rev idx (some cid) (some row.cid)] }
  | .delete, none => .error (.recordNotFound op.collection op.rkey)
  | .delete, some row =>
    .ok {
      hash := LtHash.remove blake3 draft.hash (recordElementBytes op.collection op.rkey row.cid)
      changes := draft.changes ++ [.delete op.collection op.rkey row.cid]
      entries := draft.entries ++ [op.entry rev idx none (some row.cid)] }

/-- Format the operations from an index on. -/
def formatOps (store : SpaceStore) (rev : Rev) (now : Text) :
    Nat → List Op → Draft → Except SpaceError Draft
  | _, [], draft => .ok draft
  | idx, op :: ops, draft => do
    let draft ← formatOp blake3 rev now (store.getRecord op.key) idx op draft
    formatOps store rev now (idx + 1) ops draft

/-- The prepared commit of a draft. -/
def Draft.prepare (draft : Draft) (rev : Rev) : PreparedCommitRecords where
  newSetHash := LtHash.stateBytes draft.hash
  rev := rev
  recordChanges := draft.changes
  oplogEntries := draft.entries

/-- Format a batch.  The revision is issued from the clock and random bits after the batch was
checked for duplicate keys and the set hash was read. -/
def formatCommit (store : SpaceStore) (last : Tid.LastTid) (timestampMicros random : Nat)
    (now : Text) (ops : List Op) : Tid.LastTid × Except SpaceError PreparedCommitRecords :=
  match firstDuplicate [] ops with
  | some op => (last, .error (.duplicateKeyInBatch op.collection op.rkey))
  | none =>
    match store.loadHash with
    | .error error => (last, .error error)
    | .ok hash =>
      match Tid.newWithTime last timestampMicros random with
      | none => (last, .error .panicked)
      | some (tid, last) =>
        (last, (·.prepare tid.encode) <$>
          formatOps blake3 store tid.encode now 0 ops ⟨hash, [], []⟩)

/-! ### Storing a commit -/

/-- The two storages of the records of a space. -/
inductive Backend where
  | memory
  | sql
deriving DecidableEq

/-- Change a record.  In SQL a row is only inserted where there is none and only updated where
there is one. -/
def RecordChange.apply (backend : Backend) (change : RecordChange)
    (records : List (RecordKey × RecordRow)) :
    Except SpaceError (List (RecordKey × RecordRow)) :=
  match backend, change with
  | .memory, .create row => .ok (insert row.key row records)
  | .memory, .update row _ => .ok (insert row.key row records)
  | .memory, .delete collection rkey _ => .ok (erase (toLex (collection, rkey)) records)
  | .sql, .create row =>
    if (lookup row.key records).isSome then .error (.storage "apply_commit insert")
    else .ok (insert row.key row records)
  | .sql, .update row _ =>
    if (lookup row.key records).isSome then .ok (insert row.key row records) else .ok records
  | .sql, .delete collection rkey _ => .ok (erase (toLex (collection, rkey)) records)

/-- Change the records one after another. -/
def applyChanges (backend : Backend) : List RecordChange → List (RecordKey × RecordRow) →
    Except SpaceError (List (RecordKey × RecordRow))
  | [], records => .ok records
  | change :: changes, records => do
    let records ← change.apply backend records
    applyChanges backend changes records

/-- Write an oplog entry.  In SQL a missing column is written empty, and an entry with the same
revision and index fails. -/
def OplogEntry.write (backend : Backend) (entry : OplogEntry) (oplog : List OplogEntry) :
    Except SpaceError (List OplogEntry) :=
  match backend with
  | .memory => .ok (put OplogEntry.key entry oplog)
  | .sql =>
    if oplog.any fun other => other.key = entry.key then .error (.storage "apply_commit oplog")
    else
      let row :=
        { entry with
          collection := some (entry.collection.getD Text.empty)
          rkey := some (entry.rkey.getD Text.empty) }
      .ok (put OplogEntry.key row oplog)

/-- Write oplog entries one after another. -/
def writeEntries (backend : Backend) : List OplogEntry → List OplogEntry →
    Except SpaceError (List OplogEntry)
  | [], oplog => .ok oplog
  | entry :: entries, oplog => do
    let oplog ← entry.write backend oplog
    writeEntries backend entries oplog

/-- Store a prepared commit. -/
def applyCommit (backend : Backend) (commit : PreparedCommitRecords) (store : SpaceStore) :
    Except SpaceError SpaceStore := do
  let records ← applyChanges backend commit.recordChanges store.records
  let oplog ← writeEntries backend commit.oplogEntries store.oplog
  .ok ⟨records, oplog, some commit.newSetHash, some commit.rev⟩

/-! ### Reading the oplog -/

/-- The value of the record that an entry wrote, while it is the current one. -/
def SpaceStore.currentValue (store : SpaceStore) (entry : OplogEntry) : Option Bytes := do
  let collection ← entry.collection
  let rkey ← entry.rkey
  let row ← store.getRecord (toLex (collection, rkey))
  let cid ← entry.cid
  if row.cid = cid then some row.value else none

/-- An entry as it is read.  From SQL an empty collection or record key is none, and the value
is joined in. -/
def SpaceStore.readEntry (backend : Backend) (store : SpaceStore) (entry : OplogEntry) :
    OplogEntry :=
  match backend with
  | .memory => entry
  | .sql =>
    { entry with
      collection := entry.collection.filter (· ≠ Text.empty)
      rkey := entry.rkey.filter (· ≠ Text.empty)
      value := store.currentValue entry }

/-- The largest number of entries that is read at a time. -/
def pageSize (backend : Backend) (limit : Nat) : Nat :=
  match backend with
  | .memory => limit
  | .sql => max 1 (min limit 1000)

/-- Read oplog entries after a cursor. -/
def SpaceStore.readOplog (backend : Backend) (store : SpaceStore) (since : Option (Rev ×ₗ Nat))
    (limit : Nat) : List OplogEntry :=
  ((afterOption OplogEntry.key since store.oplog).take (pageSize backend limit)).map
    (store.readEntry backend)

end Atproto.Space
