import Atproto.Logic.Slots
import Atproto.Pds.RecordIndex

/-!
# References to blobs

A record refers to the blobs whose envelopes stand anywhere in its value.  A reference is a row
with the URI of the record and the CID of the blob.  In SQL the two are the key of the table; in
fjall they are joined by a zero byte and split again at the first one.
-/

namespace Atproto.Pds

open Atproto.Dasl Atproto.Repo Logic SearchTree

/-! ### Envelopes -/

/-- What an envelope says about a blob. -/
structure BlobRef where
  link : Text
  mimeType : Text
  size : UInt64
deriving DecidableEq

/-- The unsigned number of a value that is one. -/
def u64Of : Json → Option UInt64
  | .number (.posInt value) => some value
  | .number (.negInt _ _) => none
  | .number (.float _ _) => none
  | .null => none
  | .bool _ => none
  | .string _ => none
  | .array _ => none
  | .object _ => none

/-- The blob of an object that is a complete envelope. -/
def parseBlobEnvelope (fields : List (Text × Json)) : Option BlobRef := do
  if (lookup (textOf "$type") fields).bind Json.asStr ≠ some (textOf "blob") then none
  let reference ← lookup (textOf "ref") fields
  let referenceFields ← reference.asObject
  let linkValue ← lookup (textOf "$link") referenceFields
  let link ← linkValue.asStr
  if link.bytes.isEmpty then none
  let mimeValue ← lookup (textOf "mimeType") fields
  let mimeType ← mimeValue.asStr
  let sizeValue ← lookup (textOf "size") fields
  let size ← u64Of sizeValue
  some ⟨link, mimeType, size⟩

mutual

/-- The blobs of the envelopes in a value. -/
def walkBlobRefs : Json → List BlobRef
  | .object fields =>
    match parseBlobEnvelope fields with
    -- The fields of an envelope are not walked.
    | some blob => [blob]
    | none => walkFields fields
  | .array items => walkItems items
  | .null => []
  | .bool _ => []
  | .number _ => []
  | .string _ => []

def walkItems : List Json → List BlobRef
  | [] => []
  | item :: items => walkBlobRefs item ++ walkItems items

def walkFields : List (Text × Json) → List BlobRef
  | [] => []
  | (_, value) :: fields => walkBlobRefs value ++ walkFields fields

end

/-! ### Rows -/

/-- What a row has besides its key.  In SQL the size is the signed number with the same bits. -/
structure BlobColumns where
  mimeType : Text
  size : UInt64
deriving DecidableEq

/-- The references of a repository. -/
inductive BlobRefs where
  | sql (repoBlobRef : List ((Text × Text) × BlobColumns))
  | fjall (repoBlobRef : List (Text × BlobColumns))

/-- The key of a reference in fjall, without the DID in front. -/
def blobRefKey (ref : Text × Text) : Text := ref.1 ++ textOf "\x00" ++ ref.2

/-- The URI and the CID of a key. -/
def splitRefKey (key : Text) : Option (Text × Text) := key.splitOnce 0 (by decide)

namespace BlobRefs

/-- No references. -/
def empty : Backend → BlobRefs
  | .sql => .sql []
  | .fjall => .fjall []

/-- The rows as they are read. -/
def rows : BlobRefs → List ((Text × Text) × BlobColumns)
  | .sql repoBlobRef => repoBlobRef
  | .fjall repoBlobRef => repoBlobRef.filterMap fun (key, columns) =>
    (splitRefKey key).map fun ref => (ref, columns)

/-- Add a reference of a record to a blob, unless it is there. -/
def addRef (recordUri : Text) (blob : BlobRef) : BlobRefs → BlobRefs
  | .sql repoBlobRef => .sql (fill ((recordUri, blob.link), ⟨blob.mimeType, blob.size⟩) repoBlobRef)
  | .fjall repoBlobRef =>
    .fjall (fill (blobRefKey (recordUri, blob.link), ⟨blob.mimeType, blob.size⟩) repoBlobRef)

/-- Add references to blobs one after another. -/
def addRefs (recordUri : Text) (blobs : List BlobRef) (refs : BlobRefs) : BlobRefs :=
  blobs.foldl (fun refs blob => refs.addRef recordUri blob) refs

/-- Some row refers to the blob. -/
def refersTo (refs : BlobRefs) (cid : Text) : Bool := refs.rows.any fun row => row.1.2 = cid

/-- Drop the references of a record.  The result comes with the blobs that nothing refers to any
more. -/
def dropRefsForRecord (recordUri : Text) : BlobRefs → BlobRefs × List Text
  | .sql repoBlobRef =>
    let candidates := (repoBlobRef.filter fun row => row.1.1 = recordUri).map fun row => row.1.2
    let kept := BlobRefs.sql (repoBlobRef.filter fun row => row.1.1 ≠ recordUri)
    (kept, candidates.filter fun cid => !kept.refersTo cid)
  | .fjall repoBlobRef =>
    let start := recordUri.bytes ++ [0]
    let victims := repoBlobRef.filter fun row => start.isPrefixOf row.1.bytes
    let candidates := victims.filterMap fun row => (splitRefKey row.1).map Prod.snd
    let kept := BlobRefs.fjall (repoBlobRef.filter fun row => !start.isPrefixOf row.1.bytes)
    (kept, candidates.eraseDups.filter fun cid => !kept.refersTo cid)

end BlobRefs

/-! ### The references of written records -/

/-- The blobs that an operation refers to. -/
def WriteOp.blobs (op : WriteOp) : List BlobRef :=
  match op.action, op.value with
  | .delete, _ => []
  | .create, none => []
  | .create, some value => walkBlobRefs value
  | .update, none => []
  | .update, some value => walkBlobRefs value

/-- Keep the references of a record after an operation on it. -/
def maintainOne (did : Text) (op : WriteOp) (refs : BlobRefs) : BlobRefs :=
  let uri := recordUri did op.collection op.rkey
  match op.action with
  | .create => refs.addRefs uri op.blobs
  | .update => (refs.dropRefsForRecord uri).1.addRefs uri op.blobs
  | .delete => (refs.dropRefsForRecord uri).1.addRefs uri op.blobs

/-- Keep the references after the operations of a batch. -/
def maintainBlobRefs (did : Text) (ops : List WriteOp) (refs : BlobRefs) : BlobRefs :=
  ops.foldl (fun refs op => maintainOne did op refs) refs

/-! ### Keys -/

theorem bytes_blobRefKey (ref : Text × Text) :
  (blobRefKey ref).bytes = ref.1.bytes ++ 0 :: ref.2.bytes
  := by
  rw [blobRefKey, Text.bytes_append, Text.bytes_append, List.append_assoc]
  rfl

/-- A key is read back when the URI has no zero byte. -/
theorem splitRefKey_eq_some {key : Text} {ref : Text × Text} :
  splitRefKey key = some ref ↔ 0 ∉ ref.1.bytes ∧ key = blobRefKey ref
  := by
  constructor
  · intro h
    rw [splitRefKey] at h
    by_cases hzero : (0 : UInt8) ∈ key.bytes
    · obtain ⟨before, after, hbytes, hbefore⟩ := Text.exists_split (by decide) hzero
      rw [Text.splitOnce_eq_some hbytes hbefore] at h
      cases h
      refine ⟨hbefore, Text.ext ?_⟩
      rw [bytes_blobRefKey]
      exact hbytes
    · rw [Text.splitOnce, dif_neg hzero] at h
      cases h
  · rintro ⟨hzero, rfl⟩
    exact Text.splitOnce_eq_some (bytes_blobRefKey ref) hzero

theorem blobRefKey_inj {a b : Text × Text} (ha : 0 ∉ a.1.bytes) (hb : 0 ∉ b.1.bytes)
    (h : blobRefKey a = blobRefKey b) :
  a = b
  := by
  have hsplit := splitRefKey_eq_some.mpr ⟨ha, rfl⟩
  rw [h, splitRefKey_eq_some.mpr ⟨hb, rfl⟩] at hsplit
  exact (Option.some.inj hsplit).symm

namespace BlobRefs

/-- The URIs that can be read back. -/
def Readable : BlobRefs → Text × Text → Prop
  | .sql _, _ => True
  | .fjall _, ref => 0 ∉ ref.1.bytes

theorem mem_rows_fjall {repoBlobRef : List (Text × BlobColumns)}
    {row : (Text × Text) × BlobColumns} :
  row ∈ (fjall repoBlobRef).rows ↔
    row ∈ readBack (fun ref : Text × Text => 0 ∉ ref.1.bytes) blobRefKey repoBlobRef
  := by
  rw [rows, List.mem_filterMap]
  constructor
  · rintro ⟨⟨key, columns⟩, hmem, heq⟩
    obtain ⟨ref, hsplit, rfl⟩ := Option.map_eq_some_iff.mp heq
    obtain ⟨hzero, rfl⟩ := splitRefKey_eq_some.mp hsplit
    exact ⟨hzero, hmem⟩
  · rintro ⟨hzero, hmem⟩
    refine ⟨_, hmem, ?_⟩
    dsimp only
    rw [splitRefKey_eq_some.mpr ⟨hzero, rfl⟩]
    rfl

end BlobRefs

end Atproto.Pds
