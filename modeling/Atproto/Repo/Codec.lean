import Atproto.Dasl.Cbor.Serializer
import Atproto.Repo.Canonical

/-!
# The bytes of nodes

A node is a map with two fields, and an entry is a map with four.  A missing child is
written as null.  The fields are read by name, in the order the deserializer asks for;
unknown fields are skipped.
-/

namespace Atproto.Repo

open Atproto.Dasl Wire CborTree

/-! ### Field names -/

/-- The text of a string. -/
def textOf (string : String) : Text where
  bytes := string.toByteArray.data.toList
  utf8 := string.isValidUTF8

def fieldE : Text := textOf "e"
def fieldK : Text := textOf "k"
def fieldL : Text := textOf "l"
def fieldP : Text := textOf "p"
def fieldT : Text := textOf "t"
def fieldV : Text := textOf "v"

example : KeyLess fieldE fieldL := by decide

variable (config : DecodeConfig) (format : CidFormat) {α : Type}

/-! ### Serializing -/

/-- The encoded name and value of a field. -/
def serializeField (name : Text) (value : Except EncodeError Bytes) :
    Except EncodeError (Bytes × Bytes) := do
  let key ← encodeText name
  let bytes ← value
  .ok (key, bytes)

/-- A number of 32 bits. -/
def encodeU32 (value : Nat) : Except EncodeError Bytes :=
  if value < 2 ^ 32 then .ok (encodeUnsigned value) else .error .unrepresentable

/-- An optional CID. -/
def serializeOption : Option Cid → Except EncodeError Bytes
  | none => .ok encodeNull
  | some cid => serializeCid format cid

/-- Serialize an entry. -/
def TreeEntry.serialize (entry : TreeEntry) : Except EncodeError Bytes := do
  let p ← serializeField fieldP (encodeU32 entry.prefixLen)
  let k ← serializeField fieldK (encodeBytes entry.keySuffix)
  let v ← serializeField fieldV (serializeCid format entry.value)
  let t ← serializeField fieldT (serializeOption format entry.tree)
  endMap [p, k, v, t]

/-- Serialize the entries of a node one after another. -/
def serializeTreeEntries : List TreeEntry → Except EncodeError (List Bytes)
  | [] => .ok []
  | entry :: entries => do
    let part ← entry.serialize format
    let parts ← serializeTreeEntries entries
    .ok (part :: parts)

/-- The array of the entries of a node. -/
def serializeEntryArray (entries : List TreeEntry) : Except EncodeError Bytes := do
  let header ← encodeArrayHeader entries.length
  let parts ← serializeTreeEntries format entries
  .ok (header ++ parts.flatten)

/-- Serialize a node. -/
def MstNode.serialize (node : MstNode) : Except EncodeError Bytes := do
  let l ← serializeField fieldL (serializeOption format node.left)
  let e ← serializeField fieldE (serializeEntryArray format node.entries)
  endMap [l, e]

/-! ### Deserializing -/

/-- The visitor that skips a value. -/
def ignoredAny : Visitor Unit where
  bool _ := ()
  integer _ := ()
  float _ := ()
  string _ := ()
  byteBuf _ := ()
  unit := ()
  seq _ := ()
  map _ := ()

/-- An item of another type than expected. -/
def typeMismatch (expected : String) (item : CborItem) : Decoder α :=
  Reader.fail (.typeMismatch expected item.typeName)

/-- A number of 32 bits. -/
def u32OfItem : CborItem → Decoder Nat
  | .unsigned value =>
    if value < 2 ^ 32 then pure value
    else Reader.fail (.deserialization s!"invalid value: integer `{value}`, expected u32")
  | .negative value => Reader.fail
      (.invalidCbor s!"negative integer {value} cannot be converted to unsigned")
  | item => typeMismatch "unsigned integer" item

/-- A byte string, or the bytes of a text. -/
def bytesOfItem : CborItem → Decoder Bytes
  | .bytes data => pure data
  | .text string => pure string.bytes
  | item => typeMismatch "bytes" item

/-- The CID after its tag. -/
def tagOfItem : CborItem → Decoder Cid
  | .tag number =>
    if number = cidTag then do
      let payload ← taggedCid config format
      pure payload.2
    else typeMismatch "tag 42 for CID" (.tag number)
  | item => typeMismatch "tag 42 for CID" item

def deserializeU32 : Decoder Nat := do
  let item ← decodeItem config
  u32OfItem item

def deserializeByteBuf : Decoder Bytes := do
  let item ← decodeItem config
  bytesOfItem item

def deserializeCid : Decoder Cid := do
  let item ← decodeItem config
  tagOfItem config format item

/-- Nothing for null, and a value otherwise. -/
def deserializeOption (value : Decoder α) : Decoder (Option α) := do
  let byte ← peekByte
  if byte = 0xf6 then do
    let _ ← decodeItem config
    pure none
  else do
    let found ← value
    pure (some found)

/-- Take the value of a field, unless it has one already. -/
def takeField (name : String) (current : Option α) (value : Decoder α) : Decoder α :=
  if current.isSome then Reader.fail (.deserialization s!"duplicate field `{name}`") else value

/-- The value of a field that has to be there. -/
def requireField (name : String) : Option α → Decoder α
  | some value => pure value
  | none => Reader.fail (.deserialization s!"missing field `{name}`")

/-- Enter the map of an item, one level down. -/
def mapOfItem (levels : Nat) (body : Nat → Nat → Decoder α) : CborItem → Decoder α
  | .map length => enter config (levelBelow levels) fun below => body below length
  | item => typeMismatch "map" item

/-- Enter the array of an item, one level down. -/
def arrayOfItem (levels : Nat) (body : Nat → Nat → Decoder α) : CborItem → Decoder α
  | .array length => enter config (levelBelow levels) fun below => body below length
  | item => typeMismatch "array" item

/-- The fields of an entry read so far. -/
structure EntryFields where
  prefixLen : Option Nat
  keySuffix : Option Bytes
  value : Option Cid
  tree : Option (Option Cid)

/-- Take a field of an entry. -/
def entryField (levels : Nat) (fields : EntryFields) (key : Text) : Decoder EntryFields :=
  if key = fieldP then do
    let value ← takeField "p" fields.prefixLen (deserializeU32 config)
    pure { fields with prefixLen := some value }
  else if key = fieldK then do
    let value ← takeField "k" fields.keySuffix (deserializeByteBuf config)
    pure { fields with keySuffix := some value }
  else if key = fieldV then do
    let value ← takeField "v" fields.value (deserializeCid config format)
    pure { fields with value := some value }
  else if key = fieldT then do
    let value ← takeField "t" fields.tree (deserializeOption config (deserializeCid config format))
    pure { fields with tree := some value }
  else do
    let _ ← deserializeAny config format ignoredAny levels
    pure fields

/-- The entry of its fields; a missing subtree is none. -/
def EntryFields.finish (fields : EntryFields) : Decoder TreeEntry := do
  let prefixLen ← requireField "p" fields.prefixLen
  let keySuffix ← requireField "k" fields.keySuffix
  let value ← requireField "v" fields.value
  pure { prefixLen := prefixLen, keySuffix := keySuffix, value := value,
         tree := fields.tree.getD none }

/-- The fields of an entry, in a map of the given length. -/
def entryFields (levels length : Nat) : Decoder TreeEntry := do
  let fields ← mapAccess config (entryField config format levels)
    { prefixLen := none, keySuffix := none, value := none, tree := none } none length
  fields.finish

/-- Deserialize an entry. -/
def TreeEntry.deserialize (levels : Nat) : Decoder TreeEntry := do
  let item ← decodeItem config
  mapOfItem config levels (entryFields config format) item

/-- Deserialize the entries of a node. -/
def deserializeEntries (levels : Nat) : Decoder (List TreeEntry) := do
  let item ← decodeItem config
  arrayOfItem config levels
    (fun below length => seqAccess (TreeEntry.deserialize config format below) length) item

/-- The fields of a node read so far. -/
structure NodeFields where
  left : Option (Option Cid)
  entries : Option (List TreeEntry)

/-- Take a field of a node. -/
def nodeField (levels : Nat) (fields : NodeFields) (key : Text) : Decoder NodeFields :=
  if key = fieldL then do
    let value ← takeField "l" fields.left (deserializeOption config (deserializeCid config format))
    pure { fields with left := some value }
  else if key = fieldE then do
    let value ← takeField "e" fields.entries (deserializeEntries config format levels)
    pure { fields with entries := some value }
  else do
    let _ ← deserializeAny config format ignoredAny levels
    pure fields

/-- The node of its fields; a missing left subtree is none. -/
def NodeFields.finish (fields : NodeFields) : Decoder MstNode := do
  let entries ← requireField "e" fields.entries
  pure { left := fields.left.getD none, entries := entries }

/-- The fields of a node, in a map of the given length. -/
def nodeFields (levels length : Nat) : Decoder MstNode := do
  let fields ← mapAccess config (nodeField config format levels) { left := none, entries := none }
    none length
  fields.finish

/-- Deserialize a node. -/
def MstNode.deserialize : Decoder MstNode := do
  let item ← decodeItem config
  mapOfItem config config.maxDepth (nodeFields config format) item

/-- The bytes of nodes, with a configuration of the decoder. -/
def nodeCodec : NodeCodec where
  toBytes := MstNode.serialize format
  fromBytes := fromSlice (MstNode.deserialize config format)

end Atproto.Repo
