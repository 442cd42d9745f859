import Atproto.Dasl.Cbor.Serializer

/-!
# Values of the data model

A value of the IPLD data model, how it is serialized, and the visitor that builds one from
what the deserializer reads.  A byte string becomes a link when it is a CID with its
prefix, since the payload of tag 42 is visited as a byte string.
-/

namespace Atproto.Dasl

open Wire SearchTree

/-- A value of the data model.  The entries of a map are sorted by their keys. -/
inductive Ipld where
  | null
  | bool (value : Bool)
  | integer (value : Int)
  | float (bits : UInt64)
  | string (text : Text)
  | bytes (data : Bytes)
  | list (items : List Ipld)
  | map (entries : List (Text × Ipld))
  | link (cid : Cid)

variable (format : CidFormat)

/-! ### Serializing -/

namespace Ipld

/-- An integer in the type that holds it. -/
def serializeInteger (value : Int) : Except EncodeError Bytes :=
  if value ≥ 0 ∧ value ≤ 2 ^ 64 - 1 then .ok (encodeUnsigned value.toNat)
  else if value ≥ -2 ^ 63 ∧ value ≤ 2 ^ 63 - 1 then .ok (encodeInteger value)
  else encodeI128 value

mutual

/-- Serialize a value. -/
def serialize : Ipld → Except EncodeError Bytes
  | .null => .ok encodeNull
  | .bool value => .ok (encodeBool value)
  | .integer value => serializeInteger value
  | .float bits => encodeF64 bits
  | .string text => encodeText text
  | .bytes data => encodeBytes data
  | .list items => do
    let header ← encodeArrayHeader items.length
    let parts ← serializeItems items
    .ok (header ++ parts.flatten)
  | .map entries => do
    let entries ← serializeEntries entries
    endMap entries
  | .link cid => serializeCid format cid

/-- The elements of an array, one after another. -/
def serializeItems : List Ipld → Except EncodeError (List Bytes)
  | [] => .ok []
  | item :: items => do
    let part ← serialize item
    let parts ← serializeItems items
    .ok (part :: parts)

/-- The encoded keys and values of a map. -/
def serializeEntries : List (Text × Ipld) → Except EncodeError (List (Bytes × Bytes))
  | [] => .ok []
  | (key, value) :: entries => do
    let keyBytes ← encodeText key
    let valueBytes ← serialize value
    let rest ← serializeEntries entries
    .ok ((keyBytes, valueBytes) :: rest)

end

/-- The bytes of a value. -/
def toVec (value : Ipld) : Except EncodeError Bytes := serialize format value

/-! ### Deserializing -/

/-- The CID that a byte string looks like: it has the prefix and more, and is a CID. -/
def cidOfBytes (data : Bytes) : Option Cid :=
  if data.head? = some multibaseIdentity ∧ data.length > 1 then
    (Cid.fromDagCborBytes format data).toOption
  else none

/-- Visit a byte string, of tag 42 or not. -/
def visitByteBuf (data : Bytes) : Ipld :=
  match cidOfBytes format data with
  | some cid => .link cid
  | none => .bytes data

/-- The visitor that builds values. -/
def visitor : Visitor Ipld where
  bool := .bool
  integer := .integer
  float := .float
  string := .string
  byteBuf := visitByteBuf format
  unit := .null
  seq := .list
  map entries := .map (collect entries)

/-- The value of some bytes, in the default configuration. -/
def fromSlice (input : Bytes) : Except DecodeError Ipld :=
  Dasl.fromSlice
    (deserializeAny DecodeConfig.default format (visitor format) DecodeConfig.default.maxDepth) input

end Ipld

end Atproto.Dasl
