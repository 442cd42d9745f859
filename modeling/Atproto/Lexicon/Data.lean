import Atproto.Json.Value
import Atproto.Lexicon.Syntax

/-!
# Values of the data model

A JSON value is read as a value of the data model.  Objects with a field `$bytes` or `$link` are
bytes and links, and objects of the type `blob` are blobs.
-/

namespace Atproto.Lexicon.Validation

open Atproto.Dasl Atproto.Repo SearchTree

/-- A reference to a blob.  It names its CID in a link, or in the older form in a field. -/
structure Blob where
  refLink : Option Text
  mimeType : Text
  size : Nat
  cid : Option Text

/-- The CID of a blob in either form. -/
def Blob.getCid (blob : Blob) : Option Text :=
  match blob.refLink with
  | some link => some link
  | none => blob.cid

/-- A value of the data model.  Of a floating-point number it is only known that it is one. -/
inductive DataValue where
  | null
  | boolean (value : Bool)
  | integer (value : Int)
  | float
  | string (value : Text)
  | bytes (base64 : Text)
  | link (cid : Text)
  | blob (value : Blob)
  | array (items : List DataValue)
  | object (fields : List (Text × DataValue))

/-- What is wrong with a schema or with a value of it. -/
inductive ValidationError where
  | schemaStructureInvalid (message : String)
  | schemaNotFound (nsid : Text)
  | expectedRecordSchema (got : String)
  | recordTypeMismatch (expected actual : Text)
  | recordMissingType (expected : Text)
  | typeMismatch (path : Text) (expected actual : String)
  | constMismatch (path expected actual : Text)
  | integerTooSmall (path : Text) (minimum actual : Int)
  | integerTooLarge (path : Text) (maximum actual : Int)
  | integerNotInEnum (path : Text) (value : Int) (allowed : List Int)
  | stringTooShort (path : Text) (minLength actual : Nat)
  | stringTooLong (path : Text) (maxLength actual : Nat)
  | stringTooFewGraphemes (path : Text) (minGraphemes actual : Nat)
  | stringTooManyGraphemes (path : Text) (maxGraphemes actual : Nat)
  | stringNotInEnum (path value : Text) (allowed : List Text)
  | stringFormatInvalid (error : DataValidationError)
  | bytesTooShort (path : Text) (minLength actual : Nat)
  | bytesTooLong (path : Text) (maxLength actual : Nat)
  | invalidBytesEncoding (path : Text)
  | arrayTooShort (path : Text) (minLength actual : Nat)
  | arrayTooLong (path : Text) (maxLength actual : Nat)
  | missingRequiredProperty (path property : Text)
  | unexpectedNull (path property : Text)
  | blobMimeTypeNotAccepted (path mimeType : Text) (accepted : List Text)
  | blobTooLarge (path : Text) (maxSize actual : Nat)
  | legacyBlobNotAllowed
  | unresolvedReference (refPath : Text)
  | recursiveReference (refPath : Text)
  | unionTypeNotInRefs (path typeMarker : Text) (allowed : List Text)
  | unionMissingType (path : Text) (refs : List Text)
  | invalidCid (value : Text)
  | dataModelInvalid (reason : Text)
  | invalidStringFormat (format : Text)
  | refDepthExceeded (path : Text) (maxDepth : Nat) (refPath : Text)
  | refStepBudgetExhausted (path : Text) (maxSteps : Nat)

/-- Options of a validation. -/
structure ValidateFlags where
  allowLegacyBlob : Bool
  allowLenientDatetime : Bool
  strictRecursiveValidation : Bool
  skipExternalRefs : Bool

namespace DataValue

/-- The name of the type of a value. -/
def typeName : DataValue → String
  | .null => "null"
  | .boolean _ => "boolean"
  | .integer _ => "integer"
  | .float => "float"
  | .string _ => "string"
  | .bytes _ => "bytes"
  | .link _ => "link"
  | .blob _ => "blob"
  | .array _ => "array"
  | .object _ => "object"

/-- The truth value of a boolean. -/
def asBoolean : DataValue → Option Bool
  | .boolean value => some value
  | _ => none

/-- The number of an integer. -/
def asInteger : DataValue → Option Int
  | .integer value => some value
  | _ => none

/-- The text of a string. -/
def asString : DataValue → Option Text
  | .string value => some value
  | _ => none

/-- The encoded text of bytes. -/
def asBytes : DataValue → Option Text
  | .bytes base64 => some base64
  | _ => none

/-- The CID of a link. -/
def asLink : DataValue → Option Text
  | .link cid => some cid
  | _ => none

def asBlob : DataValue → Option Blob
  | .blob value => some value
  | _ => none

/-- The items of an array. -/
def asArray : DataValue → Option (List DataValue)
  | .array items => some items
  | _ => none

/-- The fields of an object. -/
def asObject : DataValue → Option (List (Text × DataValue))
  | .object fields => some fields
  | _ => none

def isNull : DataValue → Bool
  | .null => true
  | _ => false

/-- The type that an object says it has. -/
def getType (value : DataValue) : Option Text :=
  (value.asObject.bind (lookup (textOf "$type"))).bind asString

end DataValue

/-! ### Reading JSON -/

/-- A number as a value. -/
def parseNumber (number : JsonNumber) : DataValue :=
  match number.integer with
  | some value => if value < 2 ^ 63 then .integer value else .float
  | none => .float

/-- The unsigned number of a JSON value that is one. -/
def asU64 : Json → Option Nat
  | .number (.posInt value) => some value.toNat
  | _ => none

/-- The link of a blob. -/
def parseBlobRef : Option Json → Except ValidationError (Option Text)
  | none => .ok none
  | some value =>
    match value.asObject with
    | none => .error (.dataModelInvalid (textOf "blob ref must be an object"))
    | some fields =>
      match (lookup (textOf "$link") fields).bind Json.asStr with
      | none => .error (.dataModelInvalid (textOf "blob ref must have $link field"))
      | some link => .ok (some link)

/-- An object of the type `blob`. -/
def parseBlob (flags : ValidateFlags) (fields : List (Text × Json)) :
    Except ValidationError DataValue :=
  match (lookup (textOf "mimeType") fields).bind Json.asStr with
  | none => .error (.dataModelInvalid (textOf "blob must have mimeType field"))
  | some mimeType =>
    match (lookup (textOf "size") fields).bind asU64 with
    | none => .error (.dataModelInvalid (textOf "blob must have size field"))
    | some size => do
      let refLink ← parseBlobRef (lookup (textOf "ref") fields)
      let cid := (lookup (textOf "cid") fields).bind Json.asStr
      if refLink.isNone && cid.isNone then
        .error (.dataModelInvalid (textOf "blob must have either ref or cid field"))
      else if cid.isSome && refLink.isNone && !flags.allowLegacyBlob then
        .error .legacyBlobNotAllowed
      else .ok (.blob ⟨refLink, mimeType, size, cid⟩)

/-- An object with one text in a field of its own. -/
def parseTagged (fields : List (Text × Json)) (only notString : Text) (value : Json)
    (make : Text → DataValue) : Except ValidationError DataValue :=
  if fields.length ≠ 1 then .error (.dataModelInvalid only)
  else
    match value.asStr with
    | none => .error (.dataModelInvalid notString)
    | some text => .ok (make text)

/-- An object that is bytes, a link or a blob, or that has a type that is none. -/
def parseSpecial (flags : ValidateFlags) (fields : List (Text × Json)) :
    Option (Except ValidationError DataValue) :=
  match lookup (textOf "$bytes") fields with
  | some value =>
    some (parseTagged fields (textOf "$bytes object must only have $bytes field")
      (textOf "$bytes value must be a string") value .bytes)
  | none =>
    match lookup (textOf "$link") fields with
    | some value =>
      some (parseTagged fields (textOf "$link object must only have $link field")
        (textOf "$link value must be a string") value .link)
    | none =>
      match lookup (textOf "$type") fields with
      | none => none
      | some value =>
        match value.asStr with
        | none => some (.error (.dataModelInvalid (textOf "$type value must be a string")))
        | some typeMarker =>
          if typeMarker.bytes = [] then
            some (.error (.dataModelInvalid (textOf "$type value must not be empty")))
          else if typeMarker = textOf "blob" then some (parseBlob flags fields)
          else none

/-- The key begins with a dollar sign and is not the one of the type. -/
def isUnknownKey (key : Text) : Bool :=
  key.bytes.head? = some 0x24 && key ≠ textOf "$type"

/-- The error for a key that begins with a dollar sign. -/
def unknownKey (key : Text) : ValidationError :=
  .dataModelInvalid (textOf "Unknown $ field '" ++ key ++
    textOf "' - only $type, $link, and $bytes are allowed")

mutual

/-- A JSON value as a value of the data model. -/
def parseJson (flags : ValidateFlags) : Json → Except ValidationError DataValue
  | .null => .ok .null
  | .bool value => .ok (.boolean value)
  | .number value => .ok (parseNumber value)
  | .string value => .ok (.string value)
  | .array items => do
    let values ← parseItems flags items
    .ok (.array values)
  | .object fields =>
    match parseSpecial flags fields with
    | some result => result
    | none => do
      let values ← parseFields flags fields
      .ok (.object values)

def parseItems (flags : ValidateFlags) : List Json → Except ValidationError (List DataValue)
  | [] => .ok []
  | item :: items => do
    let value ← parseJson flags item
    let values ← parseItems flags items
    .ok (value :: values)

def parseFields (flags : ValidateFlags) :
    List (Text × Json) → Except ValidationError (List (Text × DataValue))
  | [] => .ok []
  | (key, field) :: fields =>
    if isUnknownKey key then
      .error (unknownKey key)
    else do
      let value ← parseJson flags field
      let values ← parseFields flags fields
      .ok ((key, value) :: values)

end

mutual

/-- The number of values in a value, itself included. -/
def countValueNodes : DataValue → Nat
  | .null => 1
  | .boolean _ => 1
  | .integer _ => 1
  | .float => 1
  | .string _ => 1
  | .bytes _ => 1
  | .link _ => 1
  | .blob _ => 1
  | .array items => 1 + countItems items
  | .object fields => 1 + countFields fields

def countItems : List DataValue → Nat
  | [] => 0
  | item :: items => countValueNodes item + countItems items

def countFields : List (Text × DataValue) → Nat
  | [] => 0
  | (_, value) :: fields => countValueNodes value + countFields fields

end

end Atproto.Lexicon.Validation
