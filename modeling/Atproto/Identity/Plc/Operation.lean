import Atproto.Identity.Key

/-!
# Operations of a DID

An operation of the audit log is signed: the signature is over the DAG-CBOR of the
operation without it, and the CID is that of the operation with it.
-/

namespace Atproto.Identity.Plc

open Atproto.Dasl Atproto.Repo

/-- The string of a text. -/
def string (text : Text) : String := String.ofByteArray ⟨text.bytes.toArray⟩ text.utf8

/-- Errors of operations and chains. -/
inductive PlcDidError where
  | invalidBase64Url (details : String)
  | invalidRotationKeys (details : String)
  | invalidVerificationMethods (details : String)
  | tooManyEntries (field : String) (max actual : Nat)
  | duplicateEntry (field : String) (value : Text)
  | dagCborEncodeFailed (error : EncodeError)
  | signatureVerificationFailed
  | invalidOperationType (details : String)
  | chainValidationFailed (details : String)
  | emptyChain
  | firstOperationNotGenesis
  | invalidPrev (details : String)
  | forkResolutionError (details : String)
deriving DecidableEq

/-- The type and the address of a service. -/
structure ServiceEndpoint where
  serviceType : Text
  endpoint : Text

/-- A signed operation. -/
inductive Operation where
  | plcOperation (rotationKeys : List Text) (verificationMethods : List (Text × Text))
      (alsoKnownAs : List Text) (services : List (Text × ServiceEndpoint)) (prev : Option Text)
      (sig : Text)
  | plcTombstone (prev : Text) (sig : Text)
  | legacyCreate (signingKey recoveryKey handle service : Text) (prev : Option Text) (sig : Text)

/-- An operation without its signature. -/
inductive UnsignedOperation where
  | plcOperation (rotationKeys : List Text) (verificationMethods : List (Text × Text))
      (alsoKnownAs : List Text) (services : List (Text × ServiceEndpoint)) (prev : Option Text)
  | plcTombstone (prev : Text)
  | legacyCreate (signingKey recoveryKey handle service : Text) (prev : Option Text)

/-! ### Serializing -/

/-- A field whose value is a text. -/
def textField (name : String) (value : Text) : Except EncodeError (Bytes × Bytes) :=
  serializeField (textOf name) (encodeText value)

/-- A text, or null. -/
def serializeTextOption : Option Text → Except EncodeError Bytes
  | none => .ok encodeNull
  | some text => encodeText text

/-- An array of texts. -/
def serializeTexts (texts : List Text) : Except EncodeError Bytes := do
  let header ← encodeArrayHeader texts.length
  let parts ← texts.mapM encodeText
  .ok (header ++ parts.flatten)

/-- A map from names. -/
def serializeNamed {α : Type} (serialize : α → Except EncodeError Bytes)
    (entries : List (Text × α)) : Except EncodeError Bytes := do
  let parts ← entries.mapM fun entry => serializeField entry.1 (serialize entry.2)
  endMap parts

def ServiceEndpoint.serialize (service : ServiceEndpoint) : Except EncodeError Bytes := do
  let serviceType ← textField "type" service.serviceType
  let endpoint ← textField "endpoint" service.endpoint
  endMap [serviceType, endpoint]

/-- The fields of an operation but for its signature.  A missing `prev` is written as null,
except for a legacy operation, which leaves it out. -/
def UnsignedOperation.fields :
    UnsignedOperation → Except EncodeError (List (Bytes × Bytes))
  | .plcOperation rotationKeys verificationMethods alsoKnownAs services prev => do
    let type ← textField "type" (textOf "plc_operation")
    let rotationKeys ← serializeField (textOf "rotationKeys") (serializeTexts rotationKeys)
    let verificationMethods ← serializeField (textOf "verificationMethods")
      (serializeNamed encodeText verificationMethods)
    let alsoKnownAs ← serializeField (textOf "alsoKnownAs") (serializeTexts alsoKnownAs)
    let services ← serializeField (textOf "services")
      (serializeNamed ServiceEndpoint.serialize services)
    let prev ← serializeField (textOf "prev") (serializeTextOption prev)
    .ok [type, rotationKeys, verificationMethods, alsoKnownAs, services, prev]
  | .plcTombstone prev => do
    let type ← textField "type" (textOf "plc_tombstone")
    let prev ← textField "prev" prev
    .ok [type, prev]
  | .legacyCreate signingKey recoveryKey handle service prev => do
    let type ← textField "type" (textOf "create")
    let signingKey ← textField "signingKey" signingKey
    let recoveryKey ← textField "recoveryKey" recoveryKey
    let handle ← textField "handle" handle
    let service ← textField "service" service
    let prev ← prev.toList.mapM (textField "prev")
    .ok ([type, signingKey, recoveryKey, handle, service] ++ prev)

/-- The bytes that are signed. -/
def UnsignedOperation.toVec (operation : UnsignedOperation) : Except EncodeError Bytes := do
  let fields ← operation.fields
  endMap fields

namespace Operation

/-- The operation without its signature. -/
def unsigned : Operation → UnsignedOperation
  | .plcOperation rotationKeys verificationMethods alsoKnownAs services prev _ =>
    .plcOperation rotationKeys verificationMethods alsoKnownAs services prev
  | .plcTombstone prev _ => .plcTombstone prev
  | .legacyCreate signingKey recoveryKey handle service prev _ =>
    .legacyCreate signingKey recoveryKey handle service prev

/-- The CID of the operation before. -/
def prev : Operation → Option Text
  | .plcOperation _ _ _ _ prev _ => prev
  | .plcTombstone prev _ => some prev
  | .legacyCreate _ _ _ _ prev _ => prev

def signature : Operation → Text
  | .plcOperation _ _ _ _ _ sig => sig
  | .plcTombstone _ sig => sig
  | .legacyCreate _ _ _ _ _ sig => sig

/-- The rotation keys that the operation puts in force. -/
def rotationKeys : Operation → Option (List Text)
  | .plcOperation rotationKeys _ _ _ _ _ => some rotationKeys
  | _ => none

/-- An operation with nothing before it. -/
def isGenesis (operation : Operation) : Bool := operation.prev.isNone

/-- The operation that deletes the DID. -/
def isTombstone : Operation → Bool
  | .plcTombstone _ _ => true
  | _ => false

/-- Serialize an operation with its signature. -/
def toVec (operation : Operation) : Except EncodeError Bytes := do
  let fields ← operation.unsigned.fields
  let sig ← textField "sig" operation.signature
  endMap (fields ++ [sig])

end Operation

/-- What the operations are given: the libraries of keys, the hash function, the text form
of CIDs and the decoder of signatures. -/
structure Library extends KeyLibrary where
  sha256 : Bytes → Bytes
  cidText : Cid → Text
  base64urlDecode : Text → Except String Bytes

variable (library : Library)

namespace Operation

/-- The CID of an operation, as a text. -/
def cid (operation : Operation) : Except PlcDidError Text := do
  let bytes ← operation.toVec.mapError .dagCborEncodeFailed
  .ok (library.cidText (computeCid library.sha256 bytes))

/-- The bytes that the signature is over. -/
def unsignedBytes (operation : Operation) : Except PlcDidError Bytes :=
  operation.unsigned.toVec.mapError .dagCborEncodeFailed

/-- Check the signature under one of some keys. -/
def verify (operation : Operation) (rotationKeys : List KeyData) : Except PlcDidError Unit :=
  if rotationKeys.isEmpty then
    .error (.invalidRotationKeys "At least one rotation key is required for verification")
  else do
    let unsignedData ← operation.unsignedBytes
    let signature ← (library.base64urlDecode operation.signature).mapError .invalidBase64Url
    if rotationKeys.any fun key => (library.validate key signature unsignedData).isOk then .ok ()
    else .error .signatureVerificationFailed

end Operation

end Atproto.Identity.Plc
