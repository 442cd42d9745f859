import Atproto.Attestation.Verify

/-!
# Adding attestations to a record

An attestation is created or, when it exists already, checked, and is appended to the
signatures of the record: the metadata with their CID and signature, or a reference to the
proof record.
-/

namespace Atproto.Attestation

open Dasl Repo Identity SearchTree

variable (lib : Library) (resolvers : Resolvers)

/-! ### Signatures -/

/-- The normal form of a signature of 64 bytes. -/
def normalizeBytes (normalize : Bytes → Option Bytes) (signature : Bytes) :
    Except AttestationError Bytes :=
  if signature.length ≠ 64 then .error (.signatureLengthInvalid 64 signature.length)
  else okOr (.signatureLengthInvalid 64 signature.length) (normalize signature)

/-- The normal form of a signature. -/
def normalizeSignature (signature : Bytes) : KeyType → Except AttestationError Bytes
  | .p256Private => normalizeBytes lib.normalizeP256 signature
  | .p256Public => normalizeBytes lib.normalizeP256 signature
  | .k256Private => normalizeBytes lib.normalizeK256 signature
  | .k256Public => normalizeBytes lib.normalizeK256 signature
  | .p384Private => .error (.unsupportedKeyType .p384Private)
  | .p384Public => .error (.unsupportedKeyType .p384Public)
  | .ed25519Private => .error (.unsupportedKeyType .ed25519Private)
  | .ed25519Public => .error (.unsupportedKeyType .ed25519Public)

/-- Append a signature to the signatures of a record. -/
def appendSignatureToRecord (record : Fields) (signature : Json) :
    Except AttestationError Json := do
  let signatures ← extractSignatures record
  .ok (.object (insert signaturesField (.array (signatures ++ [signature])) record))

/-- A reference to a proof record. -/
def strongRef (uri : Text) (cid : Cid) : Json :=
  .object [(typeField, .string strongRefNsid), (cidField, .string (lib.cidToString cid)),
    (uriField, .string uri)]

/-! ### Creating -/

/-- The metadata with their CID and signature. -/
def inlineAttestation (metadata : Fields) (cid : Cid) (signature : Bytes) : Fields :=
  insert signatureField (.object [(bytesField, .string (lib.base64Encode signature))])
    (insert cidField (.string (lib.cidToString cid)) metadata)

/-- Sign a record and put the signature into it. -/
def createInlineAttestation (record metadata : AnyInput) (repository : Text) (key : KeyData) :
    Except AttestationError Json := do
  let cid ← createAttestationCid lib record metadata repository
  let recordObj ← okOr .recordMustBeObject (record.toObject lib)
  let metadataObj ← okOr .metadataMustBeObject (metadata.toObject lib)
  let raw ← (lib.sign key (lib.format.toBytes cid)).mapError .signatureCreationFailed
  let signature ← normalizeSignature lib raw key.keyType
  appendSignatureToRecord recordObj (.object (inlineAttestation lib metadataObj cid signature))

/-- The address of a proof record. -/
def proofUri (attestationRepository type recordKey : Text) : Text :=
  textOf "at://" ++ attestationRepository ++ textOf "/" ++ type ++ textOf "/" ++ recordKey

/-- Create a proof record under a fresh record key and put a reference to it into the record.
The address of the proof record is part of the result. -/
def createRemoteAttestation (record metadata : AnyInput)
    (repository attestationRepository recordKey : Text) :
    Except AttestationError (Json × Text × Json) := do
  let cid ← createAttestationCid lib record metadata repository
  let recordObj ← okOr .recordMustBeObject (record.toObject lib)
  let metadataObj ← okOr .metadataMustBeObject (metadata.toObject lib)
  let type ← okOr .metadataMissingType ((lookup typeField metadataObj).bind Json.asStr)
  let proof := Json.object (insert cidField (.string (lib.cidToString cid)) metadataObj)
  let proofCid ← createDagborCid lib proof
  let uri := proofUri attestationRepository type recordKey
  let attested ← appendSignatureToRecord recordObj (strongRef lib uri proofCid)
  .ok (attested, uri, proof)

/-! ### Appending -/

/-- Check a proof record and put a reference to it into the record. -/
def appendRemoteAttestation (record metadata : AnyInput) (repository attestationUri : Text) :
    Except AttestationError Json := do
  let cid ← createAttestationCid lib record metadata repository
  let metadataObj ← okOr .metadataMustBeObject (metadata.toObject lib)
  let claimed ← okOr (.signatureMissingField cidField) (stringField cidField metadataObj)
  if lib.cidToString cid ≠ claimed then
    .error (.remoteAttestationCidMismatch claimed (lib.cidToString cid))
  else do
    let proofCid ← createDagborCid lib (.object metadataObj)
    let recordObj ← okOr .recordMustBeObject (record.toObject lib)
    appendSignatureToRecord recordObj (strongRef lib attestationUri proofCid)

/-- Check a signature and put it into the record. -/
def appendInlineAttestation (record attestation : AnyInput) (repository : Text) :
    Except AttestationError Json := do
  let cid ← createAttestationCid lib record attestation repository
  let recordObj ← okOr .recordMustBeObject (record.toObject lib)
  let attestationObj ← okOr .metadataMustBeObject (attestation.toObject lib)
  let key ← okOr (.signatureMissingField keyField) (stringField keyField attestationObj)
  let keyData ← (resolvers.key key).mapError (.keyResolutionFailed key)
  let text ← okOr .signatureBytesFormatInvalid (signatureText (.object attestationObj))
  let bytes ← (lib.base64Decode text).mapError .signatureDecodingFailed
  (lib.keys.validate keyData bytes (lib.format.toBytes cid)).mapError .signatureValidationFailed
  appendSignatureToRecord recordObj (.object attestationObj)

end Atproto.Attestation
