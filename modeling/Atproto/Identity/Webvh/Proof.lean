import Atproto.Identity.Key
import Atproto.Identity.Webvh.Jcs

/-!
# Proofs of log entries

A proof is an Ed25519 signature over the canonical form of an entry without its proofs.  A
controller signs with one of the update keys, and witnesses sign with keys that have weights:
the weight of each valid proof is added up until a threshold is reached.
-/

namespace Atproto.Identity.Webvh

open Atproto.Dasl Atproto.Repo SearchTree

/-- Errors of logs. -/
inductive WebvhDidError where
  | logEntryParseFailed (line : Nat) (details : Text)
  | emptyLog
  | invalidVersionId (entry : Nat) (details : Text)
  | versionTimeNotMonotonic (entry : Nat)
  | scidVerificationFailed
  | entryHashVerificationFailed (entry : Nat)
  | proofVerificationFailed (entry : Nat) (details : Text)
  | preRotationKeyMismatch (entry : Nat)
  | invalidParameters (entry : Nat) (details : Text)
  | witnessVerificationFailed (entry : Nat) (details : Text)
  | documentExtractionFailed (details : Text)
  | invalidScidFormat (details : Text)
  | deactivatedDid (did : Text)
  | versionNotFound (details : Text)
  | versionTimeInFuture (entry : Nat) (versionTime : Text)
  | didDocIdMismatch (entry : Nat) (expected found : Text)
  | unsupportedHashAlgorithm (details : Text)
  | unknownParameter (entry : Nat) (parameter : Text)

/-- A proof of an entry. -/
structure DataIntegrityProof where
  type : Text
  cryptosuite : Text
  verificationMethod : Text
  created : Text
  proofPurpose : Text
  proofValue : Text

/-- A witness and what its approval weighs. -/
structure WitnessEntry where
  id : Text
  weight : Nat

/-- The witnesses and the weight that is required of them. -/
structure WitnessConfig where
  threshold : Nat
  witnesses : List WitnessEntry

/-- The libraries: multibase, the hash, Ed25519, and how a floating-point number is written. -/
structure WebvhLibrary where
  multibaseDecode : Bytes → Except String Bytes
  multibaseEncode : Bytes → Text
  sha256 : Bytes → Bytes
  verifyingKey : Bytes → Except String Unit
  verifySignature : Bytes → Bytes → Bytes → Except String Unit
  floatText : UInt64 → Bytes

variable (library : WebvhLibrary)

/-! ### Keys and signatures -/

/-- What follows the start of keys that are written as DIDs. -/
def stripDidKey (text : Text) : Option Text :=
  if h : didMethodKeyPrefix.bytes <+: text.bytes then
    some ⟨text.bytes.drop didMethodKeyPrefix.bytes.length, by
      obtain ⟨rest, hrest⟩ := h
      rw [← hrest, List.drop_left]
      exact Text.isUtf8_of_append (by decide) (hrest ▸ text.utf8)⟩
  else none

/-- The byte in front of a fragment. -/
def numberSign : UInt8 := 0x23

/-- The key that a verification method names. -/
def extractMultikey (verificationMethod : Text) : Option Text :=
  let keyPart := match stripDidKey verificationMethod with
    | some stripped =>
      match stripped.splitOnce numberSign (by decide) with
      | some (key, _) => key
      | none => stripped
    | none => verificationMethod
  if keyPart.bytes = [] then none else some keyPart

/-- A byte in hexadecimal. -/
def hexByte (byte : UInt8) : Text := textOf "0x" ++
  ⟨[hexDigit (byte.toNat / 16), hexDigit (byte.toNat % 16)], isUtf8_of_ascii (by
    have hlt := byte.toNat_lt
    have hdigit : ∀ value, value < 16 → (hexDigit value).toNat < 0x80 := by decide
    rw [List.forall_mem_cons, List.forall_mem_singleton]
    exact ⟨hdigit _ (by omega), hdigit _ (Nat.mod_lt _ (by decide))⟩)⟩

/-- The public key that a multikey is. -/
def decodeEd25519Multikey (multikey : Text) : Except Text Bytes :=
  match library.multibaseDecode multikey.bytes with
  | .error error => .error (textOf "failed to decode multibase key: " ++ textOf error)
  | .ok decoded =>
    match decoded with
    | first :: second :: keyBytes =>
      if first ≠ 0xed ∨ second ≠ 0x01 then
        .error (textOf "unexpected multicodec prefix: [" ++ hexByte first ++ textOf ", " ++
          hexByte second ++ textOf "], expected Ed25519 [0xed, 0x01]")
      else if keyBytes.length ≠ 32 then
        .error (textOf "invalid Ed25519 public key length: expected 32, got " ++
          textOf (toString keyBytes.length))
      else .ok keyBytes
    | _ => .error (textOf "multikey too short")

/-- The signature that the value of a proof is. -/
def decodeProofValue (proofValue : Text) : Except Text Bytes :=
  (library.multibaseDecode proofValue.bytes).mapError fun error =>
    textOf "failed to decode proof value: " ++ textOf error

/-- Check a signature. -/
def verifyEd25519Signature (publicKey message signature : Bytes) : Except Text Unit := do
  (library.verifyingKey publicKey).mapError fun error =>
    textOf "invalid Ed25519 public key: " ++ textOf error
  if signature.length ≠ 64 then
    .error (textOf "invalid signature length: expected 64, got " ++
      textOf (toString signature.length))
  else
    (library.verifySignature publicKey message signature).mapError fun error =>
      textOf "Ed25519 signature verification failed: " ++ textOf error

/-- An entry without one of its fields. -/
def removeField (key : String) : Json → Json
  | .object fields => .object (erase (textOf key) fields)
  | .null => .null
  | .bool value => .bool value
  | .number value => .number value
  | .string value => .string value
  | .array items => .array items

/-- What is signed. -/
def signedBytes (entry : Json) : Bytes :=
  canonicalize library.floatText (removeField "proof" entry)

/-! ### Proofs of controllers -/

/-- Check a proof of an entry. -/
def verifyProof (entry : Json) (proof : DataIntegrityProof) (updateKeys : List Text)
    (entryIndex : Nat) : Except WebvhDidError Unit :=
  if proof.type ≠ textOf "DataIntegrityProof" then
    .error (.proofVerificationFailed entryIndex (textOf "unexpected proof type: " ++ proof.type))
  else if proof.cryptosuite ≠ textOf "eddsa-jcs-2022" then
    .error (.proofVerificationFailed entryIndex
      (textOf "unsupported cryptosuite: " ++ proof.cryptosuite))
  else
    match extractMultikey proof.verificationMethod with
    | none => .error (.proofVerificationFailed entryIndex
        (textOf "cannot extract multikey from verification method: " ++ proof.verificationMethod))
    | some multikey =>
      if !multikey.isIn updateKeys then
        .error (.proofVerificationFailed entryIndex
          (textOf "signing key " ++ multikey ++ textOf " not in update keys"))
      else do
        let publicKeyBytes ← (decodeEd25519Multikey library multikey).mapError
          (.proofVerificationFailed entryIndex)
        let signatureBytes ← (decodeProofValue library proof.proofValue).mapError
          (.proofVerificationFailed entryIndex)
        (verifyEd25519Signature library publicKeyBytes (signedBytes library entry)
          signatureBytes).mapError (.proofVerificationFailed entryIndex)

/-- Check the proofs of an entry one after another until one is valid; `lastError` is that of
the one before. -/
def verifyProofs (entry : Json) (updateKeys : List Text) (entryIndex : Nat)
    (lastError : WebvhDidError) : List DataIntegrityProof → Except WebvhDidError Unit
  | [] => .error lastError
  | proof :: proofs =>
    match verifyProof library entry proof updateKeys entryIndex with
    | .ok () => .ok ()
    | .error error => verifyProofs entry updateKeys entryIndex error proofs

/-- Check that one of the proofs of an entry is valid. -/
def verifyAnyProof (entry : Json) (proofs : List DataIntegrityProof) (updateKeys : List Text)
    (entryIndex : Nat) : Except WebvhDidError Unit :=
  verifyProofs library entry updateKeys entryIndex
    (.proofVerificationFailed entryIndex (textOf "no proofs present")) proofs

/-! ### Proofs of witnesses -/

/-- The witness that a key belongs to: the first one that is configured with the key, as a DID
or bare. -/
def findWitness (config : WitnessConfig) (multikey : Text) : Option WitnessEntry :=
  config.witnesses.find? fun witness =>
    witness.id = didMethodKeyPrefix ++ multikey ∨ witness.id = multikey

/-- The witness whose weight a proof adds, unless the proof is skipped. -/
def countedWitness (entry : Json) (config : WitnessConfig) (proof : DataIntegrityProof) :
    Option WitnessEntry :=
  if proof.type ≠ textOf "DataIntegrityProof" ∨ proof.cryptosuite ≠ textOf "eddsa-jcs-2022" then
    none
  else do
    let multikey ← extractMultikey proof.verificationMethod
    let witness ← findWitness config multikey
    let publicKeyBytes ← (decodeEd25519Multikey library multikey).toOption
    let signatureBytes ← (decodeProofValue library proof.proofValue).toOption
    (verifyEd25519Signature library publicKeyBytes (signedBytes library entry)
      signatureBytes).toOption
    some witness

/-- Add up the weights of the valid proofs, which wraps around at 64 bits, until the threshold
is reached.  The weight that was reached is the error. -/
def accumulateWeight (entry : Json) (config : WitnessConfig) :
    Nat → List DataIntegrityProof → Except Nat Unit
  | accumulatedWeight, [] => .error accumulatedWeight
  | accumulatedWeight, proof :: proofs =>
    match countedWitness library entry config proof with
    | none => accumulateWeight entry config accumulatedWeight proofs
    | some witness =>
      let accumulatedWeight := (accumulatedWeight + witness.weight) % 2 ^ 64
      if accumulatedWeight ≥ config.threshold then .ok ()
      else accumulateWeight entry config accumulatedWeight proofs

/-- Check the proofs of the witnesses. -/
def verifyWitnessProofs (entry : Json) (witnessProofs : List DataIntegrityProof)
    (config : WitnessConfig) (entryIndex : Nat) : Except WebvhDidError Unit :=
  if witnessProofs.isEmpty then
    .error (.witnessVerificationFailed entryIndex (textOf "no witness proofs provided"))
  else
    (accumulateWeight library entry config 0 witnessProofs).mapError fun accumulatedWeight =>
      .witnessVerificationFailed entryIndex (textOf "witness threshold not met: accumulated weight " ++
        textOf (toString accumulatedWeight) ++ textOf " < required threshold " ++
        textOf (toString config.threshold))

/-! ### Keys that were announced -/

/-- The text of a hash: the code of SHA-256, the length of the digest and the digest. -/
def computeMultihashBase58btc (data : Bytes) : Text :=
  library.multibaseEncode (0x12 :: 0x20 :: library.sha256 data)

/-- Check that one of the keys was announced. -/
def verifyPrerotation (currentUpdateKeys prevNextKeyHashes : List Text) (entryIndex : Nat) :
    Except WebvhDidError Unit :=
  if prevNextKeyHashes.isEmpty then .ok ()
  else if currentUpdateKeys.any fun key =>
      (computeMultihashBase58btc library key.bytes).isIn prevNextKeyHashes then .ok ()
  else .error (.preRotationKeyMismatch entryIndex)

end Atproto.Identity.Webvh
