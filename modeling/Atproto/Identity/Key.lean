import Atproto.Repo.Codec

/-!
# Keys of an identity

A key is written in multibase, with two bytes in front that name its type.  The multibase
library and the libraries of the curves are given.
-/

namespace Atproto.Identity

open Atproto.Dasl Atproto.Repo

/-- The curve of a key, and which half of the pair it is. -/
inductive KeyType where
  | p256Public
  | p256Private
  | p384Public
  | p384Private
  | k256Public
  | k256Private
  | ed25519Public
  | ed25519Private
deriving DecidableEq

/-- A key and its type. -/
structure KeyData where
  keyType : KeyType
  bytes : Bytes
deriving DecidableEq

/-- Errors of keys.  What a library says is kept as a string. -/
inductive KeyError where
  | decodeError (error : String)
  | signatureError (error : String)
  | p256Error (error : String)
  | p384Error (error : String)
  | k256Error (error : String)
  | ecdsaError (error : String)
  | secretKeyError (error : String)
  | unidentifiedKeyType
  | invalidMultibaseKeyType (found : Bytes)
  | ed25519Error (error : String)
  | signatureMalleable
deriving DecidableEq

/-- The text of an error. -/
def KeyError.message : KeyError → String
  | .decodeError error => s!"error-atproto-identity-key-1 Error decoding key: {error}"
  | .signatureError error => s!"error-atproto-identity-key-2 Signature parsing failed: {error}"
  | .p256Error error => s!"error-atproto-identity-key-3 P-256 key operation failed: {error}"
  | .p384Error error => s!"error-atproto-identity-key-4 P-384 key operation failed: {error}"
  | .k256Error error => s!"error-atproto-identity-key-5 K-256 key operation failed: {error}"
  | .ecdsaError error => s!"error-atproto-identity-key-6 ECDSA operation failed: {error}"
  | .secretKeyError error => s!"error-atproto-identity-key-7 Secret key operation failed: {error}"
  | .unidentifiedKeyType =>
    "error-atproto-identity-key-10 Unidentified key type: key data too short"
  | .invalidMultibaseKeyType found =>
    s!"error-atproto-identity-key-11 Invalid multibase key type: {found}"
  | .ed25519Error error => s!"error-atproto-identity-key-13 Ed25519 key operation failed: {error}"
  | .signatureMalleable =>
    "error-atproto-identity-key-14 Signature is malleable: S value is in the upper half of the " ++
      "curve order; AT Protocol requires the low-S form"

/-- The multibase library and the libraries of the curves: the public half of a private
key, and the check of a signature under a key. -/
structure KeyLibrary where
  multibaseDecode : Bytes → Except String Bytes
  derivePublic : KeyData → Except KeyError KeyData
  validate : KeyData → Bytes → Bytes → Except KeyError Unit

/-- A text starts with another. -/
def startsWith (text start : Text) : Bool := start.bytes.isPrefixOf text.bytes

/-- The start of keys that are written as DIDs. -/
def didMethodKeyPrefix : Text := textOf "did:key:"

/-- The multibase value of a key. -/
def didMethodKeyValue (key : Text) : Bytes :=
  if startsWith key didMethodKeyPrefix then key.bytes.drop didMethodKeyPrefix.bytes.length
  else key.bytes

/-- The type that the first two bytes of a key name. -/
def keyTypeOf (a b : UInt8) : Option KeyType :=
  match a, b with
  | 0x86, 0x26 => some .p256Private
  | 0x80, 0x24 => some .p256Public
  | 0x13, 0x01 => some .p384Private
  | 0x12, 0x00 => some .p384Public
  | 0x81, 0x26 => some .k256Private
  | 0xe7, 0x01 => some .k256Public
  | 0xed, 0x01 => some .ed25519Public
  | 0x80, 0x26 => some .ed25519Private
  | _, _ => none

variable (library : KeyLibrary)

/-- Read a key. -/
def identifyKey (key : Text) : Except KeyError KeyData := do
  let decoded ← (library.multibaseDecode (didMethodKeyValue key)).mapError .decodeError
  match decoded with
  | a :: b :: c :: rest =>
    match keyTypeOf a b with
    | some keyType => .ok { keyType := keyType, bytes := c :: rest }
    | none => .error (.invalidMultibaseKeyType [a, b])
  | _ => .error .unidentifiedKeyType

/-- The public half of a key. -/
def toPublic (key : KeyData) : Except KeyError KeyData :=
  match key.keyType with
  | .p256Private | .p384Private | .k256Private | .ed25519Private => library.derivePublic key
  | .p256Public | .p384Public | .k256Public | .ed25519Public => .ok key

end Atproto.Identity
