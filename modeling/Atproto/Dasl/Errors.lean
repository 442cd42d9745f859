/-!
# Errors of the encoder and the decoder
-/

namespace Atproto.Dasl

/-- Errors of encoding.  `unrepresentable` is no error of the source: it stands for a length
of `2 ^ 64` or more, which no collection of the source has. -/
inductive EncodeError where
  | invalidFloat (reason : String)
  | mapKeyMissing
  | serialization (message : String)
  | integerOverflow
  | invalidValue (reason : String)
  | unrepresentable
deriving DecidableEq

/-- Errors of decoding. -/
inductive DecodeError where
  | unexpectedEof
  | invalidCbor (reason : String)
  | nonCanonicalEncoding (majorType additionalInfo value : Nat)
  | unsupportedTag (tag : Nat)
  | mapKeyNotString
  | invalidCid (reason : String)
  | invalidCidContent
  | invalidFloat
  | unsupportedSimpleValue (value : Nat)
  | indefiniteLengthNotSupported
  | typeMismatch (expected found : String)
  | maxDepthExceeded (depth max : Nat)
  | allocationExceeded (size max : Nat)
  | invalidUtf8
  | mapKeysNotSorted
  | reservedAdditionalInfo (value : Nat)
  | deserialization (message : String)
  | trailingData
  | nonCanonicalFloat
  | duplicateMapKey
  | arrayTooLarge (count max : Nat)
  | mapTooLarge (count max : Nat)
  | collectionLengthExceedsInput (count needed remaining : Nat)
  | stringLengthExceedsInput (length remaining : Nat)
deriving DecidableEq

end Atproto.Dasl
