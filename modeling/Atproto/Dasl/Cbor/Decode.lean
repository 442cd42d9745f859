import Atproto.Dasl.Cbor.Encode
import Atproto.Wire.Reader

/-!
# Decoding CBOR items

The strict decoder takes an item off the front of the input.  It accepts an item in one
form only, the one in which the item is encoded.
-/

namespace Atproto.Dasl

open Wire

/-- The limits of a strict configuration.  A limit of zero on the size of arrays or maps is
no limit. -/
structure DecodeConfig where
  maxDepth : Nat
  maxAlloc : Nat
  maxArrayElements : Nat
  maxMapEntries : Nat

/-- The default configuration. -/
def DecodeConfig.default : DecodeConfig where
  maxDepth := 256
  maxAlloc := 64 * 1024 * 1024
  maxArrayElements := 16777216
  maxMapEntries := 16777216

/-- A decoded item: a value without parts, or the header of an array or a map. -/
inductive CborItem where
  | unsigned (value : Nat)
  | negative (value : Int)
  | bytes (bytes : Bytes)
  | text (text : Text)
  | array (length : Nat)
  | map (length : Nat)
  | tag (tag : Nat)
  | bool (value : Bool)
  | null
  | float (bits : UInt64)
deriving DecidableEq

/-- The name of the type of an item. -/
def CborItem.typeName : CborItem → String
  | .unsigned _ => "unsigned integer"
  | .negative _ => "negative integer"
  | .bytes _ => "byte string"
  | .text _ => "text string"
  | .array _ => "array"
  | .map _ => "map"
  | .tag number => s!"tag {number}"
  | .bool _ => "boolean"
  | .null => "null"
  | .float _ => "float"

abbrev Decoder (α : Type) : Type := Reader DecodeError α

variable (config : DecodeConfig)

/-! ### The decoder -/

/-- Read one byte. -/
def readByte : Decoder UInt8
  | [] => .error .unexpectedEof
  | byte :: rest => .ok (byte, rest)

/-- Look at the next byte. -/
def peekByte : Decoder UInt8
  | [] => .error .unexpectedEof
  | byte :: rest => .ok (byte, byte :: rest)

/-- Read `n` bytes. -/
def readBytes (n : Nat) : Decoder Bytes := fun input =>
  if n > config.maxAlloc then .error (.allocationExceeded n config.maxAlloc)
  else if n > input.length then .error (.stringLengthExceedsInput n input.length)
  else .ok (input.take n, input.drop n)

/-- The additional information of the shortest form of an argument. -/
def expectedAdditional (value : Nat) : Nat :=
  if value < 24 then value
  else if value ≤ 0xff then AdditionalInfo.oneByte
  else if value ≤ 0xffff then AdditionalInfo.twoBytes
  else if value ≤ 0xffffffff then AdditionalInfo.fourBytes
  else AdditionalInfo.eightBytes

/-- Check that an argument has its shortest form. -/
def validateCanonical (major additional value : Nat) : Decoder Unit :=
  if additional ≠ expectedAdditional value then
    Reader.fail (.nonCanonicalEncoding major additional value)
  else pure ()

/-- Read a number of `n` bytes. -/
def readNumber (n : Nat) : Decoder Nat := do
  let bytes ← readBytes config n
  pure (beValue bytes)

/-- Read the argument that the additional information announces, in any form. -/
def readAnyArgument (additional : Nat) : Decoder Nat :=
  if additional ≤ 23 then pure additional
  else if additional = AdditionalInfo.oneByte then do
    let byte ← readByte
    pure byte.toNat
  else if additional = AdditionalInfo.twoBytes then readNumber config 2
  else if additional = AdditionalInfo.fourBytes then readNumber config 4
  else if additional = AdditionalInfo.eightBytes then readNumber config 8
  else if additional = AdditionalInfo.indefinite then Reader.fail .indefiniteLengthNotSupported
  else Reader.fail (.reservedAdditionalInfo additional)

/-- Read an argument in its shortest form. -/
def readArgument (major additional : Nat) : Decoder Nat := do
  let value ← readAnyArgument config additional
  validateCanonical major additional value
  pure value

/-- The number of bytes left. -/
def remainingInput : Decoder Nat := fun input => .ok (input.length, input)

/-- Read the bytes of a string. -/
def readString (length : Nat) : Decoder Bytes :=
  if length > config.maxAlloc then Reader.fail (.allocationExceeded length config.maxAlloc)
  else readBytes config length

/-- Check the length of a text and that it is UTF-8. -/
def readText (length : Nat) : Decoder Text := do
  let bytes ← readString config length
  match Text.fromUtf8 bytes with
  | some text => pure text
  | none => Reader.fail .invalidUtf8

/-- Check the length of an array. -/
def checkArray (length : Nat) : Decoder CborItem :=
  if config.maxArrayElements > 0 ∧ length > config.maxArrayElements then
    Reader.fail (.arrayTooLarge length config.maxArrayElements)
  else do
    let remaining ← remainingInput
    if length > remaining then
      Reader.fail (.collectionLengthExceedsInput length length remaining)
    else pure (.array length)

/-- Check the length of a map. -/
def checkMap (length : Nat) : Decoder CborItem :=
  if config.maxMapEntries > 0 ∧ length > config.maxMapEntries then
    Reader.fail (.mapTooLarge length config.maxMapEntries)
  else do
    let remaining ← remainingInput
    if 2 * length > remaining then
      Reader.fail (.collectionLengthExceedsInput length (2 * length) remaining)
    else pure (.map length)

/-- Read the eight bytes of a floating-point number. -/
def readFloat : Decoder CborItem := do
  let bits ← readNumber config 8
  if isNan (UInt64.ofNat bits) ∨ isInfinite (UInt64.ofNat bits) then Reader.fail .invalidFloat
  else pure (.float (UInt64.ofNat bits))

/-- Read a simple value. -/
def decodeSimple (additional : Nat) : Decoder CborItem :=
  if additional = SimpleValue.false then pure (.bool false)
  else if additional = SimpleValue.true then pure (.bool true)
  else if additional = SimpleValue.null then pure .null
  else if additional = SimpleValue.undefined then
    Reader.fail (.unsupportedSimpleValue SimpleValue.undefined)
  else if additional = SimpleValue.float16 then do
    let _ ← readBytes config 2
    Reader.fail .nonCanonicalFloat
  else if additional = SimpleValue.float32 then do
    let _ ← readBytes config 4
    Reader.fail .nonCanonicalFloat
  else if additional = SimpleValue.float64 then readFloat config
  else if additional = SimpleValue.breakCode then Reader.fail .indefiniteLengthNotSupported
  else if additional ≤ 19 then Reader.fail (.unsupportedSimpleValue additional)
  else if additional = AdditionalInfo.oneByte then do
    let value ← readByte
    Reader.fail (.unsupportedSimpleValue value.toNat)
  else Reader.fail (.invalidCbor s!"invalid additional info {additional} for major type 7")

/-- Read the rest of an item after its initial byte. -/
def decodeMajor (major additional : Nat) : Decoder CborItem :=
  if major = MajorType.unsigned then do
    let value ← readArgument config major additional
    pure (.unsigned value)
  else if major = MajorType.negative then do
    let arg ← readArgument config major additional
    pure (.negative (-1 - (arg : Int)))
  else if major = MajorType.bytes then do
    let length ← readArgument config major additional
    let bytes ← readString config length
    pure (.bytes bytes)
  else if major = MajorType.text then do
    let length ← readArgument config major additional
    let text ← readText config length
    pure (.text text)
  else if major = MajorType.array then do
    let length ← readArgument config major additional
    checkArray config length
  else if major = MajorType.map then do
    let length ← readArgument config major additional
    checkMap config length
  else if major = MajorType.tag then do
    let tag ← readArgument config major additional
    if tag ≠ cidTag then Reader.fail (.unsupportedTag tag) else pure (.tag tag)
  else if major = MajorType.simple then decodeSimple config additional
  else Reader.fail (.invalidCbor s!"unknown major type {major}")

/-- Read the next item. -/
def decodeItem : Decoder CborItem := do
  let initial ← readByte
  decodeMajor config (majorTypeFromByte initial) (additionalInfoFromByte initial)

end Atproto.Dasl
