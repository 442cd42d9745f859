import Atproto.Json.Value
import Atproto.Repo.Codec
import Mathlib.Data.List.Sort

/-!
# Canonical JSON

A JSON value is written without white space, and the fields of an object in the order of the
UTF-16 code units of their keys.  How a floating-point number is written is given.
-/

namespace Atproto.Identity.Webvh

open Atproto.Dasl Atproto.Repo

/-- The UTF-16 code units of a character. -/
def utf16Units (c : Char) : List Nat :=
  if c.toNat < 0x10000 then [c.toNat]
  else [0xd800 + (c.toNat - 0x10000) / 0x400, 0xdc00 + (c.toNat - 0x10000) % 0x400]

/-- The UTF-16 code units of a text. -/
def encodeUtf16 (text : Text) : List Nat :=
  (String.ofByteArray ⟨text.bytes.toArray⟩ text.utf8).toList.flatMap utf16Units

/-- A hexadecimal digit. -/
def hexDigit (value : Nat) : UInt8 :=
  if value < 10 then UInt8.ofNat (0x30 + value) else UInt8.ofNat (0x57 + value)

/-- A byte of a text, as it stands in a JSON string. -/
def escapeByte (byte : UInt8) : Bytes :=
  if byte = 0x22 then [0x5c, 0x22]
  else if byte = 0x5c then [0x5c, 0x5c]
  else if byte = 0x08 then [0x5c, 0x62]
  else if byte = 0x0c then [0x5c, 0x66]
  else if byte = 0x0a then [0x5c, 0x6e]
  else if byte = 0x0d then [0x5c, 0x72]
  else if byte = 0x09 then [0x5c, 0x74]
  else if byte < 0x20 then
    [0x5c, 0x75, 0x30, 0x30, hexDigit (byte.toNat / 16), hexDigit (byte.toNat % 16)]
  else [byte]

/-- A JSON string. -/
def writeJsonString (text : Text) : Bytes := 0x22 :: text.bytes.flatMap escapeByte ++ [0x22]

/-- What stands between two brackets, with commas in between. -/
def separated : List Bytes → Bytes
  | [] => []
  | [part] => part
  | part :: next :: parts => part ++ 0x2c :: separated (next :: parts)

variable (floatText : UInt64 → Bytes)

/-- A number. -/
def writeNumber : JsonNumber → Bytes
  | .posInt value => (textOf (toString value.toNat)).bytes
  | .negInt value _ => (textOf (toString value.toInt)).bytes
  | .float bits _ => floatText bits

/-- Fields in the order of the code units of their keys. -/
def sortFields (fields : List (Text × Bytes)) : List (Text × Bytes) :=
  fields.insertionSort fun a b => encodeUtf16 a.1 ≤ encodeUtf16 b.1

/-- A field. -/
def writeField (field : Text × Bytes) : Bytes := writeJsonString field.1 ++ 0x3a :: field.2

mutual

/-- The canonical form of a JSON value. -/
def canonicalize : Json → Bytes
  | .null => (textOf "null").bytes
  | .bool value => if value then (textOf "true").bytes else (textOf "false").bytes
  | .number value => writeNumber floatText value
  | .string value => writeJsonString value
  | .array items => 0x5b :: separated (canonicalizeItems items) ++ [0x5d]
  | .object fields =>
    0x7b :: separated ((sortFields (canonicalizeFields fields)).map writeField) ++ [0x7d]

def canonicalizeItems : List Json → List Bytes
  | [] => []
  | item :: items => canonicalize item :: canonicalizeItems items

def canonicalizeFields : List (Text × Json) → List (Text × Bytes)
  | [] => []
  | (key, value) :: fields => (key, canonicalize value) :: canonicalizeFields fields

end

end Atproto.Identity.Webvh
