import Atproto.Dasl.Ipld
import Atproto.Json.Value
import Atproto.Repo.Codec

/-!
# JSON and the data model

A link of the data model is an object with the one key `$link` in JSON, and a byte string is
an object with the one key `$bytes`.  Everything else is written as it is, but an integer
that is not a signed integer of 64 bits is written as a string.
-/

namespace Atproto

open Dasl Repo SearchTree

/-- The key of a link. -/
def linkKey : Text := textOf "$link"

/-- The key of a byte string. -/
def bytesKey : Text := textOf "$bytes"

/-- The text forms of CIDs and byte strings, which are given, and of floating-point
numbers. -/
structure TextForms where
  cidToString : Cid → Text
  cidParse : Text → Except String Cid
  base64Encode : Bytes → Text
  base64Decode : Text → Except String Bytes
  floatToString : UInt64 → String

/-- The byte that stands for base 32 in front of a CID. -/
def base32Lower : UInt8 := 0x62

/-- A text begins with the letter of base 32. -/
def startsWithBase32 (text : Text) : Bool := text.bytes.head? = some base32Lower

/-- What is relied on: what was written is read back, and version 1 is written in base 32
and version 0 is not. -/
structure TextForms.Lawful (forms : TextForms) : Prop where
  cid_round : ∀ cid, forms.cidParse (forms.cidToString cid) = .ok cid
  cid_base : ∀ cid, startsWithBase32 (forms.cidToString cid) = true ↔ cid.version = .v1
  base64_round : ∀ data, forms.base64Decode (forms.base64Encode data) = .ok data

variable (forms : TextForms)

/-! ### Reading -/

/-- The first character of a text, or a blank. -/
def firstChar (text : Text) : Char :=
  (String.ofByteArray ⟨text.bytes.toArray⟩ text.utf8).toList.headD ' '

/-- The CID that a text names, or the reason why it names none. -/
def cidFromStr (text : Text) : Except String Cid :=
  if startsWithBase32 text then forms.cidParse text
  else .error s!"DASL CIDs must use base32lower encoding (prefix 'b'), got '{firstChar text}'"

/-- The integer that a finite floating-point number is, when it is one. -/
def floatInteger (bits : UInt64) : Option Int :=
  let significand := 2 ^ 52 + floatMantissa bits
  let sign : Int := if bits.toNat < 2 ^ 63 then 1 else -1
  if floatExponent bits = 0 then
    if floatMantissa bits = 0 then some 0 else none
  else if 1075 ≤ floatExponent bits then
    some (sign * (significand * 2 ^ (floatExponent bits - 1075) : Nat))
  else if significand % 2 ^ (1075 - floatExponent bits) = 0 then
    some (sign * (significand / 2 ^ (1075 - floatExponent bits) : Nat))
  else none

/-- The error for a floating-point number that is no integer. -/
def noFloatingPoint (bits : UInt64) : EncodeError :=
  .invalidValue s!"the data model has no floating-point type: {forms.floatToString bits}"

/-- Read a number. -/
def numberToIpld : JsonNumber → Except EncodeError Ipld
  | .posInt value => .ok (.integer value.toNat)
  | .negInt value _ => .ok (.integer value.toInt)
  | .float bits _ =>
    match floatInteger bits with
    | some value =>
      if -2 ^ 63 ≤ value ∧ value ≤ 2 ^ 63 then .ok (.integer value)
      else .error (noFloatingPoint forms bits)
    | none => .error (noFloatingPoint forms bits)

/-- Read an object with the key of a link. -/
def linkToIpld (fields : List (Text × Json)) (link : Json) : Except EncodeError Ipld :=
  if fields.length ≠ 1 then .error (.invalidValue "$link object carries other keys")
  else
    match link.asStr with
    | none => .error (.invalidValue "$link value is not a string")
    | some text =>
      match cidFromStr forms text with
      | .ok cid => .ok (.link cid)
      | .error reason => .error (.invalidValue
          s!"$link value is not a CID: error-atproto-dasl-decode-7 Invalid CID: {reason}")

/-- Read an object with the key of a byte string. -/
def bytesToIpld (fields : List (Text × Json)) (bytes : Json) : Except EncodeError Ipld :=
  if fields.length ≠ 1 then .error (.invalidValue "$bytes object carries other keys")
  else
    match bytes.asStr with
    | none => .error (.invalidValue "$bytes value is not a string")
    | some text =>
      match forms.base64Decode text with
      | .ok data => .ok (.bytes data)
      | .error reason => .error (.invalidValue s!"$bytes value is not base64: {reason}")

mutual

/-- Read a JSON value into the data model. -/
def ipldFromJson : Json → Except EncodeError Ipld
  | .null => .ok .null
  | .bool value => .ok (.bool value)
  | .string value => .ok (.string value)
  | .number value => numberToIpld forms value
  | .array items => (ipldFromItems items).map .list
  | .object fields =>
    match lookup linkKey fields with
    | some link => linkToIpld forms fields link
    | none =>
      match lookup bytesKey fields with
      | some bytes => bytesToIpld forms fields bytes
      | none => (ipldFromFields fields).map fun entries => .map (collect entries)

def ipldFromItems : List Json → Except EncodeError (List Ipld)
  | [] => .ok []
  | item :: items => do
    let item ← ipldFromJson item
    let items ← ipldFromItems items
    .ok (item :: items)

def ipldFromFields : List (Text × Json) → Except EncodeError (List (Text × Ipld))
  | [] => .ok []
  | (key, value) :: fields => do
    let value ← ipldFromJson value
    let entries ← ipldFromFields fields
    .ok ((key, value) :: entries)

end

/-! ### Writing -/

/-- Write an integer: a signed integer of 64 bits as a number, any other as a string. -/
def jsonFromInteger (value : Int) : Json :=
  if 0 ≤ value ∧ value < 2 ^ 63 then .number (.posInt (UInt64.ofNat value.toNat))
  else if h : -2 ^ 63 ≤ value ∧ value < 0 then
    .number (.negInt (Int64.ofInt value) (Int64.lt_iff_toInt_lt.mpr (by
      rw [Int64.toInt_ofInt_of_le h.1 (by omega)]
      exact h.2)))
  else .string (textOf (toString value))

/-- Write a floating-point number. -/
def jsonFromFloat (bits : UInt64) : Json :=
  if h : isNan bits = false ∧ isInfinite bits = false then .number (.float bits h) else .null

mutual

/-- Write a value of the data model. -/
def jsonFromIpld : Ipld → Json
  | .null => .null
  | .bool value => .bool value
  | .integer value => jsonFromInteger value
  | .float bits => jsonFromFloat bits
  | .string value => .string value
  | .bytes data => .object [(bytesKey, .string (forms.base64Encode data))]
  | .list items => .array (jsonFromItems items)
  | .map entries => .object (jsonFromEntries entries)
  | .link cid => .object [(linkKey, .string (forms.cidToString cid))]

def jsonFromItems : List Ipld → List Json
  | [] => []
  | item :: items => jsonFromIpld item :: jsonFromItems items

def jsonFromEntries : List (Text × Ipld) → List (Text × Json)
  | [] => []
  | (key, value) :: entries => (key, jsonFromIpld value) :: jsonFromEntries entries

end

end Atproto
