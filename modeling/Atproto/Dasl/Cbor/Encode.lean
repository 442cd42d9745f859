import Atproto.Dasl.Text

/-!
# Encoding CBOR items

Every item has a head, an initial byte with the major type and the shortest form of an
argument.  An argument is a 64-bit number.
-/

namespace Atproto.Dasl

open Wire

/-! ### Constants -/

namespace MajorType

def unsigned : Nat := 0
def negative : Nat := 1
def bytes : Nat := 2
def text : Nat := 3
def array : Nat := 4
def map : Nat := 5
def tag : Nat := 6
def simple : Nat := 7

end MajorType

namespace SimpleValue

def false : Nat := 20
def true : Nat := 21
def null : Nat := 22
def undefined : Nat := 23
def float16 : Nat := 25
def float32 : Nat := 26
def float64 : Nat := 27
def breakCode : Nat := 31

end SimpleValue

namespace AdditionalInfo

def oneByte : Nat := 24
def twoBytes : Nat := 25
def fourBytes : Nat := 26
def eightBytes : Nat := 27
def indefinite : Nat := 31

end AdditionalInfo

/-- The tag of CIDs. -/
def cidTag : Nat := 42

/-- The major type of an initial byte. -/
def majorTypeFromByte (byte : UInt8) : Nat := byte.toNat >>> 5

/-- The additional information of an initial byte. -/
def additionalInfoFromByte (byte : UInt8) : Nat := byte.toNat &&& 0x1f

/-- The initial byte of a major type and additional information. -/
def makeInitialByte (major additional : Nat) : UInt8 :=
  UInt8.ofNat ((major <<< 5) ||| (additional &&& 0x1f))

theorem majorTypeFromByte_lt (byte : UInt8) :
  majorTypeFromByte byte < 8
  := by
  have hbyte := byte.toNat_lt
  rw [majorTypeFromByte, Nat.shiftRight_eq_div_pow]
  omega

theorem additionalInfoFromByte_lt (byte : UInt8) :
  additionalInfoFromByte byte < 32
  := by
  have hmask : (0x1f : Nat) = 2 ^ 5 - 1 := rfl
  rw [additionalInfoFromByte, hmask, Nat.and_two_pow_sub_one_eq_mod]
  omega

theorem makeInitialByte_toNat {major additional : Nat} (hmajor : major < 8)
    (hadditional : additional < 32) :
  (makeInitialByte major additional).toNat = major * 32 + additional
  := by
  have hmask : (0x1f : Nat) = 2 ^ 5 - 1 := rfl
  rw [makeInitialByte, hmask, Nat.and_two_pow_sub_one_eq_mod, Nat.mod_eq_of_lt hadditional,
    ← Nat.shiftLeft_add_eq_or_of_lt hadditional, Nat.shiftLeft_eq, UInt8.toNat_ofNat']
  omega

theorem majorTypeFromByte_makeInitialByte {major additional : Nat} (hmajor : major < 8)
    (hadditional : additional < 32) :
  majorTypeFromByte (makeInitialByte major additional) = major
  := by
  rw [majorTypeFromByte, makeInitialByte_toNat hmajor hadditional, Nat.shiftRight_eq_div_pow]
  omega

theorem additionalInfoFromByte_makeInitialByte {major additional : Nat} (hmajor : major < 8)
    (hadditional : additional < 32) :
  additionalInfoFromByte (makeInitialByte major additional) = additional
  := by
  have hmask : (0x1f : Nat) = 2 ^ 5 - 1 := rfl
  rw [additionalInfoFromByte, makeInitialByte_toNat hmajor hadditional, hmask,
    Nat.and_two_pow_sub_one_eq_mod]
  omega

/-- An initial byte is made from its parts. -/
theorem makeInitialByte_of_parts (byte : UInt8) :
  makeInitialByte (majorTypeFromByte byte) (additionalInfoFromByte byte) = byte
  := by
  apply UInt8.toNat_inj.mp
  rw [makeInitialByte_toNat (majorTypeFromByte_lt byte) (additionalInfoFromByte_lt byte)]
  have hmask : (0x1f : Nat) = 2 ^ 5 - 1 := rfl
  rw [majorTypeFromByte, additionalInfoFromByte, hmask, Nat.and_two_pow_sub_one_eq_mod,
    Nat.shiftRight_eq_div_pow]
  omega

/-! ### Heads -/

/-- A major type with the shortest form of an argument. -/
def encodeHead (major arg : Nat) : Bytes :=
  if arg < 24 then [makeInitialByte major arg]
  else if arg ≤ 0xff then makeInitialByte major AdditionalInfo.oneByte :: beBytes 1 arg
  else if arg ≤ 0xffff then makeInitialByte major AdditionalInfo.twoBytes :: beBytes 2 arg
  else if arg ≤ 0xffffffff then makeInitialByte major AdditionalInfo.fourBytes :: beBytes 4 arg
  else makeInitialByte major AdditionalInfo.eightBytes :: beBytes 8 arg

/-- The length of a collection as an argument. -/
def lengthArg (length : Nat) : Except EncodeError Nat :=
  if length < 2 ^ 64 then .ok length else .error .unrepresentable

/-- A head whose argument is a length. -/
def encodeLengthHead (major length : Nat) : Except EncodeError Bytes := do
  let arg ← lengthArg length
  .ok (encodeHead major arg)

def encodeUnsigned (value : Nat) : Bytes := encodeHead MajorType.unsigned value

/-- A negative number is encoded as `-1 - value`. -/
def encodeNegative (value : Int) : Bytes := encodeHead MajorType.negative (-1 - value).toNat

def encodeInteger (value : Int) : Bytes :=
  if value ≥ 0 then encodeUnsigned value.toNat else encodeNegative value

/-- A 128-bit number, when its argument has 64 bits. -/
def encodeI128 (value : Int) : Except EncodeError Bytes :=
  if value ≥ 0 then
    if value > 2 ^ 64 - 1 then .error .integerOverflow else .ok (encodeUnsigned value.toNat)
  else
    let arg := -1 - value
    if arg > 2 ^ 64 - 1 then .error .integerOverflow
    else .ok (encodeHead MajorType.negative arg.toNat)

def encodeBytes (bytes : Bytes) : Except EncodeError Bytes := do
  let head ← encodeLengthHead MajorType.bytes bytes.length
  .ok (head ++ bytes)

def encodeText (text : Text) : Except EncodeError Bytes := do
  let head ← encodeLengthHead MajorType.text text.bytes.length
  .ok (head ++ text.bytes)

def encodeArrayHeader (length : Nat) : Except EncodeError Bytes :=
  encodeLengthHead MajorType.array length

def encodeMapHeader (length : Nat) : Except EncodeError Bytes :=
  encodeLengthHead MajorType.map length

def encodeCidTag : Bytes := encodeHead MajorType.tag cidTag

def encodeBool (value : Bool) : Bytes :=
  [makeInitialByte MajorType.simple (if value then SimpleValue.true else SimpleValue.false)]

def encodeNull : Bytes := [makeInitialByte MajorType.simple SimpleValue.null]

/-! ### Floating-point numbers -/

/-- The exponent of a 64-bit floating-point number, given by its bits. -/
def floatExponent (bits : UInt64) : Nat := bits.toNat / 2 ^ 52 % 2 ^ 11

/-- The mantissa of a 64-bit floating-point number. -/
def floatMantissa (bits : UInt64) : Nat := bits.toNat % 2 ^ 52

def isNan (bits : UInt64) : Bool := floatExponent bits = 2 ^ 11 - 1 ∧ floatMantissa bits ≠ 0

def isInfinite (bits : UInt64) : Bool := floatExponent bits = 2 ^ 11 - 1 ∧ floatMantissa bits = 0

/-- A finite floating-point number in its 64-bit form. -/
def encodeF64 (bits : UInt64) : Except EncodeError Bytes :=
  if isNan bits then .error (.invalidFloat "NaN is not allowed in DAG-CBOR")
  else if isInfinite bits then .error (.invalidFloat "Infinity is not allowed in DAG-CBOR")
  else .ok (makeInitialByte MajorType.simple SimpleValue.float64 :: beBytes 8 bits.toNat)

end Atproto.Dasl
