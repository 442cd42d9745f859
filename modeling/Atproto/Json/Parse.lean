import Atproto.Json.Value
import Atproto.SearchTree.Collect

/-!
# Reading JSON

A JSON text is read as a value.  White space may stand around what is read, and a key that stands
twice in an object has its last value.  The numbers that are read are integers of 64 bits, and the
depth of a value is not limited.
-/

namespace Atproto.JsonText

open Dasl SearchTree

/-! ### Tokens -/

def isBlank (byte : UInt8) : Bool :=
  byte = 0x20 || byte = 0x09 || byte = 0x0a || byte = 0x0d

/-- What follows white space. -/
def skipSpace (input : Bytes) : Bytes := input.dropWhile isBlank

/-- The number of a hexadecimal digit. -/
def hexValue (byte : UInt8) : Option Nat :=
  if 0x30 ≤ byte ∧ byte ≤ 0x39 then some (byte.toNat - 0x30)
  else if 0x61 ≤ byte ∧ byte ≤ 0x66 then some (byte.toNat - 0x57)
  else if 0x41 ≤ byte ∧ byte ≤ 0x46 then some (byte.toNat - 0x37)
  else none

/-- The code unit of four hexadecimal digits. -/
def readUnit : Bytes → Option (Nat × Bytes)
  | a :: b :: c :: d :: rest => do
    let a ← hexValue a
    let b ← hexValue b
    let c ← hexValue c
    let d ← hexValue d
    some (((a * 16 + b) * 16 + c) * 16 + d, rest)
  | _ => none

/-- The low code unit that follows a high one. -/
def readLow : Bytes → Option (Nat × Bytes)
  | a :: b :: rest =>
    if a = 0x5c ∧ b = 0x75 then do
      let (low, rest) ← readUnit rest
      if 0xdc00 ≤ low ∧ low < 0xe000 then some (low, rest) else none
    else none
  | _ => none

/-- The character of an escaped code unit, or of two. -/
def readUnicode (input : Bytes) : Option (Bytes × Bytes) := do
  let (unit, rest) ← readUnit input
  if 0xd800 ≤ unit ∧ unit < 0xdc00 then
    let (low, rest) ← readLow rest
    let code := 0x10000 + (unit - 0xd800) * 0x400 + (low - 0xdc00)
    some (String.utf8EncodeChar (Char.ofNat code), rest)
  else if 0xdc00 ≤ unit ∧ unit < 0xe000 then none
  else some (String.utf8EncodeChar (Char.ofNat unit), rest)

/-- What is escaped by a backslash. -/
def readEscape : Bytes → Option (Bytes × Bytes)
  | [] => none
  | byte :: rest =>
    if byte = 0x22 ∨ byte = 0x5c ∨ byte = 0x2f then some ([byte], rest)
    else if byte = 0x62 then some ([0x08], rest)
    else if byte = 0x66 then some ([0x0c], rest)
    else if byte = 0x6e then some ([0x0a], rest)
    else if byte = 0x72 then some ([0x0d], rest)
    else if byte = 0x74 then some ([0x09], rest)
    else if byte = 0x75 then readUnicode rest
    else none

/-- The bytes of a string up to its closing quote. -/
def readChars : Nat → Bytes → Option (Bytes × Bytes)
  | 0, _ => none
  | _ + 1, [] => none
  | fuel + 1, byte :: rest =>
    if byte = 0x22 then some ([], rest)
    else if byte = 0x5c then do
      let (chars, rest) ← readEscape rest
      let (more, rest) ← readChars fuel rest
      some (chars ++ more, rest)
    else if byte < 0x20 then none
    else do
      let (more, rest) ← readChars fuel rest
      some (byte :: more, rest)

/-- The text of a string after its opening quote. -/
def readQuoted (input : Bytes) : Option (Text × Bytes) := do
  let (bytes, rest) ← readChars input.length input
  let text ← Text.fromUtf8 bytes
  some (text, rest)

def isDigit (byte : UInt8) : Bool := 0x30 ≤ byte && byte ≤ 0x39

/-- The byte begins a fraction or an exponent. -/
def isFraction (byte : UInt8) : Bool := byte = 0x2e || byte = 0x65 || byte = 0x45

/-- The number of some digits. -/
def decimalValue (digits : Bytes) : Nat :=
  digits.foldl (fun value byte => 10 * value + (byte.toNat - 0x30)) 0

/-- The digits of a number, which has no superfluous zero in front and no fraction. -/
def readNatural (input : Bytes) : Option (Nat × Bytes) :=
  let digits := input.takeWhile isDigit
  let rest := input.dropWhile isDigit
  if digits = [] then none
  else if digits.head? = some 0x30 ∧ 1 < digits.length then none
  else if rest.head?.any isFraction then none
  else some (decimalValue digits, rest)

/-- An integer of 64 bits. -/
def readNumeral (input : Bytes) : Option (JsonNumber × Bytes) :=
  match input with
  | [] => none
  | byte :: rest =>
    if byte = 0x2d then do
      let (value, rest) ← readNatural rest
      if h : Int64.ofInt (-value) < 0 ∧ value ≤ 2 ^ 63 then
        some (.negInt (Int64.ofInt (-value)) h.1, rest)
      else none
    else do
      let (value, rest) ← readNatural input
      if value < 2 ^ 64 then some (.posInt (UInt64.ofNat value), rest) else none

/-- A word that stands for a value. -/
def readWord (word : Bytes) (value : Json) (input : Bytes) : Option (Json × Bytes) :=
  if word.isPrefixOf input then some (value, input.drop word.length) else none

/-- A key and the colon after it. -/
def readKey : Bytes → Option (Text × Bytes)
  | [] => none
  | byte :: rest =>
    if byte = 0x22 then do
      let (key, rest) ← readQuoted rest
      match skipSpace rest with
      | [] => none
      | byte :: rest => if byte = 0x3a then some (key, rest) else none
    else none

/-- Nothing up to the closing bracket, or some elements. -/
def readEnclosed {α : Type} (close : UInt8) (elements : Bytes → Option (List α × Bytes))
    (input : Bytes) : Option (List α × Bytes) :=
  match skipSpace input with
  | [] => none
  | byte :: rest => if byte = close then some ([], rest) else elements (byte :: rest)

/-- What follows an element: a comma and more elements, or the closing bracket. -/
def readMore {α : Type} (close : UInt8) (element : α) (elements : Bytes → Option (List α × Bytes))
    (input : Bytes) : Option (List α × Bytes) :=
  match skipSpace input with
  | [] => none
  | byte :: rest =>
    if byte = 0x2c then (elements rest).map fun p => (element :: p.1, p.2)
    else if byte = close then some ([element], rest)
    else none

/-! ### Values -/

mutual

/-- A value and what follows it. -/
def readValue : Nat → Bytes → Option (Json × Bytes)
  | 0, _ => none
  | fuel + 1, input =>
    match skipSpace input with
    | [] => none
    | byte :: rest =>
      if byte = 0x22 then (readQuoted rest).map fun p => (.string p.1, p.2)
      else if byte = 0x5b then
        (readEnclosed 0x5d (readItems fuel) rest).map fun p => (.array p.1, p.2)
      else if byte = 0x7b then
        (readEnclosed 0x7d (readFields fuel) rest).map fun p => (.object (collect p.1), p.2)
      else if byte = 0x6e then readWord [0x75, 0x6c, 0x6c] .null rest
      else if byte = 0x74 then readWord [0x72, 0x75, 0x65] (.bool true) rest
      else if byte = 0x66 then readWord [0x61, 0x6c, 0x73, 0x65] (.bool false) rest
      else (readNumeral (byte :: rest)).map fun p => (.number p.1, p.2)

/-- Items with commas in between, up to the closing bracket. -/
def readItems : Nat → Bytes → Option (List Json × Bytes)
  | 0, _ => none
  | fuel + 1, input => do
    let (item, rest) ← readValue fuel input
    readMore 0x5d item (readItems fuel) rest

/-- Fields with commas in between, up to the closing brace. -/
def readFields : Nat → Bytes → Option (List (Text × Json) × Bytes)
  | 0, _ => none
  | fuel + 1, input => do
    let (key, rest) ← readKey (skipSpace input)
    let (value, rest) ← readValue fuel rest
    readMore 0x7d (key, value) (readFields fuel) rest

end

/-- The value of a JSON text.  This is the grammar of the texts, and not the parser of the library, which
reads no value that is nested deeper than 128 levels. -/
def parse (input : Bytes) : Option Json := do
  let (value, rest) ← readValue (2 * input.length) input
  if skipSpace rest = [] then some value else none

/-! ### Without white space -/

variable {byte : UInt8} {rest input : Bytes} {fuel : Nat}

theorem skipSpace_cons (h : isBlank byte = false) :
  skipSpace (byte :: rest) = byte :: rest
  := List.dropWhile_cons_of_neg (by rw [h]; exact Bool.false_ne_true)

theorem readValue_cons (h : isBlank byte = false) :
  readValue (fuel + 1) (byte :: rest) =
    if byte = 0x22 then (readQuoted rest).map fun p => (.string p.1, p.2)
    else if byte = 0x5b then
      (readEnclosed 0x5d (readItems fuel) rest).map fun p => (.array p.1, p.2)
    else if byte = 0x7b then
      (readEnclosed 0x7d (readFields fuel) rest).map fun p => (.object (collect p.1), p.2)
    else if byte = 0x6e then readWord [0x75, 0x6c, 0x6c] .null rest
    else if byte = 0x74 then readWord [0x72, 0x75, 0x65] (.bool true) rest
    else if byte = 0x66 then readWord [0x61, 0x6c, 0x73, 0x65] (.bool false) rest
    else (readNumeral (byte :: rest)).map fun p => (.number p.1, p.2)
  := by
  rw [readValue, skipSpace_cons h]

theorem readItems_succ :
  readItems (fuel + 1) input =
    (readValue fuel input).bind fun p => readMore 0x5d p.1 (readItems fuel) p.2
  := by
  rw [readItems]
  rfl

/-- A field and what follows it. -/
def readField (fuel : Nat) (input : Bytes) : Option ((Text × Json) × Bytes) :=
  (readKey (skipSpace input)).bind fun key =>
    (readValue fuel key.2).map fun p => ((key.1, p.1), p.2)

theorem readFields_succ :
  readFields (fuel + 1) input =
    (readField fuel input).bind fun p => readMore 0x7d p.1 (readFields fuel) p.2
  := by
  rw [readFields, readField]
  cases readKey (skipSpace input) with
  | none => rfl
  | some key =>
    obtain ⟨key, rest⟩ := key
    change (readValue fuel rest).bind (fun p => readMore 0x7d (key, p.1) (readFields fuel) p.2) =
      ((readValue fuel rest).map fun p => ((key, p.1), p.2)).bind
        fun p => readMore 0x7d p.1 (readFields fuel) p.2
    cases readValue fuel rest <;> rfl

theorem readEnclosed_close {α : Type} {close : UInt8}
    {elements : Bytes → Option (List α × Bytes)} (h : isBlank close = false) :
  readEnclosed close elements (close :: rest) = some ([], rest)
  := by
  rw [readEnclosed, skipSpace_cons h]
  exact if_pos rfl

theorem readEnclosed_elements {α : Type} {close : UInt8}
    {elements : Bytes → Option (List α × Bytes)} (h : isBlank byte = false) (hne : byte ≠ close) :
  readEnclosed close elements (byte :: rest) = elements (byte :: rest)
  := by
  rw [readEnclosed, skipSpace_cons h]
  exact if_neg hne

theorem readMore_comma {α : Type} {close : UInt8} {element : α}
    {elements : Bytes → Option (List α × Bytes)} :
  readMore close element elements (0x2c :: rest) =
    (elements rest).map fun p => (element :: p.1, p.2)
  := by
  rw [readMore, skipSpace_cons (by decide)]
  exact if_pos rfl

theorem readMore_close {α : Type} {close : UInt8} {element : α}
    {elements : Bytes → Option (List α × Bytes)} (h : isBlank close = false)
    (hne : close ≠ 0x2c) :
  readMore close element elements (close :: rest) = some ([element], rest)
  := by
  rw [readMore, skipSpace_cons h]
  dsimp only
  rw [if_neg hne, if_pos rfl]

end Atproto.JsonText
