import Atproto.Identity.Webvh.Proof

/-!
# Self-certifying identifiers

The identifier of a log is the hash of its first entry, with a placeholder where the identifier
would stand, and the version identifier of an entry has a number and the hash of the entry
without its proofs and without the version identifier.
-/

namespace Atproto.Identity.Webvh

open Atproto.Dasl Atproto.Repo SearchTree

variable (library : WebvhLibrary)

/-! ### The form of the identifier -/

/-- The characters of a text. -/
def chars (text : Text) : List Char := (String.ofByteArray ⟨text.bytes.toArray⟩ text.utf8).toList

/-- The characters of base 58. -/
def base58btcAlphabet : List Char :=
  "123456789ABCDEFGHJKLMNPQRSTUVWXYZabcdefghijkmnopqrstuvwxyz".toList

/-- A character as a text. -/
def charText (c : Char) : Text := textOf (String.ofList [c])

/-- Check the form of an identifier. -/
def validateScidFormat (scid : Text) : Except WebvhDidError Unit :=
  if (chars scid).head? ≠ some 'z' then
    .error (.invalidScidFormat (textOf "SCID must start with 'z' (base58btc prefix), got '" ++
      charText ((chars scid).headD ' ') ++ textOf "'"))
  else if scid.bytes.length < 45 ∨ scid.bytes.length > 48 then
    .error (.invalidScidFormat (textOf "SCID must be 45-48 characters, got " ++
      textOf (toString scid.bytes.length)))
  else
    match (chars scid).tail.find? fun c => c ∉ base58btcAlphabet with
    | some c => .error (.invalidScidFormat (textOf "invalid base58btc character in SCID: '" ++
        charText c ++ textOf "'"))
    | none => .ok ()

/-- Check that the hash of an identifier is SHA-256. -/
def detectHashAlgorithm (scid : Text) : Except WebvhDidError Unit :=
  match library.multibaseDecode scid.bytes with
  | .error error => .error (.invalidScidFormat
      (textOf "failed to decode SCID multibase: " ++ textOf error))
  | .ok (code :: length :: _) =>
    if code = 0x12 ∧ length = 0x20 then .ok ()
    else .error (.unsupportedHashAlgorithm (textOf "multihash code " ++ hexByte code ++
      textOf " with length " ++ hexByte length ++ textOf " is not supported"))
  | .ok _ => .error (.invalidScidFormat (textOf "SCID multihash too short"))

/-- Check that the hash is one that the version of the method allows. -/
def validateHashAlgorithm (scid methodVersion : Text) : Except WebvhDidError Unit := do
  detectHashAlgorithm library scid
  if methodVersion = textOf "did:webvh:1.0" ∨ methodVersion = textOf "did:webvh:0.5" then .ok ()
  else .error (.unsupportedHashAlgorithm (textOf "unknown method version: " ++ methodVersion))

/-! ### The hash of an entry -/

/-- What the hash of an entry is taken of. -/
def hashedBytes (entry : Json) : Bytes :=
  canonicalize library.floatText (removeField "versionId" (removeField "proof" entry))

/-- The hash of an entry. -/
def computeEntryHash (entry : Json) : Except WebvhDidError Text :=
  match entry.asObject with
  | some _ => .ok (computeMultihashBase58btc library (hashedBytes library entry))
  | none => .error (.invalidVersionId 0 (textOf "log entry is not a JSON object"))

/-- The hyphen. -/
def dash : UInt8 := 0x2d

/-- The value of decimal digits. -/
def decimal (digits : Bytes) : Option Nat :=
  if digits = [] then none
  else digits.foldlM (fun value byte =>
    if 0x30 ≤ byte ∧ byte ≤ 0x39 then some (value * 10 + (byte.toNat - 0x30)) else none) 0

/-- The unsigned number of 64 bits that a text is; a plus sign may stand in front. -/
def parseU64 (text : Text) : Option Nat :=
  let digits := match text.bytes with
    | 0x2b :: rest => rest
    | other => other
  (decimal digits).filter (· < 2 ^ 64)

/-- The number and the hash of a version identifier. -/
def parseVersionId (versionId : Text) : Except Text (Nat × Text) :=
  match versionId.splitOnce dash (by decide) with
  | none => .error (textOf "missing dash separator in version ID: " ++ versionId)
  | some (numberText, hash) =>
    match parseU64 numberText with
    | none => .error (textOf "invalid version number: " ++ numberText)
    | some number =>
      if hash.bytes = [] then .error (textOf "empty hash in version ID") else .ok (number, hash)

/-- A field of an object that is a string. -/
def stringField (key : String) (value : Json) : Option Text :=
  (value.get (textOf key)).bind Json.asStr

/-- Check the number and the hash of an entry. -/
def verifyVersionId (entry : Json) (expectedNumber entryIndex : Nat) :
    Except WebvhDidError Unit :=
  match stringField "versionId" entry with
  | none => .error (.invalidVersionId entryIndex (textOf "missing or non-string versionId"))
  | some versionId => do
    let (number, expectedHash) ← (parseVersionId versionId).mapError (.invalidVersionId entryIndex)
    if number ≠ expectedNumber then
      .error (.invalidVersionId entryIndex (textOf "expected version " ++
        textOf (toString expectedNumber) ++ textOf ", got " ++ textOf (toString number)))
    else do
      let computedHash ← computeEntryHash library entry
      if computedHash ≠ expectedHash then .error (.entryHashVerificationFailed entryIndex)
      else .ok ()

/-! ### The identifier of a log -/

/-- Replace a text from left to right; `skip` characters were replaced already. -/
def replaceAll (old new : List Char) : Nat → List Char → List Char
  | _, [] => []
  | skip + 1, _ :: rest => replaceAll old new skip rest
  | 0, c :: rest =>
    if old.isPrefixOf (c :: rest) then new ++ replaceAll old new (old.length - 1) rest
    else c :: replaceAll old new 0 rest

/-- The placeholder of the identifier. -/
def scidPlaceholder : String := "\x7bSCID\x7d"

/-- An object with a field. -/
def setField (key : String) (value : Json) : Json → Json
  | .object fields => .object (insert (textOf key) value fields)
  | .null => .null
  | .bool value => .bool value
  | .number value => .number value
  | .string value => .string value
  | .array items => .array items

/-- How JSON values are written and read. -/
structure JsonText where
  toString : Json → List Char
  fromStr : List Char → Except Text Json

/-- Check the identifier of a first entry. -/
def verifyScid (jsonText : JsonText) (scid : Text) (genesisEntry : Json) :
    Except WebvhDidError Unit :=
  let entry := setField "versionId" (.string (textOf scidPlaceholder))
    (removeField "proof" genesisEntry)
  let replaced := replaceAll (chars scid) scidPlaceholder.toList 0 (jsonText.toString entry)
  match jsonText.fromStr replaced with
  | .error error => .error (.invalidScidFormat (textOf "failed to parse replaced entry: " ++ error))
  | .ok replacedValue =>
    if computeMultihashBase58btc library (canonicalize library.floatText replacedValue) ≠ scid then
      .error .scidVerificationFailed
    else .ok ()

end Atproto.Identity.Webvh
