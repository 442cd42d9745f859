import Atproto.Lexicon.Syntax

/-!
# Space URIs

A space is named by the DID of its authority, a type, which is an NSID, and a key.
-/

namespace Atproto.Space

open Atproto.Dasl Atproto.Lexicon Atproto.Repo

/-- The scheme of space URIs. -/
def atScheme : Text := textOf "at://"

/-- The marker of a space URI. -/
def spaceMarker : Text := textOf "space"

/-- The largest length of a space key. -/
def spaceKeyMaxBytes : Nat := 512

/-- A segment of an NSID: letters, digits and hyphens, with no hyphen at either end. -/
def isValidSegment (segment : Bytes) : Bool :=
  segment ≠ [] && segment.all (fun byte => isAsciiAlphanumeric byte || byte = hyphen) &&
    segment.head? ≠ some hyphen && segment.getLast? ≠ some hyphen

/-- At least three segments. -/
def isValidNsid (value : Text) : Bool :=
  let segments := value.bytes.splitOn dot
  value.bytes ≠ [] && 3 ≤ segments.length && segments.all isValidSegment

/-- The characters of a record key, and not one or two periods. -/
def isValidRecordKey (value : Text) : Bool :=
  value.bytes ≠ [] && value.bytes.length ≤ spaceKeyMaxBytes && value.bytes ≠ [dot] &&
    value.bytes ≠ [dot, dot] && value.bytes.all isRecordKeyByte

/-- The type of a space. -/
structure SpaceType where
  value : Text
  valid : isValidNsid value = true

/-- The key of a space. -/
structure SpaceKey where
  value : Text
  valid : isValidRecordKey value = true

/-- The name of a space. -/
structure SpaceUri where
  spaceDid : Text
  spaceType : SpaceType
  spaceKey : SpaceKey

/-- A slash. -/
def slashText : Text := textOf "/"

/-- The text of a space URI. -/
def SpaceUri.text (uri : SpaceUri) : Text :=
  atScheme ++ uri.spaceDid ++ slashText ++ spaceMarker ++ slashText ++ uri.spaceType.value ++
    slashText ++ uri.spaceKey.value

end Atproto.Space
