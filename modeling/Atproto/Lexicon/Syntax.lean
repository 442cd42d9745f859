import Atproto.Repo.Codec

/-!
# The syntax of names

An NSID names a collection and a record key names a record in it.  Both are ASCII, without a
slash and without a zero byte.
-/

namespace Atproto.Lexicon

open Atproto.Dasl

/-- A value that is not of a format. -/
structure DataValidationError where
  format : String
  value : Text
  reason : String

/-- The byte is an ASCII digit. -/
def isAsciiDigit (byte : UInt8) : Bool := 0x30 ≤ byte && byte ≤ 0x39

/-- The byte is an ASCII letter or digit. -/
def isAsciiAlphanumeric (byte : UInt8) : Bool :=
  isAsciiDigit byte || 0x41 ≤ byte && byte ≤ 0x5a || 0x61 ≤ byte && byte ≤ 0x7a

/-- The byte of a period. -/
def dot : UInt8 := 0x2e

/-- The byte of a hyphen. -/
def hyphen : UInt8 := 0x2d

/-! ### CIDs -/

/-- The error for a CID. -/
def invalidCid (value : Text) (reason : String) : DataValidationError := ⟨"cid", value, reason⟩

/-- Check a CID, which the library reads. -/
def validateCid (cidParse : Text → Except String Cid) (value : Text) :
    Except DataValidationError Unit :=
  if value.bytes = [] then .error (invalidCid value "CID cannot be empty")
  else if ¬ (value.bytes.head? = some 0x62 ∨ value.bytes.head? = some 0x7a) then
    .error (invalidCid value
      "CID must be base32lower (prefix 'b') or base58btc (prefix 'z')")
  else do
    let cid ← (cidParse value).mapError (invalidCid value)
    if cid.version = .v0 then .error (invalidCid value "CIDv0 is not allowed; use CIDv1")
    else .ok ()

/-! ### NSIDs -/

/-- The error for an NSID. -/
def invalidNsid (value : Text) (reason : String) : DataValidationError := ⟨"nsid", value, reason⟩

/-- The largest length of an NSID. -/
def maxNsidLength : Nat := 253 + 1 + 63

/-- The largest length of a segment. -/
def maxSegmentLength : Nat := 63

/-- Check the segments of an NSID one by one. -/
def checkSegments (value : Text) : List Bytes → Except DataValidationError Unit
  | [] => .ok ()
  | segment :: segments =>
    if segment = [] then .error (invalidNsid value "NSID segments must not be empty")
    else if maxSegmentLength < segment.length then
      .error (invalidNsid value "NSID segments must not exceed 63 characters")
    else if segment.head? = some hyphen ∨ segment.getLast? = some hyphen then
      .error (invalidNsid value "NSID segments must not start or end with a hyphen")
    else checkSegments value segments

/-- Check an NSID. -/
def validateNsid (value : Text) : Except DataValidationError Unit :=
  if value.bytes = [] then .error (invalidNsid value "NSID cannot be empty")
  else if maxNsidLength < value.bytes.length then
    .error (invalidNsid value "NSID exceeds maximum length of 317 characters")
  else if ¬ value.bytes.all fun byte => isAsciiAlphanumeric byte || byte = dot || byte = hyphen then
    .error (invalidNsid value "NSID may contain only ASCII letters, digits, dashes and periods")
  else
    let segments := value.bytes.splitOn dot
    if segments.length < 3 then
      .error (invalidNsid value "NSID must have at least 3 segments")
    else
      match checkSegments value segments with
      | .error error => .error error
      | .ok () =>
        let name := segments.getLastD []
        if (segments.headD []).head?.any isAsciiDigit then
          .error (invalidNsid value "the first NSID segment must not start with a digit")
        else if name.head?.any isAsciiDigit ∨ hyphen ∈ name then
          .error (invalidNsid value
            "the NSID name segment must be letters and digits with no leading digit")
        else .ok ()

/-! ### Record keys -/

/-- The error for a record key. -/
def invalidRecordKey (value : Text) (reason : String) : DataValidationError :=
  ⟨"record-key", value, reason⟩

/-- The byte may stand in a record key. -/
def isRecordKeyByte (byte : UInt8) : Bool :=
  isAsciiAlphanumeric byte || byte = dot || byte = hyphen || byte = 0x5f || byte = 0x7e || byte = 0x3a

/-- Check a record key. -/
def validateRecordKey (value : Text) : Except DataValidationError Unit :=
  if value.bytes = [] then .error (invalidRecordKey value "record key cannot be empty")
  else if 512 < value.bytes.length then
    .error (invalidRecordKey value "record key exceeds maximum length of 512 characters")
  else if value.bytes = [dot] ∨ value.bytes = [dot, dot] then
    .error (invalidRecordKey value "record key must not be '.' or '..'")
  else if ¬ value.bytes.all isRecordKeyByte then
    .error (invalidRecordKey value "record key contains invalid character")
  else .ok ()

/-! ### What valid names are made of -/

/-- Neither a slash nor a zero byte. -/
def Plain (bytes : Bytes) : Prop := Repo.slash ∉ bytes ∧ 0 ∉ bytes

theorem plain_of_all {p : UInt8 → Bool} {bytes : Bytes} (h : bytes.all p = true)
    (hslash : p Repo.slash = false) (hzero : p 0 = false) :
  Plain bytes
  := by
  rw [List.all_eq_true] at h
  constructor
  · intro hmem
    rw [h _ hmem] at hslash
    cases hslash
  · intro hmem
    rw [h _ hmem] at hzero
    cases hzero

/-- A valid NSID is plain and short. -/
theorem plain_of_validateNsid {value : Text} (h : validateNsid value = .ok ()) :
  Plain value.bytes ∧ value.bytes.length ≤ maxNsidLength
  := by
  unfold validateNsid at h
  split at h
  · cases h
  split at h
  · cases h
  rename_i hlength
  split at h
  · cases h
  rename_i hall
  exact ⟨plain_of_all (not_not.mp hall) (by decide) (by decide), not_lt.mp hlength⟩

/-- A valid record key is plain and short, and not empty. -/
theorem plain_of_validateRecordKey {value : Text} (h : validateRecordKey value = .ok ()) :
  Plain value.bytes ∧ value.bytes.length ≤ 512 ∧ value.bytes ≠ []
  := by
  unfold validateRecordKey at h
  split at h
  · cases h
  rename_i hempty
  split at h
  · cases h
  rename_i hlength
  split at h
  · cases h
  split at h
  · cases h
  rename_i hall
  exact ⟨plain_of_all (not_not.mp hall) (by decide) (by decide), not_lt.mp hlength, hempty⟩

example : (validateNsid (Repo.textOf "app.bsky.feed.post")).isOk = true := by decide

end Atproto.Lexicon
