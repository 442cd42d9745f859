import Atproto.Record.Tid
import Atproto.Repo.Codec
import Mathlib.Data.Char

/-!
# Commits

A commit names the repository, the root of its tree and a revision, and is signed.  A revision
is a text; the ones that are issued here are the texts of TIDs.
-/

namespace Atproto.Repo

open Atproto.Dasl Atproto.Record

/-! ### Revisions -/

/-- The bytes of the text of a TID. -/
def tidBytes (tid : Tid) : Bytes := tid.encode.map fun char => UInt8.ofNat char.toNat

theorem mem_encodeLoop {i value : Nat} {chars : List Char} {char : Char}
    (h : char ∈ Tid.encodeLoop i value chars) :
  char ∈ chars ∨ ∃ d < 32, char = Tid.digitChar d
  := by
  induction i generalizing value chars with
  | zero => exact Or.inl h
  | succ i ih =>
    obtain hmem | hdigit := ih h
    · obtain rfl | hmem := List.mem_cons.mp hmem
      · exact Or.inr ⟨_, Nat.lt_succ_of_le Nat.and_le_right, rfl⟩
      · exact Or.inl hmem
    · exact Or.inr hdigit

/-- The characters of a TID are digits of the alphabet. -/
theorem exists_digit_of_mem {tid : Tid} {char : Char} (h : char ∈ tid.encode) :
  ∃ d < 32, char = Tid.digitChar d
  := by
  obtain hmem | hdigit := mem_encodeLoop h
  · cases hmem
  · exact hdigit

theorem isUtf8_map_digits {chars : List Char} (h : ∀ char ∈ chars, ∃ d < 32, char = Tid.digitChar d) :
  IsUtf8 (chars.map fun char => UInt8.ofNat char.toNat)
  := by
  induction chars with
  | nil => exact Text.empty.utf8
  | cons char chars ih =>
    obtain ⟨hchar, hchars⟩ := List.forall_mem_cons.mp h
    obtain ⟨d, hd, rfl⟩ := hchar
    have hdigit : ∀ d : Fin 32, IsUtf8 [UInt8.ofNat (Tid.digitChar d).toNat] := by decide
    exact Text.isUtf8_append (hdigit ⟨d, hd⟩) (ih hchars)

/-- The revision that a TID stands for. -/
def revOf (tid : Tid) : Text where
  bytes := tidBytes tid
  utf8 := isUtf8_map_digits fun _ => exists_digit_of_mem

/-- Revisions sort as their TIDs. -/
theorem revOf_lt_revOf {a b : Tid} (h : a.value < b.value) :
  revOf a < revOf b
  := by
  have hcodes : ∀ tid : Tid, (revOf tid).codes = tid.encode.map Char.toNat := by
    intro tid
    have hbytes : (revOf tid).bytes = tid.encode.map fun char => UInt8.ofNat char.toNat := rfl
    rw [Text.codes, Wire.codes, hbytes, List.map_map]
    apply List.map_congr_left
    intro char hchar
    obtain ⟨d, hd, rfl⟩ := exists_digit_of_mem hchar
    have hdigit : ∀ d : Fin 32,
        (UInt8.ofNat (Tid.digitChar d).toNat).toNat = (Tid.digitChar d).toNat := by decide
    exact hdigit ⟨d, hd⟩
  have hlt : (revOf a).codes < (revOf b).codes := by
    rw [hcodes, hcodes]
    apply List.map_lt _ (Tid.encode_lt_encode.mpr h)
    exact fun x y hxy => hxy
  exact hlt

/-! ### Commits -/

/-- A commit before it is signed. -/
structure UnsignedCommit where
  did : Text
  version : Nat
  data : Cid
  rev : Text
  prev : Option Cid

/-- A signed commit. -/
structure Commit where
  did : Text
  version : Nat
  data : Cid
  rev : Text
  prev : Option Cid
  sig : Bytes

/-- A commit of the current version. -/
def UnsignedCommit.new (did : Text) (data : Cid) (rev : Text) (prev : Option Cid) :
    UnsignedCommit where
  did := did
  version := 3
  data := data
  rev := rev
  prev := prev

/-- Add a signature. -/
def UnsignedCommit.sign (commit : UnsignedCommit) (sig : Bytes) : Commit where
  did := commit.did
  version := commit.version
  data := commit.data
  rev := commit.rev
  prev := commit.prev
  sig := sig

/-- The commit without its signature. -/
def Commit.unsigned (commit : Commit) : UnsignedCommit where
  did := commit.did
  version := commit.version
  data := commit.data
  rev := commit.rev
  prev := commit.prev

/-! ### Bytes -/

def fieldDid : Text := textOf "did"
def fieldVersion : Text := textOf "version"
def fieldData : Text := textOf "data"
def fieldRev : Text := textOf "rev"
def fieldPrev : Text := textOf "prev"
def fieldSig : Text := textOf "sig"

variable (config : DecodeConfig) (format : CidFormat)

/-- A number of 64 bits. -/
def encodeU64 (value : Nat) : Except EncodeError Bytes :=
  if value < 2 ^ 64 then .ok (encodeUnsigned value) else .error .unrepresentable

/-- The fields that are signed. -/
def UnsignedCommit.fields (commit : UnsignedCommit) : Except EncodeError (List (Bytes × Bytes)) := do
  let did ← serializeField fieldDid (encodeText commit.did)
  let version ← serializeField fieldVersion (encodeU64 commit.version)
  let data ← serializeField fieldData (serializeCid format commit.data)
  let rev ← serializeField fieldRev (encodeText commit.rev)
  let prev ← serializeField fieldPrev (serializeOption format commit.prev)
  .ok [did, version, data, rev, prev]

/-- The bytes that are signed. -/
def UnsignedCommit.toBytes (commit : UnsignedCommit) : Except EncodeError Bytes := do
  let fields ← commit.fields format
  endMap fields

/-- The bytes of a commit. -/
def Commit.toBytes (commit : Commit) : Except EncodeError Bytes := do
  let fields ← commit.unsigned.fields format
  let sig ← serializeField fieldSig (encodeBytes commit.sig)
  endMap (fields ++ [sig])

/-- A number of 64 bits. -/
def u64OfItem : CborItem → Decoder Nat
  | .unsigned value => pure value
  | .negative value => Wire.Reader.fail
      (.invalidCbor s!"negative integer {value} cannot be converted to unsigned")
  | item => typeMismatch "unsigned integer" item

def deserializeU64 : Decoder Nat := do
  let item ← decodeItem config
  u64OfItem item

/-- A text. -/
def stringOfItem : CborItem → Decoder Text
  | .text string => pure string
  | item => typeMismatch "string" item

def deserializeString : Decoder Text := do
  let item ← decodeItem config
  stringOfItem item

/-- The fields of a commit read so far. -/
structure CommitFields where
  did : Option Text
  version : Option Nat
  data : Option Cid
  rev : Option Text
  prev : Option (Option Cid)
  sig : Option Bytes

/-- No fields. -/
def CommitFields.empty : CommitFields := ⟨none, none, none, none, none, none⟩

/-- Take a field that is signed. -/
def unsignedField (levels : Nat) (fields : CommitFields) (key : Text) : Decoder CommitFields :=
  if key = fieldDid then do
    let value ← takeField "did" fields.did (deserializeString config)
    pure { fields with did := some value }
  else if key = fieldVersion then do
    let value ← takeField "version" fields.version (deserializeU64 config)
    pure { fields with version := some value }
  else if key = fieldData then do
    let value ← takeField "data" fields.data (deserializeCid config format)
    pure { fields with data := some value }
  else if key = fieldRev then do
    let value ← takeField "rev" fields.rev (deserializeString config)
    pure { fields with rev := some value }
  else if key = fieldPrev then do
    let value ← takeField "prev" fields.prev (deserializeOption config (deserializeCid config format))
    pure { fields with prev := some value }
  else do
    let _ ← deserializeAny config format ignoredAny levels
    pure fields

/-- Take a field of a signed commit. -/
def commitField (levels : Nat) (fields : CommitFields) (key : Text) : Decoder CommitFields :=
  if key = fieldSig then do
    let value ← takeField "sig" fields.sig (deserializeByteBuf config)
    pure { fields with sig := some value }
  else unsignedField config format levels fields key

/-- The unsigned commit of its fields; a missing previous commit is none. -/
def CommitFields.unsigned (fields : CommitFields) : Decoder UnsignedCommit := do
  let did ← requireField "did" fields.did
  let version ← requireField "version" fields.version
  let data ← requireField "data" fields.data
  let rev ← requireField "rev" fields.rev
  pure { did := did, version := version, data := data, rev := rev, prev := fields.prev.getD none }

/-- The commit of its fields. -/
def CommitFields.finish (fields : CommitFields) : Decoder Commit := do
  let unsigned ← fields.unsigned
  let sig ← requireField "sig" fields.sig
  pure (unsigned.sign sig)

/-- The fields of a commit, in a map of the given length. -/
def commitFields (levels length : Nat) : Decoder Commit := do
  let fields ← mapAccess config (commitField config format levels) .empty none length
  fields.finish

/-- The fields of an unsigned commit, in a map of the given length. -/
def unsignedFields (levels length : Nat) : Decoder UnsignedCommit := do
  let fields ← mapAccess config (unsignedField config format levels) .empty none length
  fields.unsigned

/-- Deserialize a commit. -/
def Commit.deserialize : Decoder Commit := do
  let item ← decodeItem config
  mapOfItem config config.maxDepth (commitFields config format) item

/-- Deserialize an unsigned commit. -/
def UnsignedCommit.deserialize : Decoder UnsignedCommit := do
  let item ← decodeItem config
  mapOfItem config config.maxDepth (unsignedFields config format) item

/-- The commit of some bytes. -/
def Commit.fromBytes (bytes : Bytes) : Except DecodeError Commit :=
  fromSlice (Commit.deserialize .default format) bytes

end Atproto.Repo
