import Atproto.Dasl.Errors
import Mathlib.Logic.Function.Basic
import Mathlib.Tactic.SplitIfs

/-!
# Content identifiers

A CID names a version, the codec of the content, a hash function and a digest.  The hash
function SHA-256 and the byte form of CIDs are parameters.
-/

namespace Atproto.Dasl

/-- A byte string. -/
abbrev Bytes : Type := List UInt8

/-- The version of a CID. -/
inductive CidVersion where
  | v0
  | v1
deriving DecidableEq

/-- The codec of DAG-PB. -/
def dagPbCodec : Nat := 0x70

/-- The codec of DAG-CBOR. -/
def dagCborCodec : Nat := 0x71

/-- The code of SHA-256. -/
def sha256Code : Nat := 0x12

/-- A content identifier.  Version 0 stands for DAG-PB content with a SHA-256 digest. -/
structure Cid where
  version : CidVersion
  codec : Nat
  hashCode : Nat
  digest : Bytes
  v0 : version = .v0 → codec = dagPbCodec ∧ hashCode = sha256Code ∧ digest.length = 32
deriving DecidableEq

/-- The CID of encoded data: version 1, DAG-CBOR, SHA-256. -/
def computeCid (sha256 : Bytes → Bytes) (data : Bytes) : Cid where
  version := .v1
  codec := dagCborCodec
  hashCode := sha256Code
  digest := sha256 data
  v0 := nofun

/-- Without collisions of the hash function, a CID determines the data. -/
theorem computeCid_injective {sha256 : Bytes → Bytes} (h : Function.Injective sha256) :
  Function.Injective (computeCid sha256)
  := by
  intro a b hab
  exact h (congrArg Cid.digest hab)

/-! ### The byte form -/

/-- The byte form of CIDs: the bytes of a CID, and the CID of some bytes or what is wrong
with them. -/
structure CidFormat where
  toBytes : Cid → Bytes
  parse : Bytes → Except String Cid

/-- What is relied on: a CID is read back from its bytes, and no CID is read from no
bytes. -/
structure CidFormat.Lawful (format : CidFormat) : Prop where
  round : ∀ cid, format.parse (format.toBytes cid) = .ok cid
  nonempty : ∀ cid, format.parse [] ≠ .ok cid

/-- The parser takes the whole payload. -/
def CidFormat.Whole (format : CidFormat) : Prop :=
  ∀ bytes cid, format.parse bytes = .ok cid → format.toBytes cid = bytes

theorem CidFormat.Lawful.injective {format : CidFormat} (h : format.Lawful) :
  Function.Injective format.toBytes
  := by
  intro a b hab
  have ha := h.round a
  rw [hab, h.round b] at ha
  cases ha
  rfl

theorem CidFormat.Lawful.toBytes_ne_nil {format : CidFormat} (h : format.Lawful) (cid : Cid) :
  format.toBytes cid ≠ []
  := by
  intro hnil
  have hround := h.round cid
  rw [hnil] at hround
  exact h.nonempty cid hround

variable (format : CidFormat)

/-- The identity multibase prefix. -/
def multibaseIdentity : UInt8 := 0x00

/-- The bytes of a CID under tag 42. -/
def Cid.toDagCborBytes (cid : Cid) : Bytes := multibaseIdentity :: format.toBytes cid

/-- The two lower-case hexadecimal digits of a byte. -/
def hexByte (byte : UInt8) : String :=
  String.ofList (Nat.toDigits 16 (byte.toNat / 16) ++ Nat.toDigits 16 (byte.toNat % 16))

/-- The CID of the bytes under tag 42. -/
def Cid.fromDagCborBytes (bytes : Bytes) : Except DecodeError Cid :=
  match bytes with
  | [] => .error (.invalidCid "empty bytes")
  | first :: rest =>
    if first ≠ multibaseIdentity then
      .error (.invalidCid s!"expected identity prefix 0x00, got 0x{hexByte first}")
    else (format.parse rest).mapError .invalidCid

variable {format}

theorem fromDagCborBytes_eq_ok {bytes : Bytes} {cid : Cid} :
  Cid.fromDagCborBytes format bytes = .ok cid ↔
    ∃ rest, bytes = multibaseIdentity :: rest ∧ format.parse rest = .ok cid
  := by
  cases bytes with
  | nil => simp [Cid.fromDagCborBytes]
  | cons first rest =>
    rw [Cid.fromDagCborBytes]
    split_ifs with hfirst
    · simp [hfirst]
    · rw [not_not] at hfirst
      subst hfirst
      cases hparse : format.parse rest with
      | error e => simp [Except.mapError, hparse]
      | ok other => simp [Except.mapError, hparse]

theorem CidFormat.Lawful.fromDagCborBytes (h : format.Lawful) (cid : Cid) :
  Cid.fromDagCborBytes format (cid.toDagCborBytes format) = .ok cid
  := fromDagCborBytes_eq_ok.mpr ⟨_, rfl, h.round cid⟩

theorem CidFormat.Whole.toDagCborBytes (h : format.Whole) {bytes : Bytes} {cid : Cid}
    (hcid : Cid.fromDagCborBytes format bytes = .ok cid) :
  cid.toDagCborBytes format = bytes
  := by
  obtain ⟨rest, rfl, hparse⟩ := fromDagCborBytes_eq_ok.mp hcid
  rw [Cid.toDagCborBytes, h rest cid hparse]

end Atproto.Dasl
