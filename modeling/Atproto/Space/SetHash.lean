import Atproto.Dasl.Text
import Mathlib.Algebra.Group.Pi.Basic
import Mathlib.Data.UInt

/-!
# The set hash of a space

A set of elements is hashed to 1024 lanes of 16 bits.  Each element is expanded to as many
lanes with BLAKE3, whose output is a parameter, and added to the state lane by lane.
-/

namespace Atproto.Space

open Atproto.Dasl

/-- The number of lanes. -/
def lanes : Nat := 1024

/-- The length of a state in bytes. -/
def stateLength : Nat := 2 * lanes

/-- The state of the set hash. -/
abbrev LtHash : Type := Fin lanes → UInt16

/-- What went wrong in a space. -/
inductive SpaceError where
  | invalidSpaceUri (uri : Text)
  | invalidSpaceType (value : Text)
  | invalidSpaceKey (value : Text)
  | setHashCodec (reason : String)
  | duplicateKeyInBatch (collection rkey : Text)
  | recordAlreadyExists (collection rkey : Text)
  | recordNotFound (collection rkey : Text)
  | duplicateMemberInBatch (did : Text)
  | memberAlreadyExists (did : Text)
  | notAMember (did : Text)
  | contextEncoding (reason : String)
  | unsupportedCommitVersion (ver : UInt32)
  | hkdf (reason : String)
  | signature (reason : String)
  | commitTagMismatch
  | commitSignatureInvalid
  | storage (reason : String)
  /-- No error of the source: the call panics. -/
  | panicked

/-- The number with a low and a high byte. -/
def fromLeBytes (lo hi : UInt8) : UInt16 := UInt16.ofNat (lo.toNat + 256 * hi.toNat)

/-- The low byte of a lane. -/
def loByte (lane : UInt16) : UInt8 := UInt8.ofNat (lane.toNat % 256)

/-- The high byte of a lane. -/
def hiByte (lane : UInt16) : UInt8 := UInt8.ofNat (lane.toNat / 256)

theorem fromLeBytes_bytes (lane : UInt16) :
  fromLeBytes (loByte lane) (hiByte lane) = lane
  := by
  have hlt : lane.toNat < 2 ^ 16 := lane.toNat_lt
  have hlo : (loByte lane).toNat = lane.toNat % 256 := by
    rw [loByte, UInt8.toNat_ofNat']
    omega
  have hhi : (hiByte lane).toNat = lane.toNat / 256 := by
    rw [hiByte, UInt8.toNat_ofNat']
    omega
  apply UInt16.toNat_inj.mp
  rw [fromLeBytes, UInt16.toNat_ofNat', hlo, hhi]
  omega

namespace LtHash

variable (blake3 : Bytes → Fin stateLength → UInt8)

/-- The lanes of an element. -/
def expand (element : Bytes) : LtHash := fun i =>
  fromLeBytes (blake3 element ⟨2 * i, Nat.mul_lt_mul_of_pos_left i.isLt Nat.two_pos⟩)
    (blake3 element ⟨2 * i + 1, by
      have h := i.isLt
      simp only [stateLength]
      omega⟩)

/-- The hash of no elements. -/
def empty : LtHash := fun _ => 0

/-- Add an element. -/
def add (hash : LtHash) (element : Bytes) : LtHash := fun i => hash i + expand blake3 element i

/-- Remove an element. -/
def remove (hash : LtHash) (element : Bytes) : LtHash := fun i => hash i - expand blake3 element i

/-- The bytes of a state. -/
def stateBytes (hash : LtHash) : Bytes :=
  List.ofFn fun j : Fin stateLength =>
    let lane := hash ⟨j / 2, Nat.div_lt_of_lt_mul j.isLt⟩
    if j.val % 2 = 0 then loByte lane else hiByte lane

/-- The state with some bytes. -/
def fromStateBytes (bytes : Bytes) : Except SpaceError LtHash :=
  if h : bytes.length = stateLength then
    .ok fun i =>
      fromLeBytes (bytes.get ⟨2 * i, by
          have hi := i.isLt
          simp only [h, stateLength]
          omega⟩)
        (bytes.get ⟨2 * i + 1, by
          have hi := i.isLt
          simp only [h, stateLength]
          omega⟩)
  else
    .error (.setHashCodec s!"LtHash state must be {stateLength} bytes, got {bytes.length}")

variable {blake3}

theorem add_eq (hash : LtHash) (element : Bytes) :
  add blake3 hash element = hash + expand blake3 element
  := rfl

theorem remove_eq (hash : LtHash) (element : Bytes) :
  remove blake3 hash element = hash - expand blake3 element
  := rfl

theorem empty_eq :
  empty = 0
  := rfl

theorem length_stateBytes (hash : LtHash) :
  (stateBytes hash).length = stateLength
  := by
  rw [stateBytes, List.length_ofFn]

/-- The byte of a state at an index. -/
theorem get_stateBytes (hash : LtHash) (j : Nat) (h : j < (stateBytes hash).length)
    (i : Fin lanes) (hi : j / 2 = i) :
  (stateBytes hash).get ⟨j, h⟩ = if j % 2 = 0 then loByte (hash i) else hiByte (hash i)
  := by
  have hlane : (⟨j / 2, hi.trans_lt i.isLt⟩ : Fin lanes) = i := Fin.ext hi
  rw [← hlane]
  exact List.getElem_ofFn _

/-- A state is read back from its bytes. -/
theorem fromStateBytes_stateBytes (hash : LtHash) :
  fromStateBytes (stateBytes hash) = .ok hash
  := by
  rw [fromStateBytes, dif_pos (length_stateBytes hash)]
  apply congrArg Except.ok
  funext i
  rw [get_stateBytes hash _ _ i (by omega), get_stateBytes hash _ _ i (by omega),
    if_pos (by omega), if_neg (by omega)]
  exact fromLeBytes_bytes (hash i)

attribute [irreducible] stateBytes fromStateBytes

end LtHash

/-- The bytes hashed for a record. -/
def recordElementBytes (collection rkey cid : Text) : Bytes :=
  collection.bytes ++ 0x2f :: rkey.bytes ++ 0x2f :: cid.bytes

/-- The bytes hashed for a member. -/
def memberElementBytes (did : Text) : Bytes := did.bytes

end Atproto.Space
