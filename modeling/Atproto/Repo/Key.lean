import Atproto.Dasl.Text

/-!
# Keys

A key is a text, compared byte by byte.  Its height is half the number of leading zero
bits of its SHA-256 digest.
-/

namespace Atproto.Repo

open Atproto.Dasl

/-- A key of the tree. -/
abbrev Key : Type := Text

/-- The number of leading zero bits of a byte. -/
def leadingZeros (byte : UInt8) : Nat := 8 - (Nat.log2 byte.toNat + 1)

/-- The number of leading zero bits of some bytes. -/
def countLeadingZeroBits : Bytes → Nat
  | [] => 0
  | byte :: bytes => if byte = 0 then 8 + countLeadingZeroBits bytes else leadingZeros byte

/-- The height of a key. -/
def keyHeight (sha256 : Bytes → Bytes) (key : Key) : Nat :=
  countLeadingZeroBits (sha256 key.bytes) / 2

/-- The byte of the separator between the collection and the record key. -/
def slash : UInt8 := 0x2f

/-- Check that a key has a collection and a record key; otherwise say what is wrong. -/
def validateKey (key : Key) : Except String Unit :=
  if key.bytes = [] then .error "key cannot be empty"
  else if slash ∉ key.bytes then .error "key must contain '/' separator"
  else
    let collection := key.bytes.takeWhile (· ≠ slash)
    let rkey := (key.bytes.dropWhile (· ≠ slash)).drop 1
    if collection = [] then .error "collection cannot be empty"
    else if rkey = [] then .error "rkey cannot be empty"
    else .ok ()

/-- The length of the common prefix of two byte strings. -/
def commonPrefixLen : Bytes → Bytes → Nat
  | a :: as, b :: bs => if a = b then commonPrefixLen as bs + 1 else 0
  | _, _ => 0

theorem commonPrefixLen_le (a b : Bytes) :
  commonPrefixLen a b ≤ a.length
  := by
  induction a, b using commonPrefixLen.induct with
  | case1 a as bs ih =>
    rw [commonPrefixLen, if_pos rfl, List.length_cons]
    omega
  | case2 a as b bs h =>
    rw [commonPrefixLen, if_neg h]
    exact Nat.zero_le _
  | case3 a b h =>
    rw [commonPrefixLen]
    · exact Nat.zero_le _
    · exact h

/-- The common prefix of `a` and `b`, followed by the rest of `b`, is `b`. -/
theorem take_commonPrefixLen_append (a b : Bytes) :
  a.take (commonPrefixLen a b) ++ b.drop (commonPrefixLen a b) = b
  := by
  induction a, b using commonPrefixLen.induct with
  | case1 a as bs ih =>
    rw [commonPrefixLen, if_pos rfl, List.take_succ_cons, List.drop_succ_cons, List.cons_append, ih]
  | case2 a as b bs h =>
    rw [commonPrefixLen, if_neg h]
    rfl
  | case3 a b h =>
    rw [commonPrefixLen]
    · rfl
    · exact h

end Atproto.Repo
