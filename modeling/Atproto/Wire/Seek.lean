import Mathlib.Algebra.Order.Ring.Int
import Mathlib.Data.List.Basic

/-!
# Positions in byte arrays

A cursor over a byte array is moved to positions that are counted from the start, the end or where
it is.  It may be beyond the end, where there is nothing to read.
-/

namespace Wire

/-- Where a position is counted from. -/
inductive SeekFrom where
  | start (offset : UInt64)
  | fromEnd (offset : Int64)
  | current (offset : Int64)

/-- The error for a position that is negative or has more than 64 bits. -/
inductive SeekError where
  | invalidInput
deriving DecidableEq

/-- Add to a position. -/
def checkedAddSigned (base : Nat) (offset : Int64) : Option Nat :=
  let target := (base : Int) + offset.toInt
  if 0 ≤ target ∧ target < 2 ^ 64 then some target.toNat else none

/-- A byte array and a position. -/
structure ByteCursor where
  contents : List UInt8
  position : Nat
deriving DecidableEq

namespace ByteCursor

/-- The position that is meant. -/
def target (cursor : ByteCursor) : SeekFrom → Option Nat
  | .start offset => some offset.toNat
  | .fromEnd offset => checkedAddSigned cursor.contents.length offset
  | .current offset => checkedAddSigned cursor.position offset

/-- Move to a position, or stay. -/
def seek (cursor : ByteCursor) (position : SeekFrom) : Except SeekError Nat × ByteCursor :=
  match cursor.target position with
  | some target => (.ok target, { cursor with position := target })
  | none => (.error .invalidInput, cursor)

/-- Read at most some bytes. -/
def read (cursor : ByteCursor) (count : Nat) : List UInt8 × ByteCursor :=
  let data := (cursor.contents.drop cursor.position).take count
  (data, { cursor with position := cursor.position + data.length })

/-- Write bytes over what is there, with zeros in a gap. -/
def write (cursor : ByteCursor) (data : List UInt8) : ByteCursor where
  contents :=
    cursor.contents.take cursor.position ++
      (List.replicate (cursor.position - cursor.contents.length) 0 ++
        (data ++ cursor.contents.drop (cursor.position + data.length)))
  position := cursor.position + data.length

/-- What is written at the end is appended. -/
theorem write_at_end {cursor : ByteCursor} (h : cursor.position = cursor.contents.length)
    (data : List UInt8) :
  cursor.write data =
    ⟨cursor.contents ++ data, (cursor.contents ++ data).length⟩
  := by
  rw [write, h, List.take_length, Nat.sub_self, List.replicate_zero, List.nil_append,
    List.drop_eq_nil_of_le (Nat.le_add_right _ _), List.append_nil, List.length_append]

end ByteCursor

end Wire
