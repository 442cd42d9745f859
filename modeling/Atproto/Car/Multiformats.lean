import Atproto.Car.Block
import Atproto.Dasl.Multiformats

/-!
# CIDs in front of data

The byte form of CIDs says how long it is, so a CID is read off the front of other bytes.
-/

namespace Atproto.Car

open Dasl Wire

/-- Take a digest of the given length off the front. -/
def takeDigest (codec hashCode length : Nat) (input : Bytes) : Except String Cid :=
  if length ≤ input.length then .ok (cidV1 codec hashCode (input.take length))
  else .error "Failed to parse multihash"

/-- Read what comes after the version. -/
def frontV1 (input : Bytes) : Except String Cid := do
  let (codec, input) ← Wire.readVarint "Failed to parse multihash" input
  let (hashCode, input) ← Wire.readVarint "Failed to parse multihash" input
  let (length, input) ← Wire.readVarint "Failed to parse multihash" input
  takeDigest codec hashCode length input

/-- Read what comes after the first two bytes of version 0. -/
def frontV0 (input : Bytes) : Except String Cid :=
  if h : 32 ≤ input.length then .ok (cidV0 (input.take 32) (List.length_take_of_le h))
  else .error "Failed to parse multihash"

/-- The CID at the front of some bytes. -/
def frontParse : Bytes → Except String Cid
  | 0x12 :: 0x20 :: rest => frontV0 rest
  | 0x01 :: rest => frontV1 rest
  | _ => .error "Invalid CID version"

/-- The byte form of CIDs, read off the front of other bytes. -/
def multiformatsFront : CidFormat where
  toBytes := multiformatsToBytes
  parse := frontParse

theorem frontV1_eq (codec hashCode length : Nat) (rest : Bytes) :
  frontV1 (varint codec ++ (varint hashCode ++ (varint length ++ rest))) =
    takeDigest codec hashCode length rest
  := by
  rw [frontV1, readVarint_varint]
  change (do
    let (hashCode, input) ← Wire.readVarint "Failed to parse multihash"
      (varint hashCode ++ (varint length ++ rest))
    let (length, input) ← Wire.readVarint "Failed to parse multihash" input
    takeDigest codec hashCode length input) = _
  rw [readVarint_varint]
  change (do
    let (length, input) ← Wire.readVarint "Failed to parse multihash" (varint length ++ rest)
    takeDigest codec hashCode length input) = _
  rw [readVarint_varint]
  rfl

theorem front_append (cid : Cid) (rest : Bytes) :
  multiformatsFront.parse (multiformatsFront.toBytes cid ++ rest) = .ok cid
  := by
  obtain ⟨version, codec, hashCode, digest, hv0⟩ := cid
  cases version with
  | v0 =>
    obtain ⟨rfl, rfl, hlength⟩ := hv0 rfl
    change frontV0 (digest ++ rest) = _
    have htake : (digest ++ rest).take 32 = digest := List.take_left' hlength
    rw [frontV0, dif_pos (by rw [List.length_append]; omega)]
    simp only [cidV0, htake]
  | v1 =>
    change frontV1 ((varint codec ++ (varint hashCode ++ (varint digest.length ++ digest))) ++ rest) = _
    rw [List.append_assoc, List.append_assoc, List.append_assoc, frontV1_eq, takeDigest,
      if_pos (by simp), List.take_left]
    rfl

theorem front_lawful :
  multiformatsFront.Lawful
  where
  round cid := by
    have hfront := front_append cid []
    rwa [List.append_nil] at hfront
  nonempty cid := nofun

/-- Numbers of at most `7 * (k + 1)` bits have at most `k + 1` bytes. -/
theorem length_varint_le {k value : Nat} (h : value < 128 ^ (k + 1)) :
  (varint value).length ≤ k + 1
  := by
  induction k generalizing value with
  | zero =>
    rw [varint_of_lt (by simpa using h)]
    exact le_refl 1
  | succ k ih =>
    rcases Nat.lt_or_ge value 128 with hsmall | hlarge
    · rw [varint_of_lt hsmall, List.length_singleton]
      omega
    · rw [varint_of_ge hlarge, List.length_cons]
      have hdiv : value / 128 < 128 ^ (k + 1) := by
        rw [Nat.div_lt_iff_lt_mul (by decide), ← Nat.pow_succ]
        exact h
      exact Nat.succ_le_succ (ih hdiv)

theorem front_framed :
  Framed multiformatsFront
  where
  front cid rest _ := front_append cid rest
  bounded cid h := by
    obtain ⟨hcodec, hhash, hdigest⟩ := h
    change (multiformatsToBytes cid).length ≤ 96
    rw [multiformatsToBytes]
    cases hversion : cid.version with
    | v0 =>
      have hlength := (cid.v0 hversion).2.2
      simp only [v0Prefix, List.length_append, List.length_cons, List.length_nil]
      omega
    | v1 =>
      have hword : (2 : Nat) ^ 64 < 128 ^ (9 + 1) := by decide
      have hc := length_varint_le (hcodec.trans hword)
      have hh := length_varint_le (hhash.trans hword)
      have hl := @length_varint_le 0 cid.digest.length (by omega)
      simp only [List.length_append, List.length_cons]
      omega

end Atproto.Car
