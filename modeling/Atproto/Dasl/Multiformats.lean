import Atproto.Dasl.Cid
import Atproto.Logic.Action
import Atproto.Wire.Varint

/-!
# A byte form of CIDs

Version 0 is a SHA-256 multihash alone.  Version 1 has the version, the codec and a
multihash, a hash code, the length of the digest and the digest.  This form has what is
relied on in a byte form of CIDs.
-/

namespace Atproto.Dasl

open Wire

/-- The bytes in front of the digest of version 0. -/
def v0Prefix : Bytes := [0x12, 0x20]

/-- The bytes of a CID. -/
def multiformatsToBytes (cid : Cid) : Bytes :=
  match cid.version with
  | .v0 => v0Prefix ++ cid.digest
  | .v1 => 0x01 :: (varint cid.codec ++ (varint cid.hashCode ++
      (varint cid.digest.length ++ cid.digest)))

/-- The CID of version 0 with a digest. -/
def cidV0 (digest : Bytes) (h : digest.length = 32) : Cid where
  version := .v0
  codec := dagPbCodec
  hashCode := sha256Code
  digest := digest
  v0 _ := ⟨rfl, rfl, h⟩

/-- The CID of version 1 with the given parts. -/
def cidV1 (codec hashCode : Nat) (digest : Bytes) : Cid where
  version := .v1
  codec := codec
  hashCode := hashCode
  digest := digest
  v0 := nofun

/-- Read a digest of the given length that ends the input. -/
def parseDigest (codec hashCode length : Nat) (input : Bytes) : Except String Cid :=
  if input.length = length then .ok (cidV1 codec hashCode input)
  else .error "Failed to parse multihash"

/-- Read what comes after the version. -/
def parseV1 (input : Bytes) : Except String Cid := do
  let (codec, input) ← readVarint "Failed to parse multihash" input
  let (hashCode, input) ← readVarint "Failed to parse multihash" input
  let (length, input) ← readVarint "Failed to parse multihash" input
  parseDigest codec hashCode length input

/-- The CID of some bytes. -/
def multiformatsParse : Bytes → Except String Cid
  | 0x12 :: 0x20 :: digest =>
    if h : digest.length = 32 then .ok (cidV0 digest h) else .error "Failed to parse multihash"
  | 0x01 :: rest => parseV1 rest
  | _ => .error "Invalid CID version"

/-- The byte form of CIDs. -/
def multiformats : CidFormat where
  toBytes := multiformatsToBytes
  parse := multiformatsParse

theorem parseV1_eq (codec hashCode length : Nat) (digest : Bytes) :
  parseV1 (varint codec ++ (varint hashCode ++ (varint length ++ digest))) =
    parseDigest codec hashCode length digest
  := by
  rw [parseV1, readVarint_varint]
  change (do
    let (hashCode, input) ← readVarint "Failed to parse multihash"
      (varint hashCode ++ (varint length ++ digest))
    let (length, input) ← readVarint "Failed to parse multihash" input
    parseDigest codec hashCode length input) = _
  rw [readVarint_varint]
  change (do
    let (length, input) ← readVarint "Failed to parse multihash" (varint length ++ digest)
    parseDigest codec hashCode length input) = _
  rw [readVarint_varint]
  rfl

theorem multiformats_lawful :
  multiformats.Lawful
  where
  round cid := by
    obtain ⟨version, codec, hashCode, digest, hv0⟩ := cid
    cases version with
    | v0 =>
      obtain ⟨rfl, rfl, hlength⟩ := hv0 rfl
      exact dif_pos hlength
    | v1 =>
      change parseV1 (varint codec ++ (varint hashCode ++ (varint digest.length ++ digest))) = _
      rw [parseV1_eq, parseDigest, if_pos rfl]
      rfl
  nonempty cid := nofun

theorem parseV1_parts {input : Bytes} {cid : Cid} (h : parseV1 input = .ok cid) :
  cid.version = .v1 ∧ input = varint cid.codec ++ (varint cid.hashCode ++
    (varint cid.digest.length ++ cid.digest))
  := by
  obtain ⟨⟨codec, afterCodec⟩, hcodec, hhashes⟩ := Logic.bind_eq_ok.mp h
  obtain ⟨⟨hashCode, afterHash⟩, hhash, hlengths⟩ := Logic.bind_eq_ok.mp hhashes
  obtain ⟨⟨length, digest⟩, hlength, hparse⟩ := Logic.bind_eq_ok.mp hlengths
  obtain ⟨_, rfl, rfl⟩ := readVarint_parses _ _ _ hcodec
  obtain ⟨_, rfl, rfl⟩ := readVarint_parses _ _ _ hhash
  obtain ⟨_, rfl, rfl⟩ := readVarint_parses _ _ _ hlength
  simp only [parseDigest] at hparse
  split_ifs at hparse with hdigest
  cases hparse
  rw [cidV1, hdigest]
  exact ⟨rfl, rfl⟩

theorem multiformats_whole :
  multiformats.Whole
  := by
  intro bytes cid h
  change multiformatsParse bytes = .ok cid at h
  change multiformatsToBytes cid = bytes
  unfold multiformatsParse at h
  split at h
  · split_ifs at h
    cases h
    rfl
  · next rest =>
    obtain ⟨hversion, hrest⟩ := parseV1_parts h
    rw [multiformatsToBytes, hversion, hrest]
  · cases h

end Atproto.Dasl
