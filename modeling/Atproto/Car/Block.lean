import Atproto.Car.Varint
import Atproto.Dasl.Cbor.Encode
import Atproto.Logic.Action

/-!
# Blocks

A block is a CID and its data.  In an archive it has the length of both in front.  A block
is read from a source; it is checked against the limits before anything is taken, and once
more when its CID is known.
-/

namespace Atproto.Car

open Dasl Wire

/-! ### Configuration -/

/-- Limits on what is read. -/
structure LimitsConfig where
  maxBlockSize : Nat
  maxBlockCount : Nat
  maxCarSize : Nat

/-- What is checked. -/
structure CarConfig where
  verifyCids : Bool
  strictCidFormat : Bool
  limits : LimitsConfig

def LimitsConfig.default : LimitsConfig where
  maxBlockSize := 1024 * 1024
  maxBlockCount := 100000
  maxCarSize := 10 * 1024 * 1024 * 1024

def CarConfig.default : CarConfig where
  verifyCids := true
  strictCidFormat := true
  limits := .default

def CarConfig.noVerification : CarConfig where
  verifyCids := false
  strictCidFormat := false
  limits := .default

/-- Errors of archives.  A mismatch has the CIDs themselves for their texts, and the one
error of a source is its end. -/
inductive CarError where
  | invalidHeader (reason : String)
  | unsupportedVersion (version : Nat)
  | cidMismatch (expected actual : Cid)
  | invalidBlock (reason : String)
  | dagCborEncode (error : EncodeError)
  | dagCborDecode (error : DecodeError)
  | io
  | varint (error : VarintError)
  | invalidCid (reason : String)
  | noRoots
  | fileTooLarge (size max : Nat)
  | blockTooLarge (size max : Nat)
deriving DecidableEq

/-- The length of the CIDs of the format. -/
def daslCidByteLength : Nat := 36

/-- The length of the longest CID in front of data. -/
def maxCidByteLength : Nat := 96

/-- The number of bytes that are taken at a time. -/
def readChunk : Nat := 64 * 1024

/-- The codec of raw data. -/
def rawCodec : Nat := 0x55

/-! ### Blocks -/

/-- A block of an archive. -/
structure CarBlock where
  cid : Cid
  data : Bytes
deriving DecidableEq

/-- Lower-case hexadecimal digits. -/
def hex (value : Nat) : String := String.ofList (Nat.toDigits 16 value)

variable (format : CidFormat)

/-- Check that the CID is that of the data. -/
def CarBlock.verify (sha256 : Bytes → Bytes) (block : CarBlock) : Except CarError Unit :=
  let computed := computeCid sha256 block.data
  if computed ≠ block.cid then .error (.cidMismatch block.cid computed) else .ok ()

/-- Check the form of the CID. -/
def CarBlock.verifyFormat (block : CarBlock) : Except CarError Unit :=
  let codec := block.cid.codec
  let code := block.cid.hashCode
  let cidLen := (format.toBytes block.cid).length
  if block.cid.version ≠ .v1 then .error (.invalidCid "expected CIDv1, got V0")
  else if codec ≠ dagCborCodec ∧ codec ≠ rawCodec then
    .error (.invalidCid ("expected dag-cbor (0x71) or raw (0x55) codec, got 0x" ++ hex codec))
  else if code ≠ sha256Code then
    .error (.invalidCid ("expected sha2-256 hash (0x12), got 0x" ++ hex code))
  else if cidLen ≠ daslCidByteLength then
    .error (.invalidCid s!"DASL CID must be exactly {daslCidByteLength} bytes, got {cidLen}")
  else .ok ()

/-- The CID of a block and its data. -/
def CarBlock.payload (block : CarBlock) : Bytes := format.toBytes block.cid ++ block.data

/-- The bytes of a block. -/
def CarBlock.toBytes (block : CarBlock) : Bytes :=
  writeVarint (block.payload format).length ++ block.payload format

/-- Write a block. -/
def CarBlock.write (block : CarBlock) : Except CarError Bytes := do
  let _ ← (lengthArg (block.payload format).length).mapError .dagCborEncode
  .ok (block.toBytes format)

/-- Check the length of a CID and data before they are taken. -/
def checkedFrameLength (limits : LimitsConfig) (length : Nat) : Except CarError Nat :=
  let maxFrame := min (limits.maxBlockSize + maxCidByteLength) (2 ^ 64 - 1)
  if maxFrame < length then .error (.blockTooLarge length maxFrame) else .ok length

/-- Take a CID and data apart. -/
def splitFrame (limits : LimitsConfig) (blockBytes : Bytes) : Except CarError CarBlock :=
  match format.parse blockBytes with
  | .error reason => .error (.invalidCid reason)
  | .ok cid =>
    let cidLen := (format.toBytes cid).length
    if blockBytes.length ≤ cidLen then .error (.invalidBlock "block has no data after CID")
    else
      let data := blockBytes.drop cidLen
      if limits.maxBlockSize < data.length then
        .error (.blockTooLarge data.length limits.maxBlockSize)
      else .ok { cid := cid, data := data }

section Reading

variable {σ : Type} (source : Source σ)

/-- Take some bytes. -/
def readExact (n : Nat) : StateT σ (Except CarError) Bytes := fun s =>
  match source.readExact n s with
  | none => .error .io
  | some p => .ok p

/-- Take some bytes, a chunk at a time. -/
def readExactIncremental (length : Nat) : StateT σ (Except CarError) Bytes :=
  if _h : length = 0 then pure []
  else do
    let want := min length readChunk
    let chunk ← readExact source want
    let rest ← readExactIncremental (length - want)
    pure (chunk ++ rest)
termination_by length
decreasing_by
  have hchunk : 0 < readChunk := by decide
  omega

/-- Read a CID and data of a length. -/
def readFrame (limits : LimitsConfig) (length : Nat) : StateT σ (Except CarError) CarBlock := do
  if length = 0 then throw (.invalidBlock "block length is zero")
  else do
    let length ← checkedFrameLength limits length
    let blockBytes ← readExactIncremental source length
    splitFrame format limits blockBytes

/-- Read a block and what comes after it, or nothing at the end. -/
def readBlock (limits : LimitsConfig) (s : σ) : Except CarError (Option (CarBlock × σ)) :=
  match readVarint source s with
  | .error .unexpectedEof => .ok none
  | .error .overflow => .error (.varint .overflow)
  | .error .nonMinimal => .error (.varint .nonMinimal)
  | .ok (length, s) => (readFrame format source limits length s).map some

end Reading

/-- Read a block from a slice. -/
def CarBlock.readFromWithLimits (limits : LimitsConfig) :
    Bytes → Except CarError (Option (CarBlock × Bytes)) :=
  readBlock format slice limits

/-- Read a block from what arrives in pieces. -/
def readBlockWithLimits (limits : LimitsConfig) :
    Pieces → Except CarError (Option (CarBlock × Pieces)) :=
  readBlock format arriving limits

/-! ### The byte form of CIDs -/

/-- What a CID of the source can hold. -/
structure Representable (cid : Cid) : Prop where
  codec : cid.codec < 2 ^ 64
  hashCode : cid.hashCode < 2 ^ 64
  digest : cid.digest.length ≤ 64

/-- What is relied on in front of data: a CID that the source can hold is read back, whatever
comes after it, and it is not too long. -/
structure Framed (format : CidFormat) : Prop where
  front : ∀ cid rest, Representable cid → format.parse (format.toBytes cid ++ rest) = .ok cid
  bounded : ∀ cid, Representable cid → (format.toBytes cid).length ≤ maxCidByteLength

/-! ### Any source -/

section Follows

variable {σ : Type} {format : CidFormat} (source : Source σ)

theorem readExact_follows (n : Nat) :
  Follows source (readExact source n) (readExact slice n)
  := by
  intro s
  by_cases h : n ≤ (source.contents s).length
  · obtain ⟨s', hread, hcontents⟩ := source.exact h
    have hslice : slice.readExact n (source.contents s) = _ := if_pos h
    rw [readExact, readExact, hread, hslice, ← hcontents]
    rfl
  · have hread := source.short (Nat.not_le.mp h)
    have hslice : slice.readExact n (source.contents s) = none := if_neg h
    rw [readExact, readExact, hread, hslice]
    rfl

theorem readExactIncremental_follows (length : Nat) :
  Follows source (readExactIncremental source length) (readExactIncremental slice length)
  := by
  induction length using Nat.strong_induction_on with
  | h length ih =>
    rw [readExactIncremental, readExactIncremental]
    split_ifs with hzero
    · exact Follows.pure _
    · have hchunk : 0 < readChunk := by decide
      apply (readExact_follows source _).bind
      intro chunk
      apply (ih _ (by omega)).bind
      exact fun rest => Follows.pure _

theorem readFrame_follows (limits : LimitsConfig) (length : Nat) :
  Follows source (readFrame format source limits length) (readFrame format slice limits length)
  := by
  apply Follows.ite (Follows.throw _)
  apply (Follows.lift _).bind
  intro length
  apply (readExactIncremental_follows source length).bind
  exact fun blockBytes => Follows.lift _

/-- A block is read from a source as from its contents. -/
theorem readBlock_follows (limits : LimitsConfig) (s : σ) :
  (readBlock format source limits s).map (Option.map fun p => (p.1, source.contents p.2)) =
    readBlock format slice limits (source.contents s)
  := by
  have hvarint := readVarint_follows source s
  rw [readBlock, readBlock, ← hvarint]
  cases readVarint source s with
  | error e => cases e <;> rfl
  | ok p =>
    obtain ⟨length, s'⟩ := p
    have hframe := @readFrame_follows _ format source limits length s'
    change ((readFrame format source limits length s').map some).map _ =
      (readFrame format slice limits length (source.contents s')).map some
    rw [← hframe]
    cases readFrame format source limits length s' <;> rfl

end Follows

/-! ### What is written -/

variable {format}

theorem mapError_lengthArg_eq_ok {length : Nat} {arg : Nat} :
  (lengthArg length).mapError CarError.dagCborEncode = .ok arg ↔ length < 2 ^ 64 ∧ arg = length
  := by
  rw [Logic.mapError_eq_ok, lengthArg]
  split_ifs with h
  · rw [Except.ok.injEq, and_iff_right h]
    exact eq_comm
  · exact iff_of_false nofun fun hand => h hand.1

theorem write_eq_ok {block : CarBlock} {bytes : Bytes} :
  block.write format = .ok bytes ↔
    (block.payload format).length < 2 ^ 64 ∧ bytes = block.toBytes format
  := by
  constructor
  · intro h
    obtain ⟨length, hlength, hbytes⟩ := Logic.bind_eq_ok.mp h
    exact ⟨(mapError_lengthArg_eq_ok.mp hlength).1, (Except.ok.inj hbytes).symm⟩
  · rintro ⟨hlength, rfl⟩
    rw [CarBlock.write, mapError_lengthArg_eq_ok.mpr ⟨hlength, rfl⟩]
    rfl

/-! ### What is read -/

/-- Bytes that are cut off end within the first part or in the second one. -/
theorem part_of_append {part rest a b : Bytes} (h : part ++ rest = a ++ b) :
  (∃ tail, tail ≠ [] ∧ part ++ tail = a) ∨ ∃ body, part = a ++ body ∧ body ++ rest = b
  := by
  obtain ⟨tail, ha, hrest⟩ | ⟨body, hpart, hb⟩ := List.append_eq_append_iff.mp h
  · by_cases htail : tail = []
    · subst htail
      exact .inr ⟨[], by rw [ha, List.append_nil, List.append_nil], hrest⟩
    · exact .inl ⟨tail, htail, ha.symm⟩
  · exact .inr ⟨body, hpart, hb.symm⟩

variable {limits : LimitsConfig}

theorem readExact_append (bytes rest : Bytes) :
  readExact slice bytes.length (bytes ++ rest) = .ok (bytes, rest)
  := by
  have hread : slice.readExact bytes.length (bytes ++ rest) = some (bytes, rest) := by
    change readSlice bytes.length (bytes ++ rest) = _
    rw [readSlice, if_pos (by simp), List.take_left, List.drop_left]
  rw [readExact, hread]

theorem readExactIncremental_append (bytes rest : Bytes) :
  readExactIncremental slice bytes.length (bytes ++ rest) = .ok (bytes, rest)
  := by
  induction hlength : bytes.length using Nat.strong_induction_on generalizing bytes with
  | h length ih =>
    rw [readExactIncremental]
    split_ifs with hzero
    · obtain rfl := List.length_eq_zero_iff.mp (hlength.trans hzero)
      rfl
    · have hchunk : 0 < readChunk := by decide
      have htake : (bytes.take (min length readChunk)).length = min length readChunk := by
        rw [List.length_take]
        omega
      have hdrop : (bytes.drop (min length readChunk)).length = length - min length readChunk := by
        rw [List.length_drop, hlength]
      have hfirst := readExact_append (bytes.take (min length readChunk))
        (bytes.drop (min length readChunk) ++ rest)
      rw [← List.append_assoc, List.take_append_drop, htake] at hfirst
      rw [bind_apply, hfirst]
      change (readExactIncremental slice (length - min length readChunk) >>= fun tail => pure
        (bytes.take (min length readChunk) ++ tail)) (bytes.drop (min length readChunk) ++ rest) = _
      rw [bind_apply, ih _ (by omega) _ hdrop]
      change Except.ok (_ ++ _, _) = _
      rw [List.take_append_drop]

theorem readExact_short {n : Nat} {bytes : Bytes} (h : bytes.length < n) :
  readExact slice n bytes = .error .io
  := by
  have hread : slice.readExact n bytes = none := if_neg (Nat.not_le.mpr h)
  rw [readExact, hread]

/-- Too few bytes are an error. -/
theorem readExactIncremental_short {length : Nat} {bytes : Bytes} (h : bytes.length < length) :
  readExactIncremental slice length bytes = .error .io
  := by
  induction length using Nat.strong_induction_on generalizing bytes with
  | h length ih =>
    have hchunk : 0 < readChunk := by decide
    rw [readExactIncremental, dif_neg (by omega)]
    by_cases hfirst : bytes.length < min length readChunk
    · rw [bind_apply, readExact_short hfirst]
    · have htake : (bytes.take (min length readChunk)).length = min length readChunk := by
        rw [List.length_take]
        omega
      have hread := readExact_append (bytes.take (min length readChunk))
        (bytes.drop (min length readChunk))
      rw [List.take_append_drop, htake] at hread
      rw [bind_apply, hread]
      change (readExactIncremental slice (length - min length readChunk) >>= fun tail => pure
        (bytes.take (min length readChunk) ++ tail)) (bytes.drop (min length readChunk)) = _
      rw [bind_apply, ih _ (by omega)]
      rw [List.length_drop]
      omega

theorem readBlock_length {length : Nat} (h : length < 2 ^ 64) (rest : Bytes) :
  readBlock format slice limits (writeVarint length ++ rest) =
    (readFrame format slice limits length rest).map some
  := by
  rw [readBlock, readVarint_writeVarint h]

/-- Within a length the end is taken for the end of the archive. -/
theorem readBlock_part_of_length {length : Nat} (h : length < 2 ^ 64) {part rest : Bytes}
    (hrest : rest ≠ []) (hpart : part ++ rest = writeVarint length) :
  readBlock format slice limits part = .ok none
  := by
  rw [readBlock, readVarint_part h hrest hpart]

theorem readBlock_nil :
  readBlock format slice limits [] = .ok none
  := readBlock_part_of_length (Nat.two_pow_pos 64) (writeVarint_ne_nil 0) rfl

/-- The blocks within the limits. -/
structure CarBlock.Fits (format : CidFormat) (limits : LimitsConfig) (block : CarBlock) : Prop where
  cid : Representable block.cid
  size : block.data.length ≤ limits.maxBlockSize
  length : (block.payload format).length < 2 ^ 64

variable {block : CarBlock}

theorem checkedFrameLength_ok (hformat : Framed format) (h : block.Fits format limits) :
  checkedFrameLength limits (block.payload format).length = .ok (block.payload format).length
  := by
  have hcid := hformat.bounded block.cid h.cid
  have hlength := h.length
  have hsize := h.size
  rw [CarBlock.payload, List.length_append] at hlength ⊢
  have hle : ¬ min (limits.maxBlockSize + maxCidByteLength) (2 ^ 64 - 1) <
      (format.toBytes block.cid).length + block.data.length := by omega
  rw [checkedFrameLength]
  exact if_neg hle

theorem splitFrame_payload (hformat : Framed format) (h : block.Fits format limits) :
  splitFrame format limits (block.payload format) =
    if block.data = [] then .error (.invalidBlock "block has no data after CID") else .ok block
  := by
  rw [splitFrame, CarBlock.payload, hformat.front _ _ h.cid]
  simp only [List.length_append, List.drop_left]
  by_cases hdata : block.data = []
  · rw [if_pos hdata, if_pos (by rw [hdata, List.length_nil, Nat.add_zero])]
  · have hpos := List.length_pos_iff.mpr hdata
    rw [if_neg hdata, if_neg (by omega), if_neg (Nat.not_lt.mpr h.size)]

/-- A block without data is refused, and any other is read back. -/
theorem readBlock_toBytes (hformat : Framed format) (hlawful : format.Lawful)
    (h : block.Fits format limits) (rest : Bytes) :
  readBlock format slice limits (block.toBytes format ++ rest) =
    if block.data = [] then .error (.invalidBlock "block has no data after CID")
    else .ok (some (block, rest))
  := by
  have hpos : (block.payload format).length ≠ 0 := by
    have hcid := List.length_pos_iff.mpr (hlawful.toBytes_ne_nil block.cid)
    rw [CarBlock.payload, List.length_append]
    omega
  rw [CarBlock.toBytes, List.append_assoc, readBlock_length h.length, readFrame, if_neg hpos,
    checkedFrameLength_ok hformat h]
  change Except.map some ((readExactIncremental slice (block.payload format).length >>= fun
    blockBytes => liftM (splitFrame format limits blockBytes)) (block.payload format ++ rest)) = _
  rw [bind_apply, readExactIncremental_append]
  simp only
  rw [splitFrame_payload hformat h]
  split_ifs <;> rfl

/-- After its length, a block that is cut off is an error. -/
theorem readBlock_part (hformat : Framed format) (hlawful : format.Lawful)
    (h : block.Fits format limits) {part rest : Bytes} (hrest : rest ≠ [])
    (hpart : part ++ rest = block.payload format) :
  readBlock format slice limits (writeVarint (block.payload format).length ++ part) = .error .io
  := by
  have hpos : (block.payload format).length ≠ 0 := by
    have hcid := List.length_pos_iff.mpr (hlawful.toBytes_ne_nil block.cid)
    rw [CarBlock.payload, List.length_append]
    omega
  have hshort : part.length < (block.payload format).length := by
    have hpositive := List.length_pos_iff.mpr hrest
    rw [← hpart, List.length_append]
    omega
  rw [readBlock_length h.length, readFrame, if_neg hpos, checkedFrameLength_ok hformat h]
  change Except.map some ((readExactIncremental slice (block.payload format).length >>= fun
    blockBytes => liftM (splitFrame format limits blockBytes)) part) = _
  rw [bind_apply, readExactIncremental_short hshort]
  rfl

end Atproto.Car
