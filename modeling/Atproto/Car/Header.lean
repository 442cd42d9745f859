import Atproto.Car.Block
import Atproto.Repo.CommitBytes

/-!
# Headers

An archive starts with its version and its roots, encoded as a map with the length of the
encoding in front.  A header is read back from its encoding unless that is over a mebibyte
long.
-/

namespace Atproto.Car

open Dasl Wire CborTree Logic Repo

/-- The header of an archive. -/
structure CarHeader where
  version : Nat
  roots : List Cid
deriving DecidableEq

/-- The header of the first version. -/
def CarHeader.new (roots : List Cid) : Except CarError CarHeader :=
  if roots.isEmpty then .error .noRoots else .ok { version := 1, roots := roots }

def fieldRoots : Text := textOf "roots"

variable (config : DecodeConfig) (format : CidFormat)

/-! ### Serializing -/

/-- Serialize CIDs one after another. -/
def serializeCids : List Cid → Except EncodeError (List Bytes)
  | [] => .ok []
  | cid :: cids => do
    let part ← serializeCid format cid
    let parts ← serializeCids cids
    .ok (part :: parts)

/-- An array of CIDs. -/
def serializeCidArray (cids : List Cid) : Except EncodeError Bytes := do
  let header ← encodeArrayHeader cids.length
  let parts ← serializeCids format cids
  .ok (header ++ parts.flatten)

/-- Serialize a header. -/
def CarHeader.toCborBytes (header : CarHeader) : Except EncodeError Bytes := do
  let version ← serializeField fieldVersion (encodeU64 header.version)
  let roots ← serializeField fieldRoots (serializeCidArray format header.roots)
  endMap [version, roots]

/-- The bytes of a header. -/
def writeHeader (header : CarHeader) : Except CarError Bytes := do
  let cbor ← (header.toCborBytes format).mapError .dagCborEncode
  let length ← (lengthArg cbor.length).mapError .dagCborEncode
  .ok (writeVarint length ++ cbor)

/-! ### Deserializing -/

/-- Deserialize an array of CIDs. -/
def deserializeCids (levels : Nat) : Decoder (List Cid) := do
  let item ← decodeItem config
  arrayOfItem config levels (fun _ length => seqAccess (deserializeCid config format) length) item

/-- The fields of a header read so far. -/
structure HeaderFields where
  version : Option Nat
  roots : Option (List Cid)

/-- Take a field of a header. -/
def headerField (levels : Nat) (fields : HeaderFields) (key : Text) : Decoder HeaderFields :=
  if key = fieldVersion then do
    let value ← takeField "version" fields.version (deserializeU64 config)
    pure { fields with version := some value }
  else if key = fieldRoots then do
    let value ← takeField "roots" fields.roots (deserializeCids config format levels)
    pure { fields with roots := some value }
  else do
    let _ ← deserializeAny config format ignoredAny levels
    pure fields

/-- The header of its fields. -/
def HeaderFields.finish (fields : HeaderFields) : Decoder CarHeader := do
  let version ← requireField "version" fields.version
  let roots ← requireField "roots" fields.roots
  pure { version := version, roots := roots }

/-- The fields of a header, in a map of the given length. -/
def headerFields (levels length : Nat) : Decoder CarHeader := do
  let fields ← mapAccess config (headerField config format levels) ⟨none, none⟩ none length
  fields.finish

/-- Deserialize a header. -/
def CarHeader.deserialize : Decoder CarHeader := do
  let item ← decodeItem config
  mapOfItem config config.maxDepth (headerFields config format) item

/-- Check a header. -/
def CarHeader.check (header : CarHeader) : Except CarError CarHeader :=
  if header.version ≠ 1 then .error (.unsupportedVersion header.version)
  else if header.roots.isEmpty then .error .noRoots
  else .ok header

/-- The header of an encoding. -/
def CarHeader.fromCborBytes (bytes : Bytes) : Except CarError CarHeader := do
  let header ← (fromSlice (CarHeader.deserialize .default format) bytes).mapError .dagCborDecode
  header.check

/-- The length of the longest encoding that is read. -/
def maxHeaderLength : Nat := 1024 * 1024

section Reading

variable {σ α : Type} (source : Source σ)

/-- Read a length as a part of an archive. -/
def liftVarint (program : StateT σ (Except VarintError) α) : StateT σ (Except CarError) α :=
  fun s => (program s).mapError .varint

/-- Read a header with an encoding of a length. -/
def readHeaderOf (length : Nat) : StateT σ (Except CarError) CarHeader :=
  if length > maxHeaderLength then throw (.invalidHeader s!"header too large: {length} bytes")
  else do
    let headerBytes ← readExact source length
    CarHeader.fromCborBytes format headerBytes

/-- Read a header. -/
def readHeader : StateT σ (Except CarError) CarHeader := do
  let length ← liftVarint (readVarint source)
  readHeaderOf format source length

variable {format}

theorem liftVarint_follows {program : StateT σ (Except VarintError) α}
    {reader : Reader VarintError α} (h : Follows source program reader) :
  Follows source (liftVarint program) (liftVarint reader)
  := by
  intro s
  rw [liftVarint, liftVarint, ← h s]
  cases program s <;> rfl

/-- A header is read from a source as from its contents. -/
theorem readHeader_follows :
  Follows source (readHeader format source) (readHeader format slice)
  := by
  apply (liftVarint_follows source (readVarint_follows source)).bind
  intro length
  apply Follows.ite (Follows.throw _)
  apply (readExact_follows source length).bind
  exact fun headerBytes => Follows.lift _

end Reading

/-- Read a header from a slice. -/
def CarHeader.readFrom : Bytes → Except CarError (CarHeader × Bytes) := readHeader format slice

/-- Read a header from what arrives in pieces. -/
def readHeaderAsync : Pieces → Except CarError (CarHeader × Pieces) := readHeader format arriving

/-! ### What is written -/

/-- The encoding of an array of CIDs. -/
def cidsEncoding (cids : List Cid) : Bytes :=
  (CborItem.array cids.length).encode ++
    cids.flatMap fun cid => encodeLink (cid.toDagCborBytes format)

/-- The encoding of the header with some roots. -/
def headerEncoding (roots : List Cid) : Bytes :=
  encodeMap [(fieldRoots, cidsEncoding format roots), (fieldVersion, (CborItem.unsigned 1).encode)]

/-- The header with some roots, and its length in front. -/
def headerFrame (roots : List Cid) : Bytes :=
  writeVarint (headerEncoding format roots).length ++ headerEncoding format roots

/-- The roots that have an encoding. -/
structure RootsSized (roots : List Cid) : Prop where
  length : roots.length < 2 ^ 64
  cids : ∀ cid ∈ roots, CidSized format cid

variable {config format} {roots : List Cid} {bytes : Bytes}

theorem serializeCids_eq_ok {cids : List Cid} {parts : List Bytes} :
  serializeCids format cids = .ok parts ↔ (∀ cid ∈ cids, CidSized format cid) ∧
    parts = cids.map fun cid => encodeLink (cid.toDagCborBytes format)
  := by
  induction cids generalizing parts with
  | nil =>
    rw [serializeCids, Except.ok.injEq, and_iff_right nofun]
    exact eq_comm
  | cons cid cids ih =>
    rw [List.forall_mem_cons]
    constructor
    · intro h
      obtain ⟨_, hpart, h⟩ := bind_eq_ok.mp h
      obtain ⟨_, hparts, hlist⟩ := bind_eq_ok.mp h
      obtain ⟨hcid, rfl⟩ := serializeCid_eq_ok.mp hpart
      obtain ⟨hcids, rfl⟩ := ih.mp hparts
      exact ⟨⟨hcid, hcids⟩, (Except.ok.inj hlist).symm⟩
    · rintro ⟨⟨hcid, hcids⟩, rfl⟩
      rw [serializeCids, serializeCid_ok hcid, ih.mpr ⟨hcids, rfl⟩]
      rfl

theorem serializeCidArray_eq_ok :
  serializeCidArray format roots = .ok bytes ↔
    RootsSized format roots ∧ bytes = cidsEncoding format roots
  := by
  constructor
  · intro h
    obtain ⟨_, hheader, h⟩ := bind_eq_ok.mp h
    obtain ⟨_, hparts, hbytes⟩ := bind_eq_ok.mp h
    obtain ⟨hlength, rfl⟩ := encodeLengthHead_eq_ok.mp hheader
    obtain ⟨hcids, rfl⟩ := serializeCids_eq_ok.mp hparts
    exact ⟨⟨hlength, hcids⟩, (Except.ok.inj hbytes).symm⟩
  · rintro ⟨⟨hlength, hcids⟩, rfl⟩
    rw [serializeCidArray, encodeArrayHeader, encodeLengthHead_ok _ hlength,
      serializeCids_eq_ok.mpr ⟨hcids, rfl⟩]
    rfl

theorem sortEntries_header (version roots : Bytes) :
  sortEntries [(fieldVersion, version), (fieldRoots, roots)] =
    [(fieldRoots, roots), (fieldVersion, version)]
  := by
  apply sortEntries_eq
  · have hless : KeyLess fieldRoots fieldVersion := by decide
    simp [hless]
  · exact List.Perm.swap _ _ _

/-- What is written for a header. -/
theorem toCborBytes_eq_ok :
  CarHeader.toCborBytes format { version := 1, roots := roots } = .ok bytes ↔
    RootsSized format roots ∧ bytes = headerEncoding format roots
  := by
  have hend := @endMap_ok [(fieldVersion, (CborItem.unsigned 1).encode),
    (fieldRoots, cidsEncoding format roots)] (by simp) (by simp; decide)
  rw [sortEntries_header] at hend
  constructor
  · intro h
    obtain ⟨_, hfieldVersion, h⟩ := bind_eq_ok.mp h
    obtain ⟨_, hfieldRoots, hmap⟩ := bind_eq_ok.mp h
    obtain ⟨_, hversion, rfl⟩ := (serializeField_eq_ok (by decide)).mp hfieldVersion
    obtain ⟨_, hroots, rfl⟩ := (serializeField_eq_ok (by decide)).mp hfieldRoots
    obtain ⟨-, rfl⟩ := encodeU64_eq_ok.mp hversion
    obtain ⟨hsized, rfl⟩ := serializeCidArray_eq_ok.mp hroots
    exact ⟨hsized, Except.ok.inj (hmap.symm.trans hend)⟩
  · rintro ⟨hsized, rfl⟩
    have hone : 1 < 2 ^ 64 := by decide
    rw [CarHeader.toCborBytes,
      (serializeField_eq_ok (by decide)).mpr ⟨_, encodeU64_eq_ok.mpr ⟨hone, rfl⟩, rfl⟩,
      (serializeField_eq_ok (by decide)).mpr
        ⟨_, serializeCidArray_eq_ok.mpr ⟨hsized, rfl⟩, rfl⟩]
    exact hend

theorem writeHeader_eq_ok :
  writeHeader format { version := 1, roots := roots } = .ok bytes ↔
    (RootsSized format roots ∧ (headerEncoding format roots).length < 2 ^ 64) ∧
      bytes = headerFrame format roots
  := by
  constructor
  · intro h
    obtain ⟨cbor, hcbor, h⟩ := bind_eq_ok.mp h
    obtain ⟨length, hlength, hbytes⟩ := bind_eq_ok.mp h
    obtain ⟨hsized, rfl⟩ := toCborBytes_eq_ok.mp (mapError_eq_ok.mp hcbor)
    obtain ⟨hword, rfl⟩ := mapError_lengthArg_eq_ok.mp hlength
    exact ⟨⟨hsized, hword⟩, (Except.ok.inj hbytes).symm⟩
  · rintro ⟨⟨hsized, hword⟩, rfl⟩
    rw [writeHeader, toCborBytes_eq_ok.mpr ⟨hsized, rfl⟩]
    change (lengthArg _).mapError CarError.dagCborEncode >>= _ = _
    rw [mapError_lengthArg_eq_ok.mpr ⟨hword, rfl⟩]
    rfl

/-! ### What is read -/

/-- The roots within the limits of a configuration. -/
structure RootsFit (config : DecodeConfig) (format : CidFormat) (roots : List Cid) : Prop where
  depth : 2 ≤ config.maxDepth
  alloc : 8 ≤ config.maxAlloc
  fields : WithinLimit config.maxMapEntries 2
  length : WithinLimit config.maxArrayElements roots.length
  cids : ∀ cid ∈ roots, CidFits config format cid

theorem deserializeCids_reads (hformat : format.Lawful) (h : RootsSized format roots) {levels : Nat}
    {excuse : Prop} (hdepth : levels = 0 → excuse) (hexcuse : ¬ RootsFit config format roots → excuse) :
  Reads (deserializeCids config format levels) (cidsEncoding format roots) roots 0 excuse
  := by
  have hheader : (CborItem.array roots.length).Exceeds config → excuse := by
    rintro (hlt | hlimit)
    · exact hexcuse fun hfits => absurd hlt (Nat.not_lt.mpr hfits.alloc)
    · exact hexcuse fun hfits => hlimit hfits.length
  have hneed : (CborItem.array roots.length).need ≤
      (roots.flatMap fun cid => encodeLink (cid.toDagCborBytes format)).length := by
    have hlength := @le_length_flatMap _ (fun cid : Cid => encodeLink (cid.toDagCborBytes format)) 1
      roots fun cid _ => List.length_pos_iff.mpr (CborTree.encode_ne_nil (.link _))
    rwa [Nat.one_mul] at hlength
  apply ((decodeItem_reads (.array _) h.length).mono (le_refl _) hheader).bind _ hneed
  cases levels with
  | zero => exact Reads.fail (hdepth rfl)
  | succ levels =>
    have hcids : ∀ cid ∈ roots, Reads (deserializeCid config format)
        (encodeLink (cid.toDagCborBytes format)) (id cid) 0 excuse := by
      intro cid hcid
      apply deserializeCid_reads hformat (h.cids cid hcid)
      exact fun hnot => hexcuse fun hfits => hnot ⟨hfits.alloc, hfits.cids cid hcid⟩
    have hseq := seqAccess_reads hcids
    rw [List.map_id] at hseq
    exact hseq

section Steps

variable {levels : Nat} {fields : HeaderFields} {excuse : Prop}

theorem headerField_version {version : Nat}
    (h : Reads (deserializeU64 config) bytes version 0 excuse) (hnone : fields.version = none) :
  Reads (headerField config format levels fields fieldVersion) bytes
    { fields with version := some version } 0 excuse
  := by
  rw [headerField, if_pos rfl, hnone]
  exact (takeField_reads h).bind_nil (Reads.pure _) (le_refl 0)

theorem headerField_roots (h : Reads (deserializeCids config format levels) bytes roots 0 excuse)
    (hnone : fields.roots = none) :
  Reads (headerField config format levels fields fieldRoots) bytes
    { fields with roots := some roots } 0 excuse
  := by
  rw [headerField, if_neg (by decide), if_pos rfl, hnone]
  exact (takeField_reads h).bind_nil (Reads.pure _) (le_refl 0)

end Steps

/-- The deserializer reads a header back. -/
theorem deserialize_header_reads (hformat : format.Lawful) (h : RootsSized format roots) :
  Reads (CarHeader.deserialize config format) (headerEncoding format roots)
    { version := 1, roots := roots } 0 (¬ RootsFit config format roots)
  := by
  have hname : ∀ name : Text, name.bytes.length ≤ 8 → TextExceeds config name →
      ¬ RootsFit config format roots :=
    fun name hlength hexceeds hfits => textExceeds_field hlength hexceeds hfits.alloc
  have hheader : (CborItem.map 2).Exceeds config → ¬ RootsFit config format roots := by
    rintro (hlt | hlimit) hfits
    · exact absurd hlt (Nat.not_lt.mpr hfits.alloc)
    · exact hlimit hfits.fields
  have hversion : Reads (deserializeU64 config) (CborItem.unsigned 1).encode 1 0
      (¬ RootsFit config format roots) :=
    deserializeU64_reads (by decide) fun hnot hfits => hnot hfits.alloc
  have hvalues : ∀ e ∈ [(fieldRoots, cidsEncoding format roots),
      (fieldVersion, (CborItem.unsigned 1).encode)], e.2 ≠ [] := by
    have hroots : cidsEncoding format roots ≠ [] :=
      List.append_ne_nil_of_left_ne_nil (CborItem.encode_ne_nil _) _
    simpa [CborItem.encode_ne_nil] using hroots
  apply encodeMap_reads (by simp) hvalues hheader
  cases hlevels : config.maxDepth with
  | zero =>
    apply Reads.fail
    intro hfits
    have hdepth := hfits.depth
    omega
  | succ levels =>
    have hdepth : levels = 0 → ¬ RootsFit config format roots := by
      intro hzero hfits
      have hdepth := hfits.depth
      omega
    have hroots := @deserializeCids_reads config format roots hformat h levels _ hdepth id
    have hafterRoots : Reads (mapAccess config (headerField config format levels)
        ⟨none, some roots⟩ (some fieldRoots) 1) _ ⟨some 1, some roots⟩ 0
        (¬ RootsFit config format roots) :=
      mapAccess_reads_cons (by decide) (lessField (by decide)) (hname fieldVersion (by decide))
        (headerField_version hversion rfl) (Reads.pure _)
    have hfields : Reads (mapAccess config (headerField config format levels) ⟨none, none⟩ none 2) _
        _ 0 (¬ RootsFit config format roots) :=
      mapAccess_reads_cons (by decide) nofun (hname fieldRoots (by decide))
        (headerField_roots hroots rfl) hafterRoots
    exact hfields.bind_nil (Reads.pure _) (le_refl 0)

/-- An encoding is no shorter than the encoding of the roots. -/
theorem length_cidsEncoding_le (roots : List Cid) :
  (cidsEncoding format roots).length ≤ (headerEncoding format roots).length
  := by
  rw [headerEncoding, encodeMap, List.flatMap_cons, entryBytes]
  simp only [List.length_append]
  omega

theorem length_roots_le (roots : List Cid) :
  roots.length ≤ (headerEncoding format roots).length
  := by
  have hlength := @le_length_flatMap _ (fun cid : Cid => encodeLink (cid.toDagCborBytes format)) 1
    roots fun cid _ => List.length_pos_iff.mpr (CborTree.encode_ne_nil (.link _))
  have hle := @length_cidsEncoding_le format roots
  rw [cidsEncoding, List.length_append] at hle
  omega

theorem length_root_le {cid : Cid} (h : cid ∈ roots) :
  (cid.toDagCborBytes format).length ≤ (headerEncoding format roots).length
  := by
  have hle := @length_cidsEncoding_le format roots
  have hmem : (encodeLink (cid.toDagCborBytes format)).length ≤
      (roots.flatMap fun cid => encodeLink (cid.toDagCborBytes format)).length := by
    obtain ⟨before, after, rfl⟩ := List.append_of_mem h
    rw [List.flatMap_append, List.flatMap_cons]
    simp only [List.length_append]
    omega
  have hlink : (cid.toDagCborBytes format).length ≤
      (encodeLink (cid.toDagCborBytes format)).length := by
    rw [encodeLink, CborItem.encode, CborItem.encode]
    simp only [List.length_append]
    omega
  rw [cidsEncoding, List.length_append] at hle
  omega

/-- Roots with an encoding that is not too long are within the default limits. -/
theorem rootsFit_default (h : (headerEncoding format roots).length ≤ maxHeaderLength) :
  RootsFit .default format roots
  := by
  have hmax : maxHeaderLength = 1048576 := rfl
  have hlength := @length_roots_le format roots
  constructor
  · decide
  · decide
  · exact fun _ => by decide
  · intro _
    change roots.length ≤ 16777216
    omega
  · intro cid hcid
    have hcid := @length_root_le format roots cid hcid
    change (cid.toDagCborBytes format).length ≤ 64 * 1024 * 1024
    omega

theorem fromCborBytes_headerEncoding (hformat : format.Lawful) (h : RootsSized format roots)
    (hne : roots ≠ []) (hlength : (headerEncoding format roots).length ≤ maxHeaderLength) :
  CarHeader.fromCborBytes format (headerEncoding format roots) =
    .ok { version := 1, roots := roots }
  := by
  have hread := fromSlice_of_reads (@deserialize_header_reads .default format roots hformat h)
    (not_not.mpr (rootsFit_default hlength))
  have hcheck : CarHeader.check { version := 1, roots := roots } =
      .ok { version := 1, roots := roots } := by
    rw [CarHeader.check, if_neg (not_not.mpr rfl), if_neg (by simpa using hne)]
  rw [CarHeader.fromCborBytes, hread]
  exact hcheck

theorem readHeader_length {length : Nat} (h : length < 2 ^ 64) (rest : Bytes) :
  readHeader format slice (writeVarint length ++ rest) = readHeaderOf format slice length rest
  := by
  rw [readHeader, bind_apply, liftVarint, readVarint_writeVarint h]
  rfl

/-- A header is read back unless its encoding is too long. -/
theorem readHeader_headerFrame (hformat : format.Lawful) (h : RootsSized format roots)
    (hne : roots ≠ []) (hword : (headerEncoding format roots).length < 2 ^ 64) (rest : Bytes) :
  readHeader format slice (headerFrame format roots ++ rest) =
    if (headerEncoding format roots).length > maxHeaderLength then
      .error (.invalidHeader s!"header too large: {(headerEncoding format roots).length} bytes")
    else .ok ({ version := 1, roots := roots }, rest)
  := by
  rw [headerFrame, List.append_assoc, readHeader_length hword, readHeaderOf]
  split_ifs with hlong
  · rfl
  · rw [bind_apply, readExact_append]
    simp only
    rw [fromCborBytes_headerEncoding hformat h hne (Nat.not_lt.mp hlong)]
    rfl

/-- A header that is cut off is an error. -/
theorem readHeader_part (hword : (headerEncoding format roots).length < 2 ^ 64) {part rest : Bytes}
    (hrest : rest ≠ []) (hpart : part ++ rest = headerFrame format roots) :
  ∃ e, readHeader format slice part = .error e
  := by
  obtain ⟨tail, htail, hlength⟩ | ⟨body, rfl, hbody⟩ := part_of_append hpart
  · use .varint .unexpectedEof
    rw [readHeader, bind_apply, liftVarint, readVarint_part hword htail hlength]
    rfl
  · have hshort : body.length < (headerEncoding format roots).length := by
      have hpositive := List.length_pos_iff.mpr hrest
      rw [← hbody, List.length_append]
      omega
    rw [readHeader_length hword, readHeaderOf]
    split_ifs with hlong
    · exact ⟨_, rfl⟩
    · use .io
      rw [bind_apply, readExact_short hshort]

end Atproto.Car
