import Atproto.Car.RoundTrip
import Atproto.Car.Multiformats
import Atproto.Json.TextForms
import Atproto.Pds.RecordBytes
import Mathlib.Data.Prod.Lex

/-!
# The export of a repository of a space

The archive of a repository has two roots, the commit and an index from the paths of the records to
their CIDs.  The records follow in the order in which the encoder writes the paths.
-/

namespace Atproto.Pds.Export

open Atproto.Car Atproto.Dasl Atproto.Repo CborTree Logic SearchTree Wire

/-- A record as it is stored. -/
structure RecordRow where
  collection : Text
  rkey : Text
  cid : Text
  value : Bytes

/-- The path of a record within a repository. -/
structure RecordPath where
  text : Text

namespace RecordPath

def new (collection rkey : Text) : RecordPath := ⟨collection ++ textOf "/" ++ rkey⟩

/-- Paths are compared by their lengths, and then by their bytes. -/
def key (path : RecordPath) : ℕ ×ₗ Text := toLex (path.text.bytes.length, path.text)

theorem key_injective :
  Function.Injective key
  := by
  rintro ⟨a⟩ ⟨b⟩ h
  exact congrArg RecordPath.mk (congrArg Prod.snd (toLex.injective h))

instance : LinearOrder RecordPath := LinearOrder.lift' key key_injective

/-- The order of paths is the order of map keys. -/
theorem lt_iff {a b : RecordPath} :
  a < b ↔ KeyLess a.text b.text
  := Prod.Lex.toLex_lt_toLex

end RecordPath

/-- The path of a row. -/
def RecordRow.path (row : RecordRow) : RecordPath := .new row.collection row.rkey

/-- Errors of an export.  The text of each is that of the error below it, after what was done. -/
inductive ExportError where
  | recordCid (cid : Text) (error : String)
  | index (error : EncodeError)
  | header (error : CarError)
  | rootBlock (error : CarError)
  | recordBlock (error : CarError)

/-- Records in the order in which they are written. -/
abbrev SortedRecords : Type := List (RecordPath × Cid × Bytes)

variable (forms : TextForms) (format : CidFormat) (sha256 : Bytes → Bytes)

/-- Add one page of records. -/
def extend (sorted : SortedRecords) : List RecordRow → Except ExportError SortedRecords
  | [] => .ok sorted
  | row :: rows => do
    let parsed ← (forms.cidParse row.cid).mapError (.recordCid row.cid)
    extend (SearchTree.insert row.path (parsed, row.value) sorted) rows

/-- Add the pages as they arrive. -/
def extendAll (sorted : SortedRecords) : List (List RecordRow) → Except ExportError SortedRecords
  | [] => .ok sorted
  | page :: pages => do
    let sorted ← extend forms sorted page
    extendAll sorted pages

/-- A link in JSON. -/
def linkJson (cid : Cid) : Json := .object [(linkKey, .string (forms.cidToString cid))]

/-- The index in JSON. -/
def indexJson (sorted : SortedRecords) : Json :=
  .object (collect (sorted.map fun record => (record.1.text, linkJson forms record.2.1)))

def buildRepoCarSorted (commitBlock : Bytes) (sorted : SortedRecords) :
    Except ExportError Bytes := do
  let commitCid := computeCid sha256 commitBlock
  let indexBlock ← (repoRecordBytes forms format (indexJson forms sorted)).mapError .index
  let indexCid := computeCid sha256 indexBlock
  let writer ← (CarWriter.withConfig format [commitCid, indexCid] .default).mapError .header
  let writer ← (writer.writeBlocks format sha256
    [⟨commitCid, commitBlock⟩, ⟨indexCid, indexBlock⟩]).mapError .rootBlock
  let writer ← (writer.writeBlocks format sha256
    (sorted.map fun record => ⟨record.2.1, record.2.2⟩)).mapError .recordBlock
  .ok writer.writer

/-- The archive of a commit and of the records that arrive in pages. -/
def buildRepoCar (commitBlock : Bytes) (pages : List (List RecordRow)) :
    Except ExportError Bytes := do
  let sorted ← extendAll forms [] pages
  buildRepoCarSorted forms format sha256 commitBlock sorted

/-! ### Sorting -/

variable {forms format sha256} {sorted : SortedRecords} {rows : List RecordRow}
  {pages : List (List RecordRow)}

/-- A record with its CID. -/
def record (sha256 : Bytes → Bytes) (row : RecordRow) : RecordPath × Cid × Bytes :=
  (row.path, computeCid sha256 row.value, row.value)

/-- The CID of a row is that of its value. -/
def RecordRow.Hashes (forms : TextForms) (sha256 : Bytes → Bytes) (row : RecordRow) : Prop :=
  forms.cidParse row.cid = .ok (computeCid sha256 row.value)

theorem extend_eq (h : ∀ row ∈ rows, row.Hashes forms sha256) :
  extend forms sorted rows = .ok ((rows.map (record sha256)).foldl
    (fun sorted pair => SearchTree.insert pair.1 pair.2 sorted) sorted)
  := by
  induction rows generalizing sorted with
  | nil => rfl
  | cons row rows ih =>
    obtain ⟨hrow, hrows⟩ := List.forall_mem_cons.mp h
    rw [extend, hrow, List.map_cons, List.foldl_cons]
    exact ih hrows

/-- Pages are added as their rows are. -/
theorem extendAll_eq (h : ∀ row ∈ pages.flatten, row.Hashes forms sha256) :
  extendAll forms sorted pages = .ok ((pages.flatten.map (record sha256)).foldl
    (fun sorted pair => SearchTree.insert pair.1 pair.2 sorted) sorted)
  := by
  induction pages generalizing sorted with
  | nil => rfl
  | cons page pages ih =>
    rw [List.flatten_cons] at h ⊢
    obtain ⟨hpage, hpages⟩ := List.forall_mem_append.mp h
    rw [extendAll, extend_eq hpage, List.map_append, List.foldl_append]
    exact ih hpages

/-! ### The index -/

/-- The entries of the index, as the encoder writes them one after another. -/
def indexEntries (format : CidFormat) (sorted : SortedRecords) : List (Text × Bytes) :=
  sorted.map fun record => (record.1.text, encodeLink (record.2.1.toDagCborBytes format))

/-- The map from the paths of records to their CIDs. -/
def indexMap (sorted : SortedRecords) : List (Text × Cid) :=
  collect (sorted.map fun record => (record.1.text, record.2.1))

/-- The map in the data model. -/
def indexValue (sorted : SortedRecords) : Ipld :=
  .map ((indexMap sorted).map fun entry => (entry.1, .link entry.2))

theorem indexMap_spec (h : Sorted sorted) :
  Sorted (indexMap sorted) ∧
    (indexMap sorted).Perm (sorted.map fun record => (record.1.text, record.2.1))
  := by
  apply collect_spec
  apply List.pairwise_map.mpr
  apply h.imp
  intro a b hlt heq
  exact hlt.ne (congrArg RecordPath.mk heq)

theorem sorted_map {V W : Type} {xs : List (Text × V)} (h : Sorted xs) (f : V → W) :
  Sorted (xs.map fun x => (x.1, f x.2))
  := List.pairwise_map.mpr (h.imp fun hlt => hlt)

/-- Links are read as links. -/
theorem ipldFromFields_links (hforms : forms.Lawful) {entries : List (Text × Cid)}
    (h : ∀ entry ∈ entries, entry.2.version = .v1) :
  ipldFromFields forms (entries.map fun entry => (entry.1, linkJson forms entry.2)) =
    .ok (entries.map fun entry => (entry.1, .link entry.2))
  := by
  induction entries with
  | nil => rfl
  | cons entry entries ih =>
    obtain ⟨hversion, hentries⟩ := List.forall_mem_cons.mp h
    have hlink : ipldFromJson forms (linkJson forms entry.2) = .ok (.link entry.2) := by
      rcases ipldFromJson_link entry.2 hforms with ⟨-, hok⟩ | ⟨hother, -⟩
      · exact hok
      · exact absurd hversion hother
    rw [List.map_cons, ipldFromFields, hlink]
    change (ipldFromFields forms _ >>= _) = _
    rw [ih hentries]
    rfl

/-- Records with CIDs of version 1 and paths with a slash, all of lengths of 64 bits. -/
structure Indexable (format : CidFormat) (sorted : SortedRecords) : Prop where
  ordered : Sorted sorted
  length : sorted.length < 2 ^ 64
  slashes : ∀ record ∈ sorted, slash ∈ record.1.text.bytes
  paths : ∀ record ∈ sorted, record.1.text.bytes.length < 2 ^ 64
  versions : ∀ record ∈ sorted, record.2.1.version = .v1
  cids : ∀ record ∈ sorted, (record.2.1.toDagCborBytes format).length < 2 ^ 64

theorem unreserved_of_slash {key : Text} (h : slash ∈ key.bytes) :
  Unreserved key
  := by
  constructor
  · rintro rfl
    revert h
    decide
  · rintro rfl
    revert h
    decide

/-- What holds of all records holds of the entries of the map. -/
theorem forall_indexMap (h : Sorted sorted) {P : Text × Cid → Prop}
    (hall : ∀ record ∈ sorted, P (record.1.text, record.2.1)) :
  ∀ entry ∈ indexMap sorted, P entry
  := by
  intro entry hentry
  obtain ⟨record, hrecord, rfl⟩ := List.mem_map.mp ((indexMap_spec h).2.subset hentry)
  exact hall record hrecord

theorem Indexable.ipldFromJson (hforms : forms.Lawful) (h : Indexable format sorted) :
  ipldFromJson forms (indexJson forms sorted) = .ok (indexValue sorted)
  := by
  obtain ⟨hsorted, hperm⟩ := indexMap_spec h.ordered
  have hfields : collect (sorted.map fun record => (record.1.text, linkJson forms record.2.1)) =
      (indexMap sorted).map fun entry => (entry.1, linkJson forms entry.2) := by
    apply collect_eq (sorted_map hsorted _)
    have hmapped := hperm.symm.map fun entry : Text × Cid => (entry.1, linkJson forms entry.2)
    rwa [List.map_map] at hmapped
  have hkeys : ∀ field ∈ (indexMap sorted).map (fun entry => (entry.1, linkJson forms entry.2)),
      Unreserved field.1 := by
    rw [List.forall_mem_map]
    exact forall_indexMap h.ordered (P := fun entry => Unreserved entry.1)
      fun record hrecord => unreserved_of_slash (h.slashes record hrecord)
  have hversions : ∀ entry ∈ indexMap sorted, entry.2.version = .v1 :=
    forall_indexMap h.ordered (P := fun entry => entry.2.version = .v1) h.versions
  rw [indexJson, hfields, ipldFromJson_object hkeys, ipldFromFields_links hforms hversions]
  have hcollect := collect_of_sorted (sorted_map hsorted Ipld.link)
  rw [indexValue]
  exact congrArg (fun entries => Except.ok (Ipld.map entries)) hcollect

theorem Indexable.encodable (h : Indexable format sorted) :
  (indexValue sorted).Encodable format
  := by
  obtain ⟨hsorted, hperm⟩ := indexMap_spec h.ordered
  apply Ipld.Encodable.map
  · rw [List.length_map, hperm.length_eq, List.length_map]
    exact h.length
  · rw [List.forall_mem_map]
    exact forall_indexMap h.ordered (P := fun entry => entry.1.bytes.length < 2 ^ 64) h.paths
  · exact sorted_map hsorted _
  · rw [List.forall_mem_map]
    exact forall_indexMap h.ordered (P := fun entry => (Ipld.link entry.2).Encodable format)
      fun record hrecord => .link (h.cids record hrecord)

/-- The index is written in the order of the records. -/
theorem Indexable.tree_encode (h : Indexable format sorted) :
  ((indexValue sorted).tree format).encode = encodeMap (indexEntries format sorted)
  := by
  obtain ⟨hsorted, hperm⟩ := indexMap_spec h.ordered
  have hentries : sortEntries (((indexMap sorted).map fun entry => (entry.1, Ipld.link entry.2)).map
      fun entry => (entry.1, entry.2.tree format)) =
        sorted.map fun record =>
          (record.1.text, CborTree.link (record.2.1.toDagCborBytes format)) := by
    apply sortEntries_eq
    · apply List.pairwise_map.mpr
      exact h.ordered.imp fun hlt => RecordPath.lt_iff.mp hlt
    · have hmapped := hperm.map fun entry : Text × Cid =>
        (entry.1, CborTree.link (entry.2.toDagCborBytes format))
      rw [List.map_map] at hmapped ⊢
      exact hmapped
  rw [indexValue, Ipld.tree_map, hentries, encode_map, encodeMap, indexEntries, List.length_map,
    List.length_map, List.flatMap_map, List.flatMap_map]
  rfl

/-- The block of the index. -/
theorem Indexable.indexBlock (hforms : forms.Lawful) (h : Indexable format sorted) :
  repoRecordBytes forms format (indexJson forms sorted) =
    .ok (encodeMap (indexEntries format sorted))
  := by
  rw [repoRecordBytes, h.ipldFromJson hforms, ← h.tree_encode]
  exact h.encodable.serialize_ok

/-- No path is longer than the index. -/
theorem length_path_le {entry : RecordPath × Cid × Bytes} (h : entry ∈ sorted) :
  entry.1.text.bytes.length ≤ (encodeMap (indexEntries format sorted)).length
  := by
  have hmem : (entry.1.text, encodeLink (entry.2.1.toDagCborBytes format)) ∈
      indexEntries format sorted := List.mem_map_of_mem h
  obtain ⟨before, after, hsplit⟩ := List.append_of_mem hmem
  rw [encodeMap, hsplit, List.flatMap_append, List.flatMap_cons, entryBytes, CborItem.encode]
  simp only [List.length_append]
  omega

/-! ### The archive -/

/-- CIDs of data have digests of 32 bytes, and 36 bytes of their own. -/
structure Standard (format : CidFormat) (sha256 : Bytes → Bytes) : Prop where
  digest : ∀ data, (sha256 data).length = 32
  length : ∀ data, (format.toBytes (computeCid sha256 data)).length = daslCidByteLength

/-- Data under its CID. -/
def blockOf (sha256 : Bytes → Bytes) (data : Bytes) : Car.CarBlock := ⟨computeCid sha256 data, data⟩

/-- The block of a record. -/
def recordBlock (record : RecordPath × Cid × Bytes) : Car.CarBlock := ⟨record.2.1, record.2.2⟩

/-- The encoded index. -/
def indexBlock (format : CidFormat) (sorted : SortedRecords) : Bytes :=
  encodeMap (indexEntries format sorted)

/-- The roots of an export. -/
def exportRoots (format : CidFormat) (sha256 : Bytes → Bytes) (commitBlock : Bytes)
    (sorted : SortedRecords) : List Cid :=
  [computeCid sha256 commitBlock, computeCid sha256 (indexBlock format sorted)]

/-- The blocks of an export. -/
def exportBlocks (format : CidFormat) (sha256 : Bytes → Bytes) (commitBlock : Bytes)
    (sorted : SortedRecords) : List Car.CarBlock :=
  [blockOf sha256 commitBlock, blockOf sha256 (indexBlock format sorted)] ++
    sorted.map recordBlock

/-- Blocks are written one after another. -/
theorem writeBlocks_append {writer : CarWriter} {front back : List Car.CarBlock} :
  writer.writeBlocks format sha256 (front ++ back) =
    writer.writeBlocks format sha256 front >>= fun writer => writer.writeBlocks format sha256 back
  := by
  induction front generalizing writer with
  | nil => rfl
  | cons block front ih =>
    rw [List.cons_append, CarWriter.writeBlocks, CarWriter.writeBlocks]
    cases writer.writeBlock format sha256 block with
    | error e => rfl
    | ok writer => exact ih

/-- An export is an archive. -/
theorem buildRepoCarSorted_eq {commitBlock bytes : Bytes} (hforms : forms.Lawful)
    (h : Indexable format sorted)
    (hwrite : writeCar format sha256 .default (exportRoots format sha256 commitBlock sorted)
      (exportBlocks format sha256 commitBlock sorted) = .ok bytes) :
  buildRepoCarSorted forms format sha256 commitBlock sorted = .ok bytes
  := by
  obtain ⟨writer, hheader, hwrite⟩ := bind_eq_ok.mp hwrite
  obtain ⟨last, hblocks, hbytes⟩ := bind_eq_ok.mp hwrite
  rw [exportBlocks, writeBlocks_append] at hblocks
  obtain ⟨middle, hroots, hrecords⟩ := bind_eq_ok.mp hblocks
  rw [buildRepoCarSorted, h.indexBlock hforms]
  change ((CarWriter.withConfig format (exportRoots format sha256 commitBlock sorted) .default).mapError
    ExportError.header >>= _) = _
  rw [hheader]
  change ((writer.writeBlocks format sha256 [blockOf sha256 commitBlock,
    blockOf sha256 (indexBlock format sorted)]).mapError ExportError.rootBlock >>= _) = _
  rw [hroots]
  change ((middle.writeBlocks format sha256 (sorted.map recordBlock)).mapError
    ExportError.recordBlock >>= _) = _
  rw [hrecords]
  exact congrArg Except.ok (Except.ok.inj hbytes)

/-- The block of a CID of data passes every check. -/
theorem Standard.check (h : Standard format sha256) (config : CarConfig) (data : Bytes) :
  config.check format sha256 (blockOf sha256 data) = .ok ()
  := by
  have hverify : (blockOf sha256 data).verify sha256 = .ok () := by
    rw [Car.CarBlock.verify]
    exact if_neg (not_not_intro rfl)
  have hformat : (blockOf sha256 data).verifyFormat format = .ok () := by
    have hlength := h.length data
    rw [Car.CarBlock.verifyFormat]
    simp [blockOf, computeCid] at hlength ⊢
    simp [hlength]
  rw [CarConfig.check, hverify, hformat]
  cases config.verifyCids <;> cases config.strictCidFormat <;> rfl

/-- A link to data has 41 bytes. -/
theorem Standard.length_link (h : Standard format sha256) (data : Bytes) :
  (encodeLink ((computeCid sha256 data).toDagCborBytes format)).length = 41
  := by
  have hlength : ((computeCid sha256 data).toDagCborBytes format).length = 37 :=
    congrArg (· + 1) (h.length data)
  rw [encodeLink, CborItem.encode, CborItem.encode, List.length_append, List.length_append, hlength]
  rfl

theorem Standard.cidSized (h : Standard format sha256) (data : Bytes) :
  CidSized format (computeCid sha256 data)
  := by
  have hlength : ((computeCid sha256 data).toDagCborBytes format).length = 37 :=
    congrArg (· + 1) (h.length data)
  rw [CidSized, hlength]
  decide

/-- A header with two roots is short. -/
theorem Standard.length_header (h : Standard format sha256) (first second : Bytes) :
  (headerEncoding format [computeCid sha256 first, computeCid sha256 second]).length = 99
  := by
  have hcids : (cidsEncoding format
      [computeCid sha256 first, computeCid sha256 second]).length = 83 := by
    rw [cidsEncoding, List.flatMap_cons, List.flatMap_cons, List.flatMap_nil, List.length_append,
      List.length_append, List.length_append, h.length_link, h.length_link]
    rfl
  rw [headerEncoding, encodeMap, List.flatMap_cons, List.flatMap_cons, List.flatMap_nil,
    entryBytes, entryBytes]
  simp only [List.length_append, hcids]
  rfl

theorem Standard.representable (h : Standard format sha256) (data : Bytes) :
  Representable (computeCid sha256 data)
  where
  codec := by
    change dagCborCodec < 2 ^ 64
    decide
  hashCode := by
    change sha256Code < 2 ^ 64
    decide
  digest := (h.digest data).trans_le (by decide)

/-- What a reader takes: not too many blocks, each with data and of a size, and not too much
of all. -/
structure Room (format : CidFormat) (limits : LimitsConfig) (blocks : List Car.CarBlock) : Prop where
  count : blocks.length < limits.maxBlockCount
  data : ∀ block ∈ blocks, block.data ≠ []
  sizes : ∀ block ∈ blocks, block.data.length ≤ limits.maxBlockSize
  total : totalSize format blocks ≤ limits.maxCarSize

/-- Every block of an export is data under its CID. -/
theorem exportBlocks_eq {commitBlock : Bytes}
    (h : ∀ entry ∈ sorted, entry.2.1 = computeCid sha256 entry.2.2) :
  ∀ block ∈ exportBlocks format sha256 commitBlock sorted, block = blockOf sha256 block.data
  := by
  intro block hblock
  rw [exportBlocks, List.mem_append, List.mem_map] at hblock
  rcases hblock with hroot | ⟨entry, hentry, rfl⟩
  · rw [List.mem_pair] at hroot
    rcases hroot with rfl | rfl <;> rfl
  · rw [recordBlock, h entry hentry]
    rfl

/-- An export of blocks of lengths of 64 bits is written. -/
theorem Standard.written (h : Standard format sha256) {commitBlock : Bytes}
    (hcids : ∀ entry ∈ sorted, entry.2.1 = computeCid sha256 entry.2.2)
    (hsizes : ∀ block ∈ exportBlocks format sha256 commitBlock sorted,
      block.data.length < 2 ^ 63) :
  Written format sha256 .default (exportRoots format sha256 commitBlock sorted)
    (exportBlocks format sha256 commitBlock sorted)
  := by
  refine ⟨List.cons_ne_nil _ _, ⟨?_, ?_⟩, ?_, ?_⟩
  · change 2 < 2 ^ 64
    decide
  · intro cid hcid
    rw [exportRoots, List.mem_pair] at hcid
    rcases hcid with rfl | rfl <;> exact h.cidSized _
  · rw [exportRoots, h.length_header]
    decide
  · intro block hblock
    have hsize := hsizes block hblock
    rw [exportBlocks_eq hcids block hblock]
    use h.check _ _
    change (format.toBytes (computeCid sha256 block.data) ++ block.data).length < 2 ^ 64
    rw [List.length_append, h.length]
    change 36 + block.data.length < _
    omega

/-- An export with room for it is read back. -/
theorem Standard.roundTrips (h : Standard format sha256) (hformat : Framed format)
    (hlawful : format.Lawful) {commitBlock : Bytes}
    (hcids : ∀ entry ∈ sorted, entry.2.1 = computeCid sha256 entry.2.2)
    (hwritten : Written format sha256 .default (exportRoots format sha256 commitBlock sorted)
      (exportBlocks format sha256 commitBlock sorted))
    (hroom : Room format .default (exportBlocks format sha256 commitBlock sorted)) :
  RoundTrips format sha256 .default (exportRoots format sha256 commitBlock sorted)
    (exportBlocks format sha256 commitBlock sorted)
  := by
  have hlimits : WithinLimits format CarConfig.default.limits
      (exportBlocks format sha256 commitBlock sorted) := by
    refine ⟨?_, hroom.sizes, hroom.count.le, hroom.total⟩
    intro block hblock
    rw [exportBlocks_eq hcids block hblock]
    exact h.representable _
  apply (roundTrips_iff hformat hlawful hwritten hlimits).mpr
  refine ⟨?_, hroom.count, hroom.data⟩
  rw [exportRoots, h.length_header]
  decide

/-- An index within the limits of archives is within those of the decoder. -/
theorem Standard.fromSlice_index (h : Standard format sha256) (hlawful : format.Lawful)
    (hindexable : Indexable format sorted) (hcount : sorted.length ≤ 100000)
    (hsize : (indexBlock format sorted).length ≤ 1048576)
    (hcids : ∀ entry ∈ sorted, entry.2.1 = computeCid sha256 entry.2.2) :
  Ipld.fromSlice format (indexBlock format sorted) = .ok (indexValue sorted)
  := by
  obtain ⟨hsorted, hperm⟩ := indexMap_spec hindexable.ordered
  have hbounded : (indexValue sorted).Bounded format DecodeConfig.default.maxDepth := by
    apply @Ipld.Bounded.map format 255
    · rw [List.length_map, hperm.length_eq, List.length_map]
      exact hcount.trans (by decide)
    · rw [List.forall_mem_map]
      apply forall_indexMap hindexable.ordered
        (P := fun entry => entry.1.bytes.length ≤ DecodeConfig.default.maxAlloc)
      exact fun entry hentry => (length_path_le hentry).trans (hsize.trans (by decide))
    · exact sorted_map hsorted _
    · rw [List.forall_mem_map]
      apply forall_indexMap hindexable.ordered
        (P := fun entry => (Ipld.link entry.2).Bounded format 255)
      intro entry hentry
      apply Ipld.Bounded.link
      rw [hcids entry hentry, Cid.toDagCborBytes, List.length_cons, h.length]
      decide
  have hbare : (indexValue sorted).bareCids format = 0 := by
    rw [indexValue, Ipld.bareCids, Ipld.fold_map]
    change (List.map Prod.snd (List.map _ _)).sum = 0
    rw [List.map_map, List.map_map, List.sum_eq_zero_iff, List.forall_mem_map]
    exact fun _ _ => rfl
  obtain ⟨bytes, hwrite, hread⟩ := (Ipld.roundTrip_iff hlawful hbounded).mpr hbare
  rw [Ipld.toVec, hindexable.encodable.serialize_ok, hindexable.tree_encode] at hwrite
  cases hwrite
  exact hread

/-! ### From pages -/

/-- The records of some rows, in order. -/
def gather (sha256 : Bytes → Bytes) (rows : List RecordRow) : SortedRecords :=
  collect (rows.map (record sha256))

theorem gather_spec (h : (rows.map RecordRow.path).Nodup) :
  Sorted (gather sha256 rows) ∧ (gather sha256 rows).Perm (rows.map (record sha256))
  := by
  apply collect_spec
  exact List.pairwise_map.mpr (List.pairwise_map.mp h)

/-- The order in which rows arrive does not matter. -/
theorem gather_perm {others : List RecordRow} (h : (rows.map RecordRow.path).Nodup)
    (hperm : others.Perm rows) :
  gather sha256 others = gather sha256 rows
  := by
  obtain ⟨hsorted, hrows⟩ := @gather_spec sha256 rows h
  exact collect_eq hsorted ((hperm.map _).trans hrows.symm)

theorem forall_gather {P : RecordPath × Cid × Bytes → Prop}
    (h : (rows.map RecordRow.path).Nodup) (hall : ∀ row ∈ rows, P (record sha256 row)) :
  ∀ entry ∈ gather sha256 rows, P entry
  := by
  intro entry hentry
  obtain ⟨row, hrow, rfl⟩ := List.mem_map.mp ((gather_spec h).2.subset hentry)
  exact hall row hrow

theorem slash_mem_path (row : RecordRow) :
  slash ∈ row.path.text.bytes
  := by
  change slash ∈ (row.collection ++ textOf "/" ++ row.rkey).bytes
  rw [Text.bytes_append, Text.bytes_append, List.mem_append, List.mem_append]
  exact .inl (.inr (by decide))

/-- The records of an export with room for it have an index. -/
theorem Standard.indexable (h : Standard format sha256) {commitBlock : Bytes}
    (hdistinct : (rows.map RecordRow.path).Nodup)
    (hroom : Room format .default (exportBlocks format sha256 commitBlock (gather sha256 rows))) :
  Indexable format (gather sha256 rows)
  := by
  have hindex : (indexBlock format (gather sha256 rows)).length ≤ 1048576 :=
    hroom.sizes (blockOf sha256 (indexBlock format (gather sha256 rows)))
      (List.mem_cons_of_mem _ List.mem_cons_self)
  have hcount := hroom.count
  rw [exportBlocks, List.length_append, List.length_map] at hcount
  change 2 + (gather sha256 rows).length < 100000 at hcount
  have hcids : ∀ entry ∈ gather sha256 rows, entry.2.1.version = .v1 ∧
      (entry.2.1.toDagCborBytes format).length < 2 ^ 64 ∧ slash ∈ entry.1.text.bytes := by
    apply forall_gather hdistinct (P := fun entry => entry.2.1.version = .v1 ∧
      (entry.2.1.toDagCborBytes format).length < 2 ^ 64 ∧ slash ∈ entry.1.text.bytes)
    exact fun row _ => ⟨rfl, h.cidSized row.value, slash_mem_path row⟩
  exact {
    ordered := (gather_spec hdistinct).1
    length := by omega
    slashes := fun entry hentry => (hcids entry hentry).2.2
    paths := fun entry hentry => by
      have hle := @length_path_le format _ entry hentry
      rw [← indexBlock] at hle
      omega
    versions := fun entry hentry => (hcids entry hentry).1
    cids := fun entry hentry => (hcids entry hentry).2.1 }

/-- The export of records with distinct paths is read back when a reader has room for it.  The
roots are the commit and the index, the index has the CID of each record, and the records
follow in the order of the entries of the encoded index, whichever pages they came in. -/
theorem buildRepoCar_reads_back (hforms : forms.Lawful) (hlawful : format.Lawful)
    (hformat : Framed format) (hstandard : Standard format sha256) (commitBlock : Bytes)
    (hhashes : ∀ row ∈ pages.flatten, row.Hashes forms sha256)
    (hdistinct : (pages.flatten.map RecordRow.path).Nodup)
    (hroom : Room format .default
      (exportBlocks format sha256 commitBlock (gather sha256 pages.flatten))) :
  ∃ (bytes index : Bytes) (sorted : SortedRecords) (entries : List (Text × Cid)),
    (∀ arrived : List (List RecordRow), arrived.flatten.Perm pages.flatten →
      buildRepoCar forms format sha256 commitBlock arrived = .ok bytes) ∧
    sorted.Perm (pages.flatten.map (record sha256)) ∧
    index = encodeMap (sorted.map fun entry =>
      (entry.1.text, encodeLink (entry.2.1.toDagCborBytes format))) ∧
    entries.Perm (sorted.map fun entry => (entry.1.text, entry.2.1)) ∧
    Ipld.fromSlice format index = .ok (.map (entries.map fun entry => (entry.1, .link entry.2))) ∧
    ∀ s : Pieces, s.1.flatten = bytes → readCar format sha256 arriving .default s =
      .ok ([computeCid sha256 commitBlock, computeCid sha256 index],
        ⟨computeCid sha256 commitBlock, commitBlock⟩ :: ⟨computeCid sha256 index, index⟩ ::
          sorted.map fun entry => ⟨entry.2.1, entry.2.2⟩)
  := by
  have hindexable := hstandard.indexable hdistinct hroom
  have hcids : ∀ entry ∈ gather sha256 pages.flatten, entry.2.1 = computeCid sha256 entry.2.2 :=
    forall_gather hdistinct fun _ _ => rfl
  have hwritten := hstandard.written hcids fun block hblock =>
    (hroom.sizes block hblock).trans_lt (by decide)
  have hread := hstandard.roundTrips hformat hlawful hcids hwritten hroom
  have hindex : (indexBlock format (gather sha256 pages.flatten)).length ≤ 1048576 :=
    hroom.sizes (blockOf sha256 (indexBlock format (gather sha256 pages.flatten)))
      (List.mem_cons_of_mem _ List.mem_cons_self)
  have hcount := hroom.count
  rw [exportBlocks, List.length_append, List.length_map] at hcount
  change 2 + (gather sha256 pages.flatten).length < 100000 at hcount
  refine ⟨_, indexBlock format (gather sha256 pages.flatten), gather sha256 pages.flatten,
    indexMap (gather sha256 pages.flatten), ?_, (gather_spec hdistinct).2, rfl,
    (indexMap_spec hindexable.ordered).2,
    hstandard.fromSlice_index hlawful hindexable (by omega) hindex hcids, hread⟩
  intro arrived hperm
  have hextend := @extendAll_eq forms sha256 [] arrived
    fun row hrow => hhashes row (hperm.subset hrow)
  have hgather := @gather_perm sha256 _ _ hdistinct hperm
  rw [gather, collect] at hgather
  rw [buildRepoCar, hextend, hgather]
  exact buildRepoCarSorted_eq hforms hindexable (writeCar_eq_ok.mpr ⟨hwritten, rfl⟩)

/-! ### Samples -/

/-- CIDs of digests of 32 bytes have 36 bytes. -/
theorem front_standard (h : ∀ data, (sha256 data).length = 32) :
  Standard multiformatsFront sha256
  where
  digest := h
  length data := by
    change (multiformatsToBytes (computeCid sha256 data)).length = 36
    rw [multiformatsToBytes]
    simp only [computeCid, h data, List.length_append, List.length_cons]
    rfl

/-- A record under its CID. -/
def sampleRow (rkey : Text) (value : Bytes) : RecordRow where
  collection := textOf "c.d.e"
  rkey := rkey
  cid := multibase.cidToString (computeCid padded value)
  value := value

theorem sampleRow_hashes (rkey : Text) (value : Bytes) :
  (sampleRow rkey value).Hashes multibase padded
  := multibase_lawful.cid_round (computeCid padded value)

/-- Three records on two pages, not in the order of their paths. -/
def samplePages : List (List RecordRow) :=
  [[sampleRow (textOf "ab") [0xa0], sampleRow (textOf "b") [0xf6]], [sampleRow (textOf "aa") [0xf5]]]

/-- The record with the shorter key comes first, though it arrives after another one. -/
theorem buildRepoCar_reads_back_sample :
  ∃ (bytes index : Bytes) (sorted : SortedRecords) (entries : List (Text × Cid)),
    (∀ arrived : List (List RecordRow), arrived.flatten.Perm samplePages.flatten →
      buildRepoCar multibase multiformatsFront padded [0xa0] arrived = .ok bytes) ∧
    sorted.Perm (samplePages.flatten.map (record padded)) ∧
    index = encodeMap (sorted.map fun entry =>
      (entry.1.text, encodeLink (entry.2.1.toDagCborBytes multiformatsFront))) ∧
    entries.Perm (sorted.map fun entry => (entry.1.text, entry.2.1)) ∧
    Ipld.fromSlice multiformatsFront index =
      .ok (.map (entries.map fun entry => (entry.1, .link entry.2))) ∧
    ∀ s : Pieces, s.1.flatten = bytes →
      readCar multiformatsFront padded arriving .default s =
        .ok ([computeCid padded [0xa0], computeCid padded index],
          ⟨computeCid padded [0xa0], [0xa0]⟩ :: ⟨computeCid padded index, index⟩ ::
            sorted.map fun entry => ⟨entry.2.1, entry.2.2⟩)
  := by
  apply @buildRepoCar_reads_back multibase multiformatsFront _ samplePages multibase_lawful
    front_lawful front_framed (front_standard length_padded) [0xa0]
  · intro row hrow
    change row ∈ [sampleRow (textOf "ab") [0xa0], sampleRow (textOf "b") [0xf6],
      sampleRow (textOf "aa") [0xf5]] at hrow
    rw [List.mem_cons, List.mem_pair] at hrow
    rcases hrow with rfl | rfl | rfl <;> apply sampleRow_hashes
  · decide
  · constructor <;> decide +kernel

/-- A length that is too long for a block is an error before anything is taken. -/
theorem readBlock_of_long {limits : LimitsConfig} {length : Nat} (hword : length < 2 ^ 64)
    (h : limits.maxBlockSize + maxCidByteLength < length) (rest : Bytes) :
  ∃ e, readBlock format slice limits (writeVarint length ++ rest) = .error e
  := by
  have hlarge : checkedFrameLength limits length = .error (.blockTooLarge length
      (min (limits.maxBlockSize + maxCidByteLength) (2 ^ 64 - 1))) := by
    rw [checkedFrameLength]
    exact if_pos (lt_of_le_of_lt (Nat.min_le_left _ _) h)
  have hpositive : length ≠ 0 := by omega
  rw [readBlock_length hword, readFrame, if_neg hpositive, hlarge]
  exact ⟨_, rfl⟩

/-- An export with a commit that is longer than a block may be is not read. -/
theorem Standard.not_read (h : Standard format sha256) (hlawful : format.Lawful)
    {commitBlock : Bytes}
    (hwritten : Written format sha256 .default (exportRoots format sha256 commitBlock sorted)
      (exportBlocks format sha256 commitBlock sorted))
    (hlong : 1048636 < commitBlock.length) :
  ∃ e, readCar format sha256 slice .default (archive format
    (exportRoots format sha256 commitBlock sorted)
    (exportBlocks format sha256 commitBlock sorted)) = .error e
  := by
  have hlength : ((blockOf sha256 commitBlock).payload format).length =
      36 + commitBlock.length := by
    rw [Car.CarBlock.payload, List.length_append]
    exact congrArg (· + commitBlock.length) (h.length commitBlock)
  have hword := (hwritten.blocks _ List.mem_cons_self).length
  have hmax : LimitsConfig.default.maxBlockSize + maxCidByteLength = 1048672 := by decide
  obtain ⟨e, hbad⟩ : ∃ e, readBlock format slice .default
      (blocksEncoding format (exportBlocks format sha256 commitBlock sorted)) = .error e := by
    rw [exportBlocks, List.cons_append, blocksEncoding, List.flatMap_cons, Car.CarBlock.toBytes,
      List.append_assoc]
    apply readBlock_of_long hword
    omega
  have hheader : (headerEncoding format
      (exportRoots format sha256 commitBlock sorted)).length ≤ maxHeaderLength := by
    rw [exportRoots, h.length_header]
    decide
  have hcount : 0 < LimitsConfig.default.maxBlockCount := by decide
  have hdrain := @drain_of_bad format sha256
    (startReader .default (exportRoots format sha256 commitBlock sorted)) _ e hcount hbad
  use e
  rw [archive, readCar_headerFrame hlawful hwritten hheader, hdrain]
  rfl

/-- The export of a commit without records. -/
theorem Standard.export_empty (h : Standard format sha256) (hforms : forms.Lawful)
    {commitBlock : Bytes} (hlength : commitBlock.length < 2 ^ 63) :
  Written format sha256 .default (exportRoots format sha256 commitBlock [])
      (exportBlocks format sha256 commitBlock []) ∧
    buildRepoCar forms format sha256 commitBlock [] = .ok (archive format
      (exportRoots format sha256 commitBlock []) (exportBlocks format sha256 commitBlock []))
  := by
  have hsizes : ∀ block ∈ exportBlocks format sha256 commitBlock [],
      block.data.length < 2 ^ 63 := by
    intro block hblock
    rw [exportBlocks, List.map_nil, List.append_nil, List.mem_pair] at hblock
    rcases hblock with rfl | rfl
    · exact hlength
    · change 1 < 2 ^ 63
      decide
  have hwritten := h.written (List.forall_mem_nil _) hsizes
  have hindexable : Indexable format [] :=
    ⟨List.Pairwise.nil, by decide, List.forall_mem_nil _, List.forall_mem_nil _,
      List.forall_mem_nil _, List.forall_mem_nil _⟩
  exact ⟨hwritten,
    buildRepoCarSorted_eq hforms hindexable (writeCar_eq_ok.mpr ⟨hwritten, rfl⟩)⟩

/-- A commit that is longer than a block may be. -/
def longCommit : Bytes := List.replicate 1048637 0

/-- The export of a long commit is not read back, whatever the digests are. -/
theorem longCommit_not_read :
  longCommit.length = 1048637 ∧
  ∀ sha256 : Bytes → Bytes, (∀ data, (sha256 data).length = 32) →
    ∃ bytes, buildRepoCar multibase multiformatsFront sha256 longCommit [] = .ok bytes ∧
      ∃ e, readCar multiformatsFront sha256 slice .default bytes = .error e
  := by
  have hlength : longCommit.length = 1048637 := List.length_replicate
  use hlength
  intro sha256 hdigest
  have hstandard := front_standard hdigest
  obtain ⟨hwritten, hbuild⟩ := @Standard.export_empty multibase _ _ hstandard multibase_lawful
    longCommit (hlength.trans_lt (by decide))
  exact ⟨_, hbuild, hstandard.not_read front_lawful hwritten (by omega)⟩

end Atproto.Pds.Export
