import Atproto.Car.Archive
import Atproto.Car.Multiformats

/-!
# Archives come back

An archive is read back when its header is not too long, each of its blocks has data and
there is room for one more block.  An archive that is cut off is an error, but where the cut
is within the length of a block the end is taken for the end of the archive.
-/

namespace Atproto.Car

open Dasl Wire Logic

variable {format : CidFormat} {sha256 : Bytes → Bytes} {config : CarConfig}

/-! ### What is written -/

/-- The blocks of an archive. -/
def blocksEncoding (format : CidFormat) (blocks : List CarBlock) : Bytes :=
  blocks.flatMap (CarBlock.toBytes format)

/-- The bytes of an archive. -/
def archive (format : CidFormat) (roots : List Cid) (blocks : List CarBlock) : Bytes :=
  headerFrame format roots ++ blocksEncoding format blocks

/-- A block that a writer takes. -/
structure Writable (format : CidFormat) (sha256 : Bytes → Bytes) (config : CarConfig)
    (block : CarBlock) : Prop where
  check : config.check format sha256 block = .ok ()
  length : (block.payload format).length < 2 ^ 64

theorem writeBlock_eq_ok {w w' : CarWriter} {block : CarBlock} :
  w.writeBlock format sha256 block = .ok w' ↔ Writable format sha256 w.config block ∧
    w' = { w with
      writer := w.writer ++ block.toBytes format
      blocksWritten := w.blocksWritten + 1
      bytesWritten := w.bytesWritten + (block.toBytes format).length }
  := by
  constructor
  · intro h
    obtain ⟨_, hcheck, h⟩ := bind_eq_ok.mp h
    obtain ⟨blockBytes, hwrite, hw⟩ := bind_eq_ok.mp h
    obtain ⟨hlength, rfl⟩ := write_eq_ok.mp hwrite
    exact ⟨⟨hcheck, hlength⟩, (Except.ok.inj hw).symm⟩
  · rintro ⟨⟨hcheck, hlength⟩, rfl⟩
    rw [CarWriter.writeBlock, hcheck, write_eq_ok.mpr ⟨hlength, rfl⟩]
    rfl

theorem writeBlocks_eq_ok {w : CarWriter} {blocks : List CarBlock} {bytes : Bytes} :
  (∃ w', w.writeBlocks format sha256 blocks = .ok w' ∧ w'.writer = bytes) ↔
    (∀ block ∈ blocks, Writable format sha256 w.config block) ∧
      bytes = w.writer ++ blocksEncoding format blocks
  := by
  induction blocks generalizing w with
  | nil =>
    constructor
    · rintro ⟨w', hw, rfl⟩
      cases hw
      exact ⟨nofun, (List.append_nil _).symm⟩
    · rintro ⟨-, rfl⟩
      exact ⟨w, rfl, (List.append_nil _).symm⟩
  | cons block blocks ih =>
    rw [List.forall_mem_cons, blocksEncoding, List.flatMap_cons, ← List.append_assoc]
    constructor
    · rintro ⟨w', hw, hbytes⟩
      obtain ⟨w₁, hblock, hblocks⟩ := bind_eq_ok.mp hw
      obtain ⟨hwritable, rfl⟩ := writeBlock_eq_ok.mp hblock
      obtain ⟨hrest, rfl⟩ := ih.mp ⟨w', hblocks, hbytes⟩
      exact ⟨⟨hwritable, hrest⟩, rfl⟩
    · rintro ⟨⟨hwritable, hrest⟩, rfl⟩
      let w₁ : CarWriter := { w with
        writer := w.writer ++ block.toBytes format
        blocksWritten := w.blocksWritten + 1
        bytesWritten := w.bytesWritten + (block.toBytes format).length }
      obtain ⟨w', hblocks, hbytes⟩ := (@ih w₁).mpr ⟨hrest, rfl⟩
      use w'
      rw [CarWriter.writeBlocks, writeBlock_eq_ok.mpr ⟨hwritable, rfl⟩]
      exact ⟨hblocks, hbytes⟩

/-- The archives that are written. -/
structure Written (format : CidFormat) (sha256 : Bytes → Bytes) (config : CarConfig)
    (roots : List Cid) (blocks : List CarBlock) : Prop where
  nonempty : roots ≠ []
  sized : RootsSized format roots
  length : (headerEncoding format roots).length < 2 ^ 64
  blocks : ∀ block ∈ blocks, Writable format sha256 config block

theorem writeCar_eq_ok {roots : List Cid} {blocks : List CarBlock} {bytes : Bytes} :
  writeCar format sha256 config roots blocks = .ok bytes ↔
    Written format sha256 config roots blocks ∧ bytes = archive format roots blocks
  := by
  constructor
  · intro h
    obtain ⟨w, hheader, h⟩ := bind_eq_ok.mp h
    obtain ⟨w', hblocks, hbytes⟩ := bind_eq_ok.mp h
    obtain ⟨header, hnew, hheader⟩ := bind_eq_ok.mp hheader
    obtain ⟨headerBytes, hwrite, hw⟩ := bind_eq_ok.mp hheader
    rw [CarHeader.new] at hnew
    split_ifs at hnew with hempty
    cases hnew
    obtain ⟨⟨hsized, hlength⟩, rfl⟩ := writeHeader_eq_ok.mp hwrite
    cases hw
    obtain ⟨hwritable, rfl⟩ := writeBlocks_eq_ok.mp ⟨w', hblocks, Except.ok.inj hbytes⟩
    exact ⟨⟨by simpa using hempty, hsized, hlength, hwritable⟩, rfl⟩
  · rintro ⟨⟨hroots, hsized, hlength, hwritable⟩, rfl⟩
    have hnew : CarHeader.new roots = .ok { version := 1, roots := roots } :=
      if_neg (by simpa using hroots)
    let w : CarWriter := ⟨headerFrame format roots, config, true, 0, (headerFrame format roots).length⟩
    obtain ⟨w', hblocks, hbytes⟩ := (writeBlocks_eq_ok (w := w)).mpr ⟨hwritable, rfl⟩
    have hheader : CarWriter.withConfig format roots config = .ok w := by
      rw [CarWriter.withConfig, hnew]
      change writeHeader format { version := 1, roots := roots } >>= _ = _
      rw [writeHeader_eq_ok.mpr ⟨⟨hsized, hlength⟩, rfl⟩]
      rfl
    rw [writeCar, hheader]
    change w.writeBlocks format sha256 blocks >>= _ = _
    rw [hblocks]
    exact congrArg Except.ok hbytes

/-! ### What is read -/

/-- The size of some blocks, as the reader counts it. -/
def totalSize (format : CidFormat) (blocks : List CarBlock) : Nat :=
  (blocks.map fun block => (block.payload format).length).sum

/-- The blocks that a reader takes if they have data. -/
structure Acceptable (format : CidFormat) (sha256 : Bytes → Bytes) (r : CarReader Bytes)
    (blocks : List CarBlock) : Prop where
  check : ∀ block ∈ blocks, r.config.check format sha256 block = .ok ()
  fits : ∀ block ∈ blocks, block.Fits format r.config.limits
  size : r.bytesRead + totalSize format blocks ≤ r.config.limits.maxCarSize

/-- The reader over other bytes. -/
def CarReader.over (r : CarReader Bytes) (bytes : Bytes) : CarReader Bytes :=
  { r with reader := bytes }

/-- The reader when some blocks are read. -/
def CarReader.afterAll (format : CidFormat) (r : CarReader Bytes) (blocks : List CarBlock) :
    CarReader Bytes :=
  { r with
    blocksRead := r.blocksRead + blocks.length
    bytesRead := r.bytesRead + totalSize format blocks }

section Reading

variable {r : CarReader Bytes} {block : CarBlock} {blocks : List CarBlock}

theorem nextBlock_of_full (h : r.config.limits.maxBlockCount ≤ r.blocksRead) (bytes : Bytes) :
  ∃ e, (r.over bytes).nextBlock format sha256 slice = .error e
  := ⟨_, if_pos h⟩

theorem nextBlock_of_room (h : r.blocksRead < r.config.limits.maxBlockCount) (bytes : Bytes) :
  (r.over bytes).nextBlock format sha256 slice =
    readBlock format slice r.config.limits bytes >>= (r.over bytes).take format sha256
  := if_neg (Nat.not_le.mpr h)

theorem Acceptable.head (h : Acceptable format sha256 r (block :: blocks)) :
  r.accept format sha256 block = .ok ()
  := by
  have hfits := h.fits block List.mem_cons_self
  have hsize := h.size
  rw [totalSize, List.map_cons, List.sum_cons, CarBlock.payload, List.length_append] at hsize
  rw [CarReader.accept, if_neg (Nat.not_lt.mpr hfits.size), if_neg (by omega)]
  exact h.check block List.mem_cons_self

theorem Acceptable.tail (h : Acceptable format sha256 r (block :: blocks)) :
  Acceptable format sha256 (r.afterAll format [block]) blocks
  := by
  obtain ⟨hcheck, hfits, hsize⟩ := h
  refine ⟨fun b hb => hcheck b (List.mem_cons_of_mem _ hb),
    fun b hb => hfits b (List.mem_cons_of_mem _ hb), ?_⟩
  change r.bytesRead + totalSize format [block] + totalSize format blocks ≤
    r.config.limits.maxCarSize
  simp only [totalSize, List.map_cons, List.sum_cons, List.map_nil, List.sum_nil] at hsize ⊢
  omega

theorem over_after (rest : Bytes) (bytes : Bytes) :
  (r.over bytes).after format block rest = (r.afterAll format [block]).over rest
  := by
  simp [CarReader.over, CarReader.after, CarReader.afterAll, totalSize, CarBlock.payload]

/-- A block with data is read, and what comes after it. -/
theorem drain_cons (hformat : Framed format) (hlawful : format.Lawful)
    (h : Acceptable format sha256 r (block :: blocks))
    (hcount : r.blocksRead < r.config.limits.maxBlockCount) (hdata : block.data ≠ [])
    (rest : Bytes) :
  (r.over (block.toBytes format ++ rest)).drain format sha256 slice =
    (((r.afterAll format [block]).over rest).drain format sha256 slice).map (block :: ·)
  := by
  have hread := @readBlock_toBytes format r.config.limits block hformat hlawful
    (h.fits block List.mem_cons_self) rest
  rw [if_neg hdata] at hread
  have hnext := @nextBlock_of_room format sha256 r hcount (block.toBytes format ++ rest)
  rw [hread] at hnext
  change _ = (r.accept format sha256 block >>= fun _ =>
    .ok (some (block, (r.over _).after format block rest))) at hnext
  rw [h.head, over_after] at hnext
  exact drain_of_some hnext

/-- Blocks with data are read, and what comes after them. -/
theorem drain_append (hformat : Framed format) (hlawful : format.Lawful)
    (h : Acceptable format sha256 r blocks)
    (hcount : r.blocksRead + blocks.length ≤ r.config.limits.maxBlockCount)
    (hdata : ∀ block ∈ blocks, block.data ≠ []) (rest : Bytes) :
  (r.over (blocksEncoding format blocks ++ rest)).drain format sha256 slice =
    (((r.afterAll format blocks).over rest).drain format sha256 slice).map (blocks ++ ·)
  := by
  induction blocks generalizing r with
  | nil =>
    change (r.over rest).drain format sha256 slice = (((r.over rest).drain format sha256 slice)).map id
    cases (r.over rest).drain format sha256 slice <;> rfl
  | cons block blocks ih =>
    obtain ⟨hblock, hblocks⟩ := List.forall_mem_cons.mp hdata
    rw [List.length_cons] at hcount
    have hroom : (r.afterAll format [block]).blocksRead + blocks.length ≤
        (r.afterAll format [block]).config.limits.maxBlockCount := by
      change r.blocksRead + 1 + blocks.length ≤ r.config.limits.maxBlockCount
      omega
    have hafter : (r.afterAll format [block]).afterAll format blocks =
        r.afterAll format (block :: blocks) := by
      simp only [CarReader.afterAll, totalSize, List.length_cons, List.length_nil, List.map_cons,
        List.sum_cons, List.map_nil, List.sum_nil, CarReader.mk.injEq, true_and]
      omega
    rw [blocksEncoding, List.flatMap_cons, List.append_assoc,
      drain_cons hformat hlawful h (by omega) hblock, ← blocksEncoding,
      ih h.tail hroom hblocks, hafter]
    cases ((r.afterAll format (block :: blocks)).over rest).drain format sha256 slice <;> rfl

theorem drain_of_full (h : r.config.limits.maxBlockCount ≤ r.blocksRead) (bytes : Bytes) :
  ∃ e, (r.over bytes).drain format sha256 slice = .error e
  := by
  obtain ⟨e, he⟩ := @nextBlock_of_full format sha256 r h bytes
  exact ⟨e, drain_of_error he⟩

theorem drain_of_end {bytes : Bytes} (hcount : r.blocksRead < r.config.limits.maxBlockCount)
    (h : readBlock format slice r.config.limits bytes = .ok none) :
  (r.over bytes).drain format sha256 slice = .ok []
  := by
  apply drain_of_none
  rw [nextBlock_of_room hcount, h]
  rfl

theorem drain_of_bad {bytes : Bytes} {e : CarError}
    (hcount : r.blocksRead < r.config.limits.maxBlockCount)
    (h : readBlock format slice r.config.limits bytes = .error e) :
  (r.over bytes).drain format sha256 slice = .error e
  := by
  apply drain_of_error
  rw [nextBlock_of_room hcount, h]
  rfl

/-- Blocks are read to the end exactly when all have data and there is room for one more. -/
theorem drain_eq_ok (hformat : Framed format) (hlawful : format.Lawful)
    (h : Acceptable format sha256 r blocks) :
  (r.over (blocksEncoding format blocks)).drain format sha256 slice = .ok blocks ↔
    r.blocksRead + blocks.length < r.config.limits.maxBlockCount ∧
      ∀ block ∈ blocks, block.data ≠ []
  := by
  constructor
  · intro hok
    induction blocks generalizing r with
    | nil =>
      refine ⟨?_, nofun⟩
      by_contra hfull
      obtain ⟨e, he⟩ := @drain_of_full format sha256 r (Nat.not_lt.mp hfull) []
      rw [blocksEncoding, List.flatMap_nil, he] at hok
      cases hok
    | cons block blocks ih =>
      rw [blocksEncoding, List.flatMap_cons, ← blocksEncoding] at hok
      rcases Nat.lt_or_ge r.blocksRead r.config.limits.maxBlockCount with hcount | hfull
      · by_cases hdata : block.data = []
        · have hread := @readBlock_toBytes format r.config.limits block hformat hlawful
            (h.fits block List.mem_cons_self) (blocksEncoding format blocks)
          rw [if_pos hdata] at hread
          rw [drain_of_bad hcount hread] at hok
          cases hok
        · rw [drain_cons hformat hlawful h hcount hdata] at hok
          cases hrest : ((r.afterAll format [block]).over (blocksEncoding format blocks)).drain
              format sha256 slice with
          | error e =>
            rw [hrest] at hok
            cases hok
          | ok found =>
            rw [hrest] at hok
            cases hok
            obtain ⟨hroom, hblocks⟩ := ih h.tail hrest
            refine ⟨?_, List.forall_mem_cons.mpr ⟨hdata, hblocks⟩⟩
            change r.blocksRead + 1 + blocks.length < r.config.limits.maxBlockCount at hroom
            rw [List.length_cons]
            omega
      · obtain ⟨e, he⟩ := @drain_of_full format sha256 r hfull
          (block.toBytes format ++ blocksEncoding format blocks)
        rw [he] at hok
        cases hok
  · rintro ⟨hcount, hdata⟩
    have hdrain := drain_append hformat hlawful h hcount.le hdata []
    rw [List.append_nil, drain_of_end (by exact hcount) readBlock_nil] at hdrain
    rw [hdrain]
    exact congrArg Except.ok (List.append_nil blocks)

end Reading

/-! ### Archives -/

/-- The blocks within the limits of a reader, with CIDs that the source has. -/
structure WithinLimits (format : CidFormat) (limits : LimitsConfig) (blocks : List CarBlock) :
    Prop where
  cids : ∀ block ∈ blocks, Representable block.cid
  sizes : ∀ block ∈ blocks, block.data.length ≤ limits.maxBlockSize
  count : blocks.length ≤ limits.maxBlockCount
  total : totalSize format blocks ≤ limits.maxCarSize

/-- A reader that has read the header with some roots. -/
def startReader (config : CarConfig) (roots : List Cid) : CarReader Bytes where
  reader := []
  header := { version := 1, roots := roots }
  config := config
  blocksRead := 0
  bytesRead := 0

section Archives

variable {roots : List Cid} {blocks : List CarBlock}

theorem acceptable (hwritten : Written format sha256 config roots blocks)
    (hlimits : WithinLimits format config.limits blocks) :
  Acceptable format sha256 (startReader config roots) blocks
  := by
  refine ⟨fun block hblock => (hwritten.blocks block hblock).check, ?_, ?_⟩
  · exact fun block hblock => ⟨hlimits.cids block hblock, hlimits.sizes block hblock,
      (hwritten.blocks block hblock).length⟩
  · change 0 + totalSize format blocks ≤ config.limits.maxCarSize
    rw [Nat.zero_add]
    exact hlimits.total

theorem readCar_headerFrame (hlawful : format.Lawful)
    (hwritten : Written format sha256 config roots blocks)
    (hheader : (headerEncoding format roots).length ≤ maxHeaderLength) (rest : Bytes) :
  readCar format sha256 slice config (headerFrame format roots ++ rest) =
    (((startReader config roots).over rest).drain format sha256 slice).map fun found => (roots, found)
  := by
  have hread := readHeader_headerFrame hlawful hwritten.sized hwritten.nonempty hwritten.length rest
  rw [if_neg (Nat.not_lt.mpr hheader)] at hread
  rw [readCar, CarReader.withConfig, hread]
  change ((startReader config roots).over rest).drain format sha256 slice >>= _ = _
  cases ((startReader config roots).over rest).drain format sha256 slice <;> rfl

theorem readCar_of_header_error {bytes : Bytes}
    (h : ∃ e, readHeader format slice bytes = .error e) :
  ∃ e, readCar format sha256 slice config bytes = .error e
  := by
  obtain ⟨e, he⟩ := h
  use e
  rw [readCar, CarReader.withConfig, he]
  rfl

/-- The archives that are read back. -/
structure Readable (format : CidFormat) (config : CarConfig) (roots : List Cid)
    (blocks : List CarBlock) : Prop where
  header : (headerEncoding format roots).length ≤ maxHeaderLength
  count : blocks.length < config.limits.maxBlockCount
  data : ∀ block ∈ blocks, block.data ≠ []

/-- What is written is read back. -/
theorem readCar_archive (hformat : Framed format) (hlawful : format.Lawful)
    (hwritten : Written format sha256 config roots blocks)
    (hlimits : WithinLimits format config.limits blocks) :
  readCar format sha256 slice config (archive format roots blocks) = .ok (roots, blocks) ↔
    Readable format config roots blocks
  := by
  have hdrain := drain_eq_ok hformat hlawful (acceptable hwritten hlimits)
  have hcount : (startReader config roots).blocksRead + blocks.length = blocks.length :=
    Nat.zero_add blocks.length
  rw [hcount] at hdrain
  constructor
  · intro hok
    by_cases hheader : (headerEncoding format roots).length ≤ maxHeaderLength
    · rw [archive, readCar_headerFrame hlawful hwritten hheader] at hok
      have hblocks : ((startReader config roots).over (blocksEncoding format blocks)).drain
          format sha256 slice = .ok blocks := by
        cases hfound : ((startReader config roots).over (blocksEncoding format blocks)).drain
            format sha256 slice with
        | error e =>
          rw [hfound] at hok
          cases hok
        | ok found =>
          rw [hfound] at hok
          cases hok
          rfl
      obtain ⟨hroom, hdata⟩ := hdrain.mp hblocks
      exact ⟨hheader, hroom, hdata⟩
    · have hread := readHeader_headerFrame hlawful hwritten.sized hwritten.nonempty hwritten.length
        (blocksEncoding format blocks)
      rw [if_pos (Nat.not_le.mp hheader)] at hread
      obtain ⟨e, he⟩ := @readCar_of_header_error format sha256 config _ ⟨_, hread⟩
      rw [archive, he] at hok
      cases hok
  · rintro ⟨hheader, hroom, hdata⟩
    rw [archive, readCar_headerFrame hlawful hwritten hheader, hdrain.mpr ⟨hroom, hdata⟩]
    rfl

/-! ### Archives that are cut off -/

/-- The bytes of an archive up to a part of a block. -/
structure CutAt (format : CidFormat) (roots : List Cid) (blocks : List CarBlock)
    (cut : Bytes) (before : List CarBlock) (block : CarBlock) (part : Bytes) : Prop where
  split : ∃ after, blocks = before ++ block :: after
  nonempty : part ≠ []
  bytes : cut = headerFrame format roots ++ (blocksEncoding format before ++ part)

/-- An archive that is cut off within its header or within a block. -/
def EndsInside (format : CidFormat) (roots : List Cid) (blocks : List CarBlock) (cut : Bytes) :
    Prop :=
  (∃ tail, tail ≠ [] ∧ cut ++ tail = headerFrame format roots) ∨
    ∃ before block part, CutAt format roots blocks cut before block part ∧
      ∃ tail, tail ≠ [] ∧ part ++ tail = block.toBytes format

/-- An archive that is cut off within the length of a block. -/
def EndsInLength (format : CidFormat) (roots : List Cid) (blocks : List CarBlock) (cut : Bytes) :
    Prop :=
  ∃ before block part, CutAt format roots blocks cut before block part ∧
    ∃ tail, tail ≠ [] ∧ part ++ tail = writeVarint (block.payload format).length

/-- The blocks in front of a cut are read, and then what is left of a block. -/
theorem readCar_cutAt (hformat : Framed format) (hlawful : format.Lawful)
    (hwritten : Written format sha256 config roots blocks)
    (hlimits : WithinLimits format config.limits blocks) (hread : Readable format config roots blocks)
    {cut part : Bytes} {before : List CarBlock} {block : CarBlock}
    (h : CutAt format roots blocks cut before block part) :
  block.Fits format config.limits ∧ ∃ r : CarReader Bytes, r.config = config ∧
    r.blocksRead < r.config.limits.maxBlockCount ∧
    readCar format sha256 slice config cut =
      ((r.over part).drain format sha256 slice).map fun found => (roots, before ++ found)
  := by
  obtain ⟨⟨after, rfl⟩, -, rfl⟩ := h
  obtain ⟨hcheck, hfits, hsize⟩ := acceptable hwritten hlimits
  have hcount := hread.count
  rw [List.length_append, List.length_cons] at hcount
  have hbefore : ∀ b ∈ before, b ∈ before ++ block :: after := fun b hb =>
    List.mem_append.mpr (.inl hb)
  have hacceptable : Acceptable format sha256 (startReader config roots) before := by
    refine ⟨fun b hb => hcheck b (hbefore b hb), fun b hb => hfits b (hbefore b hb), ?_⟩
    rw [totalSize, List.map_append, List.sum_append] at hsize
    rw [totalSize]
    omega
  refine ⟨hfits block (by simp), (startReader config roots).afterAll format before, rfl, ?_, ?_⟩
  · change 0 + before.length < config.limits.maxBlockCount
    omega
  · have hroom : (startReader config roots).blocksRead + before.length ≤
        (startReader config roots).config.limits.maxBlockCount := by
      change 0 + before.length ≤ config.limits.maxBlockCount
      omega
    rw [readCar_headerFrame hlawful hwritten hread.header, drain_append hformat hlawful hacceptable
      hroom fun b hb => hread.data b (hbefore b hb)]
    cases (((startReader config roots).afterAll format before).over part).drain format sha256 slice
      <;> rfl

/-- Within the length of a block the archive seems to end. -/
theorem readCar_of_endsInLength (hformat : Framed format) (hlawful : format.Lawful)
    (hwritten : Written format sha256 config roots blocks)
    (hlimits : WithinLimits format config.limits blocks) (hread : Readable format config roots blocks)
    {cut : Bytes} (h : EndsInLength format roots blocks cut) :
  ∃ found, readCar format sha256 slice config cut = .ok (roots, found)
  := by
  obtain ⟨before, block, part, hcut, tail, htail, hpart⟩ := h
  obtain ⟨hfits, r, rfl, hcount, hcar⟩ :=
    readCar_cutAt hformat hlawful hwritten hlimits hread hcut
  use before ++ []
  rw [hcar, drain_of_end hcount (readBlock_part_of_length hfits.length htail hpart)]
  rfl

/-- Anywhere else within the header or a block the cut is an error. -/
theorem readCar_of_endsInside (hformat : Framed format) (hlawful : format.Lawful)
    (hwritten : Written format sha256 config roots blocks)
    (hlimits : WithinLimits format config.limits blocks) (hread : Readable format config roots blocks)
    {cut : Bytes} (h : EndsInside format roots blocks cut)
    (hlength : ¬ EndsInLength format roots blocks cut) :
  ∃ e, readCar format sha256 slice config cut = .error e
  := by
  obtain ⟨tail, htail, hheader⟩ | ⟨before, block, part, hcut, tail, htail, hpart⟩ := h
  · exact readCar_of_header_error (readHeader_part hwritten.length htail hheader)
  · obtain ⟨rest, hrest, hvarint⟩ | ⟨body, rfl, hbody⟩ := part_of_append hpart
    · exact absurd ⟨before, block, part, hcut, rest, hrest, hvarint⟩ hlength
    · obtain ⟨hfits, r, rfl, hcount, hcar⟩ :=
        readCar_cutAt hformat hlawful hwritten hlimits hread hcut
      use .io
      rw [hcar, drain_of_bad hcount (readBlock_part hformat hlawful hfits htail hbody)]
      rfl

/-- A block of less than seven bits of length is not cut off within its length. -/
theorem not_endsInLength (h : ∀ block ∈ blocks, (block.payload format).length < 128) (cut : Bytes) :
  ¬ EndsInLength format roots blocks cut
  := by
  rintro ⟨before, block, part, ⟨⟨after, rfl⟩, hne, -⟩, tail, htail, hpart⟩
  have hlength := length_writeVarint_of_lt (h block (by simp))
  have hpositive := List.length_pos_iff.mpr hne
  have htail := List.length_pos_iff.mpr htail
  rw [← hpart, List.length_append] at hlength
  omega

/-- A longer block is cut off within its length after one byte. -/
theorem exists_endsInLength {block : CarBlock} (h : block ∈ blocks)
    (hlength : 128 ≤ (block.payload format).length) :
  ∃ cut, EndsInside format roots blocks cut ∧ EndsInLength format roots blocks cut
  := by
  obtain ⟨before, after, rfl⟩ := List.append_of_mem h
  have hlong := length_writeVarint_of_ge hlength
  cases hvarint : writeVarint (block.payload format).length with
  | nil => exact absurd hvarint (writeVarint_ne_nil _)
  | cons byte tail =>
    have htail : tail ≠ [] := by
      rintro rfl
      rw [hvarint] at hlong
      exact absurd hlong (by simp)
    have hcut : CutAt format roots (before ++ block :: after) (headerFrame format roots ++
        (blocksEncoding format before ++ [byte])) before block [byte] :=
      ⟨⟨after, rfl⟩, List.cons_ne_nil _ _, rfl⟩
    refine ⟨_, .inr ⟨before, block, [byte], hcut, tail ++ block.payload format, ?_, ?_⟩,
      before, block, [byte], hcut, tail, htail, hvarint.symm⟩
    · exact List.append_ne_nil_of_left_ne_nil htail _
    · rw [CarBlock.toBytes, hvarint]
      rfl

/-! ### The whole -/

variable (format sha256 config roots blocks)

/-- What is written is read back, however it arrives. -/
def RoundTrips : Prop :=
  ∀ s : Pieces, s.1.flatten = archive format roots blocks →
    readCar format sha256 arriving config s = .ok (roots, blocks)

/-- What is cut off within the header or a block is an error, however it arrives. -/
def ReportsCuts : Prop :=
  ∀ cut, EndsInside format roots blocks cut → ∀ s : Pieces, s.1.flatten = cut →
    ∃ e, readCar format sha256 arriving config s = .error e

/-- A block is read from what arrives in pieces as from a slice. -/
def ReadersAgree : Prop :=
  ∀ limits (s : Pieces), (readBlockWithLimits format limits s).map
    (Option.map fun p => (p.1, p.2.1.flatten)) =
      CarBlock.readFromWithLimits format limits s.1.flatten

variable {format sha256 config roots blocks}

theorem roundTrips_iff (hformat : Framed format) (hlawful : format.Lawful)
    (hwritten : Written format sha256 config roots blocks)
    (hlimits : WithinLimits format config.limits blocks) :
  RoundTrips format sha256 config roots blocks ↔ Readable format config roots blocks
  := by
  rw [← readCar_archive hformat hlawful hwritten hlimits]
  constructor
  · intro h
    obtain ⟨s, hs⟩ := exists_pieces (archive format roots blocks)
    have hread := h s hs
    rw [readCar_follows] at hread
    rwa [← hs]
  · intro h s hs
    rw [readCar_follows, ← h]
    exact congrArg _ hs

/-- The cuts that are reported. -/
theorem cut_reported_iff (hformat : Framed format) (hlawful : format.Lawful)
    (hwritten : Written format sha256 config roots blocks)
    (hlimits : WithinLimits format config.limits blocks) (hread : Readable format config roots blocks)
    {cut : Bytes} (hcut : EndsInside format roots blocks cut) {s : Pieces} (hs : s.1.flatten = cut) :
  (∃ e, readCar format sha256 arriving config s = .error e) ↔ ¬ EndsInLength format roots blocks cut
  := by
  have hslice : readCar format sha256 arriving config s = readCar format sha256 slice config cut := by
    rw [readCar_follows, ← hs]
    rfl
  rw [hslice]
  constructor
  · rintro ⟨e, he⟩ hlength
    obtain ⟨found, hok⟩ :=
      readCar_of_endsInLength hformat hlawful hwritten hlimits hread hlength
    rw [he] at hok
    cases hok
  · exact readCar_of_endsInside hformat hlawful hwritten hlimits hread hcut

theorem reportsCuts_iff (hformat : Framed format) (hlawful : format.Lawful)
    (hwritten : Written format sha256 config roots blocks)
    (hlimits : WithinLimits format config.limits blocks)
    (hread : Readable format config roots blocks) :
  ReportsCuts format sha256 config roots blocks ↔
    ∀ block ∈ blocks, (block.payload format).length < 128
  := by
  constructor
  · intro h block hblock
    by_contra hlong
    obtain ⟨cut, hinside, hlength⟩ := @exists_endsInLength format roots blocks block hblock
      (Nat.not_lt.mp hlong)
    obtain ⟨s, hs⟩ := exists_pieces cut
    exact (cut_reported_iff hformat hlawful hwritten hlimits hread hinside hs).mp
      (h cut hinside s hs) hlength
  · intro h cut hcut s hs
    exact (cut_reported_iff hformat hlawful hwritten hlimits hread hcut hs).mpr
      (not_endsInLength h cut)

theorem readersAgree (format : CidFormat) :
  ReadersAgree format
  := fun limits s => readBlock_follows arriving limits s

/-- An archive has all that is expected of it exactly when its header is not too long, there
is room for one more block, and each of its blocks has data and a length of one byte.  When
it is read back, the cuts that are not reported are those within the length of a block. -/
theorem archive_iff (hformat : Framed format) (hlawful : format.Lawful) {bytes : Bytes}
    (hwrite : writeCar format sha256 config roots blocks = .ok bytes)
    (hlimits : WithinLimits format config.limits blocks) :
  (RoundTrips format sha256 config roots blocks ∧ ReportsCuts format sha256 config roots blocks ∧
      ReadersAgree format ↔
    (headerEncoding format roots).length ≤ maxHeaderLength ∧
      blocks.length < config.limits.maxBlockCount ∧
      ∀ block ∈ blocks, block.data ≠ [] ∧ (block.payload format).length < 128) ∧
  (Readable format config roots blocks → ∀ cut, EndsInside format roots blocks cut →
    ∀ s : Pieces, s.1.flatten = cut →
      ((∃ e, readCar format sha256 arriving config s = .error e) ↔
        ¬ EndsInLength format roots blocks cut))
  := by
  obtain ⟨hwritten, -⟩ := writeCar_eq_ok.mp hwrite
  refine ⟨⟨?_, ?_⟩, ?_⟩
  · rintro ⟨hround, hcuts, -⟩
    have hread := (roundTrips_iff hformat hlawful hwritten hlimits).mp hround
    have hshort := (reportsCuts_iff hformat hlawful hwritten hlimits hread).mp hcuts
    exact ⟨hread.header, hread.count, fun block hblock =>
      ⟨hread.data block hblock, hshort block hblock⟩⟩
  · rintro ⟨hheader, hcount, hblocks⟩
    have hread : Readable format config roots blocks :=
      ⟨hheader, hcount, fun block hblock => (hblocks block hblock).1⟩
    exact ⟨(roundTrips_iff hformat hlawful hwritten hlimits).mpr hread,
      (reportsCuts_iff hformat hlawful hwritten hlimits hread).mpr fun block hblock =>
        (hblocks block hblock).2, readersAgree format⟩
  · intro hread cut hcut s hs
    exact cut_reported_iff hformat hlawful hwritten hlimits hread hcut hs

end Archives

/-- The CID of some block. -/
def sampleRoot : Cid := cidV1 dagCborCodec sha256Code (List.replicate 32 0)

theorem sampleRoot_representable :
  Representable sampleRoot
  := ⟨by decide, by decide, by decide⟩

theorem length_toBytes_sampleRoot :
  (multiformatsFront.toBytes sampleRoot).length = 36
  := by
  decide +kernel

/-- A small block is written when nothing is checked. -/
theorem sample_written (sha256 : Bytes → Bytes) {data : Bytes} (h : data.length < 92) :
  Written multiformatsFront sha256 .noVerification [sampleRoot] [⟨sampleRoot, data⟩]
  := by
  refine ⟨List.cons_ne_nil _ _, ⟨by decide, ?_⟩, by decide +kernel, ?_⟩
  · rw [List.forall_mem_singleton, Repo.CidSized, Cid.toDagCborBytes, List.length_cons,
      length_toBytes_sampleRoot]
    decide
  · rw [List.forall_mem_singleton]
    refine ⟨rfl, ?_⟩
    change (multiformatsFront.toBytes sampleRoot ++ data).length < 2 ^ 64
    rw [List.length_append, length_toBytes_sampleRoot]
    omega

theorem sample_within {data : Bytes} (h : data.length < 92) :
  WithinLimits multiformatsFront .default [⟨sampleRoot, data⟩]
  := by
  have hcount : 1 ≤ LimitsConfig.default.maxBlockCount := by decide
  refine ⟨?_, ?_, hcount, ?_⟩
  · rw [List.forall_mem_singleton]
    exact sampleRoot_representable
  · rw [List.forall_mem_singleton]
    change data.length ≤ 1024 * 1024
    omega
  · change (multiformatsFront.toBytes sampleRoot ++ data).length + 0 ≤ 10 * 1024 * 1024 * 1024
    rw [List.length_append, length_toBytes_sampleRoot]
    omega

/-- The first 32 bytes, with zeros behind what is shorter. -/
def padded (data : Bytes) : Bytes := (data ++ List.replicate 32 0).take 32

theorem length_padded (data : Bytes) :
  (padded data).length = 32
  := by
  rw [padded, List.length_take, List.length_append, List.length_replicate]
  omega

/-- Some data under their CID. -/
def sampleBlock (data : Bytes) : CarBlock := ⟨computeCid padded data, data⟩

/-- Three blocks of different data. -/
def sampleBlocks : List CarBlock := [sampleBlock [1], sampleBlock [0xa0], sampleBlock [1, 2, 3]]

theorem forall_mem_sampleBlocks {p : CarBlock → Prop} :
  (∀ block ∈ sampleBlocks, p block) ↔
    p (sampleBlock [1]) ∧ p (sampleBlock [0xa0]) ∧ p (sampleBlock [1, 2, 3])
  := by
  rw [sampleBlocks, List.forall_mem_cons, List.forall_mem_cons, List.forall_mem_singleton]

/-- The blocks are written when their CIDs are verified. -/
theorem sampleBlocks_written :
  Written multiformatsFront padded .default [computeCid padded [1]] sampleBlocks
  := by
  refine ⟨List.cons_ne_nil _ _, ⟨by decide, ?_⟩, by decide +kernel, ?_⟩
  · rw [List.forall_mem_singleton, Repo.CidSized]
    decide +kernel
  · rw [forall_mem_sampleBlocks]
    exact ⟨⟨rfl, by decide +kernel⟩, ⟨rfl, by decide +kernel⟩, rfl, by decide +kernel⟩

theorem sampleBlock_representable (data : Bytes) :
  Representable (sampleBlock data).cid
  := by
  have hcodec : dagCborCodec < 2 ^ 64 := by decide
  have hcode : sha256Code < 2 ^ 64 := by decide
  exact ⟨hcodec, hcode, (length_padded data).le.trans (by decide)⟩

/-- Three blocks are read back with their CIDs verified, and a cut within one of them is an error. -/
theorem archive_sample :
  RoundTrips multiformatsFront padded .default [computeCid padded [1]] sampleBlocks ∧
    ReportsCuts multiformatsFront padded .default [computeCid padded [1]] sampleBlocks ∧
    ReadersAgree multiformatsFront
  := by
  apply (archive_iff front_framed front_lawful
    (writeCar_eq_ok.mpr ⟨sampleBlocks_written, rfl⟩) _).1.mpr
  · refine ⟨by decide +kernel, by decide, ?_⟩
    rw [forall_mem_sampleBlocks]
    decide +kernel
  · refine ⟨?_, ?_, by decide, by decide +kernel⟩
    · intro block hblock
      obtain ⟨data, -, rfl⟩ : ∃ data ∈ [[1], [0xa0], [1, 2, 3]], sampleBlock data = block :=
        List.mem_map.mp hblock
      exact sampleBlock_representable data
    · rw [forall_mem_sampleBlocks]
      decide

/-- A block without data is written and not read back. -/
theorem archive_not_read :
  writeCar multiformatsFront id .noVerification [sampleRoot] [⟨sampleRoot, []⟩] =
    .ok (archive multiformatsFront [sampleRoot] [⟨sampleRoot, []⟩]) ∧
  ¬ RoundTrips multiformatsFront id .noVerification [sampleRoot] [⟨sampleRoot, []⟩]
  := by
  have hwritten := @sample_written id [] (by decide)
  use writeCar_eq_ok.mpr ⟨hwritten, rfl⟩
  rw [roundTrips_iff front_framed front_lawful hwritten (sample_within (by decide))]
  intro hread
  exact hread.data _ (List.mem_singleton_self _) rfl

end Atproto.Car
