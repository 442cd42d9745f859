import Atproto.Car.Header

/-!
# Archives

A writer puts blocks after a header, and a reader takes them off again until it comes to the
end.  Both make the checks of their configuration, and the reader also counts the blocks and
their bytes.
-/

namespace Atproto.Car

open Dasl Wire Logic

variable (format : CidFormat) (sha256 : Bytes → Bytes)

/-- The checks of a configuration on a block. -/
def CarConfig.check (config : CarConfig) (block : CarBlock) : Except CarError Unit := do
  if config.verifyCids then block.verify sha256 else .ok ()
  if config.strictCidFormat then block.verifyFormat format else .ok ()

/-! ### The writer -/

/-- A writer: what was written, and how much of it. -/
structure CarWriter where
  writer : Bytes
  config : CarConfig
  headerWritten : Bool
  blocksWritten : Nat
  bytesWritten : Nat

/-- A writer that has written its header. -/
def CarWriter.withConfig (roots : List Cid) (config : CarConfig) : Except CarError CarWriter := do
  let header ← CarHeader.new roots
  let headerBytes ← writeHeader format header
  .ok { writer := headerBytes, config := config, headerWritten := true, blocksWritten := 0,
        bytesWritten := headerBytes.length }

/-- Write a block. -/
def CarWriter.writeBlock (w : CarWriter) (block : CarBlock) : Except CarError CarWriter := do
  w.config.check format sha256 block
  let blockBytes ← block.write format
  .ok { w with
    writer := w.writer ++ blockBytes
    blocksWritten := w.blocksWritten + 1
    bytesWritten := w.bytesWritten + blockBytes.length }

/-- Write blocks one after another. -/
def CarWriter.writeBlocks (w : CarWriter) : List CarBlock → Except CarError CarWriter
  | [] => .ok w
  | block :: blocks => do
    let w ← w.writeBlock format sha256 block
    w.writeBlocks blocks

/-- The bytes of an archive. -/
def writeCar (config : CarConfig) (roots : List Cid) (blocks : List CarBlock) :
    Except CarError Bytes := do
  let w ← CarWriter.withConfig format roots config
  let w ← w.writeBlocks format sha256 blocks
  .ok w.writer

/-! ### The reader -/

/-- A reader: what it reads from, and how much it has read. -/
structure CarReader (σ : Type) where
  reader : σ
  header : CarHeader
  config : CarConfig
  blocksRead : Nat
  bytesRead : Nat

variable {σ : Type} (source : Source σ)

/-- A reader that has read its header. -/
def CarReader.withConfig (s : σ) (config : CarConfig) : Except CarError (CarReader σ) := do
  let (header, s) ← readHeader format source s
  .ok { reader := s, header := header, config := config, blocksRead := 0, bytesRead := 0 }

/-- The reader when a block is read. -/
def CarReader.after (r : CarReader σ) (block : CarBlock) (rest : σ) : CarReader σ :=
  { r with
    reader := rest
    blocksRead := r.blocksRead + 1
    bytesRead := r.bytesRead + ((format.toBytes block.cid).length + block.data.length) }

/-- Check a block that is read. -/
def CarReader.accept (r : CarReader σ) (block : CarBlock) : Except CarError Unit :=
  let size := block.data.length
  let maxSize := r.config.limits.maxBlockSize
  let bytesRead := r.bytesRead + ((format.toBytes block.cid).length + size)
  let maxCarSize := r.config.limits.maxCarSize
  if size > maxSize then .error (.blockTooLarge size maxSize)
  else if bytesRead > maxCarSize then .error (.fileTooLarge bytesRead maxCarSize)
  else r.config.check format sha256 block

/-- Count a block that is read, or come to the end. -/
def CarReader.take (r : CarReader σ) :
    Option (CarBlock × σ) → Except CarError (Option (CarBlock × CarReader σ))
  | none => .ok none
  | some (block, rest) => do
    r.accept format sha256 block
    .ok (some (block, r.after format block rest))

/-- Read the next block, or come to the end. -/
def CarReader.nextBlock (r : CarReader σ) : Except CarError (Option (CarBlock × CarReader σ)) :=
  let count := r.blocksRead
  let maxCount := r.config.limits.maxBlockCount
  if count ≥ maxCount then
    .error (.invalidBlock s!"block count limit exceeded: {count} >= {maxCount}")
  else do
    let next ← readBlock format source r.config.limits r.reader
    r.take format sha256 next

variable {format sha256 source}

theorem take_eq_some {r r' : CarReader σ} {next : Option (CarBlock × σ)} {block : CarBlock}
    (h : r.take format sha256 next = .ok (some (block, r'))) :
  ∃ rest, r' = r.after format block rest
  := by
  cases next with
  | none => cases h
  | some p =>
    obtain ⟨block', rest⟩ := p
    obtain ⟨_, _, hok⟩ := bind_eq_ok.mp h
    cases hok
    exact ⟨rest, rfl⟩

/-- A block counts. -/
theorem nextBlock_eq_some {r r' : CarReader σ} {block : CarBlock}
    (h : r.nextBlock format sha256 source = .ok (some (block, r'))) :
  r.blocksRead < r.config.limits.maxBlockCount ∧ ∃ rest, r' = r.after format block rest
  := by
  rw [CarReader.nextBlock] at h
  split_ifs at h with hcount
  obtain ⟨next, _, htake⟩ := bind_eq_ok.mp h
  exact ⟨Nat.not_le.mp hcount, take_eq_some htake⟩

theorem nextBlock_decreases {r r' : CarReader σ} {block : CarBlock}
    (h : r.nextBlock format sha256 source = .ok (some (block, r'))) :
  r'.config.limits.maxBlockCount - r'.blocksRead < r.config.limits.maxBlockCount - r.blocksRead
  := by
  obtain ⟨hcount, rest, rfl⟩ := nextBlock_eq_some h
  change r.config.limits.maxBlockCount - (r.blocksRead + 1) < _
  omega

variable (format sha256 source)

/-- Read blocks to the end. -/
def CarReader.drain (r : CarReader σ) : Except CarError (List CarBlock) :=
  match _h : r.nextBlock format sha256 source with
  | .error e => .error e
  | .ok none => .ok []
  | .ok (some (block, r')) => (CarReader.drain r').map (block :: ·)
termination_by r.config.limits.maxBlockCount - r.blocksRead
decreasing_by exact nextBlock_decreases _h

/-- Read an archive to the end: its roots and its blocks. -/
def readCar (config : CarConfig) (s : σ) : Except CarError (List Cid × List CarBlock) := do
  let r ← CarReader.withConfig format source s config
  let blocks ← r.drain format sha256 source
  .ok (r.header.roots, blocks)

variable {format sha256 source}

theorem drain_of_error {r : CarReader σ} {e : CarError}
    (h : r.nextBlock format sha256 source = .error e) :
  r.drain format sha256 source = .error e
  := by
  rw [CarReader.drain]
  split
  · next e' h' =>
    rw [h] at h'
    cases h'
    rfl
  · next h' =>
    rw [h] at h'
    cases h'
  · next h' =>
    rw [h] at h'
    cases h'

theorem drain_of_none {r : CarReader σ} (h : r.nextBlock format sha256 source = .ok none) :
  r.drain format sha256 source = .ok []
  := by
  rw [CarReader.drain]
  split
  · next h' =>
    rw [h] at h'
    cases h'
  · rfl
  · next h' =>
    rw [h] at h'
    cases h'

theorem drain_of_some {r r' : CarReader σ} {block : CarBlock}
    (h : r.nextBlock format sha256 source = .ok (some (block, r'))) :
  r.drain format sha256 source = (r'.drain format sha256 source).map (block :: ·)
  := by
  rw [CarReader.drain]
  split
  · next h' =>
    rw [h] at h'
    cases h'
  · next h' =>
    rw [h] at h'
    cases h'
  · next h' =>
    rw [h] at h'
    cases h'
    rfl

/-! ### Any source -/

/-- A reader of the contents. -/
def CarReader.contents (source : Source σ) (r : CarReader σ) : CarReader Bytes where
  reader := source.contents r.reader
  header := r.header
  config := r.config
  blocksRead := r.blocksRead
  bytesRead := r.bytesRead

theorem nextBlock_follows (r : CarReader σ) :
  (r.nextBlock format sha256 source).map (Option.map fun p => (p.1, p.2.contents source)) =
    (r.contents source).nextBlock format sha256 slice
  := by
  have hblock := @readBlock_follows _ format source r.config.limits r.reader
  by_cases hcount : r.blocksRead ≥ r.config.limits.maxBlockCount
  · rw [CarReader.nextBlock, CarReader.nextBlock, if_pos hcount]
    exact (if_pos hcount).symm
  · rw [CarReader.nextBlock, CarReader.nextBlock, if_neg hcount]
    apply Eq.trans _ (if_neg hcount).symm
    change _ = readBlock format slice r.config.limits (source.contents r.reader) >>= _
    rw [← hblock]
    cases readBlock format source r.config.limits r.reader with
    | error e => rfl
    | ok next =>
      cases next with
      | none => rfl
      | some p =>
        obtain ⟨block, rest⟩ := p
        change ((r.accept format sha256 block >>= fun _ => .ok (some (block, _))) :
          Except CarError _).map _ = (r.accept format sha256 block >>= fun _ => .ok (some (block, _)))
        cases r.accept format sha256 block <;> rfl

theorem drain_follows (r : CarReader σ) :
  r.drain format sha256 source = (r.contents source).drain format sha256 slice
  := by
  induction hfuel : r.config.limits.maxBlockCount - r.blocksRead using Nat.strong_induction_on
    generalizing r with
  | h fuel ih =>
    have hnext := @nextBlock_follows format sha256 _ source r
    cases hstep : r.nextBlock format sha256 source with
    | error e =>
      rw [hstep] at hnext
      rw [drain_of_error hstep, drain_of_error hnext.symm]
    | ok next =>
      cases next with
      | none =>
        rw [hstep] at hnext
        rw [drain_of_none hstep, drain_of_none hnext.symm]
      | some p =>
        obtain ⟨block, r'⟩ := p
        have hlt := nextBlock_decreases hstep
        rw [hstep] at hnext
        rw [drain_of_some hstep, drain_of_some hnext.symm, ih _ (hfuel ▸ hlt) r' rfl]

/-- An archive is read from a source as from its contents. -/
theorem readCar_follows (config : CarConfig) (s : σ) :
  readCar format sha256 source config s = readCar format sha256 slice config (source.contents s)
  := by
  have hheader := @readHeader_follows format _ source s
  rw [readCar, readCar, CarReader.withConfig, CarReader.withConfig, ← hheader]
  cases readHeader format source s with
  | error e => rfl
  | ok p =>
    obtain ⟨header, s'⟩ := p
    change (CarReader.drain format sha256 source ⟨s', header, config, 0, 0⟩ >>= fun blocks =>
        .ok (header.roots, blocks)) =
      (CarReader.drain format sha256 slice ⟨source.contents s', header, config, 0, 0⟩ >>=
        fun blocks => .ok (header.roots, blocks))
    rw [drain_follows]
    rfl

end Atproto.Car
