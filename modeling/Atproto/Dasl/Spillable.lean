import Atproto.Logic.Machine
import Atproto.Wire.Seek

/-!
# Buffers that spill

What is written is held in memory up to a threshold and in a temporary file beyond it.  The reader
is a cursor over what was written, except that in memory a read beyond the end panics.
-/

namespace Atproto.Dasl.Storage

open Wire Logic

/-- The contents of a buffer in memory, or in a temporary file. -/
inductive BufferState where
  | memory (buffer : List UInt8) (threshold : Nat)
  | disk (file : ByteCursor) (bytesWritten : Nat)

/-- A buffer, and how much was written to it. -/
structure SpillableBuffer where
  state : BufferState
  bytesWritten : Nat

namespace SpillableBuffer

/-- A buffer in memory. -/
def new (threshold : Nat) : SpillableBuffer := ⟨.memory [] threshold, 0⟩

/-- A buffer in a temporary file. -/
def newDisk : SpillableBuffer := ⟨.disk ⟨[], 0⟩ 0, 0⟩

/-- A buffer for contents of an expected size. -/
def withSizeHint (threshold : Nat) : Option Nat → SpillableBuffer
  | some size => if threshold < size then newDisk else new threshold
  | none => new threshold

/-- Move what is in memory to a temporary file. -/
def spillToDisk (buffer : SpillableBuffer) : SpillableBuffer :=
  match buffer.state with
  | .memory contents _ =>
    { buffer with state := .disk (ByteCursor.write ⟨[], 0⟩ contents) contents.length }
  | .disk _ _ => buffer

/-- The buffer is in memory and has no room for a chunk. -/
def needsSpill (buffer : SpillableBuffer) (chunk : List UInt8) : Bool :=
  match buffer.state with
  | .memory contents threshold => threshold < contents.length + chunk.length
  | .disk _ _ => false

/-- Write a chunk where the contents are. -/
def append (buffer : SpillableBuffer) (chunk : List UInt8) : SpillableBuffer :=
  match buffer.state with
  | .memory contents threshold =>
    ⟨.memory (contents ++ chunk) threshold, buffer.bytesWritten + chunk.length⟩
  | .disk file bytesWritten =>
    ⟨.disk (file.write chunk) (bytesWritten + chunk.length), buffer.bytesWritten + chunk.length⟩

/-- Write a chunk, and spill first when there is no room for it. -/
def writeChunk (buffer : SpillableBuffer) (chunk : List UInt8) : SpillableBuffer :=
  if buffer.needsSpill chunk then buffer.spillToDisk.append chunk else buffer.append chunk

/-- The buffer has spilled. -/
def isOnDisk (buffer : SpillableBuffer) : Bool :=
  match buffer.state with
  | .memory _ _ => false
  | .disk _ _ => true

end SpillableBuffer

/-- A reader of what was written. -/
inductive SpillableReader where
  | memory (cursor : ByteCursor)
  | disk (file : ByteCursor) (len : Nat)

/-- Read what was written from the start. -/
def SpillableBuffer.intoReader (buffer : SpillableBuffer) : SpillableReader :=
  match buffer.state with
  | .memory contents _ => .memory ⟨contents, 0⟩
  | .disk file bytesWritten => .disk (file.seek (.start 0)).2 bytesWritten

/-- What is asked of a reader. -/
inductive ReaderOp where
  | seek (position : SeekFrom)
  | read (count : Nat)
  | len

/-- What a reader answers. -/
inductive Outcome where
  | position (value : Nat)
  | failed (error : SeekError)
  | bytes (data : List UInt8)
  | length (value : Nat)
deriving DecidableEq

/-- The answer of a seek. -/
def seekOutcome : Except SeekError Nat → Outcome
  | .ok position => .position position
  | .error error => .failed error

namespace SpillableReader

def len : SpillableReader → Nat
  | .memory cursor => cursor.contents.length
  | .disk _ len => len

/-- Read at most some bytes.  In memory the bytes that remain are a slice, which panics when the
position is beyond the end. -/
def pollRead (count : Nat) : SpillableReader → Option (Outcome × SpillableReader)
  | .memory cursor =>
    let data := cursor.contents
    let pos := cursor.position
    if data.length < pos then none
    else
      let remaining := data.drop pos
      let toRead := min remaining.length count
      some (.bytes (remaining.take toRead), .memory { cursor with position := pos + toRead })
  | .disk file len => some (.bytes (file.read count).1, .disk (file.read count).2 len)

/-- Move to a position. -/
def seek (position : SeekFrom) : SpillableReader → Outcome × SpillableReader
  | .memory cursor => (seekOutcome (cursor.seek position).1, .memory (cursor.seek position).2)
  | .disk file len => (seekOutcome (file.seek position).1, .disk (file.seek position).2 len)

/-- Do what is asked, or panic. -/
def perform (reader : SpillableReader) : ReaderOp → Option (Outcome × SpillableReader)
  | .seek position => some (reader.seek position)
  | .read count => reader.pollRead count
  | .len => some (.length reader.len, reader)

/-- Do one thing after another, or panic. -/
def run (reader : SpillableReader) : List ReaderOp → Option (List Outcome)
  | [] => some []
  | op :: ops => do
    let (outcome, reader) ← reader.perform op
    let outcomes ← reader.run ops
    some (outcome :: outcomes)

end SpillableReader

/-! ### Cursors -/

/-- What a cursor over the contents answers, and the cursor after that. -/
def answer (cursor : ByteCursor) : ReaderOp → Outcome × ByteCursor
  | .seek position => (seekOutcome (cursor.seek position).1, (cursor.seek position).2)
  | .read count => (.bytes (cursor.read count).1, (cursor.read count).2)
  | .len => (.length cursor.contents.length, cursor)

/-- What a cursor answers to one thing after another. -/
def answers (cursor : ByteCursor) : List ReaderOp → List Outcome
  | [] => []
  | op :: ops => (answer cursor op).1 :: answers (answer cursor op).2 ops

/-- The cursor after one thing that is asked. -/
def advance (cursor : ByteCursor) (op : ReaderOp) : ByteCursor := (answer cursor op).2

/-- A read is not beyond the end. -/
def ReadsWithin (cursor : ByteCursor) : ReaderOp → Prop
  | .read _ => cursor.position ≤ cursor.contents.length
  | .seek _ => True
  | .len => True

instance : ∀ cursor op, Decidable (ReadsWithin cursor op)
  | cursor, .read _ => inferInstanceAs (Decidable (cursor.position ≤ cursor.contents.length))
  | _, .seek _ => inferInstanceAs (Decidable True)
  | _, .len => inferInstanceAs (Decidable True)

/-! ### Writing -/

/-- What is done to a buffer that is written. -/
inductive WriteOp where
  | chunk (data : List UInt8)
  | spill

/-- What is written. -/
def WriteOp.data : WriteOp → List UInt8
  | .chunk data => data
  | .spill => []

/-- Everything that is written. -/
def content (writes : List WriteOp) : List UInt8 := writes.flatMap WriteOp.data

/-- One thing is done to a buffer. -/
def SpillableBuffer.apply (buffer : SpillableBuffer) : WriteOp → SpillableBuffer
  | .chunk data => buffer.writeChunk data
  | .spill => buffer.spillToDisk

/-- A buffer that was written. -/
def written (threshold : Nat) (sizeHint : Option Nat) (writes : List WriteOp) : SpillableBuffer :=
  Machine.run SpillableBuffer.apply (.withSizeHint threshold sizeHint) writes

/-- A buffer with its contents in memory. -/
def inMemory (threshold : Nat) (data : List UInt8) : SpillableBuffer :=
  ⟨.memory data threshold, data.length⟩

/-- A buffer with its contents in a file, which is at its end. -/
def onDisk (data : List UInt8) : SpillableBuffer :=
  ⟨.disk ⟨data, data.length⟩ data.length, data.length⟩

theorem spillToDisk_inMemory (threshold : Nat) (data : List UInt8) :
  (inMemory threshold data).spillToDisk = onDisk data
  := by
  have hwrite := @ByteCursor.write_at_end ⟨[], 0⟩ rfl data
  rw [List.nil_append] at hwrite
  change (⟨.disk (ByteCursor.write ⟨[], 0⟩ data) data.length, data.length⟩ : SpillableBuffer) = _
  rw [hwrite]
  rfl

theorem append_onDisk (data chunk : List UInt8) :
  (onDisk data).append chunk = onDisk (data ++ chunk)
  := by
  have hwrite := @ByteCursor.write_at_end ⟨data, data.length⟩ rfl chunk
  have hlength : data.length + chunk.length = (data ++ chunk).length := List.length_append.symm
  change (⟨.disk (ByteCursor.write ⟨data, data.length⟩ chunk) (data.length + chunk.length),
    data.length + chunk.length⟩ : SpillableBuffer) = _
  rw [hwrite, hlength]
  rfl

theorem writeChunk_onDisk (data chunk : List UInt8) :
  (onDisk data).writeChunk chunk = onDisk (data ++ chunk)
  := append_onDisk data chunk

theorem append_inMemory (threshold : Nat) (data chunk : List UInt8) :
  (inMemory threshold data).append chunk = inMemory threshold (data ++ chunk)
  := by
  rw [inMemory, SpillableBuffer.append, inMemory, List.length_append]

/-- A chunk for which there is no room moves everything to a file. -/
theorem writeChunk_inMemory (threshold : Nat) (data chunk : List UInt8) :
  (inMemory threshold data).writeChunk chunk =
    if threshold < (data ++ chunk).length then onDisk (data ++ chunk)
    else inMemory threshold (data ++ chunk)
  := by
  have hspill : ((inMemory threshold data).needsSpill chunk = true) =
      (threshold < (data ++ chunk).length) := by
    rw [List.length_append]
    exact decide_eq_true_eq
  rw [SpillableBuffer.writeChunk, spillToDisk_inMemory, append_onDisk, append_inMemory]
  simp only [hspill]

/-- The buffer is told to spill. -/
def WriteOp.isSpill : WriteOp → Bool
  | .chunk _ => false
  | .spill => true

theorem run_onDisk (data : List UInt8) (writes : List WriteOp) :
  Machine.run SpillableBuffer.apply (onDisk data) writes = onDisk (data ++ content writes)
  := by
  induction writes generalizing data with
  | nil => exact congrArg onDisk (List.append_nil data).symm
  | cons op writes ih =>
    rw [content, List.flatMap_cons, ← List.append_assoc, ← content, ← ih]
    cases op with
    | chunk chunk => exact congrArg (Machine.run _ · writes) (writeChunk_onDisk data chunk)
    | spill =>
      rw [WriteOp.data, List.append_nil]
      rfl

/-- What is in memory stays there unless the buffer is told to spill or there is no room. -/
theorem run_inMemory {threshold : Nat} {data : List UInt8} (h : data.length ≤ threshold)
    (writes : List WriteOp) :
  Machine.run SpillableBuffer.apply (inMemory threshold data) writes =
    if writes.any WriteOp.isSpill || threshold < (data ++ content writes).length then
      onDisk (data ++ content writes)
    else inMemory threshold (data ++ content writes)
  := by
  induction writes generalizing data with
  | nil =>
    have hroom : ¬ threshold < (data ++ content []).length := by
      rw [content, List.flatMap_nil, List.append_nil]
      exact Nat.not_lt.mpr h
    rw [if_neg (by simpa using hroom), content, List.flatMap_nil, List.append_nil]
    rfl
  | cons op writes ih =>
    rw [content, List.flatMap_cons, ← List.append_assoc, ← content, List.any_cons]
    cases op with
    | chunk chunk =>
      change Machine.run SpillableBuffer.apply ((inMemory threshold data).writeChunk chunk) writes = _
      rw [writeChunk_inMemory, WriteOp.data, WriteOp.isSpill, Bool.false_or]
      split_ifs with hchunk hspill
      · exact run_onDisk _ writes
      · apply absurd _ hspill
        rw [Bool.or_eq_true, decide_eq_true_iff, List.length_append]
        exact .inr (Nat.lt_add_right _ hchunk)
      · rw [ih (Nat.not_lt.mp hchunk), if_pos ‹_›]
      · rw [ih (Nat.not_lt.mp hchunk), if_neg ‹_›]
    | spill =>
      change Machine.run SpillableBuffer.apply (inMemory threshold data).spillToDisk writes = _
      rw [spillToDisk_inMemory, run_onDisk, WriteOp.data, List.append_nil, WriteOp.isSpill,
        Bool.true_or, Bool.true_or, if_pos rfl]

/-- The contents end up in a file: they are expected to, or told to, or there is no room. -/
def spills (threshold : Nat) (sizeHint : Option Nat) (writes : List WriteOp) : Bool :=
  (sizeHint.any fun size => threshold < size) ||
    (writes.any WriteOp.isSpill || threshold < (content writes).length)

/-- What is written is in a file or in memory. -/
theorem written_eq (threshold : Nat) (sizeHint : Option Nat) (writes : List WriteOp) :
  written threshold sizeHint writes =
    if spills threshold sizeHint writes then onDisk (content writes)
    else inMemory threshold (content writes)
  := by
  have hnew : Machine.run SpillableBuffer.apply (.new threshold) writes =
      if writes.any WriteOp.isSpill || threshold < (content writes).length then
        onDisk (content writes)
      else inMemory threshold (content writes) :=
    @run_inMemory threshold [] (Nat.zero_le _) writes
  have hdisk : Machine.run SpillableBuffer.apply .newDisk writes = onDisk (content writes) :=
    run_onDisk [] writes
  cases sizeHint with
  | none =>
    rw [spills, Option.any_none, Bool.false_or]
    exact hnew
  | some size =>
    rw [written, SpillableBuffer.withSizeHint, spills, Option.any_some]
    split_ifs with hsize hspill hspill
    · exact hdisk
    · simp [hsize] at hspill
    · rw [hnew, if_pos (by simpa [hsize] using hspill)]
    · rw [hnew, if_neg (by simpa [hsize] using hspill)]

/-! ### Reading -/

/-- A file is read as a cursor is. -/
theorem run_disk (file : ByteCursor) (ops : List ReaderOp) :
  (SpillableReader.disk file file.contents.length).run ops = some (answers file ops)
  := by
  induction ops generalizing file with
  | nil => rfl
  | cons op ops ih =>
    have hseek : ∀ position, (file.seek position).2.contents = file.contents := by
      intro position
      rw [ByteCursor.seek]
      cases file.target position <;> rfl
    have hstep : (SpillableReader.disk file file.contents.length).perform op =
        some ((answer file op).1,
          .disk (answer file op).2 (answer file op).2.contents.length) := by
      cases op with
      | seek position =>
        change some (_, SpillableReader.disk (file.seek position).2 file.contents.length) =
          some (_, .disk (file.seek position).2 (file.seek position).2.contents.length)
        rw [hseek]
        rfl
      | read count => rfl
      | len => rfl
    rw [SpillableReader.run, hstep]
    change ((SpillableReader.disk (answer file op).2 _).run ops >>= _) = _
    rw [ih]
    rfl

/-- In memory a read beyond the end panics. -/
theorem pollRead_beyond {cursor : ByteCursor} {count : Nat}
    (h : cursor.contents.length < cursor.position) :
  (SpillableReader.memory cursor).pollRead count = none
  := if_pos h

theorem pollRead_within {cursor : ByteCursor} {count : Nat}
    (h : cursor.position ≤ cursor.contents.length) :
  (SpillableReader.memory cursor).pollRead count =
    some (.bytes (cursor.read count).1, .memory (cursor.read count).2)
  := by
  have htake : (cursor.contents.drop cursor.position).take
      (min (cursor.contents.drop cursor.position).length count) =
        (cursor.contents.drop cursor.position).take count := by
    rw [Nat.min_comm, List.take_eq_take_min (i := count)]
  rw [SpillableReader.pollRead, ByteCursor.read]
  dsimp only
  rw [if_neg (Nat.not_lt.mpr h), htake, List.length_take, Nat.min_comm]

/-- What is in memory is read as a cursor is exactly when no read is beyond the end. -/
theorem run_memory_iff (cursor : ByteCursor) (ops : List ReaderOp) :
  (SpillableReader.memory cursor).run ops = some (answers cursor ops) ↔
    Machine.Along advance ReadsWithin cursor ops
  := by
  induction ops generalizing cursor with
  | nil => exact iff_of_true rfl trivial
  | cons op ops ih =>
    rw [Machine.Along, ← ih]
    by_cases h : ReadsWithin cursor op
    · have hstep : (SpillableReader.memory cursor).perform op =
          some ((answer cursor op).1, .memory (answer cursor op).2) := by
        cases op with
        | seek position => rfl
        | read count => exact pollRead_within h
        | len => rfl
      rw [SpillableReader.run, hstep, and_iff_right h]
      change ((SpillableReader.memory (answer cursor op).2).run ops >>= fun outcomes =>
        some ((answer cursor op).1 :: outcomes)) = some (_ :: answers (answer cursor op).2 ops) ↔ _
      rw [Option.bind_eq_bind, Option.bind_eq_some_iff]
      constructor
      · rintro ⟨outcomes, hrun, heq⟩
        rw [Option.some.injEq, List.cons.injEq] at heq
        rw [advance, hrun, heq.2]
      · exact fun hrun => ⟨_, hrun, rfl⟩
    · refine iff_of_false ?_ fun hboth => h hboth.1
      cases op with
      | seek position => exact absurd trivial h
      | read count =>
        have hstep := @pollRead_beyond cursor count (Nat.not_le.mp h)
        rw [SpillableReader.run, SpillableReader.perform, hstep]
        exact nofun
      | len => exact absurd trivial h

/-- A buffer is read as a cursor over what was written exactly when it has spilled or no read is
beyond the end. -/
theorem transparent_iff (threshold : Nat) (sizeHint : Option Nat) (writes : List WriteOp)
    (ops : List ReaderOp) :
  (written threshold sizeHint writes).intoReader.run ops =
      some (answers ⟨content writes, 0⟩ ops) ↔
    spills threshold sizeHint writes = true ∨
      Machine.Along advance ReadsWithin ⟨content writes, 0⟩ ops
  := by
  rw [written_eq]
  split_ifs with hspill
  · exact iff_of_true (run_disk ⟨content writes, 0⟩ ops) (.inl hspill)
  · rw [or_iff_right hspill]
    exact run_memory_iff ⟨content writes, 0⟩ ops

/-- A read after a seek beyond the end of what is in memory panics. -/
theorem transparent_beyond :
  (written 8 none [.chunk [1]]).intoReader.run [.seek (.start 2), .read 1] = none ∧
    answers ⟨content [.chunk [1]], 0⟩ [.seek (.start 2), .read 1] = [.position 2, .bytes []]
  := ⟨rfl, rfl⟩

end Atproto.Dasl.Storage
