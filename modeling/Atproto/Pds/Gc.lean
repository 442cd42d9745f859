import Atproto.Record.Tid
import Mathlib.Data.Char
import Mathlib.Data.List.Sort

/-!
# The sweep of the space oplogs

Once a day a sweep walks every account of the directory, a page at a time, and deletes from
the two oplogs of its store the rows whose revision sorts below a cutoff.  The cutoff is
the text of a TID asked of the generator of the process for the start of the retention
window.  Instants are nanoseconds since the epoch.
-/

namespace Atproto.Pds.Gc

open Atproto.Record

/-- The two oplogs of an actor store. -/
inductive OplogTable where
  | spaceRecordOplog
  | spaceMemberOplog
deriving DecidableEq

/-- The key columns of an oplog row. -/
structure OplogRow where
  space : List Char
  rev : Tid
  idx : Nat
deriving DecidableEq

/-- The oplogs of one account. -/
abbrev ActorStore : Type := OplogTable → List OplogRow

/-- The account directory and the stores of the accounts. -/
structure Db where
  /-- The `did` column of the directory. -/
  accounts : List (List Char)
  stores : List Char → ActorStore

/-- What the databases answer: whether the store of an account opens, and whether a
deletion from one of its tables succeeds. -/
structure Answers where
  opens : List Char → Bool
  deletes : List Char → OplogTable → Bool

/-- The options of a tick that the oplog sweep reads. -/
structure TickOptions where
  dataDir : Option (List Char)
  spaceOplogRetentionDays : Int

/-! ### The walk over the accounts -/

/-- The number of accounts read at a time. -/
def pageLimit : Nat := 200

/-- The accounts after the cursor. -/
def accountsAfter (accounts : List (List Char)) : Option (List Char) → List (List Char)
  | some cursor => accounts.filter fun did => cursor < did
  | none => accounts

/-- One page of accounts in ascending order. -/
def selectPage (accounts : List (List Char)) (cursor : Option (List Char)) : List (List Char) :=
  ((accountsAfter accounts cursor).mergeSort fun a b => a ≤ b).take pageLimit

/-- `DELETE FROM table WHERE rev < cutoff`. -/
def deleteBelow (cutoff : List Char) (rows : List OplogRow) : List OplogRow :=
  rows.filter fun row => ¬ row.rev.encode < cutoff

/-- Addition of unsigned 64-bit counts that stops at the largest one. -/
def saturatingAdd (a b : Nat) : Nat := min (a + b) (2 ^ 64 - 1)

/-- Prune one table of one account, counting the rows deleted. -/
def pruneTable (answers : Answers) (cutoff did : List Char)
    (state : (List Char → ActorStore) × Nat) (table : OplogTable) :
    (List Char → ActorStore) × Nat :=
  if answers.deletes did table then
    let rows := state.1 did table
    let kept := deleteBelow cutoff rows
    (Function.update state.1 did (Function.update (state.1 did) table kept),
      saturatingAdd state.2 (rows.length - kept.length))
  else state

/-- Sweep one account, unless its store does not open. -/
def sweepAccount (answers : Answers) (cutoff : Option (List Char))
    (state : (List Char → ActorStore) × Nat) (did : List Char) :
    (List Char → ActorStore) × Nat :=
  if answers.opens did then
    match cutoff with
    | some cutoff =>
      [OplogTable.spaceRecordOplog, .spaceMemberOplog].foldl (pruneTable answers cutoff did) state
    | none => state
  else state

/-- A page that is not empty leaves fewer accounts after its last one. -/
theorem accountsAfter_lt {accounts : List (List Char)} {cursor : Option (List Char)}
    {last : List Char} (h : (selectPage accounts cursor).getLast? = some last) :
  (accountsAfter accounts (some last)).length < (accountsAfter accounts cursor).length
  := by
  have hmem : last ∈ accountsAfter accounts cursor := by
    have h' := List.mem_of_mem_take (List.mem_of_getLast? h)
    exact List.mem_mergeSort.mp h'
  cases cursor with
  | none =>
    apply List.length_filter_lt_length_iff_exists.mpr
    use last, hmem
    simp
  | some cursor =>
    simp only [accountsAfter, List.mem_filter, decide_eq_true_eq] at hmem ⊢
    have hsub : accounts.filter (fun did => last < did) =
        (accounts.filter fun did => cursor < did).filter fun did => last < did := by
      rw [List.filter_filter]
      apply List.filter_congr
      intro did _
      have htrans : last < did → cursor < did := fun hlt => lt_trans hmem.2 hlt
      by_cases hlt : last < did <;> simp [hlt, htrans]
    rw [hsub]
    apply List.length_filter_lt_length_iff_exists.mpr
    use last
    simp [hmem.1, hmem.2]

/-- Walk the pages after the cursor, sweeping every account. -/
def sweepPages (answers : Answers) (cutoff : Option (List Char)) (accounts : List (List Char))
    (cursor : Option (List Char)) (state : (List Char → ActorStore) × Nat) :
    (List Char → ActorStore) × Nat :=
  match _h : (selectPage accounts cursor).getLast? with
  | none => state
  | some last =>
    sweepPages answers cutoff accounts (some last)
      ((selectPage accounts cursor).foldl (sweepAccount answers cutoff) state)
termination_by (accountsAfter accounts cursor).length
decreasing_by exact accountsAfter_lt _h

/-- Sweep every account of the directory. -/
def prunePerActor (answers : Answers) (db : Db) (cutoff : Option (List Char)) : Db × Nat :=
  let (stores, total) := sweepPages answers cutoff db.accounts none (db.stores, 0)
  ({ db with stores := stores }, total)

/-- The rows that the sweep of an account leaves in a table. -/
def sweptRows (answers : Answers) (cutoff : Option (List Char)) (did : List Char)
    (table : OplogTable) (rows : List OplogRow) : List OplogRow :=
  match cutoff with
  | some cutoff =>
    if answers.opens did ∧ answers.deletes did table then deleteBelow cutoff rows else rows
  | none => rows

theorem sweptRows_idem (answers : Answers) (cutoff : Option (List Char)) (did : List Char)
    (table : OplogTable) (rows : List OplogRow) :
  sweptRows answers cutoff did table (sweptRows answers cutoff did table rows) =
    sweptRows answers cutoff did table rows
  := by
  cases cutoff with
  | none => rfl
  | some cutoff =>
    simp only [sweptRows]
    split
    · simp [deleteBelow, List.filter_filter]
    · rfl

theorem pruneTable_stores (answers : Answers) (cutoff did : List Char)
    (state : (List Char → ActorStore) × Nat) (table : OplogTable) :
  (pruneTable answers cutoff did state table).1 =
    Function.update state.1 did (Function.update (state.1 did) table
      (if answers.deletes did table then deleteBelow cutoff (state.1 did table)
        else state.1 did table))
  := by
  unfold pruneTable
  split_ifs
  · rfl
  · simp

theorem sweepAccount_stores (answers : Answers) (cutoff : Option (List Char))
    (state : (List Char → ActorStore) × Nat) (did did' : List Char) (table : OplogTable) :
  (sweepAccount answers cutoff state did).1 did' table =
    if did' = did then sweptRows answers cutoff did table (state.1 did table)
    else state.1 did' table
  := by
  unfold sweepAccount sweptRows
  cases hopens : answers.opens did with
  | false =>
    cases cutoff <;> by_cases hdid : did' = did <;> simp [hdid]
  | true =>
    cases cutoff with
    | none => by_cases hdid : did' = did <;> simp [hdid]
    | some cutoff =>
      simp only [if_true, List.foldl_cons, List.foldl_nil, pruneTable_stores]
      by_cases hdid : did' = did
      · subst hdid
        cases table <;> simp
      · simp [hdid]

theorem foldl_sweepAccount_stores (answers : Answers) (cutoff : Option (List Char))
    (dids : List (List Char)) (state : (List Char → ActorStore) × Nat) (did : List Char)
    (table : OplogTable) :
  (dids.foldl (sweepAccount answers cutoff) state).1 did table =
    if did ∈ dids then sweptRows answers cutoff did table (state.1 did table)
    else state.1 did table
  := by
  induction dids generalizing state with
  | nil => simp
  | cons head dids ih =>
    rw [List.foldl_cons, ih, sweepAccount_stores]
    by_cases hhead : did = head
    · subst hhead
      by_cases hmem : did ∈ dids <;> simp [hmem, sweptRows_idem]
    · simp [hhead]

theorem mem_accounts_of_mem {accounts : List (List Char)} {cursor : Option (List Char)}
    {did : List Char} (h : did ∈ accountsAfter accounts cursor) :
  did ∈ accounts
  := by
  cases cursor with
  | none => exact h
  | some cursor => exact List.mem_of_mem_filter h

theorem accountsAfter_of_lt {accounts : List (List Char)} {cursor : Option (List Char)}
    {did did' : List Char} (h : did ∈ accountsAfter accounts cursor) (hmem : did' ∈ accounts)
    (hlt : did < did') :
  did' ∈ accountsAfter accounts cursor
  := by
  cases cursor with
  | none => exact hmem
  | some cursor =>
    simp only [accountsAfter, List.mem_filter, decide_eq_true_eq] at h ⊢
    exact ⟨hmem, lt_trans h.2 hlt⟩

theorem mem_of_mem_selectPage {accounts : List (List Char)} {cursor : Option (List Char)}
    {did : List Char} (h : did ∈ selectPage accounts cursor) :
  did ∈ accountsAfter accounts cursor
  := List.mem_mergeSort.mp (List.mem_of_mem_take h)

/-- An account that a page leaves out is not before the last one of the page. -/
theorem le_of_mem_of_not_mem_selectPage {accounts : List (List Char)}
    {cursor : Option (List Char)} {did last : List Char}
    (h : did ∈ accountsAfter accounts cursor) (hnot : did ∉ selectPage accounts cursor)
    (hlast : last ∈ selectPage accounts cursor) :
  last ≤ did
  := by
  have hsorted := List.pairwise_mergeSort' (· ≤ ·) (accountsAfter accounts cursor)
  rw [← List.take_append_drop pageLimit (List.mergeSort _ _), List.pairwise_append] at hsorted
  have hmem : did ∈ (accountsAfter accounts cursor).mergeSort fun a b => a ≤ b :=
    List.mem_mergeSort.mpr h
  rw [← List.take_append_drop pageLimit (List.mergeSort _ _), List.mem_append] at hmem
  obtain hin | hout := hmem
  · exact absurd hin hnot
  · exact hsorted.2.2 last hlast did hout

/-- A page together with the accounts after its last one is all that was left. -/
theorem mem_accountsAfter_iff {accounts : List (List Char)} {cursor : Option (List Char)}
    {last : List Char} (h : (selectPage accounts cursor).getLast? = some last) (did : List Char) :
  did ∈ accountsAfter accounts cursor ↔
    did ∈ selectPage accounts cursor ∨ did ∈ accountsAfter accounts (some last)
  := by
  have hlast := List.mem_of_getLast? h
  constructor
  · intro hdid
    by_cases hpage : did ∈ selectPage accounts cursor
    · exact Or.inl hpage
    · right
      have hle := le_of_mem_of_not_mem_selectPage hdid hpage hlast
      have hne : last ≠ did := fun heq => hpage (heq ▸ hlast)
      simp only [accountsAfter, List.mem_filter, decide_eq_true_eq]
      exact ⟨mem_accounts_of_mem hdid, lt_of_le_of_ne hle hne⟩
  · rintro (hdid | hdid)
    · exact mem_of_mem_selectPage hdid
    · simp only [accountsAfter, List.mem_filter, decide_eq_true_eq] at hdid
      exact accountsAfter_of_lt (mem_of_mem_selectPage hlast) hdid.1 hdid.2

/-- The walk sweeps every account after the cursor and no other. -/
theorem sweepPages_stores (answers : Answers) (cutoff : Option (List Char))
    (accounts : List (List Char)) (cursor : Option (List Char))
    (state : (List Char → ActorStore) × Nat) (did : List Char) (table : OplogTable) :
  (sweepPages answers cutoff accounts cursor state).1 did table =
    if did ∈ accountsAfter accounts cursor then
      sweptRows answers cutoff did table (state.1 did table)
    else state.1 did table
  := by
  induction cursor, state using sweepPages.induct answers cutoff accounts with
  | case1 cursor state h =>
    have hempty : accountsAfter accounts cursor = [] := by
      rw [List.getLast?_eq_none_iff, selectPage, List.take_eq_nil_iff] at h
      obtain h | h := h
      · cases h
      · exact List.length_eq_zero_iff.mp (by rw [← List.length_mergeSort, h, List.length_nil])
    rw [sweepPages]
    split
    · simp [hempty]
    · next heq => simp [h] at heq
  | case2 cursor state last h ih =>
    rw [sweepPages]
    split
    · next heq => simp [h] at heq
    · next last' heq =>
      rw [h, Option.some.injEq] at heq
      subst heq
      have hmem := mem_accountsAfter_iff h did
      rw [ih, foldl_sweepAccount_stores]
      by_cases hpage : did ∈ selectPage accounts cursor <;>
        by_cases hafter : did ∈ accountsAfter accounts (some last) <;>
        simp [hmem, hpage, hafter, sweptRows_idem]

/-- A sweep prunes the tables of every account of the directory and of no other. -/
theorem prunePerActor_stores (answers : Answers) (db : Db) (cutoff : Option (List Char))
    (did : List Char) (table : OplogTable) :
  (prunePerActor answers db cutoff).1.stores did table =
    if did ∈ db.accounts then sweptRows answers cutoff did table (db.stores did table)
    else db.stores did table
  := sweepPages_stores answers cutoff db.accounts none (db.stores, 0) did table

/-! ### The cutoff -/

/-- The length of a day in nanoseconds. -/
def nanosPerDay : Int := 86400 * 10 ^ 9

/-- The earliest instant that the date library represents. -/
def minUtc : Int := -8334601228800 * 10 ^ 9

/-- The latest instant that the date library represents. -/
def maxUtc : Int := 8210266876799 * 10 ^ 9 + 999999999

/-- A reading of the system clock, after the epoch and in the range of the date library. -/
abbrev ClockReading : Type := { now : Int // 0 ≤ now ∧ now ≤ maxUtc }

/-- The start of the retention window that ends now. -/
def windowStart (opts : TickOptions) (now : ClockReading) : Int :=
  now.val - opts.spaceOplogRetentionDays * nanosPerDay

/-- The microseconds of an instant, cast from a signed to an unsigned 64-bit number. -/
def microsAsU64 (instant : Int) : Nat := (instant / 1000 % 2 ^ 64).toNat

/-- The cutoff of a tick and the cell of the generator after it; nothing when computing
it panics. -/
def cutoffTid (opts : TickOptions) (now : ClockReading) (last : Tid.LastTid) (random : Nat) :
    Option (Option (List Char) × Tid.LastTid) :=
  if opts.spaceOplogRetentionDays > 0 then
    if minUtc ≤ windowStart opts now then
      (Tid.newWithTime last (microsAsU64 (windowStart opts now)) random).map
        fun (tid, last') => (some tid.encode, last')
    else none
  else some (none, last)

/-- The part of a tick that concerns the oplogs: the database after it, the number of rows
reported, and the cell of the generator. -/
def tickWith (answers : Answers) (db : Db) (opts : TickOptions) (now : ClockReading) (last : Tid.LastTid)
    (random : Nat) : Option (Db × Nat × Tid.LastTid) :=
  match opts.dataDir with
  | none => some (db, 0, last)
  | some _ =>
    (cutoffTid opts now last random).map fun (cutoff, last') =>
      let (db', spaceOplog) := prunePerActor answers db cutoff
      (db', spaceOplog, last')

/-! ### What a tick deletes -/

/-- The instant that a revision encodes. -/
def instant (rev : Tid) : Int := rev.timestampMicros * 1000

/-- A tick deletes rows of instants before the retention window only. -/
def KeepsWindow (db : Db) (opts : TickOptions) (now : ClockReading)
    (result : Option (Db × Nat × Tid.LastTid)) : Prop :=
  ∀ db' spaceOplog last', result = some (db', spaceOplog, last') →
    ∀ did table row, row ∈ db.stores did table → row ∉ db'.stores did table →
      instant row.rev < windowStart opts now

/-- The rows that the sweep reaches. -/
def Reached (answers : Answers) (db : Db) (did : List Char) (table : OplogTable)
    (row : OplogRow) : Prop :=
  did ∈ db.accounts ∧ answers.opens did ∧ answers.deletes did table ∧ row ∈ db.stores did table

/-- The row is not below what the generator answers to the timestamp `asked`: at the
timestamp itself when its cell is empty or before that timestamp, at the next clock
identifier when its cell is at that timestamp, and at the timestamp after the one in the
cell when its cell is ahead. -/
def NotOvertaken (last : Tid.LastTid) (asked random : Nat) (rev : Tid) : Prop :=
  match last with
  | none => rev.timestampMicros = asked → Tid.randomClockId random ≤ rev.clockId
  | some (lastTimestamp, lastClock) =>
    if asked < lastTimestamp then
      lastTimestamp < Tid.maxTimestamp →
        lastTimestamp < rev.timestampMicros ∧
          (rev.timestampMicros = lastTimestamp + 1 → Tid.randomClockId random ≤ rev.clockId)
    else if asked = lastTimestamp ∧ lastClock ≠ Tid.clockIdMask then
      rev.timestampMicros = asked → lastClock < rev.clockId
    else rev.timestampMicros = asked → Tid.randomClockId random ≤ rev.clockId

/-- No row that the sweep reaches and the window holds is overtaken by the generator. -/
def WindowClear (answers : Answers) (db : Db) (opts : TickOptions) (now : ClockReading)
    (last : Tid.LastTid) (random : Nat) : Prop :=
  opts.dataDir.isSome → 0 < opts.spaceOplogRetentionDays → 0 ≤ windowStart opts now →
    windowStart opts now / 1000 ≤ Tid.maxTimestamp →
      ∀ did table row, Reached answers db did table row →
        windowStart opts now ≤ instant row.rev →
          NotOvertaken last (windowStart opts now / 1000).toNat random row.rev

/-- A sweep with a cutoff deletes exactly the rows it reaches that sort below it. -/
theorem deleted_iff (answers : Answers) (db : Db) (cutoff : Tid) (did : List Char)
    (table : OplogTable) (row : OplogRow) (h : row ∈ db.stores did table) :
  row ∉ (prunePerActor answers db (some cutoff.encode)).1.stores did table ↔
    Reached answers db did table row ∧ row.rev.value < cutoff.value
  := by
  rw [prunePerActor_stores]
  by_cases hdid : did ∈ db.accounts
  · by_cases hanswers : answers.opens did ∧ answers.deletes did table
    · simp [sweptRows, Reached, hdid, hanswers, deleteBelow, h, Tid.encode_lt_encode]
    · simp only [sweptRows, Reached, hdid, hanswers, h, if_true, if_false]
      tauto
  · simp [Reached, hdid, h]

theorem microsAsU64_of_nonneg {opts : TickOptions} {now : ClockReading}
    (h : 0 ≤ windowStart opts now) (hdays : 0 < opts.spaceOplogRetentionDays) :
  (microsAsU64 (windowStart opts now) : Int) = windowStart opts now / 1000
  := by
  have hmax := now.property.2
  simp only [microsAsU64, windowStart, maxUtc, nanosPerDay] at *
  omega

theorem maxTimestamp_lt_microsAsU64 {opts : TickOptions} {now : ClockReading}
    (h : windowStart opts now < 0) (hmin : minUtc ≤ windowStart opts now) :
  Tid.maxTimestamp < microsAsU64 (windowStart opts now)
  := by
  simp only [microsAsU64, minUtc, Tid.maxTimestamp] at *
  omega

/-- The cutoff asks the generator for the start of the window, which has to be in range. -/
theorem cutoffTid_eq {opts : TickOptions} (hdays : 0 < opts.spaceOplogRetentionDays)
    (now : ClockReading) (last : Tid.LastTid) (random : Nat) :
  cutoffTid opts now last random =
    if 0 ≤ windowStart opts now ∧ windowStart opts now / 1000 ≤ Tid.maxTimestamp then
      (Tid.newWithTime last (windowStart opts now / 1000).toNat random).map
        fun (tid, last') => (some tid.encode, last')
    else none
  := by
  rw [cutoffTid, if_pos hdays]
  by_cases hmin : minUtc ≤ windowStart opts now
  · rw [if_pos hmin]
    by_cases hpos : 0 ≤ windowStart opts now
    · have hmicros := microsAsU64_of_nonneg hpos hdays
      have hasked : microsAsU64 (windowStart opts now) = (windowStart opts now / 1000).toNat := by
        omega
      by_cases hmax : windowStart opts now / 1000 ≤ Tid.maxTimestamp
      · rw [if_pos ⟨hpos, hmax⟩, hasked]
      · have hlarge : ¬ microsAsU64 (windowStart opts now) ≤ Tid.maxTimestamp := by omega
        rw [if_neg (fun hrange => hmax hrange.2), Tid.newWithTime_eq, if_neg hlarge]
        rfl
    · have hlarge := maxTimestamp_lt_microsAsU64 (by omega) hmin
      rw [if_neg (fun hrange => hpos hrange.1), Tid.newWithTime_eq, if_neg (by omega)]
      rfl
  · have hneg : ¬ 0 ≤ windowStart opts now := by
      simp only [minUtc] at hmin
      omega
    rw [if_neg hmin, if_neg (fun hrange => hneg hrange.1)]

/-- A row of the window is below the next TID exactly when the generator overtakes it. -/
theorem notOvertaken_iff {last : Tid.LastTid} {asked random : Nat} {cutoff rev : Tid}
    {last' : Tid.LastTid} (h : Tid.ClockBounded last)
    (hnew : Tid.newWithTime last asked random = some (cutoff, last'))
    (hrev : asked ≤ rev.timestampMicros) :
  NotOvertaken last asked random rev ↔ ¬ rev.value < cutoff.value
  := by
  obtain ⟨hvalue, -⟩ := (Tid.newWithTime_spec h).2 cutoff last' hnew
  have hmax := mt (Tid.newWithTime_spec h).1.mpr (by rw [hnew]; exact Option.some_ne_none _)
  have hclock := rev.clockId_lt
  have hrandom := Tid.randomClockId_le random
  rw [rev.value_eq, hvalue]
  simp only [Tid.clockIdMask] at hrandom
  cases last with
  | none =>
    simp only [NotOvertaken, Tid.nextParts]
    omega
  | some parts =>
    obtain ⟨lastTimestamp, lastClock⟩ := parts
    have hlast := h lastTimestamp lastClock rfl
    simp only [Tid.clockIdMask] at hlast
    obtain hlt | rfl | hgt := Nat.lt_trichotomy lastTimestamp asked
    · have hne : ¬ asked = lastTimestamp := by omega
      simp only [NotOvertaken, Tid.nextParts, hlt, Nat.lt_asymm hlt, hne, false_and, if_true,
        if_false]
      omega
    · by_cases hmask : lastClock = Tid.clockIdMask
      · simp only [NotOvertaken, Tid.nextParts, hmask, lt_irrefl, ne_eq, not_true, and_false,
          if_false, if_true]
        omega
      · simp only [NotOvertaken, Tid.nextParts, hmask, lt_irrefl, ne_eq, not_false_iff, and_true,
          if_false, if_true]
        omega
    · simp only [Tid.nextParts, hgt, Nat.lt_asymm hgt, if_true, if_false] at hmax
      simp only [NotOvertaken, Tid.nextParts, hgt, Nat.lt_asymm hgt, if_true, if_false]
      omega

/-- Nothing is overtaken when the generator panics on a timestamp in range. -/
theorem notOvertaken_of_panic {last : Tid.LastTid} {asked random : Nat} {rev : Tid}
    (h : Tid.ClockBounded last) (hasked : asked ≤ Tid.maxTimestamp)
    (hnew : Tid.newWithTime last asked random = none) :
  NotOvertaken last asked random rev
  := by
  have hpanic := (Tid.newWithTime_spec h).1.mp hnew
  cases last with
  | none =>
    simp only [Tid.nextParts] at hpanic
    omega
  | some parts =>
    obtain ⟨lastTimestamp, lastClock⟩ := parts
    by_cases hlt : asked < lastTimestamp
    · simp only [Tid.nextParts, hlt, Nat.lt_asymm hlt, if_true, if_false] at hpanic
      simp only [NotOvertaken, hlt, if_true]
      omega
    · simp only [Tid.nextParts, hlt, if_false] at hpanic
      split_ifs at hpanic <;> simp only at hpanic <;> omega

/-- A tick keeps the window exactly when the window is clear of what the generator
answers. -/
theorem keepsWindow_iff {last : Tid.LastTid} (h : Tid.ClockBounded last) (answers : Answers)
    (db : Db) (opts : TickOptions) (now : ClockReading) (random : Nat) :
  KeepsWindow db opts now (tickWith answers db opts now last random) ↔
    WindowClear answers db opts now last random
  := by
  cases hdir : opts.dataDir with
  | none =>
    have hkeep : KeepsWindow db opts now (some (db, 0, last)) := by
      intro db' spaceOplog last' heq did table row hrow hgone
      cases heq
      exact absurd hrow hgone
    simpa [tickWith, hdir, WindowClear] using hkeep
  | some dir =>
    by_cases hdays : 0 < opts.spaceOplogRetentionDays
    case neg =>
      have hclear : WindowClear answers db opts now last random := fun _ hpos => absurd hpos hdays
      simp only [hclear, iff_true]
      intro db' spaceOplog last' heq did table row hrow hgone
      simp only [tickWith, hdir, cutoffTid, hdays, if_false, Option.map_some,
        Option.some.injEq, Prod.mk.injEq] at heq
      obtain ⟨rfl, -⟩ := heq
      simp [prunePerActor_stores, sweptRows, hrow] at hgone
    by_cases hrange : 0 ≤ windowStart opts now ∧ windowStart opts now / 1000 ≤ Tid.maxTimestamp
    case neg =>
      have hclear : WindowClear answers db opts now last random :=
        fun _ _ hpos hmax => absurd ⟨hpos, hmax⟩ hrange
      simp only [hclear, iff_true]
      intro db' spaceOplog last' heq
      simp [tickWith, hdir, cutoffTid_eq hdays, hrange] at heq
    cases hnew : Tid.newWithTime last (windowStart opts now / 1000).toNat random with
    | none =>
      have hclear : WindowClear answers db opts now last random :=
        fun _ _ _ _ _ _ _ _ _ => notOvertaken_of_panic h (by omega) hnew
      simp only [hclear, iff_true]
      intro db' spaceOplog last' heq
      simp [tickWith, hdir, cutoffTid_eq hdays, hnew] at heq
    | some result =>
      obtain ⟨cutoff, last'⟩ := result
      have htick : tickWith answers db opts now last random =
          some ((prunePerActor answers db (some cutoff.encode)).1,
            (prunePerActor answers db (some cutoff.encode)).2, last') := by
        simp [tickWith, hdir, cutoffTid_eq hdays, hrange, hnew]
      have hasked : ∀ rev, windowStart opts now ≤ instant rev →
          (windowStart opts now / 1000).toNat ≤ rev.timestampMicros := by
        intro rev hrev
        simp only [instant] at hrev
        omega
      rw [htick]
      constructor
      · intro hkeep _ _ _ _ did table row hreached hwindow
        rw [notOvertaken_iff h hnew (hasked row.rev hwindow)]
        intro hlt
        have hgone := (deleted_iff answers db cutoff did table row hreached.2.2.2).mpr
          ⟨hreached, hlt⟩
        have hbefore := hkeep _ _ _ rfl did table row hreached.2.2.2 hgone
        omega
      · intro hclear db' spaceOplog last'' heq did table row hrow hgone
        cases heq
        obtain ⟨hreached, hlt⟩ := (deleted_iff answers db cutoff did table row hrow).mp hgone
        by_contra hwindow
        have hwindow' : windowStart opts now ≤ instant row.rev := by omega
        have hover := hclear (by simp [hdir]) hdays hrange.1 hrange.2 did table row hreached
          hwindow'
        exact (notOvertaken_iff h hnew (hasked row.rev hwindow')).mp hover hlt

/-- After any sequence of TIDs issued by the process, a tick deletes rows of instants
before the retention window only, exactly when the generator overtakes no row of the
window. -/
theorem tick_keepsWindow_iff (issued : List (Nat × Nat)) {last : Tid.LastTid}
    (hrun : Tid.issueAll none issued = some last) (answers : Answers) (db : Db)
    (opts : TickOptions) (now : ClockReading) (random : Nat) :
  KeepsWindow db opts now (tickWith answers db opts now last random) ↔
    WindowClear answers db opts now last random
  := by
  have hnone : Tid.ClockBounded none := fun _ _ heq => by cases heq
  exact keepsWindow_iff (Tid.clockBounded_issueAll hnone hrun) answers db opts now random

/-- A row whose revision was issued in November 2023. -/
def sampleRow : OplogRow where
  space := ['s']
  rev := ⟨1700000000000000 * 1024, by decide⟩
  idx := 0

/-- One account whose record oplog holds the row. -/
def sampleDb : Db where
  accounts := [['d']]
  stores := fun did table =>
    if did = ['d'] ∧ table = .spaceRecordOplog then [sampleRow] else []

/-- Databases that answer every request. -/
def allAnswer : Answers where
  opens := fun _ => true
  deletes := fun _ _ => true

/-- The default options, with a data directory. -/
def sampleOptions : TickOptions where
  dataDir := some ['/']
  spaceOplogRetentionDays := 30

/-- A microsecond after the row was issued. -/
def sampleNow : ClockReading := ⟨1700000000000001000, by decide, by decide⟩

/-- A row whose revision was issued in September 2020. -/
def agedRow : OplogRow where
  space := ['s']
  rev := ⟨1600000000000000 * 1024, by decide⟩
  idx := 0

/-- One account whose record oplog holds both rows. -/
def agedDb : Db where
  accounts := [['d']]
  stores := fun did table =>
    if did = ['d'] ∧ table = .spaceRecordOplog then [agedRow, sampleRow] else []

/-- The TID of the start of the window. -/
def sampleCutoff : Tid := ⟨1697408000000001 * 1024, by decide⟩

theorem tickWith_agedDb :
  tickWith allAnswer agedDb sampleOptions sampleNow (some (1600000000000000, 1)) 0 =
    some ((prunePerActor allAnswer agedDb (some sampleCutoff.encode)).1,
      (prunePerActor allAnswer agedDb (some sampleCutoff.encode)).2, some (1697408000000001, 0))
  := by
  have hcutoff : cutoffTid sampleOptions sampleNow (some (1600000000000000, 1)) 0 =
      some (some sampleCutoff.encode, some (1697408000000001, 0)) := by decide +kernel
  have hdir : sampleOptions.dataDir = some ['/'] := rfl
  simp only [tickWith, hdir, hcutoff, Option.map_some]

/-- A process that has issued two TIDs in 2020 keeps the row of the window and deletes the other
one. -/
theorem tick_keepsWindow_fresh :
  Tid.issueAll none [(1600000000000000, 0), (1600000000000000, 7)] =
    some (some (1600000000000000, 1)) ∧
  KeepsWindow agedDb sampleOptions sampleNow
    (tickWith allAnswer agedDb sampleOptions sampleNow (some (1600000000000000, 1)) 0) ∧
  ∃ db' spaceOplog last',
    tickWith allAnswer agedDb sampleOptions sampleNow (some (1600000000000000, 1)) 0 =
      some (db', spaceOplog, last') ∧
    sampleRow ∈ db'.stores ['d'] .spaceRecordOplog ∧
    agedRow ∉ db'.stores ['d'] .spaceRecordOplog
  := by
  have hrun : Tid.issueAll none [(1600000000000000, 0), (1600000000000000, 7)] =
      some (some (1600000000000000, 1)) := by rfl
  have haged : agedRow ∈ agedDb.stores ['d'] .spaceRecordOplog := List.mem_cons_self
  have hkept : sampleRow ∈ agedDb.stores ['d'] .spaceRecordOplog :=
    List.mem_cons_of_mem _ List.mem_cons_self
  refine ⟨hrun, ?_, _, _, _, tickWith_agedDb, ?_, ?_⟩
  · apply (tick_keepsWindow_iff _ hrun allAnswer agedDb sampleOptions sampleNow 0).mpr
    intro _ _ _ _ did table row hreached hwindow heq
    have hasked : (windowStart sampleOptions sampleNow / 1000).toNat = 1697408000000001 := by decide
    have hrandom : Tid.randomClockId 0 = 0 := by decide
    omega
  · by_contra hgone
    have hdeleted := (deleted_iff allAnswer agedDb sampleCutoff _ _ _ hkept).mp hgone
    exact absurd hdeleted.2 (by decide)
  · apply (deleted_iff allAnswer agedDb sampleCutoff _ _ _ haged).mpr
    exact ⟨⟨List.mem_cons_self, rfl, rfl, haged⟩, by decide⟩

/-- The process that issued the row deletes it a microsecond later. -/
theorem tick_deletes_window :
  ¬ ∀ (issued : List (Nat × Nat)) (last : Tid.LastTid), Tid.issueAll none issued = some last →
    ∀ (answers : Answers) (db : Db) (opts : TickOptions) (now : ClockReading) (random : Nat),
      KeepsWindow db opts now (tickWith answers db opts now last random)
  := by
  intro h
  have hrun : Tid.issueAll none [(1700000000000000, 0)] = some (some (1700000000000000, 0)) := by
    rfl
  have hbound : Tid.ClockBounded (some (1700000000000000, 0)) := by
    intro timestamp clock heq
    cases heq
    exact Nat.zero_le _
  have hkeep := h _ _ hrun allAnswer sampleDb sampleOptions sampleNow 0
  rw [keepsWindow_iff hbound] at hkeep
  have hreached : Reached allAnswer sampleDb ['d'] .spaceRecordOplog sampleRow := by
    simp [Reached, allAnswer, sampleDb]
  have hover := hkeep rfl (by decide) (by decide) (by decide) _ _ _ hreached (by decide)
  have hafter : 1700000000000000 < sampleRow.rev.timestampMicros := (hover (by decide)).1
  exact absurd hafter (by decide)

end Atproto.Pds.Gc
