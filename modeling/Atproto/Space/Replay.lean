import Atproto.Space.Commitment

/-!
# Reading the oplog back

Pages of the oplog put together are the whole oplog, so a reader that starts from nothing and
follows the entries arrives at the current records.  The set hash is the one accumulated over
the current records after any run.  Both hold of the storage in memory and of the SQL tables.
-/

namespace Atproto.Space

open Atproto.Dasl Atproto.Record Atproto.Repo Logic Logic.Machine SearchTree

variable {blake3 : Bytes → Fin stateLength → UInt8}

/-- Read the whole oplog, at most `limit` entries at a time. -/
def readAll (backend : Backend) (store : SpaceStore) (limit fuel : Nat) : List OplogEntry :=
  readPages OplogEntry.key (fun since => store.readOplog backend since limit) fuel none

section Read

variable {backend : Backend} {store : SpaceStore}

theorem readEntry_key (entry : OplogEntry) :
  (store.readEntry backend entry).key = entry.key
  := by
  cases backend with
  | memory => rfl
  | sql => rfl

/-- A column that is empty is read as none, which stands for the empty text again. -/
theorem getD_filter (column : Option Text) :
  (column.filter (· ≠ Text.empty)).getD Text.empty = column.getD Text.empty
  := by
  cases column with
  | none => rfl
  | some text =>
    rw [Option.filter_some]
    split
    · rfl
    · rename_i hempty
      exact (not_not.mp fun hne => hempty (decide_eq_true hne)).symm

/-- An entry does the same after it was read. -/
theorem replayEntry_readEntry (records : List (RecordKey × Text)) (entry : OplogEntry) :
  replayEntry records (store.readEntry backend entry) = replayEntry records entry
  := by
  cases backend with
  | memory => rfl
  | sql =>
    rw [SpaceStore.readEntry, replayEntry, replayEntry]
    dsimp only
    rw [getD_filter, getD_filter]

theorem replay_map_readEntry (records : List (RecordKey × Text)) (entries : List OplogEntry) :
  replay records (entries.map (store.readEntry backend)) = replay records entries
  := by
  rw [replay, List.foldl_map]
  congr 1
  funext records entry
  exact replayEntry_readEntry records entry

theorem Dense.map_readEntry {oplog : List OplogEntry} (h : Dense oplog) :
  Dense (oplog.map (store.readEntry backend))
  := by
  intro rev
  have hfilter : ((oplog.map (store.readEntry backend)).filter fun entry => entry.rev = rev) =
      (oplog.filter fun entry => entry.rev = rev).map (store.readEntry backend) := by
    rw [List.filter_map]
    congr 1
    apply List.filter_congr
    intro entry _
    cases backend with
    | memory => rfl
    | sql => rfl
  rw [hfilter, List.length_map, List.map_map, ← h rev]
  apply List.map_congr_left
  intro entry _
  cases backend with
  | memory => rfl
  | sql => rfl

theorem pageSize_pos {limit : Nat} (h : 0 < limit) :
  0 < pageSize backend limit
  := by
  cases backend with
  | memory => exact h
  | sql => exact Nat.lt_of_lt_of_le Nat.one_pos (Nat.le_max_left _ _)

/-- The cursor cuts the read entries where it cuts the stored ones. -/
theorem afterOption_map_readEntry (cursor : Option (Rev ×ₗ Nat)) (oplog : List OplogEntry) :
  afterOption OplogEntry.key cursor (oplog.map (store.readEntry backend)) =
    (afterOption OplogEntry.key cursor oplog).map (store.readEntry backend)
  := by
  cases cursor with
  | none => rfl
  | some cursor =>
    rw [afterOption, afterOption, after, after, List.filter_map]
    congr 1
    apply List.filter_congr
    intro entry _
    rw [Function.comp_apply, readEntry_key]

/-- An ordered oplog is read as it is stored. -/
theorem readAll_eq (h : Ordered OplogEntry.key store.oplog) {limit fuel : Nat}
    (hlimit : 0 < limit) (hfuel : store.oplog.length ≤ fuel) :
  readAll backend store limit fuel = store.oplog.map (store.readEntry backend)
  := by
  have hordered : Ordered OplogEntry.key (store.oplog.map (store.readEntry backend)) := by
    apply List.pairwise_map.mpr
    apply List.Pairwise.imp _ h
    intro a b hlt
    rw [readEntry_key, readEntry_key]
    exact hlt
  apply hordered.readPages_eq (@pageSize_pos backend limit hlimit)
  · intro cursor
    rw [afterOption_map_readEntry, ← List.map_take]
    rfl
  · rw [afterOption, List.length_map]
    exact hfuel

end Read

/-! ### The commitment after any run -/

theorem committed_run (backend : Backend) (inputs : List Input) :
  Committed blake3 (run (step blake3 backend) start inputs).store
  := by
  have halong : Along (step blake3 backend) (fun _ _ => True) start inputs := by
    generalize start = state
    induction inputs generalizing state with
    | nil => trivial
    | cons input inputs ih => exact ⟨trivial, ih _⟩
  exact @invariant_run _ _ (step blake3 backend) (fun _ _ => True)
    (fun state => Committed blake3 state.store) _ _
    (fun state input h _ => committed_step backend h input) halong committed_empty

theorem logged_run {backend : Backend} {inputs : List Input}
    (h : Along (step blake3 backend) Careful start inputs) :
  Logged (run (step blake3 backend) start inputs).store
  := by
  have hboth := @invariant_run _ _ (step blake3 backend) Careful
    (fun state => Committed blake3 state.store ∧ Logged state.store) _ _
    (fun state input h hcareful =>
      ⟨committed_step backend h.1 input, logged_step backend h.1 h.2 input hcareful⟩)
    h ⟨committed_empty, logged_empty⟩
  exact hboth.2

/-- After any run the stored set hash is the one accumulated over the current records in any
order.  When each commit of the run gets a revision above the stored ones, the oplog read from
the beginning gives the current records, with the indices of each revision dense. -/
theorem run_commitment (blake3 : Bytes → Fin stateLength → UInt8) (backend : Backend)
    (inputs : List Input) :
  let store := (run (step blake3 backend) start inputs).store
  (∀ rows, rows.Perm (store.records.map Prod.snd) →
    store.loadHash = .ok (accumulate blake3 rows) ∧
    ∀ bytes, store.setHash = some bytes → bytes = (accumulate blake3 rows).stateBytes) ∧
  (Along (step blake3 backend) Careful start inputs →
    ∀ limit, 0 < limit → ∀ fuel, store.oplog.length ≤ fuel →
      replay [] (readAll backend store limit fuel) = cids store.records ∧
      Dense (readAll backend store limit fuel))
  := by
  intro store
  constructor
  · intro rows hrows
    have hcommitted : Committed blake3 store := committed_run backend inputs
    rw [accumulate_eq blake3 hrows]
    refine ⟨hcommitted.loadHash, ?_⟩
    intro bytes hbytes
    have hhash := hcommitted.hash
    rw [hbytes] at hhash
    exact hhash
  · intro halong limit hlimit fuel hfuel
    have hlogged : Logged store := logged_run halong
    rw [readAll_eq hlogged.ordered hlimit hfuel, replay_map_readEntry]
    exact ⟨hlogged.replayed, hlogged.dense.map_readEntry⟩

/-! ### Commits of two records -/

/-- An operation on a record that is given a value. -/
def sampleOp (action : OpAction) (rkey value : String) : Op :=
  ⟨action, textOf "c", textOf rkey, some (textOf value), some []⟩

/-- Two records are created.  Later the first one is updated and the second one deleted. -/
def twoCommits : List Input :=
  [.commit [sampleOp .create "k" "v", sampleOp .create "l" "v"] 1 1023 Text.empty true, .issue 5 3,
    .commit [sampleOp .update "k" "w", sampleOp .delete "l" ""] 7 0 Text.empty true]

/-- A commit is above the stored ones when its TID is. -/
theorem careful_of_all {state : State} {ops : List Op} {timestampMicros random : Nat} {now : Text}
    {stores : Bool} (hlength : ops.length ≤ 2 ^ 32)
    (h : ((Tid.newWithTime state.last timestampMicros random).all fun issued =>
      state.store.oplog.all fun entry => decide (entry.rev < issued.1.encode)) = true) :
  Careful state (.commit ops timestampMicros random now stores)
  := by
  use hlength
  intro tid last htid entry hentry
  rw [htid] at h
  exact of_decide_eq_true (List.all_eq_true.mp h entry hentry)

/-- Digests that tell the length of the data. -/
def lengthDigest (data : Bytes) (index : Fin stateLength) : UInt8 :=
  UInt8.ofNat (data.length * (index.val + 1))

/-- The record that is left is the one that the oplog gives, whatever the pages are, and the set
hash is accumulated over its row. -/
theorem run_commitment_sample :
  let store := (run (step lengthDigest .sql) start twoCommits).store
  cids store.records = [(toLex (textOf "c", textOf "k"), textOf "w")] ∧
    store.loadHash = .ok (accumulate lengthDigest (store.records.map Prod.snd)) ∧
    replay [] (readAll .sql store 3 4) = cids store.records ∧ Dense (readAll .sql store 3 4)
  := by
  have hcareful : Along (step lengthDigest .sql) Careful start twoCommits :=
    ⟨careful_of_all (by decide) (by decide +kernel), trivial,
      careful_of_all (by decide) (by decide +kernel), trivial⟩
  obtain ⟨hhash, hreplay⟩ := run_commitment lengthDigest .sql twoCommits
  obtain ⟨hreplayed, hdense⟩ := hreplay hcareful 3 (by decide) 4 (by decide +kernel)
  exact ⟨by decide +kernel, (hhash _ (List.Perm.refl _)).1, hreplayed, hdense⟩

/-! ### A microsecond that is repeated after the last clock identifier -/

/-- A record is created with the clock identifier 1023 and deleted in the same microsecond. -/
def repeatedMicrosecond : List Input :=
  [.commit [sampleOp .create "k" "v"] 1 1023 Text.empty true,
    .commit [sampleOp .delete "k" "v"] 1 0 Text.empty true]

/-- The deletion sorts before the creation, so the oplog gives the record that was deleted. -/
theorem replay_repeatedMicrosecond :
  let store := (run (step (fun _ _ => 0) .memory) start repeatedMicrosecond).store
  cids store.records = [] ∧ replay [] (readAll .memory store 2 2) ≠ cids store.records
  := by
  decide +kernel

end Atproto.Space
