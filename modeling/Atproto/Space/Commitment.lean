import Atproto.Space.Repo

/-!
# The commitment of a space

After any run of commits the stored set hash is the sum of the elements of the current
records.  The oplog, read from the beginning, gives back the records as long as each commit
gets a revision above the ones stored before.
-/

namespace Atproto.Space

open Atproto.Dasl Atproto.Record Logic Logic.Machine SearchTree

variable (blake3 : Bytes → Fin stateLength → UInt8)

/-- The lanes of a record. -/
def elementOf (x : RecordKey × RecordRow) : LtHash :=
  LtHash.expand blake3 (recordElementBytes x.2.collection x.2.rkey x.2.cid)

/-- The hash accumulated over records one after another. -/
def accumulate (rows : List RecordRow) : LtHash :=
  rows.foldl (fun hash row => hash.add blake3 (recordElementBytes row.collection row.rkey row.cid))
    LtHash.empty

/-- The CIDs of the records. -/
def cids (records : List (RecordKey × RecordRow)) : List (RecordKey × Text) :=
  mapValues RecordRow.cid records

/-- What an oplog entry does to the CIDs of the records. -/
def replayEntry (records : List (RecordKey × Text)) (entry : OplogEntry) :
    List (RecordKey × Text) :=
  let key := toLex (entry.collection.getD Text.empty, entry.rkey.getD Text.empty)
  match entry.cid with
  | some cid => insert key cid records
  | none => erase key records

/-- What oplog entries do one after another. -/
def replay (records : List (RecordKey × Text)) (entries : List OplogEntry) :
    List (RecordKey × Text) :=
  entries.foldl replayEntry records

/-- Each record is stored under its own key. -/
def Keyed (records : List (RecordKey × RecordRow)) : Prop := ∀ x ∈ records, x.2.key = x.1

/-- The entry names a collection and a record key. -/
def OplogEntry.Full (entry : OplogEntry) : Prop :=
  ∃ collection rkey, entry.collection = some collection ∧ entry.rkey = some rkey

/-- The total over the records is the hash accumulated over them in any order. -/
theorem accumulate_eq {rows : List RecordRow} {records : List (RecordKey × RecordRow)}
    (h : rows.Perm (records.map Prod.snd)) :
  accumulate blake3 rows = total (elementOf blake3) records
  := by
  have hfold : ∀ (rows : List RecordRow) (hash : LtHash),
      rows.foldl (fun hash row =>
        hash.add blake3 (recordElementBytes row.collection row.rkey row.cid)) hash =
      hash + (rows.map fun row =>
        LtHash.expand blake3 (recordElementBytes row.collection row.rkey row.cid)).sum := by
    intro rows
    induction rows with
    | nil => exact fun hash => (add_zero hash).symm
    | cons row rows ih =>
      intro hash
      rw [List.foldl_cons, ih, LtHash.add_eq, List.map_cons, List.sum_cons, add_assoc]
  rw [accumulate, hfold, LtHash.empty_eq, zero_add, (h.map _).sum_eq, List.map_map]
  rfl

theorem keyed_insert {records : List (RecordKey × RecordRow)} (h : Keyed records)
    (row : RecordRow) :
  Keyed (insert row.key row records)
  := by
  intro x hx
  obtain hx | hx := List.mem_append.mp hx
  · exact h x (mem_of_mem_below hx)
  · obtain rfl | hx := List.mem_cons.mp hx
    · rfl
    · exact h x (mem_of_mem_above hx)

theorem keyed_erase {records : List (RecordKey × RecordRow)} (h : Keyed records)
    (key : RecordKey) :
  Keyed (erase key records)
  := by
  intro x hx
  obtain hx | hx := List.mem_append.mp hx
  · exact h x (mem_of_mem_below hx)
  · exact h x (mem_of_mem_above hx)

theorem cids_insert (key : RecordKey) (row : RecordRow)
    (records : List (RecordKey × RecordRow)) :
  cids (insert key row records) = insert key row.cid (cids records)
  := mapValues_insert

theorem cids_erase (key : RecordKey) (records : List (RecordKey × RecordRow)) :
  cids (erase key records) = erase key (cids records)
  := mapValues_erase

/-- The element of a stored record is the one of its key and CID. -/
theorem elementOf_eq {records : List (RecordKey × RecordRow)} (h : Keyed records) {op : Op}
    {row : RecordRow} (hrow : lookup op.key records = some row) :
  elementOf blake3 (op.key, row) =
    LtHash.expand blake3 (recordElementBytes op.collection op.rkey row.cid)
  := by
  have hkey : row.key = op.key := h _ (mem_of_lookup hrow)
  obtain ⟨hcollection, hrkey⟩ := Prod.ext_iff.mp (toLex.injective hkey)
  dsimp only at hcollection hrkey
  rw [elementOf, hcollection, hrkey]

/-- What formatting one operation adds to the draft, and the records after it. -/
structure Formats (rev : Rev) (idx : Nat) (op : Op) (records : List (RecordKey × RecordRow))
    (draft : Draft) (change : RecordChange) (entry : OplogEntry) (result : Draft)
    (after : List (RecordKey × RecordRow)) : Prop where
  changes : result.changes = draft.changes ++ [change]
  entries : result.entries = draft.entries ++ [entry]
  applies : ∀ backend, change.apply backend records = .ok after
  hash : result.hash - total (elementOf blake3) after =
    draft.hash - total (elementOf blake3) records
  sorted : Sorted after
  keyed : Keyed after
  others : ∀ key, key ≠ op.key → lookup key after = lookup key records
  position : entry.rev = rev ∧ entry.idx = idx % 2 ^ 32
  full : entry.Full
  replayed : replayEntry (cids records) entry = cids after

variable {blake3}

section FormatOp

variable {rev : Rev} {now : Text} {idx : Nat} {op : Op} {draft result : Draft}
  {records : List (RecordKey × RecordRow)}

theorem formatOp_create (hs : Sorted records) (hk : Keyed records) (haction : op.action = .create)
    (hprior : lookup op.key records = none) (hop : formatOp blake3 rev now none idx op draft = .ok result) :
  ∃ change entry after, Formats blake3 rev idx op records draft change entry result after
  := by
  rw [formatOp.eq_def, haction] at hop
  obtain ⟨cid, -, hop⟩ := bind_eq_ok.mp hop
  obtain ⟨value, -, hop⟩ := bind_eq_ok.mp hop
  cases hop
  refine ⟨_, _, insert op.key (op.row rev now cid value) records, rfl, rfl, ?_, ?_,
    hs.insert _ _, keyed_insert hk (op.row rev now cid value), ?_, ⟨rfl, rfl⟩, ⟨_, _, rfl, rfl⟩,
    ?_⟩
  · intro backend
    cases backend with
    | memory => rfl
    | sql =>
      have hnone : (lookup (op.row rev now cid value).key records).isSome = false := by
        rw [Option.isSome_eq_false_iff, Option.isNone_iff_eq_none]
        exact hprior
      rw [RecordChange.apply, hnone]
      rfl
  · rw [total_insert, total_erase_of_none hs hprior, LtHash.add_eq]
    exact add_sub_add_right_eq_sub _ _ _
  · intro key hne
    rw [lookup_insert, if_neg hne]
  · rw [cids_insert]
    rfl

theorem formatOp_update {row : RecordRow} (hs : Sorted records) (hk : Keyed records)
    (haction : op.action = .update) (hprior : lookup op.key records = some row)
    (hop : formatOp blake3 rev now (some row) idx op draft = .ok result) :
  ∃ change entry after, Formats blake3 rev idx op records draft change entry result after
  := by
  rw [formatOp.eq_def, haction] at hop
  obtain ⟨cid, -, hop⟩ := bind_eq_ok.mp hop
  obtain ⟨value, -, hop⟩ := bind_eq_ok.mp hop
  cases hop
  refine ⟨_, _, insert op.key (op.row rev now cid value) records, rfl, rfl, ?_, ?_,
    hs.insert _ _, keyed_insert hk (op.row rev now cid value), ?_, ⟨rfl, rfl⟩, ⟨_, _, rfl, rfl⟩,
    ?_⟩
  · intro backend
    cases backend with
    | memory => rfl
    | sql =>
      have hsome : (lookup (op.row rev now cid value).key records).isSome = true :=
        Option.isSome_of_eq_some hprior
      rw [RecordChange.apply, hsome]
      rfl
  · rw [total_insert, total_erase hs hprior, LtHash.add_eq, LtHash.remove_eq,
      elementOf_eq blake3 hk hprior]
    exact (add_sub_add_right_eq_sub _ _ _).trans (sub_sub_sub_cancel_right _ _ _)
  · intro key hne
    rw [lookup_insert, if_neg hne]
  · rw [cids_insert]
    rfl

theorem formatOp_delete {row : RecordRow} (hs : Sorted records) (hk : Keyed records)
    (haction : op.action = .delete) (hprior : lookup op.key records = some row)
    (hop : formatOp blake3 rev now (some row) idx op draft = .ok result) :
  ∃ change entry after, Formats blake3 rev idx op records draft change entry result after
  := by
  rw [formatOp.eq_def, haction] at hop
  cases hop
  refine ⟨_, _, erase op.key records, rfl, rfl, ?_, ?_, hs.erase _, keyed_erase hk op.key, ?_,
    ⟨rfl, rfl⟩, ⟨_, _, rfl, rfl⟩, ?_⟩
  · intro backend
    cases backend with
    | memory => rfl
    | sql => rfl
  · rw [total_erase hs hprior, LtHash.remove_eq, elementOf_eq blake3 hk hprior]
    exact sub_sub_sub_cancel_right _ _ _
  · intro key hne
    rw [lookup_erase, if_neg hne]
  · rw [cids_erase]
    rfl

/-- An operation that is accepted changes its own record, and the hash, the change and the
entry go along. -/
theorem formatOp_formats (hs : Sorted records) (hk : Keyed records)
    (hop : formatOp blake3 rev now (lookup op.key records) idx op draft = .ok result) :
  ∃ change entry after, Formats blake3 rev idx op records draft change entry result after
  := by
  cases haction : op.action with
  | create =>
    cases hprior : lookup op.key records with
    | none =>
      rw [hprior] at hop
      exact formatOp_create hs hk haction hprior hop
    | some row =>
      rw [hprior, formatOp.eq_def, haction] at hop
      cases hop
  | update =>
    cases hprior : lookup op.key records with
    | none =>
      rw [hprior, formatOp.eq_def, haction] at hop
      cases hop
    | some row =>
      rw [hprior] at hop
      exact formatOp_update hs hk haction hprior hop
  | delete =>
    cases hprior : lookup op.key records with
    | none =>
      rw [hprior, formatOp.eq_def, haction] at hop
      cases hop
    | some row =>
      rw [hprior] at hop
      exact formatOp_delete hs hk haction hprior hop

end FormatOp

/-! ### A batch -/

/-- Without a duplicate the keys are distinct and none was named before. -/
theorem firstDuplicate_eq_none {seen : List RecordKey} {ops : List Op}
    (h : firstDuplicate seen ops = none) :
  (ops.map Op.key).Nodup ∧ ∀ op ∈ ops, op.key ∉ seen
  := by
  induction ops generalizing seen with
  | nil => exact ⟨List.nodup_nil, nofun⟩
  | cons op ops ih =>
    rw [firstDuplicate] at h
    split at h
    · cases h
    · rename_i hseen
      obtain ⟨hnodup, hothers⟩ := ih h
      constructor
      · apply List.nodup_cons.mpr
        refine ⟨?_, hnodup⟩
        intro hmem
        obtain ⟨other, hother, hkey⟩ := List.mem_map.mp hmem
        apply hothers other hother
        rw [hkey]
        exact List.mem_cons_self
      · intro other hother
        obtain rfl | hother := List.mem_cons.mp hother
        · exact hseen
        · exact fun hmem => hothers other hother (List.mem_cons_of_mem _ hmem)

variable (blake3) in
/-- What formatting a batch adds to the draft, and the records after it. -/
structure FormatsAll (rev : Rev) (idx : Nat) (ops : List Op)
    (records : List (RecordKey × RecordRow)) (draft : Draft) (changes : List RecordChange)
    (entries : List OplogEntry) (result : Draft) (after : List (RecordKey × RecordRow)) :
    Prop where
  appended : result.changes = draft.changes ++ changes
  logged : result.entries = draft.entries ++ entries
  applies : ∀ backend, applyChanges backend changes records = .ok after
  hash : result.hash - total (elementOf blake3) after =
    draft.hash - total (elementOf blake3) records
  sorted : Sorted after
  keyed : Keyed after
  keys : entries.map OplogEntry.key =
    (List.range' idx ops.length).map fun i => toLex (rev, i % 2 ^ 32)
  full : ∀ entry ∈ entries, entry.Full
  replayed : replay (cids records) entries = cids after

/-- A batch with distinct keys is formatted as its operations are one after another, although
each is formatted against the rows stored before the batch. -/
theorem formatOps_formats {store : SpaceStore} {rev : Rev} {now : Text} {idx : Nat}
    {ops : List Op} {draft result : Draft} {records : List (RecordKey × RecordRow)}
    (hs : Sorted records) (hk : Keyed records) (hnodup : (ops.map Op.key).Nodup)
    (hagree : ∀ op ∈ ops, lookup op.key records = store.getRecord op.key)
    (hops : formatOps blake3 store rev now idx ops draft = .ok result) :
  ∃ changes entries after,
    FormatsAll blake3 rev idx ops records draft changes entries result after
  := by
  induction ops generalizing idx draft records with
  | nil =>
    cases hops
    exact ⟨[], [], records, (List.append_nil _).symm, (List.append_nil _).symm, fun _ => rfl, rfl,
      hs, hk, rfl, nofun, rfl⟩
  | cons op ops ih =>
    obtain ⟨mid, hop, hops⟩ := bind_eq_ok.mp hops
    rw [← hagree op List.mem_cons_self] at hop
    obtain ⟨change, entry, next, hformats⟩ := formatOp_formats hs hk hop
    obtain ⟨hnotmem, hnodup⟩ := List.nodup_cons.mp hnodup
    have hagree' : ∀ other ∈ ops, lookup other.key next = store.getRecord other.key := by
      intro other hother
      rw [hformats.others]
      · exact hagree other (List.mem_cons_of_mem _ hother)
      · rintro heq
        rw [← heq] at hnotmem
        exact hnotmem (List.mem_map_of_mem hother)
    obtain ⟨changes, entries, after, hall⟩ := ih hformats.sorted hformats.keyed hnodup hagree' hops
    refine ⟨change :: changes, entry :: entries, after, ?_, ?_, ?_, ?_, hall.sorted, hall.keyed,
      ?_, ?_, ?_⟩
    · rw [hall.appended, hformats.changes, List.append_assoc]
      rfl
    · rw [hall.logged, hformats.entries, List.append_assoc]
      rfl
    · intro backend
      rw [applyChanges, hformats.applies backend]
      exact hall.applies backend
    · exact hall.hash.trans hformats.hash
    · rw [List.map_cons, hall.keys, List.length_cons, List.range'_succ, List.map_cons,
        OplogEntry.key, hformats.position.1, hformats.position.2]
    · exact List.forall_mem_cons.mpr ⟨hformats.full, hall.full⟩
    · rw [← hall.replayed, ← hformats.replayed]
      rfl

/-! ### Storing the entries -/

/-- An entry with a collection and a record key is written as it is. -/
theorem OplogEntry.Full.write (backend : Backend) {entry : OplogEntry} {oplog : List OplogEntry}
    (hfull : entry.Full) (h : ∀ other ∈ oplog, other.key < entry.key) :
  entry.write backend oplog = .ok (oplog ++ [entry])
  := by
  obtain ⟨collection, rkey, hcollection, hrkey⟩ := hfull
  cases backend with
  | memory => exact congrArg Except.ok (put_of_last h)
  | sql =>
    have hfresh : (oplog.any fun other => other.key = entry.key) = false := by
      rw [List.any_eq_false]
      intro other hother heq
      exact (h other hother).ne (of_decide_eq_true heq)
    have hrow : { entry with
        collection := some (entry.collection.getD Text.empty)
        rkey := some (entry.rkey.getD Text.empty) } = entry := by
      rw [hcollection, hrkey, Option.getD_some, Option.getD_some, ← hcollection, ← hrkey]
    rw [OplogEntry.write, hfresh]
    dsimp only
    rw [hrow]
    exact congrArg Except.ok (put_of_last h)

/-- Entries above all stored ones, in order, are written at the end. -/
theorem writeEntries_eq (backend : Backend) {entries oplog : List OplogEntry}
    (hfull : ∀ entry ∈ entries, entry.Full)
    (h : Ordered OplogEntry.key (oplog ++ entries)) :
  writeEntries backend entries oplog = .ok (oplog ++ entries)
  := by
  induction entries generalizing oplog with
  | nil => rw [writeEntries, List.append_nil]
  | cons entry entries ih =>
    have hlast : ∀ other ∈ oplog, other.key < entry.key := fun other hother =>
      (List.pairwise_append.mp h).2.2 other hother entry List.mem_cons_self
    obtain ⟨hentry, hentries⟩ := List.forall_mem_cons.mp hfull
    rw [writeEntries, hentry.write backend hlast]
    have hcons : oplog ++ entry :: entries = oplog ++ [entry] ++ entries := by
      rw [List.append_assoc]
      rfl
    rw [hcons] at h ⊢
    exact ih hentries h

/-! ### One commit -/

variable (blake3) in
/-- The stored hash is the total over the stored records. -/
structure Committed (store : SpaceStore) : Prop where
  sorted : Sorted store.records
  keyed : Keyed store.records
  hash : match store.setHash with
    | none => store.records = []
    | some bytes => bytes = LtHash.stateBytes (total (elementOf blake3) store.records)

/-- The indices of the entries of each revision are the first natural numbers. -/
def Dense (oplog : List OplogEntry) : Prop :=
  ∀ rev, (oplog.filter fun entry => entry.rev = rev).map OplogEntry.idx =
    List.range (oplog.filter fun entry => entry.rev = rev).length

/-- The oplog is in order and gives the records. -/
structure Logged (store : SpaceStore) : Prop where
  ordered : Ordered OplogEntry.key store.oplog
  full : ∀ entry ∈ store.oplog, entry.Full
  replayed : replay [] store.oplog = cids store.records
  dense : Dense store.oplog

theorem Committed.loadHash {store : SpaceStore} (h : Committed blake3 store) :
  store.loadHash = .ok (total (elementOf blake3) store.records)
  := by
  have hhash := h.hash
  rw [SpaceStore.loadHash]
  cases hset : store.setHash with
  | none =>
    rw [hset] at hhash
    rw [show store.records = [] from hhash]
    rfl
  | some bytes =>
    rw [hset] at hhash
    rw [show bytes = _ from hhash]
    exact LtHash.fromStateBytes_stateBytes _

/-- A batch that is accepted was formatted with a new revision from the stored hash. -/
theorem formatCommit_eq_ok {store : SpaceStore} {last last' : Tid.LastTid}
    {timestampMicros random : Nat} {now : Text} {ops : List Op} {commit : PreparedCommitRecords}
    (h : formatCommit blake3 store last timestampMicros random now ops = (last', .ok commit)) :
  firstDuplicate [] ops = none ∧ ∃ hash tid result, store.loadHash = .ok hash ∧
    Tid.newWithTime last timestampMicros random = some (tid, last') ∧
    formatOps blake3 store tid.encode now 0 ops ⟨hash, [], []⟩ = .ok result ∧
    commit = result.prepare tid.encode
  := by
  rw [formatCommit] at h
  cases hduplicate : firstDuplicate [] ops with
  | some op =>
    rw [hduplicate] at h
    cases h
  | none =>
    rw [hduplicate] at h
    cases hhash : store.loadHash with
    | error error =>
      rw [hhash] at h
      cases h
    | ok hash =>
      rw [hhash] at h
      cases htid : Tid.newWithTime last timestampMicros random with
      | none =>
        rw [htid] at h
        cases h
      | some issued =>
        obtain ⟨tid, next⟩ := issued
        rw [htid] at h
        obtain ⟨rfl, hdraft⟩ := Prod.ext_iff.mp h
        dsimp only at hdraft
        cases hops : formatOps blake3 store tid.encode now 0 ops ⟨hash, [], []⟩ with
        | error error =>
          rw [hops] at hdraft
          cases hdraft
        | ok result =>
          rw [hops] at hdraft
          cases hdraft
          exact ⟨rfl, hash, tid, result, rfl, rfl, hops, rfl⟩

/-- A commit that is accepted, from a committed store: what it changes. -/
theorem Committed.formats {store : SpaceStore} (h : Committed blake3 store)
    {last last' : Tid.LastTid} {timestampMicros random : Nat} {now : Text} {ops : List Op}
    {commit : PreparedCommitRecords}
    (hformat : formatCommit blake3 store last timestampMicros random now ops =
      (last', .ok commit)) :
  ∃ tid changes entries result after,
    Tid.newWithTime last timestampMicros random = some (tid, last') ∧
    FormatsAll blake3 tid.encode 0 ops store.records
      ⟨total (elementOf blake3) store.records, [], []⟩ changes entries result after ∧
    commit = ⟨LtHash.stateBytes (total (elementOf blake3) after), tid.encode, changes, entries⟩
  := by
  obtain ⟨hduplicate, hash, tid, result, hhash, htid, hops, rfl⟩ := formatCommit_eq_ok hformat
  rw [h.loadHash] at hhash
  cases hhash
  obtain ⟨hnodup, -⟩ := firstDuplicate_eq_none hduplicate
  obtain ⟨changes, entries, after, hall⟩ :=
    formatOps_formats h.sorted h.keyed hnodup (fun _ _ => rfl) hops
  refine ⟨tid, changes, entries, result, after, htid, hall, ?_⟩
  have hresult : result.hash = total (elementOf blake3) after := by
    have hdiff := hall.hash
    rw [sub_self, sub_eq_zero] at hdiff
    exact hdiff
  rw [Draft.prepare, hresult, hall.appended, hall.logged]
  rfl

/-- Storing an accepted commit keeps the hash. -/
theorem FormatsAll.committed {rev : Rev} {idx : Nat} {ops : List Op} {store next : SpaceStore}
    {draft result : Draft} {changes : List RecordChange} {entries : List OplogEntry}
    {after : List (RecordKey × RecordRow)} {backend : Backend}
    (hall : FormatsAll blake3 rev idx ops store.records draft changes entries result after)
    (hstore : applyCommit backend
      ⟨LtHash.stateBytes (total (elementOf blake3) after), rev, changes, entries⟩ store = .ok next) :
  Committed blake3 next ∧ next.records = after ∧
    writeEntries backend entries store.oplog = .ok next.oplog
  := by
  obtain ⟨records, hrecords, hstore⟩ := bind_eq_ok.mp hstore
  obtain ⟨oplog, hoplog, hstore⟩ := bind_eq_ok.mp hstore
  rw [show applyChanges backend changes store.records = .ok after from hall.applies backend]
    at hrecords
  cases hrecords
  cases hstore
  exact ⟨⟨hall.sorted, hall.keyed, rfl⟩, rfl, hoplog⟩

section Entries

variable {rev : Rev} {ops : List Op} {records after : List (RecordKey × RecordRow)}
  {draft result : Draft} {changes : List RecordChange} {entries : List OplogEntry}

/-- The indices of a batch do not wrap around unless it is very long. -/
theorem FormatsAll.keys_eq
    (hall : FormatsAll blake3 rev 0 ops records draft changes entries result after)
    (hsize : ops.length ≤ 2 ^ 32) :
  entries.map OplogEntry.key = (List.range ops.length).map fun i => toLex (rev, i)
  := by
  rw [hall.keys, ← List.range_eq_range']
  apply List.map_congr_left
  intro i hi
  rw [Nat.mod_eq_of_lt (Nat.lt_of_lt_of_le (List.mem_range.mp hi) hsize)]

theorem rev_of_keys {n : Nat}
    (hkeys : entries.map OplogEntry.key = (List.range n).map fun i => toLex (rev, i))
    {entry : OplogEntry} (hentry : entry ∈ entries) :
  entry.rev = rev
  := by
  have hkey : entry.key ∈ entries.map OplogEntry.key := List.mem_map_of_mem hentry
  rw [hkeys] at hkey
  obtain ⟨i, -, heq⟩ := List.mem_map.mp hkey
  exact (Prod.ext_iff.mp (toLex.injective heq)).1.symm

theorem ordered_of_keys {n : Nat}
    (hkeys : entries.map OplogEntry.key = (List.range n).map fun i => toLex (rev, i)) :
  Ordered OplogEntry.key entries
  := by
  apply List.pairwise_map.mp
  rw [hkeys]
  apply List.pairwise_map.mpr
  apply List.pairwise_lt_range.imp
  exact fun hlt => Prod.Lex.toLex_lt_toLex.mpr (Or.inr ⟨rfl, hlt⟩)

theorem idx_of_keys {n : Nat}
    (hkeys : entries.map OplogEntry.key = (List.range n).map fun i => toLex (rev, i)) :
  entries.map OplogEntry.idx = List.range entries.length
  := by
  have hlength : entries.length = n := by
    have h := congrArg List.length hkeys
    rwa [List.length_map, List.length_map, List.length_range] at h
  have hidx : entries.map OplogEntry.idx =
      (entries.map OplogEntry.key).map fun key => (ofLex key).2 := by
    rw [List.map_map]
    rfl
  rw [hidx, hkeys, hlength, List.map_map]
  exact List.map_id _

/-- Entries of one revision put after entries of others keep the indices dense. -/
theorem dense_append {oplog : List OplogEntry} {n : Nat} (h : Dense oplog)
    (hkeys : entries.map OplogEntry.key = (List.range n).map fun i => toLex (rev, i))
    (hfresh : ∀ entry ∈ oplog, entry.rev ≠ rev) :
  Dense (oplog ++ entries)
  := by
  intro rev'
  rw [List.filter_append]
  by_cases heq : rev' = rev
  · have hold : (oplog.filter fun entry => entry.rev = rev') = [] := by
      apply List.filter_eq_nil_iff.mpr
      intro entry hentry hrev
      exact hfresh entry hentry ((of_decide_eq_true hrev).trans heq)
    have hnew : (entries.filter fun entry => entry.rev = rev') = entries := by
      apply List.filter_eq_self.mpr
      exact fun entry hentry => decide_eq_true ((rev_of_keys hkeys hentry).trans heq.symm)
    rw [hold, hnew]
    exact idx_of_keys hkeys
  · have hnew : (entries.filter fun entry => entry.rev = rev') = [] := by
      apply List.filter_eq_nil_iff.mpr
      intro entry hentry hrev
      exact heq ((of_decide_eq_true hrev).symm.trans (rev_of_keys hkeys hentry))
    rw [hnew, List.append_nil]
    exact h rev'

/-- A commit with a revision above the stored ones is added to the oplog. -/
theorem Logged.commit {store next : SpaceStore} {backend : Backend} (h : Logged store)
    (hall : FormatsAll blake3 rev 0 ops store.records draft changes entries result after)
    (hsize : ops.length ≤ 2 ^ 32) (habove : ∀ entry ∈ store.oplog, entry.rev < rev)
    (hrecords : next.records = after)
    (hwrite : writeEntries backend entries store.oplog = .ok next.oplog) :
  Logged next
  := by
  have hkeys := hall.keys_eq hsize
  have hordered : Ordered OplogEntry.key (store.oplog ++ entries) := by
    apply List.pairwise_append.mpr
    refine ⟨h.ordered, ordered_of_keys hkeys, ?_⟩
    intro old hold new hnew
    apply Prod.Lex.toLex_lt_toLex.mpr
    left
    dsimp only
    rw [rev_of_keys hkeys hnew]
    exact habove old hold
  rw [writeEntries_eq backend hall.full hordered] at hwrite
  have hoplog := (Except.ok.inj hwrite).symm
  constructor
  · rw [hoplog]
    exact hordered
  · intro entry hentry
    rw [hoplog] at hentry
    obtain hentry | hentry := List.mem_append.mp hentry
    · exact h.full entry hentry
    · exact hall.full entry hentry
  · rw [hoplog, hrecords, ← hall.replayed, ← h.replayed]
    exact List.foldl_append
  · rw [hoplog]
    apply dense_append h.dense hkeys
    intro entry hentry heq
    exact (habove entry hentry).ne heq

end Entries

/-! ### Runs -/

/-- The generator of the process and the store. -/
structure State where
  last : Tid.LastTid
  store : SpaceStore

/-- A batch is committed, with the clock and random bits, and the storage may fail; or the
process issues a TID for something else; or it is restarted. -/
inductive Input where
  | commit (ops : List Op) (timestampMicros random : Nat) (now : Text) (stores : Bool)
  | issue (timestampMicros random : Nat)
  | restart

variable (blake3) in
/-- One step: a batch is formatted and, when it is accepted, stored. -/
def step (backend : Backend) (state : State) : Input → State
  | .commit ops timestampMicros random now stores =>
    match formatCommit blake3 state.store state.last timestampMicros random now ops with
    | (last, .error _) => { state with last := last }
    | (last, .ok commit) =>
      match if stores then applyCommit backend commit state.store else .error (.storage "") with
      | .error _ => { state with last := last }
      | .ok store => ⟨last, store⟩
  | .issue timestampMicros random =>
    match Tid.newWithTime state.last timestampMicros random with
    | none => state
    | some (_, last) => { state with last := last }
  | .restart => { state with last := none }

/-- Nothing was stored and no TID issued. -/
def start : State := ⟨none, SpaceStore.empty⟩

/-- What a commit has to meet for the oplog: the batch is not too long, and the TID that the
generator issues next for the clock sorts above the stored revisions. -/
def Careful (state : State) : Input → Prop
  | .commit ops timestampMicros random _ _ =>
    ops.length ≤ 2 ^ 32 ∧ ∀ tid last, Tid.newWithTime state.last timestampMicros random =
      some (tid, last) → ∀ entry ∈ state.store.oplog, entry.rev < tid.encode
  | .issue _ _ => True
  | .restart => True

/-- A step either leaves the store alone or stores an accepted commit. -/
theorem step_cases (backend : Backend) (state : State) (input : Input) :
  (step blake3 backend state input).store = state.store ∨
    ∃ ops timestampMicros random now last' commit next,
      input = .commit ops timestampMicros random now true ∧
      formatCommit blake3 state.store state.last timestampMicros random now ops =
        (last', .ok commit) ∧
      applyCommit backend commit state.store = .ok next ∧
      (step blake3 backend state input).store = next
  := by
  cases input with
  | restart => exact Or.inl rfl
  | issue timestampMicros random =>
    rw [step]
    cases Tid.newWithTime state.last timestampMicros random with
    | none => exact Or.inl rfl
    | some issued => exact Or.inl rfl
  | commit ops timestampMicros random now stores =>
    rw [step]
    generalize hformat : formatCommit blake3 state.store state.last timestampMicros random now ops
      = formatted
    obtain ⟨last', error | commit⟩ := formatted
    · exact Or.inl rfl
    · cases stores with
      | false => exact Or.inl rfl
      | true =>
        dsimp only
        rw [if_pos rfl]
        cases happly : applyCommit backend commit state.store with
        | error error => exact Or.inl rfl
        | ok next =>
          exact Or.inr ⟨ops, timestampMicros, random, now, last', commit, next, rfl, hformat,
            happly, rfl⟩

theorem committed_step (backend : Backend) {state : State} (h : Committed blake3 state.store)
    (input : Input) :
  Committed blake3 (step blake3 backend state input).store
  := by
  obtain hsame | ⟨ops, timestampMicros, random, now, last', commit, next, -, hformat, happly, hnext⟩
    := @step_cases blake3 backend state input
  · rw [hsame]
    exact h
  · obtain ⟨tid, changes, entries, result, after, -, hall, rfl⟩ := h.formats hformat
    rw [hnext]
    exact (hall.committed happly).1

theorem logged_step (backend : Backend) {state : State} (hc : Committed blake3 state.store)
    (h : Logged state.store) (input : Input) (hcareful : Careful state input) :
  Logged (step blake3 backend state input).store
  := by
  obtain hsame | ⟨ops, timestampMicros, random, now, last', commit, next, rfl, hformat, happly,
    hnext⟩ := @step_cases blake3 backend state input
  · rw [hsame]
    exact h
  · obtain ⟨tid, changes, entries, result, after, htid, hall, rfl⟩ := hc.formats hformat
    obtain ⟨-, hrecords, hwrite⟩ := hall.committed happly
    rw [hnext]
    exact h.commit hall hcareful.1 (hcareful.2 tid last' htid) hrecords hwrite

theorem committed_empty :
  Committed blake3 SpaceStore.empty
  := ⟨Sorted.nil, nofun, rfl⟩

theorem logged_empty :
  Logged SpaceStore.empty
  := ⟨List.Pairwise.nil, nofun, rfl, fun _ => rfl⟩

end Atproto.Space
