import Atproto.Pds.RecordIndex
import Atproto.Repo.Canonicity

/-!
# The index and the tree

A batch changes the tree and the index together.  As long as each new commit is the latest one,
and the removals of a batch are those that its last operations ask for, the index has exactly the
entries of the tree that the latest commit signs.
-/

namespace Atproto.Pds

open Atproto.Dasl Atproto.Lexicon Atproto.Record Atproto.Repo Logic Logic.Machine SearchTree

variable {ctx : Context} {account : Account}

/-! ### Operations that were checked -/

/-- The record of an operation. -/
def WriteOp.record (op : WriteOp) : Text × Text := (op.collection, op.rkey)

/-- The names of the operation are valid. -/
def WriteOp.Named (op : WriteOp) : Prop :=
  PlainRecord op.record ∧ op.mstKey.bytes.length < 2 ^ 32

theorem checkCollection_eq_ok {collection : Text} (h : checkCollection collection = .ok ()) :
  Plain collection.bytes ∧ collection.bytes.length ≤ maxNsidLength
  := plain_of_validateNsid (mapError_eq_ok.mp h)

theorem checkRkey_eq_ok {rkey : Text} (h : checkRkey rkey = .ok ()) :
  Plain rkey.bytes ∧ rkey.bytes.length ≤ 512
  := by
  obtain ⟨hplain, hlength, -⟩ := plain_of_validateRecordKey (mapError_eq_ok.mp h)
  exact ⟨hplain, hlength⟩

theorem prepareOp_eq_ok {op op' : WriteOp} (h : prepareOp op = .ok op') :
  op'.record = op.record ∧ op'.action = op.action ∧ op'.Named
  := by
  obtain ⟨⟨⟩, hcollection, h⟩ := bind_eq_ok.mp h
  obtain ⟨⟨⟩, hrkey, h⟩ := bind_eq_ok.mp h
  obtain ⟨hplain, hlength⟩ := checkCollection_eq_ok hcollection
  obtain ⟨hplain', hlength'⟩ := checkRkey_eq_ok hrkey
  have hkey : (mstKey op.collection op.rkey).bytes.length < 2 ^ 32 := by
    rw [bytes_mstKey, List.length_append, List.length_cons]
    rw [maxNsidLength] at hlength
    omega
  have hnamed : op.Named := ⟨⟨hplain, hplain'⟩, hkey⟩
  cases hvalue : op.value with
  | none =>
    rw [hvalue] at h
    cases h
    exact ⟨rfl, rfl, hnamed⟩
  | some value =>
    rw [hvalue] at h
    obtain ⟨value', -, h⟩ := bind_eq_ok.mp h
    cases h
    exact ⟨rfl, rfl, hnamed⟩

/-- The records and actions of operations. -/
def WriteOp.target (op : WriteOp) : (Text × Text) × WriteAction := (op.record, op.action)

theorem prepareOps_eq_ok {ops ops' : List WriteOp} (h : prepareOps ops = .ok ops') :
  ops'.map WriteOp.target = ops.map WriteOp.target ∧ ∀ op ∈ ops', op.Named
  := by
  induction ops generalizing ops' with
  | nil =>
    cases h
    exact ⟨rfl, nofun⟩
  | cons op ops ih =>
    obtain ⟨op', hop, h⟩ := bind_eq_ok.mp h
    obtain ⟨rest, hrest, h⟩ := bind_eq_ok.mp h
    cases h
    obtain ⟨hrecord, haction, hnamed⟩ := prepareOp_eq_ok hop
    obtain ⟨hmap, hall⟩ := ih hrest
    refine ⟨?_, List.forall_mem_cons.mpr ⟨hnamed, hall⟩⟩
    rw [List.map_cons, List.map_cons, hmap, WriteOp.target, hrecord, haction]
    rfl

/-- The last operation on each deleted record is a deletion just when the index drops the
record. -/
def Settles (drops : Text × Text → Prop) (ops : List WriteOp) : Prop :=
  ∀ record, (record, WriteAction.delete) ∈ ops.map WriteOp.target →
    (lastUpdate (ops.map WriteOp.target) record = some .delete ↔ drops record)

/-- The changes remove what the operations delete. -/
theorem map_target {U : Key × Cid → Prop} {ops : List WriteOp} {draft draft' : Draft ctx}
    {xs : List (Key × Cid)} {changes : List Change}
    (h : AppliedAll U ops draft xs changes draft') :
  (changes.map Change.update).map (fun update => (update.1, update.2.isNone)) =
    (ops.map WriteOp.target).map fun target => (target.1, decide (target.2 = .delete))
  := by
  have hzip : ∀ {α : Type} (xs : List α) (f : α → Text × Text) (g : α → Bool),
      xs.map (fun x => (f x, g x)) = (xs.map f).zip (xs.map g) := by
    intro α xs f g
    rw [List.zip_map']
  rw [List.map_map, List.map_map]
  have hchanges := hzip changes Change.record fun change => change.cid.isNone
  have hops := hzip ops WriteOp.record fun op => decide (op.action = .delete)
  have hrecords : changes.map Change.record = ops.map WriteOp.record := h.records
  rw [hrecords, h.actions, ← hops] at hchanges
  exact hchanges

theorem Settles.updates {U : Key × Cid → Prop} {ops : List WriteOp} {draft draft' : Draft ctx}
    {xs : List (Key × Cid)} {changes : List Change} {drops : Text × Text → Bool}
    (h : Settles (fun record => drops record = true) ops)
    (happlied : AppliedAll U ops draft xs changes draft') :
  ∀ record, (record, none) ∈ changes.map Change.update →
    (lastUpdate (changes.map Change.update) record = some none ↔ drops record)
  := by
  intro record hmem
  have hmap := map_target happlied
  have hdelete : (record, WriteAction.delete) ∈ ops.map WriteOp.target := by
    have hpair : (record, true) ∈ (ops.map WriteOp.target).map fun target =>
        (target.1, decide (target.2 = .delete)) := by
      rw [← hmap]
      exact List.mem_map.mpr ⟨(record, none), hmem, rfl⟩
    obtain ⟨⟨record', action⟩, htarget, heq⟩ := List.mem_map.mp hpair
    obtain ⟨rfl, haction⟩ := Prod.ext_iff.mp heq
    rw [← of_decide_eq_true haction]
    exact htarget
  have hlast : (lastUpdate (changes.map Change.update) record).map Option.isNone =
      (lastUpdate (ops.map WriteOp.target) record).map fun action => decide (action = .delete) := by
    rw [← lastUpdate_mapValue, ← lastUpdate_mapValue, hmap]
  apply Iff.trans _ (h record hdelete)
  constructor
  · intro hnone
    rw [hnone] at hlast
    obtain ⟨action, haction, hdec⟩ := Option.map_eq_some_iff.mp hlast.symm
    rw [haction, of_decide_eq_true hdec]
  · intro hdel
    rw [hdel] at hlast
    obtain ⟨cid, hcid, hisNone⟩ := Option.map_eq_some_iff.mp hlast
    rw [hcid, Option.isNone_iff_eq_none.mp hisNone]

/-! ### The map of the records and the list of the tree -/

/-- The map has the values of the list, each under the record that its key names. -/
structure Names (map : Text × Text → Option Cid) (xs : List (Key × Cid)) : Prop where
  plain : ∀ record, map record ≠ none → PlainRecord record
  values : ∀ record, PlainRecord record → map record = lookup (mstKey record.1 record.2) xs
  keys : ∀ key, lookup key xs ≠ none → ∃ record, PlainRecord record ∧ key = mstKey record.1 record.2

theorem names_nil :
  Names (fun _ => none) []
  := ⟨fun _ hne => absurd rfl hne, fun _ _ => rfl, fun _ hne => absurd rfl hne⟩

section Edit

variable {map : Text × Text → Option Cid} {xs : List (Key × Cid)} {changes : List Change}

/-- Looking up a key after some changes. -/
theorem lookup_editChanges (changes : List Change) (xs : List (Key × Cid)) (key : Key) :
  lookup key (editChanges changes xs) =
    (lastUpdate (changes.map fun change => (change.key, change.cid)) key).getD (lookup key xs)
  := by
  have hupdate : (fun (map : Key → Option Cid) (change : Change) => change.operation.update map) =
      fun map change => Function.update map change.key change.cid := by
    funext map change
    rw [Operation.update, change.target_operation, change.value?_operation]
  rw [editChanges, lookup_editAll, List.foldl_map, hupdate,
    ← @updateAll_apply _ _ _ _ (fun key => lookup key xs), updateAll, List.foldl_map]

theorem Names.edit (h : Names map xs) (hchanges : ∀ change ∈ changes, PlainRecord change.record) :
  Names (updateAll (changes.map Change.update) map) (editChanges changes xs)
  := by
  constructor
  · intro record hne
    rw [updateAll_apply] at hne
    cases hlast : lastUpdate (changes.map Change.update) record with
    | none =>
      rw [hlast] at hne
      exact h.plain record hne
    | some cid =>
      obtain ⟨change, hchange, heq⟩ := List.mem_map.mp (mem_of_lastUpdate hlast)
      obtain ⟨rfl, -⟩ := Prod.ext_iff.mp heq
      exact hchanges change hchange
  · intro record hrecord
    have hkeys : (changes.map fun change => (change.key, change.cid)) =
        (changes.map Change.update).map fun update => (mstKey update.1.1 update.1.2, update.2) := by
      rw [List.map_map]
      rfl
    have hlast : lastUpdate (changes.map fun change => (change.key, change.cid))
        (mstKey record.1 record.2) = lastUpdate (changes.map Change.update) record := by
      rw [hkeys]
      apply @lastUpdate_mapKey _ _ _ _ _ _ _ fun record : Text × Text => mstKey record.1 record.2
      intro update hupdate heq
      obtain ⟨change, hchange, rfl⟩ := List.mem_map.mp hupdate
      exact mstKey_inj (hchanges change hchange).1.1 hrecord.1.1 heq
    rw [updateAll_apply, lookup_editChanges, hlast, h.values record hrecord]
  · intro key hne
    rw [lookup_editChanges] at hne
    cases hlast : lastUpdate (changes.map fun change => (change.key, change.cid)) key with
    | none =>
      rw [hlast] at hne
      exact h.keys key hne
    | some cid =>
      obtain ⟨change, hchange, heq⟩ := List.mem_map.mp (mem_of_lastUpdate hlast)
      obtain ⟨rfl, -⟩ := Prod.ext_iff.mp heq
      exact ⟨change.record, hchanges change hchange, rfl⟩

/-- The records of accepted operations have valid names. -/
theorem AppliedAll.plain {U : Key × Cid → Prop} {ops : List WriteOp} {draft draft' : Draft ctx}
    (h : AppliedAll U ops draft xs changes draft') (hops : ∀ op ∈ ops, op.Named) :
  ∀ change ∈ changes, PlainRecord change.record
  := by
  intro change hchange
  have hmem : change.record ∈ changes.map Change.record := List.mem_map.mpr ⟨change, hchange, rfl⟩
  rw [h.records] at hmem
  obtain ⟨op, hop, heq⟩ := List.mem_map.mp hmem
  rw [← heq]
  exact (hops op hop).1

end Edit

/-! ### The latest commit -/

/-- All revisions that are stored are below the revision. -/
def CommitObjStorage.Below (rev : Text) : CommitObjStorage → Prop
  | .sql commitObj => ∀ row ∈ commitObj, row.rev < rev
  | .fjall _ commitByRev => ∀ entry ∈ commitByRev, entry.1 < rev

instance (rev : Text) : ∀ commits : CommitObjStorage, Decidable (commits.Below rev)
  | .sql commitObj => inferInstanceAs (Decidable (∀ row ∈ commitObj, row.rev < rev))
  | .fjall _ commitByRev => inferInstanceAs (Decidable (∀ entry ∈ commitByRev, entry.1 < rev))

theorem latestRow_concat (commitObj : List CommitRow) (row : CommitRow) :
  CommitObjStorage.latestRow (commitObj ++ [row]) =
    match CommitObjStorage.latestRow commitObj with
    | none => some row
    | some other => if other.rev ≤ row.rev then some row else some other
  := by
  rw [CommitObjStorage.latestRow, List.foldl_append]
  rfl

theorem mem_of_latestRow {commitObj : List CommitRow} {row : CommitRow}
    (h : CommitObjStorage.latestRow commitObj = some row) :
  row ∈ commitObj
  := by
  induction commitObj using List.reverseRecOn with
  | nil => cases h
  | append_singleton commitObj last ih =>
    rw [latestRow_concat] at h
    cases hrow : CommitObjStorage.latestRow commitObj with
    | none =>
      rw [hrow] at h
      cases h
      exact List.mem_append_right _ List.mem_cons_self
    | some other =>
      rw [hrow] at h
      dsimp only at h
      split at h
      · cases h
        exact List.mem_append_right _ List.mem_cons_self
      · cases h
        exact List.mem_append_left _ (ih hrow)

/-- A commit above the others is the latest one. -/
theorem CommitObjStorage.latest_insert {commits commits' : CommitObjStorage} {row : CommitRow}
    (hbelow : commits.Below row.rev) (h : commits.insert row = .ok commits') :
  commits'.latest = some row
  := by
  cases commits with
  | sql commitObj =>
    rw [CommitObjStorage.insert] at h
    split at h
    · cases h
    · cases h
      rw [latest, latestRow_concat]
      cases hrow : CommitObjStorage.latestRow commitObj with
      | none => rfl
      | some other => exact if_pos (hbelow other (mem_of_latestRow hrow)).le
  | fjall commitObj commitByRev =>
    cases h
    rw [latest, SearchTree.insert, below_eq_self hbelow,
      above_eq_nil fun entry hentry => (hbelow entry hentry).le, List.getLast?_concat]
    exact Function.update_self _ _ _

/-! ### The root of the tree -/

/-- The root that is committed stands for the list of the tree. -/
theorem newRoot_stands (hctx : ctx.Sound) {U : Key × Cid → Prop} {draft draft' : Draft ctx}
    {xs : List (Key × Cid)} {root : Cid} (h : draft.mst.Stands U xs)
    (hroot : newRoot draft = (.ok root, draft')) :
  (Mst.fromRoot root draft'.mst.storage).Stands U xs ∧
    draft.mst.storage ≤ draft'.mst.storage ∧ draft'.recordRows = draft.recordRows ∧
    draft'.deleteRkeys = draft.deleteRkeys
  := by
  rw [newRoot] at hroot
  cases hmst : draft.mst.root with
  | some cid =>
    rw [hmst] at hroot
    cases hroot
    have hsame : Mst.fromRoot root draft.mst.storage = draft.mst := by
      rw [Mst.fromRoot, ← hmst]
    rw [hsame]
    exact ⟨h, le_refl _, rfl, rfl⟩
  | none =>
    rw [hmst] at hroot
    cases hbytes : ctx.codec.toBytes MstNode.empty with
    | error error =>
      rw [hbytes] at hroot
      cases hroot
    | ok bytes =>
      rw [hbytes] at hroot
      cases hroot
      have hcid : nodeCid ctx [] = computeCid ctx.sha256 bytes := nodeCid_eq rfl hbytes
      have hnil : xs = [] := by
        obtain hrepr | ⟨hnil, -⟩ := h
        · by_contra hne
          have hsome := hrepr.root
          rw [hmst, rootCid?, canonicalCid?_of_ne_nil hne] at hsome
          cases hsome
        · exact hnil
      refine ⟨Or.inr ⟨hnil, ?_, ?_⟩, BlockStore.le_put hctx.hash bytes _, rfl, rfl⟩
      · rw [hcid]
        rfl
      · refine ⟨MstNode.empty, bytes, rfl, hbytes, ?_⟩
        rw [hcid]
        exact Function.update_self _ _ _

/-! ### A write -/

/-- The list of the latest tree and the map of the index are the same. -/
structure InStep (account : Account) (storage : Storage ctx) (map : Text × Text → Option Cid)
    (xs : List (Key × Cid)) : Prop where
  stands : (openDraft storage.commits.latest storage.blocks).mst.Stands ShortPair xs
  index : IndexOf account.did map storage.records
  names : Names map xs

/-- More blocks do not change what the latest tree stands for. -/
theorem InStep.grow {storage : Storage ctx} {map : Text × Text → Option Cid}
    {xs : List (Key × Cid)} (h : InStep account storage map xs) {blocks : BlockStore ctx.sha256}
    (hle : storage.blocks ≤ blocks) :
  InStep account { storage with blocks := blocks } map xs
  := by
  refine ⟨?_, h.index, h.names⟩
  have hstands := h.stands
  dsimp only
  cases hlatest : storage.commits.latest with
  | none =>
    rw [hlatest] at hstands
    exact hstands.grow hle
  | some row =>
    rw [hlatest] at hstands
    exact hstands.grow hle

/-- A draft that is stored. -/
theorem storeDraft_eq_ok {env : Environment} {prior : Option CommitRow} {draft : Draft ctx}
    {root : Cid} {rev : Text} {storage storage' : Storage ctx} {batch : CommitBatch}
    (h : storeDraft account env prior draft root rev storage = .ok (batch, storage')) :
  ∃ signed bytes commits, batch = commitBatch account prior draft root rev signed bytes ∧
    storage.commits.insert batch.commit = .ok commits ∧
    storage' = ⟨storage.blocks.put bytes, commits,
      storage.records.applyBatch batch.recordUpserts batch.recordDeletes⟩
  := by
  obtain ⟨⟨signed, bytes⟩, -, h⟩ := bind_eq_ok.mp h
  dsimp only at h
  split at h
  · cases h
  split at h
  · cases h
  obtain ⟨storage'', hstore, heq⟩ := bind_eq_ok.mp h
  cases heq
  obtain ⟨commits, hinsert, heq⟩ := bind_eq_ok.mp hstore
  cases heq
  exact ⟨signed, bytes, commits, rfl, hinsert, rfl⟩

/-- A write either fails and leaves some blocks behind, or it stores its draft. -/
theorem writeOver_cases (account : Account) (env : Environment) (prior : Option CommitRow)
    (ops : List WriteOp) (last : Tid.LastTid) (storage : Storage ctx) :
  let drafted := draftRoot account ops (openDraft prior storage.blocks)
  let storage' : Storage ctx := { storage with blocks := drafted.2.mst.storage }
  (∃ last' error,
    writeOver account env prior ops last storage = (last', .error error, storage')) ∨
  ∃ root tid last' batch stored, drafted.1 = .ok root ∧
    Tid.newWithTime last env.timestampMicros env.random = some (tid, last') ∧
    storeDraft account env prior drafted.2 root (revOf tid) storage' = .ok (batch, stored) ∧
    writeOver account env prior ops last storage = (last', .ok batch, stored)
  := by
  rw [writeOver]
  cases draftRoot account ops (openDraft prior storage.blocks) with
  | mk result draft =>
    cases result with
    | error error => exact Or.inl ⟨last, error, rfl⟩
    | ok root =>
      dsimp only
      cases htid : Tid.newWithTime last env.timestampMicros env.random with
      | none => exact Or.inl ⟨last, _, rfl⟩
      | some issued =>
        obtain ⟨tid, last'⟩ := issued
        dsimp only
        cases hstore : storeDraft account env prior draft root (revOf tid)
            { storage with blocks := draft.mst.storage } with
        | error error => exact Or.inl ⟨last', error, rfl⟩
        | ok stored => exact Or.inr ⟨root, tid, last', stored.1, stored.2, rfl, rfl, hstore, rfl⟩

theorem newRoot_grows (hctx : ctx.Sound) (draft : Draft ctx) :
  Action.Grows newRoot draft
  := by
  rw [Action.Grows, newRoot]
  cases draft.mst.root with
  | some root => exact le_refl draft
  | none =>
    dsimp only
    cases ctx.codec.toBytes MstNode.empty with
    | error error => exact le_refl draft
    | ok bytes => exact BlockStore.le_put hctx.hash bytes draft.mst.storage

/-- What a batch that was stored did to the tree and to the index. -/
structure StoredBatch (account : Account) (ops : List WriteOp) (storage : Storage ctx)
    (map : Text × Text → Option Cid) (xs : List (Key × Cid)) (changes : List Change)
    (batch : CommitBatch) (storage' : Storage ctx) : Prop where
  applied : ∃ draft, applyOps account ops (openDraft storage.commits.latest storage.blocks) =
    (.ok (), draft) ∧
    AppliedAll ShortPair ops (openDraft storage.commits.latest storage.blocks) xs changes draft
  records : ∃ rev, storage'.records =
    storage.records.applyBatch (rowsOf account rev changes) (removals (changes.map Change.update))
  inStep : InStep account storage' (updateAll (changes.map Change.update) map)
    (editChanges changes xs)
  latest : storage'.commits.latest = some batch.commit

/-- The index after a batch has been stored is the list of its tree. -/
theorem InStep.stored (hctx : ctx.Sound) {storage : Storage ctx} {map : Text × Text → Option Cid}
    {xs : List (Key × Cid)} (h : InStep account storage map xs) {ops : List WriteOp}
    (hops : ∀ op ∈ ops, op.Named)
    (hsettles : Settles (fun record => dropsOf map storage.records record = true) ops)
    {env : Environment} {root : Cid} {rev : Text} {draft : Draft ctx} {batch : CommitBatch}
    {stored : Storage ctx} (hbelow : storage.commits.Below rev)
    (hdrafted : draftRoot account ops (openDraft storage.commits.latest storage.blocks) =
      (.ok root, draft))
    (hstore : storeDraft account env storage.commits.latest draft root rev
      { storage with blocks := draft.mst.storage } = .ok (batch, stored)) :
  ∃ changes, StoredBatch account ops storage map xs changes batch stored
  := by
  have hU : Short ShortPair := fun _ => id
  have hkeys : ∀ op ∈ ops, ∀ cid, ShortPair (op.mstKey, cid) := fun op hop cid => (hops op hop).2
  obtain ⟨⟨⟩, mid, happly, hnew⟩ := Action.bind_eq_ok.mp hdrafted
  obtain ⟨changes, happlied⟩ := applyOps_applied hctx hU hkeys h.stands happly
  obtain ⟨hstands, -, hrows, hdeletes⟩ := newRoot_stands hctx happlied.stands hnew
  obtain ⟨signed, bytes, commits, rfl, hinsert, rfl⟩ := storeDraft_eq_ok hstore
  have hlatest := CommitObjStorage.latest_insert hbelow hinsert
  have hplain := happlied.plain hops
  have hrecords : storage.records.applyBatch (draft.recordRows.map (indexRow account rev))
      draft.deleteRkeys = storage.records.applyBatch (rowsOf account rev changes)
        (removals (changes.map Change.update)) := by
    rw [hrows, hdeletes, happlied.rows, happlied.deletes, ← filterMap_delete?]
    rfl
  refine ⟨changes, ⟨mid, happly, happlied⟩, ⟨rev, hrecords⟩, ⟨?_, ?_, h.names.edit hplain⟩, hlatest⟩
  · dsimp only
    rw [hlatest]
    exact hstands.grow (BlockStore.le_put hctx.hash bytes _)
  · have hindex := @h.index.applyBatch _ _ _ rev changes hplain
    rw [updateTwice_eq (hsettles.updates happlied)] at hindex
    dsimp only [commitBatch]
    rw [hrows, hdeletes, happlied.rows, happlied.deletes]
    exact hindex

/-- A write stores its batch, or it fails and leaves the index and the tree as they were. -/
theorem InStep.write (hctx : ctx.Sound) {storage : Storage ctx} {map : Text × Text → Option Cid}
    {xs : List (Key × Cid)} (h : InStep account storage map xs) {ops : List WriteOp}
    (hops : ∀ op ∈ ops, op.Named)
    (hsettles : Settles (fun record => dropsOf map storage.records record = true) ops)
    {env : Environment} {last last' : Tid.LastTid} {result : Except PdsError CommitBatch}
    {storage' : Storage ctx}
    (hbelow : ∀ tid last', Tid.newWithTime last env.timestampMicros env.random = some (tid, last') →
      storage.commits.Below (revOf tid))
    (hwrite : writeOver account env storage.commits.latest ops last storage =
      (last', result, storage')) :
  (result.toOption = none ∧ storage'.records = storage.records ∧
    InStep account storage' map xs) ∨
  ∃ batch changes, result = .ok batch ∧ StoredBatch account ops storage map xs changes batch storage'
  := by
  have hU : Short ShortPair := fun _ => id
  have hkeys : ∀ op ∈ ops, ∀ cid, ShortPair (op.mstKey, cid) := fun op hop cid => (hops op hop).2
  obtain ⟨last'', error, hfail⟩ | ⟨root, tid, last'', batch, stored, hroot, htid, hstore, hok⟩ :=
    writeOver_cases account env storage.commits.latest ops last storage
  · rw [hfail] at hwrite
    cases hwrite
    have hgrows : Action.Grows (draftRoot account ops)
        (openDraft storage.commits.latest storage.blocks) := by
      apply Action.Grows.bind (applyOps_grows hctx hU hkeys h.stands)
      exact fun _ draft _ => newRoot_grows hctx draft
    have hle : storage.blocks ≤ (openDraft storage.commits.latest storage.blocks).mst.storage := by
      cases storage.commits.latest with
      | none => exact le_refl _
      | some row => exact le_refl _
    exact Or.inl ⟨rfl, rfl, h.grow (hle.trans hgrows)⟩
  · rw [hok] at hwrite
    cases hwrite
    cases hdrafted : draftRoot account ops (openDraft storage.commits.latest storage.blocks) with
    | mk result draft =>
      rw [hdrafted] at hroot hstore
      cases hroot
      obtain ⟨changes, hchanges⟩ := h.stored hctx hops hsettles (hbelow tid _ htid) hdrafted hstore
      exact Or.inr ⟨batch, changes, rfl, hchanges⟩

/-! ### Runs -/

/-- The TID cell of the process and what is stored. -/
structure State (ctx : Context) where
  last : Tid.LastTid
  storage : Storage ctx

/-- Nothing has been written. -/
def State.start (backend : Backend) : State ctx := ⟨none, .empty ctx backend⟩

/-- What happens to a repository: a batch is written, a TID is issued to somebody else, or the
process starts again. -/
inductive Input where
  | write (ops : List WriteOp) (swapCommit : Option Text) (env : Environment)
  | issue (timestampMicros random : Nat)
  | restart

/-- The state after an input, and the batch that was stored. -/
def stepOut (account : Account) (state : State ctx) :
    Input → State ctx × Option CommitBatch
  | .write ops swapCommit env =>
    let (last, result, storage) := commit account env ops swapCommit state.last state.storage
    (⟨last, storage⟩, result.toOption)
  | .issue timestampMicros random =>
    match Tid.newWithTime state.last timestampMicros random with
    | none => (state, none)
    | some (_, last) => ({ state with last := last }, none)
  | .restart => ({ state with last := none }, none)

/-- The state after an input. -/
def step (account : Account) (state : State ctx) (input : Input) : State ctx :=
  (stepOut account state input).1

/-- The removed records that the index drops: in SQL all of them, in fjall those that have a row. -/
def Drops (records : RepoRecordStorage) (record : Text × Text) : Prop :=
  match records with
  | .sql _ => True
  | .fjall _ _ => ∃ cid, records.Row record.1 record.2 cid

/-- The commit of a batch is above all stored ones, and the last operation on each record that it
deletes is a deletion just when the index drops the record. -/
def Orderly (state : State ctx) : Input → Prop
  | .write ops _ env =>
    (∀ tid last, Tid.newWithTime state.last env.timestampMicros env.random = some (tid, last) →
      state.storage.commits.Below (revOf tid)) ∧
    Settles (Drops state.storage.records) ops
  | _ => True

/-- The rows of the index are the entries of a tree, and the key of an entry names the record of
its row. -/
def SameEntries (records : RepoRecordStorage) (pairs : List (Key × Cid)) : Prop :=
  (∀ key cid, (key, cid) ∈ pairs ↔
    ∃ collection rkey, records.Row collection rkey cid ∧ key = mstKey collection rkey) ∧
  ∀ collection rkey cid, records.Row collection rkey cid → slash ∉ collection.bytes

theorem InStep.drops_iff {storage : Storage ctx} {map : Text × Text → Option Cid}
    {xs : List (Key × Cid)} (h : InStep account storage map xs) (record : Text × Text) :
  Drops storage.records record ↔ dropsOf map storage.records record = true
  := by
  have hrow := fun cid => @h.index.row_iff _ _ _ h.names.plain record.1 record.2 cid
  cases hrecords : storage.records with
  | sql table => exact ⟨fun _ => rfl, fun _ => trivial⟩
  | fjall table byCollection =>
    rw [hrecords] at hrow
    exact (exists_congr hrow).trans Option.isSome_iff_exists.symm

/-- A batch is stored, or it fails and leaves the index and the tree as they were. -/
theorem InStep.commit (hctx : ctx.Sound) {state : State ctx} {map : Text × Text → Option Cid}
    {xs : List (Key × Cid)} (h : InStep account state.storage map xs) {ops : List WriteOp}
    {swapCommit : Option Text} {env : Environment}
    (hinput : Orderly state (.write ops swapCommit env)) :
  let out := stepOut account state (.write ops swapCommit env)
  (out.2 = none ∧ out.1.storage.records = state.storage.records ∧
    InStep account out.1.storage map xs) ∨
  ∃ prepared batch changes, out.2 = some batch ∧ prepareOps ops = .ok prepared ∧
    StoredBatch account prepared state.storage map xs changes batch out.1.storage
  := by
  obtain ⟨hbelow, hsettles⟩ := hinput
  intro out
  cases hprepare : prepareOps ops with
  | error error =>
    have hout : out = (state, none) := by
      change stepOut account state _ = _
      rw [stepOut, Pds.commit, hprepare]
      rfl
    rw [hout]
    exact Or.inl ⟨rfl, rfl, h⟩
  | ok prepared =>
    cases hswap : checkSwap account swapCommit (state.storage.commits.latest.map CommitRow.cid) with
    | error error =>
      have hout : out = (state, none) := by
        change stepOut account state _ = _
        rw [stepOut, Pds.commit, hprepare]
        dsimp only
        rw [hswap]
        rfl
      rw [hout]
      exact Or.inl ⟨rfl, rfl, h⟩
    | ok _ =>
      obtain ⟨htargets, hnamed⟩ := prepareOps_eq_ok hprepare
      have hsettles' : Settles (fun record => dropsOf map state.storage.records record = true)
          prepared := by
        intro record hmem
        rw [htargets] at hmem ⊢
        exact (hsettles record hmem).trans (h.drops_iff record)
      cases hwrite : writeOver account env state.storage.commits.latest prepared state.last
          state.storage with
      | mk last' rest =>
        obtain ⟨result, storage'⟩ := rest
        have hout : out = (⟨last', storage'⟩, result.toOption) := by
          change stepOut account state _ = _
          rw [stepOut, Pds.commit, hprepare]
          dsimp only
          rw [hswap]
          dsimp only
          rw [hwrite]
        rw [hout]
        obtain ⟨hnone, hrecords, h'⟩ | ⟨batch, changes, rfl, hstored⟩ :=
          h.write hctx hnamed hsettles' hbelow hwrite
        · exact Or.inl ⟨hnone, hrecords, h'⟩
        · exact Or.inr ⟨prepared, batch, changes, rfl, rfl, hstored⟩

/-- A step keeps the index and the tree together. -/
theorem inStep_step (hctx : ctx.Sound) {state : State ctx}
    (h : ∃ map xs, InStep account state.storage map xs) {input : Input} (hinput : Orderly state input) :
  (∃ map xs, InStep account (step account state input).storage map xs) ∧
    ∀ batch, (stepOut account state input).2 = some batch →
      (step account state input).storage.commits.latest = some batch.commit
  := by
  obtain ⟨map, xs, h⟩ := h
  cases input with
  | restart => exact ⟨⟨map, xs, h⟩, nofun⟩
  | issue timestampMicros random =>
    rw [step, stepOut]
    cases Tid.newWithTime state.last timestampMicros random with
    | none => exact ⟨⟨map, xs, h⟩, nofun⟩
    | some issued => exact ⟨⟨map, xs, h⟩, nofun⟩
  | write ops swapCommit env =>
    obtain ⟨hnone, -, h'⟩ | ⟨prepared, batch, changes, hsome, -, hstored⟩ := h.commit hctx hinput
    · refine ⟨⟨map, xs, h'⟩, ?_⟩
      intro batch hbatch
      rw [hnone] at hbatch
      cases hbatch
    · refine ⟨⟨_, _, hstored.inStep⟩, ?_⟩
      intro batch' hbatch
      rw [hsome] at hbatch
      cases hbatch
      exact hstored.latest

/-- The list of the latest tree has the rows of the index. -/
theorem InStep.mem_iff {storage : Storage ctx} {map : Text × Text → Option Cid}
    {xs : List (Key × Cid)} (h : InStep account storage map xs) {key : Key} {cid : Cid} :
  (key, cid) ∈ xs ↔
    ∃ collection rkey, storage.records.Row collection rkey cid ∧ key = mstKey collection rkey
  := by
  constructor
  · intro hmem
    have hfound := h.stands.sorted.lookup_of_mem hmem
    obtain ⟨record, hplain, rfl⟩ := h.names.keys key (by rw [hfound]; exact Option.some_ne_none cid)
    refine ⟨record.1, record.2, ?_, rfl⟩
    rw [h.index.row_iff h.names.plain, h.names.values _ hplain]
    exact hfound
  · rintro ⟨collection, rkey, hrow, rfl⟩
    rw [h.index.row_iff h.names.plain] at hrow
    have hplain := h.names.plain (collection, rkey) (by rw [hrow]; exact Option.some_ne_none cid)
    rw [h.names.values _ hplain] at hrow
    exact mem_of_lookup hrow

theorem InStep.sameEntries {storage : Storage ctx} {map : Text × Text → Option Cid}
    {xs : List (Key × Cid)} (h : InStep account storage map xs) :
  SameEntries storage.records xs
  := by
  refine ⟨fun key cid => h.mem_iff, ?_⟩
  intro collection rkey cid hrow
  rw [h.index.row_iff h.names.plain] at hrow
  exact (h.names.plain (collection, rkey) (by rw [hrow]; exact Option.some_ne_none cid)).1.1

variable {sha256 : Bytes → Bytes} {format : CidFormat} {maxDepth : Nat}

/-- The pairs that the rows of an index stand for. -/
def RecordPair (records : RepoRecordStorage) (x : Key × Cid) : Prop :=
  ∃ collection rkey, records.Row collection rkey x.2 ∧ x.1 = mstKey collection rkey

theorem inStep_start (account : Account) (backend : Backend) :
  ∃ map xs, InStep account (State.start backend : State ctx).storage map xs
  := by
  refine ⟨fun _ => none, [], ?_, ?_, names_nil⟩
  · cases backend with
    | sql => exact Mst.stands_new _ _
    | fjall => exact Mst.stands_new _ _
  · cases backend with
    | sql => exact fun _ => rfl
    | fjall => exact ⟨fun _ _ hrow => (by cases hrow), fun _ _ => rfl, fun _ _ => rfl⟩

/-- After each batch of an orderly run the rows of the index are the entries of the tree that the
new commit signs.  The entries can be listed when no key is higher than the limit on the depth
and no node is beyond the limits of the decoder. -/
theorem index_of_run (hhash : Function.Injective sha256) (hformat : format.Lawful)
    {account : Account} {backend : Backend} {inputs : List Input} {input : Input}
    {batch : CommitBatch} {state : State (drisl sha256 format maxDepth)}
    (hstate : run (step account) (State.start backend) inputs = state)
    (halong : Along (step account) Orderly (State.start backend : State (drisl sha256 format maxDepth))
      inputs)
    (hinput : Orderly state input) (hbatch : (stepOut account state input).2 = some batch) :
  let storage := (step account state input).storage
  let mst := Mst.fromRoot batch.commit.dataCid storage.blocks
  (∀ pairs, mst.entries = .ok pairs → SameEntries storage.records pairs) ∧
  ((∀ x, RecordPair storage.records x → keyHeight sha256 x.1 ≤ maxDepth) →
    Decodable (drisl sha256 format maxDepth) format (RecordPair storage.records) →
    ∃ pairs, mst.entries = .ok pairs)
  := by
  have hctx := drisl_sound hhash hformat maxDepth
  have hbefore : ∃ map xs, InStep account state.storage map xs := by
    rw [← hstate]
    exact @invariant_run _ _ (step account) Orderly
      (fun state => ∃ map xs, InStep account state.storage map xs) _ _
      (fun state input h hinput => (inStep_step hctx h hinput).1) halong
      (inStep_start account backend)
  obtain ⟨⟨map, xs, h⟩, hlatest⟩ := inStep_step hctx hbefore hinput
  intro storage mst
  have hstands : mst.Stands ShortPair xs := by
    have hstands := h.stands
    rw [hlatest batch hbatch] at hstands
    exact hstands
  have hU : Short fun x => RecordPair storage.records x ∧ ShortPair x := fun x hx => hx.2
  have hwithin : mst.Stands (fun x => RecordPair storage.records x ∧ ShortPair x) xs :=
    hstands.within fun x hx => ⟨h.mem_iff.mp hx, hstands.mem x hx⟩
  have hspec := hwithin.entries_spec hctx hU
  constructor
  · intro pairs hpairs
    rw [hpairs] at hspec
    rw [hspec]
    exact h.sameEntries
  · intro hheight hdecodable
    cases hentries : mst.entries with
    | ok pairs => exact ⟨pairs, rfl⟩
    | error error =>
      rw [hentries] at hspec
      have htop : topLayer (drisl sha256 format maxDepth) xs ≤ maxDepth :=
        topLayer_le ⟨hwithin.sorted, hwithin.mem⟩ fun x hx => hheight x hx.1
      have hfit : AllFit (drisl sha256 format maxDepth) maxDepth
          fun x => RecordPair storage.records x ∧ ShortPair x := by
        apply Decodable.allFit hformat
        intro L hL ys node hys
        exact hdecodable L hL ys node ⟨hys.sorted, fun x hx => (hys.mem x hx).1⟩
      obtain hlt | hnot := hspec
      · exact absurd htop (Nat.not_le.mpr hlt)
      · exact absurd (hfit.anti htop) hnot

/-! ### Two operations on one record -/

/-- A repository over reversal, whose records are all empty. -/
def sampleAccount : Account where
  did := textOf "did:x:y"
  format := multiformats
  cidText _ := Text.empty
  recordBytes _ := .ok []

/-- A write that meets no failure. -/
def sampleEnvironment (timestampMicros : Nat) : Environment where
  timestampMicros := timestampMicros
  random := 0
  sign _ := .ok []
  announces := true
  stores := true

/-- An operation on the record `com.a.b/k`. -/
def sampleOp (action : WriteAction) : WriteOp where
  action := action
  collection := textOf "com.a.b"
  rkey := textOf "k"
  value := if action = .delete then none else some (.object [])
  swapRecord := none

/-- A batch of operations on one record. -/
def sampleWrite (timestampMicros : Nat) (actions : List WriteAction) : Input :=
  .write (actions.map sampleOp) none (sampleEnvironment timestampMicros)

/-- The state after one record was created. -/
def sampleState (backend : Backend) : State (mirror 1) :=
  run (step sampleAccount) (State.start backend) [sampleWrite 1 [.create]]

theorem below_of_all {issued : Option (Tid × Tid.LastTid)} {commits : CommitObjStorage}
    (h : issued.all (fun issued => decide (commits.Below (revOf issued.1))) = true) :
  ∀ tid last, issued = some (tid, last) → commits.Below (revOf tid)
  := by
  rintro tid last rfl
  exact of_decide_eq_true h

/-- The index is kept in SQL. -/
def RepoRecordStorage.isSql : RepoRecordStorage → Bool
  | .sql _ => true
  | .fjall _ _ => false

/-- Off SQL the records with rows are dropped. -/
theorem drops_of_isSql {records : RepoRecordStorage} (h : records.isSql = false)
    (record : Text × Text) :
  Drops records record ↔ ∃ cid, records.Row record.1 record.2 cid
  := by
  cases records with
  | sql table => cases h
  | fjall table byCollection => exact Iff.rfl

/-- The deletions of a batch are settled one by one. -/
theorem settles_of_forall {drops : Text × Text → Prop} {ops : List WriteOp}
    (h : ∀ op ∈ ops, op.action = .delete →
      (lastUpdate (ops.map WriteOp.target) op.record = some .delete ↔ drops op.record)) :
  Settles drops ops
  := by
  intro record hmem
  obtain ⟨op, hop, heq⟩ := List.mem_map.mp hmem
  obtain ⟨hrecord, haction⟩ := Prod.ext_iff.mp heq
  have hsettled := h op hop haction
  rwa [show op.record = record from hrecord] at hsettled

/-- Without deletions there is nothing to settle. -/
theorem settles_of_not_mem {drops : Text × Text → Prop} {ops : List WriteOp}
    (h : ∀ op ∈ ops, op.action ≠ .delete) :
  Settles drops ops
  := settles_of_forall fun op hop hdelete => absurd hdelete (h op hop)

/-- A record has a row when its key is in the tree. -/
theorem SameEntries.exists_row_iff {records : RepoRecordStorage} {pairs : List (Key × Cid)}
    (h : SameEntries records pairs) {record : Text × Text} (hslash : slash ∉ record.1.bytes) :
  (∃ cid, records.Row record.1 record.2 cid) ↔ mstKey record.1 record.2 ∈ pairs.map Prod.fst
  := by
  constructor
  · rintro ⟨cid, hrow⟩
    exact List.mem_map_of_mem ((h.1 _ cid).mpr ⟨_, _, hrow, rfl⟩)
  · intro hmem
    obtain ⟨pair, hpair, hkey⟩ := List.mem_map.mp hmem
    obtain ⟨collection, rkey, hrow, heq⟩ := (h.1 pair.1 pair.2).mp hpair
    rw [hkey] at heq
    obtain rfl := @mstKey_inj record (collection, rkey) hslash (h.2 _ _ _ hrow) heq
    exact ⟨_, hrow⟩

/-- The keys of the tree after a batch. -/
def keysAfter (out : State (mirror 1) × Option CommitBatch) : Option (List Key) := do
  let batch ← out.2
  let pairs ← (Mst.fromRoot batch.commit.dataCid out.1.storage.blocks).entries.toOption
  some (pairs.map Prod.fst)

theorem exists_entries_of_keysAfter {out : State (mirror 1) × Option CommitBatch} {keys : List Key}
    (h : keysAfter out = some keys) :
  ∃ batch pairs, out.2 = some batch ∧
    (Mst.fromRoot batch.commit.dataCid out.1.storage.blocks).entries = .ok pairs ∧
    pairs.map Prod.fst = keys
  := by
  obtain ⟨batch, hbatch, h⟩ := Option.bind_eq_some_iff.mp h
  obtain ⟨pairs, hpairs, h⟩ := Option.bind_eq_some_iff.mp h
  cases hentries : (Mst.fromRoot batch.commit.dataCid out.1.storage.blocks).entries with
  | error error =>
    rw [hentries] at hpairs
    cases hpairs
  | ok pairs' =>
    rw [hentries] at hpairs
    cases hpairs
    exact ⟨batch, pairs, hbatch, hentries, Option.some.inj h⟩

/-- The record `com.a.b/1`. -/
def otherOp (action : WriteAction) : WriteOp := { sampleOp action with rkey := textOf "1" }

/-- Operations on two records, the first of which is there before them.  It is deleted at the end,
and in fjall the other one is deleted in between. -/
def severalOps : Backend → List WriteOp
  | .sql => [sampleOp .update, otherOp .create, sampleOp .delete, otherOp .update]
  | .fjall => [sampleOp .update, otherOp .create, otherOp .delete, sampleOp .delete, otherOp .create]

/-- What a batch of the operations leads to. -/
def severalOperations (backend : Backend) : State (mirror 1) × Option CommitBatch :=
  stepOut sampleAccount (sampleState backend) (.write (severalOps backend) none (sampleEnvironment 2))

/-- The index has the entries of a tree, and these have the keys. -/
def InStepWith (keys : List Key) (out : State (mirror 1) × Option CommitBatch) : Prop :=
  ∃ batch pairs, out.2 = some batch ∧
    (Mst.fromRoot batch.commit.dataCid out.1.storage.blocks).entries = .ok pairs ∧
    pairs.map Prod.fst = keys ∧ SameEntries out.1.storage.records pairs

/-- After one record was created the index has the entry of the tree.  After several operations on
it and on another one the index has the one that is left. -/
theorem index_of_run_sample :
  (InStepWith [mstKey (textOf "com.a.b") (textOf "k")]
      (stepOut sampleAccount (State.start .fjall) (sampleWrite 1 [.create])) ∧
    InStepWith [mstKey (textOf "com.a.b") (textOf "1")] (severalOperations .fjall)) ∧
  InStepWith [mstKey (textOf "com.a.b") (textOf "1")] (severalOperations .sql)
  := by
  have hcreate : ∀ backend, Orderly (State.start backend : State (mirror 1))
      (sampleWrite 1 [.create]) := by
    intro backend
    constructor
    · cases backend with
      | sql => exact fun _ _ _ => nofun
      | fjall => exact fun _ _ _ => nofun
    · apply settles_of_not_mem
      decide
  have hinStep : ∀ backend inputs input keys,
      Machine.Along (step sampleAccount) Orderly (State.start backend : State (mirror 1)) inputs →
      Orderly (run (step sampleAccount) (State.start backend) inputs : State (mirror 1)) input →
      keysAfter (stepOut sampleAccount (run (step sampleAccount) (State.start backend) inputs) input) =
        some keys →
      InStepWith keys
        (stepOut sampleAccount (run (step sampleAccount) (State.start backend) inputs) input) := by
    intro backend inputs input keys halong horderly hkeys
    obtain ⟨batch, pairs, hbatch, hpairs, hpairKeys⟩ := exists_entries_of_keysAfter hkeys
    refine ⟨batch, pairs, hbatch, hpairs, hpairKeys, ?_⟩
    exact (index_of_run List.reverse_injective multiformats_lawful rfl halong horderly
      hbatch).1 pairs hpairs
  have hfirst := hinStep .fjall [] (sampleWrite 1 [.create])
    [mstKey (textOf "com.a.b") (textOf "k")] trivial (hcreate .fjall) (by decide +kernel)
  refine ⟨⟨hfirst, ?_⟩, ?_⟩
  · apply hinStep .fjall [sampleWrite 1 [.create]] _ _ ⟨hcreate .fjall, trivial⟩
    · refine ⟨below_of_all (by decide +kernel), settles_of_forall ?_⟩
      obtain ⟨batch, pairs, -, -, hkeys, hsame⟩ := hfirst
      have hrow := fun record hslash => (drops_of_isSql (by decide +kernel) record).trans
        (@SameEntries.exists_row_iff _ _ hsame record hslash)
      rw [hkeys] at hrow
      have hrecords : ∀ op ∈ severalOps .fjall, op.action = .delete →
          op.record = (textOf "com.a.b", textOf "k") ∨ op.record = (textOf "com.a.b", textOf "1") := by
        decide
      intro op hop hdelete
      rcases hrecords op hop hdelete with heq | heq
      · rw [heq]
        apply iff_of_true (by decide)
        exact (hrow (textOf "com.a.b", textOf "k") (by decide)).mpr (List.mem_singleton_self _)
      · rw [heq]
        apply iff_of_false (by decide)
        intro hdrops
        exact absurd ((hrow (textOf "com.a.b", textOf "1") (by decide)).mp hdrops) (by decide)
    · decide +kernel
  · apply hinStep .sql [sampleWrite 1 [.create]] _ _ ⟨hcreate .sql, trivial⟩
    · refine ⟨below_of_all (by decide +kernel), settles_of_forall ?_⟩
      have hrecords : ∀ op ∈ severalOps .sql, op.action = .delete →
          op.record = (textOf "com.a.b", textOf "k") := by decide
      intro op hop hdelete
      rw [hrecords op hop hdelete]
      exact iff_of_true (by decide) trivial
    · decide +kernel

/-- The CID under the keys of a record. -/
def RepoRecordStorage.find (did : Text) (record : Text × Text) : RepoRecordStorage → Option Cid
  | .sql repoRecord => (repoRecord record).map RecordRow.cid
  | .fjall repoRecord _ => do
    let row ← repoRecord (uriOf did record)
    if (row.collection, row.rkey) = record then some row.cid else none

/-- In SQL there is a CID under the keys of each row. -/
theorem RepoRecordStorage.find_of_row {did : Text} {record : Text × Text} {cid : Cid}
    {records : RepoRecordStorage} (hsql : records.isSql = true)
    (h : records.Row record.1 record.2 cid) :
  records.find did record = some cid
  := by
  cases records with
  | sql table => exact Option.map_eq_some_iff.mpr h
  | fjall table byCollection => cases hsql

theorem RepoRecordStorage.row_of_find {did : Text} {record : Text × Text} {cid : Cid}
    {records : RepoRecordStorage} (h : records.find did record = some cid) :
  records.Row record.1 record.2 cid
  := by
  cases records with
  | sql table => exact Option.map_eq_some_iff.mp h
  | fjall table byCollection =>
    obtain ⟨row, hrow, hif⟩ := Option.bind_eq_some_iff.mp h
    split at hif
    · rename_i heq
      cases hif
      obtain ⟨hcollection, hrkey⟩ := Prod.ext_iff.mp heq
      exact ⟨_, row, hrow, hcollection, hrkey, rfl⟩
    · cases hif

/-- What a batch of two operations on one record leads to. -/
def twoOperations : Backend → State (mirror 1) × Option CommitBatch
  | .sql => stepOut sampleAccount (sampleState .sql) (sampleWrite 2 [.delete, .create])
  | .fjall => stepOut sampleAccount (State.start .fjall) (sampleWrite 1 [.create, .delete])

/-- After each batch of the sample repository the rows are the entries of its tree. -/
def AlwaysInStep (backend : Backend) : Prop :=
  ∀ (inputs : List Input) (input : Input) (batch : CommitBatch) (state : State (mirror 1)),
    run (step sampleAccount) (State.start backend) inputs = state →
    (stepOut sampleAccount state input).2 = some batch →
    ∀ pairs, (Mst.fromRoot batch.commit.dataCid
      (step sampleAccount state input).storage.blocks).entries = .ok pairs →
    SameEntries (step sampleAccount state input).storage.records pairs

/-- In SQL a record that is deleted and created again in one batch is missing from the index, and
in fjall one that is created and deleted stays in it. -/
theorem index_of_run_diverges :
  ¬ AlwaysInStep .sql ∧ ¬ AlwaysInStep .fjall
  := by
  let record := (textOf "com.a.b", textOf "k")
  constructor
  · intro hclaim
    obtain ⟨batch, pairs, hbatch, hpairs, hkeys⟩ := exists_entries_of_keysAfter
      (by decide +kernel : keysAfter (twoOperations .sql) = some [mstKey record.1 record.2])
    have hsame : SameEntries (twoOperations .sql).1.storage.records pairs :=
      hclaim _ _ batch _ rfl hbatch pairs hpairs
    obtain ⟨cid, hrow⟩ := (@SameEntries.exists_row_iff _ _ hsame record (by decide)).mpr
      (hkeys ▸ List.mem_singleton_self _)
    have hfind := @RepoRecordStorage.find_of_row Text.empty record _ _
      (by decide +kernel : (twoOperations .sql).1.storage.records.isSql = true) hrow
    have hnone : (twoOperations .sql).1.storage.records.find Text.empty record = none := by
      decide +kernel
    rw [hfind] at hnone
    cases hnone
  · intro hclaim
    obtain ⟨batch, pairs, hbatch, hpairs, hkeys⟩ := exists_entries_of_keysAfter
      (by decide +kernel : keysAfter (twoOperations .fjall) = some [])
    have hsame : SameEntries (twoOperations .fjall).1.storage.records pairs :=
      hclaim [] _ batch _ rfl hbatch pairs hpairs
    obtain ⟨cid, hfind⟩ := Option.isSome_iff_exists.mp (by decide +kernel :
      ((twoOperations .fjall).1.storage.records.find sampleAccount.did record).isSome = true)
    have hmem := (@SameEntries.exists_row_iff _ _ hsame record (by decide)).mp
      ⟨cid, RepoRecordStorage.row_of_find hfind⟩
    rw [hkeys] at hmem
    cases hmem

end Atproto.Pds
