import Atproto.Logic.Machine
import Atproto.Logic.Updates
import Atproto.Pds.Batch

/-!
# The record index

The index stands for a map from records to CIDs.  A commit writes all its rows first and then
removes its deleted records: in SQL all of them, in fjall those that were there before the
commit.  The index has the entries of the tree as long as that is what the last operation on
each deleted record asks for.
-/

namespace Atproto.Pds

open Atproto.Dasl Atproto.Lexicon Atproto.Record Atproto.Repo Logic Logic.Machine SearchTree

/-! ### Names of records -/

/-- Neither name of the record has a slash or a zero byte. -/
def PlainRecord (record : Text × Text) : Prop := Plain record.1.bytes ∧ Plain record.2.bytes

/-- What stands before the first separator and what stands after it. -/
theorem append_separator_inj {sep : UInt8} {a b c d : Bytes} (ha : sep ∉ a) (hc : sep ∉ c)
    (h : a ++ sep :: b = c ++ sep :: d) :
  a = c ∧ b = d
  := by
  induction a generalizing c with
  | nil =>
    cases c with
    | nil => exact ⟨rfl, (List.cons.inj h).2⟩
    | cons x c =>
      obtain ⟨rfl, -⟩ := List.cons.inj h
      exact absurd List.mem_cons_self hc
  | cons x a ih =>
    cases c with
    | nil =>
      obtain ⟨rfl, -⟩ := List.cons.inj h
      exact absurd List.mem_cons_self ha
    | cons y c =>
      obtain ⟨rfl, htail⟩ := List.cons.inj h
      obtain ⟨rfl, hb⟩ := ih (fun hmem => ha (List.mem_cons_of_mem _ hmem))
        (fun hmem => hc (List.mem_cons_of_mem _ hmem)) htail
      exact ⟨rfl, hb⟩

theorem bytes_mstKey (collection rkey : Text) :
  (mstKey collection rkey).bytes = collection.bytes ++ slash :: rkey.bytes
  := by
  rw [mstKey, Text.bytes_append, Text.bytes_append, List.append_assoc]
  rfl

theorem mstKey_inj {a b : Text × Text} (ha : slash ∉ a.1.bytes) (hb : slash ∉ b.1.bytes)
    (h : mstKey a.1 a.2 = mstKey b.1 b.2) :
  a = b
  := by
  have hbytes := congrArg Text.bytes h
  rw [bytes_mstKey, bytes_mstKey] at hbytes
  obtain ⟨hcollection, hrkey⟩ := append_separator_inj ha hb hbytes
  exact Prod.ext (Text.ext hcollection) (Text.ext hrkey)

/-- The URI of a record. -/
def uriOf (did : Text) (record : Text × Text) : Text := recordUri did record.1 record.2

theorem uriOf_inj {did : Text} {a b : Text × Text} (ha : PlainRecord a) (hb : PlainRecord b)
    (h : uriOf did a = uriOf did b) :
  a = b
  := mstKey_inj ha.1.1 hb.1.1 (Text.append_right_injective _ h)

/-- The key of a record in the second keyspace. -/
def indexKey (record : Text × Text) : Bytes := byCollectionKey record.1 record.2

theorem indexKey_inj {a b : Text × Text} (ha : PlainRecord a) (hb : PlainRecord b)
    (h : indexKey a = indexKey b) :
  a = b
  := by
  obtain ⟨hcollection, hrkey⟩ := append_separator_inj ha.1.2 hb.1.2 h
  exact Prod.ext (Text.ext hcollection) (Text.ext hrkey)

/-! ### The map of an index -/

/-- The index has the rows of a map, each under the keys of its record. -/
def IndexOf (did : Text) (map : Text × Text → Option Cid) : RepoRecordStorage → Prop
  | .sql table => ∀ record, (table record).map RecordRow.cid = map record
  | .fjall table byCollection =>
    (∀ uri row, table uri = some row →
      PlainRecord (row.collection, row.rkey) ∧ uri = uriOf did (row.collection, row.rkey)) ∧
    (∀ record, PlainRecord record →
      (table (uriOf did record)).map RecordRow.cid = map record) ∧
    ∀ record, PlainRecord record →
      byCollection (indexKey record) = (map record).map fun _ => uriOf did record

/-- The removed records that are dropped. -/
def dropsOf (map : Text × Text → Option Cid) : RepoRecordStorage → Text × Text → Bool
  | .sql _, _ => true
  | .fjall _ _, record => (map record).isSome

variable {did : Text} {map : Text × Text → Option Cid} {records : RepoRecordStorage}

/-- The rows are those of the map. -/
theorem IndexOf.row_iff (h : IndexOf did map records)
    (hmap : ∀ record, map record ≠ none → PlainRecord record) {collection rkey : Text} {cid : Cid} :
  records.Row collection rkey cid ↔ map (collection, rkey) = some cid
  := by
  cases records with
  | sql table =>
    rw [← h (collection, rkey), Option.map_eq_some_iff]
    exact Iff.rfl
  | fjall table byCollection =>
    obtain ⟨hown, hrows, -⟩ := h
    constructor
    · rintro ⟨uri, row, hrow, rfl, rfl, rfl⟩
      obtain ⟨hplain, rfl⟩ := hown uri row hrow
      rw [← hrows _ hplain, hrow]
      rfl
    · intro hcid
      have hplain : PlainRecord (collection, rkey) := hmap _ (by
        rw [hcid]
        exact Option.some_ne_none cid)
      have hrow := hrows _ hplain
      rw [hcid] at hrow
      obtain ⟨row, hrow, hrowCid⟩ := Option.map_eq_some_iff.mp hrow
      obtain ⟨hplain', huri⟩ := hown _ row hrow
      obtain ⟨rfl, rfl⟩ := Prod.ext_iff.mp (uriOf_inj hplain hplain' huri)
      exact ⟨_, row, hrow, rfl, rfl, hrowCid⟩

/-! ### A batch -/

/-- The update of the map that a change makes. -/
def Change.update (change : Change) : (Text × Text) × Option Cid := (change.record, change.cid)

variable {account : Account} {rev : Text} {changes : List Change}

theorem filterMap_delete? (changes : List Change) :
  changes.filterMap Change.delete? = removals (changes.map Change.update)
  := by
  rw [removals, List.filterMap_map]
  congr 1
  funext change
  rw [Change.delete?, Function.comp_apply, Change.update]
  cases change.cid with
  | none => rfl
  | some cid => rfl

/-- The rows that the changes write. -/
def rowsOf (account : Account) (rev : Text) (changes : List Change) : List RecordRow :=
  (changes.filterMap Change.write?).map (indexRow account rev)

theorem rowsOf_cons (change : Change) :
  rowsOf account rev (change :: changes) =
    (change.write?.map (indexRow account rev)).toList ++ rowsOf account rev changes
  := by
  rw [rowsOf, filterMap_cons_toList, List.map_append]
  cases change.write? with
  | none => rfl
  | some row => rfl

/-- The rows are the updates that give a value. -/
theorem map_rowsOf (changes : List Change) :
  (rowsOf account rev changes).map (fun row => ((row.collection, row.rkey), some row.cid)) =
    writes (changes.map Change.update)
  := by
  induction changes with
  | nil => rfl
  | cons change changes ih =>
    rw [rowsOf_cons, List.map_append, ih, List.map_cons, writes, writes, List.filter_cons,
      Change.write?, Change.update]
    cases change.cid with
    | none => rfl
    | some cid => rfl

/-- Each row is under its own URI, and its record is one of the changed ones. -/
theorem mem_rowsOf {row : RecordRow} (h : row ∈ rowsOf account rev changes) :
  row.uri = uriOf account.did (row.collection, row.rkey) ∧
    ∃ change ∈ changes, change.record = (row.collection, row.rkey)
  := by
  obtain ⟨written, hwritten, rfl⟩ := List.mem_map.mp h
  obtain ⟨change, hchange, hwrite⟩ := List.mem_filterMap.mp hwritten
  obtain ⟨cid, -, rfl⟩ := Option.map_eq_some_iff.mp hwrite
  exact ⟨rfl, change, hchange, rfl⟩

/-- The last row of a record. -/
def lastRow (account : Account) (rev : Text) (changes : List Change) (record : Text × Text) :
    Option RecordRow :=
  lastUpdate ((rowsOf account rev changes).map fun row => ((row.collection, row.rkey), row)) record

theorem plain_of_mem_rowsOf (hchanges : ∀ change ∈ changes, PlainRecord change.record)
    {row : RecordRow} (h : row ∈ rowsOf account rev changes) :
  PlainRecord (row.collection, row.rkey)
  := by
  obtain ⟨-, change, hchange, hrecord⟩ := mem_rowsOf h
  rw [← hrecord]
  exact hchanges change hchange

theorem plain_of_mem_removals (hchanges : ∀ change ∈ changes, PlainRecord change.record)
    {record : Text × Text} (h : record ∈ removals (changes.map Change.update)) :
  PlainRecord record
  := by
  obtain ⟨change, hchange, heq⟩ := List.mem_map.mp (mem_removals.mp h)
  obtain ⟨rfl, -⟩ := Prod.ext_iff.mp heq
  exact hchanges change hchange

/-- The last row is under the URI of its record. -/
theorem uri_of_lastRow {record : Text × Text} {row : RecordRow}
    (h : lastRow account rev changes record = some row) :
  row.uri = uriOf account.did record
  := by
  obtain ⟨row', hrow, heq⟩ := List.mem_map.mp (mem_of_lastUpdate h)
  cases heq
  exact (mem_rowsOf hrow).1

/-- Updates with something of each row, under its record. -/
theorem lastUpdate_rowsOf {β : Type} (value : RecordRow → β) (record : Text × Text) :
  lastUpdate ((rowsOf account rev changes).map fun row => ((row.collection, row.rkey), value row))
      record =
    (lastRow account rev changes record).map value
  := by
  rw [lastRow, ← lastUpdate_mapValue, List.map_map]
  rfl

/-- Updates with something of each row, under keys that do not clash. -/
theorem lastUpdate_keys {κ β : Type} [DecidableEq κ] {key : Text × Text → κ}
    (hkey : ∀ a b, PlainRecord a → PlainRecord b → key a = key b → a = b)
    (hchanges : ∀ change ∈ changes, PlainRecord change.record) (value : RecordRow → β)
    {record : Text × Text} (hrecord : PlainRecord record) :
  lastUpdate ((rowsOf account rev changes).map fun row => (key (row.collection, row.rkey), value row))
      (key record) =
    (lastRow account rev changes record).map value
  := by
  have hmap : ((rowsOf account rev changes).map fun row =>
        (key (row.collection, row.rkey), value row)) =
      ((rowsOf account rev changes).map fun row => ((row.collection, row.rkey), value row)).map
        fun update => (key update.1, update.2) := by
    rw [List.map_map]
    rfl
  rw [hmap, ← lastUpdate_rowsOf]
  apply lastUpdate_mapKey
  intro update hupdate heq
  obtain ⟨row, hrow, rfl⟩ := List.mem_map.mp hupdate
  exact hkey _ _ (plain_of_mem_rowsOf hchanges hrow) hrecord heq

/-- What the updates in two rounds leave at a record. -/
theorem updateTwice_apply (changes : List Change) (drops : Text × Text → Bool)
    (map : Text × Text → Option Cid) (record : Text × Text) :
  updateTwice (changes.map Change.update) drops map record =
    if record ∈ removals (changes.map Change.update) ∧ drops record then none
    else ((lastRow account rev changes record).map fun row => some row.cid).getD (map record)
  := by
  rw [updateTwice, updateAll_apply, ← @map_rowsOf account rev, lastUpdate_rowsOf]
  by_cases h : record ∈ removals (changes.map Change.update) ∧ drops record
  · rw [if_pos h, if_pos h]
  · rw [if_neg h, if_neg h]

/-! #### SQL -/

/-- Writing rows into the SQL table. -/
theorem foldl_sqlRows (rows : List RecordRow) (table : Text × Text → Option RecordRow)
    (record : Text × Text) :
  ((rows.foldl (fun table row =>
      let uri := ((table (row.collection, row.rkey)).map RecordRow.uri).getD row.uri
      Function.update table (row.collection, row.rkey) (some { row with uri := uri })) table)
        record).map RecordRow.cid =
    updateAll (rows.map fun row => ((row.collection, row.rkey), some row.cid))
      (fun record => (table record).map RecordRow.cid) record
  := by
  induction rows generalizing table with
  | nil => rfl
  | cons row rows ih =>
    rw [List.foldl_cons, ih]
    apply congrArg fun map => updateAll (rows.map fun row => ((row.collection, row.rkey),
      some row.cid)) map record
    funext record'
    dsimp only
    rw [Function.update_apply, Function.update_apply]
    split
    · rfl
    · rfl

/-- Removing some keys from a table. -/
theorem foldl_remove {κ β : Type} [DecidableEq κ] (keys : List κ) (table : κ → Option β) (key : κ) :
  (keys.foldl (fun table key => Function.update table key none) table) key =
    if key ∈ keys then none else table key
  := by
  rw [← updateAll_const keys none table key, updateAll, List.foldl_map]

theorem IndexOf.applyBatch_sql {table : Text × Text → Option RecordRow}
    (h : IndexOf account.did map (.sql table)) :
  IndexOf account.did (updateTwice (changes.map Change.update) (dropsOf map (.sql table)) map)
    ((RepoRecordStorage.sql table).applyBatch (rowsOf account rev changes)
      (removals (changes.map Change.update)))
  := by
  intro record
  rw [@updateTwice_apply account rev, foldl_remove]
  by_cases hremoved : record ∈ removals (changes.map Change.update)
  · rw [if_pos hremoved, if_pos ⟨hremoved, rfl⟩]
    rfl
  · rw [if_neg hremoved, if_neg fun hand => hremoved hand.1, foldl_sqlRows, updateAll_apply,
      lastUpdate_rowsOf, h record]

/-! #### fjall -/

/-- The keys under which fjall finds the deleted records that are there. -/
def deletePairs (byCollection : Bytes → Option Text) (deletes : List (Text × Text)) :
    List (Text × Bytes) :=
  deletes.filterMap fun record => (byCollection (indexKey record)).map fun uri =>
    (uri, indexKey record)

/-- A keyspace after a batch. -/
theorem foldl_keyspace {κ β : Type} [DecidableEq κ] (rows : List RecordRow) (key : RecordRow → κ)
    (value : RecordRow → β) (pairs : List (Text × Bytes)) (part : Text × Bytes → κ)
    (table : κ → Option β) (k : κ) [Decidable (k ∈ pairs.map part)] :
  (pairs.foldl (fun table pair => Function.update table (part pair) none)
      (rows.foldl (fun table row => Function.update table (key row) (some (value row))) table)) k =
    if k ∈ pairs.map part then none
    else (lastUpdate (rows.map fun row => (key row, some (value row))) k).getD (table k)
  := by
  have hremove := foldl_remove (pairs.map part) (rows.foldl (fun table row =>
    Function.update table (key row) (some (value row))) table) k
  rw [List.foldl_map] at hremove
  by_cases hk : k ∈ pairs.map part
  · rw [hremove, if_pos hk, if_pos hk]
  · rw [hremove, if_neg hk, if_neg hk, ← updateAll_apply, updateAll, List.foldl_map]

variable {table : Text → Option RecordRow} {byCollection : Bytes → Option Text}
  {deletes : List (Text × Text)}

/-- The keys of a deleted record are dropped when it is in the index. -/
theorem mem_deletePairs {κ : Type} {key : Text × Text → κ} {part : Text × Bytes → κ}
    (h : IndexOf did map (.fjall table byCollection))
    (hpart : ∀ record, part (uriOf did record, indexKey record) = key record)
    (hkey : ∀ a b, PlainRecord a → PlainRecord b → key a = key b → a = b)
    (hdeletes : ∀ record ∈ deletes, PlainRecord record) {record : Text × Text}
    (hrecord : PlainRecord record) :
  key record ∈ (deletePairs byCollection deletes).map part ↔ record ∈ deletes ∧ (map record).isSome
  := by
  obtain ⟨-, -, hfound⟩ := h
  rw [deletePairs, List.map_filterMap, List.mem_filterMap]
  constructor
  · rintro ⟨record', hmem, heq⟩
    rw [hfound _ (hdeletes record' hmem), Option.map_map, Option.map_map] at heq
    obtain ⟨cid, hcid, heq⟩ := Option.map_eq_some_iff.mp heq
    rw [Function.comp_apply, Function.comp_apply, hpart] at heq
    obtain rfl := hkey _ _ (hdeletes record' hmem) hrecord heq
    exact ⟨hmem, Option.isSome_iff_exists.mpr ⟨cid, hcid⟩⟩
  · rintro ⟨hmem, hsome⟩
    obtain ⟨cid, hcid⟩ := Option.isSome_iff_exists.mp hsome
    refine ⟨record, hmem, ?_⟩
    rw [hfound _ hrecord, hcid, ← hpart]
    rfl

/-- The rows of the changes stand under the URIs of their records. -/
theorem map_uri_rowsOf {β : Type} (value : RecordRow → β) :
  ((rowsOf account rev changes).map fun row => (row.uri, value row)) =
    (rowsOf account rev changes).map fun row =>
      (uriOf account.did (row.collection, row.rkey), value row)
  := by
  apply List.map_congr_left
  intro row hrow
  rw [(mem_rowsOf hrow).1]

/-- The keyspaces after a batch. -/
theorem applyBatch_fjall :
  (RepoRecordStorage.fjall table byCollection).applyBatch (rowsOf account rev changes) deletes =
    .fjall
      (fun uri =>
        if uri ∈ (deletePairs byCollection deletes).map Prod.fst then none
        else (lastUpdate ((rowsOf account rev changes).map fun row =>
          (uriOf account.did (row.collection, row.rkey), some row)) uri).getD (table uri))
      (fun key =>
        if key ∈ (deletePairs byCollection deletes).map Prod.snd then none
        else (lastUpdate ((rowsOf account rev changes).map fun row =>
          (indexKey (row.collection, row.rkey), some row.uri)) key).getD (byCollection key))
  := by
  rw [← map_uri_rowsOf]
  apply congrArg₂ RepoRecordStorage.fjall
  · funext uri
    exact foldl_keyspace _ RecordRow.uri (fun row => row) _ Prod.fst table uri
  · funext key
    exact foldl_keyspace _ (fun row => indexKey (row.collection, row.rkey)) RecordRow.uri _ Prod.snd
      byCollection key

theorem IndexOf.applyBatch_fjall (h : IndexOf account.did map (.fjall table byCollection))
    (hchanges : ∀ change ∈ changes, PlainRecord change.record) :
  IndexOf account.did
    (updateTwice (changes.map Change.update) (dropsOf map (.fjall table byCollection)) map)
    ((RepoRecordStorage.fjall table byCollection).applyBatch (rowsOf account rev changes)
      (removals (changes.map Change.update)))
  := by
  have hdeletes := fun record => @plain_of_mem_removals changes hchanges record
  have huri := fun a b => @uriOf_inj account.did a b
  have hkey := fun a b => @indexKey_inj a b
  rw [Pds.applyBatch_fjall]
  refine ⟨?_, ?_, ?_⟩
  · intro uri row hrow
    dsimp only at hrow
    split at hrow
    · cases hrow
    · cases hlast : lastUpdate ((rowsOf account rev changes).map fun row =>
          (uriOf account.did (row.collection, row.rkey), some row)) uri with
      | none =>
        rw [hlast] at hrow
        exact h.1 uri row hrow
      | some last =>
        rw [hlast] at hrow
        obtain ⟨written, hwritten, heq⟩ := List.mem_map.mp (mem_of_lastUpdate hlast)
        cases heq
        cases hrow
        exact ⟨plain_of_mem_rowsOf hchanges hwritten, rfl⟩
  · intro record hrecord
    have hremoved := @mem_deletePairs _ _ _ _ _ _ (uriOf account.did) Prod.fst h (fun _ => rfl)
      huri hdeletes _ hrecord
    dsimp only
    rw [@updateTwice_apply account rev, lastUpdate_keys huri hchanges some hrecord]
    by_cases hand : record ∈ removals (changes.map Change.update) ∧
        dropsOf map (.fjall table byCollection) record
    · rw [if_pos (hremoved.mpr hand), if_pos hand]
      rfl
    · rw [if_neg (fun hmem => hand (hremoved.mp hmem)), if_neg hand, ← h.2.1 record hrecord]
      cases lastRow account rev changes record with
      | none => rfl
      | some row => rfl
  · intro record hrecord
    have hremoved := @mem_deletePairs _ _ _ _ _ _ indexKey Prod.snd h (fun _ => rfl) hkey hdeletes
      _ hrecord
    dsimp only
    rw [@updateTwice_apply account rev,
      lastUpdate_keys hkey hchanges (fun row => some row.uri) hrecord]
    by_cases hand : record ∈ removals (changes.map Change.update) ∧
        dropsOf map (.fjall table byCollection) record
    · rw [if_pos (hremoved.mpr hand), if_pos hand]
      rfl
    · rw [if_neg (fun hmem => hand (hremoved.mp hmem)), if_neg hand, h.2.2 record hrecord]
      cases hlast : lastRow account rev changes record with
      | none => rfl
      | some row =>
        rw [Option.map_some, Option.map_some, Option.getD_some, Option.getD_some,
          uri_of_lastRow hlast]
        rfl

/-- What a batch makes of the index: the map after the updates in two rounds. -/
theorem IndexOf.applyBatch (h : IndexOf account.did map records)
    (hchanges : ∀ change ∈ changes, PlainRecord change.record) :
  IndexOf account.did (updateTwice (changes.map Change.update) (dropsOf map records) map)
    (records.applyBatch (rowsOf account rev changes) (changes.filterMap Change.delete?))
  := by
  rw [filterMap_delete?]
  cases records with
  | sql table => exact h.applyBatch_sql
  | fjall table byCollection => exact h.applyBatch_fjall hchanges

end Atproto.Pds
