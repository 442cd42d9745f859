import Atproto.Pds.Import

/-!
# What an import leaves in the index

An import writes the records of its tree over those that have the same place in the index and adds
references that are not there yet.  It removes neither rows nor references.  So the index is
exactly that of the tree when it had nothing else before.
-/

namespace Atproto.Pds

open Atproto.Dasl Atproto.Lexicon Atproto.Repo Logic SearchTree

variable {ctx : Context} {account : Account} {importer : Importer} {forms : TextForms}

/-! ### A successful import -/

/-- Inserting commits leaves everything else alone. -/
theorem insertCommits_frame (prevData : Option Cid) (chain : List Commit)
    (realm : PublicRealm ctx) :
  ∃ commits, (insertCommits account prevData chain realm).2 =
    { realm with storage := { realm.storage with commits := commits } }
  := by
  induction chain generalizing prevData realm with
  | nil => exact ⟨realm.storage.commits, rfl⟩
  | cons commit chain ih =>
    rw [insertCommits, Action.bind_apply, Action.ofExcept]
    cases commitCid ctx account commit with
    | error error => exact ⟨realm.storage.commits, rfl⟩
    | ok cid =>
      obtain ⟨commits, hcommits⟩ := ih (some commit.data) { realm with storage :=
        { realm.storage with
          commits := insertCommit (importedRow cid commit prevData) realm.storage.commits } }
      exact ⟨commits, hcommits⟩

/-- The records that a tree names, with their CIDs. -/
def recordEntries (pairs : List (Key × Cid)) : List ((Text × Text) × Cid) :=
  pairs.filterMap fun pair => (recordOfKey pair.1).map fun record => (record, pair.2)

theorem recordEntries_cons (pair : Key × Cid) (pairs : List (Key × Cid)) :
  recordEntries (pair :: pairs) =
    ((recordOfKey pair.1).map fun record => (record, pair.2)).toList ++ recordEntries pairs
  := filterMap_cons_toList _ _ _

/-- The row of an imported record. -/
def entryRow (did rev : Text) (entry : (Text × Text) × Cid) : RecordRow :=
  ⟨uriOf did entry.1, entry.2, entry.1.1, entry.1.2, rev⟩

/-- Write entries into the index. -/
def upsertEntries (did rev : Text) (entries : List ((Text × Text) × Cid))
    (records : RepoRecordStorage) : RepoRecordStorage :=
  entries.foldl (fun records entry => records.upsert (entryRow did rev entry)) records

/-- Add the references of entries. -/
def referEntries (did : Text) (blobsOf : Cid → List BlobRef)
    (entries : List ((Text × Text) × Cid)) (refs : BlobRefs) : BlobRefs :=
  entries.foldl (fun refs entry => refs.addRefs (uriOf did entry.1) (blobsOf entry.2)) refs

theorem foldl_indexRecord (rev : Text) (pairs : List (Key × Cid)) (realm : PublicRealm ctx) :
  pairs.foldl (indexRecord forms account rev) realm =
    { storage := { realm.storage with
        records := upsertEntries account.did rev (recordEntries pairs) realm.storage.records }
      blobRefs := referEntries account.did
        (recordBlobs forms account.format realm.storage.blocks) (recordEntries pairs)
        realm.blobRefs }
  := by
  induction pairs generalizing realm with
  | nil => rfl
  | cons pair pairs ih =>
    rw [List.foldl_cons, ih, recordEntries_cons, indexRecord]
    cases recordOfKey pair.1 with
    | none => rfl
    | some record => rfl

theorem indexRecords_eq_ok {root : Cid} {rev : Text} {realm realm' : PublicRealm ctx} :
  indexRecords forms account root rev realm = (.ok (), realm') ↔
    ∃ pairs, (Mst.fromRoot root realm.storage.blocks).entries = .ok pairs ∧
      pairs.foldl (indexRecord forms account rev) realm = realm'
  := by
  rw [indexRecords, Action.bind_eq_ok]
  constructor
  · rintro ⟨pairs, mid, hread, hmodify⟩
    obtain ⟨hpairs, hmid⟩ := Prod.ext_iff.mp hread
    dsimp only at hmid
    subst hmid
    exact ⟨pairs, mapError_eq_ok.mp hpairs, (Prod.ext_iff.mp hmodify).2⟩
  · rintro ⟨pairs, hpairs, rfl⟩
    exact ⟨pairs, realm, Prod.ext (mapError_eq_ok.mpr hpairs) rfl, rfl⟩

/-- What a successful import has found and what it stores. -/
structure Imported (account : Account) (forms : TextForms) (realm realm' : PublicRealm ctx)
    (verified : Verified) (pairs : List (Key × Cid)) : Prop where
  blocks : realm'.storage.blocks = storeBlocks verified.blocks realm.storage.blocks
  walked : (Mst.fromRoot verified.head.data realm'.storage.blocks).entries = .ok pairs
  records : realm'.storage.records = upsertEntries account.did verified.head.rev
    (recordEntries pairs) realm.storage.records
  refs : realm'.blobRefs = referEntries account.did
    (recordBlobs forms account.format realm'.storage.blocks) (recordEntries pairs) realm.blobRefs

theorem importVerified_eq_ok {verified : Verified} {realm realm' : PublicRealm ctx}
    {outcome : ImportOutcome}
    (h : importVerified account forms verified realm = (.ok outcome, realm')) :
  ∃ pairs, Imported account forms realm realm' verified pairs
  := by
  obtain ⟨⟨⟩, stored, hstored, h⟩ := Action.bind_eq_ok.mp h
  obtain ⟨⟨⟩, inserted, hinserted, h⟩ := Action.bind_eq_ok.mp h
  obtain ⟨headCid, mid, hcid, h⟩ := Action.bind_eq_ok.mp h
  obtain ⟨-, hmid⟩ := Action.ofExcept_eq_ok.mp hcid
  obtain ⟨⟨⟩, indexed, hindexed, h⟩ := Action.bind_eq_ok.mp h
  obtain ⟨pairs, hpairs, hfold⟩ := indexRecords_eq_ok.mp hindexed
  have hfinal : indexed = realm' := (Prod.ext_iff.mp h).2
  have hstored := (Prod.ext_iff.mp hstored).2
  obtain ⟨commits, hframe⟩ := @insertCommits_frame ctx account none verified.chain stored
  rw [hinserted] at hframe
  dsimp only at hframe hstored
  subst hmid hfinal hfold hframe hstored
  rw [foldl_indexRecord]
  exact ⟨pairs, rfl, hpairs, rfl, rfl⟩

theorem importFromStream_eq_ok {σ : Type} {source : Wire.Source σ} {s : σ}
    {realm realm' : PublicRealm ctx} {outcome : ImportOutcome} :
  importFromStream account importer forms source s realm = (.ok outcome, realm') ↔
    ∃ verified, readVerified account importer ctx source s = .ok verified ∧
      importVerified account forms verified realm = (.ok outcome, realm')
  := by
  rw [importFromStream, Action.bind_eq_ok]
  constructor
  · rintro ⟨verified, mid, hread, h⟩
    obtain ⟨hverified, rfl⟩ := Action.ofExcept_eq_ok.mp hread
    exact ⟨verified, hverified, h⟩
  · rintro ⟨verified, hread, h⟩
    exact ⟨verified, realm, Action.ofExcept_eq_ok.mpr ⟨hread, rfl⟩, h⟩

/-! ### Places in the index -/

/-- Where an index is kept. -/
def RepoRecordStorage.backend : RepoRecordStorage → Backend
  | .sql _ => .sql
  | .fjall _ _ => .fjall

/-- Two records have the same place in an index. -/
def SameSlot : Backend → (Text × Text) × Cid → (Text × Text) × Cid → Prop
  | .sql, a, b => a.1 = b.1
  | .fjall, a, b => indexKey a.1 = indexKey b.1

theorem sameSlot_equivalence (backend : Backend) :
  Equivalence (SameSlot backend)
  := by
  cases backend with
  | sql => exact ⟨fun _ => rfl, fun h => h.symm, fun h h' => h.trans h'⟩
  | fjall => exact ⟨fun _ => rfl, fun h => h.symm, fun h h' => h.trans h'⟩

/-- The records that have a row, with their CIDs. -/
def RepoRecordStorage.entries (records : RepoRecordStorage) : Set ((Text × Text) × Cid) :=
  {entry | records.Row entry.1.1 entry.1.2 entry.2}

/-- In fjall each row is under the URI of its record, and the second keyspace finds it there. -/
def WellPlaced (did : Text) : RepoRecordStorage → Prop
  | .sql _ => True
  | .fjall repoRecord byCollection =>
    (∀ uri row, repoRecord uri = some row →
      slash ∉ row.collection.bytes ∧ uri = uriOf did (row.collection, row.rkey) ∧
        byCollection (indexKey (row.collection, row.rkey)) = some uri) ∧
    ∀ key uri, byCollection key = some uri →
      ∃ row, repoRecord uri = some row ∧ indexKey (row.collection, row.rkey) = key

variable {did rev : Text} {records : RepoRecordStorage} {entry : (Text × Text) × Cid}

theorem uriOf_inj' {a b : Text × Text} (ha : slash ∉ a.1.bytes) (hb : slash ∉ b.1.bytes)
    (h : uriOf did a = uriOf did b) :
  a = b
  := mstKey_inj ha hb (Text.append_right_injective _ h)

theorem WellPlaced.separated (h : WellPlaced did records) :
  Separated (SameSlot records.backend) records.entries
  := by
  intro a ha b hb hne hsame
  apply hne
  cases records with
  | sql table =>
    obtain ⟨row, hrow, hcid⟩ := ha
    obtain ⟨row', hrow', hcid'⟩ := hb
    have hrecord : a.1 = b.1 := hsame
    rw [hrecord, hrow'] at hrow
    obtain rfl := Option.some.inj hrow
    exact Prod.ext hrecord (hcid.symm.trans hcid')
  | fjall table byCollection =>
    obtain ⟨uri, row, hrow, hcollection, hrkey, hcid⟩ := ha
    obtain ⟨uri', row', hrow', hcollection', hrkey', hcid'⟩ := hb
    obtain ⟨-, -, hfound⟩ := h.1 uri row hrow
    obtain ⟨-, -, hfound'⟩ := h.1 uri' row' hrow'
    rw [hcollection, hrkey] at hfound
    rw [hcollection', hrkey'] at hfound'
    have hkey : indexKey a.1 = indexKey b.1 := hsame
    change byCollection (indexKey a.1) = some uri at hfound
    change byCollection (indexKey b.1) = some uri' at hfound'
    rw [hkey, hfound'] at hfound
    obtain rfl := Option.some.inj hfound
    rw [hrow'] at hrow
    obtain rfl := Option.some.inj hrow
    refine Prod.ext (Prod.ext ?_ ?_) (hcid.symm.trans hcid')
    · exact hcollection.symm.trans hcollection'
    · exact hrkey.symm.trans hrkey'

theorem backend_upsert (row : RecordRow) :
  (records.upsert row).backend = records.backend
  := by
  cases records with
  | sql table => rfl
  | fjall table byCollection => rfl

/-- The rows of fjall after an entry has been written, under each URI. -/
theorem upsert_fjall (did rev : Text) (entry : (Text × Text) × Cid)
    (table : Text → Option RecordRow) (byCollection : Bytes → Option Text) :
  ∃ table', (RepoRecordStorage.fjall table byCollection).upsert (entryRow did rev entry) =
      .fjall table' (Function.update byCollection (indexKey entry.1) (some (uriOf did entry.1))) ∧
    ∀ uri, table' uri =
      if uri = uriOf did entry.1 then some (entryRow did rev entry)
      else if byCollection (indexKey entry.1) = some uri then none
      else table uri
  := by
  have hpresent := fun cleared : Text → Option RecordRow => Function.update_self
    (uriOf did entry.1) (some (entryRow did rev entry)) cleared
  cases hprior : byCollection (byCollectionKey entry.1.1 entry.1.2) with
  | none =>
    refine ⟨Function.update table (uriOf did entry.1) (some (entryRow did rev entry)), ?_, ?_⟩
    · rw [RepoRecordStorage.upsert]
      dsimp only [entryRow]
      rw [hprior]
      rfl
    · intro uri
      rw [indexKey, hprior, if_neg (nofun : ¬ none = some uri)]
      by_cases huri : uri = uriOf did entry.1
      · rw [if_pos huri, huri]
        exact hpresent table
      · rw [if_neg huri]
        exact Function.update_of_ne huri _ _
  | some priorUri =>
    refine ⟨Function.update (if priorUri = uriOf did entry.1 then table
      else Function.update table priorUri none) (uriOf did entry.1)
      (some (entryRow did rev entry)), ?_, ?_⟩
    · rw [RepoRecordStorage.upsert]
      dsimp only [entryRow]
      rw [hprior]
      rfl
    · intro uri
      rw [indexKey, hprior]
      by_cases huri : uri = uriOf did entry.1
      · rw [if_pos huri, huri]
        exact hpresent _
      · rw [if_neg huri, Function.update_of_ne huri]
        by_cases heq : priorUri = uri
        · subst heq
          rw [if_neg huri, if_pos rfl]
          exact Function.update_self _ _ _
        · rw [if_neg fun h => heq (Option.some.inj h)]
          split
          · rfl
          · exact Function.update_of_ne (Ne.symm heq) _ _

theorem WellPlaced.upsert (h : WellPlaced did records) (hentry : slash ∉ entry.1.1.bytes) :
  WellPlaced did (records.upsert (entryRow did rev entry))
  := by
  cases records with
  | sql table => trivial
  | fjall table byCollection =>
    obtain ⟨hown, hfound⟩ := h
    obtain ⟨table', hupsert, htable⟩ := upsert_fjall did rev entry table byCollection
    rw [hupsert]
    constructor
    · intro uri row hrow
      rw [htable] at hrow
      by_cases huri : uri = uriOf did entry.1
      · rw [if_pos huri] at hrow
        obtain rfl := Option.some.inj hrow
        exact ⟨hentry, huri, huri ▸ Function.update_self _ _ _⟩
      · rw [if_neg huri] at hrow
        split at hrow
        · cases hrow
        · rename_i hclear
          obtain ⟨hslash, hrowUri, hkey⟩ := hown uri row hrow
          refine ⟨hslash, hrowUri, ?_⟩
          rw [Function.update_of_ne]
          · exact hkey
          · intro heq
            rw [heq] at hkey
            exact hclear hkey
    · intro key uri hkey
      by_cases heq : key = indexKey entry.1
      · subst heq
        change Function.update byCollection (indexKey entry.1) (some (uriOf did entry.1)) _ = _
          at hkey
        rw [Function.update_self] at hkey
        obtain rfl := Option.some.inj hkey
        refine ⟨entryRow did rev entry, ?_, rfl⟩
        rw [htable]
        exact if_pos rfl
      · change Function.update byCollection (indexKey entry.1) (some (uriOf did entry.1)) _ = _
          at hkey
        rw [Function.update_of_ne heq] at hkey
        obtain ⟨row, hrow, hrowKey⟩ := hfound key uri hkey
        obtain ⟨hslash, hrowUri, hback⟩ := hown uri row hrow
        refine ⟨row, ?_, hrowKey⟩
        rw [htable, if_neg, if_neg]
        · exact hrow
        · intro hprior
          obtain ⟨row', hrow', hrowKey'⟩ := hfound _ uri hprior
          rw [hrow] at hrow'
          obtain rfl := Option.some.inj hrow'
          exact heq (hrowKey.symm.trans hrowKey')
        · intro huri
          have hrecord := uriOf_inj' hslash hentry (hrowUri.symm.trans huri)
          exact heq (hrowKey.symm.trans (congrArg indexKey hrecord))

/-- Writing an entry takes the place of what was there. -/
theorem WellPlaced.entries_upsert (h : WellPlaced did records) (hentry : slash ∉ entry.1.1.bytes) :
  (records.upsert (entryRow did rev entry)).entries =
    overwrite (SameSlot records.backend) entry records.entries
  := by
  ext other
  cases records with
  | sql table =>
    change (∃ row, Function.update table entry.1 (some (entryRow did rev entry)) other.1 =
      some row ∧ row.cid = other.2) ↔ other = entry ∨ ((∃ row, table other.1 = some row ∧ row.cid = other.2) ∧
        ¬ other.1 = entry.1)
    by_cases heq : other.1 = entry.1
    · rw [heq, Function.update_self]
      constructor
      · rintro ⟨row, hrow, hcid⟩
        obtain rfl := Option.some.inj hrow
        exact Or.inl (Prod.ext heq hcid.symm)
      · rintro (rfl | ⟨-, hne⟩)
        · exact ⟨_, rfl, rfl⟩
        · exact absurd rfl hne
    · rw [Function.update_of_ne heq]
      constructor
      · exact fun hrow => Or.inr ⟨hrow, heq⟩
      · rintro (rfl | ⟨hrow, -⟩)
        · exact absurd rfl heq
        · exact hrow
  | fjall table byCollection =>
    obtain ⟨hown, hfound⟩ := h
    obtain ⟨table', hupsert, htable⟩ := upsert_fjall did rev entry table byCollection
    rw [hupsert]
    constructor
    · rintro ⟨uri, row, hrow, hcollection, hrkey, hcid⟩
      rw [htable] at hrow
      by_cases huri : uri = uriOf did entry.1
      · rw [if_pos huri] at hrow
        obtain rfl := Option.some.inj hrow
        exact Or.inl (Prod.ext (Prod.ext hcollection.symm hrkey.symm) hcid.symm)
      · rw [if_neg huri] at hrow
        split at hrow
        · cases hrow
        · rename_i hclear
          refine Or.inr ⟨⟨uri, row, hrow, hcollection, hrkey, hcid⟩, ?_⟩
          intro hsame
          obtain ⟨-, -, hkey⟩ := hown uri row hrow
          rw [hcollection, hrkey] at hkey
          have hslot : indexKey other.1 = indexKey entry.1 := hsame
          apply hclear
          rw [← hkey]
          exact congrArg byCollection hslot.symm
    · rintro (rfl | ⟨⟨uri, row, hrow, hcollection, hrkey, hcid⟩, hslot⟩)
      · refine ⟨uriOf did other.1, entryRow did rev other, ?_, rfl, rfl, rfl⟩
        rw [htable]
        exact if_pos rfl
      · refine ⟨uri, row, ?_, hcollection, hrkey, hcid⟩
        obtain ⟨hslash, hrowUri, hkey⟩ := hown uri row hrow
        have hrecord : (row.collection, row.rkey) = other.1 := Prod.ext hcollection hrkey
        rw [htable, if_neg, if_neg]
        · exact hrow
        · intro hprior
          obtain ⟨row', hrow', hrowKey⟩ := hfound _ uri hprior
          rw [hrow] at hrow'
          obtain rfl := Option.some.inj hrow'
          rw [hrecord] at hrowKey
          exact hslot hrowKey
        · intro huri
          have heq := uriOf_inj' hslash hentry (hrowUri.symm.trans huri)
          rw [hrecord] at heq
          exact hslot (congrArg indexKey heq)

section Entries

variable {entries : List ((Text × Text) × Cid)}

/-- What importing some entries leaves. -/
theorem WellPlaced.upsertEntries (h : WellPlaced did records)
    (hentries : ∀ entry ∈ entries, slash ∉ entry.1.1.bytes) :
  WellPlaced did (upsertEntries did rev entries records) ∧
    (Pds.upsertEntries did rev entries records).backend = records.backend ∧
    (Pds.upsertEntries did rev entries records).entries =
      overwriteAll (SameSlot records.backend) entries records.entries
  := by
  induction entries generalizing records with
  | nil => exact ⟨h, rfl, rfl⟩
  | cons entry entries ih =>
    obtain ⟨hentry, hentries⟩ := List.forall_mem_cons.mp hentries
    obtain ⟨hplaced, hbackend, hrows⟩ := ih (@WellPlaced.upsert did rev _ _ h hentry) hentries
    refine ⟨hplaced, hbackend.trans (backend_upsert _), ?_⟩
    rw [backend_upsert, h.entries_upsert hentry] at hrows
    exact hrows

end Entries

theorem slash_not_mem_of_recordOfKey {key : Key} {record : Text × Text}
    (h : recordOfKey key = some record) :
  slash ∉ record.1.bytes ∧ key = mstKey record.1 record.2
  := by
  rw [recordOfKey] at h
  by_cases hslash : slash ∈ key.bytes
  · obtain ⟨before, after, hbytes, hbefore⟩ := Text.exists_split (by decide) hslash
    rw [Text.splitOnce_eq_some hbytes hbefore] at h
    cases h
    refine ⟨hbefore, Text.ext ?_⟩
    rw [bytes_mstKey]
    exact hbytes
  · rw [Text.splitOnce, dif_neg hslash] at h
    cases h

theorem slash_not_mem_of_recordEntries {pairs : List (Key × Cid)} {entry : (Text × Text) × Cid}
    (h : entry ∈ recordEntries pairs) :
  slash ∉ entry.1.1.bytes
  := by
  obtain ⟨pair, -, hpair⟩ := List.mem_filterMap.mp h
  obtain ⟨record, hrecord, rfl⟩ := Option.map_eq_some_iff.mp hpair
  exact (slash_not_mem_of_recordOfKey hrecord).1

/-! ### References -/

section References

variable {blobsOf : Cid → List BlobRef} {entries : List ((Text × Text) × Cid)} {refs : BlobRefs}

/-- The references of a record to some blobs. -/
def refRows (recordUri : Text) (blobs : List BlobRef) : List ((Text × Text) × BlobColumns) :=
  blobs.map fun blob => ((recordUri, blob.link), ⟨blob.mimeType, blob.size⟩)

/-- The references of entries, in the order in which they are added. -/
def writtenRefs (did : Text) (blobsOf : Cid → List BlobRef)
    (entries : List ((Text × Text) × Cid)) : List ((Text × Text) × BlobColumns) :=
  entries.flatMap fun entry => refRows (uriOf did entry.1) (blobsOf entry.2)

/-- Add rows to the references. -/
def BlobRefs.fill (added : List ((Text × Text) × BlobColumns)) : BlobRefs → BlobRefs
  | .sql repoBlobRef => .sql (fillAll added repoBlobRef)
  | .fjall repoBlobRef => .fjall (fillAll (inForm blobRefKey added) repoBlobRef)

theorem BlobRefs.fill_append (added added' : List ((Text × Text) × BlobColumns)) :
  refs.fill (added ++ added') = (refs.fill added).fill added'
  := by
  cases refs with
  | sql rows => rw [fill, fill, fill, fillAll, List.foldl_append, ← fillAll, ← fillAll]
  | fjall rows =>
    rw [fill, fill, fill, inForm, List.map_append, fillAll, List.foldl_append, ← fillAll, ← fillAll,
      inForm, inForm]

theorem BlobRefs.addRefs_eq (recordUri : Text) (blobs : List BlobRef) :
  refs.addRefs recordUri blobs = refs.fill (refRows recordUri blobs)
  := by
  induction blobs generalizing refs with
  | nil =>
    cases refs with
    | sql rows => rfl
    | fjall rows => rfl
  | cons blob blobs ih =>
    rw [addRefs, List.foldl_cons, ← addRefs, ih]
    cases refs with
    | sql rows => rfl
    | fjall rows => rfl

theorem referEntries_eq :
  referEntries did blobsOf entries refs = refs.fill (writtenRefs did blobsOf entries)
  := by
  induction entries generalizing refs with
  | nil =>
    cases refs with
    | sql rows => rfl
    | fjall rows => rfl
  | cons entry entries ih =>
    have hwritten : writtenRefs did blobsOf (entry :: entries) =
      refRows (uriOf did entry.1) (blobsOf entry.2) ++ writtenRefs did blobsOf entries := rfl
    rw [referEntries, List.foldl_cons, ← referEntries, ih, BlobRefs.addRefs_eq, hwritten,
      BlobRefs.fill_append]

/-- What is read after rows have been added are exactly their first ones, when there were no others
and the URIs can be read back. -/
theorem BlobRefs.fill_exact_iff {added : List ((Text × Text) × BlobColumns)} :
  (∀ row, row ∈ (refs.fill added).rows ↔ row ∈ firsts added) ↔
    (∀ row ∈ refs.rows, row ∈ firsts added) ∧ ∀ row ∈ firsts added, refs.Readable row.1
  := by
  cases refs with
  | sql rows =>
    have hexact := @readBack_exact_iff (Text × Text) (Text × Text) BlobColumns _ rows
      (fun _ => True) id added fun _ _ _ _ h => h
    have hform : inForm id added = added := List.map_id added
    have hread : ∀ rows : List ((Text × Text) × BlobColumns),
        readBack (fun _ => True) id rows = {row | row ∈ rows} := by
      intro rows
      ext row
      exact and_iff_right trivial
    rw [hform, hread, hread, Set.ext_iff] at hexact
    exact hexact
  | fjall rows =>
    have hexact := @readBack_exact_iff Text (Text × Text) BlobColumns _ rows
      (fun ref => 0 ∉ ref.1.bytes) blobRefKey added fun _ _ => blobRefKey_inj
    rw [Set.ext_iff] at hexact
    simp only [fill, mem_rows_fjall]
    exact hexact

/-- What the first envelope of a blob says about it. -/
def firstBlob (blobs : List BlobRef) (cid : Text) : Option BlobColumns :=
  (blobs.find? fun blob => blob.link = cid).map fun blob => ⟨blob.mimeType, blob.size⟩

/-- A row is the reference of an entry to a blob in its value. -/
def Carries (did : Text) (blobsOf : Cid → List BlobRef) (entries : List ((Text × Text) × Cid))
    (row : (Text × Text) × BlobColumns) : Prop :=
  ∃ entry ∈ entries, row.1.1 = uriOf did entry.1 ∧ firstBlob (blobsOf entry.2) row.1.2 = some row.2

theorem mem_firsts_iff {α β : Type} [DecidableEq α] {added : List (α × β)} {row : α × β} :
  row ∈ firsts added ↔ added.find? (fun other => other.1 = row.1) = some row
  := by
  rw [List.find?_eq_some_iff_append]
  constructor
  · rintro ⟨before, after, heq, hbefore⟩
    refine ⟨decide_eq_true rfl, before, after, heq, fun other hother => ?_⟩
    rw [decide_eq_false (hbefore other hother)]
    rfl
  · rintro ⟨-, before, after, heq, hbefore⟩
    refine ⟨before, after, heq, fun other hother hkey => ?_⟩
    have hnot := hbefore other hother
    rw [decide_eq_true hkey] at hnot
    cases hnot

/-- Finding a reference of a record among its references. -/
theorem find?_refRows {recordUri uri cid : Text} (blobs : List BlobRef) :
  (refRows recordUri blobs).find? (fun other => other.1 = (uri, cid)) =
    if recordUri = uri then (firstBlob blobs cid).map fun columns => ((uri, cid), columns) else none
  := by
  induction blobs with
  | nil =>
    split
    · rfl
    · rfl
  | cons blob blobs ih =>
    have hfirst : firstBlob (blob :: blobs) cid =
        if blob.link = cid then some ⟨blob.mimeType, blob.size⟩ else firstBlob blobs cid := by
      rw [firstBlob, List.find?_cons]
      by_cases hcid : blob.link = cid
      · rw [if_pos hcid, decide_eq_true hcid]
        rfl
      · rw [if_neg hcid, decide_eq_false hcid]
        rfl
    rw [refRows, List.map_cons, List.find?_cons, ← refRows, ih, hfirst]
    by_cases huri : recordUri = uri
    · by_cases hcid : blob.link = cid
      · subst huri hcid
        rw [if_pos rfl, if_pos rfl, if_pos rfl, decide_eq_true rfl]
        rfl
      · rw [if_pos huri, if_pos huri, if_neg hcid,
          decide_eq_false fun h => hcid (Prod.ext_iff.mp h).2]
    · rw [if_neg huri, if_neg huri, decide_eq_false fun h => huri (Prod.ext_iff.mp h).1]

/-- When no record has two entries, the first references are those of the values. -/
theorem mem_firsts_writtenRefs (hslash : ∀ entry ∈ entries, slash ∉ entry.1.1.bytes)
    (hentries : ∀ a ∈ entries, ∀ b ∈ entries, a.1 = b.1 → a = b)
    {row : (Text × Text) × BlobColumns} :
  row ∈ firsts (writtenRefs did blobsOf entries) ↔ Carries did blobsOf entries row
  := by
  rw [mem_firsts_iff, writtenRefs, List.find?_flatMap]
  constructor
  · intro h
    obtain ⟨entry, hentry, hfind⟩ := List.exists_of_findSome?_eq_some h
    rw [find?_refRows] at hfind
    split at hfind
    · rename_i huri
      obtain ⟨columns, hblob, heq⟩ := Option.map_eq_some_iff.mp hfind
      refine ⟨entry, hentry, huri.symm, ?_⟩
      rw [hblob, ← heq]
    · cases hfind
  · rintro ⟨entry, hentry, huri, hblob⟩
    have hfound : ∀ other ∈ entries, ∀ found,
        (refRows (uriOf did other.1) (blobsOf other.2)).find? (fun r => r.1 = row.1) = some found →
        found = row := by
      intro other hother found hfind
      rw [find?_refRows] at hfind
      split at hfind
      · rename_i heq
        have hrecord := uriOf_inj' (hslash other hother) (hslash entry hentry) (heq.trans huri)
        rw [hentries other hother entry hentry hrecord, hblob] at hfind
        exact (Option.some.inj hfind).symm
      · cases hfind
    have hsome : (entries.findSome? fun entry =>
        (refRows (uriOf did entry.1) (blobsOf entry.2)).find? fun r => r.1 = row.1).isSome := by
      rw [List.findSome?_isSome_iff]
      refine ⟨entry, hentry, ?_⟩
      rw [find?_refRows, if_pos huri.symm, hblob]
      rfl
    obtain ⟨found, hfind⟩ := Option.isSome_iff_exists.mp hsome
    obtain ⟨other, hother, hotherFind⟩ := List.exists_of_findSome?_eq_some hfind
    rw [hfind, hfound other hother found hotherFind]

end References

/-! ### Exactness -/

/-- The rows of the index are the entries, and its references are those of their values. -/
structure ImportExact (did : Text) (blobsOf : Cid → List BlobRef) (realm : PublicRealm ctx)
    (entries : List ((Text × Text) × Cid)) : Prop where
  rows : ∀ entry, entry ∈ realm.storage.records.entries ↔ entry ∈ entries
  refs : ∀ row, row ∈ realm.blobRefs.rows ↔ Carries did blobsOf entries row

/-- No two entries have the same place, and the index has no row and no reference besides those of
the entries; in fjall no URI with a reference has a zero byte. -/
structure Covered (did : Text) (blobsOf : Cid → List BlobRef) (realm : PublicRealm ctx)
    (entries : List ((Text × Text) × Cid)) : Prop where
  places : ∀ a ∈ entries, ∀ b ∈ entries, SameSlot realm.storage.records.backend a b → a = b
  rows : ∀ row ∈ realm.storage.records.entries, ∃ a ∈ entries,
    SameSlot realm.storage.records.backend row a
  refs : ∀ row ∈ realm.blobRefs.rows, Carries did blobsOf entries row
  uris : ∀ row, Carries did blobsOf entries row → realm.blobRefs.Readable row.1

theorem SameSlot.of_eq {backend : Backend} {a b : (Text × Text) × Cid} (h : a.1 = b.1) :
  SameSlot backend a b
  := by
  cases backend with
  | sql => exact h
  | fjall => exact congrArg indexKey h

/-- An import leaves exactly the index of its tree when that covers the index before. -/
theorem Imported.exact_iff {realm realm' : PublicRealm ctx} {verified : Verified}
    {pairs : List (Key × Cid)} (h : Imported account forms realm realm' verified pairs)
    (hplaced : WellPlaced account.did realm.storage.records) :
  ImportExact account.did (recordBlobs forms account.format realm'.storage.blocks) realm'
      (recordEntries pairs) ↔
    Covered account.did (recordBlobs forms account.format realm'.storage.blocks) realm
      (recordEntries pairs)
  := by
  have hslash : ∀ entry ∈ recordEntries pairs, slash ∉ entry.1.1.bytes :=
    fun entry hentry => slash_not_mem_of_recordEntries hentry
  obtain ⟨-, -, hrows⟩ := @WellPlaced.upsertEntries account.did verified.head.rev _ _ hplaced hslash
  have hrowsIff := @overwriteAll_exact_iff _ _ realm.storage.records.entries (recordEntries pairs)
    (sameSlot_equivalence realm.storage.records.backend) hplaced.separated
  have hrefsIff := @BlobRefs.fill_exact_iff realm.blobRefs (writtenRefs account.did
    (recordBlobs forms account.format realm'.storage.blocks) (recordEntries pairs))
  rw [← hrows, ← h.records] at hrowsIff
  rw [← referEntries_eq, ← h.refs] at hrefsIff
  constructor
  · rintro ⟨hexactRows, hexactRefs⟩
    obtain ⟨hplaces, hcovered⟩ := hrowsIff.mp hexactRows
    have hcarries := fun row => @mem_firsts_writtenRefs account.did
      (recordBlobs forms account.format realm'.storage.blocks) _ hslash
      (fun a ha b hb heq => hplaces a ha b hb (SameSlot.of_eq heq)) row
    simp only [hcarries] at hrefsIff
    obtain ⟨hrefs, huris⟩ := hrefsIff.mp hexactRefs
    exact ⟨hplaces, hcovered, hrefs, huris⟩
  · rintro ⟨hplaces, hcovered, hrefs, huris⟩
    have hcarries := fun row => @mem_firsts_writtenRefs account.did
      (recordBlobs forms account.format realm'.storage.blocks) _ hslash
      (fun a ha b hb heq => hplaces a ha b hb (SameSlot.of_eq heq)) row
    simp only [hcarries] at hrefsIff
    exact ⟨hrowsIff.mpr ⟨hplaces, hcovered⟩, hrefsIff.mpr ⟨hrefs, huris⟩⟩

end Atproto.Pds
