import Atproto.Logic.Scan
import Atproto.Repo.Codec
import Mathlib.Data.List.Dedup
import Mathlib.Data.List.MinMax
import Mathlib.Data.Prod.Lex

/-!
# Listing missing blobs

A blob is missing when a record refers to it and its bytes are not stored.  The missing blobs are
listed page by page, each page after the last blob of the page before.  In SQL a page is cut from the
blobs in the order of their CIDs.  In fjall it is cut from the references in the order of their
records, and sorted then.
-/

namespace Atproto.Pds.MissingBlobs

open Atproto.Dasl Atproto.Repo Logic

/-- A reference of a record to a blob. -/
structure BlobRefRow where
  recordUri : Text
  blobCid : Text
  mimeType : Text
  size : Nat
deriving DecidableEq

/-- The limit of a page, between 1 and 1000. -/
def clampLimit (limit : Nat) : Nat := max 1 (min limit 1000)

theorem clampLimit_pos {limit : Nat} :
  0 < clampLimit limit
  := lt_of_lt_of_le Nat.one_pos (Nat.le_max_left _ _)

/-- The missing blobs are visited once each, in the order of their CIDs. -/
def VisitsAll (missing : Text → Prop) (read : List BlobRefRow) : Prop :=
  Ordered BlobRefRow.blobCid read ∧ ∀ cid, cid ∈ read.map BlobRefRow.blobCid ↔ missing cid

/-! ### Fjall -/

/-- The references of an account in the order of their keys, and the CIDs of its blobs. -/
structure FjallBlobs where
  repoBlobRef : List BlobRefRow
  repoBlob : List Text
  ordered : Ordered (fun row => toLex (row.recordUri, row.blobCid)) repoBlobRef

/-- The CID is not above the cursor. -/
def upTo : Option Text → Text → Bool
  | none, _ => false
  | some cursor, cid => cid ≤ cursor

/-- Go through the references until there are as many as the limit. -/
def scanRefs (repoBlob : List Text) (cursor : Option Text) (limit : Nat) :
    List BlobRefRow → List Text → List BlobRefRow → List BlobRefRow
  | [], _, out => out
  | row :: rows, seen, out =>
    if row.blobCid.isIn seen = true then scanRefs repoBlob cursor limit rows seen out
    else if upTo cursor row.blobCid = true then
      scanRefs repoBlob cursor limit rows (row.blobCid :: seen) out
    else if row.blobCid.isIn repoBlob = true then
      scanRefs repoBlob cursor limit rows (row.blobCid :: seen) out
    else if limit ≤ (out ++ [row]).length then out ++ [row]
    else scanRefs repoBlob cursor limit rows (row.blobCid :: seen) (out ++ [row])

namespace FjallBlobs

/-- A page of missing blobs. -/
def listMissingRefs (store : FjallBlobs) (limit : Nat) (cursor : Option Text) : List BlobRefRow :=
  (scanRefs store.repoBlob cursor (clampLimit limit) store.repoBlobRef [] []).insertionSort
    fun a b => a.blobCid ≤ b.blobCid

/-- A record refers to the blob, and its bytes are not stored. -/
def Missing (store : FjallBlobs) (cid : Text) : Prop :=
  (∃ row ∈ store.repoBlobRef, row.blobCid = cid) ∧ cid ∉ store.repoBlob

end FjallBlobs

/-- The first reference to each blob. -/
@[grind =]
def firstRefs : List Text → List BlobRefRow → List BlobRefRow
  | _, [] => []
  | seen, row :: rows =>
    if row.blobCid.isIn seen = true then firstRefs seen rows
    else row :: firstRefs (row.blobCid :: seen) rows

/-- The first reference to each missing blob, in the order of the records. -/
def FjallBlobs.missingRows (store : FjallBlobs) : List BlobRefRow :=
  (firstRefs [] store.repoBlobRef).filter fun row => !row.blobCid.isIn store.repoBlob

theorem mem_firstRefs {seen : List Text} {rows : List BlobRefRow} {row : BlobRefRow}
    (h : row ∈ firstRefs seen rows) :
  row ∈ rows ∧ row.blobCid ∉ seen
  := by
  induction rows generalizing seen with
  | nil => cases h
  | cons first rows ih =>
    rw [firstRefs] at h
    split at h
    · obtain ⟨hmem, hseen⟩ := ih h
      exact ⟨List.mem_cons_of_mem _ hmem, hseen⟩
    · rename_i hfirst
      rcases List.mem_cons.mp h with rfl | h
      · exact ⟨List.mem_cons_self, fun hin => hfirst (Text.isIn_iff.mpr hin)⟩
      · obtain ⟨hmem, hseen⟩ := ih h
        exact ⟨List.mem_cons_of_mem _ hmem, fun hin => hseen (List.mem_cons_of_mem _ hin)⟩

/-- Every blob that is referred to has a first reference. -/
theorem exists_firstRef {seen : List Text} {rows : List BlobRefRow} {row : BlobRefRow}
    (h : row ∈ rows) (hseen : row.blobCid ∉ seen) :
  ∃ first ∈ firstRefs seen rows, first.blobCid = row.blobCid
  := by
  induction rows generalizing seen with
  | nil => cases h
  | cons head rows ih =>
    rw [firstRefs]
    split
    · rename_i hhead
      rcases List.mem_cons.mp h with rfl | h
      · exact absurd (Text.isIn_iff.mp hhead) hseen
      · exact ih h hseen
    · by_cases heq : row.blobCid = head.blobCid
      · exact ⟨head, List.mem_cons_self, heq.symm⟩
      · rcases List.mem_cons.mp h with rfl | h
        · exact absurd rfl heq
        · have hnot : row.blobCid ∉ head.blobCid :: seen := by
            intro hin
            rcases List.mem_cons.mp hin with hin | hin
            · exact heq hin
            · exact hseen hin
          obtain ⟨first, hmem, hcid⟩ := ih h hnot
          exact ⟨first, List.mem_cons_of_mem _ hmem, hcid⟩

theorem firstRefs_sublist {seen : List Text} {rows : List BlobRefRow} :
  (firstRefs seen rows).Sublist rows
  := by
  induction rows generalizing seen with
  | nil => exact List.Sublist.refl _
  | cons row rows ih =>
    rw [firstRefs]
    split
    · exact ih.cons row
    · exact ih.cons_cons row

theorem firstRefs_distinct {seen : List Text} {rows : List BlobRefRow} :
  DistinctKeys BlobRefRow.blobCid (firstRefs seen rows)
  := by
  induction rows generalizing seen with
  | nil => exact List.Pairwise.nil
  | cons row rows ih =>
    rw [firstRefs]
    split
    · exact ih
    · refine List.pairwise_cons.mpr ⟨?_, ih⟩
      intro other hother heq
      exact (mem_firstRefs hother).2 (heq ▸ List.mem_cons_self)

theorem afterOption_cons {cursor : Option Text} {rows : List BlobRefRow} {row : BlobRefRow} :
  afterOption BlobRefRow.blobCid cursor (row :: rows) =
    if upTo cursor row.blobCid = true then afterOption BlobRefRow.blobCid cursor rows
    else row :: afterOption BlobRefRow.blobCid cursor rows
  := by
  cases cursor with
  | none => rfl
  | some cursor =>
    show after BlobRefRow.blobCid cursor (row :: rows) = _
    by_cases hle : row.blobCid ≤ cursor
    · have hup : upTo (some cursor) row.blobCid = true := decide_eq_true hle
      rw [after, List.filter_cons_of_neg (by simpa using hle), if_pos hup]
      rfl
    · have hup : ¬ upTo (some cursor) row.blobCid = true := fun h => hle (of_decide_eq_true h)
      rw [after, List.filter_cons_of_pos (by simpa using hle), if_neg hup]
      rfl

/-- The scan stops at the first missing blobs above the cursor that it meets. -/
theorem scanRefs_eq {repoBlob : List Text} {cursor : Option Text} {limit : Nat}
    {rows : List BlobRefRow} {seen : List Text} {out : List BlobRefRow} (h : out.length < limit) :
  scanRefs repoBlob cursor limit rows seen out =
    out ++ (afterOption BlobRefRow.blobCid cursor
      ((firstRefs seen rows).filter fun row => !row.blobCid.isIn repoBlob)).take (limit - out.length)
  := by
  induction rows generalizing seen out with
  | nil =>
    have hnil : afterOption BlobRefRow.blobCid cursor [] = [] := by
      cases cursor with
      | none => rfl
      | some cursor => rfl
    rw [scanRefs, firstRefs, List.filter_nil, hnil, List.take_nil, List.append_nil]
  | cons row rows ih =>
    rw [scanRefs, firstRefs]
    by_cases hseen : row.blobCid.isIn seen = true
    · rw [if_pos hseen, if_pos hseen, ih h]
    rw [if_neg hseen, if_neg hseen]
    by_cases hstored : row.blobCid.isIn repoBlob = true
    · rw [List.filter_cons_of_neg (by simpa using hstored), if_pos hstored, ih h, ite_self]
    rw [List.filter_cons_of_pos (by simpa using hstored), if_neg hstored, afterOption_cons]
    by_cases hup : upTo cursor row.blobCid = true
    · rw [if_pos hup, if_pos hup, ih h]
    rw [if_neg hup, if_neg hup]
    obtain ⟨room, hroom⟩ : ∃ room, limit - out.length = room + 1 := ⟨limit - out.length - 1, by omega⟩
    rw [hroom, List.take_succ_cons]
    have hlength : (out ++ [row]).length = out.length + 1 := List.length_append
    by_cases hfull : limit ≤ (out ++ [row]).length
    · obtain rfl : room = 0 := by omega
      rw [if_pos hfull, List.take_zero]
    · rw [if_neg hfull, ih (not_le.mp hfull), List.append_assoc, List.singleton_append]
      congr 3
      omega

namespace FjallBlobs

variable {store : FjallBlobs}

/-- A page is cut from the scan of the references. -/
theorem listMissingRefs_eq {limit : Nat} :
  store.listMissingRefs limit = scanPage BlobRefRow.blobCid (clampLimit limit) store.missingRows
  := by
  funext cursor
  rw [listMissingRefs, scanRefs_eq clampLimit_pos, List.nil_append]
  rfl

theorem missingRows_distinct :
  DistinctKeys BlobRefRow.blobCid store.missingRows
  := firstRefs_distinct.sublist List.filter_sublist

theorem mem_missingRows {cid : Text} :
  cid ∈ store.missingRows.map BlobRefRow.blobCid ↔ store.Missing cid
  := by
  constructor
  · intro h
    obtain ⟨row, hrow, rfl⟩ := List.mem_map.mp h
    obtain ⟨hfirst, habsent⟩ := List.mem_filter.mp hrow
    exact ⟨⟨row, (mem_firstRefs hfirst).1, rfl⟩, Text.not_isIn.mp habsent⟩
  · rintro ⟨⟨row, hrow, rfl⟩, habsent⟩
    obtain ⟨first, hfirst, hcid⟩ := exists_firstRef hrow List.not_mem_nil
    refine List.mem_map.mpr ⟨first, List.mem_filter.mpr ⟨hfirst, ?_⟩, hcid⟩
    exact Text.not_isIn.mpr (hcid ▸ habsent)

/-- The visited rows are all missing rows when the visited blobs are all missing blobs. -/
theorem visitsAll_iff {read : List BlobRefRow} (hread : ∀ row ∈ read, row ∈ store.missingRows) :
  VisitsAll store.Missing read ↔ ListsAll BlobRefRow.blobCid store.missingRows read
  := by
  constructor
  · rintro ⟨hordered, hall⟩
    refine ⟨hordered, ?_⟩
    intro row
    refine ⟨hread row, ?_⟩
    intro hrow
    have hmissing := mem_missingRows.mp (List.mem_map_of_mem hrow)
    obtain ⟨other, hother, hcid⟩ := List.mem_map.mp ((hall row.blobCid).mpr hmissing)
    rw [← missingRows_distinct.eq (hread other hother) hrow hcid]
    exact hother
  · rintro ⟨hordered, hall⟩
    refine ⟨hordered, ?_⟩
    intro cid
    rw [← mem_missingRows, List.mem_map, List.mem_map]
    simp only [hall]

theorem visits_iff {limit fuel : Nat} (hfuel : store.repoBlobRef.length ≤ fuel) :
  VisitsAll store.Missing
      (readPages BlobRefRow.blobCid (store.listMissingRefs limit) fuel none) ↔
    InPageOrder BlobRefRow.blobCid (clampLimit limit) store.missingRows
  := by
  have hshort : (afterOption BlobRefRow.blobCid none store.missingRows).length ≤ fuel :=
    le_trans (List.filter_sublist.trans firstRefs_sublist).length_le hfuel
  have hread : ∀ row ∈ readPages BlobRefRow.blobCid
      (scanPage BlobRefRow.blobCid (clampLimit limit) store.missingRows) fuel none,
      row ∈ store.missingRows := fun row hrow => mem_of_mem_readPages hrow
  rw [listMissingRefs_eq, visitsAll_iff hread]
  exact readPages_scan_iff clampLimit_pos missingRows_distinct hshort

end FjallBlobs

/-! ### SQL -/

/-- A row of the references of records, whose size the table has as a signed number. -/
structure SqlRefRow where
  recordUri : Text
  blobCid : Text
  mimeType : Text
  size : Int
deriving DecidableEq

/-- The references of public records, of records in spaces, and the CIDs of the blobs. -/
structure SqlBlobs where
  repoBlobRef : List SqlRefRow
  spaceBlobRef : List (Text × Text)
  repoBlob : List Text

/-- A reference from a space, of which neither the type nor the size is known. -/
def spaceRow (pair : Text × Text) : SqlRefRow where
  recordUri := pair.1
  blobCid := pair.2
  mimeType := Text.empty
  size := 0

/-- The rows for a blob as one row. -/
def groupRow (rows : List SqlRefRow) (cid : Text) : BlobRefRow :=
  let group := rows.filter fun row => row.blobCid = cid
  { recordUri := (group.map SqlRefRow.recordUri).min?.getD Text.empty
    blobCid := cid
    mimeType := (group.map SqlRefRow.mimeType).min?.getD Text.empty
    size := ((group.map SqlRefRow.size).min?.getD 0).toNat }

/-- The blobs of some rows, in ascending order. -/
def groupedCids (rows : List SqlRefRow) : List Text :=
  (rows.map SqlRefRow.blobCid).dedup.insertionSort fun a b => a ≤ b

/-- The rows, one for each blob. -/
def groupRows (rows : List SqlRefRow) : List BlobRefRow := (groupedCids rows).map (groupRow rows)

namespace SqlBlobs

/-- The references of both kinds to blobs that are not stored. -/
def absentRefs (store : SqlBlobs) : List SqlRefRow :=
  let publicRefs := store.repoBlobRef.filter fun row => !row.blobCid.isIn store.repoBlob
  let spaceRefs := store.spaceBlobRef.filter fun pair => !pair.2.isIn store.repoBlob
  (publicRefs ++ spaceRefs.map spaceRow).dedup

/-- A page of missing blobs. -/
def listMissingRefs (store : SqlBlobs) (limit : Nat) (cursor : Option Text) : List BlobRefRow :=
  (groupRows (afterOption SqlRefRow.blobCid cursor store.absentRefs)).take (clampLimit limit)

/-- A record of either kind refers to the blob, and its bytes are not stored. -/
def Missing (store : SqlBlobs) (cid : Text) : Prop :=
  ((∃ row ∈ store.repoBlobRef, row.blobCid = cid) ∨ ∃ row ∈ store.spaceBlobRef, row.2 = cid) ∧
    cid ∉ store.repoBlob

end SqlBlobs

theorem mem_groupedCids {rows : List SqlRefRow} {cid : Text} :
  cid ∈ groupedCids rows ↔ cid ∈ rows.map SqlRefRow.blobCid
  := by
  rw [groupedCids, List.mem_insertionSort, List.mem_dedup]

theorem groupedCids_ordered {rows : List SqlRefRow} :
  Ordered id (groupedCids rows)
  := by
  have hdistinct : DistinctKeys id (rows.map SqlRefRow.blobCid).dedup := List.nodup_dedup _
  exact ordered_insertionSort hdistinct

/-- The blobs of the rows above a cursor are the ones above it. -/
theorem groupedCids_after {rows : List SqlRefRow} {cursor : Text} :
  groupedCids (after SqlRefRow.blobCid cursor rows) = after id cursor (groupedCids rows)
  := by
  apply groupedCids_ordered.ext (groupedCids_ordered.filter _)
  intro cid
  rw [mem_groupedCids, List.mem_map, List.mem_filter, mem_groupedCids, List.mem_map]
  constructor
  · rintro ⟨row, hrow, rfl⟩
    obtain ⟨hmem, hlt⟩ := mem_after.mp hrow
    exact ⟨⟨row, hmem, rfl⟩, decide_eq_true hlt⟩
  · rintro ⟨⟨row, hmem, rfl⟩, hlt⟩
    exact ⟨row, mem_after.mpr ⟨hmem, of_decide_eq_true hlt⟩, rfl⟩

theorem groupRow_after {rows : List SqlRefRow} {cursor cid : Text} (h : cursor < cid) :
  groupRow (after SqlRefRow.blobCid cursor rows) cid = groupRow rows cid
  := by
  have hgroup : ((after SqlRefRow.blobCid cursor rows).filter fun row => row.blobCid = cid) =
      rows.filter fun row => row.blobCid = cid := by
    rw [after, List.filter_filter]
    apply List.filter_congr
    intro row _
    by_cases heq : row.blobCid = cid
    · rw [decide_eq_true heq, decide_eq_true (heq ▸ h)]
      rfl
    · rw [decide_eq_false heq]
      rfl
  rw [groupRow, hgroup, groupRow]

/-- Rows above a cursor are grouped as all rows are. -/
theorem groupRows_afterOption {rows : List SqlRefRow} {cursor : Option Text} :
  groupRows (afterOption SqlRefRow.blobCid cursor rows) =
    afterOption BlobRefRow.blobCid cursor (groupRows rows)
  := by
  have hmap := @afterOption_map Text Text _ id (groupedCids rows) BlobRefRow (groupRow rows)
    BlobRefRow.blobCid (fun _ _ => rfl) cursor
  rw [groupRows, groupRows, hmap]
  cases cursor with
  | none => rfl
  | some cursor =>
    show (groupedCids (after _ cursor rows)).map _ = (after id cursor (groupedCids rows)).map _
    rw [groupedCids_after]
    apply List.map_congr_left
    intro cid hcid
    exact groupRow_after (mem_after.mp hcid).2

theorem groupRows_ordered {rows : List SqlRefRow} :
  Ordered BlobRefRow.blobCid (groupRows rows)
  := List.pairwise_map.mpr groupedCids_ordered

namespace SqlBlobs

variable {store : SqlBlobs}

theorem mem_absentRefs {cid : Text} :
  cid ∈ store.absentRefs.map SqlRefRow.blobCid ↔ store.Missing cid
  := by
  constructor
  · intro h
    obtain ⟨row, hrow, rfl⟩ := List.mem_map.mp h
    rcases List.mem_append.mp (List.mem_dedup.mp hrow) with hrow | hrow
    · obtain ⟨hmem, habsent⟩ := List.mem_filter.mp hrow
      exact ⟨Or.inl ⟨row, hmem, rfl⟩, Text.not_isIn.mp habsent⟩
    · obtain ⟨pair, hpair, rfl⟩ := List.mem_map.mp hrow
      obtain ⟨hmem, habsent⟩ := List.mem_filter.mp hpair
      exact ⟨Or.inr ⟨pair, hmem, rfl⟩, Text.not_isIn.mp habsent⟩
  · rintro ⟨⟨row, hmem, rfl⟩ | ⟨pair, hmem, rfl⟩, habsent⟩
    · refine List.mem_map.mpr ⟨row, List.mem_dedup.mpr (List.mem_append_left _ ?_), rfl⟩
      exact List.mem_filter.mpr ⟨hmem, Text.not_isIn.mpr habsent⟩
    · refine List.mem_map.mpr ⟨spaceRow pair, ?_, rfl⟩
      refine List.mem_dedup.mpr (List.mem_append_right _ (List.mem_map.mpr ⟨pair, ?_, rfl⟩))
      exact List.mem_filter.mpr ⟨hmem, Text.not_isIn.mpr habsent⟩

/-- All missing blobs are visited. -/
theorem visits {limit fuel : Nat}
    (hfuel : store.repoBlobRef.length + store.spaceBlobRef.length ≤ fuel) :
  VisitsAll store.Missing (readPages BlobRefRow.blobCid (store.listMissingRefs limit) fuel none)
  := by
  have hshort : (afterOption BlobRefRow.blobCid none (groupRows store.absentRefs)).length ≤
      fuel := by
    refine le_trans ?_ hfuel
    show (groupRows store.absentRefs).length ≤ _
    have hlength : (groupRows store.absentRefs).length ≤ store.absentRefs.length := by
      rw [groupRows, List.length_map, groupedCids, List.length_insertionSort]
      exact (List.dedup_sublist _).length_le.trans (List.length_map _).le
    refine hlength.trans ((List.dedup_sublist _).length_le.trans ?_)
    rw [List.length_append, List.length_map]
    exact Nat.add_le_add List.filter_sublist.length_le List.filter_sublist.length_le
  have hread : ∀ cursor, store.listMissingRefs limit cursor =
      (afterOption BlobRefRow.blobCid cursor (groupRows store.absentRefs)).take
        (clampLimit limit) := by
    intro cursor
    rw [listMissingRefs, groupRows_afterOption]
  rw [groupRows_ordered.readPages_eq clampLimit_pos hread hshort]
  refine ⟨groupRows_ordered, ?_⟩
  intro cid
  have hmap : (groupRows store.absentRefs).map BlobRefRow.blobCid = groupedCids store.absentRefs := by
    rw [groupRows, List.map_map]
    exact List.map_id _
  rw [← mem_absentRefs, ← mem_groupedCids, ← hmap]
  exact Iff.rfl

end SqlBlobs

/-- In SQL following the cursors visits all missing blobs.  In fjall it does exactly when the first
references to the missing blobs stand in the order of the pages that the blobs belong on. -/
theorem missing_refs_iff (sql : SqlBlobs) (fjall : FjallBlobs) (limit : Nat) {fuel : Nat}
    (hsql : sql.repoBlobRef.length + sql.spaceBlobRef.length ≤ fuel)
    (hfjall : fjall.repoBlobRef.length ≤ fuel) :
  VisitsAll sql.Missing (readPages BlobRefRow.blobCid (sql.listMissingRefs limit) fuel none) ∧
    (VisitsAll fjall.Missing
        (readPages BlobRefRow.blobCid (fjall.listMissingRefs limit) fuel none) ↔
      InPageOrder BlobRefRow.blobCid (clampLimit limit) fjall.missingRows)
  := ⟨SqlBlobs.visits hsql, FjallBlobs.visits_iff hfjall⟩

/-- A reference of a record with a short name to a blob with one. -/
def sampleRef (recordUri blobCid : String) : BlobRefRow :=
  ⟨textOf recordUri, textOf blobCid, textOf "image/png", 1⟩

/-- Two records, which refer to two blobs in the order of their CIDs. -/
def ascendingRefs : FjallBlobs where
  repoBlobRef := [sampleRef "at://a/1" "bafa", sampleRef "at://a/2" "bafb"]
  repoBlob := []
  ordered := List.pairwise_pair.mpr (Prod.Lex.toLex_lt_toLex.mpr (Or.inl (by decide)))

/-- Two records, which refer to two blobs against the order of their CIDs. -/
def descendingRefs : FjallBlobs where
  repoBlobRef := [sampleRef "at://a/1" "bafb", sampleRef "at://a/2" "bafa"]
  repoBlob := []
  ordered := List.pairwise_pair.mpr (Prod.Lex.toLex_lt_toLex.mpr (Or.inl (by decide)))

/-- One reference from a space. -/
def spaceRefs : SqlBlobs where
  repoBlobRef := []
  spaceBlobRef := [(textOf "at://a/space/1", textOf "bafa")]
  repoBlob := []

theorem missing_refs_ascending :
  VisitsAll spaceRefs.Missing
      (readPages BlobRefRow.blobCid (spaceRefs.listMissingRefs 1) 2 none) ∧
    VisitsAll ascendingRefs.Missing
      (readPages BlobRefRow.blobCid (ascendingRefs.listMissingRefs 1) 2 none)
  := by
  obtain ⟨hsql, hfjall⟩ := @missing_refs_iff spaceRefs ascendingRefs 1 2 (by decide) (by decide)
  refine ⟨hsql, hfjall.mpr ?_⟩
  show List.Pairwise _ [sampleRef "at://a/1" "bafa", sampleRef "at://a/2" "bafb"]
  exact List.pairwise_pair.mpr (by decide)

/-- After the first page, which has the greater CID, nothing is left. -/
theorem missing_refs_descending :
  (readPages BlobRefRow.blobCid (descendingRefs.listMissingRefs 1) 2 none).map BlobRefRow.blobCid =
      [textOf "bafb"] ∧
    descendingRefs.Missing (textOf "bafa") ∧
    ¬ VisitsAll descendingRefs.Missing
      (readPages BlobRefRow.blobCid (descendingRefs.listMissingRefs 1) 2 none)
  := by
  have hread : (readPages BlobRefRow.blobCid (descendingRefs.listMissingRefs 1) 2 none).map
      BlobRefRow.blobCid = [textOf "bafb"] := by decide
  have hmissing : descendingRefs.Missing (textOf "bafa") :=
    ⟨⟨sampleRef "at://a/2" "bafa", List.mem_cons_of_mem _ List.mem_cons_self, rfl⟩,
      List.not_mem_nil⟩
  refine ⟨hread, hmissing, ?_⟩
  rintro ⟨-, hall⟩
  have hmem := (hall (textOf "bafa")).mpr hmissing
  rw [hread] at hmem
  exact absurd (List.mem_singleton.mp hmem) (by decide)

end Atproto.Pds.MissingBlobs
