import Atproto.Space.Listing

/-!
# Reading the records of a space

The records of a space are listed in one collection or across all of them, and the ones that were
taken down are left out of each page that was read.
-/

namespace Atproto.Pds

open Atproto.Dasl Atproto.Repo Atproto.Space Logic Logic.Machine SearchTree

/-- The collections and record keys that were taken down. -/
abbrev Takedowns : Type := List (Text × Text)

/-- The record keys of a collection that were taken down. -/
def takenDownRkeys (takedowns : Takedowns) (collection : Text) : List Text :=
  (takedowns.filter fun takedown => takedown.1 = collection).map Prod.snd

/-- The record of a collection is not taken down. -/
def isShown (takedowns : Takedowns) (collection : Text) (row : Space.RecordRow) : Bool :=
  !(takenDownRkeys takedowns collection).contains row.rkey

/-- What separates the collection from the record key in a cursor. -/
def separator : Text where
  bytes := [1]
  utf8 := by decide

/-- The cursor of a listing across collections. -/
def crossCursor (collection rkey : Text) : Text := collection ++ separator ++ rkey

/-- The collection and the record key of a cursor.  Without a separator it names a collection. -/
def splitCrossCursor (cursor : Option Text) : Option Text × Option Text :=
  match cursor with
  | none => (none, none)
  | some raw =>
    match raw.splitOnce 1 (by decide) with
    | some (collection, rkey) => (some collection, some rkey)
    | none => (some raw, none)

/-- What to list. -/
structure RecordListing where
  collection : Option Text
  cursor : Option Text
  limit : Nat
  reverse : Bool

/-- The records gathered so far, and the collection and the record key of the last one. -/
structure Gathering where
  allRecords : List Space.RecordRow
  lastKey : Option (Text × Text)

/-- Whether a collection comes before the one that the listing goes on in. -/
def isDelivered (resumeCollection : Option Text) (collection : Text) : Bool :=
  match resumeCollection with
  | some start => collection < start
  | none => false

/-- Where the listing of a collection starts.  Only the one that the cursor is in goes on from a
record key. -/
def within (resume : Option Text × Option Text) (collection : Text) : Option Text :=
  match resume.1 with
  | some start => if collection = start then resume.2 else none
  | none => none

/-- List collections one after another until there are enough records. -/
def listAcross (store : SpaceStore) (takedowns : Takedowns) (limit : Nat) (reverse : Bool)
    (resume : Option Text × Option Text) : List Text → Gathering → Gathering
  | [], gathering => gathering
  | collection :: collections, gathering =>
    if isDelivered resume.1 collection then
      listAcross store takedowns limit reverse resume collections gathering
    else
      let remaining := limit - gathering.allRecords.length
      if remaining = 0 then gathering
      else
        let page := store.listRecords collection (within resume collection) remaining reverse
        let records := page.records.filter (isShown takedowns collection)
        let lastKey :=
          match records.getLast? with
          | some last => some (collection, last.rkey)
          | none => gathering.lastKey
        listAcross store takedowns limit reverse resume collections
          ⟨gathering.allRecords ++ records, lastKey⟩

/-- A page of the records of a space. -/
def listRecords (store : SpaceStore) (takedowns : Takedowns) (listing : RecordListing) :
    RecordPage :=
  match listing.collection with
  | some collection =>
    let page := store.listRecords collection listing.cursor listing.limit listing.reverse
    { page with records := page.records.filter (isShown takedowns collection) }
  | none =>
    let gathering := listAcross store takedowns listing.limit listing.reverse
      (splitCrossCursor listing.cursor) store.listCollections ⟨[], none⟩
    { records := gathering.allRecords
      cursor :=
        if listing.limit ≤ gathering.allRecords.length then
          gathering.lastKey.map fun key => crossCursor key.1 key.2
        else none }

/-- The pages across all collections. -/
def pagesAcross (store : SpaceStore) (takedowns : Takedowns) (limit : Nat) (reverse : Bool)
    (cursor : Option Text) : List Space.RecordRow × Option Text :=
  let page := listRecords store takedowns ⟨none, cursor, limit, reverse⟩
  (page.records, page.cursor)

/-- The collections with their records in the direction of the listing. -/
def groups (store : SpaceStore) (reverse : Bool) : List (Text × List Space.RecordRow) :=
  store.listCollections.map fun collection => (collection, store.rowsIn reverse collection)

/-- All records that are not taken down, in the order of the listing. -/
def visible (store : SpaceStore) (takedowns : Takedowns) (reverse : Bool) : List Space.RecordRow :=
  store.listCollections.flatMap fun collection =>
    (store.rowsIn reverse collection).filter (isShown takedowns collection)

/-! ### The pages as pages of groups -/

section Pages

variable {store : SpaceStore} {takedowns : Takedowns} {reverse : Bool} {limit : Nat}

/-- The collection that a cursor leads to, and the record key in it. -/
def resumeAt (raw : Text) : Text × Option Text :=
  match raw.splitOnce 1 (by decide) with
  | some (collection, rkey) => (collection, some rkey)
  | none => (raw, none)

theorem splitCrossCursor_some (raw : Text) :
  splitCrossCursor (some raw) = (some (resumeAt raw).1, (resumeAt raw).2)
  := by
  rw [splitCrossCursor, resumeAt]
  cases raw.splitOnce 1 (by decide) with
  | none => rfl
  | some pair => rfl

/-- The groups that are left after a cursor was split. -/
def leftOf (reverse : Bool) (resume : Option Text × Option Text)
    (groups : List (Text × List Space.RecordRow)) : List (Text × List Space.RecordRow) :=
  match resume.1 with
  | none => groups
  | some start => startAt (skipRows reverse) (start, resume.2) groups

theorem leftOf_nil (resume : Option Text × Option Text) :
  leftOf reverse resume [] = []
  := by
  rw [leftOf]
  cases resume.1 with
  | none => rfl
  | some start => rfl

/-- A collection that was delivered is left out, and another one from the cursor on is left. -/
theorem leftOf_cons (resume : Option Text × Option Text) (collection : Text)
    (rows : List Space.RecordRow) (groups : List (Text × List Space.RecordRow)) :
  leftOf reverse resume ((collection, rows) :: groups) =
    if isDelivered resume.1 collection then leftOf reverse resume groups
    else (collection, skipOption (skipRows reverse) (within resume collection) rows) ::
      leftOf reverse resume groups
  := by
  obtain ⟨start, rkey⟩ := resume
  cases start with
  | none => rfl
  | some start =>
    have hcons : leftOf reverse (some start, rkey) ((collection, rows) :: groups) =
        startAt (skipRows reverse) (start, rkey) [(collection, rows)] ++
          startAt (skipRows reverse) (start, rkey) groups :=
      startAt_append_groups (start, rkey) [(collection, rows)] groups
    rw [hcons]
    by_cases hlt : collection < start
    · have hdelivered : isDelivered (some start) collection = true := decide_eq_true hlt
      rw [hdelivered, if_pos rfl, startAt_below]
      · rfl
      · intro group hgroup
        rw [List.mem_singleton.mp hgroup]
        exact hlt
    · have hdelivered : isDelivered (some start) collection = false := decide_eq_false hlt
      rw [hdelivered, if_neg Bool.false_ne_true]
      by_cases heq : collection = start
      · have hwithin : within (some start, rkey) collection = rkey := if_pos heq
        rw [hwithin, heq, startAt_self]
        rfl
      · have hwithin : within (some start, rkey) collection = none := if_neg heq
        have habove : ∀ group ∈ [(collection, rows)], start < group.1 := by
          intro group hgroup
          rw [List.mem_singleton.mp hgroup]
          exact lt_of_le_of_ne (not_lt.mp hlt) (Ne.symm heq)
        rw [hwithin, startAt_above habove]
        rfl

/-- The listing gathers the page of the groups that are left. -/
theorem listAcross_eq (hmax : limit ≤ 100) (resume : Option Text × Option Text)
    (collections : List Text) (gathering : Gathering) :
  listAcross store takedowns limit reverse resume collections gathering =
    let page := gather (isShown takedowns) (limit - gathering.allRecords.length)
      (leftOf reverse resume
        (collections.map fun collection => (collection, store.rowsIn reverse collection)))
    ⟨gathering.allRecords ++ page.map Prod.snd,
      (page.getLast?.map fun x => (x.1, x.2.rkey)).or gathering.lastKey⟩
  := by
  induction collections generalizing gathering with
  | nil =>
    rw [List.map_nil, leftOf_nil, listAcross]
    dsimp only
    rw [gather]
    rw [List.map_nil, List.append_nil]
    rfl
  | cons collection collections ih =>
    rw [List.map_cons, leftOf_cons, listAcross]
    split
    · exact ih gathering
    · dsimp only
      split
      · rename_i hzero
        rw [hzero, gather_zero, List.map_nil, List.append_nil]
        rfl
      · rename_i hroom
        rw [ih, gather_cons hroom, listRecords_records (by omega) (by omega)]
        dsimp only
        rw [List.length_append, ← Nat.sub_sub]
        generalize hrecords : List.filter _ _ = records
        generalize gather _ _ _ = page
        have hback : (records.map fun x => (collection, x)).map Prod.snd = records := by
          rw [List.map_map]
          exact List.map_id _
        congr 1
        · rw [List.map_append, hback, List.append_assoc]
        · rw [List.getLast?_append, List.getLast?_map]
          cases page.getLast? with
          | some last => rfl
          | none =>
            cases records.getLast? with
            | some last => rfl
            | none => rfl

/-- The pages across all collections are pages of groups. -/
theorem pagesAcross_eq (hmax : limit ≤ 100) :
  pagesAcross store takedowns limit reverse =
    mapPages Prod.snd (readGroups (isShown takedowns) Space.RecordRow.rkey (skipRows reverse)
      crossCursor resumeAt (groups store reverse) limit)
  := by
  funext cursor
  have hleft : leftOf reverse (splitCrossCursor cursor) (groups store reverse) =
      groupsAfter (skipRows reverse) resumeAt (groups store reverse) cursor := by
    cases cursor with
    | none => rfl
    | some raw =>
      rw [splitCrossCursor_some]
      rfl
  rw [pagesAcross, listRecords]
  dsimp only
  rw [listAcross_eq hmax, mapPages, readGroups, ← hleft]
  simp only [List.length_nil, Nat.sub_zero, List.nil_append, List.length_map, Option.or_none,
    Option.map_map]
  rfl

/-- When the name of a collection has a separator in it, a cursor leads to an earlier one. -/
theorem resumeAt_lt {collection : Text} (hmem : (1 : UInt8) ∈ collection.bytes) (rkey : Text) :
  (resumeAt (crossCursor collection rkey)).1 < collection
  := by
  have hascii : (1 : UInt8).toNat < 0x80 := by decide
  obtain ⟨before, after, hcollection, hbefore⟩ := Text.exists_split hascii hmem
  have hbytes : (crossCursor collection rkey).bytes =
      before.bytes ++ 1 :: (after ++ separator ++ rkey).bytes := by
    rw [crossCursor, Text.bytes_append, Text.bytes_append, hcollection, Text.bytes_append,
      Text.bytes_append, List.append_assoc, List.append_assoc, List.append_assoc]
    rfl
  rw [resumeAt, Text.splitOnce_eq_some hbytes hbefore]
  exact Text.lt_of_bytes hcollection

/-- A cursor leads back to its collection, or to an earlier one when the name of the collection has
a separator in it. -/
theorem resumes_iff {collection : Text} :
  Resumes crossCursor resumeAt collection ↔ (1 : UInt8) ∉ collection.bytes
  := by
  constructor
  · intro hresumes hmem
    have hlt := resumeAt_lt hmem Text.empty
    rw [hresumes Text.empty] at hlt
    exact lt_irrefl _ hlt
  · intro hmem rkey
    have hbytes : (crossCursor collection rkey).bytes = collection.bytes ++ 1 :: rkey.bytes := by
      rw [crossCursor, Text.bytes_append, Text.bytes_append, List.append_assoc]
      rfl
    rw [resumeAt, Text.splitOnce_eq_some hbytes hmem]

theorem listing_groups :
  (listing (isShown takedowns) (groups store reverse)).map Prod.snd =
    visible store takedowns reverse
  := by
  rw [listing, groups, visible, List.flatMap_map, List.map_flatMap]
  apply List.flatMap_congr
  intro collection _
  rw [List.map_map]
  exact List.map_id _

/-- What is left of a group after a cursor are rows of its collection. -/
theorem mem_groupsAfter {cursor : Option Text} {collection : Text} {rows : List Space.RecordRow}
    (h : (collection, rows) ∈ groupsAfter (skipRows reverse) resumeAt (groups store reverse) cursor)
    {row : Space.RecordRow} (hrow : row ∈ rows) :
  row.collection = collection
  := by
  have hgroup : ∀ group ∈ groups store reverse, ∀ row ∈ group.2, row.collection = group.1 := by
    intro group hgroup row hrow
    obtain ⟨collection, -, rfl⟩ := List.mem_map.mp hgroup
    exact (mem_rowsIn.mp hrow).2
  cases cursor with
  | none => exact hgroup _ h row hrow
  | some raw =>
    obtain ⟨group, hmem, heq⟩ := List.mem_map.mp h
    have hmem := List.mem_of_mem_filter hmem
    split at heq
    · obtain ⟨rfl, rfl⟩ := Prod.ext_iff.mp heq
      apply hgroup group hmem row
      dsimp only at hrow
      cases hskip : (resumeAt raw).2 with
      | none =>
        rw [hskip] at hrow
        exact hrow
      | some start =>
        rw [hskip] at hrow
        exact List.mem_of_mem_filter hrow
    · subst heq
      exact hgroup _ hmem row hrow

/-- A reader that follows the cursors gets all records that are not taken down, each once and in
order, exactly when in no collection a record that is taken down comes before one that is not and is
on a later page, and no page ends in a collection with a separator in its name. -/
theorem follows_visible_iff (hsorted : Sorted store.records) (hkeyed : Keyed store.records)
    (hpos : 0 < limit) (hmax : limit ≤ 100) :
  Follows (pagesAcross store takedowns limit reverse) none (visible store takedowns reverse) ↔
    Kept (isShown takedowns) limit 0 (groups store reverse) ∧
      ∀ i row, (visible store takedowns reverse)[i]? = some row → limit ∣ i + 1 →
        (1 : UInt8) ∉ row.collection.bytes
  := by
  let own : Space.RecordRow → Text × Space.RecordRow := fun row => (row.collection, row)
  have hpages : ∀ cursor, ∀ x ∈ (readGroups (isShown takedowns) Space.RecordRow.rkey
      (skipRows reverse) crossCursor resumeAt (groups store reverse) limit cursor).1,
      own x.2 = x := by
    intro cursor x hx
    obtain ⟨rows, hgroup, hrow⟩ := gather_mem hx
    exact Prod.ext (mem_groupsAfter hgroup hrow) rfl
  have helements : ∀ x ∈ listing (isShown takedowns) (groups store reverse), own x.2 = x := by
    intro x hx
    obtain ⟨rows, hgroup, hrow, -⟩ := mem_listing.mp hx
    exact Prod.ext (@mem_groupsAfter store reverse none _ _ hgroup _ hrow) rfl
  have hordered : Ordered Prod.fst (groups store reverse) :=
    List.pairwise_map.mpr (listCollections_ordered hsorted hkeyed)
  have hrows : ∀ group ∈ groups store reverse,
      Unrepeated Space.RecordRow.rkey (skipRows reverse) group.2 := by
    intro group hgroup
    obtain ⟨collection, -, rfl⟩ := List.mem_map.mp hgroup
    exact rowsIn_unrepeated hsorted hkeyed
  have hresume : ∀ collection, Resumes crossCursor resumeAt collection ∨
      ∀ rkey, (resumeAt (crossCursor collection rkey)).1 < collection := by
    intro collection
    by_cases hmem : (1 : UInt8) ∈ collection.bytes
    · exact .inr (resumeAt_lt hmem)
    · exact .inl (resumes_iff.mpr hmem)
  rw [pagesAcross_eq hmax, ← listing_groups, follows_map_iff hpages helements,
    follows_listing_iff hpos hordered hrows hresume]
  apply and_congr_right
  intro _
  constructor
  · intro h i row hrow hdvd
    rw [List.getElem?_map] at hrow
    obtain ⟨x, hx, rfl⟩ := Option.map_eq_some_iff.mp hrow
    have hcollection : x.2.collection = x.1 :=
      congrArg Prod.fst (helements x (List.mem_of_getElem? hx))
    rw [hcollection]
    exact resumes_iff.mp (h i x hx hdvd)
  · intro h i x hx hdvd
    have hcollection : x.2.collection = x.1 :=
      congrArg Prod.fst (helements x (List.mem_of_getElem? hx))
    rw [← hcollection]
    apply resumes_iff.mpr
    apply h i x.2 _ hdvd
    rw [List.getElem?_map, hx]
    rfl

end Pages

/-! ### The repository of a space after any run of commits -/

/-- The records of a space after a run of commits. -/
def repoAfter (blake3 : Bytes → Fin stateLength → UInt8) (inputs : List Space.Input) :
    SpaceStore :=
  (run (Space.step blake3 .sql) Space.start inputs).store

/-- Two records of one collection are created. -/
def twoRecords : List Space.Input :=
  let record : Text → Op := fun rkey =>
    ⟨.create, textOf "c", rkey, some (textOf "v"), some []⟩
  [.commit [record (textOf "a"), record (textOf "b")] 1 1 Text.empty true]

/-- The first of them is taken down. -/
def firstTakenDown : Takedowns := [(textOf "c", textOf "a")]

/-- In every space repository, the pages across all collections give each record that is not taken
down once and in order exactly when in no collection a record that is taken down comes before one
that is not and is on a later page, and no page ends in a collection with a separator in its
name. -/
theorem listRecords_complete_iff (blake3 : Bytes → Fin stateLength → UInt8)
    (inputs : List Space.Input) (takedowns : Takedowns) {limit : Nat} (hpos : 1 ≤ limit)
    (hmax : limit ≤ 100) (reverse : Bool) :
  Follows (pagesAcross (repoAfter blake3 inputs) takedowns limit reverse) none
      (visible (repoAfter blake3 inputs) takedowns reverse) ↔
    Kept (isShown takedowns) limit 0 (groups (repoAfter blake3 inputs) reverse) ∧
      ∀ i row, (visible (repoAfter blake3 inputs) takedowns reverse)[i]? = some row →
        limit ∣ i + 1 → (1 : UInt8) ∉ row.collection.bytes
  := by
  have hcommitted : Committed blake3 (repoAfter blake3 inputs) := committed_run .sql inputs
  exact follows_visible_iff hcommitted.sorted hcommitted.keyed hpos hmax

theorem listRecords_complete_sample :
  1 ≤ 1 ∧ 1 ≤ 100 ∧
    (Follows (pagesAcross (repoAfter (fun _ _ => 0) twoRecords) firstTakenDown 1 true) none
      (visible (repoAfter (fun _ _ => 0) twoRecords) firstTakenDown true) ↔
    Kept (isShown firstTakenDown) 1 0 (groups (repoAfter (fun _ _ => 0) twoRecords) true) ∧
      ∀ i row, (visible (repoAfter (fun _ _ => 0) twoRecords) firstTakenDown true)[i]? = some row →
        1 ∣ i + 1 → (1 : UInt8) ∉ row.collection.bytes)
  := ⟨le_rfl, by decide,
    listRecords_complete_iff (fun _ _ => 0) twoRecords firstTakenDown le_rfl (by decide) true⟩

/-- The first one is taken down, and the second one is never listed. -/
theorem listRecords_loses :
  ¬ Follows (pagesAcross (repoAfter (fun _ _ => 0) twoRecords) firstTakenDown 1 false) none
    (visible (repoAfter (fun _ _ => 0) twoRecords) firstTakenDown false)
  := by
  have hcursor : (pagesAcross (repoAfter (fun _ _ => 0) twoRecords) firstTakenDown 1 false
      none).2 = none := by
    decide +kernel
  have hlength : (visible (repoAfter (fun _ _ => 0) twoRecords) firstTakenDown false).length ≠
      (pagesAcross (repoAfter (fun _ _ => 0) twoRecords) firstTakenDown 1 false none).1.length := by
    decide +kernel
  intro h
  exact hlength (congrArg List.length ((follows_of_none hcursor).mp h))

end Atproto.Pds
