import Atproto.Pds.BlobRefs
import Atproto.Pds.Lockstep
import Atproto.Pds.MissingBlobs

/-!
# Public blobs

A blob is public when a current public record names it.  The references of records are written
through the storage of the account, and whether a blob is public is asked of the SQL tables.  In SQL
the answer is right as long as the index and the tree are in step.  In fjall nothing is written to
those tables, and no blob is public.
-/

namespace Atproto.Pds.PublicBlobs

open Atproto.Dasl Atproto.Repo Logic Logic.Machine SearchTree

/-! ### What is stored -/

/-- A reference of a space record to a blob. -/
structure SpaceBlobRow where
  space : Text
  recordUri : Text
  blobCid : Text
  rev : Text

/-- The CIDs of the blobs that are stored, in their order. -/
structure BlobTable where
  cids : List Text
  ordered : Ordered id cids

/-- No blobs. -/
def BlobTable.empty : BlobTable := ⟨[], List.Pairwise.nil⟩

/-- Store a blob, unless it is there. -/
def BlobTable.putBlob (cid : Text) (table : BlobTable) : BlobTable where
  cids := put id cid table.cids
  ordered := table.ordered.put cid

/-- What is stored for an account. -/
structure Media (ctx : Context) where
  repo : State ctx
  blobRefs : BlobRefs
  repoBlob : BlobTable
  spaceBlobRef : List SpaceBlobRow

variable {ctx : Context} {account : Account}

/-! ### Writes -/

/-- The references that a space record is written with. -/
def spaceRefs (space rev recordUri : Text) : Option Json → List SpaceBlobRow
  | none => []
  | some value => (walkBlobRefs value).map fun blob => ⟨space, recordUri, blob.link, rev⟩

/-- Add a reference of a space record, unless it is there. -/
def addSpaceRef (row : SpaceBlobRow) (rows : List SpaceBlobRow) : List SpaceBlobRow :=
  if rows.any fun other => other.space = row.space ∧ other.recordUri = row.recordUri ∧
      other.blobCid = row.blobCid
  then rows
  else rows ++ [row]

/-- Keep the references of space records after a batch; a deleted record comes without a value. -/
def maintainSpaceRefs (space rev : Text) (work : List (Text × Option Json))
    (rows : List SpaceBlobRow) : List SpaceBlobRow :=
  work.foldl (fun rows item =>
    (spaceRefs space rev item.1 item.2).foldl (fun rows row => addSpaceRef row rows)
      (rows.filter fun row => row.recordUri ≠ item.1)) rows

/-- What happens to an account: something happens to the repository, space records are written, or
a blob is uploaded. -/
inductive MediaInput where
  | repo (input : Input)
  | space (space rev : Text) (work : List (Text × Option Json))
  | upload (cid : Text)

/-- The operations of a batch as they are written. -/
def preparedOps : Input → List WriteOp
  | .write ops _ _ => (prepareOps ops).toOption.getD []
  | .issue _ _ => []
  | .restart => []

/-- What is stored after an input.  The references are kept once the batch has been stored. -/
def mediaStep (account : Account) (media : Media ctx) : MediaInput → Media ctx
  | .repo input =>
    { media with
      repo := step account media.repo input
      blobRefs :=
        if (stepOut account media.repo input).2.isSome then
          maintainBlobRefs account.did (preparedOps input) media.blobRefs
        else media.blobRefs }
  | .space space rev work =>
    { media with spaceBlobRef := maintainSpaceRefs space rev work media.spaceBlobRef }
  | .upload cid => { media with repoBlob := media.repoBlob.putBlob cid }

/-! ### The question -/

/-- The SQL table of references. -/
def sqlRefs : BlobRefs → List ((Text × Text) × BlobColumns)
  | .sql repoBlobRef => repoBlobRef
  | .fjall _ => []

/-- The SQL table of records. -/
def sqlRecords : RepoRecordStorage → Text × Text → Option RecordRow
  | .sql repoRecord => repoRecord
  | .fjall _ _ => fun _ => none

/-- In the SQL tables, a record that has a row refers to the blob. -/
def Media.IsPubliclyReferenced (media : Media ctx) (cid : Text) : Prop :=
  ∃ reference ∈ sqlRefs media.blobRefs, reference.1.2 = cid ∧
    ∃ record row, sqlRecords media.repo.storage.records record = some row ∧
      row.uri = reference.1.1

/-- A page of stored blobs. -/
def listAllCids (table : BlobTable) (limit : Nat) (cursor : Option Text) : List Text :=
  (afterOption id cursor table.cids).take (MissingBlobs.clampLimit limit)

/-- A page of public blobs, the cursor of the next page, and how many blobs were scanned. -/
structure PublicBlobPage where
  cids : List Text
  cursor : Option Text
  scanned : Nat

section Pages

variable (media : Media ctx) [DecidablePred media.IsPubliclyReferenced]

/-- A page of public blobs: the stored ones are scanned, and the others are left out. -/
def listPublic (limit : Nat) (cursor : Option Text) : PublicBlobPage :=
  let all := listAllCids media.repoBlob limit cursor
  { cids := all.filter fun cid => media.IsPubliclyReferenced cid
    cursor := all.getLast?
    scanned := all.length }

/-- Follow the cursor until nothing is scanned. -/
def readPublic (limit : Nat) : Nat → Option Text → List Text
  | 0, _ => []
  | fuel + 1, cursor =>
    match (listPublic media limit cursor).cursor with
    | none => []
    | some next => (listPublic media limit cursor).cids ++ readPublic limit fuel (some next)

theorem readPublic_eq_filter (limit fuel : Nat) (cursor : Option Text) :
  readPublic media limit fuel cursor =
    (readPages id (listAllCids media.repoBlob limit) fuel cursor).filter fun cid =>
      media.IsPubliclyReferenced cid
  := by
  induction fuel generalizing cursor with
  | zero => rfl
  | succ fuel ih =>
    rw [readPublic, readPages]
    have hcursor : (listPublic media limit cursor).cursor =
      (listAllCids media.repoBlob limit cursor).getLast? := rfl
    rw [hcursor]
    cases (listAllCids media.repoBlob limit cursor).getLast? with
    | none => rfl
    | some next =>
      dsimp only
      rw [ih, List.filter_append]
      rfl

/-- The pages are the public ones of the stored blobs. -/
theorem readPublic_eq {limit fuel : Nat} (hfuel : media.repoBlob.cids.length ≤ fuel) :
  readPublic media limit fuel none =
    media.repoBlob.cids.filter fun cid => media.IsPubliclyReferenced cid
  := by
  rw [readPublic_eq_filter]
  congr 1
  exact media.repoBlob.ordered.readPages_eq MissingBlobs.clampLimit_pos (fun _ => rfl) hfuel

end Pages

/-! ### The current records -/

/-- The values of the current public records. -/
abbrev Values := Text × Text → Option Json

/-- The value that an operation leaves. -/
def written (op : WriteOp) : Option Json := if op.action = .delete then none else op.value

/-- The update of the values that an operation makes. -/
def writtenUpdate (op : WriteOp) : (Text × Text) × Option Json := (op.record, written op)

/-- The values after some operations. -/
def writtenAll (ops : List WriteOp) (values : Values) : Values :=
  updateAll (ops.map writtenUpdate) values

/-- The value has the envelope of a blob with the CID. -/
def NamesBlob (value : Json) (cid : Text) : Prop := ∃ blob ∈ walkBlobRefs value, blob.link = cid

/-- A current record names the blob. -/
def Named (values : Values) (cid : Text) : Prop :=
  ∃ record value, values record = some value ∧ NamesBlob value cid

/-- What is stored for an account, and the values of its public records. -/
structure History (ctx : Context) where
  media : Media ctx
  values : Values

/-- The values after an input. -/
def valuesAfter (account : Account) (history : History ctx) : MediaInput → Values
  | .repo input =>
    if (stepOut account history.media.repo input).2.isSome then
      writtenAll (preparedOps input) history.values
    else history.values
  | .space _ _ _ => history.values
  | .upload _ => history.values

/-- The history after an input. -/
def History.step (account : Account) (history : History ctx) (input : MediaInput) : History ctx where
  media := mediaStep account history.media input
  values := valuesAfter account history input

/-- Nothing has been written. -/
def History.start (backend : Backend) : History ctx where
  media := ⟨.start backend, .empty backend, .empty, []⟩
  values _ := none

/-- In SQL the new commit is above all stored ones and the last operation on each record that the
batch deletes is a deletion.  In fjall no value that is written names a blob. -/
def CarefulBatch (repo : State ctx) (input : Input) : Backend → Prop
  | .sql => Orderly repo input
  | .fjall => ∀ op ∈ preparedOps input, op.blobs = []

/-- The batches of public records are careful. -/
def Careful (backend : Backend) (history : History ctx) : MediaInput → Prop
  | .repo input => CarefulBatch history.media.repo input backend
  | .space _ _ _ => True
  | .upload _ => True

/-! ### Accepted operations -/

/-- Each creation is of a record without a value, and only deletions leave none. -/
def Fits : List WriteOp → Values → Prop
  | [], _ => True
  | op :: ops, values =>
    (op.action = .create → values op.record = none) ∧ (written op = none ↔ op.action = .delete) ∧
      Fits ops (writtenAll [op] values)

variable {U : Key × Cid → Prop} {op : WriteOp} {ops : List WriteOp} {draft draft' : Draft ctx}
  {xs : List (Key × Cid)} {values : Values}

/-- A write that is accepted has a value, and a creation finds no record. -/
theorem applyWrite_fits (hctx : ctx.Sound) (hU : Short U) (h : draft.mst.Stands U xs)
    (happly : applyWrite account op draft = (.ok (), draft')) :
  op.value ≠ none ∧ (op.action = .create → lookup op.mstKey xs = none)
  := by
  obtain ⟨value, bytes, prior, mst, diff, hvalue, -, hfound, hfresh, -, -⟩ :=
    applyWrite_eq_ok happly
  have hstands := h.grow (draft.mst.storage.le_put hctx.hash bytes)
  have hlookup := hstands.get_ok hctx hU hfound
  constructor
  · intro hnone
    rw [hnone] at hvalue
    cases hvalue
  · intro hcreate
    rw [← hlookup]
    by_contra hsome
    exact hfresh ⟨hcreate, Option.ne_none_iff_isSome.mp hsome⟩

theorem applyOp_fits (hctx : ctx.Sound) (hU : Short U) (h : draft.mst.Stands U xs)
    (happly : applyOp account op draft = (.ok (), draft')) :
  (op.action = .create → lookup op.mstKey xs = none) ∧ (written op = none ↔ op.action = .delete)
  := by
  rw [applyOp] at happly
  rw [written]
  cases haction : op.action with
  | create =>
    rw [haction] at happly
    obtain ⟨hvalue, hfresh⟩ := applyWrite_fits hctx hU h happly
    refine ⟨fun _ => hfresh haction, ?_⟩
    rw [if_neg (by decide)]
    exact iff_of_false hvalue (by decide)
  | update =>
    rw [haction] at happly
    obtain ⟨hvalue, -⟩ := applyWrite_fits hctx hU h happly
    refine ⟨fun hcreate => absurd hcreate (by decide), ?_⟩
    rw [if_neg (by decide)]
    exact iff_of_false hvalue (by decide)
  | delete =>
    refine ⟨fun hcreate => absurd hcreate (by decide), ?_⟩
    rw [if_pos rfl]
    exact iff_of_true rfl rfl

/-- The records with a value are those of the list. -/
def Tells (xs : List (Key × Cid)) (values : Values) : Prop :=
  ∀ record, PlainRecord record →
    (lookup (mstKey record.1 record.2) xs = none ↔ values record = none)

theorem Tells.applied (h : Tells xs values) (hop : PlainRecord op.record) {change : Change}
    (hchange : Applied U op draft xs change draft')
    (hwritten : written op = none ↔ op.action = .delete) :
  Tells (change.operation.edit xs) (writtenAll [op] values)
  := by
  intro record hrecord
  have hrecordEq : change.record = op.record := hchange.record
  have hkey : change.key = mstKey op.record.1 op.record.2 := by
    rw [Change.key, hrecordEq]
  have hvalues : writtenAll [op] values = Function.update values op.record (written op) := rfl
  rw [Operation.lookup_edit, Operation.update, change.target_operation, change.value?_operation, hkey, hvalues,
    Function.update_apply, Function.update_apply]
  by_cases heq : record = op.record
  · subst heq
    rw [if_pos rfl, if_pos rfl]
    exact hchange.action.trans hwritten.symm
  · rw [if_neg heq, if_neg fun hkeys => heq (mstKey_inj hrecord.1.1 hop.1.1 hkeys)]
    exact h record hrecord

/-- Accepted operations fit the values of the tree that they are applied to. -/
theorem fits_of_applyOps (hctx : ctx.Sound) (hU : Short U)
    (hops : ∀ op ∈ ops, op.Named) (hkeys : ∀ op ∈ ops, ∀ cid, U (op.mstKey, cid))
    (h : draft.mst.Stands U xs) (htells : Tells xs values)
    (happly : applyOps account ops draft = (.ok (), draft')) :
  Fits ops values
  := by
  induction ops generalizing draft xs values with
  | nil => trivial
  | cons op ops ih =>
    obtain ⟨⟨⟩, mid, hop, hrest⟩ := Action.bind_eq_ok.mp happly
    obtain ⟨hnamed, hops⟩ := List.forall_mem_cons.mp hops
    obtain ⟨hkey, hkeys⟩ := List.forall_mem_cons.mp hkeys
    obtain ⟨change, hchange⟩ := applyOp_applied hctx hU hkey h hop
    obtain ⟨hfresh, hwritten⟩ := applyOp_fits hctx hU h hop
    refine ⟨fun hcreate => ?_, hwritten, ?_⟩
    · exact (htells op.record hnamed.1).mp (hfresh hcreate)
    · exact ih hops hkeys hchange.stands (htells.applied hnamed.1 hchange hwritten) hrest

/-! ### References -/

/-- A row of the SQL table refers to a blob. -/
def HasRef (refs : BlobRefs) (ref : Text × Text) : Prop := ∃ columns, (ref, columns) ∈ sqlRefs refs

/-- The references are kept in SQL. -/
def IsSql : BlobRefs → Prop
  | .sql _ => True
  | .fjall _ => False

variable {did : Text} {refs : BlobRefs} {ref : Text × Text} {uri : Text}

theorem isSql_addRef (h : IsSql refs) (blob : BlobRef) :
  IsSql (refs.addRef uri blob)
  := by
  cases refs with
  | sql rows => trivial
  | fjall rows => cases h

theorem hasRef_addRef (h : IsSql refs) {blob : BlobRef} :
  HasRef (refs.addRef uri blob) ref ↔ HasRef refs ref ∨ ref = (uri, blob.link)
  := by
  cases refs with
  | fjall rows => cases h
  | sql rows =>
    constructor
    · rintro ⟨columns, hmem⟩
      obtain hmem | ⟨heq, -⟩ := mem_fill.mp hmem
      · exact Or.inl ⟨columns, hmem⟩
      · exact Or.inr (Prod.ext_iff.mp heq).1
    · rintro (⟨columns, hmem⟩ | rfl)
      · exact ⟨columns, mem_fill.mpr (Or.inl hmem)⟩
      · by_cases hprior : ∃ prior ∈ rows, prior.1 = (uri, blob.link)
        · obtain ⟨⟨ref, columns⟩, hmem, rfl⟩ := hprior
          exact ⟨columns, mem_fill.mpr (Or.inl hmem)⟩
        · refine ⟨⟨blob.mimeType, blob.size⟩, mem_fill.mpr (Or.inr ⟨rfl, ?_⟩)⟩
          intro prior hmem heq
          exact hprior ⟨prior, hmem, heq⟩

theorem hasRef_addRefs (h : IsSql refs) {blobs : List BlobRef} :
  IsSql (refs.addRefs uri blobs) ∧ (HasRef (refs.addRefs uri blobs) ref ↔
    HasRef refs ref ∨ ref.1 = uri ∧ ∃ blob ∈ blobs, blob.link = ref.2)
  := by
  induction blobs generalizing refs with
  | nil =>
    refine ⟨h, ?_⟩
    constructor
    · exact Or.inl
    · rintro (hmem | ⟨-, blob, hblob, -⟩)
      · exact hmem
      · cases hblob
  | cons blob blobs ih =>
    rw [BlobRefs.addRefs, List.foldl_cons, ← BlobRefs.addRefs]
    obtain ⟨hsql, hiff⟩ := ih (isSql_addRef h blob)
    refine ⟨hsql, ?_⟩
    rw [hiff, hasRef_addRef h, or_assoc]
    apply or_congr_right
    constructor
    · rintro (rfl | ⟨huri, other, hother, hlink⟩)
      · exact ⟨rfl, blob, List.mem_cons_self, rfl⟩
      · exact ⟨huri, other, List.mem_cons_of_mem _ hother, hlink⟩
    · rintro ⟨huri, other, hother, hlink⟩
      obtain rfl | hother := List.mem_cons.mp hother
      · exact Or.inl (Prod.ext huri hlink.symm)
      · exact Or.inr ⟨huri, other, hother, hlink⟩

theorem hasRef_dropRefs (h : IsSql refs) :
  IsSql (refs.dropRefsForRecord uri).1 ∧
    (HasRef (refs.dropRefsForRecord uri).1 ref ↔ HasRef refs ref ∧ ref.1 ≠ uri)
  := by
  cases refs with
  | fjall rows => cases h
  | sql rows =>
    refine ⟨trivial, ?_⟩
    constructor
    · rintro ⟨columns, hmem⟩
      obtain ⟨hmem, hne⟩ := List.mem_filter.mp hmem
      exact ⟨⟨columns, hmem⟩, of_decide_eq_true hne⟩
    · rintro ⟨⟨columns, hmem⟩, hne⟩
      exact ⟨columns, List.mem_filter.mpr ⟨hmem, decide_eq_true hne⟩⟩

/-- An operation adds the references of its value.  The others of its record stay when it is a
creation. -/
theorem hasRef_maintainOne (h : IsSql refs) :
  IsSql (maintainOne did op refs) ∧ (HasRef (maintainOne did op refs) ref ↔
    HasRef refs ref ∧ (op.action = .create ∨ ref.1 ≠ uriOf did op.record) ∨
      ref.1 = uriOf did op.record ∧ ∃ blob ∈ op.blobs, blob.link = ref.2)
  := by
  have hadded {refs' : BlobRefs} {stays : Prop} (hsql : IsSql refs')
      (hstays : HasRef refs' ref ↔ HasRef refs ref ∧ stays) :
      IsSql (refs'.addRefs (uriOf did op.record) op.blobs) ∧
        (HasRef (refs'.addRefs (uriOf did op.record) op.blobs) ref ↔
          HasRef refs ref ∧ stays ∨
            ref.1 = uriOf did op.record ∧ ∃ blob ∈ op.blobs, blob.link = ref.2) := by
    obtain ⟨hsql', hiff⟩ := @hasRef_addRefs _ ref (uriOf did op.record) hsql op.blobs
    exact ⟨hsql', hiff.trans (or_congr_left hstays)⟩
  obtain ⟨hsql, hdropped⟩ := @hasRef_dropRefs _ ref (uriOf did op.record) h
  rw [maintainOne]
  cases op.action with
  | create => exact hadded h (and_iff_left (Or.inl rfl)).symm
  | update =>
    apply hadded hsql
    rw [hdropped, or_iff_right (by decide)]
  | delete =>
    apply hadded hsql
    rw [hdropped, or_iff_right (by decide)]

/-- The blobs of an operation are those that its value names. -/
theorem exists_blob_iff {cid : Text} :
  (∃ blob ∈ op.blobs, blob.link = cid) ↔ ∃ value, written op = some value ∧ NamesBlob value cid
  := by
  rw [written, WriteOp.blobs]
  cases op.action with
  | delete =>
    constructor
    · rintro ⟨blob, hblob, -⟩
      cases hblob
    · rintro ⟨value, hvalue, -⟩
      cases hvalue
  | create =>
    rw [if_neg (by decide)]
    cases op.value with
    | none =>
      constructor
      · rintro ⟨blob, hblob, -⟩
        cases hblob
      · rintro ⟨value, hvalue, -⟩
        cases hvalue
    | some value =>
      constructor
      · exact fun hnames => ⟨value, rfl, hnames⟩
      · rintro ⟨value', hvalue, hnames⟩
        cases hvalue
        exact hnames
  | update =>
    rw [if_neg (by decide)]
    cases op.value with
    | none =>
      constructor
      · rintro ⟨blob, hblob, -⟩
        cases hblob
      · rintro ⟨value, hvalue, -⟩
        cases hvalue
    | some value =>
      constructor
      · exact fun hnames => ⟨value, rfl, hnames⟩
      · rintro ⟨value', hvalue, hnames⟩
        cases hvalue
        exact hnames

/-- The references are those of the values, and the names of their records are valid. -/
structure RefsOf (did : Text) (values : Values) (refs : BlobRefs) : Prop where
  sql : IsSql refs
  plain : ∀ record, values record ≠ none → PlainRecord record
  refs_iff : ∀ ref, HasRef refs ref ↔
    ∃ record value, values record = some value ∧ ref.1 = uriOf did record ∧ NamesBlob value ref.2

theorem RefsOf.maintainOne (h : RefsOf did values refs) (hnamed : op.Named)
    (hfresh : op.action = .create → values op.record = none) :
  RefsOf did (writtenAll [op] values) (maintainOne did op refs)
  := by
  have hvalues : writtenAll [op] values = Function.update values op.record (written op) := rfl
  have hnoRef {ref : Text × Text} (hcreate : op.action = .create) (href : HasRef refs ref) :
      ref.1 ≠ uriOf did op.record := by
    intro huri'
    obtain ⟨record, value, hvalue, huri, -⟩ := (h.refs_iff _).mp href
    have hplain := h.plain record (by rw [hvalue]; exact Option.some_ne_none value)
    rw [← uriOf_inj hnamed.1 hplain (huri'.symm.trans huri), hfresh hcreate] at hvalue
    cases hvalue
  have hone (ref : Text × Text) : IsSql (Pds.maintainOne did op refs) ∧
      (HasRef (Pds.maintainOne did op refs) ref ↔
        HasRef refs ref ∧ ref.1 ≠ uriOf did op.record ∨
          ref.1 = uriOf did op.record ∧ ∃ blob ∈ op.blobs, blob.link = ref.2) := by
    obtain ⟨hsql, hiff⟩ := @hasRef_maintainOne _ _ _ ref h.sql
    refine ⟨hsql, hiff.trans (or_congr_left (and_congr_right fun href => ?_))⟩
    exact or_iff_right_of_imp fun hcreate => hnoRef hcreate href
  refine ⟨(hone (Text.empty, Text.empty)).1, ?_, ?_⟩
  · intro record hne
    rw [hvalues, Function.update_apply] at hne
    by_cases heq : record = op.record
    · rw [heq]
      exact hnamed.1
    · rw [if_neg heq] at hne
      exact h.plain record hne
  · intro ref
    rw [(hone ref).2, h.refs_iff, exists_blob_iff, hvalues]
    constructor
    · rintro (⟨⟨record, value, hvalue, huri, hnames⟩, hne⟩ | ⟨huri, value, hwritten, hnames⟩)
      · refine ⟨record, value, ?_, huri, hnames⟩
        rw [Function.update_of_ne]
        · exact hvalue
        · rintro rfl
          exact hne huri
      · refine ⟨op.record, value, ?_, huri, hnames⟩
        rw [Function.update_self]
        exact hwritten
    · rintro ⟨record, value, hvalue, huri, hnames⟩
      rw [Function.update_apply] at hvalue
      by_cases heq : record = op.record
      · rw [if_pos heq] at hvalue
        rw [heq] at huri
        exact Or.inr ⟨huri, value, hvalue, hnames⟩
      · rw [if_neg heq] at hvalue
        refine Or.inl ⟨⟨record, value, hvalue, huri, hnames⟩, ?_⟩
        intro huri'
        have hplain := h.plain record (by rw [hvalue]; exact Option.some_ne_none value)
        exact heq (uriOf_inj hplain hnamed.1 (huri.symm.trans huri'))

/-- Operations that fit keep the references. -/
theorem RefsOf.maintain (h : RefsOf did values refs) (hnamed : ∀ op ∈ ops, op.Named)
    (hfits : Fits ops values) :
  RefsOf did (writtenAll ops values) (maintainBlobRefs did ops refs)
  := by
  induction ops generalizing values refs with
  | nil => exact h
  | cons op ops ih =>
    obtain ⟨hop, hnamed⟩ := List.forall_mem_cons.mp hnamed
    obtain ⟨hfresh, -, hrest⟩ := hfits
    exact ih (h.maintainOne hop hfresh) hnamed hrest

/-! ### The index -/

/-- The rows of the SQL table have the URIs of their records. -/
def OwnUris (did : Text) : RepoRecordStorage → Prop
  | .sql table => ∀ record row, table record = some row → row.uri = uriOf did record
  | .fjall _ _ => False

theorem OwnUris.writes {table : Text × Text → Option RecordRow} (h : OwnUris did (.sql table))
    {rows : List RecordRow} (hrows : ∀ row ∈ rows, row.uri = uriOf did (row.collection, row.rkey)) :
  OwnUris did (.sql (rows.foldl (fun table row =>
    let uri := ((table (row.collection, row.rkey)).map RecordRow.uri).getD row.uri
    Function.update table (row.collection, row.rkey) (some { row with uri := uri })) table))
  := by
  induction rows generalizing table with
  | nil => exact h
  | cons row rows ih =>
    obtain ⟨hrow, hrows⟩ := List.forall_mem_cons.mp hrows
    refine ih ?_ hrows
    intro record found hfound
    dsimp only at hfound
    rw [Function.update_apply] at hfound
    by_cases heq : record = (row.collection, row.rkey)
    · rw [if_pos heq] at hfound
      cases hfound
      rw [heq]
      dsimp only
      cases hprior : table (row.collection, row.rkey) with
      | none => exact hrow
      | some prior => exact h _ prior hprior
    · rw [if_neg heq] at hfound
      exact h record found hfound

theorem OwnUris.applyBatch {records : RepoRecordStorage} (h : OwnUris did records)
    {rows : List RecordRow} (hrows : ∀ row ∈ rows, row.uri = uriOf did (row.collection, row.rkey))
    (deletes : List (Text × Text)) :
  OwnUris did (records.applyBatch rows deletes)
  := by
  cases records with
  | fjall table byCollection => cases h
  | sql table =>
    intro record row hrow
    have hremoved := hrow
    dsimp only at hremoved
    rw [foldl_remove] at hremoved
    by_cases hmem : record ∈ deletes
    · rw [if_pos hmem] at hremoved
      cases hremoved
    · rw [if_neg hmem] at hremoved
      exact h.writes hrows record row hremoved

/-- Operations that fit leave values where they do not delete. -/
theorem map_written (hfits : Fits ops values) :
  (ops.map writtenUpdate).map (fun update => (update.1, update.2.isNone)) =
    (ops.map WriteOp.target).map fun target => (target.1, decide (target.2 = .delete))
  := by
  induction ops generalizing values with
  | nil => rfl
  | cons op ops ih =>
    obtain ⟨-, hwritten, hrest⟩ := hfits
    rw [List.map_cons, List.map_cons, List.map_cons, List.map_cons, ih hrest]
    congr 2
    rw [Bool.eq_iff_iff, Option.isNone_iff_eq_none, decide_eq_true_iff]
    exact hwritten

/-- A batch that is stored keeps the values and the list of the tree together. -/
theorem Tells.appliedAll (h : Tells xs values) {map : Text × Text → Option Cid} (hnames : Names map xs)
    {changes : List Change} (hchanges : AppliedAll U ops draft xs changes draft')
    (hops : ∀ op ∈ ops, op.Named) (hfits : Fits ops values) :
  Tells (editChanges changes xs) (writtenAll ops values)
  := by
  intro record hrecord
  have hlast : (lastUpdate (changes.map Change.update) record).map Option.isNone =
      (lastUpdate (ops.map writtenUpdate) record).map Option.isNone := by
    rw [← lastUpdate_mapValue, ← lastUpdate_mapValue, map_target hchanges, map_written hfits]
  rw [← (hnames.edit (hchanges.plain hops)).values record hrecord, updateAll_apply, writtenAll,
    updateAll_apply, hnames.values record hrecord]
  cases hcid : lastUpdate (changes.map Change.update) record with
  | none =>
    rw [hcid] at hlast
    rw [Option.map_eq_none_iff.mp hlast.symm]
    exact h record hrecord
  | some cid =>
    rw [hcid] at hlast
    obtain ⟨value, hvalue, heq⟩ := Option.map_eq_some_iff.mp hlast.symm
    rw [hvalue]
    have hiff : value.isNone = true ↔ cid.isNone = true := by rw [heq]
    rw [Option.isNone_iff_eq_none, Option.isNone_iff_eq_none] at hiff
    exact hiff.symm

/-! ### Histories in SQL -/

/-- The index, the tree and the references are those of the values. -/
structure SqlSound (account : Account) (history : History ctx) : Prop where
  tells : ∃ map xs, InStep account history.media.repo.storage map xs ∧ Tells xs history.values
  uris : OwnUris account.did history.media.repo.storage.records
  refs : RefsOf account.did history.values history.media.blobRefs

variable {history : History ctx}

/-- The SQL tables answer what the values say. -/
theorem SqlSound.public_iff (h : SqlSound account history) (cid : Text) :
  history.media.IsPubliclyReferenced cid ↔ Named history.values cid
  := by
  constructor
  · rintro ⟨⟨⟨uri, cid⟩, columns⟩, hmem, rfl, -⟩
    obtain ⟨record, value, hvalue, -, hnames⟩ := (h.refs.refs_iff (uri, cid)).mp ⟨columns, hmem⟩
    exact ⟨record, value, hvalue, hnames⟩
  · rintro ⟨record, value, hvalue, hnames⟩
    obtain ⟨columns, hmem⟩ := (h.refs.refs_iff (uriOf account.did record, cid)).mpr
      ⟨record, value, hvalue, rfl, hnames⟩
    refine ⟨_, hmem, rfl, ?_⟩
    obtain ⟨map, xs, hin, htells⟩ := h.tells
    have hsome : history.values record ≠ none := by
      rw [hvalue]
      exact Option.some_ne_none value
    have hplain := h.refs.plain record hsome
    have hmap : map record ≠ none := by
      rw [hin.names.values record hplain]
      exact fun hnone => hsome ((htells record hplain).mp hnone)
    have hindex := hin.index
    have huris := h.uris
    cases hrecords : history.media.repo.storage.records with
    | fjall table byCollection =>
      rw [hrecords] at huris
      cases huris
    | sql table =>
      rw [hrecords] at hindex huris
      rw [← hindex record] at hmap
      cases hrow : table record with
      | none =>
        rw [hrow] at hmap
        exact absurd rfl hmap
      | some row => exact ⟨record, row, hrow, huris record row hrow⟩

/-- Without a stored batch everything stays. -/
theorem SqlSound.kept (h : SqlSound account history) {input : Input}
    (hnone : (stepOut account history.media.repo input).2 = none)
    (hrecords : (Pds.step account history.media.repo input).storage.records =
      history.media.repo.storage.records)
    (htells : ∃ map xs, InStep account (Pds.step account history.media.repo input).storage map xs ∧
      Tells xs history.values) :
  SqlSound account (history.step account (.repo input))
  := by
  have hvalues : (history.step account (.repo input)).values = history.values := by
    rw [History.step, valuesAfter, hnone]
    rfl
  have hrefs : (history.step account (.repo input)).media.blobRefs = history.media.blobRefs := by
    rw [History.step, mediaStep, hnone]
    rfl
  have hstorage : (history.step account (.repo input)).media.repo =
    Pds.step account history.media.repo input := rfl
  constructor
  · rw [hvalues, hstorage]
    exact htells
  · rw [hstorage, hrecords]
    exact h.uris
  · rw [hvalues, hrefs]
    exact h.refs

/-- A batch that is stored keeps the index, the tree and the references with the values. -/
theorem SqlSound.write (hctx : ctx.Sound) (h : SqlSound account history) {ops : List WriteOp}
    {swapCommit : Option Text} {env : Environment}
    (hinput : Orderly history.media.repo (.write ops swapCommit env)) :
  SqlSound account (history.step account (.repo (.write ops swapCommit env)))
  := by
  obtain ⟨map, xs, hin, htells⟩ := h.tells
  obtain ⟨hnone, hrecords, hin'⟩ | ⟨prepared, batch, changes, hsome, hprepare, hstored⟩ :=
    hin.commit hctx hinput
  · exact h.kept hnone hrecords ⟨map, xs, hin', htells⟩
  · obtain ⟨-, hnamed⟩ := prepareOps_eq_ok hprepare
    have hprepared : preparedOps (.write ops swapCommit env) = prepared := by
      rw [preparedOps, hprepare]
      rfl
    have hvalues : (history.step account (.repo (.write ops swapCommit env))).values =
        writtenAll prepared history.values := by
      rw [History.step, valuesAfter, hsome, hprepared]
      rfl
    have hrefs : (history.step account (.repo (.write ops swapCommit env))).media.blobRefs =
        maintainBlobRefs account.did prepared history.media.blobRefs := by
      rw [History.step, mediaStep, hsome, hprepared]
      rfl
    have hstorage : (history.step account (.repo (.write ops swapCommit env))).media.repo =
      Pds.step account history.media.repo (.write ops swapCommit env) := rfl
    obtain ⟨draft, happly, happlied⟩ := hstored.applied
    have hfits : Fits prepared history.values :=
      fits_of_applyOps hctx (fun _ => id) hnamed (fun op hop cid => (hnamed op hop).2) hin.stands
        htells happly
    constructor
    · rw [hvalues, hstorage]
      exact ⟨_, _, hstored.inStep, htells.appliedAll hin.names happlied hnamed hfits⟩
    · obtain ⟨rev, hrecords⟩ := hstored.records
      rw [hstorage]
      change OwnUris account.did
        (stepOut account history.media.repo (.write ops swapCommit env)).1.storage.records
      rw [hrecords]
      exact h.uris.applyBatch (fun row hrow => (mem_rowsOf hrow).1) _
    · rw [hvalues, hrefs]
      exact h.refs.maintain hnamed hfits

/-- Careful inputs keep the index, the tree and the references with the values. -/
theorem SqlSound.step (hctx : ctx.Sound) (h : SqlSound account history) {input : MediaInput}
    (hinput : Careful .sql history input) :
  SqlSound account (history.step account input)
  := by
  cases input with
  | space space rev work => exact ⟨h.tells, h.uris, h.refs⟩
  | upload cid => exact ⟨h.tells, h.uris, h.refs⟩
  | repo input =>
    cases input with
    | write ops swapCommit env => exact h.write hctx hinput
    | restart => exact h.kept rfl rfl h.tells
    | issue timestampMicros random =>
      have hstep : (stepOut account history.media.repo (.issue timestampMicros random)).2 = none ∧
          (stepOut account history.media.repo (.issue timestampMicros random)).1.storage =
            history.media.repo.storage := by
        rw [stepOut]
        cases Record.Tid.newWithTime history.media.repo.last timestampMicros random with
        | none => exact ⟨rfl, rfl⟩
        | some issued => exact ⟨rfl, rfl⟩
      apply h.kept hstep.1
      · rw [Pds.step, hstep.2]
      · rw [Pds.step, hstep.2]
        exact h.tells

theorem sqlSound_start (account : Account) :
  SqlSound account (History.start .sql : History ctx)
  := by
  have hstands : (openDraft (none : Option CommitRow)
    (BlockStore.empty : BlockStore ctx.sha256)).mst.Stands ShortPair [] := Mst.stands_new _ _
  refine ⟨⟨fun _ => none, [], ⟨hstands, fun _ => rfl, names_nil⟩, ?_⟩, ?_, ⟨trivial, ?_, ?_⟩⟩
  · exact fun _ _ => iff_of_true rfl rfl
  · intro record row hrow
    cases hrow
  · exact fun _ hne => absurd rfl hne
  · intro ref
    apply iff_of_false
    · rintro ⟨columns, hmem⟩
      cases hmem
    · rintro ⟨record, value, hvalue, -⟩
      cases hvalue

/-! ### Histories in fjall -/

/-- The references are in fjall, and no value names a blob. -/
structure FjallSound (history : History ctx) : Prop where
  fjall : ∃ rows, history.media.blobRefs = .fjall rows
  unnamed : ∀ cid, ¬ Named history.values cid

/-- In fjall no blob is public. -/
theorem FjallSound.not_public (h : FjallSound history) (cid : Text) :
  ¬ history.media.IsPubliclyReferenced cid
  := by
  rintro ⟨reference, hmem, -⟩
  obtain ⟨rows, hrows⟩ := h.fjall
  rw [hrows] at hmem
  cases hmem

theorem exists_maintainBlobRefs_fjall (ops : List WriteOp) (rows : List (Text × BlobColumns))
    (hops : ∀ op ∈ ops, op.blobs = []) :
  ∃ rows', maintainBlobRefs did ops (.fjall rows) = .fjall rows'
  := by
  induction ops generalizing rows with
  | nil => exact ⟨rows, rfl⟩
  | cons op ops ih =>
    obtain ⟨hop, hops⟩ := List.forall_mem_cons.mp hops
    have hone : ∃ rows', maintainOne did op (.fjall rows) = .fjall rows' := by
      rw [maintainOne, hop]
      cases op.action with
      | create => exact ⟨_, rfl⟩
      | update => exact ⟨_, rfl⟩
      | delete => exact ⟨_, rfl⟩
    obtain ⟨rows', hrows⟩ := hone
    rw [maintainBlobRefs, List.foldl_cons, hrows]
    exact ih rows' hops

/-- Values that name no blob leave none named. -/
theorem not_named_writtenAll (hops : ∀ op ∈ ops, op.blobs = []) {cid : Text}
    (h : ¬ Named values cid) :
  ¬ Named (writtenAll ops values) cid
  := by
  rintro ⟨record, value, hvalue, hnames⟩
  rw [writtenAll, updateAll_apply] at hvalue
  cases hlast : lastUpdate (ops.map writtenUpdate) record with
  | none =>
    rw [hlast] at hvalue
    exact h ⟨record, value, hvalue, hnames⟩
  | some last =>
    rw [hlast] at hvalue
    obtain ⟨op, hop, heq⟩ := List.mem_map.mp (mem_of_lastUpdate hlast)
    obtain ⟨-, rfl⟩ := Prod.ext_iff.mp heq
    obtain ⟨blob, hblob, -⟩ := exists_blob_iff.mpr ⟨value, hvalue, hnames⟩
    rw [hops op hop] at hblob
    cases hblob

theorem FjallSound.step (h : FjallSound history) {input : MediaInput}
    (hinput : Careful .fjall history input) :
  FjallSound (history.step account input)
  := by
  cases input with
  | space space rev work => exact ⟨h.fjall, h.unnamed⟩
  | upload cid => exact ⟨h.fjall, h.unnamed⟩
  | repo input =>
    have hops : ∀ op ∈ preparedOps input, op.blobs = [] := hinput
    obtain ⟨rows, hrows⟩ := h.fjall
    constructor
    · rw [History.step, mediaStep]
      dsimp only
      split
      · rw [hrows]
        exact exists_maintainBlobRefs_fjall _ rows hops
      · exact ⟨rows, hrows⟩
    · intro cid
      rw [History.step, valuesAfter]
      dsimp only
      split
      · exact not_named_writtenAll hops (h.unnamed cid)
      · exact h.unnamed cid

/-! ### Histories -/

variable {sha256 : Bytes → Bytes} {format : CidFormat} {maxDepth : Nat}

/-- In a careful history a blob is public exactly when a current public record names it. -/
theorem public_iff_of_run (hctx : ctx.Sound) {backend : Backend} {inputs : List MediaInput}
    (halong : Along (History.step account) (Careful backend) (History.start backend : History ctx)
      inputs) (cid : Text) :
  (run (History.step account) (History.start backend : History ctx) inputs).media.IsPubliclyReferenced
    cid ↔ Named (run (History.step account) (History.start backend : History ctx) inputs).values cid
  := by
  cases backend with
  | sql =>
    have hsound : SqlSound account (run (History.step account) (History.start .sql) inputs) :=
      invariant_run (fun _ _ h hinput => h.step hctx hinput) halong (sqlSound_start account)
    exact hsound.public_iff cid
  | fjall =>
    have hstart : FjallSound (History.start .fjall : History ctx) := by
      refine ⟨⟨[], rfl⟩, ?_⟩
      rintro cid ⟨record, value, hvalue, -⟩
      cases hvalue
    have hsound : FjallSound (run (History.step account) (History.start .fjall : History ctx)
        inputs) :=
      invariant_run (fun _ _ h hinput => h.step hinput) halong hstart
    exact iff_of_false (hsound.not_public cid) (hsound.unnamed cid)

/-- In a careful history a blob is public exactly when a current public record names it, and the
pages of public blobs have each stored blob that is named once, in the order of the CIDs. -/
theorem visible_of_run (hhash : Function.Injective sha256) (hformat : format.Lawful)
    {account : Account} {backend : Backend} {inputs : List MediaInput}
    {history : History (drisl sha256 format maxDepth)}
    (hhistory : run (History.step account) (History.start backend) inputs = history)
    (halong : Along (History.step account) (Careful backend)
      (History.start backend : History (drisl sha256 format maxDepth)) inputs) :
  (∀ cid, history.media.IsPubliclyReferenced cid ↔ Named history.values cid) ∧
  ∀ [DecidablePred history.media.IsPubliclyReferenced] (limit fuel : Nat),
    history.media.repoBlob.cids.length ≤ fuel →
    Ordered id (readPublic history.media limit fuel none) ∧
    ∀ cid, cid ∈ readPublic history.media limit fuel none ↔
      cid ∈ history.media.repoBlob.cids ∧ Named history.values cid
  := by
  have hpublic : ∀ cid, history.media.IsPubliclyReferenced cid ↔ Named history.values cid := by
    intro cid
    rw [← hhistory]
    exact public_iff_of_run (drisl_sound hhash hformat maxDepth) halong cid
  refine ⟨hpublic, ?_⟩
  intro _ limit fuel hfuel
  rw [readPublic_eq history.media hfuel]
  refine ⟨history.media.repoBlob.ordered.filter _, ?_⟩
  intro cid
  rw [List.mem_filter, decide_eq_true_iff, hpublic]

/-! ### A record with a picture -/

/-- The CID of a picture. -/
def pictureCid : Text := textOf "bafkpicture"

/-- A record with the envelope of a picture. -/
def pictureValue : Json :=
  .object [(textOf "image", .object [(textOf "$type", .string (textOf "blob")),
    (textOf "mimeType", .string (textOf "image/png")),
    (textOf "ref", .object [(textOf "$link", .string pictureCid)]),
    (textOf "size", .number (.posInt 1))])]

/-- A picture is uploaded, a space record names it, and then the record `com.a.b/k`. -/
def pictureInputs : List MediaInput :=
  [.upload pictureCid,
    .space (textOf "s") (textOf "r") [(textOf "u", some pictureValue)],
    .repo (.write [{ sampleOp .create with value := some pictureValue }] none
      (sampleEnvironment 1))]

/-- The history of the picture. -/
def pictureHistory (backend : Backend) : History (mirror 1) :=
  run (History.step sampleAccount) (History.start backend) pictureInputs

/-- The record that names the picture. -/
def pictureRecord : Text × Text := (textOf "com.a.b", textOf "k")

theorem named_of_any {values : Values} {record : Text × Text} {cid : Text}
    (h : (values record).any (fun value => (walkBlobRefs value).any fun blob => blob.link = cid) =
      true) :
  Named values cid
  := by
  obtain ⟨value, hvalue, hany⟩ := (Option.any_eq_true _ _).mp h
  obtain ⟨blob, hblob, hlink⟩ := List.any_eq_true.mp hany
  exact ⟨record, value, hvalue, blob, hblob, of_decide_eq_true hlink⟩

theorem named_picture (backend : Backend) :
  Named (pictureHistory backend).values pictureCid
  := by
  cases backend with
  | sql => exact @named_of_any _ pictureRecord _ (by decide +kernel)
  | fjall => exact @named_of_any _ pictureRecord _ (by decide +kernel)

theorem visible_of_run_picture :
  (pictureHistory .sql).media.IsPubliclyReferenced pictureCid
  := by
  refine ((visible_of_run List.reverse_injective multiformats_lawful rfl ?_).1 pictureCid).mpr
    (named_picture .sql)
  refine ⟨trivial, trivial, ⟨fun _ _ _ => nofun, ?_⟩, trivial⟩
  apply settles_of_not_mem
  decide

/-- A blob is always public when a current public record names it. -/
def AlwaysVisible (backend : Backend) : Prop :=
  ∀ (inputs : List MediaInput) (history : History (mirror 1)) (cid : Text),
    run (History.step sampleAccount) (History.start backend) inputs = history →
    (history.media.IsPubliclyReferenced cid ↔ Named history.values cid)

/-- In fjall the picture is named by a record and not public. -/
theorem not_alwaysVisible :
  ¬ AlwaysVisible .fjall
  := by
  intro hclaim
  obtain ⟨reference, hmem, -⟩ :=
    (hclaim pictureInputs (pictureHistory .fjall) pictureCid rfl).mpr (named_picture .fjall)
  cases hmem

end Atproto.Pds.PublicBlobs
