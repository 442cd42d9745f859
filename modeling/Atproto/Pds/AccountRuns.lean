import Atproto.Pds.ImportIndex
import Atproto.Pds.Lockstep
import Atproto.Pds.RecordBytes
import Atproto.Pds.RepoArchive
import Mathlib.Algebra.Group.Action.Defs
import Mathlib.Algebra.Order.BigOperators.Group.List

/-!
# The history of an account

Batches are written to a repository and archives are imported into it, in any order.  Whatever
happens, the rows of the index stand under the URIs of their records.
-/

namespace Atproto.Pds

open Atproto.Dasl Atproto.Lexicon Atproto.Record Atproto.Repo Logic Logic.Machine SearchTree

variable {ctx : Context} {account : Account} {forms : TextForms}

/-! ### The index after a batch -/

/-- A key with one zero byte names one record. -/
theorem indexKey_inj_of_plain {a b : Text × Text} (hb : PlainRecord b)
    (h : indexKey a = indexKey b) :
  a = b
  := by
  have hcount := congrArg (List.count 0) h
  rw [indexKey, indexKey, byCollectionKey, byCollectionKey, List.count_append, List.count_append,
    List.count_cons_self, List.count_cons_self, List.count_eq_zero_of_not_mem hb.1.2,
    List.count_eq_zero_of_not_mem hb.2.2] at hcount
  have hzero : (0 : UInt8) ∉ a.1.bytes := List.count_eq_zero.mp (by omega)
  obtain ⟨hcollection, hrkey⟩ := append_separator_inj hzero hb.1.2 h
  exact Prod.ext (Text.ext hcollection) (Text.ext hrkey)

section WellPlaced

variable {did : Text} {table : Text → Option RecordRow} {byCollection : Bytes → Option Text}

/-- What is found under the keys of a plain record is its row. -/
theorem WellPlaced.found (h : WellPlaced did (.fjall table byCollection)) {record : Text × Text}
    (hrecord : PlainRecord record) :
  (∀ row, table (uriOf did record) = some row → (row.collection, row.rkey) = record) ∧
    ∀ uri, byCollection (indexKey record) = some uri → uri = uriOf did record
  := by
  constructor
  · intro row hrow
    obtain ⟨hslash, huri, -⟩ := h.1 _ row hrow
    exact (uriOf_inj' hrecord.1.1 hslash huri).symm
  · intro uri huri
    obtain ⟨row, hrow, hkey⟩ := h.2 _ uri huri
    obtain ⟨-, hrowUri, -⟩ := h.1 uri row hrow
    rw [hrowUri, indexKey_inj_of_plain hrecord hkey]

/-- A row of a plain record may be written over the old one. -/
theorem WellPlaced.write (h : WellPlaced did (.fjall table byCollection)) {row : RecordRow}
    (hplain : PlainRecord (row.collection, row.rkey))
    (huri : row.uri = uriOf did (row.collection, row.rkey)) :
  WellPlaced did (.fjall (Function.update table row.uri (some row))
    (Function.update byCollection (indexKey (row.collection, row.rkey)) (some row.uri)))
  := by
  obtain ⟨hown, hkeys⟩ := h
  obtain ⟨htable, hfound⟩ := WellPlaced.found ⟨hown, hkeys⟩ hplain
  rw [← huri] at htable hfound
  constructor
  · intro uri other hother
    by_cases heq : uri = row.uri
    · subst heq
      rw [Function.update_self] at hother
      obtain rfl := Option.some.inj hother
      exact ⟨hplain.1.1, huri, Function.update_self _ _ _⟩
    · rw [Function.update_of_ne heq] at hother
      obtain ⟨hslash, hotherUri, hback⟩ := hown uri other hother
      refine ⟨hslash, hotherUri, ?_⟩
      rw [Function.update_of_ne]
      · exact hback
      · intro hkey
        rw [hkey] at hback
        exact heq (hfound uri hback)
  · intro key uri hkey
    by_cases heq : key = indexKey (row.collection, row.rkey)
    · subst heq
      rw [Function.update_self] at hkey
      obtain rfl := Option.some.inj hkey
      exact ⟨row, Function.update_self _ _ _, rfl⟩
    · rw [Function.update_of_ne heq] at hkey
      obtain ⟨other, hother, hotherKey⟩ := hkeys key uri hkey
      refine ⟨other, ?_, hotherKey⟩
      rw [Function.update_of_ne]
      · exact hother
      · rintro rfl
        rw [htable other hother] at hotherKey
        exact heq hotherKey.symm

/-- The row of a plain record may be removed. -/
theorem WellPlaced.remove (h : WellPlaced did (.fjall table byCollection)) {record : Text × Text}
    (hrecord : PlainRecord record) :
  WellPlaced did (.fjall (Function.update table (uriOf did record) none)
    (Function.update byCollection (indexKey record) none))
  := by
  obtain ⟨hown, hkeys⟩ := h
  obtain ⟨htable, hfound⟩ := WellPlaced.found ⟨hown, hkeys⟩ hrecord
  constructor
  · intro uri row hrow
    have hne : uri ≠ uriOf did record := by
      rintro rfl
      rw [Function.update_self] at hrow
      cases hrow
    rw [Function.update_of_ne hne] at hrow
    obtain ⟨hslash, huri, hback⟩ := hown uri row hrow
    refine ⟨hslash, huri, ?_⟩
    rw [Function.update_of_ne]
    · exact hback
    · intro hkey
      rw [hkey] at hback
      exact hne (hfound uri hback)
  · intro key uri hkey
    have hne : key ≠ indexKey record := by
      rintro rfl
      rw [Function.update_self] at hkey
      cases hkey
    rw [Function.update_of_ne hne] at hkey
    obtain ⟨row, hrow, hrowKey⟩ := hkeys key uri hkey
    refine ⟨row, ?_, hrowKey⟩
    rw [Function.update_of_ne]
    · exact hrow
    · rintro rfl
      rw [htable row hrow] at hrowKey
      exact hne hrowKey.symm

theorem WellPlaced.writes (h : WellPlaced did (.fjall table byCollection)) {rows : List RecordRow}
    (hrows : ∀ row ∈ rows, PlainRecord (row.collection, row.rkey) ∧
      row.uri = uriOf did (row.collection, row.rkey)) :
  WellPlaced did (.fjall
    (rows.foldl (fun table row => Function.update table row.uri (some row)) table)
    (rows.foldl (fun table row =>
      Function.update table (byCollectionKey row.collection row.rkey) (some row.uri)) byCollection))
  := by
  induction rows generalizing table byCollection with
  | nil => exact h
  | cons row rows ih =>
    obtain ⟨⟨hplain, huri⟩, hrows⟩ := List.forall_mem_cons.mp hrows
    exact ih (h.write hplain huri) hrows

theorem WellPlaced.removes (h : WellPlaced did (.fjall table byCollection))
    {pairs : List (Text × Bytes)}
    (hpairs : ∀ pair ∈ pairs, ∃ record, PlainRecord record ∧
      pair = (uriOf did record, indexKey record)) :
  WellPlaced did (.fjall
    (pairs.foldl (fun table pair => Function.update table pair.1 none) table)
    (pairs.foldl (fun table pair => Function.update table pair.2 none) byCollection))
  := by
  induction pairs generalizing table byCollection with
  | nil => exact h
  | cons pair pairs ih =>
    obtain ⟨⟨record, hplain, rfl⟩, hrest⟩ := List.forall_mem_cons.mp hpairs
    exact ih (h.remove hplain) hrest

theorem WellPlaced.applyBatch {records : RepoRecordStorage} (h : WellPlaced did records)
    {rows : List RecordRow} {deletes : List (Text × Text)}
    (hrows : ∀ row ∈ rows, PlainRecord (row.collection, row.rkey) ∧
      row.uri = uriOf did (row.collection, row.rkey))
    (hdeletes : ∀ record ∈ deletes, PlainRecord record) :
  WellPlaced did (records.applyBatch rows deletes)
  := by
  cases records with
  | sql table => trivial
  | fjall table byCollection =>
    apply (h.writes hrows).removes
    intro pair hpair
    obtain ⟨record, hrecord, hfind⟩ := List.mem_filterMap.mp hpair
    obtain ⟨uri, huri, rfl⟩ := Option.map_eq_some_iff.mp hfind
    have hplain := hdeletes record hrecord
    refine ⟨record, hplain, ?_⟩
    rw [(h.found hplain).2 uri huri]
    rfl

end WellPlaced

/-! ### What a batch gathers -/

/-- The rows and deletions that were gathered are those of some operations. -/
def GatheredFrom (ops : List WriteOp) (draft : Draft ctx) : Prop :=
  (∀ row ∈ draft.recordRows, ∃ op ∈ ops, op.record = (row.1, row.2.1)) ∧
    ∀ record ∈ draft.deleteRkeys, ∃ op ∈ ops, op.record = record

variable {ops : List WriteOp} {op : WriteOp} {draft draft' : Draft ctx}

theorem gathered_applyWrite (hop : op ∈ ops) (h : GatheredFrom ops draft)
    (happly : applyWrite account op draft = (.ok (), draft')) :
  GatheredFrom ops draft'
  := by
  obtain ⟨value, bytes, prior, mst, diff, -, -, -, -, -, rfl⟩ := applyWrite_eq_ok happly
  refine ⟨?_, h.2⟩
  intro row hrow
  rcases List.mem_append.mp hrow with hrow | hrow
  · exact h.1 row hrow
  · obtain rfl := List.mem_singleton.mp hrow
    exact ⟨op, hop, rfl⟩

theorem gathered_applyDelete (hop : op ∈ ops) (h : GatheredFrom ops draft)
    (happly : applyDelete account op draft = (.ok (), draft')) :
  GatheredFrom ops draft'
  := by
  obtain ⟨prior, d₁, hget, happly⟩ := Action.bind_eq_ok.mp happly
  obtain ⟨-, rfl⟩ := getKey_eq_ok hget
  cases prior with
  | none => cases happly
  | some prior =>
    obtain ⟨⟨⟩, d₂, hswap, happly⟩ := Action.bind_eq_ok.mp happly
    obtain ⟨-, rfl⟩ := Action.ofExcept_eq_ok.mp hswap
    obtain ⟨⟨⟩, d₃, htouch, happly⟩ := Action.bind_eq_ok.mp happly
    cases htouch
    obtain ⟨⟨⟩, d₄, hdelete, happly⟩ := Action.bind_eq_ok.mp happly
    obtain ⟨mst, -, rfl⟩ := deleteKey_eq_ok hdelete
    cases happly
    refine ⟨h.1, ?_⟩
    intro record hrecord
    rcases List.mem_append.mp hrecord with hrecord | hrecord
    · exact h.2 record hrecord
    · obtain rfl := List.mem_singleton.mp hrecord
      exact ⟨op, hop, rfl⟩

theorem gathered_applyOps {applied : List WriteOp} (happlied : ∀ op ∈ applied, op ∈ ops)
    (h : GatheredFrom ops draft) (happly : applyOps account applied draft = (.ok (), draft')) :
  GatheredFrom ops draft'
  := by
  induction applied generalizing draft with
  | nil =>
    cases happly
    exact h
  | cons op applied ih =>
    obtain ⟨⟨⟩, mid, hop, happly⟩ := Action.bind_eq_ok.mp happly
    obtain ⟨hmem, happlied⟩ := List.forall_mem_cons.mp happlied
    refine ih happlied ?_ happly
    rw [applyOp] at hop
    cases haction : op.action with
    | create =>
      rw [haction] at hop
      exact gathered_applyWrite hmem h hop
    | update =>
      rw [haction] at hop
      exact gathered_applyWrite hmem h hop
    | delete =>
      rw [haction] at hop
      exact gathered_applyDelete hmem h hop

theorem gathered_draftRoot {prior : Option CommitRow} {blocks : BlockStore ctx.sha256} {root : Cid}
    (h : draftRoot account ops (openDraft prior blocks) = (.ok root, draft')) :
  GatheredFrom ops draft'
  := by
  obtain ⟨⟨⟩, mid, happly, hroot⟩ := Action.bind_eq_ok.mp h
  have hstart : GatheredFrom ops (openDraft prior blocks) :=
    ⟨fun _ hrow => absurd hrow List.not_mem_nil, fun _ hrow => absurd hrow List.not_mem_nil⟩
  have hmid := gathered_applyOps (fun _ hop => hop) hstart happly
  rw [newRoot] at hroot
  cases hmst : mid.mst.root with
  | some cid =>
    rw [hmst] at hroot
    cases hroot
    exact hmid
  | none =>
    rw [hmst] at hroot
    cases hbytes : ctx.codec.toBytes MstNode.empty with
    | error error =>
      rw [hbytes] at hroot
      cases hroot
    | ok bytes =>
      rw [hbytes] at hroot
      cases hroot
      exact hmid

/-! ### Runs -/

/-- The TID cell of the process and what is stored. -/
structure AccountState (ctx : Context) where
  last : Tid.LastTid
  realm : PublicRealm ctx

/-- Nothing has been stored. -/
def AccountState.start (backend : Backend) : AccountState ctx := ⟨none, .empty ctx backend⟩

/-- What happens to an account: a batch is written, an archive is imported, a TID is issued to
somebody else, or the process starts again. -/
inductive AccountInput where
  | write (ops : List WriteOp) (swapCommit : Option Text) (env : Environment)
  | importRepo (importer : Importer) (archive : Bytes)
  | issue (timestampMicros random : Nat)
  | restart

/-- The last commit that was written or imported, and the root of its tree. -/
structure Head where
  cid : Cid
  data : Cid
deriving DecidableEq

/-- Write a batch and keep the references of its records. -/
def commitRealm (account : Account) (env : Environment) (ops : List WriteOp)
    (swapCommit : Option Text) (state : AccountState ctx) :
    AccountState ctx × Except PdsError CommitBatch :=
  let (last, result, storage) := commit account env ops swapCommit state.last state.realm.storage
  let blobRefs :=
    match result, prepareOps ops with
    | .ok _, .ok prepared => maintainBlobRefs account.did prepared state.realm.blobRefs
    | .ok _, .error _ => state.realm.blobRefs
    | .error _, _ => state.realm.blobRefs
  (⟨last, ⟨storage, blobRefs⟩⟩, result)

/-- Import an archive; the result comes with the head. -/
def importRealm (forms : TextForms) (account : Account) (importer : Importer) (archive : Bytes)
    (realm : PublicRealm ctx) : PublicRealm ctx × Option Head :=
  match importFromStream account importer forms Wire.slice archive realm with
  | (.error _, realm) => (realm, none)
  | (.ok outcome, realm) =>
    (realm, (readVerified account importer ctx Wire.slice archive).toOption.map fun verified =>
      ⟨outcome.headCid, verified.head.data⟩)

/-- The state after an input, and the commit that it has added. -/
def accountStepOut (forms : TextForms) (account : Account) (state : AccountState ctx) :
    AccountInput → AccountState ctx × Option Head
  | .write ops swapCommit env =>
    let (state, result) := commitRealm account env ops swapCommit state
    (state, result.toOption.map fun batch => ⟨batch.commit.cid, batch.commit.dataCid⟩)
  | .importRepo importer archive =>
    let (realm, head) := importRealm forms account importer archive state.realm
    ({ state with realm := realm }, head)
  | .issue timestampMicros random =>
    match Tid.newWithTime state.last timestampMicros random with
    | none => (state, none)
    | some (_, last) => ({ state with last := last }, none)
  | .restart => ({ state with last := none }, none)

/-- The state after an input. -/
def accountStep (forms : TextForms) (account : Account) (state : AccountState ctx)
    (input : AccountInput) : AccountState ctx :=
  (accountStepOut forms account state input).1

theorem wellPlaced_commit {env : Environment} {swapCommit : Option Text} {last : Tid.LastTid}
    {storage : Storage ctx} (h : WellPlaced account.did storage.records) (ops : List WriteOp) :
  WellPlaced account.did (commit account env ops swapCommit last storage).2.2.records
  := by
  rw [commit]
  cases hprepare : prepareOps ops with
  | error error => exact h
  | ok prepared =>
    dsimp only
    cases checkSwap account swapCommit (storage.commits.latest.map CommitRow.cid) with
    | error error => exact h
    | ok _ =>
      dsimp only
      obtain ⟨-, hnamed⟩ := prepareOps_eq_ok hprepare
      obtain ⟨last', error, hfail⟩ | ⟨root, tid, last', batch, stored, hroot, -, hstore, hok⟩ :=
        writeOver_cases account env storage.commits.latest prepared last storage
      · rw [hfail]
        exact h
      · rw [hok]
        obtain ⟨signed, bytes, commits, rfl, -, rfl⟩ := storeDraft_eq_ok hstore
        have hgathered : GatheredFrom prepared
            (draftRoot account prepared (openDraft storage.commits.latest storage.blocks)).2 :=
          gathered_draftRoot (Prod.ext hroot rfl)
        apply h.applyBatch
        · intro row hrow
          obtain ⟨⟨collection, rkey, cid⟩, hmem, rfl⟩ := List.mem_map.mp hrow
          obtain ⟨op, hop, hrecord⟩ := hgathered.1 _ hmem
          have hplain := (hnamed op hop).1
          rw [hrecord] at hplain
          exact ⟨hplain, rfl⟩
        · intro record hrecord
          obtain ⟨op, hop, rfl⟩ := hgathered.2 record hrecord
          exact (hnamed op hop).1

theorem wellPlaced_importVerified {verified : Verified} {realm : PublicRealm ctx}
    (h : WellPlaced account.did realm.storage.records) :
  WellPlaced account.did (importVerified account forms verified realm).2.storage.records
  := by
  rw [importVerified, Action.bind_apply, Action.modify]
  dsimp only
  obtain ⟨commits, hframe⟩ := @insertCommits_frame ctx account none verified.chain
    { realm with storage :=
      { realm.storage with blocks := storeBlocks verified.blocks realm.storage.blocks } }
  rw [Action.bind_apply]
  generalize insertCommits account none verified.chain _ = inserted at hframe
  obtain ⟨result, mid⟩ := inserted
  dsimp only at hframe
  subst hframe
  cases result with
  | error error => exact h
  | ok _ =>
    dsimp only
    rw [Action.bind_apply, Action.ofExcept]
    cases commitCid ctx account verified.head with
    | error error => exact h
    | ok headCid =>
      dsimp only
      rw [Action.bind_apply, indexRecords, Action.bind_apply, Action.read]
      dsimp only
      cases (Mst.fromRoot verified.head.data
          (storeBlocks verified.blocks realm.storage.blocks)).entries with
      | error error => exact h
      | ok pairs =>
        change WellPlaced account.did
          (pairs.foldl (indexRecord forms account verified.head.rev) _).storage.records
        rw [foldl_indexRecord]
        exact (@WellPlaced.upsertEntries _ _ _ _ h fun entry hentry =>
          slash_not_mem_of_recordEntries hentry).1

theorem wellPlaced_importFromStream {importer : Importer} {σ : Type} {source : Wire.Source σ}
    {s : σ} {realm : PublicRealm ctx} (h : WellPlaced account.did realm.storage.records) :
  WellPlaced account.did
    (importFromStream account importer forms source s realm).2.storage.records
  := by
  rw [importFromStream, Action.bind_apply, Action.ofExcept]
  cases readVerified account importer ctx source s with
  | error error => exact h
  | ok verified => exact wellPlaced_importVerified h

/-- The rows of the index stand under the URIs of their records whatever happens. -/
theorem wellPlaced_step {state : AccountState ctx}
    (h : WellPlaced account.did state.realm.storage.records)
    (input : AccountInput) :
  WellPlaced account.did (accountStep forms account state input).realm.storage.records
  := by
  cases input with
  | write ops swapCommit env => exact wellPlaced_commit h ops
  | importRepo importer archive =>
    have himport := @wellPlaced_importFromStream ctx account forms importer _ Wire.slice archive _ h
    rw [accountStep, accountStepOut, importRealm]
    generalize importFromStream account importer forms Wire.slice archive state.realm = imported
      at himport
    obtain ⟨result, realm⟩ := imported
    cases result with
    | error error => exact himport
    | ok outcome => exact himport
  | issue timestampMicros random =>
    rw [accountStep, accountStepOut]
    cases Tid.newWithTime state.last timestampMicros random with
    | none => exact h
    | some issued => exact h
  | restart => exact h

theorem wellPlaced_run {backend : Backend} (inputs : List AccountInput) :
  WellPlaced account.did (run (accountStep forms account)
    (AccountState.start backend : AccountState ctx) inputs).realm.storage.records
  := by
  induction inputs using List.reverseRecOn with
  | nil =>
    cases backend with
    | sql => trivial
    | fjall => exact ⟨fun _ _ hrow => (by cases hrow), fun _ _ hkey => (by cases hkey)⟩
  | append_singleton inputs input ih =>
    rw [run, List.foldl_append]
    exact wellPlaced_step ih input

/-! ### Imports -/

/-- After any history, an import leaves exactly the rows and references of its tree when the index
before had no others, and no two of its entries have the same place. -/
theorem import_exact_of_run {backend : Backend} {inputs : List AccountInput}
    {state : AccountState ctx}
    (hstate : run (accountStep forms account) (AccountState.start backend) inputs = state)
    {importer : Importer} {σ : Type} {source : Wire.Source σ} {s : σ} {outcome : ImportOutcome}
    {realm : PublicRealm ctx}
    (himport : importFromStream account importer forms source s state.realm =
      (.ok outcome, realm)) :
  ∃ verified pairs, readVerified account importer ctx source s = .ok verified ∧
    (Mst.fromRoot verified.head.data realm.storage.blocks).entries = .ok pairs ∧
    (ImportExact account.did (recordBlobs forms account.format realm.storage.blocks) realm
        (recordEntries pairs) ↔
      Covered account.did (recordBlobs forms account.format realm.storage.blocks) state.realm
        (recordEntries pairs))
  := by
  obtain ⟨verified, hread, hstored⟩ := importFromStream_eq_ok.mp himport
  obtain ⟨pairs, himported⟩ := importVerified_eq_ok hstored
  have hplaced : WellPlaced account.did state.realm.storage.records := by
    rw [← hstate]
    exact wellPlaced_run inputs
  exact ⟨verified, pairs, hread, himported.walked, himported.exact_iff hplaced⟩

/-! #### A sample -/

/-- A digest of 32 bytes, made of a sum over the data. -/
def sumDigest (data : Bytes) : Bytes :=
  let sum := data.foldl (fun sum byte => (257 * sum + byte.toNat + 1) % 4294967291) 7
  (List.range 32).map fun i => UInt8.ofNat (sum / (i + 1))

/-- A tree of DAG-CBOR nodes under short digests. -/
def sumContext : Context := drisl sumDigest Car.multiformatsFront 8

/-- A writer of a repository. -/
def sumAccount : Account where
  did := textOf "did:x:y"
  format := Car.multiformatsFront
  cidText := multibaseToString
  recordBytes := repoRecordBytes multibase Car.multiformatsFront

/-- An importer that takes what fits into a KiB. -/
def sumImporter : Importer := ⟨1024, none⟩

/-- A write of the sample account. -/
def sumWrite (timestampMicros : Nat) (actions : List WriteAction) : AccountInput :=
  .write (actions.map sampleOp) none (sampleEnvironment timestampMicros)

/-- The sample account after its genesis commit and some writes. -/
def sumState (backend : Backend) (inputs : List AccountInput) : AccountState sumContext :=
  run (accountStep multibase sumAccount) (AccountState.start backend) (sumWrite 1 [] :: inputs)

/-- The blocks are small and have data. -/
def smallBlocks (blocks : List Bytes) : Bool :=
  decide (blocks.length ≤ 4) && blocks.all fun data => decide (0 < data.length ∧ data.length ≤ 256)

/-- The archive of some blocks, the first of which is the root. -/
def sumArchive (commit : Bytes) (blocks : List Bytes) : Bytes :=
  Car.archive Car.multiformatsFront [computeCid sumDigest commit]
    (blocks.map (Export.blockOf sumDigest))

/-- Small blocks are verified as they are. -/
theorem readVerified_sumArchive {commit : Bytes} {blocks : List Bytes}
    (h : smallBlocks blocks = true) :
  readVerified sumAccount sumImporter sumContext Wire.slice (sumArchive commit blocks) =
    verifyBlocks sumAccount sumImporter sumContext (computeCid sumDigest commit)
      ((blocks.map (Export.blockOf sumDigest)).map readBlockOf)
  := by
  obtain ⟨hcount, hall⟩ := (Bool.and_eq_true _ _).mp h
  have hcount := of_decide_eq_true hcount
  have hsizes : ∀ data ∈ blocks, 0 < data.length ∧ data.length ≤ 256 := fun data hdata =>
    of_decide_eq_true (List.all_eq_true.mp hall data hdata)
  have hstandard : Export.Standard Car.multiformatsFront sumDigest := Export.front_standard fun _ =>
    (List.length_map _).trans List.length_range
  have hdata : ∀ block ∈ blocks.map (Export.blockOf sumDigest),
      0 < block.data.length ∧ block.data.length ≤ 256 := by
    intro block hblock
    obtain ⟨data, hdata, rfl⟩ := List.mem_map.mp hblock
    exact hsizes data hdata
  have htotal : Car.totalSize Car.multiformatsFront (blocks.map (Export.blockOf sumDigest)) ≤
      4 * 292 := by
    refine (List.sum_le_card_nsmul _ 292 ?_).trans ?_
    · intro size hsize
      obtain ⟨block, hblock, rfl⟩ := List.mem_map.mp hsize
      obtain ⟨data, hmem, rfl⟩ := List.mem_map.mp hblock
      rw [Car.CarBlock.payload, List.length_append]
      have hcid := hstandard.length data
      have hlength := (hsizes data hmem).2
      change (Car.multiformatsFront.toBytes (computeCid sumDigest data)).length = 36 at hcid
      change (Car.multiformatsFront.toBytes (computeCid sumDigest data)).length + data.length ≤ 292
      omega
    · rw [List.length_map, List.length_map, smul_eq_mul]
      exact Nat.mul_le_mul_right _ hcount
  have hsum : dataSize (blocks.map (Export.blockOf sumDigest)) ≤ 1024 := by
    refine (List.sum_le_card_nsmul _ 256 ?_).trans ?_
    · intro size hsize
      obtain ⟨block, hblock, rfl⟩ := List.mem_map.mp hsize
      exact (hdata block hblock).2
    · rw [List.length_map, List.length_map, smul_eq_mul]
      exact Nat.mul_le_mul_right 256 hcount
  have hroom : Export.Room Car.multiformatsFront .default (blocks.map (Export.blockOf sumDigest)) := by
    have hmaxCount : Car.LimitsConfig.default.maxBlockCount = 100000 := rfl
    have hmaxSize : Car.LimitsConfig.default.maxBlockSize = 1048576 := rfl
    have hmaxTotal : Car.LimitsConfig.default.maxCarSize = 10 * 1024 * 1024 * 1024 := rfl
    refine ⟨?_, ?_, ?_, ?_⟩
    · rw [List.length_map]
      omega
    · exact fun block hblock => List.ne_nil_of_length_pos (hdata block hblock).1
    · intro block hblock
      have hlength := (hdata block hblock).2
      omega
    · omega
  exact readVerified_of_readCar
    (hstandard.readCar_blocks Car.front_framed Car.front_lawful hroom) (by decide) hsum

/-- The archive of some blocks, the first of which is a commit. -/
def archiveOf : List Bytes → Bytes
  | [] => []
  | commit :: blocks => sumArchive commit (commit :: blocks)

/-- What verifying the archive of some small blocks gives. -/
def verifiedOf : List Bytes → Option Verified
  | [] => none
  | commit :: blocks =>
    if smallBlocks (commit :: blocks) then
      (verifyBlocks sumAccount sumImporter sumContext (computeCid sumDigest commit)
        (((commit :: blocks).map (Export.blockOf sumDigest)).map readBlockOf)).toOption
    else none

theorem readVerified_archiveOf {blocks : List Bytes} {verified : Verified}
    (h : verifiedOf blocks = some verified) :
  readVerified sumAccount sumImporter sumContext Wire.slice (archiveOf blocks) = .ok verified
  := by
  cases blocks with
  | nil => cases h
  | cons commit blocks =>
    rw [verifiedOf] at h
    split at h
    · rename_i hsmall
      rw [archiveOf]
      refine (readVerified_sumArchive hsmall).trans ?_
      generalize verifyBlocks sumAccount sumImporter sumContext (computeCid sumDigest commit)
        (((commit :: blocks).map (Export.blockOf sumDigest)).map readBlockOf) = result at h ⊢
      cases result with
      | error error => cases h
      | ok found => exact congrArg Except.ok (Option.some.inj h)
    · cases h

/-- Import the archive of some small blocks. -/
def importOf (blocks : List Bytes) (realm : PublicRealm sumContext) :
    Option (Verified × ImportOutcome × PublicRealm sumContext) := do
  let verified ← verifiedOf blocks
  match importVerified sumAccount multibase verified realm with
  | (.error _, _) => none
  | (.ok outcome, realm) => some (verified, outcome, realm)

theorem importFromStream_archiveOf {blocks : List Bytes} {realm realm' : PublicRealm sumContext}
    {verified : Verified} {outcome : ImportOutcome}
    (h : importOf blocks realm = some (verified, outcome, realm')) :
  readVerified sumAccount sumImporter sumContext Wire.slice (archiveOf blocks) = .ok verified ∧
    importFromStream sumAccount sumImporter multibase Wire.slice (archiveOf blocks) realm =
      (.ok outcome, realm')
  := by
  obtain ⟨found, hverified, h⟩ := Option.bind_eq_some_iff.mp h
  generalize himport : importVerified sumAccount multibase found realm = result at h
  obtain ⟨imported, after⟩ := result
  cases imported with
  | error error => cases h
  | ok kept =>
    cases h
    have hread := readVerified_archiveOf hverified
    exact ⟨hread, importFromStream_eq_ok.mpr ⟨_, hread, himport⟩⟩

/-- The blocks of an account: its last commit, the root of its tree, and some records. -/
def headBlocks (state : AccountState sumContext) (records : List Bytes) : List Bytes :=
  match state.realm.storage.commits.latest with
  | none => []
  | some row => [row.cid, row.dataCid].filterMap state.realm.storage.blocks.blocks ++ records

/-- A picture in a record, with its caption. -/
def pictureOf (caption : String) (data : Bytes) : Json :=
  .object [(textOf "caption", .string (textOf caption)),
    (textOf "image", .object [(textOf "$type", .string (textOf "blob")),
      (textOf "mimeType", .string (textOf "image/png")),
      (textOf "ref", .object [(textOf "$link",
        .string (multibaseToString (computeCid sumDigest data)))]),
      (textOf "size", .number (.posInt 1))])]

/-- A record of `com.a.b` as it is stored. -/
def storedRecord (value : Json) : Bytes :=
  ((reconcileType (textOf "com.a.b") value).toOption.bind fun value =>
    (sumAccount.recordBytes value).toOption).getD []

/-- Create a record of `com.a.b`. -/
def createRecord (rkey : String) (value : Json) : WriteOp where
  action := .create
  collection := textOf "com.a.b"
  rkey := textOf rkey
  value := some value
  swapRecord := none

/-- The blocks of an account that has created some records in its first commit. -/
def albumBlocks (records : List (String × Json)) : List Bytes :=
  headBlocks
    (accountStep multibase sumAccount (AccountState.start .sql)
      (.write (records.map fun record => createRecord record.1 record.2) none
        (sampleEnvironment 1)))
    (records.map fun record => storedRecord record.2)

/-- An album with one picture. -/
def oldAlbum : List Bytes := albumBlocks [("k", pictureOf "first" [1])]

/-- The album with another caption and one more picture. -/
def newAlbum : List Bytes :=
  albumBlocks [("k", pictureOf "again" [1]), ("m", pictureOf "second" [2])]

/-- The entries of the tree that was imported. -/
def importedEntries (verified : Verified) (realm : PublicRealm sumContext) :
    Option (List ((Text × Text) × Cid)) :=
  (Mst.fromRoot verified.head.data realm.storage.blocks).entries.toOption.map recordEntries

/-- The places of some entries are different, and they cover the rows and the references of an
index. -/
def coveredBy (blobsOf : Cid → List BlobRef) (rows : List ((Text × Text) × Cid)) (refs : BlobRefs)
    (entries : List ((Text × Text) × Cid)) : Bool :=
  entries.all (fun a => entries.all fun b => indexKey a.1 != indexKey b.1 || a == b) &&
    rows.all (fun row => entries.any fun a => row.1 == a.1) &&
    refs.rows.all (fun row => entries.any fun entry =>
      row.1.1 == uriOf sumAccount.did entry.1 && firstBlob (blobsOf entry.2) row.1.2 == some row.2) &&
    entries.all fun entry => !(uriOf sumAccount.did entry.1).bytes.contains 0

theorem covered_of_coveredBy {blobsOf : Cid → List BlobRef} {rows : List ((Text × Text) × Cid)}
    {realm : PublicRealm sumContext} {entries : List ((Text × Text) × Cid)}
    (h : coveredBy blobsOf rows realm.blobRefs entries = true)
    (hrows : ∀ row ∈ realm.storage.records.entries, row ∈ rows) :
  Covered sumAccount.did blobsOf realm entries
  := by
  simp only [coveredBy, Bool.and_eq_true, List.all_eq_true, List.any_eq_true, Bool.or_eq_true,
    bne_iff_ne, beq_iff_eq] at h
  obtain ⟨⟨⟨hplaces, hcovers⟩, hrefs⟩, huris⟩ := h
  refine ⟨?_, ?_, hrefs, ?_⟩
  · intro a ha b hb hslot
    have hkey : indexKey a.1 = indexKey b.1 := by
      generalize realm.storage.records.backend = backend at hslot
      cases backend with
      | sql => exact congrArg indexKey hslot
      | fjall => exact hslot
    exact (hplaces a ha b hb).resolve_left (not_not.mpr hkey)
  · intro row hrow
    obtain ⟨a, ha, heq⟩ := hcovers row (hrows row hrow)
    exact ⟨a, ha, SameSlot.of_eq heq⟩
  · rintro row ⟨entry, hentry, huri, -⟩
    generalize realm.blobRefs = refs
    cases refs with
    | sql rows => trivial
    | fjall rows =>
      intro hzero
      rw [huri] at hzero
      have hno := huris entry hentry
      rw [List.contains_iff_mem.mpr hzero] at hno
      cases hno

/-- What importing one archive after another gives, with the entries of both trees. -/
def importTwice (backend : Backend) (first second : List Bytes) :
    Option ((List ((Text × Text) × Cid) × PublicRealm sumContext) ×
      List ((Text × Text) × Cid) × PublicRealm sumContext) := do
  let (verified, _, before) ← importOf first (.empty sumContext backend)
  let rows ← importedEntries verified before
  let (verified, _, realm) ← importOf second before
  let entries ← importedEntries verified realm
  some ((rows, before), entries, realm)

/-- Both archives cover what is there when they are imported, and the second one has two records and
two references. -/
def coveredTwice (backend : Backend) (first second : List Bytes) : Bool :=
  match importTwice backend first second with
  | none => false
  | some ((rows, before), entries, realm) =>
    coveredBy (recordBlobs multibase sumAccount.format before.storage.blocks) []
        (BlobRefs.empty backend) rows &&
      coveredBy (recordBlobs multibase sumAccount.format realm.storage.blocks) rows
        before.blobRefs entries &&
      rows.length == 1 && entries.length == 2 && realm.blobRefs.rows.length == 2

theorem importedEntries_eq {verified : Verified} {realm : PublicRealm sumContext}
    {entries : List ((Text × Text) × Cid)} {pairs : List (Key × Cid)}
    (h : importedEntries verified realm = some entries)
    (hpairs : (Mst.fromRoot verified.head.data realm.storage.blocks).entries = .ok pairs) :
  recordEntries pairs = entries
  := by
  rw [importedEntries, hpairs] at h
  exact Option.some.inj h

/-- Importing an archive leaves the cell of TIDs alone. -/
theorem run_importRepo {backend : Backend} {archive : Bytes} {outcome : ImportOutcome}
    {realm : PublicRealm sumContext}
    (h : importFromStream sumAccount sumImporter multibase Wire.slice archive
      (.empty sumContext backend) = (.ok outcome, realm)) :
  run (accountStep multibase sumAccount) (AccountState.start backend)
    [.importRepo sumImporter archive] = ⟨none, realm⟩
  := by
  have himport : importRealm multibase sumAccount sumImporter archive (.empty sumContext backend) =
      (realm, (readVerified sumAccount sumImporter sumContext Wire.slice archive).toOption.map
        fun verified => ⟨outcome.headCid, verified.head.data⟩) := by
    rw [importRealm, h]
  rw [run, List.foldl_cons, List.foldl_nil, accountStep, accountStepOut]
  dsimp only [AccountState.start]
  rw [himport]

/-- An album is imported over an older one: the index has exactly its two records and its two
pictures. -/
theorem import_exact_of_run_albums :
  ∃ (outcome : ImportOutcome) (realm : PublicRealm sumContext)
      (entries : List ((Text × Text) × Cid)),
    importFromStream sumAccount sumImporter multibase Wire.slice (archiveOf newAlbum)
        (run (accountStep multibase sumAccount) (AccountState.start .fjall)
          [.importRepo sumImporter (archiveOf oldAlbum)]).realm = (.ok outcome, realm) ∧
      entries.length = 2 ∧ realm.blobRefs.rows.length = 2 ∧
      ImportExact sumAccount.did (recordBlobs multibase sumAccount.format realm.storage.blocks)
        realm entries
  := by
  have hcheck : coveredTwice .fjall oldAlbum newAlbum = true := by decide +kernel
  generalize oldAlbum = first, newAlbum = second at hcheck ⊢
  rw [coveredTwice] at hcheck
  cases htwice : importTwice .fjall first second with
  | none =>
    rw [htwice] at hcheck
    cases hcheck
  | some both =>
    obtain ⟨⟨rows, before⟩, entries, realm⟩ := both
    rw [htwice] at hcheck
    simp only [Bool.and_eq_true, beq_iff_eq] at hcheck
    obtain ⟨⟨⟨⟨hfirst, hsecond⟩, -⟩, hlength⟩, hrefs⟩ := hcheck
    obtain ⟨⟨verified, outcome, before'⟩, holdImport, htwice⟩ :=
      Option.bind_eq_some_iff.mp htwice
    obtain ⟨rows', hrows, htwice⟩ := Option.bind_eq_some_iff.mp htwice
    obtain ⟨⟨verified', outcome', realm'⟩, hnewImport, htwice⟩ :=
      Option.bind_eq_some_iff.mp htwice
    obtain ⟨entries', hentries, htwice⟩ := Option.bind_eq_some_iff.mp htwice
    cases htwice
    obtain ⟨hread, hstream⟩ := importFromStream_archiveOf holdImport
    obtain ⟨hread', hstream'⟩ := importFromStream_archiveOf hnewImport
    -- the first archive is imported into an empty index
    obtain ⟨found, pairs, hfound, hpairs, hiff⟩ := @import_exact_of_run sumContext sumAccount
      multibase .fjall [] _ rfl _ _ _ _ _ _ hstream
    obtain rfl : verified = found := Except.ok.inj (hread.symm.trans hfound)
    rw [importedEntries_eq hrows hpairs] at hiff
    have hbefore := hiff.mpr (covered_of_coveredBy hfirst fun row hrow => (by
      obtain ⟨uri, row, hnone, -⟩ := hrow
      cases hnone))
    -- the second one is imported over the index of the first
    have hrun := run_importRepo hstream
    obtain ⟨found', pairs', hfound', hpairs', hiff'⟩ := @import_exact_of_run sumContext sumAccount
      multibase .fjall _ _ hrun _ _ _ _ _ _ hstream'
    obtain rfl : verified' = found' := Except.ok.inj (hread'.symm.trans hfound')
    rw [importedEntries_eq hentries hpairs'] at hiff'
    refine ⟨outcome', realm, entries, ?_, hlength, hrefs, ?_⟩
    · rw [hrun]
      exact hstream'
    · exact hiff'.mpr (covered_of_coveredBy hsecond fun row hrow => (hbefore.rows row).mp hrow)

/-! #### An archive without records -/

/-- The commit and the tree of an account without records. -/
def genesisBlocks (backend : Backend) : List Bytes := headBlocks (sumState backend []) []

/-- The archive of an account without records. -/
def genesisArchive (backend : Backend) : Bytes := archiveOf (genesisBlocks backend)

/-- Import the archive of an account without records. -/
def importGenesis (backend : Backend) (inputs : List AccountInput) :
    Option (Verified × ImportOutcome × PublicRealm sumContext) :=
  importOf (genesisBlocks backend) (sumState backend inputs).realm

/-- Importing into the sample account always leaves exactly the index of the imported tree. -/
def ReplacesIndex (backend : Backend) : Prop :=
  ∀ inputs archive outcome verified realm pairs,
    importFromStream sumAccount sumImporter multibase Wire.slice archive
      (sumState backend inputs).realm = (.ok outcome, realm) →
    readVerified sumAccount sumImporter sumContext Wire.slice archive = .ok verified →
    (Mst.fromRoot verified.head.data realm.storage.blocks).entries = .ok pairs →
    ImportExact sumAccount.did (recordBlobs multibase sumAccount.format realm.storage.blocks) realm
      (recordEntries pairs)

/-- The record of the sample account is in the index, and the imported tree is empty. -/
def keepsRecord (backend : Backend) : Bool :=
  match importGenesis backend [sumWrite 2 [.create]] with
  | none => false
  | some (verified, _, realm) =>
    (realm.storage.records.find sumAccount.did (textOf "com.a.b", textOf "k")).isSome &&
      ((Mst.fromRoot verified.head.data realm.storage.blocks).entries.toOption.map
        List.isEmpty).getD false

theorem not_replacesIndex {backend : Backend} (h : keepsRecord backend = true) :
  ¬ ReplacesIndex backend
  := by
  intro hclaim
  rw [keepsRecord] at h
  cases himport : importGenesis backend [sumWrite 2 [.create]] with
  | none =>
    rw [himport] at h
    cases h
  | some found =>
    obtain ⟨verified, outcome, realm⟩ := found
    rw [himport] at h
    obtain ⟨hrow, hempty⟩ := (Bool.and_eq_true _ _).mp h
    obtain ⟨cid, hcid⟩ := Option.isSome_iff_exists.mp hrow
    obtain ⟨hread, hstream⟩ := importFromStream_archiveOf himport
    cases hpairs : (Mst.fromRoot verified.head.data realm.storage.blocks).entries with
    | error error =>
      rw [hpairs] at hempty
      cases hempty
    | ok pairs =>
      rw [hpairs] at hempty
      have hnil : pairs = [] := List.isEmpty_iff.mp hempty
      have hexact := hclaim _ _ outcome verified realm pairs hstream hread hpairs
      have hmem := (hexact.rows ((textOf "com.a.b", textOf "k"), cid)).mp
        (RepoRecordStorage.row_of_find hcid)
      rw [hnil] at hmem
      cases hmem

/-- An older archive leaves the rows of later records in both indexes. -/
theorem import_keeps_rows :
  ¬ ReplacesIndex .sql ∧ ¬ ReplacesIndex .fjall
  := ⟨not_replacesIndex (by decide +kernel), not_replacesIndex (by decide +kernel)⟩

end Atproto.Pds
