import Atproto.Pds.AccountRuns

/-!
# The head of an account

The latest commit of an account is the one with the greatest revision.  It is the one that was
written or imported last when each new head has a revision that is not below the stored ones; a
head that is imported again must be the latest commit already where its row is kept.
-/

namespace Atproto.Pds

open Atproto.Dasl Atproto.Record Atproto.Repo Logic Logic.Machine SearchTree

variable {ctx : Context} {account : Account} {forms : TextForms}

/-! ### The latest commit -/

/-- The CID of a row and the root of its tree. -/
def CommitRow.head (row : CommitRow) : Head := ⟨row.cid, row.dataCid⟩

namespace CommitObjStorage

variable {commits commits' : CommitObjStorage} {row : CommitRow} {rev : Text} {cid : Cid}

/-- No revision that is stored is above the revision. -/
def AtMost (rev : Text) : CommitObjStorage → Prop
  | .sql commitObj => ∀ row ∈ commitObj, row.rev ≤ rev
  | .fjall _ commitByRev => ∀ entry ∈ commitByRev, entry.1 ≤ rev

instance (rev : Text) : ∀ commits : CommitObjStorage, Decidable (commits.AtMost rev)
  | .sql commitObj => inferInstanceAs (Decidable (∀ row ∈ commitObj, row.rev ≤ rev))
  | .fjall _ commitByRev => inferInstanceAs (Decidable (∀ entry ∈ commitByRev, entry.1 ≤ rev))

/-- In SQL no row has the CID. -/
def Lacks (cid : Cid) : CommitObjStorage → Prop
  | .sql commitObj => ∀ row ∈ commitObj, row.cid ≠ cid
  | .fjall _ _ => True

/-- A commit that is not below the others is the latest one. -/
theorem latest_of_atMost (hmost : commits.AtMost row.rev) (h : commits.insert row = .ok commits') :
  commits'.latest = some row
  := by
  cases commits with
  | sql commitObj =>
    rw [CommitObjStorage.insert] at h
    split at h
    · cases h
    · cases h
      rw [latest, latestRow_concat]
      cases hrow : latestRow commitObj with
      | none => rfl
      | some other => exact if_pos (hmost other (mem_of_latestRow hrow))
  | fjall commitObj commitByRev =>
    cases h
    rw [latest, SearchTree.insert, above_eq_nil hmost, List.getLast?_concat]
    exact Function.update_self _ _ _

theorem insert_of_lacks (h : commits.Lacks row.cid) :
  commits.insert row = .ok (insertCommit row commits)
  := by
  cases commits with
  | sql commitObj =>
    have hnot : ¬ (commitObj.any fun other => other.cid = row.cid) = true := by
      intro hany
      obtain ⟨other, hother, heq⟩ := List.any_eq_true.mp hany
      exact h other hother (of_decide_eq_true heq)
    rw [insertCommit, CommitObjStorage.insert, if_neg hnot]
  | fjall commitObj commitByRev => rfl

/-- What is left after a row was offered. -/
theorem insertCommit_cases (row : CommitRow) (commits : CommitObjStorage) :
  insertCommit row commits = commits ∨ commits.insert row = .ok (insertCommit row commits)
  := by
  rw [insertCommit]
  cases h : commits.insert row with
  | error error => exact Or.inl rfl
  | ok commits' => exact Or.inr rfl

theorem AtMost.insert (h : commits.AtMost rev) (hrow : row.rev ≤ rev)
    (hinsert : commits.insert row = .ok commits') :
  commits'.AtMost rev
  := by
  cases commits with
  | sql commitObj =>
    rw [CommitObjStorage.insert] at hinsert
    split at hinsert
    · cases hinsert
    · cases hinsert
      intro other hother
      rcases List.mem_append.mp hother with hother | hother
      · exact h other hother
      · obtain rfl := List.mem_singleton.mp hother
        exact hrow
  | fjall commitObj commitByRev =>
    cases hinsert
    intro entry hentry
    rcases mem_insert.mp hentry with rfl | hentry
    · exact hrow
    · exact h entry (mem_of_mem_erase hentry).1

theorem AtMost.insertCommit (h : commits.AtMost rev) (hrow : row.rev ≤ rev) :
  (insertCommit row commits).AtMost rev
  := by
  rcases insertCommit_cases row commits with hsame | hinsert
  · rw [hsame]
    exact h
  · exact h.insert hrow hinsert

theorem Lacks.insertCommit (h : commits.Lacks cid) (hrow : row.cid ≠ cid) :
  (insertCommit row commits).Lacks cid
  := by
  rcases insertCommit_cases row commits with hsame | hinsert
  · rw [hsame]
    exact h
  · cases commits with
    | sql commitObj =>
      rw [CommitObjStorage.insert] at hinsert
      split at hinsert
      · cases hinsert
      · rw [← Except.ok.inj hinsert]
        intro other hother
        rcases List.mem_append.mp hother with hother | hother
        · exact h other hother
        · obtain rfl := List.mem_singleton.mp hother
          exact hrow
    | fjall commitObj commitByRev =>
      rw [← Except.ok.inj hinsert]
      trivial

end CommitObjStorage

/-! ### The commits of an archive -/

/-- The last commit of a chain comes out as the latest one: either it is new and its revision is
not below the others, or its row is the latest one and the rest of the chain is below it. -/
def Tops (ctx : Context) (account : Account) (earlier : List Commit) (head : Commit) (cid : Cid)
    (commits : CommitObjStorage) : Prop :=
  ((∀ commit ∈ earlier, commit.rev ≤ head.rev ∧ commitCid ctx account commit ≠ .ok cid) ∧
    commits.AtMost head.rev ∧ commits.Lacks cid) ∨
  ∃ commitObj row, commits = .sql commitObj ∧ CommitObjStorage.latestRow commitObj = some row ∧
    row.head = ⟨cid, head.data⟩ ∧ ∀ commit ∈ earlier, commit.rev < row.rev

section Chain

variable {earlier : List Commit} {commit head : Commit} {cid headCid : Cid}
  {commits : CommitObjStorage}

theorem Tops.step (h : Tops ctx account (commit :: earlier) head headCid commits)
    (hcid : commitCid ctx account commit = .ok cid) (prevData : Option Cid) :
  Tops ctx account earlier head headCid (insertCommit (importedRow cid commit prevData) commits)
  := by
  obtain ⟨hchain, hmost, hlacks⟩ | ⟨commitObj, row, rfl, hrow, hhead, hchain⟩ := h
  · obtain ⟨⟨hle, hne⟩, hrest⟩ := List.forall_mem_cons.mp hchain
    refine Or.inl ⟨hrest, hmost.insertCommit hle, hlacks.insertCommit ?_⟩
    rintro rfl
    exact hne hcid
  · obtain ⟨hlt, hrest⟩ := List.forall_mem_cons.mp hchain
    refine Or.inr ?_
    rcases CommitObjStorage.insertCommit_cases (importedRow cid commit prevData)
      (.sql commitObj) with hsame | hinsert
    · exact ⟨commitObj, row, hsame, hrow, hhead, hrest⟩
    · rw [CommitObjStorage.insert] at hinsert
      split at hinsert
      · cases hinsert
      · refine ⟨_, row, (Except.ok.inj hinsert).symm, ?_, hhead, hrest⟩
        rw [latestRow_concat, hrow]
        exact if_neg hlt.not_ge

theorem Tops.latest (h : Tops ctx account [] head headCid commits) (prevData : Option Cid) :
  (insertCommit (importedRow headCid head prevData) commits).latest.map CommitRow.head =
    some ⟨headCid, head.data⟩
  := by
  obtain ⟨-, hmost, hlacks⟩ | ⟨commitObj, row, rfl, hrow, hhead, -⟩ := h
  · have hinsert : commits.insert (importedRow headCid head prevData) =
        .ok (insertCommit (importedRow headCid head prevData) commits) :=
      CommitObjStorage.insert_of_lacks hlacks
    rw [CommitObjStorage.latest_of_atMost hmost hinsert]
    rfl
  · have hcid : row.cid = headCid := congrArg Head.cid hhead
    have hany : (commitObj.any fun other =>
        other.cid = (importedRow headCid head prevData).cid) = true :=
      List.any_eq_true.mpr ⟨row, mem_of_latestRow hrow, decide_eq_true hcid⟩
    rw [insertCommit, CommitObjStorage.insert, if_pos hany]
    change (CommitObjStorage.latestRow commitObj).map CommitRow.head = _
    rw [hrow, ← hhead]
    rfl

/-- Inserting a chain makes its last commit the latest one. -/
theorem latest_insertCommits {prevData : Option Cid} {realm : PublicRealm ctx}
    (hcids : ∀ commit ∈ earlier, ∃ cid, commitCid ctx account commit = .ok cid)
    (hhead : commitCid ctx account head = .ok headCid)
    (h : Tops ctx account earlier head headCid realm.storage.commits) :
  ∃ commits, insertCommits account prevData (earlier ++ [head]) realm =
      (.ok (), { realm with storage := { realm.storage with commits := commits } }) ∧
    commits.latest.map CommitRow.head = some ⟨headCid, head.data⟩
  := by
  induction earlier generalizing prevData realm with
  | nil =>
    refine ⟨_, ?_, h.latest prevData⟩
    rw [List.nil_append, insertCommits, Action.bind_apply, Action.ofExcept, hhead]
    rfl
  | cons commit earlier ih =>
    obtain ⟨⟨cid, hcid⟩, hrest⟩ := List.forall_mem_cons.mp hcids
    obtain ⟨commits, hinserted, hlatest⟩ := @ih (some commit.data) { realm with storage :=
      { realm.storage with
        commits := insertCommit (importedRow cid commit prevData) realm.storage.commits } }
      hrest (h.step hcid prevData)
    refine ⟨commits, ?_, hlatest⟩
    rw [List.cons_append, insertCommits, Action.bind_apply, Action.ofExcept, hcid]
    exact hinserted

end Chain

/-! ### Imports -/

/-- The commits of an archive can be encoded again, its last one comes out as the latest one, and
the entries of its tree can be listed. -/
structure Lands (account : Account) (realm : PublicRealm ctx) (verified : Verified) : Prop where
  encoded : ∀ commit ∈ verified.chain, ∃ cid, commitCid ctx account commit = .ok cid
  tops : ∀ cid, commitCid ctx account verified.head = .ok cid →
    Tops ctx account verified.chain.dropLast verified.head cid realm.storage.commits
  listed : ∃ pairs, (Mst.fromRoot verified.head.data
    (storeBlocks verified.blocks realm.storage.blocks)).entries = .ok pairs

/-- The head of an archive is the last commit of its chain. -/
theorem chain_of_readVerified {importer : Importer} {σ : Type} {source : Wire.Source σ} {s : σ}
    {verified : Verified} (h : readVerified account importer ctx source s = .ok verified) :
  verified.chain.dropLast ++ [verified.head] = verified.chain
  := by
  obtain ⟨r, -, h⟩ := bind_eq_ok.mp h
  split at h
  · cases h
  obtain ⟨blocks, -, h⟩ := bind_eq_ok.mp h
  obtain ⟨chain, -, h⟩ := bind_eq_ok.mp h
  split at h
  · cases h
  · rename_i head hhead
    obtain ⟨⟨⟩, -, h⟩ := bind_eq_ok.mp h
    obtain ⟨⟨⟩, -, h⟩ := bind_eq_ok.mp h
    cases h
    exact List.dropLast_append_getLast? head hhead

theorem importVerified_of_lands {verified : Verified} {realm : PublicRealm ctx}
    (hchain : verified.chain.dropLast ++ [verified.head] = verified.chain)
    (h : Lands account realm verified) :
  ∃ outcome realm', importVerified account forms verified realm = (.ok outcome, realm') ∧
    realm'.storage.commits.latest.map CommitRow.head =
      some ⟨outcome.headCid, verified.head.data⟩
  := by
  have hmem : verified.head ∈ verified.chain := by
    rw [← hchain]
    exact List.mem_append_right _ List.mem_cons_self
  obtain ⟨headCid, hhead⟩ := h.encoded _ hmem
  obtain ⟨pairs, hpairs⟩ := h.listed
  have hearlier : ∀ commit ∈ verified.chain.dropLast,
      ∃ cid, commitCid ctx account commit = .ok cid :=
    fun commit hcommit => h.encoded commit (List.mem_of_mem_dropLast hcommit)
  obtain ⟨commits, hinserted, hlatest⟩ := @latest_insertCommits ctx account _ _ _ none
    { realm with storage :=
      { realm.storage with blocks := storeBlocks verified.blocks realm.storage.blocks } }
    hearlier hhead (h.tops headCid hhead)
  rw [hchain] at hinserted
  rw [importVerified, Action.bind_apply, Action.modify]
  dsimp only
  rw [Action.bind_apply, hinserted]
  dsimp only
  rw [Action.bind_apply, hhead, Action.ofExcept]
  dsimp only
  rw [Action.bind_apply, indexRecords_eq_ok.mpr ⟨pairs, hpairs, rfl⟩, foldl_indexRecord]
  exact ⟨_, _, rfl, hlatest⟩

/-! ### Writes -/

/-- The tree of a head, before anything was gathered. -/
def draftOver (head : Option Head) (blocks : BlockStore ctx.sha256) : Draft ctx where
  mst :=
    match head with
    | some head => Mst.fromRoot head.data blocks
    | none => Mst.new blocks
  diffs := []
  recordRows := []
  deleteRkeys := []
  touchedKeys := []

theorem openDraft_eq_draftOver (prior : Option CommitRow) (blocks : BlockStore ctx.sha256) :
  openDraft prior blocks = draftOver (prior.map CommitRow.head) blocks
  := by
  cases prior with
  | none => rfl
  | some row => rfl

/-- A batch commits what its operations make of the tree of a head. -/
structure BuildsOn (account : Account) (head : Option Head) (blocks : BlockStore ctx.sha256)
    (ops : List WriteOp) (batch : CommitBatch) : Prop where
  prevCid : batch.commit.prevCid = head.map Head.cid
  prevDataCid : batch.commit.prevDataCid = head.map Head.data
  tree : ∃ prepared, prepareOps ops = .ok prepared ∧
    (draftRoot account prepared (draftOver head blocks)).1 = .ok batch.commit.dataCid

/-- A write either fails and leaves the commits alone, or it inserts a commit that builds on the
latest one. -/
theorem commit_cases (account : Account) (env : Environment) (ops : List WriteOp)
    (swapCommit : Option Text) (last : Tid.LastTid) (storage : Storage ctx) :
  (∃ last' error storage', commit account env ops swapCommit last storage =
      (last', .error error, storage') ∧ storage'.commits = storage.commits) ∨
  ∃ tid last' batch storage', commit account env ops swapCommit last storage =
      (last', .ok batch, storage') ∧
    Tid.newWithTime last env.timestampMicros env.random = some (tid, last') ∧
    batch.commit.rev = revOf tid ∧
    BuildsOn account (storage.commits.latest.map CommitRow.head) storage.blocks ops batch ∧
    storage.commits.insert batch.commit = .ok storage'.commits
  := by
  rw [commit]
  cases hprepare : prepareOps ops with
  | error error => exact Or.inl ⟨last, error, storage, rfl, rfl⟩
  | ok prepared =>
    dsimp only
    cases checkSwap account swapCommit (storage.commits.latest.map CommitRow.cid) with
    | error error => exact Or.inl ⟨last, error, storage, rfl, rfl⟩
    | ok _ =>
      dsimp only
      obtain ⟨last', error, hfail⟩ | ⟨root, tid, last', batch, stored, hroot, htid, hstore, hok⟩ :=
        writeOver_cases account env storage.commits.latest prepared last storage
      · exact Or.inl ⟨last', error, _, hfail, rfl⟩
      · obtain ⟨signed, bytes, commits, rfl, hinsert, rfl⟩ := storeDraft_eq_ok hstore
        refine Or.inr ⟨tid, last', _, _, hok, htid, rfl, ⟨?_, ?_, prepared, hprepare, ?_⟩, hinsert⟩
        · rw [Option.map_map]
          rfl
        · rw [Option.map_map]
          rfl
        · rw [← openDraft_eq_draftOver]
          exact hroot

/-! ### Runs -/

/-- The state of an account, and the head that was written or imported last. -/
structure Progress (ctx : Context) where
  state : AccountState ctx
  head : Option Head

/-- Nothing has been stored. -/
def Progress.start (backend : Backend) : Progress ctx := ⟨.start backend, none⟩

/-- The state after an input, and the head that it has added when there is one. -/
def progressStep (forms : TextForms) (account : Account) (progress : Progress ctx)
    (input : AccountInput) : Progress ctx :=
  let (state, head) := accountStepOut forms account progress.state input
  ⟨state, head.or progress.head⟩

/-- The revision of a write is not below those that are stored, and an archive that is verified
lands on top of them. -/
def Rises (account : Account) (progress : Progress ctx) : AccountInput → Prop
  | .write _ _ env => ∀ tid last,
    Tid.newWithTime progress.state.last env.timestampMicros env.random = some (tid, last) →
    progress.state.realm.storage.commits.AtMost (revOf tid)
  | .importRepo importer archive => ∀ verified,
    readVerified account importer ctx Wire.slice archive = .ok verified →
    Lands account progress.state.realm verified
  | .issue _ _ => True
  | .restart => True

/-- The latest commit is the head, and the next write builds on it. -/
structure OnTop (account : Account) (progress : Progress ctx) : Prop where
  latest : progress.state.realm.storage.commits.latest.map CommitRow.head = progress.head
  next : ∀ env ops swapCommit batch,
    (commitRealm account env ops swapCommit progress.state).2 = .ok batch →
    BuildsOn account progress.head progress.state.realm.storage.blocks ops batch

theorem onTop_of_latest {progress : Progress ctx}
    (h : progress.state.realm.storage.commits.latest.map CommitRow.head = progress.head) :
  OnTop account progress
  := by
  refine ⟨h, ?_⟩
  intro env ops swapCommit batch hbatch
  rw [← h]
  obtain ⟨last', error, storage', hfail, -⟩ | ⟨tid, last', batch', storage', hok, -, -, hbuilds, -⟩ :=
    commit_cases account env ops swapCommit progress.state.last progress.state.realm.storage
  · rw [commitRealm, hfail] at hbatch
    cases hbatch
  · rw [commitRealm, hok] at hbatch
    cases hbatch
    exact hbuilds

/-- A step keeps the latest commit at the head. -/
theorem latest_step {progress : Progress ctx} {input : AccountInput}
    (h : progress.state.realm.storage.commits.latest.map CommitRow.head = progress.head)
    (hinput : Rises account progress input) :
  (progressStep forms account progress input).state.realm.storage.commits.latest.map
      CommitRow.head = (progressStep forms account progress input).head
  := by
  cases input with
  | write ops swapCommit env =>
    obtain ⟨last', error, storage', hfail, hcommits⟩ |
      ⟨tid, last', batch, storage', hok, htid, hrev, -, hinsert⟩ :=
      commit_cases account env ops swapCommit progress.state.last progress.state.realm.storage
    · rw [progressStep, accountStepOut, commitRealm, hfail]
      change storage'.commits.latest.map CommitRow.head = progress.head
      rw [hcommits]
      exact h
    · rw [progressStep, accountStepOut, commitRealm, hok]
      change storage'.commits.latest.map CommitRow.head = some batch.commit.head
      have hmost := hinput tid last' htid
      rw [← hrev] at hmost
      rw [CommitObjStorage.latest_of_atMost hmost hinsert]
      rfl
  | importRepo importer archive =>
    rw [progressStep, accountStepOut, importRealm, importFromStream, Action.bind_apply,
      Action.ofExcept]
    cases hread : readVerified account importer ctx Wire.slice archive with
    | error error => exact h
    | ok verified =>
      obtain ⟨outcome, realm', himport, hlatest⟩ :=
        @importVerified_of_lands ctx account forms verified progress.state.realm
          (chain_of_readVerified hread) (hinput verified hread)
      dsimp only
      rw [himport]
      exact hlatest
  | issue timestampMicros random =>
    rw [progressStep, accountStepOut]
    cases Tid.newWithTime progress.state.last timestampMicros random with
    | none => exact h
    | some issued => exact h
  | restart => exact h

/-- In a run whose heads rise the latest commit is the one that was written or imported last, and
the next write builds on it. -/
theorem onTop_of_run {backend : Backend} {inputs : List AccountInput}
    (h : Along (progressStep forms account) (Rises account)
      (Progress.start backend : Progress ctx) inputs) :
  OnTop account (run (progressStep forms account) (Progress.start backend : Progress ctx) inputs)
  := by
  have hstart : (Progress.start backend : Progress ctx).state.realm.storage.commits.latest.map
      CommitRow.head = (Progress.start backend : Progress ctx).head := by
    cases backend with
    | sql => rfl
    | fjall => rfl
  exact onTop_of_latest (@invariant_run _ _ (progressStep forms account) (Rises account)
    (fun progress => progress.state.realm.storage.commits.latest.map CommitRow.head = progress.head)
    _ _ (fun _ _ hlatest hinput => latest_step hlatest hinput) h hstart)

@[simp] theorem progressStep_state (progress : Progress ctx) (input : AccountInput) :
  (progressStep forms account progress input).state = accountStep forms account progress.state input
  := rfl

/-- The archive of the sample account lands on top of its own genesis commit. -/
def landsOnTop (verified : Verified) (realm : PublicRealm sumContext) : Bool :=
  verified.chain.all (fun commit => (commitCid sumContext sumAccount commit).toOption.isSome) &&
    decide (verified.chain.length = 1) &&
    decide (realm.storage.commits.AtMost verified.head.rev) &&
    (Mst.fromRoot verified.head.data
      (storeBlocks verified.blocks realm.storage.blocks)).entries.toOption.isSome

/-- A genesis commit, and an import of the same commit. -/
theorem onTop_of_run_sample :
  OnTop sumAccount (run (progressStep multibase sumAccount)
    (Progress.start .fjall : Progress sumContext)
    [sumWrite 1 [], .importRepo sumImporter (genesisArchive .fjall)])
  := by
  refine onTop_of_run ⟨fun _ _ _ _ hentry => absurd hentry List.not_mem_nil, ?_, trivial⟩
  intro verified hread
  obtain ⟨found, hfound⟩ := Option.isSome_iff_exists.mp
    (by decide +kernel : (verifiedOf (genesisBlocks .fjall)).isSome = true)
  have heq : found = verified := Except.ok.inj ((readVerified_archiveOf hfound).symm.trans hread)
  subst heq
  have hlands : (verifiedOf (genesisBlocks .fjall)).all
      (fun found => landsOnTop found (sumState .fjall []).realm) = true := by
    decide +kernel
  rw [hfound] at hlands
  obtain ⟨hlands, hlisted⟩ := (Bool.and_eq_true _ _).mp hlands
  obtain ⟨hlands, hmost⟩ := (Bool.and_eq_true _ _).mp hlands
  obtain ⟨hencoded, hlength⟩ := (Bool.and_eq_true _ _).mp hlands
  refine ⟨?_, ?_, exists_eq_ok hlisted⟩
  · intro commit hcommit
    exact exists_eq_ok (List.all_eq_true.mp hencoded commit hcommit)
  · intro cid hcid
    have hnil : found.chain.dropLast = [] := by
      apply List.eq_nil_of_length_eq_zero
      rw [List.length_dropLast, of_decide_eq_true hlength]
    refine Or.inl ⟨?_, of_decide_eq_true hmost, ?_⟩
    · rw [hnil]
      exact fun _ hcommit => absurd hcommit List.not_mem_nil
    · trivial

/-- The latest commit of the sample account is always the head. -/
def AlwaysOnTop (backend : Backend) : Prop :=
  ∀ inputs, OnTop sumAccount (run (progressStep multibase sumAccount)
    (Progress.start backend : Progress sumContext) inputs)

/-- After a restart with an earlier clock a deletion is not the latest commit. -/
theorem not_alwaysOnTop :
  ¬ AlwaysOnTop .sql ∧ ¬ AlwaysOnTop .fjall
  := by
  constructor
  · intro h
    exact absurd (h [sumWrite 2 [.create], .restart, sumWrite 1 [.delete]]).latest
      (by decide +kernel)
  · intro h
    exact absurd (h [sumWrite 2 [.create], .restart, sumWrite 1 [.delete]]).latest
      (by decide +kernel)

end Atproto.Pds
