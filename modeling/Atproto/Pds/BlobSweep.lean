import Atproto.Pds.PublicBlobs

/-!
# The sweep of blobs

A sweep deletes the blobs whose first upload is old and that no table refers to.  A write is stored
first, and the references of its records are dropped and added one by one afterwards, with other
writes, uploads and sweeps in between.  Without a storage backend, dropping the public references of
a record also deletes the blobs that no public record refers to any more.
-/

namespace Atproto.Pds.BlobSweep

open Atproto.Dasl Atproto.Repo Logic Logic.Machine SearchTree PublicBlobs

variable {ctx : Context} {account : Account}

/-! ### The references of public records -/

/-- A change of the public references.  A drop is direct when there is no storage backend. -/
inductive RefAction where
  | drop (uri : Text) (direct : Bool)
  | add (uri : Text) (blob : BlobRef)

/-- The references after a change. -/
def RefAction.apply (refs : BlobRefs) : RefAction → BlobRefs
  | .drop uri _ => (refs.dropRefsForRecord uri).1
  | .add uri blob => refs.addRef uri blob

/-- The blobs that a change deletes. -/
def RefAction.orphans (refs : BlobRefs) : RefAction → List Text
  | .drop uri direct => if direct then (refs.dropRefsForRecord uri).2 else []
  | .add _ _ => []

/-- The references after some changes. -/
def runRefs (work : List RefAction) (refs : BlobRefs) : BlobRefs := work.foldl RefAction.apply refs

/-- The changes for an operation. -/
def refActions (did : Text) (direct : Bool) (op : WriteOp) : List RefAction :=
  let uri := recordUri did op.collection op.rkey
  let adds := op.blobs.map fun blob => RefAction.add uri blob
  match op.action with
  | .create => adds
  | .update => .drop uri direct :: adds
  | .delete => .drop uri direct :: adds

/-- The changes for the operations of a batch. -/
def batchActions (did : Text) (direct : Bool) (ops : List WriteOp) : List RefAction :=
  ops.flatMap (refActions did direct)

/-! ### The references of space records -/

/-- A change of the references of the records of a space. -/
inductive SpaceAction where
  | drop (path : Text)
  | add (path cid : Text)

/-- The references of space records: the space, the path of the record in it, and the blob. -/
abbrev SpaceRefs := List ((Text × Text) × Text)

/-- The references after a change. -/
def SpaceAction.apply (space : Text) (rows : SpaceRefs) : SpaceAction → SpaceRefs
  | .drop path => rows.filter fun row => row.1 ≠ (space, path)
  | .add path cid =>
    if rows.any fun row => row.1 = (space, path) ∧ row.2 = cid then rows
    else rows ++ [((space, path), cid)]

/-- The references after some changes. -/
def runSpace (space : Text) (work : List SpaceAction) (rows : SpaceRefs) : SpaceRefs :=
  work.foldl (SpaceAction.apply space) rows

/-- The blobs of a value, if there is one. -/
def valueBlobs : Option Json → List BlobRef
  | none => []
  | some value => walkBlobRefs value

/-- The changes for a record that was written, or deleted without a value. -/
def spaceActions (item : Text × Option Json) : List SpaceAction :=
  .drop item.1 :: (valueBlobs item.2).map fun blob => SpaceAction.add item.1 blob.link

/-! ### The account -/

/-- What is stored for an account, and what is still to be done about its references.  The records
of a repository are written under one lock, and those of a space under another. -/
structure Actor (ctx : Context) where
  repo : State ctx
  blobRefs : BlobRefs
  publicWork : List RefAction
  spaceBlobRef : SpaceRefs
  spaceWork : Text → List SpaceAction
  repoBlob : List (Text × Int)
  now : Int

/-- What happens to an account. -/
inductive SweepInput where
  | upload (cid : Text)
  | write (direct : Bool) (ops : List WriteOp) (swapCommit : Option Text) (env : Environment)
  | issue (timestampMicros random : Nat)
  | refs
  | writeSpace (space : Text) (work : List (Text × Option Json))
  | spaceRefs (space : Text)
  | sweep (reading : Int)
  | clock (now : Int)

/-- The instant before which an upload is old, for a grace period in nanoseconds. -/
def cutoff (grace reading : Int) : Int := reading - grace

/-- Some row of the two tables refers to the blob. -/
def Actor.referenced (actor : Actor ctx) (cid : Text) : Bool :=
  actor.blobRefs.refersTo cid || actor.spaceBlobRef.any fun row => row.2 = cid

/-- Delete the blobs that are old and that nothing refers to. -/
def pruneOrphanBlobs (before : Int) (actor : Actor ctx) : List (Text × Int) :=
  actor.repoBlob.filter fun row => !(decide (row.2 < before) && !actor.referenced row.1)

/-- Make the first change that is still to be made. -/
def Actor.maintain (actor : Actor ctx) : List RefAction → Actor ctx
  | [] => actor
  | action :: rest =>
    { actor with
      blobRefs := action.apply actor.blobRefs
      publicWork := rest
      repoBlob := actor.repoBlob.filter fun row =>
        !(action.orphans actor.blobRefs).any fun cid => cid = row.1 }

/-- Make the first change of a space that is still to be made. -/
def Actor.maintainSpace (actor : Actor ctx) (space : Text) : List SpaceAction → Actor ctx
  | [] => actor
  | action :: rest =>
    { actor with
      spaceBlobRef := action.apply space actor.spaceBlobRef
      spaceWork := Function.update actor.spaceWork space rest }

/-- What is stored after an input.  A write waits for the changes of the one before. -/
def Actor.step (account : Account) (grace : Int) (actor : Actor ctx) : SweepInput → Actor ctx
  | .upload cid => { actor with repoBlob := fill (cid, actor.now) actor.repoBlob }
  | .write direct ops swapCommit env =>
    if actor.publicWork.isEmpty then
      { actor with
        repo := Pds.step account actor.repo (.write ops swapCommit env)
        publicWork :=
          if (stepOut account actor.repo (.write ops swapCommit env)).2.isSome then
            batchActions account.did direct (preparedOps (.write ops swapCommit env))
          else [] }
    else actor
  | .issue timestampMicros random =>
    { actor with repo := Pds.step account actor.repo (.issue timestampMicros random) }
  | .refs => actor.maintain actor.publicWork
  | .writeSpace space work =>
    if (actor.spaceWork space).isEmpty then
      { actor with
        spaceWork := Function.update actor.spaceWork space (work.flatMap spaceActions) }
    else actor
  | .spaceRefs space => actor.maintainSpace space (actor.spaceWork space)
  | .sweep reading => { actor with repoBlob := pruneOrphanBlobs (cutoff grace reading) actor }
  | .clock now => { actor with now := now }

/-- The bytes of the blob are stored. -/
def Actor.Stored (actor : Actor ctx) (cid : Text) : Prop := ∃ created, (cid, created) ∈ actor.repoBlob

/-! ### What has to be kept -/

/-- An account and its history: the current values of its records, the blobs that were stored when
a current record naming them was written, and when the uploads returned. -/
structure Watch (ctx : Context) where
  actor : Actor ctx
  values : Values
  spaceValues : Values
  owed : Set ((Text × Text) × Text)
  owedSpace : Set ((Text × Text) × Text)
  uploads : Text → Option Int

/-- The blobs that are owed after some records have been written. -/
def owedAfter (actor : Actor ctx) (written : Set (Text × Text)) (values : Values)
    (owed : Set ((Text × Text) × Text)) : Set ((Text × Text) × Text) :=
  {x | x ∈ owed ∧ x.1 ∉ written} ∪
    {x | x.1 ∈ written ∧ actor.Stored x.2 ∧ ∃ value, values x.1 = some value ∧ NamesBlob value x.2}

/-- The values of space records after some have been written. -/
def spaceValuesAfter (space : Text) (work : List (Text × Option Json)) (values : Values) : Values :=
  updateAll (work.map fun item => ((space, item.1), item.2)) values

/-- The history after an input. -/
def Watch.step (account : Account) (grace : Int) (watch : Watch ctx) (input : SweepInput) :
    Watch ctx :=
  let actor := watch.actor.step account grace input
  match input with
  | .upload cid =>
    { watch with actor, uploads := Function.update watch.uploads cid (some watch.actor.now) }
  | .write _ ops swapCommit env =>
    if watch.actor.publicWork.isEmpty ∧
        (stepOut account watch.actor.repo (.write ops swapCommit env)).2.isSome then
      let prepared := preparedOps (.write ops swapCommit env)
      let values := writtenAll prepared watch.values
      { watch with
        actor, values
        owed := owedAfter watch.actor {record | ∃ op ∈ prepared, op.record = record} values
          watch.owed }
    else { watch with actor }
  | .writeSpace space work =>
    if (watch.actor.spaceWork space).isEmpty then
      let spaceValues := spaceValuesAfter space work watch.spaceValues
      { watch with
        actor, spaceValues
        owedSpace := owedAfter watch.actor {uri | ∃ item ∈ work, (space, item.1) = uri} spaceValues
          watch.owedSpace }
    else { watch with actor }
  | .issue _ _ => { watch with actor }
  | .refs => { watch with actor }
  | .spaceRefs _ => { watch with actor }
  | .sweep _ => { watch with actor }
  | .clock _ => { watch with actor }

/-- Nothing has been written. -/
def Watch.start : Watch ctx where
  actor :=
    { repo := .start .sql
      blobRefs := .empty .sql
      publicWork := []
      spaceBlobRef := []
      spaceWork := fun _ => []
      repoBlob := []
      now := 0 }
  values _ := none
  spaceValues _ := none
  owed := ∅
  owedSpace := ∅
  uploads _ := none

/-- The blobs that are owed are stored, and so are those that were uploaded less than the grace
period ago. -/
structure Kept (grace : Int) (watch : Watch ctx) : Prop where
  owed : ∀ x ∈ watch.owed, watch.actor.Stored x.2
  owedSpace : ∀ x ∈ watch.owedSpace, watch.actor.Stored x.2
  uploads : ∀ cid uploaded, watch.uploads cid = some uploaded →
    watch.actor.now - uploaded < grace → watch.actor.Stored cid

/-- A sweep would delete the blob. -/
def Actor.Deletable (actor : Actor ctx) (before : Int) (cid : Text) : Prop :=
  ∃ created, (cid, created) ∈ actor.repoBlob ∧ created < before ∧ actor.referenced cid = false

/-- No blob that is deleted is about to be referred to. -/
structure AddsClear (actor : Actor ctx) (deleted : Text → Prop) : Prop where
  publicWork : ∀ uri blob, RefAction.add uri blob ∈ actor.publicWork → ¬ deleted blob.link
  spaceWork : ∀ space path cid, SpaceAction.add path cid ∈ actor.spaceWork space → ¬ deleted cid

/-- No blob that a sweep would delete is about to be referred to or was uploaded again since. -/
structure SweepsClear (watch : Watch ctx) (before : Int) : Prop where
  adds : AddsClear watch.actor (watch.actor.Deletable before)
  uploads : ∀ cid uploaded, watch.uploads cid = some uploaded → before < uploaded →
    ¬ watch.actor.Deletable before cid

/-- No blob that a change of the public references deletes is about to be referred to, has a
reference of a space record or was uploaded less than the grace period ago. -/
structure DropsClear (grace : Int) (watch : Watch ctx) (action : RefAction) : Prop where
  adds : AddsClear watch.actor (· ∈ action.orphans watch.actor.blobRefs)
  spaceRefs : ∀ row ∈ watch.actor.spaceBlobRef, row.2 ∉ action.orphans watch.actor.blobRefs
  uploads : ∀ cid ∈ action.orphans watch.actor.blobRefs, ∀ uploaded,
    watch.uploads cid = some uploaded → grace ≤ watch.actor.now - uploaded

/-- When an input keeps what has to be kept. -/
def Careful (grace : Int) (watch : Watch ctx) : SweepInput → Prop
  | .upload _ => True
  | .write _ _ _ _ => True
  | .issue _ _ => True
  | .refs => ∀ action, watch.actor.publicWork.head? = some action → DropsClear grace watch action
  | .writeSpace _ _ => True
  | .spaceRefs _ => True
  | .sweep reading => reading ≤ watch.actor.now ∧ SweepsClear watch (cutoff grace reading)
  | .clock now => watch.actor.now ≤ now

/-! ### Public references -/

section PublicRefs

variable {did : Text} {refs : BlobRefs} {ref : Text × Text} {work : List RefAction} {direct : Bool}

theorem runRefs_append (first rest : List RefAction) (refs : BlobRefs) :
  runRefs (first ++ rest) refs = runRefs rest (runRefs first refs)
  := List.foldl_append

theorem runRefs_adds (uri : Text) (blobs : List BlobRef) (refs : BlobRefs) :
  runRefs (blobs.map fun blob => RefAction.add uri blob) refs = refs.addRefs uri blobs
  := List.foldl_map

theorem runRefs_refActions (op : WriteOp) (refs : BlobRefs) :
  runRefs (refActions did direct op) refs = maintainOne did op refs
  := by
  rw [refActions, maintainOne]
  cases op.action with
  | create => exact runRefs_adds _ _ _
  | update => exact runRefs_adds _ _ _
  | delete => exact runRefs_adds _ _ _

/-- The changes of a batch are what it does to the references. -/
theorem runRefs_batchActions (ops : List WriteOp) (refs : BlobRefs) :
  runRefs (batchActions did direct ops) refs = maintainBlobRefs did ops refs
  := by
  induction ops generalizing refs with
  | nil => rfl
  | cons op ops ih =>
    rw [batchActions, List.flatMap_cons, runRefs_append, runRefs_refActions, ← batchActions, ih,
      maintainBlobRefs, maintainBlobRefs, List.foldl_cons]

theorem isSql_apply (h : IsSql refs) (action : RefAction) :
  IsSql (action.apply refs)
  := by
  cases action with
  | drop uri direct => exact (@hasRef_dropRefs _ (uri, uri) uri h).1
  | add uri blob => exact isSql_addRef h blob

/-- A reference that is there after some changes was there before, or is added by them. -/
theorem hasRef_runRefs (h : IsSql refs) (href : HasRef (runRefs work refs) ref) :
  HasRef refs ref ∨ ∃ blob, RefAction.add ref.1 blob ∈ work ∧ blob.link = ref.2
  := by
  induction work generalizing refs with
  | nil => exact Or.inl href
  | cons action work ih =>
    obtain hmid | ⟨blob, hblob, hlink⟩ := ih (isSql_apply h action) href
    · cases action with
      | drop uri direct => exact Or.inl ((hasRef_dropRefs h).2.mp hmid).1
      | add uri blob =>
        obtain hbefore | rfl := (hasRef_addRef h).mp hmid
        · exact Or.inl hbefore
        · exact Or.inr ⟨blob, List.mem_cons_self, rfl⟩
    · exact Or.inr ⟨blob, List.mem_cons_of_mem _ hblob, hlink⟩

/-- Every blob that a current record names has a reference. -/
structure Covers (did : Text) (values : Values) (refs : BlobRefs) : Prop where
  sql : IsSql refs
  plain : ∀ record, values record ≠ none → PlainRecord record
  named : ∀ record value cid, values record = some value → NamesBlob value cid →
    HasRef refs (uriOf did record, cid)

theorem Covers.maintainOne {values : Values} (h : Covers did values refs) {op : WriteOp}
    (hop : op.Named) :
  Covers did (writtenAll [op] values) (maintainOne did op refs)
  := by
  have hvalues : writtenAll [op] values = Function.update values op.record (written op) := rfl
  rw [hvalues]
  have hone (ref : Text × Text) := @hasRef_maintainOne op did refs ref h.sql
  refine ⟨(hone (Text.empty, Text.empty)).1, ?_, ?_⟩
  · intro record hne
    rw [Function.update_apply] at hne
    by_cases heq : record = op.record
    · rw [heq]
      exact hop.1
    · rw [if_neg heq] at hne
      exact h.plain record hne
  · intro record value cid hvalue hnames
    rw [Function.update_apply] at hvalue
    apply (hone _).2.mpr
    by_cases heq : record = op.record
    · rw [if_pos heq] at hvalue
      rw [heq]
      exact Or.inr ⟨rfl, exists_blob_iff.mpr ⟨value, hvalue, hnames⟩⟩
    · rw [if_neg heq] at hvalue
      have hplain := h.plain record (by rw [hvalue]; exact Option.some_ne_none value)
      refine Or.inl ⟨h.named record value cid hvalue hnames, Or.inr ?_⟩
      exact fun huri => heq (uriOf_inj hplain hop.1 huri)

/-- Operations keep a reference for every blob that a current record names. -/
theorem Covers.maintain {values : Values} (h : Covers did values refs) {ops : List WriteOp}
    (hops : ∀ op ∈ ops, op.Named) :
  Covers did (writtenAll ops values) (maintainBlobRefs did ops refs)
  := by
  induction ops generalizing values refs with
  | nil => exact h
  | cons op ops ih =>
    obtain ⟨hop, hops⟩ := List.forall_mem_cons.mp hops
    exact ih (h.maintainOne hop) hops

theorem preparedOps_named (input : Input) :
  ∀ op ∈ preparedOps input, op.Named
  := by
  cases input with
  | restart => exact fun op hop => absurd hop List.not_mem_nil
  | issue timestampMicros random => exact fun op hop => absurd hop List.not_mem_nil
  | write ops swapCommit env =>
    rw [preparedOps]
    cases hprepare : prepareOps ops with
    | error failure => exact fun op hop => absurd hop List.not_mem_nil
    | ok prepared => exact (prepareOps_eq_ok hprepare).2

/-- Nothing refers to the blobs that a change deletes. -/
theorem refersTo_of_mem_orphans {action : RefAction} {cid : Text} (h : cid ∈ action.orphans refs) :
  (action.apply refs).refersTo cid = false
  := by
  cases action with
  | add uri blob => cases h
  | drop uri direct =>
    cases direct with
    | false => cases h
    | true =>
      cases refs with
      | sql rows => exact (Bool.not_eq_true' _).mp (List.mem_filter.mp h).2
      | fjall rows => exact (Bool.not_eq_true' _).mp (List.mem_filter.mp h).2

theorem refersTo_of_hasRef (h : IsSql refs) (href : HasRef refs ref) :
  refs.refersTo ref.2 = true
  := by
  cases refs with
  | fjall rows => cases h
  | sql rows =>
    obtain ⟨columns, hmem⟩ := href
    exact List.any_eq_true.mpr ⟨(ref, columns), hmem, decide_eq_true rfl⟩

/-- What is deleted is not named by a current record, when nothing refers to it and no reference to
it has still to be added. -/
theorem Covers.not_deleted {values : Values} (h : Covers did values (runRefs work refs))
    (hsql : IsSql refs) {deleted : Text → Prop}
    (hadds : ∀ uri blob, RefAction.add uri blob ∈ work → ¬ deleted blob.link)
    (hrefs : ∀ cid, deleted cid → refs.refersTo cid = false) {record : Text × Text} {cid : Text}
    (hnames : ∃ value, values record = some value ∧ NamesBlob value cid) :
  ¬ deleted cid
  := by
  intro hdeleted
  obtain ⟨value, hvalue, hnames⟩ := hnames
  obtain hnow | ⟨blob, hblob, rfl⟩ := hasRef_runRefs hsql (h.named record value cid hvalue hnames)
  · have hrefers : refs.refersTo cid = true := refersTo_of_hasRef hsql hnow
    rw [hrefs cid hdeleted] at hrefers
    cases hrefers
  · exact hadds _ blob hblob hdeleted

end PublicRefs

/-! ### Space references -/

section SpaceRefs

variable {space path cid : Text} {rows rows' : SpaceRefs} {x : (Text × Text) × Text}
  {action : SpaceAction} {work : List SpaceAction} {values : Values}

theorem mem_apply_drop :
  x ∈ SpaceAction.apply space rows (.drop path) ↔ x ∈ rows ∧ x.1 ≠ (space, path)
  := by
  rw [SpaceAction.apply, List.mem_filter, decide_eq_true_iff]

theorem mem_apply_add :
  x ∈ SpaceAction.apply space rows (.add path cid) ↔ x ∈ rows ∨ x = ((space, path), cid)
  := by
  rw [SpaceAction.apply]
  by_cases hany : (rows.any fun row => row.1 = (space, path) ∧ row.2 = cid) = true
  · rw [if_pos hany]
    obtain ⟨row, hrow, heq⟩ := List.any_eq_true.mp hany
    obtain ⟨hpath, hcid⟩ := of_decide_eq_true heq
    have hsame : row = ((space, path), cid) := Prod.ext hpath hcid
    rw [hsame] at hrow
    constructor
    · exact Or.inl
    · rintro (h | rfl)
      · exact h
      · exact hrow
  · rw [if_neg hany, List.mem_append, List.mem_singleton]

theorem mem_apply_congr (h : x ∈ rows ↔ x ∈ rows') :
  x ∈ SpaceAction.apply space rows action ↔ x ∈ SpaceAction.apply space rows' action
  := by
  cases action with
  | drop path => rw [mem_apply_drop, mem_apply_drop, h]
  | add path cid => rw [mem_apply_add, mem_apply_add, h]

theorem mem_runSpace_congr (h : x ∈ rows ↔ x ∈ rows') :
  x ∈ runSpace space work rows ↔ x ∈ runSpace space work rows'
  := by
  induction work generalizing rows rows' with
  | nil => exact h
  | cons action work ih => exact ih (mem_apply_congr h)

/-- A change in one space leaves the references of the others. -/
theorem mem_apply_other (hne : x.1.1 ≠ space) :
  x ∈ SpaceAction.apply space rows action ↔ x ∈ rows
  := by
  cases action with
  | drop path =>
    rw [mem_apply_drop]
    exact and_iff_left fun heq => hne (congrArg Prod.fst heq)
  | add path cid =>
    rw [mem_apply_add]
    exact or_iff_left fun heq => hne (congrArg (fun y => y.1.1) heq)

theorem mem_runSpace (h : x ∈ runSpace space work rows) :
  x ∈ rows ∨ ∃ path cid, SpaceAction.add path cid ∈ work ∧ x = ((space, path), cid)
  := by
  induction work generalizing rows with
  | nil => exact Or.inl h
  | cons action work ih =>
    obtain hmid | ⟨path, cid, hadd, heq⟩ := ih h
    · cases action with
      | drop path => exact Or.inl (mem_apply_drop.mp hmid).1
      | add path cid =>
        obtain hbefore | heq := mem_apply_add.mp hmid
        · exact Or.inl hbefore
        · exact Or.inr ⟨path, cid, List.mem_cons_self, heq⟩
    · exact Or.inr ⟨path, cid, List.mem_cons_of_mem _ hadd, heq⟩

theorem mem_runSpace_adds {blobs : List BlobRef} :
  x ∈ runSpace space (blobs.map fun blob => SpaceAction.add path blob.link) rows ↔
    x ∈ rows ∨ x.1 = (space, path) ∧ ∃ blob ∈ blobs, blob.link = x.2
  := by
  induction blobs generalizing rows with
  | nil =>
    constructor
    · exact Or.inl
    · rintro (h | ⟨-, blob, hblob, -⟩)
      · exact h
      · cases hblob
  | cons blob blobs ih =>
    have hrun : runSpace space ((blob :: blobs).map fun blob => SpaceAction.add path blob.link) rows =
      runSpace space (blobs.map fun blob => SpaceAction.add path blob.link)
        (SpaceAction.apply space rows (.add path blob.link)) := rfl
    rw [hrun, ih, mem_apply_add, or_assoc]
    apply or_congr_right
    constructor
    · rintro (rfl | ⟨hpath, other, hother, hlink⟩)
      · exact ⟨rfl, blob, List.mem_cons_self, rfl⟩
      · exact ⟨hpath, other, List.mem_cons_of_mem _ hother, hlink⟩
    · rintro ⟨hpath, other, hother, hlink⟩
      obtain rfl | hother := List.mem_cons.mp hother
      · exact Or.inl (Prod.ext hpath hlink.symm)
      · exact Or.inr ⟨hpath, other, hother, hlink⟩

theorem exists_valueBlob_iff {value? : Option Json} :
  (∃ blob ∈ valueBlobs value?, blob.link = cid) ↔ ∃ value, value? = some value ∧ NamesBlob value cid
  := by
  cases value? with
  | none =>
    constructor
    · rintro ⟨blob, hblob, -⟩
      cases hblob
    · rintro ⟨value, hvalue, -⟩
      cases hvalue
  | some value =>
    constructor
    · exact fun hnames => ⟨value, rfl, hnames⟩
    · rintro ⟨value', hvalue, hnames⟩
      cases hvalue
      exact hnames

/-- The references of a space are those of its values. -/
def SpaceRefsOf (space : Text) (values : Values) (rows : SpaceRefs) : Prop :=
  ∀ path cid, ((space, path), cid) ∈ rows ↔
    ∃ value, values (space, path) = some value ∧ NamesBlob value cid

theorem SpaceRefsOf.item (h : SpaceRefsOf space values rows) (item : Text × Option Json) :
  SpaceRefsOf space (Function.update values (space, item.1) item.2)
    (runSpace space (spaceActions item) rows)
  := by
  intro path cid
  have hrun : runSpace space (spaceActions item) rows =
    runSpace space ((valueBlobs item.2).map fun blob => SpaceAction.add item.1 blob.link)
      (SpaceAction.apply space rows (.drop item.1)) := rfl
  rw [hrun, mem_runSpace_adds, mem_apply_drop, h path cid, exists_valueBlob_iff,
    Function.update_apply]
  by_cases heq : (space, path) = (space, item.1)
  · rw [if_pos heq]
    constructor
    · rintro (⟨-, hne⟩ | ⟨-, hvalue⟩)
      · exact absurd heq hne
      · exact hvalue
    · exact fun hvalue => Or.inr ⟨heq, hvalue⟩
  · rw [if_neg heq]
    constructor
    · rintro (⟨hvalue, -⟩ | ⟨hpath, -⟩)
      · exact hvalue
      · exact absurd hpath heq
    · exact fun hvalue => Or.inl ⟨hvalue, heq⟩

/-- The changes of a batch keep the references with the values. -/
theorem SpaceRefsOf.batch (h : SpaceRefsOf space values rows) (work : List (Text × Option Json)) :
  SpaceRefsOf space (spaceValuesAfter space work values)
    (runSpace space (work.flatMap spaceActions) rows)
  := by
  induction work generalizing values rows with
  | nil => exact h
  | cons item work ih =>
    have hrun : runSpace space ((item :: work).flatMap spaceActions) rows =
        runSpace space (work.flatMap spaceActions) (runSpace space (spaceActions item) rows) := by
      rw [List.flatMap_cons]
      exact List.foldl_append
    rw [hrun]
    exact ih (h.item item)

/-- What is deleted is not named by a current record of the space, when nothing refers to it and no
reference to it has still to be added. -/
theorem SpaceRefsOf.not_deleted (h : SpaceRefsOf space values (runSpace space work rows))
    {deleted : Text → Prop} (hadds : ∀ path cid, SpaceAction.add path cid ∈ work → ¬ deleted cid)
    (hrows : ∀ row ∈ rows, ¬ deleted row.2)
    (hnames : ∃ value, values (space, path) = some value ∧ NamesBlob value cid) :
  ¬ deleted cid
  := by
  obtain hnow | ⟨path', cid', hadd, heq⟩ := mem_runSpace ((h path cid).mpr hnames)
  · exact hrows _ hnow
  · cases heq
    exact hadds path cid hadd

theorem spaceValuesAfter_of_not_mem {written : List (Text × Option Json)} {uri : Text × Text}
    (h : ¬ ∃ item ∈ written, (space, item.1) = uri) :
  spaceValuesAfter space written values uri = values uri
  := by
  apply updateAll_of_not_mem
  intro hmem
  obtain ⟨update, hupdate, rfl⟩ := List.mem_map.mp hmem
  obtain ⟨item, hitem, rfl⟩ := List.mem_map.mp hupdate
  exact h ⟨item, hitem, rfl⟩

end SpaceRefs

/-! ### Stored blobs -/

section Stored

variable {actor : Actor ctx} {cid : Text} {before : Int}

theorem stored_upload (h : actor.Stored cid) (row : Text × Int) :
  Actor.Stored { actor with repoBlob := fill row actor.repoBlob } cid
  := by
  obtain ⟨created, hmem⟩ := h
  exact ⟨created, mem_fill.mpr (Or.inl hmem)⟩

theorem stored_self (uploaded : Text) :
  Actor.Stored { actor with repoBlob := fill (uploaded, actor.now) actor.repoBlob } uploaded
  := by
  by_cases hprior : ∃ prior ∈ actor.repoBlob, prior.1 = uploaded
  · obtain ⟨⟨_, created⟩, hmem, rfl⟩ := hprior
    exact ⟨created, mem_fill.mpr (Or.inl hmem)⟩
  · refine ⟨actor.now, mem_fill.mpr (Or.inr ⟨rfl, ?_⟩)⟩
    intro prior hmem heq
    exact hprior ⟨prior, hmem, heq⟩

/-- A sweep leaves the blobs that it would not delete. -/
theorem stored_prune (h : actor.Stored cid) (hnot : ¬ actor.Deletable before cid) :
  Actor.Stored { actor with repoBlob := pruneOrphanBlobs before actor } cid
  := by
  obtain ⟨created, hmem⟩ := h
  refine ⟨created, List.mem_filter.mpr ⟨hmem, ?_⟩⟩
  dsimp only
  cases hcreated : decide (created < before) with
  | false => rfl
  | true =>
    cases hreferenced : actor.referenced cid with
    | true => rfl
    | false => exact absurd ⟨created, hmem, of_decide_eq_true hcreated, hreferenced⟩ hnot

/-- A change leaves the blobs that it would not delete. -/
theorem stored_maintain {action : RefAction} {rest : List RefAction} (h : actor.Stored cid)
    (hnot : cid ∉ action.orphans actor.blobRefs) :
  (actor.maintain (action :: rest)).Stored cid
  := by
  obtain ⟨created, hmem⟩ := h
  refine ⟨created, List.mem_filter.mpr ⟨hmem, ?_⟩⟩
  rw [Bool.not_eq_true', List.any_eq_false]
  intro orphan horphan heq
  rw [of_decide_eq_true heq] at horphan
  exact hnot horphan

end Stored

/-! ### What every input keeps -/

variable {grace : Int} {watch : Watch ctx}

/-- The references cover the current values once all changes have been made, and what is owed is
named by the current values and stored. -/
structure Sound (account : Account) (grace : Int) (watch : Watch ctx) : Prop where
  sql : IsSql watch.actor.blobRefs
  covers : Covers account.did watch.values (runRefs watch.actor.publicWork watch.actor.blobRefs)
  spaces : ∀ space, SpaceRefsOf space watch.spaceValues
    (runSpace space (watch.actor.spaceWork space) watch.actor.spaceBlobRef)
  named : ∀ x ∈ watch.owed, ∃ value, watch.values x.1 = some value ∧ NamesBlob value x.2
  namedSpace : ∀ x ∈ watch.owedSpace, ∃ value, watch.spaceValues x.1 = some value ∧
    NamesBlob value x.2
  kept : Kept grace watch

/-- Nothing is deletable that some row refers to. -/
theorem referenced_of_deletable {actor : Actor ctx} {before : Int} {cid : Text}
    (h : actor.Deletable before cid) :
  actor.blobRefs.refersTo cid = false ∧ ∀ row ∈ actor.spaceBlobRef, row.2 ≠ cid
  := by
  obtain ⟨created, -, -, hnot⟩ := h
  rw [Actor.referenced, Bool.or_eq_false_iff, List.any_eq_false] at hnot
  exact ⟨hnot.1, fun row hrow heq => hnot.2 row hrow (decide_eq_true heq)⟩

theorem Sound.sweep (h : Sound account grace watch) {reading : Int}
    (hcareful : Careful grace watch (.sweep reading)) :
  Sound account grace (watch.step account grace (.sweep reading))
  := by
  obtain ⟨hreading, hclear⟩ := hcareful
  refine ⟨h.sql, h.covers, h.spaces, h.named, h.namedSpace, ?_⟩
  constructor
  · intro x hx
    apply stored_prune (h.kept.owed x hx)
    apply h.covers.not_deleted h.sql hclear.adds.publicWork _ (h.named x hx)
    exact fun cid hdeletable => (referenced_of_deletable hdeletable).1
  · intro x hx
    apply stored_prune (h.kept.owedSpace x hx)
    apply (h.spaces x.1.1).not_deleted (hclear.adds.spaceWork x.1.1) _ (h.namedSpace x hx)
    exact fun row hrow hdeletable => (referenced_of_deletable hdeletable).2 row hrow rfl
  · intro cid uploaded huploaded hrecent
    have hrecent' : watch.actor.now - uploaded < grace := hrecent
    apply stored_prune (h.kept.uploads cid uploaded huploaded hrecent')
    apply hclear.uploads cid uploaded huploaded
    rw [cutoff]
    omega

theorem Sound.clock (h : Sound account grace watch) {now : Int}
    (hcareful : Careful grace watch (.clock now)) :
  Sound account grace (watch.step account grace (.clock now))
  := by
  have hnow : watch.actor.now ≤ now := hcareful
  refine ⟨h.sql, h.covers, h.spaces, h.named, h.namedSpace, h.kept.owed, h.kept.owedSpace, ?_⟩
  intro cid uploaded huploaded hrecent
  have hrecent' : now - uploaded < grace := hrecent
  exact h.kept.uploads cid uploaded huploaded (by omega)

theorem Sound.upload (h : Sound account grace watch) (cid : Text) :
  Sound account grace (watch.step account grace (.upload cid))
  := by
  refine ⟨h.sql, h.covers, h.spaces, h.named, h.namedSpace, ?_⟩
  constructor
  · exact fun x hx => stored_upload (h.kept.owed x hx) _
  · exact fun x hx => stored_upload (h.kept.owedSpace x hx) _
  · intro cid' uploaded huploaded hrecent
    have huploaded' : Function.update watch.uploads cid (some watch.actor.now) cid' =
      some uploaded := huploaded
    by_cases heq : cid' = cid
    · rw [heq]
      exact stored_self cid
    · rw [Function.update_of_ne heq] at huploaded'
      exact stored_upload (h.kept.uploads cid' uploaded huploaded' hrecent) _

/-- Making a change that is still to be made. -/
theorem Sound.refs (h : Sound account grace watch) (hcareful : Careful grace watch .refs) :
  Sound account grace (watch.step account grace .refs)
  := by
  have hactor : watch.step account grace .refs =
    { watch with actor := watch.actor.maintain watch.actor.publicWork } := rfl
  rw [hactor]
  have hcovers := h.covers
  rw [Careful] at hcareful
  cases hwork : watch.actor.publicWork with
  | nil => exact h
  | cons action rest =>
    rw [hwork] at hcareful hcovers
    have hclear : DropsClear grace watch action := hcareful action rfl
    have hsql := isSql_apply h.sql action
    have hafter : Covers account.did watch.values
      (runRefs rest (action.apply watch.actor.blobRefs)) := hcovers
    refine ⟨hsql, hafter, h.spaces, h.named, h.namedSpace, ?_⟩
    constructor
    · intro x hx
      apply stored_maintain (h.kept.owed x hx)
      apply hafter.not_deleted hsql _ _ (h.named x hx)
      · intro uri blob hadd
        apply hclear.adds.publicWork uri blob
        rw [hwork]
        exact List.mem_cons_of_mem _ hadd
      · exact fun cid => refersTo_of_mem_orphans
    · intro x hx
      apply stored_maintain (h.kept.owedSpace x hx)
      exact (h.spaces x.1.1).not_deleted (hclear.adds.spaceWork x.1.1) hclear.spaceRefs
        (h.namedSpace x hx)
    · intro cid uploaded huploaded hrecent
      have hrecent' : watch.actor.now - uploaded < grace := hrecent
      apply stored_maintain (h.kept.uploads cid uploaded huploaded hrecent')
      exact fun horphan => Int.not_le.mpr hrecent' (hclear.uploads cid horphan uploaded huploaded)

/-- Making a change of a space that is still to be made. -/
theorem Sound.spaceRefs (h : Sound account grace watch) (space : Text) :
  Sound account grace (watch.step account grace (.spaceRefs space))
  := by
  have hactor : watch.step account grace (.spaceRefs space) =
    { watch with actor := watch.actor.maintainSpace space (watch.actor.spaceWork space) } := rfl
  rw [hactor]
  cases hwork : watch.actor.spaceWork space with
  | nil => exact h
  | cons action rest =>
    refine ⟨h.sql, h.covers, ?_, h.named, h.namedSpace, ⟨h.kept.owed, h.kept.owedSpace,
      h.kept.uploads⟩⟩
    intro space'
    have hspace := h.spaces space'
    dsimp only [Actor.maintainSpace]
    by_cases heq : space' = space
    · subst heq
      rw [Function.update_self]
      rw [hwork] at hspace
      exact hspace
    · rw [Function.update_of_ne heq]
      intro path cid
      rw [← hspace path cid]
      exact mem_runSpace_congr (mem_apply_other heq)

/-- A write of space records. -/
theorem Sound.writeSpace (h : Sound account grace watch) (space : Text)
    (work : List (Text × Option Json)) :
  Sound account grace (watch.step account grace (.writeSpace space work))
  := by
  cases hidle : (watch.actor.spaceWork space).isEmpty with
  | false =>
    have hsame : watch.step account grace (.writeSpace space work) = watch := by
      rw [Watch.step]
      dsimp only [Actor.step]
      rw [hidle]
      rfl
    rw [hsame]
    exact h
  | true =>
    have hnil : watch.actor.spaceWork space = [] := List.isEmpty_iff.mp hidle
    have hstep : watch.step account grace (.writeSpace space work) =
        { watch with
          actor := { watch.actor with
            spaceWork := Function.update watch.actor.spaceWork space (work.flatMap spaceActions) }
          spaceValues := spaceValuesAfter space work watch.spaceValues
          owedSpace := owedAfter watch.actor {uri | ∃ item ∈ work, (space, item.1) = uri}
            (spaceValuesAfter space work watch.spaceValues) watch.owedSpace } := by
      rw [Watch.step]
      dsimp only [Actor.step]
      rw [hidle]
      rfl
    rw [hstep]
    refine ⟨h.sql, h.covers, ?_, h.named, ?_, ⟨h.kept.owed, ?_, h.kept.uploads⟩⟩
    · intro space'
      dsimp only
      by_cases heq : space' = space
      · subst heq
        rw [Function.update_self]
        have hbefore := h.spaces space'
        rw [hnil] at hbefore
        exact hbefore.batch work
      · rw [Function.update_of_ne heq]
        intro path cid
        rw [spaceValuesAfter_of_not_mem]
        · exact h.spaces space' path cid
        · rintro ⟨item, -, hitem⟩
          exact heq (congrArg Prod.fst hitem).symm
    · rintro x (⟨hx, hnot⟩ | ⟨-, -, hvalue⟩)
      · dsimp only
        rw [spaceValuesAfter_of_not_mem hnot]
        exact h.namedSpace x hx
      · exact hvalue
    · rintro x (⟨hx, -⟩ | ⟨-, hstored, -⟩)
      · exact h.kept.owedSpace x hx
      · exact hstored

theorem Sound.issue (h : Sound account grace watch) (timestampMicros random : Nat) :
  Sound account grace (watch.step account grace (.issue timestampMicros random))
  := ⟨h.sql, h.covers, h.spaces, h.named, h.namedSpace,
    ⟨h.kept.owed, h.kept.owedSpace, h.kept.uploads⟩⟩

/-- A write of public records. -/
theorem Sound.write (h : Sound account grace watch) (direct : Bool) (ops : List WriteOp)
    (swapCommit : Option Text) (env : Environment) :
  Sound account grace (watch.step account grace (.write direct ops swapCommit env))
  := by
  cases hidle : watch.actor.publicWork.isEmpty with
  | false =>
    have hsame : watch.step account grace (.write direct ops swapCommit env) = watch := by
      rw [Watch.step]
      dsimp only [Actor.step]
      rw [hidle]
      rfl
    rw [hsame]
    exact h
  | true =>
    have hnil : watch.actor.publicWork = [] := List.isEmpty_iff.mp hidle
    have hcovers := h.covers
    rw [hnil] at hcovers
    cases hout : (stepOut account watch.actor.repo (.write ops swapCommit env)).2.isSome with
    | false =>
      have hstep : watch.step account grace (.write direct ops swapCommit env) =
          { watch with
            actor := { watch.actor with
              repo := Pds.step account watch.actor.repo (.write ops swapCommit env)
              publicWork := [] } } := by
        rw [Watch.step]
        dsimp only [Actor.step]
        rw [hidle, hout]
        rfl
      rw [hstep]
      exact ⟨h.sql, hcovers, h.spaces, h.named, h.namedSpace,
        ⟨h.kept.owed, h.kept.owedSpace, h.kept.uploads⟩⟩
    | true =>
      have hstep : watch.step account grace (.write direct ops swapCommit env) =
          { watch with
            actor := { watch.actor with
              repo := Pds.step account watch.actor.repo (.write ops swapCommit env)
              publicWork := batchActions account.did direct
                (preparedOps (.write ops swapCommit env)) }
            values := writtenAll (preparedOps (.write ops swapCommit env)) watch.values
            owed := owedAfter watch.actor
              {record | ∃ op ∈ preparedOps (.write ops swapCommit env), op.record = record}
              (writtenAll (preparedOps (.write ops swapCommit env)) watch.values) watch.owed } := by
        rw [Watch.step]
        dsimp only [Actor.step]
        rw [hidle, hout]
        rfl
      rw [hstep]
      refine ⟨h.sql, ?_, h.spaces, ?_, h.namedSpace, ⟨?_, h.kept.owedSpace, h.kept.uploads⟩⟩
      · dsimp only
        rw [runRefs_batchActions]
        exact hcovers.maintain (preparedOps_named _)
      · rintro x (⟨hx, hnot⟩ | ⟨-, -, hvalue⟩)
        · dsimp only
          rw [writtenAll, updateAll_of_not_mem]
          · exact h.named x hx
          · intro hmem
            obtain ⟨update, hupdate, heq⟩ := List.mem_map.mp hmem
            obtain ⟨op, hop, rfl⟩ := List.mem_map.mp hupdate
            exact hnot ⟨op, hop, heq⟩
        · exact hvalue
      · rintro x (⟨hx, -⟩ | ⟨-, hstored, -⟩)
        · exact h.kept.owed x hx
        · exact hstored

/-- Every careful input keeps what has to be kept. -/
theorem Sound.step (h : Sound account grace watch) {input : SweepInput}
    (hinput : Careful grace watch input) :
  Sound account grace (watch.step account grace input)
  := by
  cases input with
  | upload cid => exact h.upload cid
  | write direct ops swapCommit env => exact h.write direct ops swapCommit env
  | issue timestampMicros random => exact h.issue timestampMicros random
  | refs => exact h.refs hinput
  | writeSpace space work => exact h.writeSpace space work
  | spaceRefs space => exact h.spaceRefs space
  | sweep reading => exact h.sweep hinput
  | clock now => exact h.clock hinput

theorem sound_start (account : Account) (grace : Int) :
  Sound account grace (Watch.start : Watch ctx)
  := by
  refine ⟨trivial, ⟨trivial, ?_, ?_⟩, ?_, ?_, ?_, ⟨?_, ?_, ?_⟩⟩
  · exact fun _ hne => absurd rfl hne
  · intro record value cid hvalue
    cases hvalue
  · intro space path cid
    apply iff_of_false
    · intro hmem
      cases hmem
    · rintro ⟨value, hvalue, -⟩
      cases hvalue
  · intro x hx
    cases hx
  · intro x hx
    cases hx
  · intro x hx
    cases hx
  · intro x hx
    cases hx
  · intro cid uploaded huploaded
    cases huploaded

/-! ### Runs -/

/-- In a careful run no blob is lost that a current record names since it was written, nor one that
was uploaded less than the grace period ago. -/
theorem kept_of_run {account : Account} {grace : Int} {inputs : List SweepInput}
    {watch : Watch ctx} (hwatch : run (Watch.step account grace) Watch.start inputs = watch)
    (halong : Along (Watch.step account grace) (Careful grace) (Watch.start : Watch ctx) inputs) :
  Kept grace watch
  := by
  have hsound : Sound account grace watch := by
    rw [← hwatch]
    exact invariant_run (fun _ _ h hinput => h.step hinput) halong (sound_start account grace)
  exact hsound.kept

/-! ### A picture that is uploaded twice -/

/-- A day in nanoseconds. -/
def dayNanos : Int := 86400000000000

theorem careful_refs_of_all
    (h : (watch.actor.publicWork.all fun action =>
      (action.orphans watch.actor.blobRefs).isEmpty) = true) :
  Careful grace watch .refs
  := by
  intro action haction
  have hnil : action.orphans watch.actor.blobRefs = [] :=
    List.isEmpty_iff.mp (List.all_eq_true.mp h action (List.mem_of_mem_head? haction))
  have hnot (cid : Text) : cid ∉ action.orphans watch.actor.blobRefs := by
    rw [hnil]
    exact List.not_mem_nil
  refine ⟨⟨?_, ?_⟩, ?_, ?_⟩
  · exact fun _ blob _ => hnot blob.link
  · exact fun _ _ cid _ => hnot cid
  · exact fun row _ => hnot row.2
  · exact fun cid horphan => absurd horphan (hnot cid)

theorem sweepsClear_of_all {before : Int}
    (h : (watch.actor.repoBlob.all fun row => watch.actor.referenced row.1) = true) :
  SweepsClear watch before
  := by
  have hnot : ∀ cid, ¬ watch.actor.Deletable before cid := by
    rintro cid ⟨created, hmem, -, hunreferenced⟩
    have hreferenced : watch.actor.referenced cid = true := List.all_eq_true.mp h _ hmem
    rw [hreferenced] at hunreferenced
    cases hunreferenced
  exact ⟨⟨fun _ blob _ => hnot blob.link, fun _ _ cid _ => hnot cid⟩, fun cid _ _ _ => hnot cid⟩

/-- A picture is uploaded, named by a record, and there is a sweep when its upload is old. -/
def namedPicture : List SweepInput :=
  [.upload pictureCid,
    .write false [{ sampleOp .create with value := some pictureValue }] none (sampleEnvironment 1),
    .refs, .clock (2 * dayNanos), .sweep (2 * dayNanos)]

theorem kept_of_run_picture :
  Kept dayNanos (run (Watch.step sampleAccount dayNanos) (Watch.start : Watch (mirror 1))
    namedPicture)
  := by
  apply kept_of_run rfl
  refine ⟨trivial, trivial, ?_, ?_, ⟨?_, ?_⟩, trivial⟩
  · apply careful_refs_of_all
    decide +kernel
  · show (0 : Int) ≤ 2 * dayNanos
    decide
  · show 2 * dayNanos ≤ 2 * dayNanos
    exact le_rfl
  · apply sweepsClear_of_all
    decide +kernel

/-- A picture is uploaded, and again when its first upload is old, and then there is a sweep. -/
def pictureTwice : List SweepInput :=
  [.upload pictureCid, .clock (2 * dayNanos), .upload pictureCid, .sweep (2 * dayNanos)]

/-- In every run what has to be kept is kept. -/
def AlwaysKept (grace : Int) : Prop :=
  ∀ (inputs : List SweepInput) (watch : Watch (mirror 1)),
    run (Watch.step sampleAccount grace) Watch.start inputs = watch → Kept grace watch

/-- The sweep deletes the picture right after its second upload. -/
theorem not_alwaysKept :
  ¬ AlwaysKept dayNanos
  := by
  intro hclaim
  have hkept := hclaim pictureTwice _ rfl
  obtain ⟨created, hmem⟩ := hkept.uploads pictureCid (2 * dayNanos) (by decide +kernel)
    (by decide +kernel)
  have hnil : (run (Watch.step sampleAccount dayNanos) (Watch.start : Watch (mirror 1))
      pictureTwice).actor.repoBlob = [] := by decide +kernel
  rw [hnil] at hmem
  cases hmem

end Atproto.Pds.BlobSweep
