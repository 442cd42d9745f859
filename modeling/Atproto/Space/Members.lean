import Atproto.Space.Repo

/-!
# The members of a space

The members are kept in step with a set hash of their DIDs.  A batch of operations is formatted
against the stored members and the set hash that was read, and the prepared commit stores the new
set hash as a whole.  It is stored in SQL tables or in fjall keyspaces.
-/

namespace Atproto.Space

open Atproto.Dasl Atproto.Record Atproto.Repo Logic SearchTree

/-- The kind of a member operation. -/
inductive MemberOpAction where
  | add
  | remove
deriving DecidableEq

/-- The text of a member action. -/
def MemberOpAction.asStr : MemberOpAction → Text
  | .add => textOf "add"
  | .remove => textOf "remove"

/-- A member operation of a batch. -/
structure MemberOp where
  action : MemberOpAction
  did : Text

/-- A member. -/
structure MemberRow where
  did : Text
  memberRev : Rev
  addedAt : Text

/-- The set hash of the members and the revision of the last commit. -/
structure MemberState where
  setHash : Option Bytes
  rev : Option Rev

/-- The state before any commit. -/
def MemberState.empty : MemberState := ⟨none, none⟩

/-- The set hash that was read. -/
def MemberState.loadHash (state : MemberState) : Except SpaceError LtHash :=
  match state.setHash with
  | some bytes => LtHash.fromStateBytes bytes
  | none => .ok LtHash.empty

/-- A change of one member. -/
inductive MemberChange where
  | add (row : MemberRow)
  | remove (did : Text)

/-- An entry of the member oplog, as far as a member operation fills it. -/
structure MemberEntry where
  rev : Rev
  idx : Nat
  action : Text
  did : Option Text

/-- The member oplog is ordered by revision and index. -/
def MemberEntry.key (entry : MemberEntry) : Rev ×ₗ Nat := toLex (entry.rev, entry.idx)

/-- What a member commit changes in the storage. -/
structure PreparedCommitMembers where
  newSetHash : Bytes
  rev : Rev
  memberChanges : List MemberChange
  oplogEntries : List MemberEntry

/-- A formatted member commit. -/
structure PreparedMemberCommit where
  setHash : LtHash
  rev : Rev
  storageCommit : PreparedCommitMembers

/-- What is stored about the members of a space: the members by their DIDs, the oplog, and the row
of the state, when there is one. -/
structure MembersStore where
  members : List (Text × MemberRow)
  oplog : List MemberEntry
  stateRow : Option MemberState

/-- Nothing is stored. -/
def MembersStore.empty : MembersStore := ⟨[], [], none⟩

/-- The state that a reader gets. -/
def MembersStore.currentState (store : MembersStore) : MemberState :=
  store.stateRow.getD MemberState.empty

/-- Whether a DID is among the members. -/
def MembersStore.isMember (store : MembersStore) (did : Text) : Bool :=
  (lookup did store.members).isSome

/-- The DIDs of the members. -/
def MembersStore.dids (store : MembersStore) : List Text := store.members.map Prod.fst

/-! ### Formatting a commit -/

variable (blake3 : Bytes → Fin stateLength → UInt8)

/-- The first operation on a DID that was named before. -/
def firstDuplicateMember : List Text → List MemberOp → Option MemberOp
  | _, [] => none
  | seen, op :: ops =>
    if op.did ∈ seen then some op else firstDuplicateMember (op.did :: seen) ops

/-- The hash, the changes and the oplog entries gathered so far. -/
structure MemberDraft where
  hash : LtHash
  changes : List MemberChange
  entries : List MemberEntry

/-- The oplog entry of a member operation. -/
def MemberOp.entry (op : MemberOp) (rev : Rev) (idx : Nat) : MemberEntry where
  rev := rev
  idx := idx % 2 ^ 32
  action := op.action.asStr
  did := op.did

/-- Format one member operation, on a DID that is a member already or is not. -/
def formatMemberOp (rev : Rev) (now : Text) (alreadyMember : Bool) (idx : Nat) (op : MemberOp)
    (draft : MemberDraft) : Except SpaceError MemberDraft :=
  match op.action with
  | .add =>
    if alreadyMember then .error (.memberAlreadyExists op.did)
    else .ok {
      hash := LtHash.add blake3 draft.hash (memberElementBytes op.did)
      changes := draft.changes ++ [.add ⟨op.did, rev, now⟩]
      entries := draft.entries ++ [op.entry rev idx] }
  | .remove =>
    if alreadyMember then .ok {
      hash := LtHash.remove blake3 draft.hash (memberElementBytes op.did)
      changes := draft.changes ++ [.remove op.did]
      entries := draft.entries ++ [op.entry rev idx] }
    else .error (.notAMember op.did)

/-- Format the operations from an index on. -/
def formatMemberOps (store : MembersStore) (rev : Rev) (now : Text) :
    Nat → List MemberOp → MemberDraft → Except SpaceError MemberDraft
  | _, [], draft => .ok draft
  | idx, op :: ops, draft => do
    let draft ← formatMemberOp blake3 rev now (store.isMember op.did) idx op draft
    formatMemberOps store rev now (idx + 1) ops draft

/-- The prepared commit of a draft. -/
def MemberDraft.prepare (draft : MemberDraft) (rev : Rev) : PreparedMemberCommit where
  setHash := draft.hash
  rev := rev
  storageCommit := {
    newSetHash := LtHash.stateBytes draft.hash
    rev := rev
    memberChanges := draft.changes
    oplogEntries := draft.entries }

/-- Format a batch of member operations while nothing else runs.  The revision is issued from the
clock and random bits after the set hash was read. -/
def formatMemberCommit (store : MembersStore) (last : Tid.LastTid) (timestampMicros random : Nat)
    (now : Text) (ops : List MemberOp) : Tid.LastTid × Except SpaceError PreparedMemberCommit :=
  match firstDuplicateMember [] ops with
  | some op => (last, .error (.duplicateMemberInBatch op.did))
  | none =>
    match store.currentState.loadHash with
    | .error error => (last, .error error)
    | .ok hash =>
      match Tid.newWithTime last timestampMicros random with
      | none => (last, .error .panicked)
      | some (tid, last) =>
        (last, (·.prepare tid.encode) <$>
          formatMemberOps blake3 store tid.encode now 0 ops ⟨hash, [], []⟩)

/-! ### Storing a commit -/

/-- The two storages of the members of a space. -/
inductive MembersBackend where
  | sql
  | fjall
deriving DecidableEq

/-- Change a member.  In SQL a DID is only inserted where there is none. -/
def MemberChange.apply (backend : MembersBackend) (change : MemberChange)
    (members : List (Text × MemberRow)) : Except SpaceError (List (Text × MemberRow)) :=
  match backend, change with
  | .sql, .add row =>
    if (lookup row.did members).isSome then .error (.storage "apply_commit add")
    else .ok (insert row.did row members)
  | .fjall, .add row => .ok (insert row.did row members)
  | _, .remove did => .ok (erase did members)

/-- Change members one after another. -/
def applyMemberChanges (backend : MembersBackend) : List MemberChange →
    List (Text × MemberRow) → Except SpaceError (List (Text × MemberRow))
  | [], members => .ok members
  | change :: changes, members => do
    let members ← change.apply backend members
    applyMemberChanges backend changes members

/-- Write an entry of the member oplog.  A missing DID is written empty, and in SQL an entry with
the same revision and index fails. -/
def MemberEntry.write (backend : MembersBackend) (entry : MemberEntry) (oplog : List MemberEntry) :
    Except SpaceError (List MemberEntry) :=
  let row := { entry with did := some (entry.did.getD Text.empty) }
  match backend with
  | .fjall => .ok (put MemberEntry.key row oplog)
  | .sql =>
    if oplog.any fun other => other.key = entry.key then .error (.storage "apply_commit oplog")
    else .ok (put MemberEntry.key row oplog)

/-- Write entries of the member oplog one after another. -/
def writeMemberEntries (backend : MembersBackend) : List MemberEntry → List MemberEntry →
    Except SpaceError (List MemberEntry)
  | [], oplog => .ok oplog
  | entry :: entries, oplog => do
    let oplog ← entry.write backend oplog
    writeMemberEntries backend entries oplog

/-- Store a prepared member commit. -/
def applyMemberCommit (backend : MembersBackend) (commit : PreparedCommitMembers)
    (store : MembersStore) : Except SpaceError MembersStore := do
  let members ← applyMemberChanges backend commit.memberChanges store.members
  let oplog ← writeMemberEntries backend commit.oplogEntries store.oplog
  .ok ⟨members, oplog, some ⟨some commit.newSetHash, some commit.rev⟩⟩

/-! ### Reading the members -/

/-- A page of members, with a cursor when there are more. -/
structure MemberPage where
  members : List MemberRow
  cursor : Option Text

/-- Read a page of members after a cursor.  One more row than fits is read, which tells whether
there is another page. -/
def MembersStore.listMembers (store : MembersStore) (cursor : Option Text) (limit : Nat) :
    MemberPage :=
  let limit := max 1 (min limit 100)
  let rows := (afterOption Prod.fst cursor store.members).take (limit + 1)
  if limit < rows.length then
    let rows := rows.take limit
    ⟨rows.map Prod.snd, (rows.getLast?).map Prod.fst⟩
  else ⟨rows.map Prod.snd, none⟩

/-! ### A commit of one operation -/

/-- The set hash after an operation. -/
def MemberOp.hash (op : MemberOp) (hash : LtHash) : LtHash :=
  match op.action with
  | .add => LtHash.add blake3 hash (memberElementBytes op.did)
  | .remove => LtHash.remove blake3 hash (memberElementBytes op.did)

/-- The change that an operation makes. -/
def MemberOp.change (op : MemberOp) (rev : Rev) (now : Text) : MemberChange :=
  match op.action with
  | .add => .add ⟨op.did, rev, now⟩
  | .remove => .remove op.did

/-- The members after an operation. -/
def MemberOp.members (op : MemberOp) (rev : Rev) (now : Text) (members : List (Text × MemberRow)) :
    List (Text × MemberRow) :=
  match op.action with
  | .add => insert op.did ⟨op.did, rev, now⟩ members
  | .remove => erase op.did members

/-- The commit of one operation, from the set hash that was read. -/
def MemberOp.prepared (op : MemberOp) (rev : Rev) (now : Text) (hash : LtHash) :
    PreparedMemberCommit :=
  MemberDraft.prepare ⟨op.hash blake3 hash, [op.change rev now], [op.entry rev 0]⟩ rev

/-- The storage takes the commit of an operation.  In SQL the DID to add must not be there, and
neither may an entry with the revision. -/
def MembersStore.Takes (backend : MembersBackend) (store : MembersStore) (op : MemberOp)
    (rev : Rev) : Prop :=
  backend = .sql → (op.action = .add → lookup op.did store.members = none) ∧
    ∀ entry ∈ store.oplog, entry.key ≠ toLex (rev, 0)

/-- What is stored after the commit of an operation. -/
def MemberOp.stored (op : MemberOp) (rev : Rev) (now : Text) (hash : LtHash)
    (store : MembersStore) : MembersStore where
  members := op.members rev now store.members
  oplog := put MemberEntry.key (op.entry rev 0) store.oplog
  stateRow := some ⟨some (LtHash.stateBytes (op.hash blake3 hash)), some rev⟩

variable {blake3} {op : MemberOp} {rev : Rev} {now : Text} {hash : LtHash}
  {backend : MembersBackend} {store next : MembersStore} {members : List (Text × MemberRow)}

/-- An operation is formatted when it adds what is not a member or removes what is one. -/
theorem formatMemberOp_eq_ok {alreadyMember : Bool} {draft : MemberDraft} :
  formatMemberOp blake3 rev now alreadyMember 0 op ⟨hash, [], []⟩ = .ok draft ↔
    alreadyMember = decide (op.action = .remove) ∧
      draft = ⟨op.hash blake3 hash, [op.change rev now], [op.entry rev 0]⟩
  := by
  obtain ⟨action, did⟩ := op
  cases action with
  | add =>
    cases alreadyMember with
    | false => exact eq_ok_iff_of_ok rfl rfl
    | true => exact eq_ok_iff_of_error rfl Bool.noConfusion
  | remove =>
    cases alreadyMember with
    | false => exact eq_ok_iff_of_error rfl Bool.noConfusion
    | true => exact eq_ok_iff_of_ok rfl rfl

theorem change_apply_eq_ok {result : List (Text × MemberRow)} :
  (op.change rev now).apply backend members = .ok result ↔
    (backend = .sql → op.action = .add → lookup op.did members = none) ∧
      result = op.members rev now members
  := by
  obtain ⟨action, did⟩ := op
  cases action with
  | remove =>
    have hfree : backend = .sql → MemberOpAction.remove = .add → lookup did members = none :=
      fun _ h => MemberOpAction.noConfusion h
    cases backend with
    | sql => exact eq_ok_iff_of_ok rfl hfree
    | fjall => exact eq_ok_iff_of_ok rfl hfree
  | add =>
    cases backend with
    | fjall => exact eq_ok_iff_of_ok rfl MembersBackend.noConfusion
    | sql =>
      cases hlookup : lookup did members with
      | none =>
        apply eq_ok_iff_of_ok
        · rw [MemberOp.change, MemberChange.apply, hlookup]
          rfl
        · intro _ _
          rfl
      | some row =>
        apply eq_ok_iff_of_error
        · rw [MemberOp.change, MemberChange.apply, hlookup]
          rfl
        · intro h
          cases h rfl rfl

theorem entry_write_eq_ok {oplog result : List MemberEntry} :
  (op.entry rev 0).write backend oplog = .ok result ↔
    (backend = .sql → ∀ entry ∈ oplog, entry.key ≠ toLex (rev, 0)) ∧
      result = put MemberEntry.key (op.entry rev 0) oplog
  := by
  cases backend with
  | fjall => exact eq_ok_iff_of_ok rfl MembersBackend.noConfusion
  | sql =>
    have hany : (oplog.any fun other => other.key = (op.entry rev 0).key) = true ↔
        ¬ ∀ entry ∈ oplog, entry.key ≠ toLex (rev, 0) := by
      rw [List.any_eq_true]
      push Not
      apply exists_congr
      intro entry
      rw [decide_eq_true_iff]
      exact Iff.rfl
    by_cases hclash : (oplog.any fun other => other.key = (op.entry rev 0).key) = true
    · apply eq_ok_iff_of_error (if_pos hclash)
      intro h
      exact hany.mp hclash (h rfl)
    · apply eq_ok_iff_of_ok (if_neg hclash)
      intro _
      exact not_not.mp fun h => hclash (hany.mpr h)

/-- The commit of one operation is stored when the storage takes it. -/
theorem applyMemberCommit_eq_ok :
  applyMemberCommit backend (op.prepared blake3 rev now hash).storageCommit store = .ok next ↔
    store.Takes backend op rev ∧ next = op.stored blake3 rev now hash store
  := by
  constructor
  · intro h
    obtain ⟨members, hmembers, h⟩ := bind_eq_ok.mp h
    obtain ⟨oplog, hoplog, h⟩ := bind_eq_ok.mp h
    obtain ⟨members', hchange, hnil⟩ := bind_eq_ok.mp hmembers
    obtain ⟨oplog', hwrite, hnil'⟩ := bind_eq_ok.mp hoplog
    cases hnil
    cases hnil'
    cases h
    obtain ⟨hadd, rfl⟩ := change_apply_eq_ok.mp hchange
    obtain ⟨hfree, rfl⟩ := entry_write_eq_ok.mp hwrite
    exact ⟨fun hsql => ⟨hadd hsql, hfree hsql⟩, rfl⟩
  · rintro ⟨htakes, rfl⟩
    apply bind_eq_ok.mpr
    refine ⟨op.members rev now store.members, ?_, ?_⟩
    · apply bind_eq_ok.mpr
      exact ⟨_, change_apply_eq_ok.mpr ⟨fun hsql => (htakes hsql).1, rfl⟩, rfl⟩
    · apply bind_eq_ok.mpr
      refine ⟨put MemberEntry.key (op.entry rev 0) store.oplog, ?_, rfl⟩
      apply bind_eq_ok.mpr
      exact ⟨_, entry_write_eq_ok.mpr ⟨fun hsql => (htakes hsql).2, rfl⟩, rfl⟩

/-- What a formatted commit of one operation was made from. -/
theorem formatMemberCommit_eq_ok {last last' : Tid.LastTid} {timestampMicros random : Nat}
    {prepared : PreparedMemberCommit} :
  formatMemberCommit blake3 store last timestampMicros random now [op] = (last', .ok prepared) ↔
    ∃ hash tid, store.currentState.loadHash = .ok hash ∧
      Tid.newWithTime last timestampMicros random = some (tid, last') ∧
      store.isMember op.did = decide (op.action = .remove) ∧
      prepared = op.prepared blake3 tid.encode now hash
  := by
  have hduplicate : firstDuplicateMember [] [op] = none := if_neg List.not_mem_nil
  rw [formatMemberCommit, hduplicate]
  dsimp only
  cases hload : store.currentState.loadHash with
  | error error =>
    apply iff_of_false
    · nofun
    · rintro ⟨hash, tid, h, -⟩
      cases h
  | ok hash =>
    dsimp only
    cases htid : Tid.newWithTime last timestampMicros random with
    | none =>
      apply iff_of_false
      · nofun
      · rintro ⟨hash, tid, -, h, -⟩
        cases h
    | some issued =>
      obtain ⟨tid, last''⟩ := issued
      dsimp only
      constructor
      · intro h
        obtain ⟨rfl, hformat⟩ := Prod.mk.inj h
        obtain ⟨draft, hdraft, hprepare⟩ := bind_eq_ok.mp hformat
        obtain ⟨draft', hop, hnil⟩ := bind_eq_ok.mp hdraft
        cases hprepare
        cases hnil
        obtain ⟨hmember, rfl⟩ := formatMemberOp_eq_ok.mp hop
        exact ⟨hash, tid, rfl, rfl, hmember, rfl⟩
      · rintro ⟨hash', tid', hhash, hissued, hmember, rfl⟩
        cases hhash
        cases hissued
        apply Prod.ext
        · rfl
        · apply bind_eq_ok.mpr
          refine ⟨_, ?_, rfl⟩
          apply bind_eq_ok.mpr
          exact ⟨_, formatMemberOp_eq_ok.mpr ⟨hmember, rfl⟩, rfl⟩

end Atproto.Space
