import Atproto.Logic.Pool
import Atproto.Pds.SpaceService

/-!
# Concurrent changes of the members

Requests that add and remove members or create the space run at the same time.  Each of them reads
the state, is issued a revision, reads whether its DID is a member, and only then stores its commit,
and the steps of others may come between any two of these.  The set hash that is stored stays the
one of the members as long as each commit finds the members as its request read them.
-/

namespace Atproto.Pds

open Atproto.Dasl Atproto.Record Atproto.Repo Atproto.Space Logic Logic.Machine SearchTree

variable (blake3 : Bytes → Fin stateLength → UInt8)

/-! ### Requests and their steps -/

/-- A request of the owner. -/
inductive MemberRequest where
  | addMember (did : Text)
  | removeMember (did : Text)
  | createSpace (config : SpaceConfig)

/-- What a request does next, with what it has read so far.  `creates` tells that the request
creates the space, and the operation then adds the owner. -/
inductive MemberCall where
  /-- Check that the space is not deleted. -/
  | check (op : MemberOp)
  /-- Write the row of the space. -/
  | upsert (config : SpaceConfig) (op : MemberOp)
  /-- Write the row of the state when there is none. -/
  | seed (op : MemberOp)
  /-- Read the state. -/
  | read (op : MemberOp) (creates : Bool)
  /-- Take a revision. -/
  | issue (op : MemberOp) (creates : Bool) (seen : MemberState)
  /-- Read whether the DID is a member, and format the commit. -/
  | prepare (op : MemberOp) (creates : Bool) (seen : MemberState) (rev : Rev) (now : Text)
  /-- Store the commit. -/
  | apply (op : MemberOp) (creates : Bool) (seen : MemberState) (commit : PreparedMemberCommit)
  /-- Look whether the owner has become a member after the commit failed. -/
  | recheck (op : MemberOp) (error : SpaceError)
  /-- The request has its answer. -/
  | done (result : Except PdsError Unit)

/-- What the requests share: the generator of the process, the row of the space and the members. -/
structure MembersShared where
  last : Tid.LastTid
  row : Option SpaceRow
  store : MembersStore

/-- How a step goes: the instant, and whether the storage works. -/
structure StepChoice where
  moment : Moment
  works : Bool

/-- The first step of a request. -/
def MemberRequest.begin (uri : SpaceUri) : MemberRequest → MemberCall
  | .addMember did => .check ⟨.add, did⟩
  | .removeMember did => .check ⟨.remove, did⟩
  | .createSpace config => .upsert config ⟨.add, uri.spaceDid⟩

/-- A step that needs the storage to work. -/
def withStorage (choice : StepChoice) (shared : MembersShared)
    (next : MemberCall × MembersShared) : MemberCall × MembersShared :=
  if choice.works then next else (.done (.error (.space (.storage "storage"))), shared)

/-- One step of a request. -/
def MemberCall.advance (backend : MembersBackend) (uri : SpaceUri) (choice : StepChoice)
    (call : MemberCall) (shared : MembersShared) : MemberCall × MembersShared :=
  match call with
  | .check op =>
    withStorage choice shared <|
      match ensureNotDeleted uri shared.row with
      | .error error => (.done (.error error), shared)
      | .ok () => (.read op false, shared)
  | .upsert config op =>
    withStorage choice shared
      (.seed op, { shared with row := some (createdRow config choice.moment.now shared.row) })
  | .seed op =>
    withStorage choice shared <|
      match backend with
      | .sql =>
        let stateRow := shared.store.stateRow.getD MemberState.empty
        (.read op true, { shared with store := { shared.store with stateRow := some stateRow } })
      -- The row is written to the SQL tables, which the keyspaces do not read.
      | .fjall => (.read op true, shared)
  | .read op creates =>
    withStorage choice shared (.issue op creates shared.store.currentState, shared)
  | .issue op creates seen =>
    match seen.loadHash with
    | .error error => (.done (.error (.space error)), shared)
    | .ok _ =>
      match Tid.newWithTime shared.last choice.moment.timestampMicros choice.moment.random with
      | none => (.done (.error .panicked), shared)
      | some (tid, last) =>
        (.prepare op creates seen tid.encode choice.moment.now, { shared with last := last })
  | .prepare op creates seen rev now =>
    withStorage choice shared <|
      match seen.loadHash with
      | .error error => (.done (.error (.space error)), shared)
      | .ok hash =>
        match formatMemberOp blake3 rev now (shared.store.isMember op.did) 0 op ⟨hash, [], []⟩ with
        | .ok draft => (.apply op creates seen (draft.prepare rev), shared)
        | .error (.memberAlreadyExists did) =>
          -- A space that is created again has its owner as a member already.
          (if creates then .done (.ok ()) else .done (.error (.space (.memberAlreadyExists did))),
            shared)
        | .error error => (.done (.error (.space error)), shared)
  | .apply op creates _ commit =>
    match if choice.works then applyMemberCommit backend commit.storageCommit shared.store
        else .error (.storage "storage") with
    | .error error =>
      (if creates then .recheck op error else .done (.error (.space error)), shared)
    | .ok store =>
      let row := match backend with
        | .sql => some (ensureSpaceRow choice.moment.now shared.row)
        | .fjall => shared.row
      (.done (.ok ()), { shared with row := row, store := store })
  | .recheck op error =>
    withStorage choice shared
      (if shared.store.isMember op.did then .done (.ok ()) else .done (.error (.space error)),
        shared)
  | .done result => (.done result, shared)

/-- The process issues an identifier for something else. -/
def issueOutside (moment : Moment) (shared : MembersShared) : MembersShared :=
  match Tid.newWithTime shared.last moment.timestampMicros moment.random with
  | none => shared
  | some (_, last) => { shared with last := last }

/-- The requests in flight and what they share. -/
abbrev MembersPool : Type := Pool MembersShared MemberCall

/-- What happens next. -/
abbrev MembersTurn : Type := Turn MemberRequest StepChoice Moment

/-- One turn. -/
def membersStep (backend : MembersBackend) (uri : SpaceUri) (pool : MembersPool)
    (turn : MembersTurn) : MembersPool :=
  pool.turn (MemberRequest.begin uri) (MemberCall.advance blake3 backend uri) issueOutside turn

/-- Nothing is stored and no request is in flight. -/
def membersStart : MembersPool := ⟨⟨none, none, MembersStore.empty⟩, []⟩

/-! ### The commitment -/

/-- The lanes of a member. -/
def memberOf (x : Text × MemberRow) : LtHash := LtHash.expand blake3 (memberElementBytes x.1)

/-- The hash of some DIDs. -/
def hashOfDids (dids : List Text) : LtHash :=
  dids.foldl (fun hash did => hash.add blake3 (memberElementBytes did)) LtHash.empty

/-- The set hash that is stored is the one of the members, and the revision that is stored is the
greatest one of the oplog. -/
structure MembersConsistent (store : MembersStore) : Prop where
  hash : store.currentState.setHash.getD LtHash.empty.stateBytes =
    (hashOfDids blake3 store.dids).stateBytes
  rev : match store.currentState.rev with
    | none => store.oplog = []
    | some rev => (∃ entry ∈ store.oplog, entry.rev = rev) ∧ ∀ entry ∈ store.oplog, entry.rev ≤ rev

/-- The DIDs that an operation starts from: the others, and its own when it removes it. -/
def MemberOp.base (op : MemberOp) (store : MembersStore) : List Text :=
  let others := (erase op.did store.members).map Prod.fst
  match op.action with
  | .add => others
  | .remove => op.did :: others

/-- What a turn has to meet.  A commit that the storage takes finds that its request has read the
set hash of the members that are stored now, without its DID when it is added and with it when it
is removed, and no later revision in the oplog. -/
def CarefulTurn (backend : MembersBackend) (pool : MembersPool) : MembersTurn → Prop
  | .advance i choice =>
    match pool.calls[i]? with
    | some (.apply op _ seen commit) =>
      choice.works = true → pool.shared.store.Takes backend op commit.rev →
        seen.loadHash = .ok (hashOfDids blake3 (MemberOp.base op pool.shared.store)) ∧
        ∀ entry ∈ pool.shared.store.oplog, entry.rev ≤ commit.rev
    | _ => True
  | _ => True

/-! ### What a step does to the members -/

/-- A commit that is to be stored was formatted from the hash that was read. -/
def Formatted : MemberCall → Prop
  | .apply op _ seen commit =>
    ∃ now hash, seen.loadHash = .ok hash ∧ commit = op.prepared blake3 commit.rev now hash
  | _ => True

/-- The same members, oplog and state. -/
structure SameMembers (store next : MembersStore) : Prop where
  members : next.members = store.members
  oplog : next.oplog = store.oplog
  state : next.currentState = store.currentState

variable {blake3} {backend : MembersBackend} {uri : SpaceUri} {choice : StepChoice}
  {call : MemberCall} {shared : MembersShared} {store next : MembersStore}

theorem SameMembers.refl (store : MembersStore) :
  SameMembers store store
  := ⟨rfl, rfl, rfl⟩

theorem SameMembers.consistent_iff (h : SameMembers store next) :
  MembersConsistent blake3 next ↔ MembersConsistent blake3 store
  := by
  have hdids : next.dids = store.dids := congrArg (List.map Prod.fst) h.members
  constructor
  · rintro ⟨hhash, hrev⟩
    rw [h.state, hdids] at hhash
    rw [h.state, h.oplog] at hrev
    exact ⟨hhash, hrev⟩
  · rintro ⟨hhash, hrev⟩
    rw [← h.state, ← hdids] at hhash
    rw [← h.state, ← h.oplog] at hrev
    exact ⟨hhash, hrev⟩

theorem SameMembers.withStorage {step : MemberCall × MembersShared}
    (h : SameMembers shared.store step.2.store) :
  SameMembers shared.store (withStorage choice shared step).2.store
  := by
  rw [Pds.withStorage]
  split
  · exact h
  · exact SameMembers.refl _

/-- Only a commit that is stored changes the members. -/
theorem advance_same (hcall : ∀ op creates seen commit, call ≠ .apply op creates seen commit) :
  SameMembers shared.store (call.advance blake3 backend uri choice shared).2.store
  := by
  cases call with
  | apply op creates seen commit => exact absurd rfl (hcall op creates seen commit)
  | done result => exact SameMembers.refl _
  | check op =>
    apply SameMembers.withStorage
    cases ensureNotDeleted uri shared.row with
    | error error => exact SameMembers.refl _
    | ok _ => exact SameMembers.refl _
  | upsert config op =>
    apply SameMembers.withStorage
    exact SameMembers.refl _
  | seed op =>
    apply SameMembers.withStorage
    cases backend with
    | sql => exact ⟨rfl, rfl, rfl⟩
    | fjall => exact SameMembers.refl _
  | read op creates =>
    apply SameMembers.withStorage
    exact SameMembers.refl _
  | issue op creates seen =>
    rw [MemberCall.advance]
    cases seen.loadHash with
    | error error => exact SameMembers.refl _
    | ok hash =>
      dsimp only
      cases Tid.newWithTime shared.last choice.moment.timestampMicros choice.moment.random with
      | none => exact SameMembers.refl _
      | some issued => exact SameMembers.refl _
  | prepare op creates seen rev now =>
    apply SameMembers.withStorage
    cases seen.loadHash with
    | error error => exact SameMembers.refl _
    | ok hash =>
      dsimp only
      split
      · exact SameMembers.refl _
      · exact SameMembers.refl _
      · exact SameMembers.refl _
  | recheck op error =>
    apply SameMembers.withStorage
    exact SameMembers.refl _

/-- What storing a commit does. -/
theorem advance_apply {op : MemberOp} {creates : Bool} {seen : MemberState} {rev : Rev}
    {now : Text} {hash : LtHash} :
  let call : MemberCall := .apply op creates seen (op.prepared blake3 rev now hash)
  let after := (call.advance blake3 backend uri choice shared).2.store
  (choice.works = true ∧ shared.store.Takes backend op rev →
    after = op.stored blake3 rev now hash shared.store) ∧
  (¬ (choice.works = true ∧ shared.store.Takes backend op rev) → after = shared.store)
  := by
  intro call after
  constructor
  · rintro ⟨hworks, htakes⟩
    have happly : applyMemberCommit backend (op.prepared blake3 rev now hash).storageCommit
        shared.store = .ok (op.stored blake3 rev now hash shared.store) :=
      applyMemberCommit_eq_ok.mpr ⟨htakes, rfl⟩
    simp only [after, call, MemberCall.advance, hworks, if_true, happly]
  · intro hnot
    simp only [after, call, MemberCall.advance]
    split
    · rfl
    · rename_i store hstore
      exfalso
      apply hnot
      split at hstore
      · rename_i hworks
        exact ⟨hworks, (applyMemberCommit_eq_ok.mp hstore).1⟩
      · cases hstore

/-- A step leaves a request with a formatted commit, if with any. -/
theorem formatted_advance (h : Formatted blake3 call) :
  Formatted blake3 (call.advance blake3 backend uri choice shared).1
  := by
  have hstorage : ∀ step : MemberCall × MembersShared, Formatted blake3 step.1 →
      Formatted blake3 (withStorage choice shared step).1 := by
    intro step hstep
    rw [withStorage]
    split
    · exact hstep
    · trivial
  cases call with
  | done result => trivial
  | check op =>
    apply hstorage
    cases ensureNotDeleted uri shared.row with
    | error error => trivial
    | ok _ => trivial
  | upsert config op => exact hstorage _ trivial
  | seed op =>
    apply hstorage
    cases backend with
    | sql => trivial
    | fjall => trivial
  | read op creates => exact hstorage _ trivial
  | issue op creates seen =>
    rw [MemberCall.advance]
    cases seen.loadHash with
    | error error => trivial
    | ok hash =>
      dsimp only
      cases Tid.newWithTime shared.last choice.moment.timestampMicros choice.moment.random with
      | none => trivial
      | some issued => trivial
  | prepare op creates seen rev now =>
    apply hstorage
    cases hhash : seen.loadHash with
    | error error => trivial
    | ok hash =>
      dsimp only
      split
      · rename_i draft hdraft
        obtain ⟨-, rfl⟩ := formatMemberOp_eq_ok.mp hdraft
        exact ⟨now, hash, hhash, rfl⟩
      · split
        · trivial
        · trivial
      · trivial
  | apply op creates seen commit =>
    simp only [MemberCall.advance]
    split
    · split
      · trivial
      · trivial
    · trivial
  | recheck op error =>
    apply hstorage
    dsimp only
    split
    · trivial
    · trivial

/-! ### The commitment along a run -/

theorem hashOfDids_eq (dids : List Text) :
  hashOfDids blake3 dids =
    (dids.map fun did => LtHash.expand blake3 (memberElementBytes did)).sum
  := by
  have hfold : ∀ (dids : List Text) (hash : LtHash),
      dids.foldl (fun hash did => hash.add blake3 (memberElementBytes did)) hash =
        hash + (dids.map fun did => LtHash.expand blake3 (memberElementBytes did)).sum := by
    intro dids
    induction dids with
    | nil => exact fun hash => (add_zero hash).symm
    | cons did dids ih =>
      intro hash
      rw [List.foldl_cons, ih, LtHash.add_eq, List.map_cons, List.sum_cons, add_assoc]
  rw [hashOfDids, hfold, LtHash.empty_eq, zero_add]

theorem hashOfDids_members (members : List (Text × MemberRow)) :
  hashOfDids blake3 (members.map Prod.fst) = total (memberOf blake3) members
  := by
  rw [hashOfDids_eq, List.map_map]
  rfl

theorem hashOfDids_cons (did : Text) (dids : List Text) :
  hashOfDids blake3 (did :: dids) =
    LtHash.expand blake3 (memberElementBytes did) + hashOfDids blake3 dids
  := by
  rw [hashOfDids_eq, hashOfDids_eq, List.map_cons, List.sum_cons]

theorem stateBytes_inj {a b : LtHash} :
  a.stateBytes = b.stateBytes ↔ a = b
  := by
  constructor
  · intro h
    have hread := LtHash.fromStateBytes_stateBytes a
    rw [h, LtHash.fromStateBytes_stateBytes, Except.ok.injEq] at hread
    exact hread.symm
  · exact congrArg LtHash.stateBytes

/-- An operation leads from the hash of the DIDs that it starts from, and only from it, to the hash
of the members after it. -/
theorem hash_stored_iff {op : MemberOp} {rev : Rev} {now : Text} {hash : LtHash} :
  op.hash blake3 hash = hashOfDids blake3 (op.stored blake3 rev now hash store).dids ↔
    hash = hashOfDids blake3 (MemberOp.base op store)
  := by
  obtain ⟨action, did⟩ := op
  cases action with
  | add =>
    have hdids : hashOfDids blake3 (MemberOp.stored blake3 ⟨.add, did⟩ rev now hash store).dids =
        total (memberOf blake3) (insert did ⟨did, rev, now⟩ store.members) :=
      hashOfDids_members _
    have hbase : hashOfDids blake3 (MemberOp.base ⟨.add, did⟩ store) =
        total (memberOf blake3) (erase did store.members) := hashOfDids_members _
    rw [hdids, hbase, total_insert, MemberOp.hash, LtHash.add_eq]
    exact add_left_inj _
  | remove =>
    have hdids : hashOfDids blake3 (MemberOp.stored blake3 ⟨.remove, did⟩ rev now hash store).dids =
        total (memberOf blake3) (erase did store.members) := hashOfDids_members _
    have hbase : hashOfDids blake3 (MemberOp.base ⟨.remove, did⟩ store) =
        LtHash.expand blake3 (memberElementBytes did) +
          total (memberOf blake3) (erase did store.members) := by
      rw [← hashOfDids_members, ← hashOfDids_cons]
      rfl
    rw [hdids, hbase, MemberOp.hash, LtHash.remove_eq]
    exact sub_eq_iff_eq_add'

/-- The commit of an operation is consistent just when the hash that was read is the one of the
DIDs that it starts from, and no later revision is stored. -/
theorem stored_consistent_iff {op : MemberOp} {rev : Rev} {now : Text} {hash : LtHash} :
  MembersConsistent blake3 (op.stored blake3 rev now hash store) ↔
    hash = hashOfDids blake3 (MemberOp.base op store) ∧
      ∀ entry ∈ store.oplog, entry.rev ≤ rev
  := by
  have hput : ∀ entry, entry ∈ put MemberEntry.key (op.entry rev 0) store.oplog ↔
      entry = op.entry rev 0 ∨ entry ∈ store.oplog ∧ entry.key ≠ (op.entry rev 0).key :=
    fun entry => mem_put
  have hset : (op.stored blake3 rev now hash store).currentState.setHash =
      some (op.hash blake3 hash).stateBytes := rfl
  constructor
  · rintro ⟨hhash, -, hrev⟩
    rw [hset, Option.getD_some, stateBytes_inj, hash_stored_iff] at hhash
    refine ⟨hhash, ?_⟩
    intro entry hmem
    by_cases hkey : entry.key = (op.entry rev 0).key
    · exact le_of_eq (Prod.ext_iff.mp (toLex.injective hkey)).1
    · exact hrev entry ((hput entry).mpr (Or.inr ⟨hmem, hkey⟩))
  · rintro ⟨hhash, hrev⟩
    refine ⟨?_, ?_, ?_⟩
    · rw [hset, Option.getD_some, stateBytes_inj, hash_stored_iff]
      exact hhash
    · exact ⟨op.entry rev 0, (hput _).mpr (Or.inl rfl), rfl⟩
    · intro entry hmem
      rcases (hput entry).mp hmem with rfl | ⟨hmem, -⟩
      · exact le_refl rev
      · exact hrev entry hmem

/-- The invariant of a run: the store is consistent, and the requests hold formatted commits. -/
def MembersInvariant (blake3 : Bytes → Fin stateLength → UInt8) (pool : MembersPool) : Prop :=
  pool.Holds (fun shared => MembersConsistent blake3 shared.store) (fun _ => Formatted blake3)

/-- A turn keeps the store consistent just when it is careful. -/
theorem step_consistent_iff {pool : MembersPool} (h : MembersInvariant blake3 pool)
    (turn : MembersTurn) :
  MembersConsistent blake3 (membersStep blake3 backend uri pool turn).shared.store ↔
    CarefulTurn blake3 backend pool turn
  := by
  cases turn with
  | begin request => exact iff_of_true h.shared trivial
  | outside moment =>
    apply iff_of_true _ trivial
    rw [membersStep, Pool.turn, issueOutside]
    dsimp only
    split
    · exact h.shared
    · exact h.shared
  | advance i choice =>
    rw [CarefulTurn, membersStep]
    cases hcall : pool.calls[i]? with
    | none =>
      rw [Pool.turn_advance_of_none hcall]
      exact iff_of_true h.shared trivial
    | some call =>
      rw [Pool.turn_advance_of_some hcall]
      have hformatted := h.calls call (List.mem_of_getElem? hcall)
      by_cases happly : ∃ op creates seen commit, call = .apply op creates seen commit
      · obtain ⟨op, creates, seen, commit, rfl⟩ := happly
        obtain ⟨now, hash, hseen, hcommit⟩ := hformatted
        rw [hcommit] at hcall ⊢
        obtain ⟨htaken, hrefused⟩ := @advance_apply blake3 backend uri choice pool.shared op creates
          seen commit.rev now hash
        have hrev : (op.prepared blake3 commit.rev now hash).rev = commit.rev := rfl
        dsimp only
        rw [hseen, hrev, Except.ok.injEq]
        by_cases hstores : choice.works = true ∧ pool.shared.store.Takes backend op commit.rev
        · rw [htaken hstores, stored_consistent_iff]
          constructor
          · intro hcareful _ _
            exact hcareful
          · intro hcareful
            exact hcareful hstores.1 hstores.2
        · rw [hrefused hstores]
          apply iff_of_true h.shared
          intro hworks htakes
          exact absurd ⟨hworks, htakes⟩ hstores
      · have hother : ∀ op creates seen commit, call ≠ .apply op creates seen commit :=
          fun op creates seen commit heq => happly ⟨op, creates, seen, commit, heq⟩
        rw [(advance_same hother).consistent_iff]
        apply iff_of_true h.shared
        cases call with
        | apply op creates seen commit => exact absurd rfl (hother op creates seen commit)
        | _ => trivial

theorem invariant_step {pool : MembersPool} (h : MembersInvariant blake3 pool)
    (turn : MembersTurn) (hcareful : CarefulTurn blake3 backend pool turn) :
  MembersInvariant blake3 (membersStep blake3 backend uri pool turn)
  := by
  have hconsistent := (@step_consistent_iff blake3 backend uri pool h turn).mpr hcareful
  refine ⟨hconsistent, ?_⟩
  cases turn with
  | begin request =>
    intro call hmem
    rcases List.mem_append.mp hmem with hmem | hmem
    · exact h.calls call hmem
    · rw [List.mem_singleton.mp hmem]
      cases request with
      | addMember did => trivial
      | removeMember did => trivial
      | createSpace config => trivial
  | outside moment => exact h.calls
  | advance i choice =>
    rw [membersStep]
    cases hcall : pool.calls[i]? with
    | none =>
      rw [Pool.turn_advance_of_none hcall]
      exact h.calls
    | some call =>
      rw [Pool.turn_advance_of_some hcall]
      intro other hmem
      rcases List.mem_or_eq_of_mem_set hmem with hmem | rfl
      · exact h.calls other hmem
      · exact formatted_advance (h.calls call (List.mem_of_getElem? hcall))

theorem invariant_start :
  MembersInvariant blake3 membersStart
  := by
  have hset : MembersStore.empty.currentState.setHash = none := rfl
  have hdids : hashOfDids blake3 MembersStore.empty.dids = LtHash.empty := rfl
  refine ⟨⟨?_, rfl⟩, List.forall_mem_nil _⟩
  rw [membersStart, hset, Option.getD_none, hdids]

/-- Along any run the members stay consistent just when each commit that is stored finds them as
its request read them, and no later revision. -/
theorem members_consistent_iff (blake3 : Bytes → Fin stateLength → UInt8)
    (backend : MembersBackend) (uri : SpaceUri) (turns : List MembersTurn) :
  Along (membersStep blake3 backend uri)
      (fun pool turn =>
        MembersConsistent blake3 (membersStep blake3 backend uri pool turn).shared.store)
      membersStart turns ↔
    Along (membersStep blake3 backend uri) (CarefulTurn blake3 backend) membersStart turns
  := by
  apply @along_congr _ _ _ _ _ (MembersInvariant blake3)
  · intro pool turn h
    exact step_consistent_iff h turn
  · intro pool turn h hcareful
    exact invariant_step h turn hcareful
  · exact invariant_start

/-! ### Two members added at the same time -/

/-- Two requests add two DIDs, and both read the state before either of them stores its commit. -/
def addedTwice : List MembersTurn :=
  let turn := fun i random => Turn.advance i ⟨⟨1, random, Text.empty⟩, true⟩
  [.begin (.addMember (textOf "a")), .begin (.addMember (textOf "b")),
    turn 0 0, turn 1 0, turn 0 0, turn 1 0, turn 0 0, turn 1 0, turn 0 0, turn 1 0, turn 0 0, turn 1 0]

/-- The two requests with a hash function whose bytes are all one. -/
def addedTwicePool (backend : MembersBackend) : MembersPool :=
  run (membersStep (fun _ _ => 1) backend sampleSpace) membersStart addedTwice

/-- Every request has its answer. -/
def Finished (pool : MembersPool) : Prop := ∀ call ∈ pool.calls, ∃ result, call = .done result

theorem addedTwicePool_eq (backend : MembersBackend) :
  (addedTwicePool backend).calls = [.done (.ok ()), .done (.ok ())] ∧
    (addedTwicePool backend).shared.store.dids = [textOf "a", textOf "b"] ∧
    (addedTwicePool backend).shared.store.currentState.setHash =
      some (LtHash.add (fun _ _ => 1) LtHash.empty (memberElementBytes (textOf "b"))).stateBytes
  := by
  cases backend with
  | sql => exact ⟨rfl, rfl, rfl⟩
  | fjall => exact ⟨rfl, rfl, rfl⟩

theorem addedTwicePool_finished (backend : MembersBackend) :
  Finished (addedTwicePool backend)
  := by
  rw [Finished, (addedTwicePool_eq backend).1]
  intro call hmem
  rcases List.mem_pair.mp hmem with rfl | rfl
  · use .ok ()
  · use .ok ()

/-- Both DIDs are members, but the set hash has only the second one. -/
theorem addedTwicePool_hash (backend : MembersBackend) :
  ¬ MembersConsistent (fun _ _ => 1) (addedTwicePool backend).shared.store
  := by
  rintro ⟨hhash, -⟩
  obtain ⟨-, hdids, hstored⟩ := addedTwicePool_eq backend
  rw [hstored, Option.getD_some, stateBytes_inj, hdids] at hhash
  have hlane := congrFun hhash ⟨0, Nat.succ_pos 1023⟩
  exact absurd hlane (by decide)

theorem members_diverge :
  (Finished (addedTwicePool .sql) ∧
    ¬ MembersConsistent (fun _ _ => 1) (addedTwicePool .sql).shared.store) ∧
  Finished (addedTwicePool .fjall) ∧
    ¬ MembersConsistent (fun _ _ => 1) (addedTwicePool .fjall).shared.store
  := ⟨⟨addedTwicePool_finished .sql, addedTwicePool_hash .sql⟩,
    addedTwicePool_finished .fjall, addedTwicePool_hash .fjall⟩

end Atproto.Pds
