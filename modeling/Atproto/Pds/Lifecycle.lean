import Atproto.Pds.SpaceService

/-!
# The life of a space

A space is live while its row is there and is not deleted, and then all readers agree on it.  On a
space that is not live they do not: the owner counts as a member of any space, also of one that is
deleted or was never created.
-/

namespace Atproto.Pds

open Atproto.Dasl Atproto.Lexicon Atproto.Record Atproto.Repo Atproto.Space Logic Logic.Machine
  SearchTree

variable (blake3 : Bytes → Fin stateLength → UInt8)

/-! ### Calls of the owner -/

/-- A call of the owner on the space. -/
inductive SpaceCall where
  | create (config : SpaceConfig) (moment : Moment)
  | update (patch : SpaceConfigPatch)
  | delete (now : Text)
  | add (did : Text) (moment : Moment)
  | remove (did : Text) (moment : Moment)

/-- Create the space with a URI. -/
def createAt (uri : SpaceUri) (config : SpaceConfig) (moment : Moment) (state : SpaceState) :
    SpaceState × Except PdsError SpaceInfo :=
  createSpace blake3 uri.spaceDid uri.spaceType.value uri.spaceKey.value config moment state

/-- The state after a call. -/
def serveCall (uri : SpaceUri) (state : SpaceState) : SpaceCall → SpaceState
  | .create config moment => (createAt blake3 uri config moment state).1
  | .update patch => (updateSpace uri.spaceDid uri patch state).1
  | .delete now => (deleteSpace uri.spaceDid uri now state).1
  | .add did moment => (addMember blake3 uri.spaceDid uri did moment state).1
  | .remove did moment => (removeMember blake3 uri.spaceDid uri did moment state).1

/-- The call creates the space and succeeds. -/
def SpaceCall.Creates (uri : SpaceUri) (state : SpaceState) : SpaceCall → Prop
  | .create config moment => ∃ info, (createAt blake3 uri config moment state).2 = .ok info
  | _ => False

/-- The tables before the space is created. -/
def freshTables (tables : SpaceTables) : SpaceTables :=
  { tables with row := none, members := MembersStore.empty, repo := SpaceStore.empty, blobRefs := [] }

/-! ### What the readers see -/

/-- A page of the DIDs of the members. -/
def memberPage (uri : SpaceUri) (limit : Nat) (tables : SpaceTables) (cursor : Option Text) :
    List Text × Option Text :=
  match listMembers uri cursor limit (some tables) with
  | .ok page => (page.members.map MemberRow.did, page.cursor)
  | .error _ => ([], none)

/-- The DIDs of the members, read page by page. -/
def listedMembers (uri : SpaceUri) (limit fuel : Nat) (tables : SpaceTables) : List Text :=
  followPages (memberPage uri limit tables) fuel none

/-- The spaces, read page by page. -/
def listedSpaces (uri : SpaceUri) (spaceType authorityDid : Option Text) (limit fuel : Nat)
    (tables : SpaceTables) : List SpaceInfo :=
  followPages (fun cursor => listSpaces uri spaceType authorityDid cursor limit tables) fuel none

/-- A filter for spaces that lets a text through. -/
def Admits (filter : Option Text) (value : Text) : Prop := filter = none ∨ filter = some value

/-- All readers see a live space. -/
structure Live (uri : SpaceUri) (tables : SpaceTables) : Prop where
  get : ∃ output, getSpace uri tables = .ok output
  mint : ∀ did, ∃ inputs, loadMintAuthzInputs did tables = .ok inputs ∧
    inputs.found = true ∧ inputs.deleted = false
  listed : ∀ spaceType authorityDid, Admits spaceType uri.spaceType.value →
    Admits authorityDid uri.spaceDid → ∀ limit fuel, (tables.spaces uri).length < fuel →
      uri.text ∈ (listedSpaces uri spaceType authorityDid limit fuel tables).map SpaceInfo.uri
  members : ∀ limit fuel, tables.members.members.length < fuel → ∀ did,
    membership uri did (some tables) = .member ↔
      did = uri.spaceDid ∨ did ∈ listedMembers uri limit fuel tables

/-- All readers and writers see that there is no live space. -/
structure NotLive (uri : SpaceUri) (tables : SpaceTables) : Prop where
  get : getSpace uri tables = .error (.spaceNotFound uri.text)
  mint : ∀ did inputs, loadMintAuthzInputs did tables = .ok inputs →
    ¬ (inputs.found = true ∧ inputs.deleted = false)
  listed : ∀ spaceType authorityDid limit fuel,
    uri.text ∉ (listedSpaces uri spaceType authorityDid limit fuel tables).map SpaceInfo.uri
  members : ∀ cursor limit, listMembers uri cursor limit (some tables) =
    .error (.spaceNotFound uri.text)
  add : ∀ last did moment, (addMember blake3 uri.spaceDid uri did moment ⟨last, tables⟩).2 =
    .error (.spaceNotFound uri.text)
  remove : ∀ last did moment, (removeMember blake3 uri.spaceDid uri did moment ⟨last, tables⟩).2 =
    .error (.spaceNotFound uri.text)
  update : ∀ last patch, (updateSpace uri.spaceDid uri patch ⟨last, tables⟩).2 =
    .error (.spaceNotFound uri.text)
  membership : ∀ did, membership uri did (some tables) = .notMember

/-- All agree on whether the space is live. -/
def Agree (uri : SpaceUri) (tables : SpaceTables) : Prop :=
  Live uri tables ∨ NotLive blake3 uri tables

/-- After a call all agree, and a space that it has created is live. -/
def ConsistentCall (uri : SpaceUri) (state : SpaceState) (call : SpaceCall) : Prop :=
  Agree blake3 uri (serveCall blake3 uri state call).tables ∧
    (call.Creates blake3 uri state → Live uri (serveCall blake3 uri state call).tables)

/-- The row is there and is not deleted. -/
def RowLive (tables : SpaceTables) : Prop := ∃ row, tables.row = some row ∧ row.deletedAt = none

/-- What a call has to meet.  Where there is no row yet it creates the space, or it adds a member
and there is an identifier for the commit, which makes a row as well.  Later calls find the row not
deleted, and none of them deletes it. -/
def CarefulCall (state : SpaceState) : SpaceCall → Prop
  | .create _ _ => state.tables.row = none ∨ RowLive state.tables
  | .update _ => RowLive state.tables
  | .delete _ => False
  | .add _ moment => RowLive state.tables ∨ state.tables.row = none ∧
    Tid.newWithTime state.last moment.timestampMicros moment.random ≠ none
  | .remove _ _ => RowLive state.tables

/-! ### What the calls keep -/

/-- The members are in order, there are none without a row, and the row has a policy that can be
read. -/
structure Regular (tables : SpaceTables) : Prop where
  sorted : Sorted tables.members.members
  named : ∀ x ∈ tables.members.members, x.2.did = x.1
  fresh : tables.row = none → tables.members = MembersStore.empty
  policy : ∀ row, tables.row = some row → ∃ policy : MintPolicy, row.mintPolicy = policy.asStr

variable {blake3} {uri : SpaceUri} {tables tables' : SpaceTables} {state : SpaceState}

theorem regular_fresh (tables : SpaceTables) :
  Regular (freshTables tables)
  := by
  refine ⟨Sorted.nil, List.forall_mem_nil _, fun _ => rfl, ?_⟩
  rintro row ⟨⟩

theorem fromStrValue_asStr (policy : MintPolicy) :
  MintPolicy.fromStrValue policy.asStr = .ok policy
  := by
  cases policy with
  | publicAccess => rfl
  | memberList => rfl
  | managingApp => rfl

/-- The configuration of a regular row can be read. -/
theorem Regular.config (h : Regular tables) {row : SpaceRow} (hrow : tables.row = some row) :
  ∃ config, SpaceConfig.fromColumns row.mintPolicy row.appAccess row.managingApp = .ok config
  := by
  obtain ⟨policy, hpolicy⟩ := h.policy row hrow
  use ⟨policy, row.appAccess, row.managingApp⟩
  rw [hpolicy, SpaceConfig.fromColumns, fromStrValue_asStr]
  rfl

theorem ensureSpaceRow_some (now : Text) (row : SpaceRow) :
  ensureSpaceRow now (some row) = row
  := rfl

/-- What storing a commit of one operation does to the tables. -/
theorem applyMembers_eq_ok {op : MemberOp} {rev : Rev} {now now' : Text} {hash : LtHash}
    (h : tables.applyMembers now' (op.prepared blake3 rev now hash).storageCommit = .ok tables') :
  tables' = { tables with
    row := some (ensureSpaceRow now' tables.row)
    members := op.stored blake3 rev now hash tables.members }
  := by
  obtain ⟨members, hmembers, h⟩ := bind_eq_ok.mp h
  cases h
  obtain ⟨-, rfl⟩ := applyMemberCommit_eq_ok.mp hmembers
  rfl

/-- Members that are changed one at a time stay in order and under their DIDs. -/
theorem Regular.stored (h : Regular tables) {op : MemberOp} {rev : Rev} {now now' : Text}
    {hash : LtHash} :
  Regular { tables with
    row := some (ensureSpaceRow now' tables.row)
    members := op.stored blake3 rev now hash tables.members }
  := by
  refine ⟨?_, ?_, fun hnone => absurd hnone (Option.some_ne_none _), ?_⟩
  · obtain ⟨action, did⟩ := op
    cases action with
    | add => exact h.sorted.insert did _
    | remove => exact h.sorted.erase did
  · obtain ⟨action, did⟩ := op
    cases action with
    | add =>
      intro x hx
      rcases List.mem_append.mp hx with hx | hx
      · exact h.named x (mem_of_mem_below hx)
      · rcases List.mem_cons.mp hx with rfl | hx
        · rfl
        · exact h.named x (mem_of_mem_above hx)
    | remove =>
      intro x hx
      rcases List.mem_append.mp hx with hx | hx
      · exact h.named x (mem_of_mem_below hx)
      · exact h.named x (mem_of_mem_above hx)
  · intro row hrow
    cases hold : tables.row with
    | none =>
      rw [hold] at hrow
      cases hrow
      use .memberList
      rfl
    | some old =>
      rw [hold] at hrow
      cases hrow
      exact h.policy old hold

theorem Regular.seed (h : Regular tables) (config : SpaceConfig) (now : Text) :
  Regular (tables.seed config now)
  := by
  refine ⟨h.sorted, h.named, fun hnone => absurd hnone (Option.some_ne_none _), ?_⟩
  intro row hrow
  cases hold : tables.row with
  | none =>
    rw [SpaceTables.seed, hold] at hrow
    cases hrow
    use config.mintPolicy
    rfl
  | some old =>
    rw [SpaceTables.seed, hold] at hrow
    cases hrow
    exact h.policy old hold

/-- A created space has its row, and the old time of deletion if it had one. -/
theorem createAt_spec (h : Regular state.tables) (config : SpaceConfig) (moment : Moment) :
  Regular (createAt blake3 uri config moment state).1.tables ∧
    (createAt blake3 uri config moment state).1.tables.row =
      some (createdRow config moment.now state.tables.row)
  := by
  have hseed : Regular (state.tables.seed config moment.now) := h.seed config moment.now
  rw [createAt, createSpace, dif_pos uri.spaceType.valid, dif_pos uri.spaceKey.valid]
  dsimp only
  split
  · rename_i last prepared hformat
    obtain ⟨hash, tid, -, -, -, rfl⟩ := formatMemberCommit_eq_ok.mp hformat
    split
    · rename_i tables' happly
      rw [applyMembers_eq_ok happly]
      exact ⟨hseed.stored, rfl⟩
    · split
      · exact ⟨hseed, rfl⟩
      · exact ⟨hseed, rfl⟩
  · exact ⟨hseed, rfl⟩
  · exact ⟨hseed, rfl⟩

theorem updateSpace_spec (h : Regular state.tables) (patch : SpaceConfigPatch) :
  Regular (updateSpace uri.spaceDid uri patch state).1.tables ∧
    (state.tables.row = none →
      (updateSpace uri.spaceDid uri patch state).1.tables.row = none) ∧
    ∀ row, state.tables.row = some row →
      ∃ row', (updateSpace uri.spaceDid uri patch state).1.tables.row = some row' ∧
        row'.deletedAt = row.deletedAt
  := by
  rw [updateSpace, if_neg (not_not.mpr rfl)]
  cases hrow : state.tables.row with
  | none =>
    refine ⟨h, fun _ => hrow, ?_⟩
    intro row hnone
    cases hnone
  | some row =>
    dsimp only
    cases hdeleted : row.deletedAt with
    | some time =>
      refine ⟨h, fun hnone => absurd hnone (Option.some_ne_none _), ?_⟩
      intro row' heq
      cases heq
      exact ⟨row, hrow, rfl⟩
    | none =>
      refine ⟨⟨h.sorted, h.named, fun hnone => absurd hnone (Option.some_ne_none _), ?_⟩,
        fun hnone => absurd hnone (Option.some_ne_none _), ?_⟩
      · intro row' heq
        cases heq
        cases hpatch : patch.mintPolicy with
        | none =>
          obtain ⟨policy, hpolicy⟩ := h.policy row hrow
          use policy
          rw [SpaceConfigPatch.apply, hpatch, ← hpolicy]
          rfl
        | some policy =>
          use policy
          rw [SpaceConfigPatch.apply, hpatch]
          rfl
      · intro row' heq
        cases heq
        exact ⟨patch.apply row, rfl, rfl⟩

theorem deleteSpace_spec (h : Regular state.tables) (now : Text) :
  Regular (deleteSpace uri.spaceDid uri now state).1.tables ∧
    (state.tables.row = none → (deleteSpace uri.spaceDid uri now state).1.tables.row = none) ∧
    ∀ row, state.tables.row = some row →
      ∃ row' time, (deleteSpace uri.spaceDid uri now state).1.tables.row = some row' ∧
        row'.deletedAt = some time
  := by
  rw [deleteSpace, if_neg (not_not.mpr rfl)]
  cases hrow : state.tables.row with
  | none =>
    refine ⟨h, fun _ => hrow, ?_⟩
    intro row hnone
    cases hnone
  | some row =>
    refine ⟨⟨h.sorted, h.named, fun hnone => absurd hnone (Option.some_ne_none _), ?_⟩,
      fun hnone => absurd hnone (Option.some_ne_none _), ?_⟩
    · intro row' heq
      cases heq
      exact h.policy row hrow
    · intro row' heq
      cases heq
      exact ⟨_, _, rfl, rfl⟩

/-- A change of the members either leaves the tables alone or stores a commit. -/
theorem applyMemberOp_cases (action : MemberOpAction) (did : Text) (moment : Moment) :
  let after := (applyMemberOp blake3 uri.spaceDid uri action did moment state).1.tables
  after = state.tables ∨ ∃ rev hash, after = { state.tables with
    row := some (ensureSpaceRow moment.now state.tables.row)
    members := MemberOp.stored blake3 ⟨action, did⟩ rev moment.now hash state.tables.members }
  := by
  intro after
  simp only [after, applyMemberOp]
  rw [if_neg (not_not.mpr rfl)]
  split
  · exact Or.inl rfl
  · split
    · exact Or.inl rfl
    · rename_i last prepared hformat
      obtain ⟨hash, tid, -, -, -, rfl⟩ := formatMemberCommit_eq_ok.mp hformat
      split
      · exact Or.inl rfl
      · rename_i tables' happly
        rw [applyMembers_eq_ok happly]
        exact Or.inr ⟨tid.encode, hash, rfl⟩

/-- The first member makes the row of a space that has none, when there is an identifier for the
commit. -/
theorem applyMemberOp_fresh (h : Regular state.tables) (hrow : state.tables.row = none)
    (action : MemberOpAction) (did : Text) (moment : Moment) :
  (applyMemberOp blake3 uri.spaceDid uri action did moment state).1.tables.row =
    if action = .add ∧
        Tid.newWithTime state.last moment.timestampMicros moment.random ≠ none then
      some (ensureSpaceRow moment.now none)
    else none
  := by
  have hmembers : state.tables.members = MembersStore.empty := h.fresh hrow
  rw [applyMemberOp, if_neg (not_not.mpr rfl), hrow]
  dsimp only [ensureNotDeleted]
  cases htid : Tid.newWithTime state.last moment.timestampMicros moment.random with
  | none =>
    rw [if_neg fun hand => hand.2 rfl]
    split
    · exact hrow
    · rename_i last prepared hformat
      obtain ⟨hash, tid, -, hissued, -⟩ := formatMemberCommit_eq_ok.mp hformat
      rw [htid] at hissued
      cases hissued
  | some issued =>
    obtain ⟨tid, last⟩ := issued
    cases action with
    | remove =>
      rw [if_neg fun hand => MemberOpAction.noConfusion hand.1]
      split
      · exact hrow
      · rename_i last prepared hformat
        obtain ⟨hash, tid, -, -, hmember, -⟩ := formatMemberCommit_eq_ok.mp hformat
        rw [hmembers] at hmember
        cases hmember
    | add =>
      rw [if_pos ⟨rfl, Option.some_ne_none _⟩]
      have hformat : formatMemberCommit blake3 state.tables.members state.last
          moment.timestampMicros moment.random moment.now [⟨.add, did⟩] = (last, .ok
            (MemberOp.prepared blake3 ⟨.add, did⟩ tid.encode moment.now LtHash.empty)) := by
        rw [hmembers]
        exact formatMemberCommit_eq_ok.mpr ⟨LtHash.empty, tid, rfl, htid, rfl, rfl⟩
      have happly : state.tables.applyMembers moment.now
          (MemberOp.prepared blake3 ⟨.add, did⟩ tid.encode moment.now LtHash.empty).storageCommit =
          .ok { state.tables with
            row := some (ensureSpaceRow moment.now state.tables.row)
            members := MemberOp.stored blake3 ⟨.add, did⟩ tid.encode moment.now LtHash.empty
              state.tables.members } := by
        apply bind_eq_ok.mpr
        refine ⟨_, applyMemberCommit_eq_ok.mpr ⟨?_, rfl⟩, rfl⟩
        intro _
        rw [hmembers]
        exact ⟨fun _ => rfl, List.forall_mem_nil _⟩
      rw [hformat]
      dsimp only
      rw [happly]
      dsimp only
      rw [hrow]

/-! ### Listing -/

theorem likeMatches_escape (value : Text) (pattern : List LikeToken) (bytes : Bytes) :
  likeMatches (likeEscape value ++ pattern) (value.bytes ++ bytes) = likeMatches pattern bytes
  := by
  rw [likeEscape]
  induction value.bytes with
  | nil => rfl
  | cons byte rest ih =>
    rw [List.map_cons, List.cons_append, List.cons_append, likeMatches, ih, decide_eq_true rfl,
      Bool.true_and]

theorem likeMatches_any {pattern : List LikeToken} {bytes : Bytes} (skipped : Bytes)
    (h : likeMatches pattern bytes = true) :
  likeMatches (.any :: pattern) (skipped ++ bytes) = true
  := by
  rw [likeMatches, List.any_eq_true]
  use bytes
  exact ⟨(List.mem_tails _ _).mpr (List.suffix_append skipped bytes), h⟩

/-- A part of the pattern matches a value that the filter admits. -/
theorem likeMatches_part {filter : Option Text} {value : Text} (h : Admits filter value)
    {pattern : List LikeToken} {bytes : Bytes} (hrest : likeMatches pattern bytes = true) :
  likeMatches ((filter.map likeEscape).getD [.any] ++ pattern) (value.bytes ++ bytes) = true
  := by
  rcases h with rfl | rfl
  · exact likeMatches_any value.bytes hrest
  · rw [Option.map_some, Option.getD_some, likeMatches_escape]
    exact hrest

/-- A space matches the pattern of its own authority and type. -/
theorem spacePattern_matches {spaceType authorityDid : Option Text}
    (htype : Admits spaceType uri.spaceType.value) (hdid : Admits authorityDid uri.spaceDid) :
  likeMatches (spacePattern spaceType authorityDid) uri.text.bytes = true
  := by
  have hkey : likeMatches [.any] (uri.spaceKey.value.bytes ++ []) = true :=
    likeMatches_any _ rfl
  rw [List.append_nil] at hkey
  simp only [spacePattern, SpaceUri.text, Text.bytes_append, List.append_assoc]
  rw [likeMatches_escape]
  apply likeMatches_part hdid
  rw [likeMatches_escape, likeMatches_escape, likeMatches_escape]
  apply likeMatches_part htype
  rw [likeMatches_escape]
  exact hkey

/-- The listing gives all rows that it does not filter out. -/
theorem listedSpaces_eq (spaceType authorityDid : Option Text) {limit fuel : Nat}
    (hfuel : (tables.spaces uri).length < fuel) :
  (listedSpaces uri spaceType authorityDid limit fuel tables).map SpaceInfo.uri =
    ((tables.spaces uri).filter (isListed spaceType authorityDid)).map Prod.fst
  := by
  have hsorted : Sorted (tables.spaces uri) := by
    rw [SpaceTables.spaces]
    cases tables.row with
    | none => exact tables.others_sorted
    | some row => exact tables.others_sorted.insert _ _
  have hlimit : 0 < max 1 (min limit 100) := lt_of_lt_of_le Nat.one_pos (le_max_left _ _)
  let rows := (tables.spaces uri).filter (isListed spaceType authorityDid)
  let info : Text × SpaceRow → SpaceInfo :=
    fun row => ⟨row.1, row.2.isOwner, row.2.isMember, row.2.createdAt⟩
  have hrows : Ordered Prod.fst rows := List.Pairwise.filter _ hsorted
  have hordered : Ordered SpaceInfo.uri (rows.map info) := List.pairwise_map.mpr hrows
  have hlisted : listedSpaces uri spaceType authorityDid limit fuel tables = rows.map info := by
    apply hordered.followPages_eq
    · intro cursor
      exact (isPage_take hlimit).map fun _ _ => rfl
    · rw [afterOption, List.length_map]
      exact lt_of_le_of_lt (List.length_filter_le _ _) hfuel
  rw [hlisted, List.map_map]
  rfl

/-- The members of a space that is not deleted are all listed. -/
theorem listedMembers_eq (h : Regular tables) (hlive : ensureNotDeleted uri tables.row = .ok ())
    {limit fuel : Nat} (hfuel : tables.members.members.length < fuel) :
  listedMembers uri limit fuel tables = tables.members.dids
  := by
  have hlimit : 0 < max 1 (min limit 100) := lt_of_lt_of_le Nat.one_pos (le_max_left _ _)
  have hdids : tables.members.members.map (fun x => x.2.did) = tables.members.dids :=
    List.map_congr_left h.named
  have hordered : Ordered id (tables.members.members.map fun x => x.2.did) := by
    rw [hdids]
    exact List.pairwise_map.mpr h.sorted
  rw [← hdids]
  apply hordered.followPages_eq
  · intro cursor
    have hpage : memberPage uri limit tables cursor =
        ((tables.members.listMembers cursor limit).members.map MemberRow.did,
          (tables.members.listMembers cursor limit).cursor) := by
      rw [memberPage, listMembers, hlive]
      rfl
    have hprobe := @IsPage.map _ _ _ Prod.fst tables.members.members _ (fun x => x.2.did) id cursor
      _ (isPage_probe hlimit) h.named
    rw [hpage, MembersStore.listMembers]
    dsimp only
    split at hprobe
    · rename_i hmore
      rw [if_pos hmore, List.map_map]
      exact hprobe
    · rename_i hlast
      rw [if_neg hlast, List.map_map]
      exact hprobe
  · rw [afterOption, List.length_map]
    exact hfuel

/-- What the readers see of a live row. -/
theorem Regular.live (h : Regular tables) (hlive : RowLive tables) :
  Live uri tables
  := by
  obtain ⟨row, hrow, hdeleted⟩ := hlive
  obtain ⟨config, hconfig⟩ := h.config hrow
  have hnot : ensureNotDeleted uri tables.row = .ok () := by
    obtain ⟨isOwner, isMember, createdAt, mintPolicy, appAccess, managingApp, deletedAt⟩ := row
    cases hdeleted
    rw [hrow]
    rfl
  refine ⟨?_, ?_, ?_, ?_⟩
  · use ⟨uri.text, config⟩
    rw [getSpace, hrow]
    dsimp only
    rw [hdeleted, hconfig]
    rfl
  · intro did
    use ⟨true, false, config, tables.members.isMember did⟩
    rw [loadMintAuthzInputs, hrow]
    dsimp only
    rw [hdeleted, hconfig]
    exact ⟨rfl, rfl, rfl⟩
  · intro spaceType authorityDid htype hdid limit fuel hfuel
    rw [listedSpaces_eq spaceType authorityDid hfuel]
    apply List.mem_map.mpr
    refine ⟨(uri.text, row), ?_, rfl⟩
    rw [List.mem_filter, SpaceTables.spaces, hrow]
    constructor
    · exact List.mem_append_right _ List.mem_cons_self
    · rw [isListed, spacePattern_matches htype hdid, hdeleted, Bool.or_true]
      rfl
  · intro limit fuel hfuel did
    rw [listedMembers_eq h hnot hfuel, MembersStore.dids, ← lookup_isSome_iff, membership]
    split
    · rename_i howner
      exact iff_of_true rfl (Or.inl howner.symm)
    · rename_i hother
      by_cases hmember : tables.members.isMember did = true
      · rw [if_pos hmember]
        exact iff_of_true rfl (Or.inr hmember)
      · rw [if_neg hmember]
        apply iff_of_false
        · nofun
        · rintro (rfl | hmem)
          · exact hother rfl
          · exact hmember hmem

/-- All agree just when the row is live. -/
theorem Regular.agree_iff (h : Regular tables) :
  Agree blake3 uri tables ↔ RowLive tables
  := by
  constructor
  · rintro (hlive | hnot)
    · obtain ⟨output, hget⟩ := hlive.get
      rw [getSpace] at hget
      cases hrow : tables.row with
      | none =>
        rw [hrow] at hget
        cases hget
      | some row =>
        rw [hrow] at hget
        dsimp only at hget
        cases hdeleted : row.deletedAt with
        | some time =>
          rw [hdeleted] at hget
          cases hget
        | none => exact ⟨row, hrow, hdeleted⟩
    · have howner := hnot.membership uri.spaceDid
      rw [membership, if_pos rfl] at howner
      cases howner
  · intro hlive
    exact Or.inl (h.live hlive)

theorem rowLive_iff_of_eq {row : SpaceRow} (h : tables.row = some row) :
  RowLive tables ↔ row.deletedAt = none
  := by
  constructor
  · rintro ⟨row', hrow, hdeleted⟩
    rw [h] at hrow
    cases hrow
    exact hdeleted
  · intro hdeleted
    exact ⟨row, h, hdeleted⟩

theorem not_rowLive_of_none (h : tables.row = none) :
  ¬ RowLive tables
  := by
  rintro ⟨row, hrow, -⟩
  rw [h] at hrow
  cases hrow

/-- The row of a space that has one is live after a change of the members just when it was before. -/
theorem applyMemberOp_rowLive {row : SpaceRow} (hrow : state.tables.row = some row)
    (action : MemberOpAction) (did : Text) (moment : Moment) :
  RowLive (applyMemberOp blake3 uri.spaceDid uri action did moment state).1.tables ↔
    RowLive state.tables
  := by
  rw [rowLive_iff_of_eq hrow]
  apply rowLive_iff_of_eq
  rcases @applyMemberOp_cases blake3 uri state action did moment with heq | ⟨rev, hash, heq⟩
  · rw [heq, hrow]
  · rw [heq, hrow, ensureSpaceRow_some]

theorem applyMemberOp_regular (h : Regular state.tables) (action : MemberOpAction) (did : Text)
    (moment : Moment) :
  Regular (applyMemberOp blake3 uri.spaceDid uri action did moment state).1.tables
  := by
  rcases @applyMemberOp_cases blake3 uri state action did moment with heq | ⟨rev, hash, heq⟩
  · rw [heq]
    exact h
  · rw [heq]
    exact h.stored

/-- A call keeps the tables regular, and the space is live after it just when the call is
careful. -/
theorem serveCall_spec (h : Regular state.tables) (call : SpaceCall) :
  Regular (serveCall blake3 uri state call).tables ∧
    (RowLive (serveCall blake3 uri state call).tables ↔ CarefulCall state call)
  := by
  cases call with
  | create config moment =>
    obtain ⟨hregular, hrow⟩ := @createAt_spec blake3 uri state h config moment
    refine ⟨hregular, ?_⟩
    rw [serveCall, rowLive_iff_of_eq hrow, CarefulCall]
    cases hold : state.tables.row with
    | none => exact iff_of_true rfl (Or.inl rfl)
    | some row =>
      rw [rowLive_iff_of_eq hold, or_iff_right (Option.some_ne_none row)]
      rfl
  | update patch =>
    obtain ⟨hregular, hnone, hsome⟩ := @updateSpace_spec uri state h patch
    refine ⟨hregular, ?_⟩
    rw [serveCall, CarefulCall]
    cases hold : state.tables.row with
    | none => exact iff_of_false (not_rowLive_of_none (hnone hold)) (not_rowLive_of_none hold)
    | some row =>
      obtain ⟨row', hrow, hdeleted⟩ := hsome row hold
      rw [rowLive_iff_of_eq hrow, rowLive_iff_of_eq hold, hdeleted]
  | delete now =>
    obtain ⟨hregular, hnone, hsome⟩ := @deleteSpace_spec uri state h now
    refine ⟨hregular, ?_⟩
    rw [serveCall, CarefulCall]
    cases hold : state.tables.row with
    | none => exact iff_of_false (not_rowLive_of_none (hnone hold)) not_false
    | some row =>
      obtain ⟨row', time, hrow, hdeleted⟩ := hsome row hold
      rw [rowLive_iff_of_eq hrow, hdeleted]
      exact iff_of_false (Option.some_ne_none time) not_false
  | add did moment =>
    refine ⟨applyMemberOp_regular h .add did moment, ?_⟩
    rw [serveCall, addMember, CarefulCall]
    cases hold : state.tables.row with
    | none =>
      have hrow := @applyMemberOp_fresh blake3 uri state h hold .add did moment
      rw [or_iff_right (not_rowLive_of_none hold), and_iff_right rfl]
      by_cases htid : Tid.newWithTime state.last moment.timestampMicros moment.random = none
      · rw [if_neg fun hand => hand.2 htid] at hrow
        exact iff_of_false (not_rowLive_of_none hrow) (not_not.mpr htid)
      · rw [if_pos ⟨rfl, htid⟩] at hrow
        rw [rowLive_iff_of_eq hrow]
        exact iff_of_true rfl htid
    | some row =>
      rw [applyMemberOp_rowLive hold, or_iff_left]
      rintro ⟨hnone, -⟩
      exact Option.some_ne_none row hnone
  | remove did moment =>
    refine ⟨applyMemberOp_regular h .remove did moment, ?_⟩
    rw [serveCall, removeMember, CarefulCall]
    cases hold : state.tables.row with
    | none =>
      have hrow := @applyMemberOp_fresh blake3 uri state h hold .remove did moment
      rw [if_neg fun hand => MemberOpAction.noConfusion hand.1] at hrow
      exact iff_of_false (not_rowLive_of_none hrow) (not_rowLive_of_none hold)
    | some row => exact applyMemberOp_rowLive hold .remove did moment

/-- Along any run of calls all agree after every call, and a space that was created is live, just
when the first call makes the space and none deletes it. -/
theorem lifecycle_iff (blake3 : Bytes → Fin stateLength → UInt8) (uri : SpaceUri)
    (last : Tid.LastTid) (tables : SpaceTables) (calls : List SpaceCall) :
  Along (serveCall blake3 uri) (ConsistentCall blake3 uri) ⟨last, freshTables tables⟩ calls ↔
    Along (serveCall blake3 uri) CarefulCall ⟨last, freshTables tables⟩ calls
  := by
  apply @along_congr _ _ _ _ _ fun state => Regular state.tables
  · intro state call h
    obtain ⟨hregular, hlive⟩ := @serveCall_spec blake3 uri state h call
    rw [ConsistentCall, hregular.agree_iff, ← hlive, and_iff_left_iff_imp]
    intro hrow _
    exact hregular.live hrow
  · intro state call h _
    exact (@serveCall_spec blake3 uri state h call).1
  · exact regular_fresh tables

/-! ### A space that is created again after it was deleted -/

/-- The store before the first call. -/
def emptyStore : SpaceState :=
  ⟨none, freshTables ⟨none, [], Sorted.nil, MembersStore.empty, SpaceStore.empty, []⟩⟩

/-- Create the space at a time. -/
def sampleCreate (timestampMicros : Nat) : SpaceCall :=
  .create SpaceConfig.default ⟨timestampMicros, 0, textOf "now"⟩

/-- The space is created and deleted. -/
def sampleDeleted : SpaceState :=
  run (serveCall (fun _ _ => 1) sampleSpace) emptyStore [sampleCreate 1, .delete (textOf "now")]

/-- Creating it again succeeds, and it stays deleted, with its owner as a member. -/
theorem created_again_not_live :
  (sampleCreate 2).Creates (fun _ _ => 1) sampleSpace sampleDeleted ∧
    ¬ ConsistentCall (fun _ _ => 1) sampleSpace sampleDeleted (sampleCreate 2) ∧
    membership sampleSpace (textOf "o") (some sampleDeleted.tables) = .member
  := by
  have hcreates : (sampleCreate 2).Creates (fun _ _ => 1) sampleSpace sampleDeleted := by
    apply exists_eq_ok
    decide +kernel
  refine ⟨hcreates, ?_, if_pos rfl⟩
  rintro ⟨-, hlive⟩
  obtain ⟨output, hget⟩ := (hlive hcreates).get
  have hnone : (getSpace sampleSpace
      (serveCall (fun _ _ => 1) sampleSpace sampleDeleted (sampleCreate 2)).tables).toOption.isSome =
      false := by
    decide +kernel
  rw [hget] at hnone
  cases hnone

end Atproto.Pds
