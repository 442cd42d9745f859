import Atproto.Pds.PublicRealm
import Atproto.Space.Members
import Atproto.Space.Types

/-!
# The service of spaces

The owner of a space creates, changes and deletes it and manages its members, all in the SQL tables
of the owner's store.  A deleted space keeps its row with the time of the deletion.
-/

namespace Atproto.Pds

open Atproto.Dasl Atproto.Lexicon Atproto.Record Atproto.Repo Atproto.Space Logic SearchTree

/-! ### The configuration -/

/-- How the authority decides on a user. -/
inductive MintPolicy where
  | publicAccess
  | memberList
  | managingApp
deriving DecidableEq

/-- The text of a policy. -/
def MintPolicy.asStr : MintPolicy → Text
  | .publicAccess => textOf "public"
  | .memberList => textOf "member-list"
  | .managingApp => textOf "managing-app"

/-- The policy with a text. -/
def MintPolicy.fromStrValue (value : Text) : Except PdsError MintPolicy :=
  if value.bytes = MintPolicy.publicAccess.asStr.bytes then .ok .publicAccess
  else if value.bytes = MintPolicy.memberList.asStr.bytes then .ok .memberList
  else if value.bytes = MintPolicy.managingApp.asStr.bytes then .ok .managingApp
  else .error (.unsupportedPolicy value)

/-- How the authority decides on an app. -/
inductive AppAccess where
  | openAccess
  | allowList (allowed : List Text)

/-- The configuration of a space. -/
structure SpaceConfig where
  mintPolicy : MintPolicy
  appAccess : AppAccess
  managingApp : Option Text

/-- The configuration of a space that has none. -/
def SpaceConfig.default : SpaceConfig := ⟨.memberList, .openAccess, none⟩

/-- The configuration of three columns.  The JSON of the second column stands here as its value. -/
def SpaceConfig.fromColumns (mintPolicy : Text) (appAccess : AppAccess)
    (managingApp : Option Text) : Except PdsError SpaceConfig := do
  let mintPolicy ← MintPolicy.fromStrValue mintPolicy
  .ok ⟨mintPolicy, appAccess, managingApp⟩

/-- A change of the configuration.  An empty managing app clears it. -/
structure SpaceConfigPatch where
  mintPolicy : Option MintPolicy
  appAccess : Option AppAccess
  managingApp : Option Text

/-! ### The tables -/

/-- A row of the table of spaces. -/
structure SpaceRow where
  isOwner : Bool
  isMember : Bool
  createdAt : Text
  mintPolicy : Text
  appAccess : AppAccess
  managingApp : Option Text
  deletedAt : Option Text

/-- The tables of the owner's store for one space: its row, the rows of the other spaces by URI, the
members, and the owner's records in the space with the blobs that they refer to. -/
structure SpaceTables where
  row : Option SpaceRow
  others : List (Text × SpaceRow)
  others_sorted : Sorted others
  members : MembersStore
  repo : SpaceStore
  blobRefs : List (Text × Text)

/-- A space with its viewer's relation to it. -/
structure SpaceInfo where
  uri : Text
  isOwner : Bool
  isMember : Bool
  createdAt : Text

/-- What a service call leaves: the identifier issued last and the tables. -/
structure SpaceState where
  last : Tid.LastTid
  tables : SpaceTables

/-- The instant of a call: the clock for identifiers, random bits, and the times that it writes. -/
structure Moment where
  timestampMicros : Nat
  random : Nat
  now : Text

/-- The row that a write of the members leaves, with default columns when there is none. -/
def ensureSpaceRow (now : Text) (row : Option SpaceRow) : SpaceRow :=
  row.getD {
    isOwner := true
    isMember := false
    createdAt := now
    mintPolicy := textOf "member-list"
    appAccess := .openAccess
    managingApp := none
    deletedAt := none }

/-- Store a prepared member commit in one transaction. -/
def SpaceTables.applyMembers (tables : SpaceTables) (now : Text) (commit : PreparedCommitMembers) :
    Except SpaceError SpaceTables := do
  let members ← applyMemberCommit .sql commit tables.members
  .ok { tables with row := some (ensureSpaceRow now tables.row), members := members }

/-- Fail when the space is deleted.  A space without a row is let through. -/
def ensureNotDeleted (uri : SpaceUri) (row : Option SpaceRow) : Except PdsError Unit :=
  match row with
  | some { deletedAt := some _, .. } => .error (.spaceNotFound uri.text)
  | _ => .ok ()

variable (blake3 : Bytes → Fin stateLength → UInt8)

/-! ### Calls that write -/

/-- The row after a space is created: a new one, or the old one with its flags set. -/
def createdRow (config : SpaceConfig) (now : Text) : Option SpaceRow → SpaceRow
  | none => {
      isOwner := true
      isMember := true
      createdAt := now
      mintPolicy := config.mintPolicy.asStr
      appAccess := config.appAccess
      managingApp := config.managingApp
      deletedAt := none }
  | some row => { row with isOwner := true, isMember := true }

/-- The tables before the owner is added: the row is there, and so is the row of the state. -/
def SpaceTables.seed (tables : SpaceTables) (config : SpaceConfig) (now : Text) : SpaceTables :=
  { tables with
    row := some (createdRow config now tables.row)
    members :=
      { tables.members with
        stateRow := some (tables.members.stateRow.getD MemberState.empty) } }

/-- What a created space answers, with the time at which it was created first. -/
def createdInfo (uri : SpaceUri) (tables : SpaceTables) : Except PdsError SpaceInfo :=
  match tables.row with
  | none => .error (.storage "createSpace re-read created_at")
  | some row => .ok ⟨uri.text, true, true, row.createdAt⟩

/-- Create the space and add the owner to its members. -/
def createSpace (ownerDid spaceType spaceKey : Text) (config : SpaceConfig) (moment : Moment)
    (state : SpaceState) : SpaceState × Except PdsError SpaceInfo :=
  if htype : isValidNsid spaceType = true then
    if hkey : isValidRecordKey spaceKey = true then
      let uri : SpaceUri := ⟨ownerDid, ⟨spaceType, htype⟩, ⟨spaceKey, hkey⟩⟩
      let tables := state.tables.seed config moment.now
      match formatMemberCommit blake3 tables.members state.last moment.timestampMicros
          moment.random moment.now [⟨.add, ownerDid⟩] with
      | (last, .ok prepared) =>
        match tables.applyMembers moment.now prepared.storageCommit with
        | .ok tables => (⟨last, tables⟩, createdInfo uri tables)
        | .error error =>
          if tables.members.isMember ownerDid then (⟨last, tables⟩, createdInfo uri tables)
          else (⟨last, tables⟩, .error (.space error))
      | (last, .error (.memberAlreadyExists _)) => (⟨last, tables⟩, createdInfo uri tables)
      | (last, .error error) => (⟨last, tables⟩, .error (.space error))
    else (state, .error (.space (.invalidSpaceKey spaceKey)))
  else (state, .error (.space (.invalidSpaceType spaceType)))

/-- The row with a changed configuration. -/
def SpaceConfigPatch.apply (patch : SpaceConfigPatch) (row : SpaceRow) : SpaceRow :=
  { row with
    mintPolicy := (patch.mintPolicy.map MintPolicy.asStr).getD row.mintPolicy
    appAccess := patch.appAccess.getD row.appAccess
    managingApp := match patch.managingApp with
      | some app => if app.bytes = [] then none else some app
      | none => row.managingApp }

/-- Change the configuration of the space. -/
def updateSpace (ownerDid : Text) (uri : SpaceUri) (patch : SpaceConfigPatch)
    (state : SpaceState) : SpaceState × Except PdsError Unit :=
  if uri.spaceDid ≠ ownerDid then (state, .error (.notSpaceOwner uri.text))
  else
    match state.tables.row with
    | some row =>
      match row.deletedAt with
      | some _ => (state, .error (.spaceNotFound uri.text))
      | none =>
        (⟨state.last, { state.tables with row := some (patch.apply row) }⟩, .ok ())
    | none => (state, .error (.spaceNotFound uri.text))

/-- Mark the space as deleted, and erase what the owner wrote in it. -/
def deleteSpace (ownerDid : Text) (uri : SpaceUri) (now : Text) (state : SpaceState) :
    SpaceState × Except PdsError Unit :=
  if uri.spaceDid ≠ ownerDid then (state, .error (.notSpaceOwner uri.text))
  else
    match state.tables.row with
    | none => (state, .error (.spaceNotFound uri.text))
    | some row =>
      let row := { row with deletedAt := some (row.deletedAt.getD now) }
      (⟨state.last, { state.tables with
        row := some row
        repo := SpaceStore.empty
        blobRefs := [] }⟩, .ok ())

/-- Add or remove a member. -/
def applyMemberOp (ownerDid : Text) (uri : SpaceUri) (action : MemberOpAction) (targetDid : Text)
    (moment : Moment) (state : SpaceState) : SpaceState × Except PdsError Unit :=
  if uri.spaceDid ≠ ownerDid then (state, .error (.notSpaceOwner uri.text))
  else
    match ensureNotDeleted uri state.tables.row with
    | .error error => (state, .error error)
    | .ok () =>
      match formatMemberCommit blake3 state.tables.members state.last moment.timestampMicros
          moment.random moment.now [⟨action, targetDid⟩] with
      | (last, .error error) => (⟨last, state.tables⟩, .error (.space error))
      | (last, .ok prepared) =>
        match state.tables.applyMembers moment.now prepared.storageCommit with
        | .error error => (⟨last, state.tables⟩, .error (.space error))
        | .ok tables => (⟨last, tables⟩, .ok ())

/-- Add a member. -/
def addMember (ownerDid : Text) (uri : SpaceUri) (newMemberDid : Text) (moment : Moment)
    (state : SpaceState) : SpaceState × Except PdsError Unit :=
  applyMemberOp blake3 ownerDid uri .add newMemberDid moment state

/-- Remove a member. -/
def removeMember (ownerDid : Text) (uri : SpaceUri) (memberDid : Text) (moment : Moment)
    (state : SpaceState) : SpaceState × Except PdsError Unit :=
  applyMemberOp blake3 ownerDid uri .remove memberDid moment state

/-! ### Calls that read -/

/-- What is told of a space: its URI and its configuration. -/
structure GetSpaceOutput where
  uri : Text
  config : SpaceConfig

/-- The configuration of a space that is not deleted. -/
def getSpace (uri : SpaceUri) (tables : SpaceTables) : Except PdsError GetSpaceOutput :=
  match tables.row with
  | none => .error (.spaceNotFound uri.text)
  | some row =>
    match row.deletedAt with
    | some _ => .error (.spaceNotFound uri.text)
    | none => do
      let config ← SpaceConfig.fromColumns row.mintPolicy row.appAccess row.managingApp
      .ok ⟨uri.text, config⟩

/-- What decides on a credential for a member. -/
structure MintAuthzInputs where
  found : Bool
  deleted : Bool
  config : SpaceConfig
  isMember : Bool

/-- Read what decides on a credential. -/
def loadMintAuthzInputs (memberDid : Text) (tables : SpaceTables) :
    Except PdsError MintAuthzInputs :=
  match tables.row with
  | none => .ok ⟨false, false, SpaceConfig.default, false⟩
  | some row =>
    match row.deletedAt with
    | some _ => .ok ⟨true, true, SpaceConfig.default, false⟩
    | none => do
      let config ← SpaceConfig.fromColumns row.mintPolicy row.appAccess row.managingApp
      .ok ⟨true, false, config, tables.members.isMember memberDid⟩

/-- What the server can say about a membership. -/
inductive Membership where
  | member
  | notMember
  | authorityElsewhere
deriving DecidableEq

/-- Whether an account is a member.  There are no tables when the authority is elsewhere. -/
def membership (uri : SpaceUri) (did : Text) (tables : Option SpaceTables) : Membership :=
  if uri.spaceDid = did then .member
  else
    match tables with
    | none => .authorityElsewhere
    | some tables => if tables.members.isMember did then .member else .notMember

/-- A page of the members. -/
def listMembers (uri : SpaceUri) (cursor : Option Text) (limit : Nat)
    (tables : Option SpaceTables) : Except PdsError MemberPage :=
  match tables with
  | none => .error (.spaceNotFound uri.text)
  | some tables => do
    ensureNotDeleted uri tables.row
    .ok (tables.members.listMembers cursor limit)

/-! ### Listing the spaces -/

/-- A part of a pattern: any bytes, or one byte, whose case does not matter when it is a letter. -/
inductive LikeToken where
  | any
  | byte (byte : UInt8)

/-- The lower case of an ASCII letter. -/
def asciiLower (byte : UInt8) : UInt8 := if 0x41 ≤ byte && byte ≤ 0x5a then byte + 0x20 else byte

/-- Whether some bytes match a pattern. -/
def likeMatches : List LikeToken → Bytes → Bool
  | [], bytes => bytes = []
  | .any :: pattern, bytes => bytes.tails.any (likeMatches pattern)
  | .byte _ :: _, [] => false
  | .byte byte :: pattern, other :: bytes =>
    asciiLower byte = asciiLower other && likeMatches pattern bytes

/-- The pattern that matches a text. -/
def likeEscape (value : Text) : List LikeToken := value.bytes.map .byte

/-- The pattern of the URIs with an authority and a type, where they are given. -/
def spacePattern (spaceType authorityDid : Option Text) : List LikeToken :=
  let part := fun value : Option Text => (value.map likeEscape).getD [.any]
  likeEscape atScheme ++ part authorityDid ++ likeEscape slashText ++ likeEscape spaceMarker ++
    likeEscape slashText ++ part spaceType ++ likeEscape slashText ++ [.any]

/-- The row is listed. -/
def isListed (spaceType authorityDid : Option Text) (row : Text × SpaceRow) : Bool :=
  row.2.deletedAt.isNone &&
    ((spaceType.isNone && authorityDid.isNone) ||
      likeMatches (spacePattern spaceType authorityDid) row.1.bytes)

/-- All rows of the table of spaces. -/
def SpaceTables.spaces (tables : SpaceTables) (uri : SpaceUri) : List (Text × SpaceRow) :=
  match tables.row with
  | none => tables.others
  | some row => insert uri.text row tables.others

/-- A page of spaces, with a cursor when the page is full. -/
def listSpaces (uri : SpaceUri) (spaceType authorityDid : Option Text) (cursor : Option Text)
    (limit : Nat) (tables : SpaceTables) : List SpaceInfo × Option Text :=
  let limit := max 1 (min limit 100)
  let rows := (afterOption Prod.fst cursor
    ((tables.spaces uri).filter (isListed spaceType authorityDid))).take limit
  let cursor := if rows.length = limit then rows.getLast?.map Prod.fst else none
  (rows.map fun row => ⟨row.1, row.2.isOwner, row.2.isMember, row.2.createdAt⟩, cursor)

/-- A space whose owner is `o`. -/
def sampleSpace : SpaceUri where
  spaceDid := textOf "o"
  spaceType := ⟨textOf "a.b.c", by decide⟩
  spaceKey := ⟨textOf "k", by decide⟩

end Atproto.Pds
