import Atproto.Scopes.Query

/-!
# Scopes for spaces

A `space:` scope names the spaces it is for by their type, authority and key, the collections and
actions on records, and what may be done to the spaces themselves.
-/

namespace Atproto.Scopes

open Wire

/-- What may be done to records, in the order in which it is written. -/
inductive SpaceAction where
  | readSelf
  | read
  | create
  | update
  | delete
deriving DecidableEq

namespace SpaceAction

/-- The place of an action in the order. -/
def rank : SpaceAction → Nat
  | .readSelf => 0
  | .read => 1
  | .create => 2
  | .update => 3
  | .delete => 4

theorem rank_injective :
  Function.Injective rank
  := by
  intro a b h
  cases a <;> cases b <;> first | rfl | cases h

instance : LinearOrder SpaceAction := LinearOrder.lift' rank rank_injective

/-- The actions of a scope that names none. -/
def defaults : Finset SpaceAction := {.read, .create, .update, .delete}

/-- Write an action. -/
def asStr : SpaceAction → Chars
  | .readSelf => "read_self".toList
  | .read => "read".toList
  | .create => "create".toList
  | .update => "update".toList
  | .delete => "delete".toList

/-- Read an action. -/
def fromWire (value : Chars) : Option SpaceAction :=
  [.readSelf, .read, .create, .update, .delete].find? fun action => decide (action.asStr = value)

end SpaceAction

/-- What may be done to spaces. -/
inductive SpaceManageVerb where
  | create
  | update
  | delete
deriving DecidableEq

namespace SpaceManageVerb

/-- The place of a verb in the order. -/
def rank : SpaceManageVerb → Nat
  | .create => 0
  | .update => 1
  | .delete => 2

theorem rank_injective :
  Function.Injective rank
  := by
  intro a b h
  cases a <;> cases b <;> first | rfl | cases h

instance : LinearOrder SpaceManageVerb := LinearOrder.lift' rank rank_injective

/-- Write a verb. -/
def asStr : SpaceManageVerb → Chars
  | .create => "create".toList
  | .update => "update".toList
  | .delete => "delete".toList

/-- Read a verb. -/
def fromWire (value : Chars) : Option SpaceManageVerb :=
  [.create, .update, .delete].find? fun verb => decide (verb.asStr = value)

end SpaceManageVerb

/-- The type of a space, or every type. -/
abbrev SpaceType : Type := Pattern

/-- The key of a space, or every key. -/
abbrev SpaceSkey : Type := Pattern

/-- A collection, or every collection. -/
abbrev SpaceCollection : Type := Pattern

/-- The authority of a space: that of the user who grants, every authority, or one. -/
inductive SpaceDid where
  | selfDid
  | all
  | did (did : Chars)
deriving DecidableEq

/-- The collections of a scope: those that the type of the space declares, or those given. -/
inductive SpaceCollections where
  | default
  | explicit (collections : Finset SpaceCollection)
deriving DecidableEq

/-- A scope for spaces. -/
structure SpacePermission where
  spaceType : SpaceType
  did : SpaceDid
  skey : SpaceSkey
  collection : SpaceCollections
  action : Finset SpaceAction
  manage : Finset SpaceManageVerb
deriving DecidableEq

namespace SpacePermission

/-- The largest number of characters of a key. -/
def skeyMaxLength : Nat := 512

/-- The parameters of a scope for spaces. -/
def keys : List Chars :=
  ["authority".toList, "did".toList, "skey".toList, "collection".toList, "action".toList,
    "manage".toList]

/-! ### Reading -/

/-- Read the items of a query, all of which have a sign of equality. -/
def parseParams : List Chars → Except ParseError (List (Chars × Chars))
  | [] => .ok []
  | pair :: pairs =>
    match splitFirst '=' pair with
    | some item => do
      let items ← parseParams pairs
      .ok (item :: items)
    | none =>
      .error (.invalidResource ("space scope has malformed query parameter: ".toList ++ pair))

/-- Refuse parameters that a scope for spaces does not have. -/
def checkKeys : List (Chars × Chars) → Except ParseError Unit
  | [] => .ok ()
  | (key, _) :: params =>
    if keys.contains key then checkKeys params
    else if key = "type".toList then
      .error (.invalidResource
        "space scope 'type' must be positional, not a query parameter".toList)
    else .error (.invalidResource ("space scope has unknown query parameter: ".toList ++ key))

/-- The value of a parameter that may be given once. -/
def singleParam (key : Chars) (params : List (Chars × Chars)) :
    Except ParseError (Option Chars) :=
  match queryValues key params with
  | [] => .ok none
  | [value] => .ok (some value)
  | _ :: _ :: _ =>
    .error (.invalidResource ("space scope '".toList ++ key ++ "' may only appear once".toList))

def parseDid (value : Chars) : SpaceDid :=
  if value = ['*'] then .all else if value = "self".toList then .selfDid else .did value

def parseSkey (value : Chars) : Except ParseError SpaceSkey :=
  if value = ['*'] then .ok .all
  else if value.isEmpty || skeyMaxLength < value.length then
    .error (.invalidResource
      "space scope 'skey' must be non-empty and at most 512 characters".toList)
  else .ok (.only value)

/-- The authority, under its name or under the one it had before. -/
def parseAuthority (params : List (Chars × Chars)) : Except ParseError SpaceDid := do
  match ← singleParam "authority".toList params with
  | some authority =>
    match ← singleParam "did".toList params with
    | some _ =>
      .error (.invalidResource
        "space scope names both 'authority' and its deprecated alias 'did'".toList)
    | none => .ok (parseDid authority)
  | none =>
    match ← singleParam "did".toList params with
    | some did => .ok (parseDid did)
    | none => .ok .selfDid

/-- The key of the space, which is every key when none is given. -/
def parseSpaceKey (params : List (Chars × Chars)) : Except ParseError SpaceSkey := do
  match ← singleParam "skey".toList params with
  | some value => parseSkey value
  | none => .ok .all

/-- A star among the collections stands for all of them. -/
def normalizeCollection (collections : Finset SpaceCollection) : Finset SpaceCollection :=
  if 1 < collections.card ∧ .all ∈ collections then {.all} else collections

/-- The collections that are given. -/
def parseCollections (params : List (Chars × Chars)) : SpaceCollections :=
  match queryValues "collection".toList params with
  | [] => .default
  | value :: values =>
    .explicit (normalizeCollection ((value :: values).map Pattern.parse).toFinset)

/-- Read values one after another. -/
def parseWire {α : Type} [DecidableEq α] (fromWire : Chars → Option α) :
    List Chars → Except ParseError (Finset α)
  | [] => .ok ∅
  | value :: values =>
    match fromWire value with
    | some a => do
      let rest ← parseWire fromWire values
      .ok (insert a rest)
    | none => .error (.invalidAction value)

/-- The actions that are given, or those that are meant when none is. -/
def orDefaults (actions : Finset SpaceAction) : Finset SpaceAction :=
  if actions = ∅ then SpaceAction.defaults else actions

/-- The positional value and the query of what follows `space`. -/
def splitSuffix : Option Chars → Option Chars × Option Chars
  | none => (none, none)
  | some suffix =>
    if suffix.head? = some '?' then (none, some (suffix.drop 1))
    else ((some (splitQuery suffix).1), (splitQuery suffix).2)

/-- The items of a query, of which an empty one has none. -/
def paramsOf : Option Chars → Except ParseError (List (Chars × Chars))
  | none => .ok []
  | some query => if query.isEmpty then .ok [] else parseParams (query.splitOn '&')

/-- The type of the space, which has to be given. -/
def parseType : Option Chars → Except ParseError SpaceType
  | none => .error .missingResource
  | some value => if value.isEmpty then .error .missingResource else .ok (Pattern.parse value)

/-- Read what follows `space`. -/
def parseSuffix (suffix : Option Chars) : Except ParseError SpacePermission := do
  let params ← paramsOf (splitSuffix suffix).2
  checkKeys params
  let spaceType ← parseType (splitSuffix suffix).1
  let did ← parseAuthority params
  let skey ← parseSpaceKey params
  let action ← parseWire SpaceAction.fromWire (queryValues "action".toList params)
  let manage ← parseWire SpaceManageVerb.fromWire (queryValues "manage".toList params)
  .ok { spaceType := spaceType, did := did, skey := skey, collection := parseCollections params,
        action := orDefaults action, manage := manage }

end SpacePermission

end Atproto.Scopes
