import Atproto.Scopes.Space

/-!
# Scopes

A scope is one of twelve kinds, which its start names.  What follows the start is read by the
kind: resources and actions of an account, patterns of media types, collections and actions of a
repository, methods and audiences of calls, spaces, or a permission set.
-/

namespace Atproto.Scopes

open Wire

inductive AccountResource where
  | email
  | repo
  | status
deriving DecidableEq

inductive AccountAction where
  | read
  | manage
deriving DecidableEq

structure AccountScope where
  resource : AccountResource
  action : AccountAction
deriving DecidableEq

inductive IdentityScope where
  | handle
  | all
deriving DecidableEq

inductive TransitionScope where
  | generic
  | email
  | chatBsky
deriving DecidableEq

/-- A permission set, and the audience that its calls inherit. -/
structure IncludeScope where
  nsid : Chars
  aud : Option Chars
deriving DecidableEq

/-- Every media type, every subtype of a type, or one media type. -/
inductive MimePattern where
  | all
  | typeWildcard (type : Chars)
  | exact (mime : Chars)
deriving DecidableEq

namespace MimePattern

/-- The place of a pattern in the order. -/
def rank : MimePattern → ℕ ×ₗ Chars
  | .all => toLex (0, [])
  | .typeWildcard type => toLex (1, type)
  | .exact mime => toLex (2, mime)

theorem rank_injective :
  Function.Injective rank
  := by
  intro a b h
  have hparts := Prod.mk.inj (toLex.injective h)
  cases a with
  | all =>
    cases b with
    | all => rfl
    | typeWildcard type => cases hparts.1
    | exact mime => cases hparts.1
  | typeWildcard type =>
    cases b with
    | all => cases hparts.1
    | typeWildcard other => exact congrArg typeWildcard hparts.2
    | exact mime => cases hparts.1
  | exact mime =>
    cases b with
    | all => cases hparts.1
    | typeWildcard type => cases hparts.1
    | exact other => exact congrArg MimePattern.exact hparts.2

instance : LinearOrder MimePattern := LinearOrder.lift' rank rank_injective

/-- The text before a slash and a star at the end. -/
def stripWildcard (value : Chars) : Option Chars :=
  (stripFront ['*', '/'] value.reverse).map List.reverse

/-- Read a pattern. -/
def fromStr (value : Chars) : Except ParseError MimePattern :=
  if value = "*/*".toList then .ok .all
  else match stripWildcard value with
    | some type => .ok (.typeWildcard type)
    | none => if value.contains '/' then .ok (.exact value) else .error (.invalidMimeType value)

end MimePattern

structure BlobScope where
  accept : Finset MimePattern
deriving DecidableEq

/-- A collection, or every collection. -/
abbrev RepoCollection : Type := Pattern

/-- What may be done to records, in the order in which it is written. -/
inductive RepoAction where
  | create
  | update
  | delete
deriving DecidableEq

namespace RepoAction

/-- The place of an action in the order. -/
def rank : RepoAction → Nat
  | .create => 0
  | .update => 1
  | .delete => 2

theorem rank_injective :
  Function.Injective rank
  := by
  intro a b h
  cases a <;> cases b <;> first | rfl | cases h

instance : LinearOrder RepoAction := LinearOrder.lift' rank rank_injective

/-- All actions. -/
def every : Finset RepoAction := {.create, .update, .delete}

/-- Write an action. -/
def asStr : RepoAction → Chars
  | .create => "create".toList
  | .update => "update".toList
  | .delete => "delete".toList

/-- The actions that a value stands for. -/
def fromWire (value : Chars) : Option (Finset RepoAction) :=
  if value = ['*'] then some every
  else ([.create, .update, .delete].find? fun action => decide (action.asStr = value)).map
    fun action => {action}

end RepoAction

structure RepoScope where
  collections : Finset RepoCollection
  actions : Finset RepoAction
deriving DecidableEq

/-- A method, or every method. -/
abbrev RpcLexicon : Type := Pattern

/-- An audience, or every audience. -/
abbrev RpcAudience : Type := Pattern

structure RpcScope where
  lxm : Finset RpcLexicon
  aud : Finset RpcAudience
deriving DecidableEq

/-- A scope. -/
inductive Scope where
  | account (scope : AccountScope)
  | identity (scope : IdentityScope)
  | blob (scope : BlobScope)
  | repo (scope : RepoScope)
  | rpc (scope : RpcScope)
  | space (scope : SpacePermission)
  | atproto
  | transition (scope : TransitionScope)
  | includeSet (scope : IncludeScope)
  | openId
  | profile
  | email
deriving DecidableEq

/-- The permission set of a scope that names one. -/
def Scope.asInclude : Scope → Option IncludeScope
  | .includeSet scope => some scope
  | .account _ => none
  | .identity _ => none
  | .blob _ => none
  | .repo _ => none
  | .rpc _ => none
  | .space _ => none
  | .atproto => none
  | .transition _ => none
  | .openId => none
  | .profile => none
  | .email => none

/-! ### Percent signs -/

/-- The value of a hexadecimal digit. -/
def hexDigit (c : Char) : Option Nat :=
  let code := c.toNat
  if 0x30 ≤ code ∧ code ≤ 0x39 then some (code - 0x30)
  else if 0x41 ≤ code ∧ code ≤ 0x46 then some (code - 0x41 + 10)
  else if 0x61 ≤ code ∧ code ≤ 0x66 then some (code - 0x61 + 10)
  else none

/-- The byte of two hexadecimal digits, the first of which may be a plus sign. -/
def hexByte (a b : Char) : Option Nat :=
  if a = '+' then hexDigit b
  else (hexDigit a).bind fun high => (hexDigit b).map fun low => high * 16 + low

/-- Decode percent signs.  Each byte becomes the character of its number. -/
def urlDecode : Chars → Chars
  | [] => []
  | [a] => [a]
  | [a, b] => [a, b]
  | a :: b :: c :: text =>
    if a = '%' then
      match hexByte b c with
      | some byte => Char.ofNat byte :: urlDecode text
      | none => '%' :: b :: c :: urlDecode text
    else a :: urlDecode (b :: c :: text)

/-! ### Reading each kind -/

/-- The first value of a key of a query, if there is a query with it. -/
def firstValue (key : Chars) (query : Option Chars) : Option Chars :=
  query.bind fun query => (queryValues key (parseQueryString query)).head?

/-- The values of a key of a query, if there is one. -/
def valuesOf (key : Chars) (query : Option Chars) : List Chars :=
  match query with
  | some query => queryValues key (parseQueryString query)
  | none => []

def parseResource (value : Chars) : Except ParseError AccountResource :=
  if value = "email".toList then .ok .email
  else if value = "repo".toList then .ok .repo
  else if value = "status".toList then .ok .status
  else .error (.invalidResource value)

def parseAccountAction : Option Chars → Except ParseError AccountAction
  | none => .ok .read
  | some value =>
    if value = "read".toList then .ok .read
    else if value = "manage".toList then .ok .manage
    else .error (.invalidAction value)

def parseAccount : Option Chars → Except ParseError Scope
  | none => .error .missingResource
  | some suffix => do
    let resource ← parseResource (splitQuery suffix).1
    let action ← parseAccountAction (firstValue "action".toList (splitQuery suffix).2)
    .ok (.account { resource := resource, action := action })

def parseIdentity : Option Chars → Except ParseError Scope
  | none => .error .missingResource
  | some suffix =>
    if suffix = "handle".toList then .ok (.identity .handle)
    else if suffix = ['*'] then .ok (.identity .all)
    else .error (.invalidResource suffix)

/-- Read patterns one after another. -/
def parseMimePatterns : List Chars → Except ParseError (Finset MimePattern)
  | [] => .ok ∅
  | value :: values => do
    let pattern ← MimePattern.fromStr value
    let rest ← parseMimePatterns values
    .ok (insert pattern rest)

/-- No pattern at all stands for every media type. -/
def orAllTypes (accept : Finset MimePattern) : Finset MimePattern :=
  if accept = ∅ then {.all} else accept

def parseBlob : Option Chars → Except ParseError Scope
  | none => .ok (.blob { accept := {.all} })
  | some suffix =>
    if suffix.head? = some '?' then do
      let accept ← parseMimePatterns (valuesOf "accept".toList (some (suffix.drop 1)))
      .ok (.blob { accept := orAllTypes accept })
    else do
      let pattern ← MimePattern.fromStr suffix
      .ok (.blob { accept := {pattern} })

/-- Read actions one after another. -/
def parseRepoActions : List Chars → Except ParseError (Finset RepoAction)
  | [] => .ok ∅
  | value :: values =>
    match RepoAction.fromWire value with
    | some actions => do
      let rest ← parseRepoActions values
      .ok (actions ∪ rest)
    | none => .error (.invalidAction value)

/-- No name at all stands for every one. -/
def orAll (patterns : Finset Pattern) : Finset Pattern :=
  if patterns = ∅ then {.all} else patterns

/-- No action at all stands for every one. -/
def orEvery (actions : Finset RepoAction) : Finset RepoAction :=
  if actions = ∅ then RepoAction.every else actions

/-- A positional value that is given. -/
def positionalOf (value : Chars) : List Chars := if value.isEmpty then [] else [value]

/-- The collections of a scope for a repository. -/
def repoCollections (positional : Chars) (query : Option Chars) : List Chars :=
  positionalOf positional ++ valuesOf "collection".toList query

def parseRepo (suffix : Option Chars) : Except ParseError Scope := do
  let (positional, query) := splitQuery (suffix.getD [])
  let actions ← parseRepoActions (valuesOf "action".toList query)
  .ok (.repo {
    collections := orAll ((repoCollections positional query).map Pattern.parse).toFinset
    actions := orEvery actions })

def parseRpc : Option Chars → Scope
  | none => .rpc { lxm := {.all}, aud := {.all} }
  | some suffix =>
    if suffix = ['*'] then .rpc { lxm := {.all}, aud := {.all} }
    else if suffix.head? = some '?' then
      let query := some (suffix.drop 1)
      .rpc {
        lxm := orAll ((valuesOf "lxm".toList query).map Pattern.parse).toFinset
        aud := orAll ((valuesOf "aud".toList query).map Pattern.parse).toFinset }
    else
      let (nsid, query) := splitQuery suffix
      .rpc {
        lxm := {.only nsid}
        aud := orAll ((valuesOf "aud".toList query).map Pattern.parse).toFinset }

def parseTransition : Option Chars → Except ParseError Scope
  | none => .error .missingResource
  | some suffix =>
    if suffix = "generic".toList then .ok (.transition .generic)
    else if suffix = "email".toList then .ok (.transition .email)
    else if suffix = "chat.bsky".toList then .ok (.transition .chatBsky)
    else .error (.invalidResource suffix)

/-- An audience that is not empty is one token of a scope. -/
def checkAudience : Option Chars → Except ParseError Unit
  | none => .ok ()
  | some aud =>
    if !aud.isEmpty && !isScopeToken aud then
      .error (.invalidResource ("include: audience is not a single scope token: ".toList ++ aud))
    else .ok ()

def parseInclude : Option Chars → Except ParseError Scope
  | none => .error .missingResource
  | some suffix => do
    let (nsid, query) := splitQuery suffix
    if nsid.isEmpty then .error .missingResource
    else do
      let aud := (firstValue "aud".toList query).map urlDecode
      checkAudience aud
      .ok (.includeSet { nsid := nsid, aud := aud })

/-- A kind that takes no suffix. -/
def parseBare (scope : Scope) (message : Chars) : Option Chars → Except ParseError Scope
  | none => .ok scope
  | some _ => .error (.invalidResource message)

def parseAtproto : Option Chars → Except ParseError Scope :=
  parseBare .atproto "atproto scope does not accept suffixes".toList

def parseOpenid : Option Chars → Except ParseError Scope :=
  parseBare .openId "openid scope does not accept suffixes".toList

def parseProfile : Option Chars → Except ParseError Scope :=
  parseBare .profile "profile scope does not accept suffixes".toList

def parseEmail : Option Chars → Except ParseError Scope :=
  parseBare .email "email scope does not accept suffixes".toList

/-! ### Reading a scope -/

/-- The starts of scopes, with what reads the rest. -/
def prefixes : List (Chars × (Option Chars → Except ParseError Scope)) :=
  [("account".toList, parseAccount), ("identity".toList, parseIdentity),
    ("blob".toList, parseBlob), ("repo".toList, parseRepo),
    ("rpc".toList, fun suffix => .ok (parseRpc suffix)),
    ("space".toList, fun suffix => (SpacePermission.parseSuffix suffix).map .space),
    ("atproto".toList, parseAtproto), ("transition".toList, parseTransition),
    ("include".toList, parseInclude), ("openid".toList, parseOpenid),
    ("profile".toList, parseProfile), ("email".toList, parseEmail)]

/-- What follows the start of a scope: nothing, a suffix behind a colon, or a query. -/
def suffixOf : Chars → Option (Option Chars)
  | [] => some none
  | c :: rest =>
    if c = ':' then some (some rest) else if c = '?' then some (some (c :: rest)) else none

/-- The first kind whose start a text has. -/
def findPrefix (text : Chars) :
    List (Chars × (Option Chars → Except ParseError Scope)) → Option (Except ParseError Scope)
  | [] => none
  | (front, read) :: kinds =>
    match (stripFront front text).bind suffixOf with
    | some suffix => some (read suffix)
    | none => findPrefix text kinds

/-- The start of a text up to the first colon, or else up to the first question mark. -/
def unknownStart (text : Chars) : Chars :=
  match splitFirst ':' text with
  | some (start, _) => start
  | none =>
    match splitFirst '?' text with
    | some (start, _) => start
    | none => text

/-- Read a scope. -/
def Scope.parse (text : Chars) : Except ParseError Scope :=
  match findPrefix text prefixes with
  | some result => result
  | none => .error (.unknownPrefix (unknownStart text))

/-- A scope with a positional value is read by its kind. -/
theorem parse_repo (suffix : Chars) :
  Scope.parse ("repo:".toList ++ suffix) = parseRepo (some suffix)
  := rfl

theorem parse_rpc (suffix : Chars) :
  Scope.parse ("rpc:".toList ++ suffix) = .ok (parseRpc (some suffix))
  := rfl

theorem parse_space (suffix : Chars) :
  Scope.parse ("space:".toList ++ suffix) =
    (SpacePermission.parseSuffix (some suffix)).map .space
  := rfl

theorem parse_blob (suffix : Chars) :
  Scope.parse ("blob:".toList ++ suffix) = parseBlob (some suffix)
  := rfl

end Atproto.Scopes
