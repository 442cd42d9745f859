import Atproto.Json.Value
import Atproto.Repo.Codec
import Atproto.Scopes.Scope

/-!
# Permission sets

An `include:` scope names a permission set, a document that is fetched.  Each permission of the
set becomes scopes that are put together from the strings of the document.
-/

namespace Atproto.Pds

open Dasl Repo Scopes Wire

/-- The characters of a text. -/
def charsOf (text : Text) : Chars :=
  (String.ofByteArray ⟨text.bytes.toArray⟩ text.utf8).toList

/-- The string of a field. -/
def fieldStr (key : String) (value : Json) : Option Chars :=
  ((value.get (textOf key)).bind Json.asStr).map charsOf

/-- The truth value of a value that is one. -/
def asBool : Json → Option Bool
  | .bool value => some value
  | .null => none
  | .number _ => none
  | .string _ => none
  | .array _ => none
  | .object _ => none

/-- A list field: a string, or an array of them. -/
def stringList : Option Json → List Chars
  | some (.string text) => [charsOf text]
  | some (.array items) => items.filterMap fun item => item.asStr.map charsOf
  | some .null => []
  | some (.bool _) => []
  | some (.number _) => []
  | some (.object _) => []
  | none => []

/-- The strings of a list field of a permission. -/
def listField (key : String) (perm : Json) : List Chars := stringList (perm.get (textOf key))

/-- Values as the items of a query. -/
def queryOf (key : Chars) (values : List Chars) : List Chars :=
  values.map fun value => key ++ '=' :: value

/-- The values, or those that are meant when there is none. -/
def orElse (values defaults : List Chars) : List Chars := if values.isEmpty then defaults else values

/-! ### Spaces -/

/-- The actions on records of a space that are meant when none is named. -/
def spaceActions : List Chars :=
  ["read".toList, "create".toList, "update".toList, "delete".toList]

/-- The verbs for spaces. -/
def manageVerbs : List Chars := ["create".toList, "update".toList, "delete".toList]

/-- The first verb that is none. -/
def badVerb (perm : Json) : Option Chars :=
  (listField "manage" perm).find? fun verb => !manageVerbs.contains verb

/-- A single value as an item of a query, unless it is empty. -/
def optionalItem (key : Chars) : Option Chars → List Chars
  | none => []
  | some value => if value.isEmpty then [] else queryOf key [value]

/-- The items of the query of a scope for spaces. -/
def spaceParams (perm : Json) : List Chars :=
  optionalItem "authority".toList ((fieldStr "authority" perm).or (fieldStr "did" perm)) ++
    optionalItem "skey".toList (fieldStr "skey" perm) ++
    queryOf "collection".toList (listField "collection" perm) ++
    queryOf "action".toList (orElse (listField "action" perm) spaceActions) ++
    queryOf "manage".toList (listField "manage" perm)

/-- The scope of a permission for spaces. -/
def spaceScopes (perm : Json) : Except Chars (List Chars) :=
  match (fieldStr "spaceType" perm).filter fun type => !type.isEmpty with
  | none =>
    .error ("the space permission names no spaceType, and a set permission must name a concrete " ++
      "space type").toList
  | some spaceType =>
    if spaceType = ['*'] then
      .error ("the space permission asks for every space type, which is only expressible as a " ++
        "scope requested directly").toList
    else match badVerb perm with
      | some verb =>
        .error (("`".toList ++ verb) ++ ("` is not a space-management verb; a permission set may " ++
          "name only create, update or delete").toList)
      | none =>
        .ok ["space:".toList ++ (if (spaceParams perm).isEmpty then spaceType
          else spaceType ++ '?' :: join '&' (spaceParams perm))]

/-! ### Calls -/

/-- The audience of a permission for calls, which it inherits. -/
def rpcAudience (perm : Json) (nsid : Chars) (includeAud : Option Chars) : Except Chars Chars :=
  match (fieldStr "aud" perm).filter fun aud => decide (aud ≠ ['*']) with
  | some own =>
    .error ("the permission names its own audience (`".toList ++ own ++
      "`), and a permission set may not choose which service a holder's token may call".toList)
  | none =>
    if ((perm.get (textOf "inheritAud")).bind asBool).getD false then
      match includeAud.filter fun aud => !aud.isEmpty with
      | some aud => .ok aud
      | none =>
        .error (("the permission takes its audience from the request, which named none — ask for " ++
          "`include:").toList ++ nsid ++ "?aud=<did>` to grant it".toList)
    else
      .error ("the permission names no audience, and granting it would mean every service, which " ++
        "is wider than this set describes").toList

/-- The scope of a method at an audience. -/
def rpcScope (aud lxm : Chars) : Chars := "rpc:".toList ++ (lxm ++ '?' :: ("aud=".toList ++ aud))

/-- The scopes of a permission for calls. -/
def rpcScopes (perm : Json) (nsid : Chars) (includeAud : Option Chars) :
    Except Chars (List Chars) := do
  let aud ← rpcAudience perm nsid includeAud
  if (listField "lxm" perm).isEmpty then
    .error "the permission names no methods, so it would grant every method at its audience".toList
  else
    .ok ((listField "lxm" perm).map (rpcScope aud))

/-! ### Repositories and blobs -/

/-- The actions on records that are meant when none is named. -/
def repoActions : List Chars := ["create".toList, "update".toList, "delete".toList]

/-- The query of the scopes of a permission for a repository. -/
def actionQuery (perm : Json) : Chars :=
  join '&' (queryOf "action".toList (orElse (listField "action" perm) repoActions))

/-- The scopes of a permission for a repository. -/
def repoScopes (perm : Json) : Except Chars (List Chars) :=
  if (listField "collection" perm).isEmpty then
    .error "the permission names no collections".toList
  else
    .ok ((listField "collection" perm).map fun collection =>
      "repo:".toList ++ (collection ++ '?' :: actionQuery perm))

/-- The scopes of a permission for blobs. -/
def blobScopes (perm : Json) : List Chars :=
  if (listField "accept" perm).isEmpty then ["blob:*/*".toList]
  else (listField "accept" perm).map fun mime => "blob:".toList ++ mime

/-! ### Permissions -/

/-- The scopes that a permission is put together to, whatever their characters. -/
def builtScopes (perm : Json) (nsid : Chars) (includeAud : Option Chars) :
    Except Chars (List Chars) :=
  match fieldStr "resource" perm with
  | some resource =>
    if resource = "repo".toList then repoScopes perm
    else if resource = "blob".toList then .ok (blobScopes perm)
    else if resource = "rpc".toList then rpcScopes perm nsid includeAud
    else if resource = "space".toList then spaceScopes perm
    else .error ("`".toList ++ resource ++ "` is not a resource this server grants".toList)
  | none => .error "the permission names no resource".toList

/-- The scopes of a permission, or why it has none. -/
def scopesForPermission (perm : Json) (nsid : Chars) (includeAud : Option Chars) :
    Except Chars (List Chars) := do
  let scopes ← builtScopes perm nsid includeAud
  match scopes.find? fun scope => !isScopeToken scope with
  | some bad =>
    .error ("`".toList ++ bad ++ ("` is not a single scope token; a permission set may not decide " ++
      "how many scopes it becomes").toList)
  | none => .ok scopes

/-- The permissions of a document, when it is a permission set that does not disown its name. -/
def declaredPermissions (doc : Json) (nsid : Chars) : List Json :=
  let main := ((doc.get (textOf "defs")).bind (Json.get (textOf "main"))).getD .null
  if fieldStr "type" main ≠ some "permission-set".toList then []
  else if ((fieldStr "id" doc).any fun id => decide (id ≠ nsid)) then []
  else ((main.get (textOf "permissions")).bind Json.asArray).getD []

/-- The scopes of a document.  Permissions without scopes are skipped. -/
def permissionsFrom (doc : Json) (nsid : Chars) (includeAud : Option Chars) : List Chars :=
  (declaredPermissions doc nsid).flatMap fun perm =>
    match scopesForPermission perm nsid includeAud with
    | .ok scopes => scopes
    | .error _ => []

/-! ### Expanding -/

/-- What a scope is expanded to besides itself. -/
def expansionOf (resolver : Option (Chars → Option Json)) (raw : Chars) : List Chars :=
  match (Scope.parse raw).toOption.bind Scope.asInclude with
  | some inc =>
    match resolver.bind fun resolve => resolve inc.nsid with
    | some doc => permissionsFrom doc inc.nsid inc.aud
    | none => []
  | none => []

/-- Keep one of equal neighbours. -/
def dedup : List Chars → List Chars
  | [] => []
  | [a] => [a]
  | a :: b :: rest => if a = b then dedup (b :: rest) else a :: dedup (b :: rest)

/-- Expand every permission set among granted scopes. -/
def expand (resolver : Option (Chars → Option Json)) (granted : Chars) : Chars :=
  let out := (splitWhitespace granted).flatMap fun raw => raw :: expansionOf resolver raw
  join ' ' (dedup (out.mergeSort fun a b => decide (a ≤ b)))

end Atproto.Pds
