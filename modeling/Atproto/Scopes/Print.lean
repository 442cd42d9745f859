import Atproto.Scopes.Requests

/-!
# Writing scopes

A scope is written as a kind, a positional value, and a query with an item for each value.  What is the
default of a scope for spaces is left out.  A query that is written has the items that are read of it.
-/

namespace Atproto.Scopes

open Wire

/-! ### Queries -/

/-- A value under a key, as it stands in a query. -/
def item (key value : Chars) : Chars := key ++ '=' :: value

/-- A text with a query behind it, unless that has no items. -/
def withQuery (front : Chars) (params : List Chars) : Chars :=
  if params.isEmpty then front else front ++ '?' :: join '&' params

/-- An upper case hexadecimal digit. -/
def hexUpper (digit : Nat) : Char := if digit < 10 then Char.ofNat (0x30 + digit)
  else Char.ofNat (0x41 + (digit - 10))

/-- The characters that stand for themselves. -/
def isUnreserved (c : Char) : Bool :=
  let code := c.toNat
  (0x41 ≤ code && code ≤ 0x5a) || (0x61 ≤ code && code ≤ 0x7a) || (0x30 ≤ code && code ≤ 0x39) ||
    c == '-' || c == '_' || c == '.' || c == '~' || c == ':'

/-- Encode a text with percent signs. -/
def urlEncode (text : Chars) : Chars :=
  text.flatMap fun c =>
    if isUnreserved c then [c]
    else (String.utf8EncodeChar c).flatMap fun byte =>
      ['%', hexUpper (byte.toNat / 16), hexUpper (byte.toNat % 16)]

/-! ### Scopes for spaces -/

instance : LinearOrder SpaceManageVerb :=
  LinearOrder.lift' SpaceManageVerb.rank SpaceManageVerb.rank_injective

namespace SpacePermission

variable (permission : SpacePermission)

/-- The actions are those of a scope that names none. -/
def isDefaultActionSet : Bool :=
  decide (permission.action.card = SpaceAction.defaults.card) &&
    decide (SpaceAction.defaults ⊆ permission.action)

/-- The authority that is written, which is another one than that of the user who grants. -/
def authorityValues : SpaceDid → List Chars
  | .selfDid => []
  | .all => [['*']]
  | .did did => [did]

/-- The key that is written. -/
def skeyValues : SpaceSkey → List Chars
  | .all => []
  | .only skey => [skey]

/-- The collections that are written. -/
def collectionValues : SpaceCollections → List Chars
  | .default => []
  | .explicit collections => collections.sort.map Pattern.text

/-- The actions that are written. -/
def actionValues : List Chars :=
  if permission.isDefaultActionSet then [] else permission.action.sort.map SpaceAction.asStr

/-- What is written about spaces. -/
def manageValues : List Chars := permission.manage.sort.map SpaceManageVerb.asStr

/-- The items of the query. -/
def items : List (Chars × Chars) :=
  (authorityValues permission.did).map (Prod.mk "authority".toList) ++
    ((skeyValues permission.skey).map (Prod.mk "skey".toList) ++
      ((collectionValues permission.collection).map (Prod.mk "collection".toList) ++
        (permission.actionValues.map (Prod.mk "action".toList) ++
          permission.manageValues.map (Prod.mk "manage".toList))))

/-- Write a scope for spaces. -/
def toScopeString : Chars :=
  withQuery ("space:".toList ++ permission.spaceType.text)
    (permission.items.map fun pair => item pair.1 pair.2)

end SpacePermission

/-! ### Scopes of each kind -/

def AccountResource.asStr : AccountResource → Chars
  | .email => "email".toList
  | .repo => "repo".toList
  | .status => "status".toList

def AccountScope.toStringNormalized (scope : AccountScope) : Chars :=
  match scope.action with
  | .read => "account:".toList ++ scope.resource.asStr
  | .manage => "account:".toList ++ (scope.resource.asStr ++ "?action=manage".toList)

def IdentityScope.toStringNormalized : IdentityScope → Chars
  | .handle => "identity:handle".toList
  | .all => "identity:*".toList

/-- Write a pattern. -/
def MimePattern.text : MimePattern → Chars
  | .all => "*/*".toList
  | .typeWildcard type => type ++ "/*".toList
  | .exact mime => mime

/-- Sort texts. -/
def sortTexts (texts : List Chars) : List Chars := texts.mergeSort fun a b => decide (a ≤ b)

/-- One pattern is positional, and more of them are items of the query. -/
def BlobScope.toStringNormalized (scope : BlobScope) : Chars :=
  match scope.accept.sort with
  | [pattern] => "blob:".toList ++ pattern.text
  | patterns =>
    "blob?".toList ++
      join '&' (sortTexts (patterns.map fun pattern => item "accept".toList pattern.text))

/-- A collection, as it stands in a query. -/
def collectionItem (collection : RepoCollection) : Chars := item "collection".toList collection.text

/-- The collections, as they stand in a query. -/
def RepoScope.collectionItems (scope : RepoScope) : List Chars :=
  scope.collections.sort.map collectionItem

/-- The actions, as they stand in a query. -/
def RepoScope.actionTexts (scope : RepoScope) : List Chars :=
  if scope.actions.card < 3 then scope.actions.sort.map RepoAction.asStr else []

/-- The actions that are written, unless these are all. -/
def RepoScope.actionParams (scope : RepoScope) : List Chars :=
  if scope.actions.card < 3 then
    scope.actions.sort.map fun action => item "action".toList action.asStr
  else []

/-- One collection is positional, and more of them are items of the query. -/
def RepoScope.toStringNormalized (scope : RepoScope) : Chars :=
  match scope.collections.sort with
  | [collection] => withQuery ("repo:".toList ++ collection.text) scope.actionParams
  | collections =>
    withQuery "repo".toList (collections.map collectionItem ++ scope.actionParams)

/-- The methods and audiences, under their keys. -/
def RpcScope.pairs (scope : RpcScope) : List (Chars × Chars) :=
  (scope.lxm.sort.map Pattern.text).map (Prod.mk "lxm".toList) ++
    (scope.aud.sort.map Pattern.text).map (Prod.mk "aud".toList)

/-- One method with one audience is positional, and more of them are items of the query. -/
def RpcScope.toStringNormalized (scope : RpcScope) : Chars :=
  match scope.lxm.sort, scope.aud.sort with
  | [.all], [.all] => "rpc:*".toList
  | [.only nsid], [.all] => "rpc:".toList ++ (nsid ++ "?aud=*".toList)
  | [.only nsid], [.only did] => "rpc:".toList ++ (nsid ++ ("?aud=".toList ++ did))
  | [.all], [.only did] => "rpc:*?aud=".toList ++ did
  | lxms, auds =>
    let params := sortTexts ((lxms.map fun lxm => item "lxm".toList lxm.text) ++
      auds.map fun aud => item "aud".toList aud.text)
    if params.isEmpty then "rpc:*".toList else "rpc?".toList ++ join '&' params

def TransitionScope.toStringNormalized : TransitionScope → Chars
  | .generic => "transition:generic".toList
  | .email => "transition:email".toList
  | .chatBsky => "transition:chat.bsky".toList

def IncludeScope.toStringNormalized (scope : IncludeScope) : Chars :=
  match scope.aud with
  | some aud => "include:".toList ++ (scope.nsid ++ ("?aud=".toList ++ urlEncode aud))
  | none => "include:".toList ++ scope.nsid

/-- Write a scope. -/
def Scope.toStringNormalized : Scope → Chars
  | .account scope => scope.toStringNormalized
  | .identity scope => scope.toStringNormalized
  | .blob scope => scope.toStringNormalized
  | .repo scope => scope.toStringNormalized
  | .rpc scope => scope.toStringNormalized
  | .space scope => scope.toScopeString
  | .atproto => "atproto".toList
  | .transition scope => scope.toStringNormalized
  | .includeSet scope => scope.toStringNormalized
  | .openId => "openid".toList
  | .profile => "profile".toList
  | .email => "email".toList

/-! ### Reading a query that is written -/

theorem splitQuery_append {front : Chars} (h : '?' ∉ front) (query : Chars) :
  splitQuery (front ++ '?' :: query) = (front, some query)
  := by
  rw [splitQuery, splitFirst_append h]

theorem splitQuery_of_not_mem {front : Chars} (h : '?' ∉ front) :
  splitQuery front = (front, none)
  := by
  rw [splitQuery, splitFirst_eq_none.mpr h]

/-- A query that is written behind a text is read behind it. -/
theorem splitQuery_withQuery {front : Chars} (h : '?' ∉ front) (params : List Chars) :
  splitQuery (withQuery front params) =
    (front, if params.isEmpty then none else some (join '&' params))
  := by
  rw [withQuery]
  split_ifs with hparams
  · exact splitQuery_of_not_mem h
  · exact splitQuery_append h _

theorem withQuery_append (front rest : Chars) (params : List Chars) :
  withQuery (front ++ rest) params = front ++ withQuery rest params
  := by
  rw [withQuery, withQuery]
  split_ifs with hparams
  · rfl
  · rw [List.append_assoc]

/-- The parts of texts behind one another are the parts of each of them. -/
theorem splitOn_join {texts : List Chars} (h : texts ≠ []) (separator : Char) :
  (join separator texts).splitOn separator = texts.flatMap fun text => text.splitOn separator
  := by
  induction texts with
  | nil => exact absurd rfl h
  | cons text texts ih =>
    cases texts with
    | nil => rw [join_singleton, List.flatMap_cons, List.flatMap_nil, List.append_nil]
    | cons other texts =>
      rw [join_cons_cons, List.splitOn_append_cons_self, ih (List.cons_ne_nil _ _)]
      rfl

theorem splitOn_item {key value : Chars} (hkey : '&' ∉ key) (hvalue : '&' ∉ value) :
  (item key value).splitOn '&' = [item key value]
  := by
  apply List.splitOn_eq_singleton
  intro h
  rcases List.mem_append.mp h with hmem | hmem
  · exact hkey hmem
  · rcases List.mem_cons.mp hmem with heq | hmem
    · cases heq
    · exact hvalue hmem

theorem splitFirst_item {key : Chars} (hkey : '=' ∉ key) (value : Chars) :
  splitFirst '=' (item key value) = some (key, value)
  := splitFirst_append hkey value

/-- The items of texts behind one another are the items of each of them. -/
theorem parseQueryString_join (texts : List Chars) :
  parseQueryString (join '&' texts) = texts.flatMap parseQueryString
  := by
  cases texts with
  | nil => rfl
  | cons text texts =>
    rw [parseQueryString, splitOn_join (List.cons_ne_nil _ _), List.filterMap_flatMap]
    rfl

theorem parseQueryString_item {key value : Chars} (hkey : '=' ∉ key) (hkey' : '&' ∉ key)
    (hvalue : '&' ∉ value) :
  parseQueryString (item key value) = [(key, value)]
  := by
  rw [parseQueryString, splitOn_item hkey' hvalue, List.filterMap_cons, splitFirst_item hkey]
  rfl

theorem queryValues_append (key : Chars) (items others : List (Chars × Chars)) :
  queryValues key (items ++ others) = queryValues key items ++ queryValues key others
  := by
  rw [queryValues, List.filter_append, List.map_append]
  rfl

/-- The values that are given under one key are those of this key, and no other one has them. -/
theorem queryValues_map (key other : Chars) (values : List Chars) :
  queryValues key (values.map (Prod.mk other)) = if other = key then values else []
  := by
  split_ifs with hkey
  · induction values with
    | nil => rfl
    | cons value values ih =>
      rw [queryValues, List.map_cons, List.filter_cons, if_pos (decide_eq_true hkey), List.map_cons]
      exact congrArg (value :: ·) ih
  · rw [queryValues, List.filter_eq_nil_iff.mpr]
    · rfl
    · intro pair hpair
      obtain ⟨value, -, rfl⟩ := List.mem_map.mp hpair
      rw [decide_eq_true_iff]
      exact hkey

end Atproto.Scopes
