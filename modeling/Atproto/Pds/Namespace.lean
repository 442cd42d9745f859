import Atproto.Lexicon.Authority
import Atproto.Pds.PermissionSet

/-!
# What permission sets grant

The scopes of a permission set name exactly what its permissions spell.  The authority of the
set is not looked at, so they stay in its namespace exactly when no permission spells a name
outside of it.
-/

namespace Atproto.Pds

open Dasl Repo Scopes Wire Lexicon

/-- The scopes of a list that is separated by blanks, without those that cannot be read. -/
def grantedScopes (granted : Chars) : List Scope :=
  (splitWhitespace granted).filterMap fun raw => (Scope.parse raw).toOption

/-- The scope names a collection of a repository, a method or a type of spaces. -/
def Mentions (name : Chars) : Scope → Prop
  | .repo scope => ∃ pattern ∈ scope.collections, pattern.text = name
  | .rpc scope => ∃ pattern ∈ scope.lxm, pattern.text = name
  | .space scope => scope.spaceType.text = name
  | .account _ => False
  | .identity _ => False
  | .blob _ => False
  | .atproto => False
  | .transition _ => False
  | .includeSet _ => False
  | .openId => False
  | .profile => False
  | .email => False

/-! ### What a permission spells -/

/-- All characters can stand in a scope. -/
def Clean (text : Chars) : Prop := ∀ c ∈ text, isScopeChar c = true

theorem clean_of_all {text : Chars} (h : text.all isScopeChar = true) :
  Clean text
  := List.all_eq_true.mp h

theorem not_whitespace_of_all {text : Chars} (h : text.all (fun c => !isWhitespace c) = true) :
  ∀ c ∈ text, isWhitespace c = false
  := by
  intro c hc
  simpa using List.all_eq_true.mp h c hc

/-- The values, or a star when there is none. -/
def orStar (values : List Chars) : List Chars := if values.isEmpty then [['*']] else values

/-- The permission takes its audience from the request, which has one. -/
structure Inherits (perm : Json) (includeAud : Option Chars) (aud : Chars) : Prop where
  own : ∀ own, fieldStr "aud" perm = some own → own = ['*']
  inherits : (perm.get (textOf "inheritAud")).bind asBool = some true
  request : includeAud = some aud
  given : aud ≠ []

/-- A permission spells a name: a collection as it stands up to its first question mark and in
every `collection` item behind it, a method up to its first question mark or else in every `lxm`
item behind it, or a type of spaces up to its first question mark. -/
inductive Spells (perm : Json) (includeAud : Option Chars) : Chars → Prop where
  | collection {collection positional query name : Chars}
    (hresource : fieldStr "resource" perm = some "repo".toList)
    (hmem : collection ∈ listField "collection" perm)
    (hclean : ∀ other ∈ listField "collection" perm, Clean other)
    (hquery : Clean (actionQuery perm))
    (hsplit : splitFirst '?' (collection ++ '?' :: actionQuery perm) = some (positional, query))
    (hactions : ∀ value ∈ queryValues "action".toList (parseQueryString query),
      (RepoAction.fromWire value).isSome)
    (hname : name ∈ orStar (positionalOf positional ++
      queryValues "collection".toList (parseQueryString query))) :
    Spells perm includeAud name
  | method {lxm aud positional query name : Chars}
    (hresource : fieldStr "resource" perm = some "rpc".toList)
    (haud : Inherits perm includeAud aud) (hmem : lxm ∈ listField "lxm" perm)
    (hclean : ∀ other ∈ listField "lxm" perm, Clean other) (hquery : Clean aud)
    (hsplit : splitFirst '?' (lxm ++ '?' :: ("aud=".toList ++ aud)) = some (positional, query))
    (hname : name ∈ if positional = [] then
      orStar (queryValues "lxm".toList (parseQueryString query)) else [positional]) :
    Spells perm includeAud name
  | spaceType {type positional query : Chars} {permission : SpacePermission}
    (hresource : fieldStr "resource" perm = some "space".toList)
    (htype : fieldStr "spaceType" perm = some type) (hempty : type ≠ []) (hstar : type ≠ ['*'])
    (hverbs : badVerb perm = none) (hclean : Clean type)
    (hquery : Clean (join '&' (spaceParams perm)))
    (hsplit : splitFirst '?' (type ++ '?' :: join '&' (spaceParams perm)) =
      some (positional, query))
    (hformed : SpacePermission.parseSuffix (some (type ++ '?' :: join '&' (spaceParams perm))) =
      .ok permission) :
    Spells perm includeAud positional

/-! ### Lists of scopes -/

theorem mem_dedup {a : Chars} {texts : List Chars} :
  a ∈ dedup texts ↔ a ∈ texts
  := by
  induction texts using dedup.induct with
  | case1 => rfl
  | case2 b => rfl
  | case3 b rest ih =>
    rw [dedup, if_pos rfl, ih]
    simp
  | case4 b c rest hne ih =>
    rw [dedup, if_neg hne, List.mem_cons, ih, List.mem_cons (a := a) (b := b)]

/-- Texts without white space are read back from a list of them. -/
theorem splitWhitespace_join {texts : List Chars}
    (h : ∀ text ∈ texts, text ≠ [] ∧ ∀ c ∈ text, isWhitespace c = false) :
  splitWhitespace (join ' ' texts) = texts
  := by
  have hparts : ∀ texts : List Chars, (∀ text ∈ texts, ∀ c ∈ text, isWhitespace c = false) →
      texts ≠ [] → (join ' ' texts).splitOnP isWhitespace = texts := by
    intro texts hclean hne
    induction texts with
    | nil => exact absurd rfl hne
    | cons text texts ih =>
      obtain ⟨htext, htexts⟩ := List.forall_mem_cons.mp hclean
      cases texts with
      | nil =>
        rw [join_singleton]
        exact List.splitOnP_eq_singleton htext
      | cons other texts =>
        rw [join_cons_cons, List.splitOnP_append_cons_of_forall_mem htext ' ' (by decide),
          ih htexts (List.cons_ne_nil _ _)]
  rw [splitWhitespace]
  cases texts with
  | nil => rfl
  | cons text texts =>
    rw [hparts _ (fun other hother => (h other hother).2) (List.cons_ne_nil _ _),
      List.filter_eq_self]
    intro other hother
    simpa using (h other hother).1

/-- A scope token has no white space. -/
theorem not_whitespace_of_isScopeChar {c : Char} (h : isScopeChar c = true) :
  isWhitespace c = false
  := by
  rw [isScopeChar] at h
  simp only [Bool.or_eq_true, Bool.and_eq_true, beq_iff_eq, decide_eq_true_eq] at h
  simp only [isWhitespace, Bool.or_eq_false_iff, Bool.and_eq_false_iff, beq_eq_false_iff_ne,
    decide_eq_false_iff_not]
  omega

theorem isScopeToken_iff {text : Chars} :
  isScopeToken text = true ↔ text ≠ [] ∧ Clean text
  := by
  rw [isScopeToken, Bool.and_eq_true, List.all_eq_true]
  simp [Clean]

/-- The scopes of a permission are those it is put together to, when all of them are tokens. -/
theorem scopesForPermission_eq_ok {perm : Json} {nsid : Chars} {includeAud : Option Chars}
    {scopes : List Chars} :
  scopesForPermission perm nsid includeAud = .ok scopes ↔
    builtScopes perm nsid includeAud = .ok scopes ∧
      ∀ scope ∈ scopes, isScopeToken scope = true
  := by
  have hfind : ∀ texts : List Chars, (texts.find? fun scope => !isScopeToken scope) = none ↔
      ∀ scope ∈ texts, isScopeToken scope = true := by
    intro texts
    simp [List.find?_eq_none]
  constructor
  · intro h
    obtain ⟨built, hbuilt, h⟩ := Logic.bind_eq_ok.mp h
    cases hbad : built.find? fun scope => !isScopeToken scope with
    | some bad =>
      rw [hbad] at h
      cases h
    | none =>
      rw [hbad] at h
      cases h
      exact ⟨hbuilt, (hfind _).mp hbad⟩
  · rintro ⟨hbuilt, htokens⟩
    apply Logic.bind_eq_ok.mpr ⟨scopes, hbuilt, _⟩
    rw [(hfind _).mpr htokens]

theorem mem_permissionsFrom {doc : Json} {nsid : Chars} {includeAud : Option Chars}
    {raw : Chars} :
  raw ∈ permissionsFrom doc nsid includeAud ↔
    ∃ perm ∈ declaredPermissions doc nsid, ∃ scopes,
      scopesForPermission perm nsid includeAud = .ok scopes ∧ raw ∈ scopes
  := by
  rw [permissionsFrom, List.mem_flatMap]
  apply exists_congr
  intro perm
  apply and_congr_right
  intro _
  cases scopesForPermission perm nsid includeAud with
  | error e =>
    apply iff_of_false List.not_mem_nil
    rintro ⟨scopes, h, -⟩
    cases h
  | ok scopes =>
    constructor
    · intro h
      exact ⟨scopes, rfl, h⟩
    · rintro ⟨other, h, hraw⟩
      cases h
      exact hraw

theorem isScopeToken_of_mem {doc : Json} {nsid : Chars} {includeAud : Option Chars} {raw : Chars}
    (h : raw ∈ permissionsFrom doc nsid includeAud) :
  isScopeToken raw = true
  := by
  obtain ⟨perm, -, scopes, hscopes, hraw⟩ := mem_permissionsFrom.mp h
  exact (scopesForPermission_eq_ok.mp hscopes).2 raw hraw

theorem mem_expansionOf {resolve : Chars → Option Json} {raw text : Chars} {inc : IncludeScope}
    (hparse : Scope.parse raw = .ok (.includeSet inc)) :
  text ∈ expansionOf (some resolve) raw ↔
    ∃ doc, resolve inc.nsid = some doc ∧ text ∈ permissionsFrom doc inc.nsid inc.aud
  := by
  have hinc : (Scope.parse raw).toOption.bind Scope.asInclude = some inc := by
    rw [hparse]
    rfl
  rw [expansionOf, hinc]
  cases hresolve : resolve inc.nsid with
  | some doc => simp [hresolve]
  | none => simp [hresolve]

/-- The scopes of an expanded permission set are the ones of the permissions that it declares. -/
theorem mem_grantedScopes_expand {resolve : Chars → Option Json} {raw : Chars}
    {inc : IncludeScope} (hraw : ∀ c ∈ raw, isWhitespace c = false)
    (hparse : Scope.parse raw = .ok (.includeSet inc)) {scope : Scope} :
  scope ∈ grantedScopes (expand (some resolve) raw) ↔ scope = .includeSet inc ∨
    ∃ doc, resolve inc.nsid = some doc ∧ ∃ text ∈ permissionsFrom doc inc.nsid inc.aud,
      Scope.parse text = .ok scope
  := by
  have hne : raw ≠ [] := by
    rintro rfl
    cases hparse
  have hsingle : splitWhitespace raw = [raw] := by
    have hjoin := splitWhitespace_join (List.forall_mem_singleton.mpr ⟨hne, hraw⟩)
    rwa [join_singleton] at hjoin
  have htexts : ∀ text ∈ raw :: expansionOf (some resolve) raw,
      text ≠ [] ∧ ∀ c ∈ text, isWhitespace c = false := by
    rw [List.forall_mem_cons]
    refine ⟨⟨hne, hraw⟩, ?_⟩
    intro text htext
    obtain ⟨doc, -, hmem⟩ := (mem_expansionOf hparse).mp htext
    obtain ⟨hempty, hclean⟩ := isScopeToken_iff.mp (isScopeToken_of_mem hmem)
    exact ⟨hempty, fun c hc => not_whitespace_of_isScopeChar (hclean c hc)⟩
  have hsorted : ∀ {text}, text ∈ dedup ((raw :: expansionOf (some resolve) raw).mergeSort
      fun a b => decide (a ≤ b)) ↔ text ∈ raw :: expansionOf (some resolve) raw := by
    intro text
    rw [mem_dedup, List.mem_mergeSort]
  rw [grantedScopes, expand, hsingle, List.flatMap_singleton,
    splitWhitespace_join fun text htext => htexts text (hsorted.mp htext), List.mem_filterMap]
  have hread : ∀ text, (Scope.parse text).toOption = some scope ↔ Scope.parse text = .ok scope := by
    intro text
    cases Scope.parse text with
    | error e => simp [Except.toOption]
    | ok other => simp [Except.toOption]
  simp only [hsorted, hread, List.mem_cons, mem_expansionOf hparse]
  constructor
  · rintro ⟨text, rfl | ⟨doc, hdoc, hmem⟩, hscope⟩
    · rw [hparse] at hscope
      cases hscope
      exact .inl rfl
    · exact .inr ⟨doc, hdoc, text, hmem, hscope⟩
  · rintro (rfl | ⟨doc, hdoc, text, hmem, hscope⟩)
    · exact ⟨raw, .inl rfl, hparse⟩
    · exact ⟨text, .inr ⟨doc, hdoc, hmem⟩, hscope⟩

/-! ### What a scope mentions -/

/-- Some scope that the text is read as mentions the name. -/
def TextMentions (name text : Chars) : Prop :=
  ∃ scope, Scope.parse text = .ok scope ∧ Mentions name scope

theorem exists_orAll_text {values : List Chars} {name : Chars} :
  (∃ pattern ∈ orAll (values.map Pattern.parse).toFinset, pattern.text = name) ↔
    name ∈ orStar values
  := by
  cases values with
  | nil =>
    rw [List.map_nil, List.toFinset_nil, orAll, if_pos rfl, orStar, List.isEmpty_nil, if_pos rfl,
      List.mem_singleton]
    constructor
    · rintro ⟨pattern, hpattern, rfl⟩
      rw [Finset.mem_singleton.mp hpattern]
      rfl
    · rintro rfl
      exact ⟨.all, Finset.mem_singleton_self _, rfl⟩
  | cons value values =>
    have hne : ((value :: values).map Pattern.parse).toFinset ≠ ∅ :=
      Finset.ne_empty_of_mem (List.mem_toFinset.mpr List.mem_cons_self)
    rw [orAll, if_neg hne, orStar, List.isEmpty_cons, if_neg Bool.false_ne_true]
    constructor
    · rintro ⟨pattern, hpattern, rfl⟩
      obtain ⟨other, hother, rfl⟩ := List.mem_map.mp (List.mem_toFinset.mp hpattern)
      rwa [Pattern.text_parse]
    · intro hname
      exact ⟨Pattern.parse name, List.mem_toFinset.mpr (List.mem_map_of_mem hname),
        Pattern.text_parse name⟩

theorem exists_parseRepoActions {values : List Chars} :
  (∃ actions, parseRepoActions values = .ok actions) ↔
    ∀ value ∈ values, (RepoAction.fromWire value).isSome
  := by
  induction values with
  | nil => exact iff_of_true ⟨∅, rfl⟩ (List.forall_mem_nil _)
  | cons value values ih =>
    rw [List.forall_mem_cons, ← ih, parseRepoActions]
    cases RepoAction.fromWire value with
    | none =>
      apply iff_of_false
      · rintro ⟨actions, h⟩
        cases h
      · intro h
        cases h.1
    | some first =>
      rw [and_iff_right Option.isSome_some]
      constructor
      · rintro ⟨actions, h⟩
        obtain ⟨rest, hrest, -⟩ := Logic.bind_eq_ok.mp h
        exact ⟨rest, hrest⟩
      · rintro ⟨rest, hrest⟩
        exact ⟨_, Logic.bind_eq_ok.mpr ⟨rest, hrest, rfl⟩⟩

theorem splitQuery_eq {suffix positional query : Chars}
    (hsplit : splitFirst '?' suffix = some (positional, query)) :
  splitQuery suffix = (positional, some query)
  := by
  rw [splitQuery, hsplit]

/-- A scope for a repository mentions its positional collection and those of its query. -/
theorem textMentions_repo {suffix positional query name : Chars}
    (hsplit : splitFirst '?' suffix = some (positional, query)) :
  TextMentions name ("repo:".toList ++ suffix) ↔
    (∀ value ∈ queryValues "action".toList (parseQueryString query),
      (RepoAction.fromWire value).isSome) ∧
    name ∈ orStar (positionalOf positional ++
      queryValues "collection".toList (parseQueryString query))
  := by
  rw [TextMentions, parse_repo, parseRepo, Option.getD_some, splitQuery_eq hsplit,
    ← exists_parseRepoActions, ← exists_orAll_text]
  constructor
  · rintro ⟨scope, hscope, hname⟩
    obtain ⟨actions, hactions, hscope⟩ := Logic.bind_eq_ok.mp hscope
    cases hscope
    exact ⟨⟨actions, hactions⟩, hname⟩
  · rintro ⟨⟨actions, hactions⟩, hname⟩
    exact ⟨_, Logic.bind_eq_ok.mpr ⟨actions, hactions, rfl⟩, hname⟩

/-- A scope for calls mentions its positional method, or those of its query when it is one. -/
theorem textMentions_rpc {suffix positional query name : Chars}
    (hsplit : splitFirst '?' suffix = some (positional, query)) :
  TextMentions name ("rpc:".toList ++ suffix) ↔
    name ∈ if positional = [] then orStar (queryValues "lxm".toList (parseQueryString query))
      else [positional]
  := by
  obtain ⟨rfl, hpositional⟩ := splitFirst_eq_some.mp hsplit
  have hstar : positional ++ '?' :: query ≠ ['*'] := by
    intro h
    have hmem : '?' ∈ ['*'] := h ▸ List.mem_append_right positional List.mem_cons_self
    exact absurd hmem (by decide)
  have hparse : TextMentions name ("rpc:".toList ++ (positional ++ '?' :: query)) ↔
      Mentions name (parseRpc (some (positional ++ '?' :: query))) := by
    rw [TextMentions, parse_rpc]
    constructor
    · rintro ⟨scope, hscope, hname⟩
      cases hscope
      exact hname
    · intro hname
      exact ⟨_, rfl, hname⟩
  rw [hparse, parseRpc, if_neg hstar]
  cases positional with
  | nil =>
    have hhead : (([] : Chars) ++ '?' :: query).head? = some '?' := rfl
    rw [if_pos hhead, if_pos rfl, ← exists_orAll_text]
    rfl
  | cons c positional =>
    have hhead : (c :: positional ++ '?' :: query).head? ≠ some '?' := by
      intro h
      exact hpositional (Option.some.inj h ▸ List.mem_cons_self)
    rw [if_neg hhead, if_neg (List.cons_ne_nil c positional), splitQuery_eq hsplit]
    constructor
    · rintro ⟨pattern, hpattern, rfl⟩
      rw [Finset.mem_singleton.mp hpattern]
      exact List.mem_singleton.mpr rfl
    · intro hname
      exact ⟨_, Finset.mem_singleton_self _, (List.mem_singleton.mp hname).symm⟩

/-- The type of the spaces of a scope is what stands before its query. -/
theorem spaceType_of_parseSuffix {suffix positional query : Chars} {permission : SpacePermission}
    (hsplit : splitFirst '?' suffix = some (positional, query))
    (h : SpacePermission.parseSuffix (some suffix) = .ok permission) :
  permission.spaceType.text = positional
  := by
  obtain ⟨params, -, h⟩ := Logic.bind_eq_ok.mp h
  obtain ⟨⟨⟩, -, h⟩ := Logic.bind_eq_ok.mp h
  obtain ⟨spaceType, htype, h⟩ := Logic.bind_eq_ok.mp h
  obtain ⟨did, -, h⟩ := Logic.bind_eq_ok.mp h
  obtain ⟨skey, -, h⟩ := Logic.bind_eq_ok.mp h
  obtain ⟨action, -, h⟩ := Logic.bind_eq_ok.mp h
  obtain ⟨manage, -, h⟩ := Logic.bind_eq_ok.mp h
  cases h
  rw [SpacePermission.splitSuffix] at htype
  split_ifs at htype with hhead
  · cases htype
  · rw [splitQuery_eq hsplit, SpacePermission.parseType] at htype
    split_ifs at htype with hempty
    cases htype
    exact Pattern.text_parse positional

/-! ### What the scopes of a permission mention -/

/-- The permission is granted, and one of its scopes mentions the name. -/
def Grants (perm : Json) (nsid : Chars) (includeAud : Option Chars) (name : Chars) : Prop :=
  ∃ scopes, scopesForPermission perm nsid includeAud = .ok scopes ∧
    ∃ text ∈ scopes, TextMentions name text

theorem isScopeToken_built {front a b : Chars} (hfront : isScopeToken front = true) :
  isScopeToken (front ++ (a ++ '?' :: b)) = true ↔ Clean a ∧ Clean b
  := by
  obtain ⟨hne, hclean⟩ := isScopeToken_iff.mp hfront
  have hmark : isScopeChar '?' = true := by decide
  rw [isScopeToken_iff, Clean, List.forall_mem_append, List.forall_mem_append,
    List.forall_mem_cons]
  constructor
  · rintro ⟨-, -, ha, -, hb⟩
    exact ⟨ha, hb⟩
  · rintro ⟨ha, hb⟩
    exact ⟨List.append_ne_nil_of_left_ne_nil hne _, hclean, ha, hmark, hb⟩

theorem exists_splitFirst_mark (a b : Chars) :
  ∃ positional query, splitFirst '?' (a ++ '?' :: b) = some (positional, query)
  := by
  cases hsplit : splitFirst '?' (a ++ '?' :: b) with
  | none =>
    rw [splitFirst_eq_none] at hsplit
    exact absurd (List.mem_append_right a List.mem_cons_self) hsplit
  | some parts => exact ⟨parts.1, parts.2, rfl⟩

/-- Scopes that are built from the values of a list, none of which is refused. -/
theorem exists_listed {error : Chars} {values : List Chars} (build : Chars → Chars)
    (token p : Chars → Prop) :
  (∃ scopes, ((if values.isEmpty then (.error error : Except Chars (List Chars))
      else .ok (values.map build)) = .ok scopes ∧ ∀ scope ∈ scopes, token scope) ∧
      ∃ text ∈ scopes, p text) ↔
    ∃ value ∈ values, (∀ other ∈ values, token (build other)) ∧ p (build value)
  := by
  cases values with
  | nil =>
    apply iff_of_false
    · rintro ⟨scopes, ⟨h, -⟩, -⟩
      cases h
    · rintro ⟨value, hvalue, -⟩
      cases hvalue
  | cons first values =>
    rw [List.isEmpty_cons, if_neg Bool.false_ne_true]
    constructor
    · rintro ⟨scopes, ⟨h, htokens⟩, text, htext, hp⟩
      cases h
      obtain ⟨value, hvalue, rfl⟩ := List.mem_map.mp htext
      exact ⟨value, hvalue, List.forall_mem_map.mp htokens, hp⟩
    · rintro ⟨value, hvalue, htokens, hp⟩
      exact ⟨_, ⟨rfl, List.forall_mem_map.mpr htokens⟩, _, List.mem_map_of_mem hvalue, hp⟩

/-- The scopes of a permission for a repository mention the collections that it spells. -/
theorem grants_repo {perm : Json} {nsid : Chars} {includeAud : Option Chars} {name : Chars}
    (hresource : fieldStr "resource" perm = some "repo".toList) :
  Grants perm nsid includeAud name ↔
    ∃ collection ∈ listField "collection" perm,
      (∀ other ∈ listField "collection" perm, Clean other ∧ Clean (actionQuery perm)) ∧
      TextMentions name ("repo:".toList ++ (collection ++ '?' :: actionQuery perm))
  := by
  have hbuilt : builtScopes perm nsid includeAud = repoScopes perm := by
    rw [builtScopes, hresource]
    rfl
  have htoken : ∀ a, isScopeToken ("repo:".toList ++ (a ++ '?' :: actionQuery perm)) = true ↔
      Clean a ∧ Clean (actionQuery perm) := fun a => isScopeToken_built (by decide)
  simp only [Grants, scopesForPermission_eq_ok, hbuilt, repoScopes, exists_listed, htoken]

theorem rpcAudience_eq_ok {perm : Json} {nsid : Chars} {includeAud : Option Chars} {aud : Chars} :
  rpcAudience perm nsid includeAud = .ok aud ↔ Inherits perm includeAud aud
  := by
  rw [rpcAudience]
  cases hown : (fieldStr "aud" perm).filter fun aud => decide (aud ≠ ['*']) with
  | some own =>
    obtain ⟨hfield, hne⟩ := Option.filter_eq_some_iff.mp hown
    apply iff_of_false
    · intro h
      cases h
    · intro h
      exact of_decide_eq_true hne (h.own own hfield)
  | none =>
    have hstar : ∀ own, fieldStr "aud" perm = some own → own = ['*'] := by
      intro own hfield
      have hnot := Option.filter_eq_none_iff.mp hown own hfield
      simpa using hnot
    by_cases hinherits : ((perm.get (textOf "inheritAud")).bind asBool).getD false = true
    · have hbool : (perm.get (textOf "inheritAud")).bind asBool = some true := by
        cases hvalue : (perm.get (textOf "inheritAud")).bind asBool with
        | none =>
          rw [hvalue] at hinherits
          cases hinherits
        | some value =>
          rw [hvalue] at hinherits
          exact congrArg some hinherits
      rw [if_pos hinherits]
      cases hrequest : includeAud.filter fun aud => !aud.isEmpty with
      | some given =>
        obtain ⟨hsome, hgiven⟩ := Option.filter_eq_some_iff.mp hrequest
        have hne : given ≠ [] := by simpa using hgiven
        constructor
        · intro h
          cases h
          exact ⟨hstar, hbool, hsome, hne⟩
        · intro h
          cases hsome.symm.trans h.request
          rfl
      | none =>
        apply iff_of_false
        · intro h
          cases h
        · intro h
          have hnot := Option.filter_eq_none_iff.mp hrequest aud h.request
          exact h.given (by simpa using hnot)
    · rw [if_neg hinherits]
      apply iff_of_false
      · intro h
        cases h
      · intro h
        apply hinherits
        rw [h.inherits]
        rfl

/-- The scopes of a permission for calls mention the methods that it spells. -/
theorem grants_rpc {perm : Json} {nsid : Chars} {includeAud : Option Chars} {name : Chars}
    (hresource : fieldStr "resource" perm = some "rpc".toList) :
  Grants perm nsid includeAud name ↔
    ∃ aud, Inherits perm includeAud aud ∧ ∃ lxm ∈ listField "lxm" perm,
      (∀ other ∈ listField "lxm" perm, Clean other ∧ Clean ("aud=".toList ++ aud)) ∧
      TextMentions name ("rpc:".toList ++ (lxm ++ '?' :: ("aud=".toList ++ aud)))
  := by
  have hbuilt : builtScopes perm nsid includeAud = rpcScopes perm nsid includeAud := by
    rw [builtScopes, hresource]
    rfl
  have htoken : ∀ a aud, isScopeToken ("rpc:".toList ++ (a ++ '?' :: ("aud=".toList ++ aud))) =
      true ↔ Clean a ∧ Clean ("aud=".toList ++ aud) := fun a aud => isScopeToken_built (by decide)
  simp only [Grants, scopesForPermission_eq_ok, hbuilt, rpcScopes, Logic.bind_eq_ok, ← htoken]
  constructor
  · rintro ⟨scopes, ⟨⟨aud, haud, hscopes⟩, htokens⟩, hname⟩
    exact ⟨aud, rpcAudience_eq_ok.mp haud,
      (exists_listed (rpcScope aud) _ _).mp ⟨scopes, ⟨hscopes, htokens⟩, hname⟩⟩
  · rintro ⟨aud, haud, hlisted⟩
    obtain ⟨scopes, ⟨hscopes, htokens⟩, hname⟩ :=
      (exists_listed (rpcScope aud) (fun text => isScopeToken text = true) _).mpr hlisted
    exact ⟨scopes, ⟨⟨aud, rpcAudience_eq_ok.mpr haud, hscopes⟩, htokens⟩, hname⟩

/-- The query of a scope for spaces names actions at least. -/
theorem spaceParams_isEmpty (perm : Json) :
  (spaceParams perm).isEmpty = false
  := by
  have hactions : orElse (listField "action" perm) spaceActions ≠ [] := by
    rw [orElse]
    split_ifs with hempty
    · decide
    · exact fun h => hempty (List.isEmpty_iff.mpr h)
  rw [List.isEmpty_eq_false_iff, spaceParams]
  simp [queryOf, hactions]

theorem spaceScopes_eq_ok {perm : Json} {scopes : List Chars} :
  spaceScopes perm = .ok scopes ↔
    ∃ type, fieldStr "spaceType" perm = some type ∧ type ≠ [] ∧ type ≠ ['*'] ∧
      badVerb perm = none ∧
      scopes = ["space:".toList ++ (type ++ '?' :: join '&' (spaceParams perm))]
  := by
  rw [spaceScopes]
  cases htype : (fieldStr "spaceType" perm).filter fun type => !type.isEmpty with
  | none =>
    apply iff_of_false
    · intro h
      cases h
    · rintro ⟨type, hfield, hne, -⟩
      have hnot := Option.filter_eq_none_iff.mp htype type hfield
      exact hne (by simpa using hnot)
  | some type =>
    obtain ⟨hfield, hgiven⟩ := Option.filter_eq_some_iff.mp htype
    have hne : type ≠ [] := by simpa using hgiven
    by_cases hstar : type = ['*']
    · apply iff_of_false
      · intro h
        cases (if_pos hstar).symm.trans h
      · rintro ⟨other, hother, -, hnot, -⟩
        cases hfield.symm.trans hother
        exact hnot hstar
    · change (if type = ['*'] then _ else _) = _ ↔ _
      rw [if_neg hstar]
      cases hverb : badVerb perm with
      | some verb =>
        apply iff_of_false
        · intro h
          cases h
        · rintro ⟨other, -, -, -, hverbs, -⟩
          cases hverbs
      | none =>
        have hparams : (spaceParams perm).isEmpty ≠ true := by
          rw [spaceParams_isEmpty]
          exact Bool.false_ne_true
        change Except.ok ["space:".toList ++ if (spaceParams perm).isEmpty then _ else _] = _ ↔ _
        rw [if_neg hparams]
        constructor
        · intro h
          cases h
          exact ⟨type, hfield, hne, hstar, rfl, rfl⟩
        · rintro ⟨other, hother, -, -, -, rfl⟩
          cases hfield.symm.trans hother
          rfl

/-- The scope of a permission for spaces mentions the type that it spells. -/
theorem grants_space {perm : Json} {nsid : Chars} {includeAud : Option Chars} {name : Chars}
    (hresource : fieldStr "resource" perm = some "space".toList) :
  Grants perm nsid includeAud name ↔
    ∃ type, fieldStr "spaceType" perm = some type ∧ type ≠ [] ∧ type ≠ ['*'] ∧
      badVerb perm = none ∧ (Clean type ∧ Clean (join '&' (spaceParams perm))) ∧
      TextMentions name ("space:".toList ++ (type ++ '?' :: join '&' (spaceParams perm)))
  := by
  have hbuilt : builtScopes perm nsid includeAud = spaceScopes perm := by
    rw [builtScopes, hresource]
    rfl
  have htoken : ∀ a b, isScopeToken ("space:".toList ++ (a ++ '?' :: b)) = true ↔
      Clean a ∧ Clean b := fun a b => isScopeToken_built (by decide)
  simp only [Grants, scopesForPermission_eq_ok, hbuilt, spaceScopes_eq_ok]
  constructor
  · rintro ⟨scopes, ⟨⟨type, htype, hne, hstar, hverbs, rfl⟩, htokens⟩, text, htext, hname⟩
    rw [List.forall_mem_singleton, htoken] at htokens
    rw [List.mem_singleton.mp htext] at hname
    exact ⟨type, htype, hne, hstar, hverbs, htokens, hname⟩
  · rintro ⟨type, htype, hne, hstar, hverbs, hclean, hname⟩
    refine ⟨_, ⟨⟨type, htype, hne, hstar, hverbs, rfl⟩, ?_⟩, _, List.mem_singleton_self _, hname⟩
    rw [List.forall_mem_singleton, htoken]
    exact hclean

/-- A permission for blobs mentions nothing. -/
theorem not_grants_blob {perm : Json} {nsid : Chars} {includeAud : Option Chars} {name : Chars}
    (hresource : fieldStr "resource" perm = some "blob".toList) :
  ¬ Grants perm nsid includeAud name
  := by
  rintro ⟨scopes, hscopes, text, htext, scope, hscope, hname⟩
  have hbuilt : builtScopes perm nsid includeAud = .ok (blobScopes perm) := by
    rw [builtScopes, hresource]
    rfl
  obtain ⟨suffix, rfl⟩ : ∃ suffix, text = "blob:".toList ++ suffix := by
    cases hbuilt.symm.trans (scopesForPermission_eq_ok.mp hscopes).1
    rw [blobScopes] at htext
    split_ifs at htext with hempty
    · exact ⟨"*/*".toList, List.mem_singleton.mp htext⟩
    · obtain ⟨mime, -, rfl⟩ := List.mem_map.mp htext
      exact ⟨mime, rfl⟩
  rw [parse_blob, parseBlob] at hscope
  split_ifs at hscope with hhead
  · obtain ⟨accept, -, hscope⟩ := Logic.bind_eq_ok.mp hscope
    cases hscope
    exact hname
  · obtain ⟨pattern, -, hscope⟩ := Logic.bind_eq_ok.mp hscope
    cases hscope
    exact hname

/-- A permission of another kind is not granted. -/
theorem resource_of_grants {perm : Json} {nsid : Chars} {includeAud : Option Chars} {name : Chars}
    (h : Grants perm nsid includeAud name) :
  fieldStr "resource" perm = some "repo".toList ∨ fieldStr "resource" perm = some "rpc".toList ∨
    fieldStr "resource" perm = some "space".toList
  := by
  obtain ⟨scopes, hscopes, -⟩ := id h
  have hbuilt := (scopesForPermission_eq_ok.mp hscopes).1
  rw [builtScopes] at hbuilt
  cases hresource : fieldStr "resource" perm with
  | none =>
    rw [hresource] at hbuilt
    cases hbuilt
  | some resource =>
    rw [hresource] at hbuilt
    simp only at hbuilt
    split_ifs at hbuilt with hrepo hblob hrpc hspace
    · exact .inl (congrArg some hrepo)
    · rw [hblob] at hresource
      exact absurd h (not_grants_blob hresource)
    · exact .inr (.inl (congrArg some hrpc))
    · exact .inr (.inr (congrArg some hspace))

theorem textMentions_space {suffix positional query name : Chars}
    (hsplit : splitFirst '?' suffix = some (positional, query)) :
  TextMentions name ("space:".toList ++ suffix) ↔
    (∃ permission, SpacePermission.parseSuffix (some suffix) = .ok permission) ∧
      positional = name
  := by
  rw [TextMentions, parse_space]
  constructor
  · rintro ⟨scope, hscope, hname⟩
    cases hpermission : SpacePermission.parseSuffix (some suffix) with
    | error e =>
      rw [hpermission] at hscope
      cases hscope
    | ok permission =>
      rw [hpermission] at hscope
      cases hscope
      exact ⟨⟨permission, rfl⟩, (spaceType_of_parseSuffix hsplit hpermission).symm.trans hname⟩
  · rintro ⟨⟨permission, hpermission⟩, rfl⟩
    rw [hpermission]
    exact ⟨_, rfl, spaceType_of_parseSuffix hsplit hpermission⟩

/-- The scopes of a permission mention exactly the names that it spells. -/
theorem grants_iff_spells {perm : Json} {nsid : Chars} {includeAud : Option Chars}
    {name : Chars} :
  Grants perm nsid includeAud name ↔ Spells perm includeAud name
  := by
  have haud : ∀ aud, Clean ("aud=".toList ++ aud) ↔ Clean aud := by
    intro aud
    rw [Clean, List.forall_mem_append]
    exact and_iff_right (clean_of_all (by decide))
  constructor
  · intro h
    rcases resource_of_grants h with hresource | hresource | hresource
    · obtain ⟨collection, hmem, hclean, hname⟩ := (grants_repo hresource).mp h
      obtain ⟨positional, query, hsplit⟩ := exists_splitFirst_mark collection (actionQuery perm)
      obtain ⟨hactions, hname⟩ := (textMentions_repo hsplit).mp hname
      exact .collection hresource hmem (fun other hother => (hclean other hother).1)
        (hclean collection hmem).2 hsplit hactions hname
    · obtain ⟨aud, hinherits, lxm, hmem, hclean, hname⟩ := (grants_rpc hresource).mp h
      obtain ⟨positional, query, hsplit⟩ := exists_splitFirst_mark lxm ("aud=".toList ++ aud)
      exact .method hresource hinherits hmem (fun other hother => (hclean other hother).1)
        ((haud aud).mp (hclean lxm hmem).2) hsplit ((textMentions_rpc hsplit).mp hname)
    · obtain ⟨type, htype, hempty, hstar, hverbs, hclean, hname⟩ := (grants_space hresource).mp h
      obtain ⟨positional, query, hsplit⟩ := exists_splitFirst_mark type (join '&' (spaceParams perm))
      obtain ⟨⟨permission, hformed⟩, rfl⟩ := (textMentions_space hsplit).mp hname
      exact .spaceType hresource htype hempty hstar hverbs hclean.1 hclean.2 hsplit hformed
  · intro h
    cases h with
    | collection hresource hmem hclean hquery hsplit hactions hname =>
      apply (grants_repo hresource).mpr
      exact ⟨_, hmem, fun other hother => ⟨hclean other hother, hquery⟩,
        (textMentions_repo hsplit).mpr ⟨hactions, hname⟩⟩
    | method hresource hinherits hmem hclean hquery hsplit hname =>
      apply (grants_rpc hresource).mpr
      exact ⟨_, hinherits, _, hmem, fun other hother => ⟨hclean other hother, (haud _).mpr hquery⟩,
        (textMentions_rpc hsplit).mpr hname⟩
    | spaceType hresource htype hempty hstar hverbs hclean hquery hsplit hformed =>
      apply (grants_space hresource).mpr
      exact ⟨_, htype, hempty, hstar, hverbs, ⟨hclean, hquery⟩,
        (textMentions_space hsplit).mpr ⟨⟨_, hformed⟩, rfl⟩⟩

/-- The scopes of an expanded permission set stay in the namespace of the set exactly when no
permission of the document spells a name outside of it. -/
theorem expand_within_iff {resolve : Chars → Option Json} {raw : Chars} {inc : IncludeScope}
    (hraw : ∀ c ∈ raw, isWhitespace c = false)
    (hparse : Scope.parse raw = .ok (.includeSet inc)) :
  (∀ scope ∈ grantedScopes (expand (some resolve) raw), ∀ name, Mentions name scope →
    permissionWithinAuthority name inc.nsid = true) ↔
  ∀ doc, resolve inc.nsid = some doc → ∀ perm ∈ declaredPermissions doc inc.nsid,
    ∀ name, Spells perm inc.aud name → permissionWithinAuthority name inc.nsid = true
  := by
  constructor
  · intro h doc hdoc perm hperm name hspells
    obtain ⟨scopes, hscopes, text, htext, scope, hscope, hname⟩ :=
      (@grants_iff_spells perm inc.nsid inc.aud name).mpr hspells
    apply h scope _ name hname
    apply (mem_grantedScopes_expand hraw hparse).mpr
    exact .inr ⟨doc, hdoc, text, mem_permissionsFrom.mpr ⟨perm, hperm, scopes, hscopes, htext⟩,
      hscope⟩
  · intro h scope hscope name hname
    rcases (mem_grantedScopes_expand hraw hparse).mp hscope with rfl | ⟨doc, hdoc, text, htext, hread⟩
    · exact absurd hname not_false
    · obtain ⟨perm, hperm, scopes, hscopes, hmem⟩ := mem_permissionsFrom.mp htext
      apply h doc hdoc perm hperm name
      exact grants_iff_spells.mp ⟨scopes, hscopes, text, hmem, scope, hread, hname⟩

/-! ### A set that grants the records of another -/

theorem charsOf_textOf (string : String) :
  charsOf (textOf string) = string.toList
  := rfl

/-- A permission for every action on the records of one collection. -/
def repoPermission (collection : String) : Json :=
  .object [(textOf "collection", .string (textOf collection)),
    (textOf "resource", .string (textOf "repo"))]

/-- A document with one permission. -/
def setDocument (perm : Json) : Json :=
  .object [(textOf "defs", .object [(textOf "main",
    .object [(textOf "permissions", .array [perm]),
      (textOf "type", .string (textOf "permission-set"))])])]

theorem repoPermission_resource (collection : String) :
  fieldStr "resource" (repoPermission collection) = some "repo".toList
  := congrArg some (charsOf_textOf "repo")

theorem repoPermission_collection (collection : String) :
  listField "collection" (repoPermission collection) = [collection.toList]
  := congrArg (fun text => [text]) (charsOf_textOf collection)

theorem declaredPermissions_setDocument (perm : Json) (nsid : Chars) :
  declaredPermissions (setDocument perm) nsid = [perm]
  := by
  have htype : fieldStr "type" (.object [(textOf "permissions", .array [perm]),
      (textOf "type", .string (textOf "permission-set"))]) = some "permission-set".toList :=
    congrArg some (charsOf_textOf "permission-set")
  have hid : fieldStr "id" (setDocument perm) = none := rfl
  rw [declaredPermissions, hid]
  exact if_neg (not_not.mpr htype)

/-- The permission spells its collection alone. -/
theorem repoPermission_spells {collection : String} (hmark : '?' ∉ collection.toList)
    (hne : collection.toList ≠ []) (hclean : Clean collection.toList) {includeAud : Option Chars}
    {name : Chars} :
  Spells (repoPermission collection) includeAud name ↔ name = collection.toList
  := by
  have hquery : actionQuery (repoPermission collection) =
      "action=create&action=update&action=delete".toList := rfl
  have hvalues : ∀ value ∈ queryValues "action".toList
      (parseQueryString "action=create&action=update&action=delete".toList),
      (RepoAction.fromWire value).isSome := by decide
  have hnames : queryValues "collection".toList
      (parseQueryString "action=create&action=update&action=delete".toList) = [] := by decide
  have hpositional : positionalOf collection.toList = [collection.toList] := by
    rw [positionalOf, List.isEmpty_eq_false_iff.mpr hne]
    exact if_neg Bool.false_ne_true
  constructor
  · intro h
    cases h with
    | collection hresource hmem _ _ hsplit _ hname =>
      rw [repoPermission_collection, List.mem_singleton] at hmem
      rw [hmem, hquery, splitFirst_append hmark] at hsplit
      cases hsplit
      rw [hnames, hpositional] at hname
      exact List.mem_singleton.mp hname
    | method hresource =>
      rw [repoPermission_resource] at hresource
      exact absurd hresource (by decide)
    | spaceType hresource =>
      rw [repoPermission_resource] at hresource
      exact absurd hresource (by decide)
  · rintro rfl
    apply Spells.collection (repoPermission_resource collection)
    · rw [repoPermission_collection]
      exact List.mem_singleton_self _
    · rw [repoPermission_collection]
      exact List.forall_mem_singleton.mpr hclean
    · rw [hquery]
      exact clean_of_all (by decide)
    · rw [hquery]
      exact splitFirst_append hmark _
    · exact hvalues
    · rw [hnames, hpositional]
      exact List.mem_singleton_self _

theorem expand_within_sample :
  Scope.parse "include:app.example.access".toList =
    .ok (.includeSet { nsid := "app.example.access".toList, aud := none }) ∧
  ∀ scope ∈ grantedScopes (expand (some fun _ => some (setDocument (repoPermission
    "app.example.note"))) "include:app.example.access".toList), ∀ name, Mentions name scope →
    permissionWithinAuthority name "app.example.access".toList = true
  := by
  use rfl
  apply (@expand_within_iff _ _ { nsid := "app.example.access".toList, aud := none }
    (not_whitespace_of_all (by decide)) rfl).mpr
  intro doc hdoc perm hperm name hspells
  cases hdoc
  rw [declaredPermissions_setDocument, List.mem_singleton] at hperm
  rw [hperm, repoPermission_spells (by decide) (by decide) (clean_of_all (by decide))] at hspells
  rw [hspells]
  decide

/-- A set grants the records of another namespace. -/
theorem expand_not_within :
  ∃ scope ∈ grantedScopes (expand (some fun _ => some (setDocument (repoPermission
    "com.yourbank.records"))) "include:app.evil.authFull".toList),
    Mentions "com.yourbank.records".toList scope ∧
    permissionWithinAuthority "com.yourbank.records".toList "app.evil.authFull".toList = false
  := by
  have hspells : Spells (repoPermission "com.yourbank.records") none
      "com.yourbank.records".toList := by
    rw [repoPermission_spells (by decide) (by decide) (clean_of_all (by decide))]
  obtain ⟨scopes, hscopes, text, htext, scope, hscope, hname⟩ :=
    (@grants_iff_spells _ "app.evil.authFull".toList _ _).mpr hspells
  refine ⟨scope, ?_, hname, by decide⟩
  apply (@mem_grantedScopes_expand _ _ { nsid := "app.evil.authFull".toList, aud := none }
    (not_whitespace_of_all (by decide)) rfl _).mpr
  refine .inr ⟨_, rfl, text, ?_, hscope⟩
  apply mem_permissionsFrom.mpr ⟨_, _, scopes, hscopes, htext⟩
  rw [declaredPermissions_setDocument]
  exact List.mem_singleton_self _

end Atproto.Pds
