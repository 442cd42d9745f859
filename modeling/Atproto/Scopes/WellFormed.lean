import Atproto.Logic.Action
import Atproto.Scopes.Needed

/-!
# Scopes that have been read

A value of a query has no ampersand, and a positional value has no question mark.  So the parts of a scope
that has been read are restricted by where they can stand.
-/

namespace Atproto.Scopes

open Wire

/-! ### Values -/

theorem not_mem_of_splitFirst {separator a : Char} {text before behind : Chars}
    (h : splitFirst separator text = some (before, behind)) (ha : a ∉ text) :
  a ∉ behind
  := by
  obtain ⟨rfl, -⟩ := splitFirst_eq_some.mp h
  exact fun hmem => ha (List.mem_append_right _ (List.mem_cons_of_mem _ hmem))

theorem not_mem_of_mem_splitOn {separator : Char} {text part : Chars}
    (h : part ∈ text.splitOn separator) :
  separator ∉ part
  := by
  induction text generalizing part with
  | nil =>
    rw [List.splitOn_nil, List.mem_singleton] at h
    rw [h]
    exact List.not_mem_nil
  | cons c text ih =>
    rw [List.splitOn_cons_eq_if_modifyHead] at h
    split_ifs at h with hc
    · rcases List.mem_cons.mp h with rfl | hmem
      · exact List.not_mem_nil
      · exact ih hmem
    · cases hparts : text.splitOn separator with
      | nil =>
        rw [hparts] at h
        cases h
      | cons first parts =>
        rw [hparts] at h ih
        rcases List.mem_cons.mp h with rfl | hmem
        · intro hmem
          rcases List.mem_cons.mp hmem with heq | hmem
          · exact hc (beq_iff_eq.mpr heq.symm)
          · exact ih List.mem_cons_self hmem
        · exact ih (List.mem_cons_of_mem _ hmem)

/-- A value of a query has no ampersand. -/
theorem not_mem_of_queryValues {key value query : Chars}
    (h : value ∈ queryValues key (parseQueryString query)) :
  '&' ∉ value
  := by
  obtain ⟨pair, hpair, rfl⟩ := List.mem_map.mp h
  obtain ⟨part, hpart, hsplit⟩ := List.mem_filterMap.mp (List.mem_of_mem_filter hpair)
  exact not_mem_of_splitFirst hsplit (not_mem_of_mem_splitOn hpart)

theorem not_mem_of_valuesOf {key value : Chars} {query : Option Chars}
    (h : value ∈ valuesOf key query) :
  '&' ∉ value
  := by
  cases query with
  | none => cases h
  | some query => exact not_mem_of_queryValues h

/-- A positional value has no question mark. -/
theorem not_mem_splitQuery (suffix : Chars) :
  '?' ∉ (splitQuery suffix).1
  := by
  rw [splitQuery]
  cases h : splitFirst '?' suffix with
  | none => exact splitFirst_eq_none.mp h
  | some parts => exact (splitFirst_eq_some.mp h).2

/-- A name among patterns that are read is one of the values, and not the star. -/
theorem only_mem_parse {values : List Chars} {name : Chars}
    (h : .only name ∈ (values.map Pattern.parse).toFinset) :
  name ∈ values ∧ name ≠ ['*']
  := by
  obtain ⟨value, hvalue, hparse⟩ := List.mem_map.mp (List.mem_toFinset.mp h)
  rw [Pattern.parse] at hparse
  split_ifs at hparse with hstar
  obtain rfl := Pattern.only.inj hparse
  exact ⟨hvalue, hstar⟩

theorem only_mem_orAll {patterns : Finset Pattern} {name : Chars} (h : .only name ∈ orAll patterns) :
  .only name ∈ patterns
  := by
  rw [orAll] at h
  split_ifs at h
  · cases Finset.mem_singleton.mp h
  · exact h

theorem orAll_ne_empty (patterns : Finset Pattern) :
  orAll patterns ≠ ∅
  := by
  rw [orAll]
  split_ifs with h
  · exact Finset.singleton_ne_empty _
  · exact h

/-- A name that stands in a query, and a name among those of a query. -/
theorem only_mem_orAll_valuesOf {key : Chars} {query : Option Chars} {name : Chars}
    (h : .only name ∈ orAll ((valuesOf key query).map Pattern.parse).toFinset) :
  '&' ∉ name ∧ name ≠ ['*']
  := by
  obtain ⟨hvalue, hstar⟩ := only_mem_parse (only_mem_orAll h)
  exact ⟨not_mem_of_valuesOf hvalue, hstar⟩

/-! ### Each kind -/

/-- Patterns are read as they are written. One is not the start of a query, or no pattern ends an item. -/
structure BlobScope.WellFormed (scope : BlobScope) : Prop where
  accept : scope.accept ≠ ∅
  text : ∀ pattern ∈ scope.accept, MimePattern.fromStr pattern.text = .ok pattern
  place : (∃ pattern, scope.accept = {pattern} ∧ pattern.text.head? ≠ some '?') ∨
    ∀ pattern ∈ scope.accept, '&' ∉ pattern.text

/-- A name stands in a query, or in front of it. -/
structure RepoScope.WellFormed (scope : RepoScope) : Prop where
  collections : scope.collections ≠ ∅
  actions : scope.actions ≠ ∅
  name : ∀ name, .only name ∈ scope.collections → name ≠ ['*'] ∧ ('&' ∉ name ∨ '?' ∉ name)

/-- One method stands in front of the query, or the methods stand in it. -/
structure RpcScope.WellFormed (scope : RpcScope) : Prop where
  lxm : scope.lxm ≠ ∅
  aud : scope.aud ≠ ∅
  place : (∃ nsid, scope.lxm = {.only nsid} ∧ '?' ∉ nsid) ∨
    ∀ nsid, .only nsid ∈ scope.lxm → '&' ∉ nsid ∧ nsid ≠ ['*']
  did : ∀ did, .only did ∈ scope.aud → '&' ∉ did ∧ did ≠ ['*']

/-- A permission set has a name, which stands in front of the query. -/
structure IncludeScope.WellFormed (scope : IncludeScope) : Prop where
  nsid_ne_nil : scope.nsid ≠ []
  nsid : '?' ∉ scope.nsid
  aud : ∀ aud, scope.aud = some aud → aud.all isScopeChar = true

/-- What holds of a scope that has been read. -/
def Scope.WellFormed : Scope → Prop
  | .blob scope => scope.WellFormed
  | .repo scope => scope.WellFormed
  | .rpc scope => scope.WellFormed
  | .space scope => scope.Plain ∧ scope.reread = scope
  | .includeSet scope => scope.WellFormed
  | .account _ => True
  | .identity _ => True
  | .atproto => True
  | .transition _ => True
  | .openId => True
  | .profile => True
  | .email => True

theorem MimePattern.fromStr_text {value : Chars} {pattern : MimePattern}
    (h : fromStr value = .ok pattern) :
  pattern.text = value
  := by
  rw [fromStr] at h
  by_cases hall : value = "*/*".toList
  · rw [if_pos hall] at h
    cases h
    exact hall.symm
  · rw [if_neg hall] at h
    cases hstrip : stripWildcard value with
    | some type =>
      rw [hstrip] at h
      cases h
      rw [stripWildcard, Option.map_eq_some_iff] at hstrip
      obtain ⟨front, hfront, rfl⟩ := hstrip
      have hvalue := congrArg List.reverse (stripFront_eq_some.mp hfront)
      rw [List.reverse_reverse, List.reverse_append] at hvalue
      exact hvalue.symm
    | none =>
      rw [hstrip] at h
      dsimp only at h
      split_ifs at h
      cases h
      rfl

theorem parseMimePatterns_mem {values : List Chars} {accept : Finset MimePattern}
    (h : parseMimePatterns values = .ok accept) {pattern : MimePattern} (hpattern : pattern ∈ accept) :
  ∃ value ∈ values, MimePattern.fromStr value = .ok pattern
  := by
  induction values generalizing accept with
  | nil =>
    cases h
    cases hpattern
  | cons value values ih =>
    rw [parseMimePatterns] at h
    cases hvalue : MimePattern.fromStr value with
    | error error =>
      rw [hvalue] at h
      cases h
    | ok first =>
      rw [hvalue] at h
      cases hrest : parseMimePatterns values with
      | error error =>
        rw [hrest] at h
        cases h
      | ok rest =>
        rw [hrest] at h
        cases h
        rcases Finset.mem_insert.mp hpattern with rfl | hmem
        · exact ⟨value, List.mem_cons_self, hvalue⟩
        · obtain ⟨other, hother, hread⟩ := ih hrest hmem
          exact ⟨other, List.mem_cons_of_mem _ hother, hread⟩

theorem wellFormed_orAllTypes {values : List Chars} {accept : Finset MimePattern}
    (h : parseMimePatterns values = .ok accept) (hvalues : ∀ value ∈ values, '&' ∉ value) :
  BlobScope.WellFormed { accept := orAllTypes accept }
  := by
  rw [orAllTypes]
  split_ifs with hempty
  · refine ⟨Finset.singleton_ne_empty _, ?_, .inl ⟨.all, rfl, by decide⟩⟩
    intro pattern hpattern
    obtain rfl := Finset.mem_singleton.mp hpattern
    rfl
  · refine ⟨hempty, ?_, .inr ?_⟩
    · intro pattern hpattern
      obtain ⟨value, -, hread⟩ := parseMimePatterns_mem h hpattern
      rw [MimePattern.fromStr_text hread]
      exact hread
    · intro pattern hpattern
      obtain ⟨value, hvalue, hread⟩ := parseMimePatterns_mem h hpattern
      rw [MimePattern.fromStr_text hread]
      exact hvalues value hvalue

theorem wellFormed_parseBlob {suffix : Option Chars} {scope : Scope}
    (h : parseBlob suffix = .ok scope) :
  scope.WellFormed
  := by
  cases suffix with
  | none =>
    cases h
    have hnone : parseMimePatterns [] = .ok ∅ := rfl
    apply wellFormed_orAllTypes hnone
    intro value hvalue
    cases hvalue
  | some suffix =>
    rw [parseBlob] at h
    split_ifs at h with hquery
    · cases haccept : parseMimePatterns (valuesOf "accept".toList (some (suffix.drop 1))) with
      | error error =>
        rw [haccept] at h
        cases h
      | ok accept =>
        rw [haccept] at h
        cases h
        exact wellFormed_orAllTypes haccept fun value hvalue => not_mem_of_valuesOf hvalue
    · cases hpattern : MimePattern.fromStr suffix with
      | error error =>
        rw [hpattern] at h
        cases h
      | ok pattern =>
        rw [hpattern] at h
        cases h
        have htext := MimePattern.fromStr_text hpattern
        refine ⟨Finset.singleton_ne_empty _, ?_, .inl ⟨pattern, rfl, ?_⟩⟩
        · intro other hother
          obtain rfl := Finset.mem_singleton.mp hother
          rw [htext]
          exact hpattern
        · rw [htext]
          exact hquery

theorem orEvery_ne_empty (actions : Finset RepoAction) :
  orEvery actions ≠ ∅
  := by
  rw [orEvery]
  split_ifs with h
  · decide
  · exact h

theorem wellFormed_parseRepo {suffix : Option Chars} {scope : Scope}
    (h : parseRepo suffix = .ok scope) :
  scope.WellFormed
  := by
  rw [parseRepo] at h
  dsimp only at h
  cases hactions : parseRepoActions (valuesOf "action".toList (splitQuery (suffix.getD [])).2) with
  | error error =>
    rw [hactions] at h
    cases h
  | ok actions =>
    rw [hactions] at h
    cases h
    refine ⟨orAll_ne_empty _, orEvery_ne_empty _, ?_⟩
    intro name hname
    obtain ⟨hvalue, hstar⟩ := only_mem_parse (only_mem_orAll hname)
    refine ⟨hstar, ?_⟩
    rw [repoCollections, positionalOf] at hvalue
    rcases List.mem_append.mp hvalue with hmem | hmem
    · split_ifs at hmem
      · cases hmem
      · rw [List.mem_singleton.mp hmem]
        exact .inr (not_mem_splitQuery _)
    · exact .inl (not_mem_of_valuesOf hmem)

/-- The methods of a query stand in it. -/
theorem wellFormed_rpc_query (query : Option Chars) :
  RpcScope.WellFormed {
    lxm := orAll ((valuesOf "lxm".toList query).map Pattern.parse).toFinset
    aud := orAll ((valuesOf "aud".toList query).map Pattern.parse).toFinset }
  := ⟨orAll_ne_empty _, orAll_ne_empty _, .inr fun _ h => only_mem_orAll_valuesOf h,
    fun _ h => only_mem_orAll_valuesOf h⟩

theorem wellFormed_parseRpc (suffix : Option Chars) :
  (parseRpc suffix).WellFormed
  := by
  cases suffix with
  | none => exact wellFormed_rpc_query none
  | some suffix =>
    rw [parseRpc]
    split_ifs
    · exact wellFormed_rpc_query none
    · exact wellFormed_rpc_query _
    · exact ⟨Finset.singleton_ne_empty _, orAll_ne_empty _,
        .inl ⟨_, rfl, not_mem_splitQuery _⟩, fun _ h => only_mem_orAll_valuesOf h⟩

theorem wellFormed_parseInclude {suffix : Option Chars} {scope : Scope}
    (h : parseInclude suffix = .ok scope) :
  scope.WellFormed
  := by
  cases suffix with
  | none => cases h
  | some suffix =>
    rw [parseInclude] at h
    dsimp only at h
    split_ifs at h with hempty
    cases hcheck : checkAudience
        ((firstValue "aud".toList (splitQuery suffix).2).map urlDecode) with
    | error error =>
      rw [hcheck] at h
      cases h
    | ok checked =>
      rw [hcheck] at h
      cases h
      refine ⟨mt List.isEmpty_iff.mpr hempty, not_mem_splitQuery _, ?_⟩
      intro aud haud
      dsimp only at haud
      rw [haud, checkAudience] at hcheck
      split_ifs at hcheck with hbad
      rw [Bool.and_eq_true, Bool.not_eq_true', Bool.not_eq_true', not_and, isScopeToken] at hbad
      cases aud with
      | nil => rfl
      | cons c aud =>
        have htoken := eq_true_of_ne_false (hbad rfl)
        exact (Bool.and_eq_true_iff.mp htoken).2

/-! ### Scopes for spaces -/

namespace SpacePermission

theorem parseParams_mem {pairs : List Chars} {params : List (Chars × Chars)}
    (h : parseParams pairs = .ok params) (hpairs : ∀ pair ∈ pairs, '&' ∉ pair) :
  ∀ param ∈ params, '&' ∉ param.2
  := by
  induction pairs generalizing params with
  | nil =>
    cases h
    nofun
  | cons pair pairs ih =>
    rw [parseParams] at h
    cases hsplit : splitFirst '=' pair with
    | none =>
      rw [hsplit] at h
      cases h
    | some first =>
      rw [hsplit] at h
      dsimp only at h
      cases hrest : parseParams pairs with
      | error error =>
        rw [hrest] at h
        cases h
      | ok rest =>
        rw [hrest] at h
        cases h
        intro param hparam
        rcases List.mem_cons.mp hparam with rfl | hmem
        · exact not_mem_of_splitFirst hsplit (hpairs pair List.mem_cons_self)
        · exact ih hrest (fun other hother => hpairs other (List.mem_cons_of_mem _ hother)) param hmem

theorem paramsOf_mem {query : Option Chars} {params : List (Chars × Chars)}
    (h : paramsOf query = .ok params) (key : Chars) :
  ∀ value ∈ queryValues key params, '&' ∉ value
  := by
  have hparams : ∀ param ∈ params, '&' ∉ param.2 := by
    cases query with
    | none =>
      cases h
      nofun
    | some query =>
      rw [paramsOf] at h
      split_ifs at h
      · cases h
        nofun
      · exact parseParams_mem h fun pair hpair => not_mem_of_mem_splitOn hpair
  intro value hvalue
  obtain ⟨param, hparam, rfl⟩ := List.mem_map.mp hvalue
  exact hparams param (List.mem_of_mem_filter hparam)

theorem singleParam_mem {key value : Chars} {params : List (Chars × Chars)}
    (h : singleParam key params = .ok (some value)) :
  value ∈ queryValues key params
  := by
  rw [singleParam] at h
  cases hvalues : queryValues key params with
  | nil =>
    rw [hvalues] at h
    cases h
  | cons first values =>
    rw [hvalues] at h
    cases values with
    | nil =>
      cases h
      exact List.mem_cons_self
    | cons second values => cases h

theorem parseDid_eq_did {value did : Chars} (h : parseDid value = .did did) :
  did = value ∧ did ≠ ['*'] ∧ did ≠ "self".toList
  := by
  rw [parseDid] at h
  split_ifs at h with hstar hself
  cases h
  exact ⟨rfl, hstar, hself⟩

/-- An authority that is read is a value of the query. -/
theorem parseAuthority_eq_did {params : List (Chars × Chars)} {did : Chars}
    (h : parseAuthority params = .ok (.did did)) :
  (∃ key, did ∈ queryValues key params) ∧ did ≠ ['*'] ∧ did ≠ "self".toList
  := by
  rw [parseAuthority] at h
  cases hauthority : singleParam "authority".toList params with
  | error error =>
    rw [hauthority] at h
    cases h
  | ok authority =>
    rw [hauthority] at h
    cases hdid : singleParam "did".toList params with
    | error error =>
      rw [hdid] at h
      cases authority <;> cases h
    | ok other =>
      rw [hdid] at h
      cases authority with
      | some value =>
        cases other with
        | some other => cases h
        | none =>
          obtain ⟨rfl, hnames⟩ := parseDid_eq_did (Except.ok.inj h)
          exact ⟨⟨_, singleParam_mem hauthority⟩, hnames⟩
      | none =>
        cases other with
        | some value =>
          obtain ⟨rfl, hnames⟩ := parseDid_eq_did (Except.ok.inj h)
          exact ⟨⟨_, singleParam_mem hdid⟩, hnames⟩
        | none => cases h

/-- A key that is read is a value of the query. -/
theorem parseSpaceKey_eq_only {params : List (Chars × Chars)} {skey : Chars}
    (h : parseSpaceKey params = .ok (.only skey)) :
  (∃ key, skey ∈ queryValues key params) ∧ skey ≠ ['*'] ∧ skey ≠ [] ∧
    skey.length ≤ skeyMaxLength
  := by
  rw [parseSpaceKey] at h
  cases hvalue : singleParam "skey".toList params with
  | error error =>
    rw [hvalue] at h
    cases h
  | ok value =>
    rw [hvalue] at h
    cases value with
    | none => cases h
    | some value =>
      change parseSkey value = _ at h
      rw [parseSkey] at h
      by_cases hstar : value = ['*']
      · rw [if_pos hstar] at h
        cases h
      rw [if_neg hstar] at h
      split_ifs at h with hbad
      obtain rfl := Pattern.only.inj (Except.ok.inj h)
      rw [Bool.or_eq_true, List.isEmpty_iff, decide_eq_true_iff, not_or, not_lt] at hbad
      exact ⟨⟨_, singleParam_mem hvalue⟩, hstar, hbad⟩

theorem normalizeCollection_idem (collections : Finset SpaceCollection) :
  normalizeCollection (normalizeCollection collections) = normalizeCollection collections
  := by
  by_cases h : 1 < collections.card ∧ .all ∈ collections
  · have hstar : normalizeCollection collections = {.all} := if_pos h
    rw [hstar, normalizeCollection_singleton]
  · have hsame : normalizeCollection collections = collections := if_neg h
    rw [hsame, hsame]

theorem normalizeCollection_subset (collections : Finset SpaceCollection) :
  normalizeCollection collections ⊆ collections
  := by
  rw [normalizeCollection]
  split_ifs with h
  · exact Finset.singleton_subset_iff.mpr h.2
  · exact Finset.Subset.refl _

/-- Collections that are read are values of the query, and there are some. -/
theorem parseCollections_eq_explicit {params : List (Chars × Chars)}
    {collections : Finset SpaceCollection} (h : parseCollections params = .explicit collections) :
  collections ≠ ∅ ∧ normalizeCollection collections = collections ∧
    ∀ name, .only name ∈ collections → (∃ key, name ∈ queryValues key params) ∧ name ≠ ['*']
  := by
  rw [parseCollections] at h
  cases hvalues : queryValues "collection".toList params with
  | nil =>
    rw [hvalues] at h
    cases h
  | cons value values =>
    rw [hvalues] at h
    obtain rfl := SpaceCollections.explicit.inj h
    refine ⟨?_, normalizeCollection_idem _, ?_⟩
    · rw [normalizeCollection]
      split_ifs
      · exact Finset.singleton_ne_empty _
      · rw [List.map_cons, List.toFinset_cons]
        exact Finset.insert_ne_empty _ _
    · intro name hname
      obtain ⟨hmem, hstar⟩ := only_mem_parse (normalizeCollection_subset _ hname)
      rw [← hvalues] at hmem
      exact ⟨⟨_, hmem⟩, hstar⟩

theorem orDefaults_ne_empty (actions : Finset SpaceAction) :
  orDefaults actions ≠ ∅
  := by
  rw [orDefaults]
  split_ifs with h
  · decide
  · exact h

/-- The type stands in front of the query. -/
theorem parseType_splitSuffix {suffix : Option Chars} {spaceType : SpaceType}
    (h : parseType (splitSuffix suffix).1 = .ok spaceType) :
  spaceType.text ≠ [] ∧ '?' ∉ spaceType.text ∧ spaceType ≠ .only ['*']
  := by
  cases suffix with
  | none => cases h
  | some suffix =>
    rw [splitSuffix] at h
    split_ifs at h
    · cases h
    · rw [parseType] at h
      split_ifs at h with hempty
      cases h
      rw [Pattern.text_parse]
      refine ⟨mt List.isEmpty_iff.mpr hempty, not_mem_splitQuery suffix, ?_⟩
      rw [Pattern.parse]
      split_ifs with hstar
      · intro heq
        cases heq
      · intro heq
        exact hstar (Pattern.only.inj heq)

/-- A scope for spaces that is read can be written, and nothing is left out of it. -/
theorem plain_parseSuffix {suffix : Option Chars} {permission : SpacePermission}
    (h : parseSuffix suffix = .ok permission) :
  permission.Plain ∧ permission.reread = permission
  := by
  rw [parseSuffix] at h
  obtain ⟨params, hparams, h⟩ := Logic.bind_eq_ok.mp h
  obtain ⟨-, -, h⟩ := Logic.bind_eq_ok.mp h
  obtain ⟨spaceType, htype, h⟩ := Logic.bind_eq_ok.mp h
  obtain ⟨did, hdid, h⟩ := Logic.bind_eq_ok.mp h
  obtain ⟨skey, hskey, h⟩ := Logic.bind_eq_ok.mp h
  obtain ⟨action, -, h⟩ := Logic.bind_eq_ok.mp h
  obtain ⟨manage, -, h⟩ := Logic.bind_eq_ok.mp h
  obtain rfl := Except.ok.inj h
  have hvalue := paramsOf_mem hparams
  obtain ⟨hne, hquery, hstar⟩ := parseType_splitSuffix htype
  refine ⟨⟨hne, hquery, hstar, ?_, ?_, ?_⟩, ?_⟩
  · rintro name rfl
    obtain ⟨⟨key, hkey⟩, hnames⟩ := parseAuthority_eq_did hdid
    exact ⟨hvalue key name hkey, hnames⟩
  · rintro name rfl
    obtain ⟨⟨key, hkey⟩, hnames⟩ := parseSpaceKey_eq_only hskey
    exact ⟨hvalue key name hkey, hnames⟩
  · intro collections hcollections
    obtain ⟨-, hnormal, hnames⟩ := parseCollections_eq_explicit hcollections
    refine ⟨hnormal, ?_⟩
    intro name hname
    obtain ⟨⟨key, hkey⟩, hstar⟩ := hnames name hname
    exact ⟨hvalue key name hkey, hstar⟩
  · have hgiven : givenCollections (parseCollections params) = parseCollections params := by
      cases hcollections : parseCollections params with
      | default => rfl
      | explicit collections => exact if_neg (parseCollections_eq_explicit hcollections).1
    have hactions : orDefaults (orDefaults action) = orDefaults action :=
      if_neg (orDefaults_ne_empty action)
    rw [reread, hgiven, hactions]

end SpacePermission

/-! ### Every kind -/

/-- A scope that is read is read by one of the kinds. -/
theorem exists_of_findPrefix {text : Chars}
    {kinds : List (Chars × (Option Chars → Except ParseError Scope))} {scope : Scope}
    (h : findPrefix text kinds = some (.ok scope)) :
  ∃ kind ∈ kinds, ∃ suffix, kind.2 suffix = .ok scope
  := by
  induction kinds with
  | nil => cases h
  | cons kind kinds ih =>
    rw [findPrefix] at h
    cases hsuffix : (stripFront kind.1 text).bind suffixOf with
    | some suffix =>
      rw [hsuffix] at h
      exact ⟨kind, List.mem_cons_self, suffix, Option.some.inj h⟩
    | none =>
      rw [hsuffix] at h
      obtain ⟨other, hother, hread⟩ := ih h
      exact ⟨other, List.mem_cons_of_mem _ hother, hread⟩

theorem wellFormed_parseBare {bare scope : Scope} {message : Chars} {suffix : Option Chars}
    (h : parseBare bare message suffix = .ok scope) (hbare : bare.WellFormed) :
  scope.WellFormed
  := by
  cases suffix with
  | none =>
    cases h
    exact hbare
  | some suffix => cases h

/-- A scope that is read is restricted by where its parts can stand. -/
theorem Scope.wellFormed_of_parse {text : Chars} {scope : Scope} (h : parse text = .ok scope) :
  scope.WellFormed
  := by
  rw [parse] at h
  cases hfind : findPrefix text prefixes with
  | none =>
    rw [hfind] at h
    cases h
  | some result =>
    rw [hfind] at h
    change result = .ok scope at h
    rw [h] at hfind
    obtain ⟨kind, hkind, suffix, hread⟩ := exists_of_findPrefix hfind
    rw [prefixes] at hkind
    simp only [List.mem_cons, List.not_mem_nil, or_false] at hkind
    obtain rfl | rfl | rfl | rfl | rfl | rfl | rfl | rfl | rfl | rfl | rfl | rfl := hkind
    · change parseAccount suffix = _ at hread
      cases suffix with
      | none => cases hread
      | some suffix =>
        obtain ⟨_, -, hread⟩ := Logic.bind_eq_ok.mp hread
        obtain ⟨_, -, hread⟩ := Logic.bind_eq_ok.mp hread
        cases hread
        trivial
    · change parseIdentity suffix = _ at hread
      cases suffix with
      | none => cases hread
      | some suffix =>
        rw [parseIdentity] at hread
        split_ifs at hread <;> cases hread <;> trivial
    · exact wellFormed_parseBlob hread
    · exact wellFormed_parseRepo hread
    · cases hread
      exact wellFormed_parseRpc suffix
    · change (SpacePermission.parseSuffix suffix).map Scope.space = _ at hread
      cases hspace : SpacePermission.parseSuffix suffix with
      | error error =>
        rw [hspace] at hread
        cases hread
      | ok permission =>
        rw [hspace] at hread
        cases hread
        exact SpacePermission.plain_parseSuffix hspace
    · exact wellFormed_parseBare hread trivial
    · change parseTransition suffix = _ at hread
      cases suffix with
      | none => cases hread
      | some suffix =>
        rw [parseTransition] at hread
        split_ifs at hread <;> cases hread <;> trivial
    · exact wellFormed_parseInclude hread
    · exact wellFormed_parseBare hread trivial
    · exact wellFormed_parseBare hread trivial
    · exact wellFormed_parseBare hread trivial

end Atproto.Scopes
