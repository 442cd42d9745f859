import Atproto.Scopes.Print

/-!
# Scopes that are missing

A scope for spaces is read as it is written, up to what a scope means that leaves values out.  A request
that a token does not allow is refused with a scope that would allow it.
-/

namespace Atproto.Scopes

open Wire

theorem Pattern.parse_text {pattern : Pattern} (h : pattern ≠ .only ['*']) :
  Pattern.parse pattern.text = pattern
  := by
  rw [Pattern.parse]
  cases pattern with
  | all => exact if_pos rfl
  | only name =>
    apply if_neg
    intro hname
    exact h (congrArg Pattern.only hname)

/-- Patterns are read as they are written. -/
theorem Pattern.toFinset_parse_text {patterns : Finset Pattern} (h : .only ['*'] ∉ patterns) :
  ((patterns.sort.map Pattern.text).map Pattern.parse).toFinset = patterns
  := by
  have hmap : (patterns.sort.map Pattern.text).map Pattern.parse = patterns.sort := by
    rw [List.map_map]
    apply Eq.trans _ (List.map_id _)
    apply List.map_congr_left
    intro pattern hpattern
    apply Pattern.parse_text
    rintro rfl
    exact h ((Finset.mem_sort _).mp hpattern)
  rw [hmap, Finset.sort_toFinset]

namespace SpacePermission

/-- The parts of a scope can be written: they do not have the signs that end them, and are not the words
that stand for others. -/
structure Plain (permission : SpacePermission) : Prop where
  type_ne_nil : permission.spaceType.text ≠ []
  type_query : '?' ∉ permission.spaceType.text
  type_star : permission.spaceType ≠ .only ['*']
  did : ∀ did, permission.did = .did did → '&' ∉ did ∧ did ≠ ['*'] ∧ did ≠ "self".toList
  skey : ∀ skey, permission.skey = .only skey →
    '&' ∉ skey ∧ skey ≠ ['*'] ∧ skey ≠ [] ∧ skey.length ≤ skeyMaxLength
  collection : ∀ collections, permission.collection = .explicit collections →
    normalizeCollection collections = collections ∧
      ∀ name, .only name ∈ collections → '&' ∉ name ∧ name ≠ ['*']

/-- Collections that are given, of which there have to be some. -/
def givenCollections : SpaceCollections → SpaceCollections
  | .default => .default
  | .explicit collections => if collections = ∅ then .default else .explicit collections

/-- What a scope means after it has been written: nothing that is given stands for the default. -/
def reread (permission : SpacePermission) : SpacePermission :=
  { permission with
    collection := givenCollections permission.collection
    action := orDefaults permission.action }

/-! ### Reading a scope that is written -/

/-- A key is one of those that a scope for spaces has. -/
theorem key_plain {key : Chars} (h : key ∈ keys) :
  '=' ∉ key ∧ '&' ∉ key
  := by
  rw [keys] at h
  simp only [List.mem_cons, List.not_mem_nil, or_false] at h
  rcases h with rfl | rfl | rfl | rfl | rfl | rfl <;> decide

/-- Items of a query can be written: their keys are those of a scope, and nothing ends a value. -/
def Writable (items : List (Chars × Chars)) : Prop :=
  ∀ pair ∈ items, pair.1 ∈ keys ∧ '&' ∉ pair.2

theorem Writable.append {items others : List (Chars × Chars)} (h : Writable items)
    (h' : Writable others) :
  Writable (items ++ others)
  := by
  intro pair hpair
  rcases List.mem_append.mp hpair with hmem | hmem
  · exact h pair hmem
  · exact h' pair hmem

theorem writable_map {key : Chars} (hkey : key ∈ keys) {values : List Chars}
    (h : ∀ value ∈ values, '&' ∉ value) :
  Writable (values.map (Prod.mk key))
  := by
  intro pair hpair
  obtain ⟨value, hvalue, rfl⟩ := List.mem_map.mp hpair
  exact ⟨hkey, h value hvalue⟩

theorem parseParams_map {items : List (Chars × Chars)} (h : Writable items) :
  parseParams (items.map fun pair => item pair.1 pair.2) = .ok items
  := by
  induction items with
  | nil => rfl
  | cons pair items ih =>
    have hkey := (key_plain (h pair List.mem_cons_self).1).1
    rw [List.map_cons, parseParams, splitFirst_item hkey]
    dsimp only
    rw [ih fun other hother => h other (List.mem_cons_of_mem _ hother)]
    rfl

theorem checkKeys_ok {items : List (Chars × Chars)} (h : Writable items) :
  checkKeys items = .ok ()
  := by
  induction items with
  | nil => rfl
  | cons pair items ih =>
    rw [checkKeys, if_pos (List.contains_iff_mem.mpr (h pair List.mem_cons_self).1)]
    exact ih fun other hother => h other (List.mem_cons_of_mem _ hother)

/-- The items of a query are read as they are written. -/
theorem paramsOf_written {items : List (Chars × Chars)} (h : Writable items) :
  paramsOf (if (items.map fun pair => item pair.1 pair.2).isEmpty then none
    else some (join '&' (items.map fun pair => item pair.1 pair.2))) = .ok items
  := by
  cases items with
  | nil => rfl
  | cons pair items =>
    have hsplit : (join '&' ((pair :: items).map fun pair => item pair.1 pair.2)).splitOn '&' =
        (pair :: items).map fun pair => item pair.1 pair.2 := by
      apply List.splitOn_intercalate
      · intro text htext hmem
        obtain ⟨other, hother, rfl⟩ := List.mem_map.mp htext
        rcases List.mem_append.mp hmem with hmem | hmem
        · exact (key_plain (h other hother).1).2 hmem
        · rcases List.mem_cons.mp hmem with heq | hmem
          · cases heq
          · exact (h other hother).2 hmem
      · exact List.cons_ne_nil _ _
    change paramsOf (some _) = _
    rw [paramsOf, hsplit, parseParams_map h]
    apply if_neg
    intro hempty
    rw [List.isEmpty_iff.mp hempty] at hsplit
    have hitem := (List.cons.inj hsplit).1
    exact List.append_ne_nil_of_right_ne_nil _ (List.cons_ne_nil _ _) hitem.symm

theorem splitSuffix_withQuery {front : Chars} (hne : front ≠ []) (hquery : '?' ∉ front)
    (params : List Chars) :
  splitSuffix (some (withQuery front params)) =
    (some front, if params.isEmpty then none else some (join '&' params))
  := by
  rw [splitSuffix, splitQuery_withQuery hquery]
  apply if_neg
  cases front with
  | nil => exact absurd rfl hne
  | cons c front =>
    have hhead : (withQuery (c :: front) params).head? = some c := by
      rw [withQuery]
      split_ifs <;> rfl
    rw [hhead]
    intro hc
    cases hc
    exact hquery List.mem_cons_self

variable {permission : SpacePermission}

/-- The items of a scope that can be written can be. -/
theorem Plain.writable (h : permission.Plain) :
  Writable permission.items
  := by
  have hplain : ∀ {texts : List Chars} {value : Chars}, value ∈ texts →
      (∀ text ∈ texts, '&' ∉ text) → '&' ∉ value := fun hmem hall => hall _ hmem
  refine Writable.append (writable_map (by decide) ?_) (Writable.append (writable_map (by decide) ?_)
    (Writable.append (writable_map (by decide) ?_) (Writable.append (writable_map (by decide) ?_)
      (writable_map (by decide) ?_))))
  · intro value hvalue
    cases hdid : permission.did with
    | selfDid =>
      rw [hdid] at hvalue
      cases hvalue
    | all =>
      rw [hdid] at hvalue
      obtain rfl := List.mem_singleton.mp hvalue
      decide
    | did authority =>
      rw [hdid] at hvalue
      obtain rfl := List.mem_singleton.mp hvalue
      exact (h.did _ hdid).1
  · intro value hvalue
    cases hskey : permission.skey with
    | all =>
      rw [hskey] at hvalue
      cases hvalue
    | only key =>
      rw [hskey] at hvalue
      obtain rfl := List.mem_singleton.mp hvalue
      exact (h.skey _ hskey).1
  · intro value hvalue
    cases hcollection : permission.collection with
    | default =>
      rw [hcollection] at hvalue
      cases hvalue
    | explicit collections =>
      rw [hcollection] at hvalue
      obtain ⟨pattern, hpattern, rfl⟩ := List.mem_map.mp hvalue
      cases pattern with
      | all => decide
      | only name =>
        exact ((h.collection collections hcollection).2 name ((Finset.mem_sort _).mp hpattern)).1
  · intro value hvalue
    rw [actionValues] at hvalue
    split_ifs at hvalue
    · cases hvalue
    · obtain ⟨action, -, rfl⟩ := List.mem_map.mp hvalue
      cases action <;> decide
  · intro value hvalue
    obtain ⟨verb, -, rfl⟩ := List.mem_map.mp hvalue
    cases verb <;> decide

/-- The values of each key are those that are written. -/
theorem queryValues_items (permission : SpacePermission) :
  queryValues "authority".toList permission.items = authorityValues permission.did ∧
    queryValues "did".toList permission.items = [] ∧
    queryValues "skey".toList permission.items = skeyValues permission.skey ∧
    queryValues "collection".toList permission.items = collectionValues permission.collection ∧
    queryValues "action".toList permission.items = permission.actionValues ∧
    queryValues "manage".toList permission.items = permission.manageValues
  := by
  simp +decide only [items, queryValues_append, queryValues_map, if_true, if_false,
    List.append_nil, List.nil_append, and_self]

/-- The authority is read as it is written. -/
theorem Plain.parseAuthority (h : permission.Plain) :
  parseAuthority permission.items = .ok permission.did
  := by
  obtain ⟨hauthority, hdid, -⟩ := queryValues_items permission
  rw [SpacePermission.parseAuthority, singleParam, singleParam, hauthority, hdid]
  cases hvalue : permission.did with
  | selfDid => rfl
  | all => rfl
  | did value =>
    obtain ⟨-, hstar, hself⟩ := h.did value hvalue
    change Except.ok (parseDid value) = _
    rw [parseDid, if_neg hstar, if_neg hself]

/-- The key is read as it is written. -/
theorem Plain.parseSpaceKey (h : permission.Plain) :
  parseSpaceKey permission.items = .ok permission.skey
  := by
  obtain ⟨-, -, hskey, -⟩ := queryValues_items permission
  rw [SpacePermission.parseSpaceKey, singleParam, hskey]
  cases hvalue : permission.skey with
  | all => rfl
  | only value =>
    obtain ⟨-, hstar, hne, hlength⟩ := h.skey value hvalue
    change parseSkey value = _
    rw [parseSkey, if_neg hstar, if_neg]
    rw [Bool.or_eq_true, List.isEmpty_iff, decide_eq_true_iff, not_or, not_lt]
    exact ⟨hne, hlength⟩

/-- The collections are read as they are written, if there are some. -/
theorem Plain.parseCollections (h : permission.Plain) :
  parseCollections permission.items = givenCollections permission.collection
  := by
  obtain ⟨-, -, -, hcollection, -⟩ := queryValues_items permission
  rw [SpacePermission.parseCollections, hcollection]
  cases hvalue : permission.collection with
  | default => rfl
  | explicit collections =>
    obtain ⟨hnormal, hnames⟩ := h.collection collections hvalue
    have hread : ((collections.sort.map Pattern.text).map Pattern.parse).toFinset = collections := by
      apply Pattern.toFinset_parse_text
      intro hstar
      exact (hnames ['*'] hstar).2 rfl
    rw [collectionValues, givenCollections]
    split_ifs with hempty
    · rw [hempty, Finset.sort_empty, List.map_nil]
    · cases hvalues : collections.sort.map Pattern.text with
      | nil =>
        rw [hvalues] at hread
        exact absurd hread.symm hempty
      | cons value values =>
        rw [hvalues] at hread
        dsimp only
        rw [hread, hnormal]

theorem parseWire_map {α : Type} [DecidableEq α] {fromWire : Chars → Option α} {asStr : α → Chars}
    (h : ∀ a, fromWire (asStr a) = some a) (values : List α) :
  parseWire fromWire (values.map asStr) = .ok values.toFinset
  := by
  induction values with
  | nil => rfl
  | cons a values ih =>
    rw [List.map_cons, parseWire, h]
    dsimp only
    rw [ih, List.toFinset_cons]
    rfl

theorem isDefaultActionSet_iff :
  permission.isDefaultActionSet = true ↔ permission.action = SpaceAction.defaults
  := by
  rw [isDefaultActionSet, Bool.and_eq_true, decide_eq_true_iff, decide_eq_true_iff]
  constructor
  · rintro ⟨hcard, hsub⟩
    exact (Finset.eq_of_subset_of_card_le hsub hcard.le).symm
  · intro h
    rw [h]
    exact ⟨rfl, Finset.Subset.refl _⟩

/-- The actions are read as they are written, and as the default if there is none. -/
theorem parseWire_actionValues (permission : SpacePermission) :
  ∃ actions, parseWire SpaceAction.fromWire permission.actionValues = .ok actions ∧
    orDefaults actions = orDefaults permission.action
  := by
  rw [actionValues]
  split_ifs with hdefault
  · use ∅, rfl
    rw [isDefaultActionSet_iff.mp hdefault]
    decide
  · use permission.action
    rw [parseWire_map (fun a => by cases a <;> decide), Finset.sort_toFinset]
    exact ⟨rfl, rfl⟩

/-- A scope that can be written is read as what it means then. -/
theorem Plain.parse_toScopeString (h : permission.Plain) :
  Scope.parse permission.toScopeString = .ok (.space permission.reread)
  := by
  obtain ⟨-, -, -, -, haction, hmanage⟩ := queryValues_items permission
  obtain ⟨actions, hactions, hdefault⟩ := parseWire_actionValues permission
  have hmanage' : parseWire SpaceManageVerb.fromWire permission.manageValues =
      .ok permission.manage := by
    rw [manageValues, parseWire_map (fun verb => by cases verb <;> decide), Finset.sort_toFinset]
  have htype : parseType (some permission.spaceType.text) = .ok permission.spaceType := by
    rw [parseType, Pattern.parse_text h.type_star]
    apply if_neg
    rw [List.isEmpty_iff]
    exact h.type_ne_nil
  rw [toScopeString, withQuery_append, parse_space, parseSuffix,
    splitSuffix_withQuery h.type_ne_nil h.type_query, paramsOf_written h.writable]
  change Except.map Scope.space (do
    checkKeys permission.items
    let spaceType ← parseType (some permission.spaceType.text)
    let did ← SpacePermission.parseAuthority permission.items
    let skey ← SpacePermission.parseSpaceKey permission.items
    let action ← parseWire SpaceAction.fromWire (queryValues "action".toList permission.items)
    let manage ← parseWire SpaceManageVerb.fromWire (queryValues "manage".toList permission.items)
    .ok { spaceType := spaceType, did := did, skey := skey,
          collection := SpacePermission.parseCollections permission.items,
          action := orDefaults action, manage := manage }) = _
  rw [checkKeys_ok h.writable, htype, h.parseAuthority, h.parseSpaceKey, haction, hactions, hmanage,
    hmanage', h.parseCollections]
  change Except.ok (Scope.space { permission with
    collection := givenCollections permission.collection, action := orDefaults actions }) = _
  rw [hdefault]
  rfl

/-! ### The scope that a request needs -/

/-- The type of a space, whose star stands for every type. -/
def nsidOrAll (value : Chars) : SpaceType := if value = ['*'] then .all else .only value

/-- The authority of a space, whose star stands for every authority. -/
def didOrAll (value : Chars) : SpaceDid := if value = ['*'] then .all else .did value

/-- The key of a space, whose star stands for every key. -/
def skeyOrAll (value : Chars) : SpaceSkey := if value = ['*'] then .all else .only value

/-- The action does not depend on the collection. -/
def collectionIndependent : SpaceAction → Bool
  | .read => true
  | .readSelf => true
  | .create => false
  | .update => false
  | .delete => false

/-- The collections that a request needs. -/
def collectionNeeded (target : SpaceTarget) : SpaceCollections :=
  if collectionIndependent target.action then .explicit ∅
  else match target.collection with
    | some collection =>
      .explicit (normalizeCollection {if collection = ['*'] then .all else .only collection})
    | none => .explicit (normalizeCollection ∅)

/-- The grant that a request to a record needs. -/
def permissionFor (target : SpaceTarget) : SpacePermission where
  spaceType := nsidOrAll target.spaceType
  did := didOrAll target.did
  skey := skeyOrAll target.skey
  collection := collectionNeeded target
  action := {target.action}
  manage := ∅

/-- The grant that a request to a space needs, with no actions on records and no collections. -/
def permissionForManage (target : SpaceManageTarget) : SpacePermission where
  spaceType := nsidOrAll target.spaceType
  did := didOrAll target.did
  skey := skeyOrAll target.skey
  collection := .explicit ∅
  action := ∅
  manage := {target.verb}

/-- Write the scope that a request to a record needs. -/
def scopeNeededFor (target : SpaceTarget) : Chars := (permissionFor target).toScopeString

/-- Write the scope that a request to a space needs. -/
def scopeNeededForManage (target : SpaceManageTarget) : Chars :=
  (permissionForManage target).toScopeString

end SpacePermission

namespace ScopesSet

variable (set : ScopesSet)

/-- Refuse a change that is not allowed, with a scope that would allow it. -/
def assertRepo (collection : Chars) (action : RepoAction) : Except Chars Unit :=
  if set.allowsRepo collection action then .ok ()
  else .error ("repo:".toList ++ (collection ++ ("?action=".toList ++ action.asStr)))

/-- Refuse a request to a record in a space that is not allowed. -/
def assertSpaceWith (target : SpaceTarget) (declared : List Chars) : Except Chars Unit :=
  if set.allowsSpaceWith target declared then .ok ()
  else .error (SpacePermission.scopeNeededFor target)

/-- Refuse a request to a space that is not allowed. -/
def assertSpaceManage (target : SpaceManageTarget) : Except Chars Unit :=
  if set.allowsSpaceManage target then .ok ()
  else .error (SpacePermission.scopeNeededForManage target)

end ScopesSet

/-! ### Requests to one space -/

/-- The parts of a space can be written in a scope, and are names. -/
structure ConcreteSpace (spaceType did skey : Chars) : Prop where
  type_ne_nil : spaceType ≠ []
  type_query : '?' ∉ spaceType
  type_star : spaceType ≠ ['*']
  did_item : '&' ∉ did
  did_star : did ≠ ['*']
  did_self : did ≠ "self".toList
  skey_item : '&' ∉ skey
  skey_star : skey ≠ ['*']
  skey_ne_nil : skey ≠ []
  skey_length : skey.length ≤ SpacePermission.skeyMaxLength

/-- The parts of a request to a record can be written in a scope, and are names.  A request that changes a
record is about a collection. -/
structure SpaceTarget.Concrete (target : SpaceTarget) : Prop where
  space : ConcreteSpace target.spaceType target.did target.skey
  collection : ∀ collection, target.collection = some collection →
    '&' ∉ collection ∧ collection ≠ ['*']
  write : SpacePermission.collectionIndependent target.action = false → target.collection ≠ none

/-- Another request is about the same space. -/
def SpaceTarget.SameSpace (target other : SpaceTarget) : Prop :=
  other.spaceType = target.spaceType ∧ other.did = target.did ∧ other.skey = target.skey

/-- What a scope that was written for a request to a record is for: the same change in the same
collection, or reading, which is for all collections and implies reading what is one's own. -/
def SpaceTarget.Means (target other : SpaceTarget) : Prop :=
  target.SameSpace other ∧
    match target.action with
    | .read => other.action = .read ∨ other.action = .readSelf
    | .readSelf => other.action = .readSelf
    | .create | .update | .delete =>
      other.action = target.action ∧ other.collection = target.collection

namespace SpacePermission

variable {spaceType did skey : Chars}

/-- A scope for one space can be written, if its collections can be. -/
theorem plain_of_concrete (h : ConcreteSpace spaceType did skey) {collection : SpaceCollections}
    (hcollection : ∀ collections, collection = .explicit collections →
      normalizeCollection collections = collections ∧
        ∀ name, .only name ∈ collections → '&' ∉ name ∧ name ≠ ['*'])
    (action : Finset SpaceAction) (manage : Finset SpaceManageVerb) :
  Plain { spaceType := nsidOrAll spaceType, did := didOrAll did, skey := skeyOrAll skey,
          collection := collection, action := action, manage := manage }
  := by
  rw [nsidOrAll, if_neg h.type_star, didOrAll, if_neg h.did_star, skeyOrAll, if_neg h.skey_star]
  constructor
  · exact h.type_ne_nil
  · exact h.type_query
  · intro hstar
    exact h.type_star (Pattern.only.inj hstar)
  · rintro value hvalue
    cases hvalue
    exact ⟨h.did_item, h.did_star, h.did_self⟩
  · rintro value hvalue
    cases hvalue
    exact ⟨h.skey_item, h.skey_star, h.skey_ne_nil, h.skey_length⟩
  · exact hcollection

/-- A scope for one space is for no other one. -/
theorem tupleOverlaps_iff (h : ConcreteSpace spaceType did skey) {permission : SpacePermission}
    (htype : permission.spaceType = nsidOrAll spaceType) (hdid : permission.did = didOrAll did)
    (hskey : permission.skey = skeyOrAll skey) (otherType otherDid otherSkey : Chars)
    (subject : Option Chars) :
  permission.tupleOverlaps otherType otherDid otherSkey subject = true ↔
    otherType = spaceType ∧ otherDid = did ∧ otherSkey = skey
  := by
  rw [tupleOverlaps, htype, hdid, hskey, nsidOrAll, if_neg h.type_star, didOrAll, if_neg h.did_star,
    skeyOrAll, if_neg h.skey_star, Bool.and_eq_true, Bool.and_eq_true, decide_eq_true_iff,
    decide_eq_true_iff, didOverlaps, decide_eq_true_iff, and_assoc]
  apply and_congr eq_comm
  exact and_congr eq_comm eq_comm

theorem normalizeCollection_singleton (pattern : SpaceCollection) :
  normalizeCollection {pattern} = {pattern}
  := by
  apply if_neg
  rw [Finset.card_singleton]
  exact fun h => lt_irrefl 1 h.1

/-- What a request to a record is for is a collection, or does not depend on it. -/
theorem collectionNeeded_cases {target : SpaceTarget} (h : target.Concrete) :
  collectionIndependent target.action = true ∧ collectionNeeded target = .explicit ∅ ∨
    ∃ collection, collectionIndependent target.action = false ∧
      target.collection = some collection ∧ '&' ∉ collection ∧ collection ≠ ['*'] ∧
        collectionNeeded target = .explicit {.only collection}
  := by
  rw [collectionNeeded]
  split_ifs with hindependent
  · exact .inl ⟨hindependent, rfl⟩
  · have hwrite := h.write (eq_false_of_ne_true hindependent)
    cases hcollection : target.collection with
    | none => exact absurd hcollection hwrite
    | some collection =>
      obtain ⟨hitem, hstar⟩ := h.collection collection hcollection
      refine .inr ⟨collection, eq_false_of_ne_true hindependent, rfl, hitem, hstar, ?_⟩
      dsimp only
      rw [if_neg hstar, normalizeCollection_singleton]

theorem plain_permissionFor {target : SpaceTarget} (h : target.Concrete) :
  (permissionFor target).Plain
  := by
  apply plain_of_concrete h.space
  intro collections hcollections
  obtain ⟨-, hneeded⟩ | ⟨collection, -, -, hitem, hstar, hneeded⟩ := collectionNeeded_cases h
  · obtain rfl := SpaceCollections.explicit.inj (hneeded.symm.trans hcollections)
    refine ⟨rfl, ?_⟩
    intro name hname
    cases hname
  · obtain rfl := SpaceCollections.explicit.inj (hneeded.symm.trans hcollections)
    refine ⟨normalizeCollection_singleton _, ?_⟩
    intro name hname
    obtain rfl := Pattern.only.inj (Finset.mem_singleton.mp hname)
    exact ⟨hitem, hstar⟩

theorem plain_permissionForManage {target : SpaceManageTarget}
    (h : ConcreteSpace target.spaceType target.did target.skey) :
  (permissionForManage target).Plain
  := by
  apply plain_of_concrete h
  intro collections hcollections
  obtain rfl := SpaceCollections.explicit.inj hcollections
  refine ⟨rfl, ?_⟩
  intro name hname
  cases hname

/-- The grant for a request to a record, as it is read, is for what the request means. -/
theorem matchesWith_permissionFor {target : SpaceTarget} (h : target.Concrete)
    (other : SpaceTarget) (declared : List Chars) (subject : Option Chars) :
  (permissionFor target).reread.matchesWith other declared subject = true ↔ target.Means other
  := by
  have haction : (permissionFor target).reread.action = {target.action} := by
    change orDefaults {target.action} = _
    exact if_neg (Finset.singleton_ne_empty _)
  rw [matchesWith, Bool.and_eq_true, tupleOverlaps_iff h.space rfl rfl rfl, haction,
    SpaceTarget.Means, SpaceTarget.SameSpace]
  apply and_congr_right
  intro _
  obtain ⟨hindependent, -⟩ | ⟨collection, hwrite, hcollection, -, -, hneeded⟩ :=
    collectionNeeded_cases h
  · cases hwanted : target.action with
    | read => cases other.action <;> simp
    | readSelf => cases other.action <;> simp
    | create =>
      rw [hwanted] at hindependent
      cases hindependent
    | update =>
      rw [hwanted] at hindependent
      cases hindependent
    | delete =>
      rw [hwanted] at hindependent
      cases hindependent
  · have hcovers : (permissionFor target).reread.collectionCovers other.collection declared = true ↔
        other.collection = target.collection := by
      unfold collectionCovers
      rw [collectionsResolvedWith]
      have hgiven : (permissionFor target).reread.collection = .explicit {.only collection} := by
        change givenCollections (collectionNeeded target) = _
        rw [hneeded, givenCollections]
        exact if_neg (Finset.singleton_ne_empty _)
      rw [hgiven, hcollection]
      cases other.collection with
      | none => simp
      | some name => simp
    cases hwanted : target.action with
    | read =>
      rw [hwanted] at hwrite
      cases hwrite
    | readSelf =>
      rw [hwanted] at hwrite
      cases hwrite
    | create => cases other.action <;> simp [hcovers]
    | update => cases other.action <;> simp [hcovers]
    | delete => cases other.action <;> simp [hcovers]

/-- The grant for a request to a record, as it is read, is for no request to a space. -/
theorem matchesManage_permissionFor (target : SpaceTarget) (other : SpaceManageTarget)
    (subject : Option Chars) :
  (permissionFor target).reread.matchesManage other subject = false
  := Bool.and_false _

/-- The grant for a request to a space, as it is read, is for this request to a space. -/
theorem matchesManage_permissionForManage {target : SpaceManageTarget}
    (h : ConcreteSpace target.spaceType target.did target.skey) (other : SpaceManageTarget)
    (subject : Option Chars) :
  (permissionForManage target).reread.matchesManage other subject = true ↔
    (other.spaceType = target.spaceType ∧ other.did = target.did ∧ other.skey = target.skey) ∧
      other.verb = target.verb
  := by
  rw [matchesManage, Bool.and_eq_true, tupleOverlaps_iff h rfl rfl rfl, decide_eq_true_iff]
  apply and_congr_right
  intro _
  exact Finset.mem_singleton

end SpacePermission

/-! ### Refusals -/

/-- A scope that is added to a token allows what it authorizes. -/
theorem ScopesSet.allows_insert (set : ScopesSet) {text : Chars} {scope : Scope}
    (hscope : Scope.parse text = .ok scope) (request : Request)
    (h : Scope.Authorizes set.subject request scope) :
  (set.insert text).allows request = true
  := by
  rw [allows_iff]
  refine ⟨scope, ?_, h⟩
  apply List.mem_filterMap.mpr
  refine ⟨text, List.mem_append_right _ List.mem_cons_self, ?_⟩
  rw [hscope]
  rfl

/-- A token with one scope allows what this authorizes. -/
theorem ScopesSet.allows_one_iff {text : Chars} {scope : Scope} (hscope : Scope.parse text = .ok scope)
    (subject : Option Chars) (request : Request) :
  ScopesSet.allows { scopes := [text], subject := subject } request = true ↔
    Scope.Authorizes subject request scope
  := by
  rw [allows_iff]
  have hparsed : ScopesSet.parsed { scopes := [text], subject := subject } = [scope] := by
    rw [parsed, List.filterMap_cons, hscope]
    rfl
  rw [hparsed]
  constructor
  · rintro ⟨other, hother, h⟩
    obtain rfl := List.mem_singleton.mp hother
    exact h
  · intro h
    exact ⟨scope, List.mem_singleton_self _, h⟩

/-- The scope of a refused change is for one collection and one action. -/
theorem parse_repo_action {collection : Chars} (hne : collection ≠ []) (hquery : '?' ∉ collection)
    (hstar : collection ≠ ['*']) (action : RepoAction) :
  Scope.parse ("repo:".toList ++ (collection ++ ("?action=".toList ++ action.asStr))) =
    .ok (.repo { collections := {.only collection}, actions := {action} })
  := by
  have hsplit : splitQuery (collection ++ ("?action=".toList ++ action.asStr)) =
      (collection, some ("action=".toList ++ action.asStr)) := splitQuery_append hquery _
  have hactions : parseRepoActions (valuesOf "action".toList
      (some ("action=".toList ++ action.asStr))) = .ok {action} := by
    cases action <;> rfl
  have hcollections : repoCollections collection (some ("action=".toList ++ action.asStr)) =
      [collection] := by
    rw [repoCollections, positionalOf, if_neg (mt List.isEmpty_iff.mp hne)]
    cases action <;> rfl
  rw [parse_repo, parseRepo]
  dsimp only [Option.getD_some]
  rw [hsplit]
  dsimp only
  rw [hactions]
  change Except.ok (Scope.repo {
    collections := orAll ((repoCollections collection
      (some ("action=".toList ++ action.asStr))).map Pattern.parse).toFinset
    actions := orEvery {action} }) = _
  rw [hcollections]
  have hname : Pattern.parse collection = .only collection := if_neg hstar
  have hall : orAll ([collection].map Pattern.parse).toFinset = {.only collection} := by
    rw [List.map_cons, hname]
    exact if_neg (Finset.singleton_ne_empty _)
  have hevery : orEvery {action} = {action} := if_neg (Finset.singleton_ne_empty _)
  rw [hall, hevery]

/-- A scope that a refusal names can be read, and adding it alone allows what was refused.  The scope for a
refused request to a record is for this request only, where reading is for every collection and implies
reading what is one's own, and the scope for a refused request to a space is for no other request to a
space. -/
theorem refused_scope_suffices (set : ScopesSet) :
  (∀ (collection : Chars) (action : RepoAction) (text : Chars), collection ≠ [] →
    '?' ∉ collection → collection ≠ ['*'] → set.assertRepo collection action = .error text →
      (∃ scope, Scope.parse text = .ok scope) ∧
        (set.insert text).allowsRepo collection action = true) ∧
  (∀ (target : SpaceTarget) (declared : List Chars) (text : Chars), target.Concrete →
    set.assertSpaceWith target declared = .error text →
      (∃ scope, Scope.parse text = .ok scope) ∧
        (set.insert text).allowsSpaceWith target declared = true ∧
        ∀ (subject : Option Chars) (request : Request),
          ScopesSet.allows { scopes := [text], subject := subject } request = true ↔
            ∃ other declared', request = .space other declared' ∧ target.Means other) ∧
  ∀ (target : SpaceManageTarget) (text : Chars),
    ConcreteSpace target.spaceType target.did target.skey →
    set.assertSpaceManage target = .error text →
      (∃ scope, Scope.parse text = .ok scope) ∧
        (set.insert text).allowsSpaceManage target = true ∧
        ∀ (subject : Option Chars) (other : SpaceManageTarget),
          ScopesSet.allowsSpaceManage { scopes := [text], subject := subject } other = true ↔
            (other.spaceType = target.spaceType ∧ other.did = target.did ∧
              other.skey = target.skey) ∧ other.verb = target.verb
  := by
  refine ⟨?_, ?_, ?_⟩
  · intro collection action text hne hquery hstar hrefused
    rw [ScopesSet.assertRepo] at hrefused
    split_ifs at hrefused
    cases hrefused
    have hparse := parse_repo_action hne hquery hstar action
    refine ⟨⟨_, hparse⟩, ?_⟩
    apply set.allows_insert hparse (.repo collection action)
    change RepoScope.allows _ _ _ = true
    rw [RepoScope.allows, Bool.and_eq_true, decide_eq_true_iff, decide_eq_true_iff]
    exact ⟨⟨_, Finset.mem_singleton_self _, rfl⟩, Finset.mem_singleton_self _⟩
  · intro target declared text hconcrete hrefused
    rw [ScopesSet.assertSpaceWith] at hrefused
    split_ifs at hrefused
    cases hrefused
    have hparse := (SpacePermission.plain_permissionFor hconcrete).parse_toScopeString
    refine ⟨⟨_, hparse⟩, ?_, ?_⟩
    · apply set.allows_insert hparse (.space target declared)
      apply (SpacePermission.matchesWith_permissionFor hconcrete target declared set.subject).mpr
      refine ⟨⟨rfl, rfl, rfl⟩, ?_⟩
      cases target.action with
      | read => exact .inl rfl
      | readSelf => rfl
      | create => exact ⟨rfl, rfl⟩
      | update => exact ⟨rfl, rfl⟩
      | delete => exact ⟨rfl, rfl⟩
    · intro subject request
      rw [SpacePermission.scopeNeededFor, ScopesSet.allows_one_iff hparse]
      cases request with
      | space other declared' =>
        constructor
        · intro h
          exact ⟨other, declared', rfl,
            (SpacePermission.matchesWith_permissionFor hconcrete other declared' subject).mp h⟩
        · rintro ⟨_, _, heq, hmeans⟩
          cases heq
          exact (SpacePermission.matchesWith_permissionFor hconcrete _ _ subject).mpr hmeans
      | spaceManage other =>
        apply iff_of_false
        · change ¬SpacePermission.matchesManage _ _ _ = true
          rw [SpacePermission.matchesManage_permissionFor]
          exact Bool.false_ne_true
        · rintro ⟨_, _, heq, -⟩
          cases heq
      | repo collection action => exact iff_of_false id (by rintro ⟨_, _, heq, -⟩; cases heq)
      | blob mime => exact iff_of_false id (by rintro ⟨_, _, heq, -⟩; cases heq)
      | rpc lxm aud => exact iff_of_false id (by rintro ⟨_, _, heq, -⟩; cases heq)
  · intro target text hconcrete hrefused
    rw [ScopesSet.assertSpaceManage] at hrefused
    split_ifs at hrefused
    cases hrefused
    have hparse := (SpacePermission.plain_permissionForManage hconcrete).parse_toScopeString
    refine ⟨⟨_, hparse⟩, ?_, ?_⟩
    · apply set.allows_insert hparse (.spaceManage target)
      apply (SpacePermission.matchesManage_permissionForManage hconcrete target set.subject).mpr
      exact ⟨⟨rfl, rfl, rfl⟩, rfl⟩
    · intro subject other
      have hone := ScopesSet.allows_one_iff hparse subject (.spaceManage other)
      exact hone.trans
        (SpacePermission.matchesManage_permissionForManage hconcrete other subject)

/-- The collection of posts. -/
def posts : Chars := "app.bsky.feed.post".toList

/-- A token for likes only. -/
def likesOnly : ScopesSet where
  scopes := ["repo:app.bsky.feed.like".toList]
  subject := none

/-- A request to a space of `did:web:a`. -/
def sampleTarget (action : SpaceAction) (collection : Option Chars) : SpaceTarget where
  spaceType := "com.example.space".toList
  did := "did:web:a".toList
  skey := "k".toList
  action := action
  collection := collection

/-- The space is to be deleted. -/
def sampleManageTarget : SpaceManageTarget where
  spaceType := "com.example.space".toList
  did := "did:web:a".toList
  skey := "k".toList
  verb := .delete

theorem sampleSpace_concrete :
  ConcreteSpace "com.example.space".toList "did:web:a".toList "k".toList
  := by
  constructor <;> decide

theorem postTarget_concrete :
  (sampleTarget .create (some posts)).Concrete
  := by
  refine ⟨sampleSpace_concrete, ?_, fun _ => Option.some_ne_none posts⟩
  intro collection hcollection
  cases hcollection
  decide

/-- The scopes for what a token for likes is refused. -/
def postScope : Chars := "repo:app.bsky.feed.post?action=create".toList

def recordScope : Chars :=
  "space:com.example.space?authority=did:web:a&skey=k&collection=app.bsky.feed.post&action=create".toList

def deletionScope : Chars :=
  "space:com.example.space?authority=did:web:a&skey=k&manage=delete".toList

/-- A token for likes is refused a new post, a new record in a space and the deletion of the space,
and with each of the named scopes it is allowed to do this, and no more to the records. -/
theorem refused_scope_suffices_sample :
  (likesOnly.assertRepo posts .create = .error postScope ∧
    (likesOnly.insert postScope).allowsRepo posts .create = true) ∧
  (likesOnly.assertSpaceWith (sampleTarget .create (some posts)) [] = .error recordScope ∧
    (likesOnly.insert recordScope).allowsSpaceWith (sampleTarget .create (some posts)) [] = true ∧
    ScopesSet.allows { scopes := [recordScope], subject := none }
      (.space (sampleTarget .update (some posts)) []) = false) ∧
  likesOnly.assertSpaceManage sampleManageTarget = .error deletionScope ∧
    (likesOnly.insert deletionScope).allowsSpaceManage sampleManageTarget = true
  := by
  obtain ⟨hrepo, hspace, hmanage⟩ := refused_scope_suffices likesOnly
  have hrefused : likesOnly.assertRepo posts .create = .error postScope ∧
      likesOnly.assertSpaceWith (sampleTarget .create (some posts)) [] = .error recordScope ∧
      likesOnly.assertSpaceManage sampleManageTarget = .error deletionScope := by decide +kernel
  obtain ⟨-, hallowed⟩ := hrepo posts .create postScope (by decide) (by decide) (by decide) hrefused.1
  obtain ⟨-, hrecord, honly⟩ := hspace _ [] recordScope postTarget_concrete hrefused.2.1
  obtain ⟨-, hdeletion, -⟩ := hmanage sampleManageTarget deletionScope sampleSpace_concrete
    hrefused.2.2
  refine ⟨⟨hrefused.1, hallowed⟩, ⟨hrefused.2.1, hrecord, ?_⟩, hrefused.2.2, hdeletion⟩
  rw [Bool.eq_false_iff]
  intro hother
  obtain ⟨other, _, heq, hmeans⟩ := (honly none _).mp hother
  cases heq
  exact absurd hmeans.2.1 (by decide)

/-- The scope for reading a record is also for reading one's own records in any collection. -/
theorem refused_read_scope_reads_self :
  ∃ (target other : SpaceTarget) (text : Chars), target.Concrete ∧
    ScopesSet.assertSpaceWith { scopes := [], subject := none } target [] = .error text ∧
      other.action ≠ target.action ∧
        ScopesSet.allowsSpaceWith { scopes := [text], subject := none } other [] = true
  := by
  let target := sampleTarget .read none
  have hconcrete : target.Concrete := by
    refine ⟨sampleSpace_concrete, ?_, fun hwrite => absurd hwrite (by decide)⟩
    intro collection hcollection
    cases hcollection
  have hparse := (SpacePermission.plain_permissionFor hconcrete).parse_toScopeString
  refine ⟨target, { target with action := .readSelf }, _, hconcrete, rfl, nofun, ?_⟩
  apply (ScopesSet.allows_one_iff hparse none (.space _ [])).mpr
  apply (SpacePermission.matchesWith_permissionFor hconcrete _ [] none).mpr
  exact ⟨⟨rfl, rfl, rfl⟩, .inr rfl⟩

end Atproto.Scopes
