import Atproto.Scopes.Normal
import Mathlib.Data.Fintype.EquivFin
import Mathlib.Data.Finset.Image

/-!
# When normal texts keep what scopes mean

A scope whose normal text means something else has a part that is empty, a star or a sign of the syntax, at
a place where this is read in another way.
-/

namespace Atproto.Scopes

open Wire

/-- A scope that has been read is kept by its normal text. -/
def Scope.Keeps : Scope → Prop
  | .blob scope => scope.Keeps
  | .repo scope => scope.Keeps
  | .rpc scope => scope.Keeps
  | .account _ => True
  | .identity _ => True
  | .space _ => True
  | .atproto => True
  | .transition _ => True
  | .includeSet _ => True
  | .openId => True
  | .profile => True
  | .email => True

/-! ### Names that patterns cover -/

/-- Patterns cover some name. -/
theorem exists_covered {patterns : Finset Pattern} (h : patterns ≠ ∅) :
  ∃ name, ∃ granted ∈ patterns, granted.Covers name
  := by
  obtain ⟨pattern, hpattern⟩ := Finset.nonempty_iff_ne_empty.mpr h
  cases pattern with
  | all => exact ⟨[], .all, hpattern, trivial⟩
  | only name => exact ⟨name, .only name, hpattern, rfl⟩

/-- Patterns cover a name exactly when they are for every name or for this one. -/
theorem exists_covers_iff {patterns : Finset Pattern} {name : Chars} :
  (∃ granted ∈ patterns, granted.Covers name) ↔ .all ∈ patterns ∨ .only name ∈ patterns
  := by
  constructor
  · rintro ⟨granted, hgranted, hcovers⟩
    cases granted with
    | all => exact .inl hgranted
    | only other =>
      obtain rfl : other = name := hcovers
      exact .inr hgranted
  · rintro (hall | honly)
    · exact ⟨.all, hall, trivial⟩
    · exact ⟨.only name, honly, rfl⟩

/-- A query without an ampersand has one item at most. -/
theorem queryValues_one {query : Chars} (h : '&' ∉ query) (key : Chars) :
  queryValues key (parseQueryString query) = [] ∨
    ∃ value, query = item key value ∧ queryValues key (parseQueryString query) = [value]
  := by
  rw [parseQueryString, List.splitOn_eq_singleton h, List.filterMap_cons]
  cases hsplit : splitFirst '=' query with
  | none => exact .inl rfl
  | some pair =>
    obtain ⟨hparts, -⟩ := splitFirst_eq_some.mp hsplit
    dsimp only
    rw [List.filterMap_nil, queryValues, List.filter_cons]
    split_ifs with hkey
    · obtain rfl := of_decide_eq_true hkey
      exact .inr ⟨pair.2, hparts, rfl⟩
    · exact .inl rfl

theorem mem_queryValues_one {query key value : Chars} (h : '&' ∉ query)
    (hvalue : value ∈ queryValues key (parseQueryString query)) :
  query = item key value
  := by
  obtain hnone | ⟨only, hquery, hone⟩ := queryValues_one h key
  · rw [hnone] at hvalue
    cases hvalue
  · rw [hone] at hvalue
    rw [List.mem_singleton.mp hvalue]
    exact hquery

theorem exists_other (name : Chars) :
  ∃ other : Chars, other ≠ name
  := by
  use 'a' :: name
  intro h
  have hlength := congrArg List.length h
  rw [List.length_cons] at hlength
  omega

/-! ### Patterns of media types -/

theorem MimePattern.grants_antisymm {a b : MimePattern} (hab : a.grants b = true)
    (hba : b.grants a = true) :
  a = b
  := by
  cases a with
  | all =>
    cases b with
    | all => rfl
    | typeWildcard type => cases hba
    | exact mime => cases hba
  | typeWildcard type =>
    cases b with
    | all => cases hab
    | typeWildcard other =>
      obtain rfl := of_decide_eq_true hab
      rfl
    | exact mime => cases hba
  | exact mime =>
    cases b with
    | all => cases hab
    | typeWildcard type => cases hab
    | exact other =>
      obtain rfl := of_decide_eq_true hab
      rfl

/-- One pattern that authorizes what another one does is the same. -/
theorem BlobScope.eq_of_authorizes {a b : MimePattern} (ha : MimePattern.fromStr a.text = .ok a)
    (hb : MimePattern.fromStr b.text = .ok b)
    (h : ∀ request, Scope.Authorizes none request (.blob { accept := {a} }) ↔
      Scope.Authorizes none request (.blob { accept := {b} })) :
  a = b
  := by
  have hone : ∀ {p q : MimePattern}, BlobScope.allows { accept := {p} } q = true ↔
      p.grants q = true := by
    intro p q
    rw [allows, decide_eq_true_iff]
    constructor
    · rintro ⟨pattern, hpattern, hgrants⟩
      rw [Finset.mem_singleton.mp hpattern] at hgrants
      exact hgrants
    · intro hgrants
      exact ⟨p, Finset.mem_singleton_self p, hgrants⟩
  apply MimePattern.grants_antisymm
  · obtain ⟨requested, hrequested, hallows⟩ := (h (.blob b.text)).mpr
      ⟨b, hb, hone.mpr b.grants_refl⟩
    rw [hb] at hrequested
    cases hrequested
    exact hone.mp hallows
  · obtain ⟨requested, hrequested, hallows⟩ := (h (.blob a.text)).mp
      ⟨a, ha, hone.mpr a.grants_refl⟩
    rw [ha] at hrequested
    cases hrequested
    exact hone.mp hallows

theorem BlobScope.keeps_of_kept {scope : BlobScope} (h : scope.WellFormed)
    (hkept : (Scope.blob scope).Kept) :
  scope.Keeps
  := by
  intro pattern hone hhead
  obtain ⟨accept⟩ := scope
  obtain rfl : accept = {pattern} := hone
  obtain ⟨again, hagain, -, hsame⟩ := hkept
  have hplain : '&' ∉ pattern.text := by
    rcases h.place with ⟨other, hother, hhead'⟩ | hplain
    · obtain rfl := Finset.singleton_injective hother
      exact absurd hhead hhead'
    · exact hplain pattern (Finset.mem_singleton_self _)
  have hpattern := h.text pattern (Finset.mem_singleton_self _)
  obtain ⟨query, hquery⟩ : ∃ query, pattern.text = '?' :: query := by
    cases htext : pattern.text with
    | nil =>
      rw [htext] at hhead
      cases hhead
    | cons c query =>
      rw [htext] at hhead
      cases hhead
      exact ⟨query, rfl⟩
  change Scope.parse (BlobScope.toStringNormalized { accept := {pattern} }) = _ at hagain
  rw [toStringNormalized, Finset.sort_singleton] at hagain
  dsimp only at hagain
  rw [parse_blob, parseBlob, if_pos hhead, hquery] at hagain
  obtain ⟨accept, haccept, hagain⟩ := Logic.bind_eq_ok.mp hagain
  cases hagain
  have hitem : '&' ∉ query := by
    rw [hquery] at hplain
    exact fun hmem => hplain (List.mem_cons_of_mem _ hmem)
  have hvalues := queryValues_one hitem "accept".toList
  change parseMimePatterns (queryValues "accept".toList (parseQueryString query)) = _ at haccept
  obtain ⟨other, hother, hread, hshort⟩ : ∃ other, orAllTypes accept = {other} ∧
      MimePattern.fromStr other.text = .ok other ∧ other ≠ pattern := by
    obtain hnone | ⟨value, hitem, hone⟩ := hvalues
    · rw [hnone] at haccept
      cases haccept
      refine ⟨.all, rfl, rfl, ?_⟩
      rintro rfl
      cases hquery
    · rw [hone] at haccept
      obtain ⟨other, hother, haccept⟩ := Logic.bind_eq_ok.mp haccept
      cases haccept
      have htext := MimePattern.fromStr_text hother
      refine ⟨other, if_neg (Finset.insert_ne_empty _ _), htext ▸ hother, ?_⟩
      -- the pattern that is read is shorter than the text that it is read of
      rintro rfl
      have hlength := congrArg List.length (htext.symm.trans (hquery.trans (congrArg _ hitem)))
      rw [List.length_cons, item, List.length_append, List.length_cons] at hlength
      omega
  apply hshort
  apply eq_of_authorizes hread hpattern
  intro request
  rw [← hother]
  exact hsame none request

/-! ### Methods and audiences -/

theorem RpcScope.allows_iff {scope : RpcScope} {lxm aud : Chars} :
  scope.allows lxm aud = true ↔
    (.all ∈ scope.lxm ∨ .only lxm ∈ scope.lxm) ∧ (.all ∈ scope.aud ∨ .only aud ∈ scope.aud)
  := by
  rw [allows, Bool.and_eq_true, decide_eq_true_iff, decide_eq_true_iff, exists_covers_iff,
    exists_covers_iff]

/-- A scope for one method authorizes other requests than one that does not name this method. -/
theorem RpcScope.names_of_same {scope again : RpcScope} {nsid : Chars} (hlxm : scope.lxm = {.only nsid})
    (haud : scope.aud ≠ ∅) (haud' : again.aud ≠ ∅)
    (h : ∀ request, Scope.Authorizes none request (.rpc again) ↔
      Scope.Authorizes none request (.rpc scope)) :
  .only nsid ∈ again.lxm ∧ .all ∉ again.lxm
  := by
  obtain ⟨aud, haud⟩ := exists_covered haud
  obtain ⟨aud', haud'⟩ := exists_covered haud'
  rw [exists_covers_iff] at haud haud'
  have hnone : .all ∉ again.lxm := by
    intro hall
    obtain ⟨other, hother⟩ := exists_other nsid
    have hallows := allows_iff.mp
      ((h (.rpc other aud')).mp (allows_iff.mpr ⟨.inl hall, haud'⟩))
    rw [hlxm, Finset.mem_singleton, Finset.mem_singleton] at hallows
    rcases hallows.1 with heq | heq
    · cases heq
    · exact hother (Pattern.only.inj heq)
  refine ⟨?_, hnone⟩
  have hmem : .only nsid ∈ scope.lxm := hlxm ▸ Finset.mem_singleton_self _
  have hallows := allows_iff.mp ((h (.rpc nsid aud)).mpr (allows_iff.mpr ⟨.inr hmem, haud⟩))
  exact hallows.1.resolve_left hnone

/-- Texts with an item for an audience at the end are not such items for methods at the start. -/
theorem item_aud_ne_item_lxm (rest aud : Chars) :
  rest ++ '?' :: item "aud".toList aud ≠ item "lxm".toList ('?' :: rest)
  := by
  intro h
  change rest ++ '?' :: 'a' :: 'u' :: 'd' :: '=' :: aud = 'l' :: 'x' :: 'm' :: '=' :: '?' :: rest at h
  have hlength := congrArg List.length h
  simp only [List.length_append, List.length_cons] at hlength
  -- there is no room for an audience, and then one of the texts has a letter more
  obtain rfl : aud = [] := List.length_eq_zero_iff.mp (by omega)
  have hcount := congrArg (List.count 'x') h
  simp only [List.count_append, List.count_cons, List.count_nil] at hcount
  revert hcount
  simp

/-- A name that is empty or has a question mark is not the method that is read behind a colon. -/
theorem only_not_mem_parseRpc {nsid aud : Chars} (hbad : nsid = [] ∨ '?' ∈ nsid) (hnsid : '&' ∉ nsid)
    (haud : '&' ∉ aud) {again : RpcScope}
    (h : parseRpc (some (nsid ++ '?' :: item "aud".toList aud)) = .rpc again) :
  .only nsid ∉ again.lxm ∧ again.aud ≠ ∅
  := by
  rw [parseRpc] at h
  split_ifs at h with hstar hhead
  · cases h
    refine ⟨?_, Finset.singleton_ne_empty _⟩
    intro hmem
    cases Finset.mem_singleton.mp hmem
  · cases h
    refine ⟨?_, orAll_ne_empty _⟩
    intro hmem
    obtain ⟨hvalue, -⟩ := only_mem_parse (only_mem_orAll hmem)
    cases nsid with
    | nil =>
      change [] ∈ queryValues "lxm".toList (parseQueryString (item "aud".toList aud)) at hvalue
      rw [parseQueryString_item (by decide) (by decide) haud] at hvalue
      cases hvalue
    | cons c rest =>
      cases hhead
      change _ ∈ queryValues "lxm".toList
        (parseQueryString (rest ++ '?' :: item "aud".toList aud)) at hvalue
      have hplain : '&' ∉ rest ++ '?' :: item "aud".toList aud := by
        intro hmem
        rcases List.mem_append.mp hmem with hmem | hmem
        · exact hnsid (List.mem_cons_of_mem _ hmem)
        · rcases List.mem_cons.mp hmem with heq | hmem
          · cases heq
          · rcases List.mem_append.mp hmem with hmem | hmem
            · revert hmem
              decide
            · rcases List.mem_cons.mp hmem with heq | hmem
              · cases heq
              · exact haud hmem
      exact item_aud_ne_item_lxm rest aud (mem_queryValues_one hplain hvalue)
  · cases h
    refine ⟨?_, orAll_ne_empty _⟩
    intro hmem
    have hname := Pattern.only.inj (Finset.mem_singleton.mp hmem)
    rcases hbad with rfl | hquery
    · exact hhead rfl
    · rw [hname] at hquery
      exact not_mem_splitQuery _ hquery

theorem RpcScope.keeps_of_kept {scope : RpcScope} (h : scope.WellFormed)
    (hkept : (Scope.rpc scope).Kept) :
  scope.Keeps
  := by
  obtain ⟨again, hagain, -, hsame⟩ := hkept
  change Scope.parse scope.toStringNormalized = _ at hagain
  rw [Keeps]
  split_ifs with hone
  · obtain ⟨lxm, hlxm⟩ := Finset.card_eq_one.mp hone.1
    obtain ⟨aud, haud⟩ := Finset.card_eq_one.mp hone.2
    obtain ⟨lxms, auds⟩ := scope
    obtain rfl : lxms = {lxm} := hlxm
    obtain rfl : auds = {aud} := haud
    have haudItem : '&' ∉ aud.text := by
      cases aud with
      | all => decide
      | only did => exact (h.did did (Finset.mem_singleton_self _)).1
    cases lxm with
    | all =>
      cases aud with
      | all => exact .inl ⟨rfl, rfl⟩
      | only did =>
        -- every method is written as the method whose name is a star
        have hread : Scope.parse (RpcScope.toStringNormalized { lxm := {.all}, aud := {.only did} }) =
            .ok (parseRpc (some (['*'] ++ '?' :: item "aud".toList did))) := by
          rw [toStringNormalized, Finset.sort_singleton, Finset.sort_singleton]
          rfl
        have hstar : ['*'] ++ '?' :: item "aud".toList did ≠ ['*'] := by
          intro heq
          cases heq
        have hhead : (['*'] ++ '?' :: item "aud".toList did).head? ≠ some '?' := by
          change some '*' ≠ some '?'
          decide
        rw [hread, parseRpc, if_neg hstar, if_neg hhead, splitQuery_append (by decide)] at hagain
        obtain rfl := Except.ok.inj hagain
        have hall : Scope.Authorizes none (.rpc [] did)
            (.rpc { lxm := {.all}, aud := {.only did} }) :=
          allows_iff.mpr ⟨.inl (Finset.mem_singleton_self _), .inr (Finset.mem_singleton_self _)⟩
        obtain ⟨hmethod, -⟩ := allows_iff.mp ((hsame none _).mpr hall)
        rcases hmethod with hmem | hmem
        · cases Finset.mem_singleton.mp hmem
        · cases Finset.mem_singleton.mp hmem
    | only nsid =>
      right
      use nsid, rfl
      by_contra hbad
      rw [← not_or, not_not] at hbad
      have hnsid : '&' ∉ nsid := by
        rcases h.place with ⟨other, hother, hquery⟩ | hplain
        · obtain rfl := Pattern.only.inj (Finset.singleton_injective hother)
          rcases hbad with rfl | hmem
          · exact List.not_mem_nil
          · exact absurd hmem hquery
        · exact (hplain nsid (Finset.mem_singleton_self _)).1
      have hlxm : Pattern.only nsid ≠ .all := by
        intro heq
        cases heq
      rw [text_one hlxm, parse_rpc] at hagain
      cases hread : parseRpc (some (nsid ++ '?' :: item "aud".toList aud.text)) with
      | rpc read =>
        change Except.ok (parseRpc (some (nsid ++ '?' :: item "aud".toList aud.text))) = _ at hagain
        rw [hread] at hagain
        obtain rfl := Except.ok.inj hagain
        obtain ⟨hmem, hne⟩ := only_not_mem_parseRpc hbad hnsid haudItem hread
        exact hmem (names_of_same rfl (Finset.singleton_ne_empty _) hne (hsame none)).1
      | _ =>
        rw [parseRpc] at hread
        split_ifs at hread
  · intro nsid hnsid
    rcases h.place with ⟨other, hother, -⟩ | hplain
    · have hname := hother ▸ hnsid
      obtain rfl := Pattern.only.inj (Finset.mem_singleton.mp hname)
      rw [text_many h.lxm h.aud hone, parse_rpc_query] at hagain
      obtain rfl := Except.ok.inj hagain
      obtain ⟨hmem, -⟩ := names_of_same hother h.aud (orAll_ne_empty _) (hsame none)
      exact only_mem_orAll_valuesOf hmem
    · exact hplain nsid hnsid

/-! ### Collections and actions -/

theorem RepoScope.allows_iff {scope : RepoScope} {collection : Chars} {action : RepoAction} :
  scope.allows collection action = true ↔
    (.all ∈ scope.collections ∨ .only collection ∈ scope.collections) ∧ action ∈ scope.actions
  := by
  rw [allows, Bool.and_eq_true, decide_eq_true_iff, decide_eq_true_iff, exists_covers_iff]

/-- Scopes that authorize the same requests name the same collections, but for what a star covers. -/
theorem RepoScope.names_of_same {scope again : RepoScope} (hactions : scope.actions ≠ ∅)
    (h : ∀ request, Scope.Authorizes none request (.repo again) ↔
      Scope.Authorizes none request (.repo scope)) {name : Chars}
    (hname : .only name ∈ scope.collections) :
  .all ∈ again.collections ∨ .only name ∈ again.collections
  := by
  obtain ⟨action, haction⟩ := Finset.nonempty_iff_ne_empty.mpr hactions
  exact (allows_iff.mp ((h (.repo name action)).mpr (allows_iff.mpr ⟨.inr hname, haction⟩))).1

/-- A scope that authorizes the same as one with a star has one. -/
theorem RepoScope.all_of_same {scope again : RepoScope} (hactions : scope.actions ≠ ∅)
    (h : ∀ request, Scope.Authorizes none request (.repo again) ↔
      Scope.Authorizes none request (.repo scope)) (hall : .all ∈ scope.collections) :
  .all ∈ again.collections
  := by
  obtain ⟨action, haction⟩ := Finset.nonempty_iff_ne_empty.mpr hactions
  obtain ⟨fresh, hfresh⟩ := Infinite.exists_notMem_finset (again.collections.image Pattern.text)
  have hallows := allows_iff.mp ((h (.repo fresh action)).mpr (allows_iff.mpr ⟨.inl hall, haction⟩))
  apply hallows.1.resolve_right
  intro hmem
  exact hfresh (Finset.mem_image.mpr ⟨_, hmem, rfl⟩)

/-- Scopes that authorize the same requests have the same actions. -/
theorem RepoScope.actions_of_same {scope again : RepoScope} (hcollections : again.collections ≠ ∅)
    (h : ∀ request, Scope.Authorizes none request (.repo again) ↔
      Scope.Authorizes none request (.repo scope)) :
  again.actions ⊆ scope.actions
  := by
  intro action haction
  obtain ⟨name, hname⟩ := exists_covered hcollections
  rw [exists_covers_iff] at hname
  exact (allows_iff.mp ((h (.repo name action)).mp (allows_iff.mpr ⟨hname, haction⟩))).2

/-- A text in front of a query that starts with another one ends the first item of this. -/
theorem append_join (front first : Chars) (others : List Chars) :
  front ++ '?' :: join '&' (first :: others) = join '&' ((front ++ '?' :: first) :: others)
  := by
  cases others with
  | nil => rw [join_singleton, join_singleton]
  | cons other others =>
    rw [join_cons_cons, join_cons_cons, List.append_assoc]
    rfl

/-- A collection that starts a query is not one that is read of it. -/
theorem RepoScope.not_mem_valuesOf {rest : Chars} (h : '&' ∉ rest) (scope : RepoScope) :
  '?' :: rest ∉ valuesOf "collection".toList (some (withQuery rest scope.actionParams))
  := by
  intro hmem
  change _ ∈ queryValues _ (parseQueryString (withQuery rest scope.actionParams)) at hmem
  rw [actionParams_eq] at hmem
  have hreadable := readable_actionTexts scope
  have htexts : ∀ text ∈ scope.actionTexts, text.length = 6 := by
    intro text htext
    rw [actionTexts] at htext
    split_ifs at htext
    · obtain ⟨action, -, rfl⟩ := List.mem_map.mp htext
      cases action <;> rfl
    · cases htext
  have hactions : ∀ text ∈ scope.actionTexts, '&' ∉ text := not_mem_actionTexts
  generalize scope.actionTexts = texts at hmem hreadable htexts hactions
  cases texts with
  | nil =>
    change _ ∈ queryValues _ (parseQueryString rest) at hmem
    have hlength := congrArg List.length (mem_queryValues_one h hmem)
    rw [item, List.length_append, List.length_cons, List.length_cons] at hlength
    omega
  | cons action actions =>
    change _ ∈ queryValues _ (parseQueryString (rest ++ '?' ::
      join '&' (itemOf ("action".toList, action) ::
        (actions.map (Prod.mk "action".toList)).map itemOf))) at hmem
    rw [append_join, parseQueryString_join, List.flatMap_cons, ← parseQueryString_join,
      parseQueryString_itemOf fun pair hpair => hreadable pair (List.mem_cons_of_mem _ hpair),
      queryValues_append, queryValues_map, if_neg (by decide), List.append_nil] at hmem
    have hplain : '&' ∉ rest ++ '?' :: itemOf ("action".toList, action) := by
      have haction : '&' ∉ action := hactions action List.mem_cons_self
      intro hmem
      rcases List.mem_append.mp hmem with hmem | hmem
      · exact h hmem
      · rcases List.mem_cons.mp hmem with heq | hmem
        · cases heq
        · rcases List.mem_append.mp hmem with hmem | hmem
          · have hkey : '&' ∉ "action".toList := by decide
            exact hkey hmem
          · rcases List.mem_cons.mp hmem with heq | hmem
            · cases heq
            · exact haction hmem
    have hlength := congrArg List.length (mem_queryValues_one hplain hmem)
    rw [List.length_append, List.length_cons, itemOf, item, item, List.length_append, List.length_cons,
      List.length_append, List.length_cons, List.length_cons,
      htexts action List.mem_cons_self] at hlength
    change rest.length + (6 + (6 + 1) + 1) = 10 + (rest.length + 1 + 1) at hlength
    omega

theorem parse_mem_orAll {values : List Chars} {value : Chars} (h : value ∈ values) :
  Pattern.parse value ∈ orAll (values.map Pattern.parse).toFinset
  := by
  have hmem : Pattern.parse value ∈ (values.map Pattern.parse).toFinset :=
    List.mem_toFinset.mpr (List.mem_map_of_mem h)
  rw [orAll, if_neg]
  · exact hmem
  · exact Finset.ne_empty_of_mem hmem

/-- A text whose first part is empty is empty, or starts with a question mark. -/
theorem splitQuery_eq_nil {suffix : Chars} {query : Option Chars} (h : splitQuery suffix = ([], query)) :
  suffix = [] ∨ ∃ rest, suffix = '?' :: rest
  := by
  rw [splitQuery] at h
  cases hsplit : splitFirst '?' suffix with
  | none =>
    rw [hsplit] at h
    exact .inl (Prod.mk.inj h).1
  | some parts =>
    rw [hsplit] at h
    obtain ⟨hparts, -⟩ := splitFirst_eq_some.mp hsplit
    have hfront : parts.1 = [] := (Prod.mk.inj h).1
    rw [hfront] at hparts
    exact .inr ⟨_, hparts⟩

/-- A collection whose text is empty or has a question mark is not the one that is read behind a colon. -/
theorem RepoScope.not_keeps_one {scope again : RepoScope} {name : Chars} (h : scope.WellFormed)
    (hone : scope.collections = {.only name}) (hbad : name = [] ∨ '?' ∈ name)
    (hread : parseRepo (some (withQuery name scope.actionParams)) = .ok (.repo again))
    (hsame : ∀ request, Scope.Authorizes none request (.repo again) ↔
      Scope.Authorizes none request (.repo scope)) :
  False
  := by
  obtain ⟨front, query, hsplit⟩ : ∃ front query,
      splitQuery (withQuery name scope.actionParams) = (front, query) := ⟨_, _, rfl⟩
  rw [parseRepo] at hread
  dsimp only [Option.getD_some] at hread
  rw [hsplit] at hread
  obtain ⟨actions, -, hread⟩ := Logic.bind_eq_ok.mp hread
  cases hread
  have hname : .only name ∈ scope.collections := hone ▸ Finset.mem_singleton_self _
  have hback := fun request => (hsame request).symm
  -- the other scope names this collection and no other one
  have hvalue : ∀ value ∈ repoCollections front query, value = name := by
    intro value hvalue
    have hmem := parse_mem_orAll hvalue
    rw [Pattern.parse] at hmem
    split_ifs at hmem
    · have hstar := all_of_same (orEvery_ne_empty actions) hback hmem
      rw [hone] at hstar
      cases Finset.mem_singleton.mp hstar
    · have hnames := names_of_same (orEvery_ne_empty actions) hback hmem
      rw [hone, Finset.mem_singleton, Finset.mem_singleton] at hnames
      rcases hnames with heq | heq
      · cases heq
      · exact Pattern.only.inj heq
  have hmem : name ∈ repoCollections front query := by
    rcases names_of_same h.actions hsame hname with hall | honly
    · have hstar := all_of_same (orEvery_ne_empty actions) hback hall
      rw [hone] at hstar
      cases Finset.mem_singleton.mp hstar
    · exact (only_mem_parse (only_mem_orAll honly)).1
  have hquery : '?' ∉ front := by
    have hfront := not_mem_splitQuery (withQuery name scope.actionParams)
    rw [hsplit] at hfront
    exact hfront
  cases hfront : front with
  | cons c rest =>
    have heq : front = name := by
      apply hvalue
      rw [repoCollections, positionalOf, hfront]
      exact List.mem_cons_self
    rcases hbad with rfl | hmem
    · rw [hfront] at heq
      cases heq
    · exact hquery (heq ▸ hmem)
  | nil =>
    rw [hfront] at hsplit hmem
    change name ∈ valuesOf "collection".toList query at hmem
    cases name with
    | nil =>
      rw [splitQuery_withQuery List.not_mem_nil] at hsplit
      rw [← (Prod.mk.inj hsplit).2, actionParams_eq, valuesOf_written (readable_actionTexts scope),
        queryValues_map, if_neg (by decide)] at hmem
      cases hmem
    | cons c rest =>
      have htext : withQuery (c :: rest) scope.actionParams = c :: withQuery rest scope.actionParams :=
        withQuery_append [c] rest _
      rw [htext] at hsplit
      obtain hnil | ⟨_, hcons⟩ := splitQuery_eq_nil hsplit
      · cases hnil
      · obtain rfl : c = '?' := (List.cons.inj hcons).1
        have hplain : '&' ∉ rest := by
          have hitem := ((h.name _ hname).2).resolve_right fun hmem => hmem List.mem_cons_self
          exact fun hmem => hitem (List.mem_cons_of_mem _ hmem)
        have hrest : splitQuery ('?' :: withQuery rest scope.actionParams) =
            ([], some (withQuery rest scope.actionParams)) := splitQuery_append List.not_mem_nil _
        rw [hrest] at hsplit
        rw [← (Prod.mk.inj hsplit).2] at hmem
        exact not_mem_valuesOf hplain scope hmem

/-- The collections that are read of a query have no ampersand. -/
theorem RepoScope.parseRepo_query {query : Chars} {scope : Scope}
    (h : parseRepo (some ('?' :: query)) = .ok scope) :
  ∃ again : RepoScope, scope = .repo again ∧ again.WellFormed ∧
    ∀ name, .only name ∈ again.collections → '&' ∉ name
  := by
  have hwell := wellFormed_parseRepo h
  have hsplit : splitQuery ('?' :: query) = ([], some query) := splitQuery_append List.not_mem_nil query
  rw [parseRepo] at h
  dsimp only [Option.getD_some] at h
  rw [hsplit] at h
  obtain ⟨actions, -, h⟩ := Logic.bind_eq_ok.mp h
  cases h
  refine ⟨_, rfl, hwell, ?_⟩
  intro name hname
  have hmem : .only name ∈
      orAll ((valuesOf "collection".toList (some query)).map Pattern.parse).toFinset := hname
  exact (only_mem_orAll_valuesOf hmem).1

theorem RepoScope.not_mem_collectionItem {collection : RepoCollection} (h : '&' ∉ collection.text) :
  '&' ∉ collectionItem collection
  := by
  have hpart : collectionItem collection ∈ (collectionItem collection).splitOn '&' := by
    rw [collectionItem, splitOn_item (by decide) h]
    exact List.mem_singleton_self _
  exact not_mem_of_mem_splitOn hpart

/-- More collections are kept only as items that are in order, where some name has an ampersand. -/
theorem RepoScope.refits_of_kept {scope again : RepoScope} {a b : RepoCollection}
    {rest : List RepoCollection} (h : scope.WellFormed) (hsort : scope.collections.sort = a :: b :: rest)
    (hwell : again.WellFormed) (hplain : ∀ name, .only name ∈ again.collections → '&' ∉ name)
    (htext : again.toStringNormalized = scope.toStringNormalized)
    (hsame : ∀ request, Scope.Authorizes none request (.repo again) ↔
      Scope.Authorizes none request (.repo scope)) {name : Chars}
    (hname : .only name ∈ scope.collections) (hitem : '&' ∈ name) :
  scope.Refits
  := by
  have hback := fun request => (hsame request).symm
  have hall : Pattern.all ∈ again.collections :=
    (names_of_same h.actions hsame hname).resolve_right fun hmem => hplain name hmem hitem
  have hactions : again.actions = scope.actions :=
    Finset.Subset.antisymm (actions_of_same hwell.collections hsame)
      (actions_of_same h.collections hback)
  have hparams : again.actionParams = scope.actionParams := by
    rw [actionParams, actionParams, hactions]
  refine ⟨all_of_same hwell.actions hback hall, again.collections.sort,
    (Finset.sortedLT_sort again.collections).pairwise, ?_, ?_⟩
  · intro hmem
    exact (hwell.name ['*'] ((Finset.mem_sort _).mp hmem)).1 rfl
  · rw [text_many hsort] at htext
    obtain hempty | ⟨collection, hone⟩ | ⟨c, d, others, hsort'⟩ := sort_cases again.collections
    · exact absurd hempty hwell.collections
    · obtain ⟨collections, actions⟩ := again
      obtain rfl : collections = {collection} := hone
      rw [text_one] at htext
      cases htext
    · rw [text_many hsort', hparams] at htext
      have hparts := congrArg (List.splitOn '&') (List.append_cancel_left htext)
      have hne : again.collections.sort.map collectionItem ++ scope.actionParams ≠ [] := by
        rw [hsort']
        exact List.cons_ne_nil _ _
      have hne' : scope.collections.sort.map collectionItem ++ scope.actionParams ≠ [] := by
        rw [hsort]
        exact List.cons_ne_nil _ _
      have hnames : ∀ text ∈ again.collections.sort.map collectionItem, '&' ∉ text := by
        intro text htext
        obtain ⟨collection, hcollection, rfl⟩ := List.mem_map.mp htext
        apply not_mem_collectionItem
        cases collection with
        | all => decide
        | only other => exact hplain other ((Finset.mem_sort _).mp hcollection)
      rw [splitOn_join hne, splitOn_join hne', List.flatMap_append, List.flatMap_append,
        flatMap_splitOn_of_not_mem hnames] at hparts
      exact (List.append_cancel_right hparts).symm

theorem RepoScope.keeps_of_kept {scope : RepoScope} (h : scope.WellFormed)
    (hkept : (Scope.repo scope).Kept) :
  scope.Keeps
  := by
  obtain ⟨again, hagain, htext, hsame⟩ := hkept
  change Scope.parse scope.toStringNormalized = _ at hagain
  rw [Keeps]
  obtain hempty | ⟨collection, hone⟩ | ⟨a, b, rest, hsort⟩ := sort_cases scope.collections
  · exact absurd hempty h.collections
  · rw [hone, if_pos (Finset.card_singleton _)]
    intro other hother
    obtain rfl := Finset.mem_singleton.mp hother
    cases other with
    | all => decide
    | only name =>
      by_contra hbad
      rw [not_and_or, not_not, not_not] at hbad
      have hprint : scope.toStringNormalized = "repo:".toList ++ withQuery name scope.actionParams := by
        obtain ⟨collections, actions⟩ := scope
        obtain rfl : collections = {.only name} := hone
        exact text_one _ _
      rw [hprint, parse_repo] at hagain
      have hrepo := hagain
      rw [parseRepo] at hrepo
      obtain ⟨actions, -, hrepo⟩ := Logic.bind_eq_ok.mp hrepo
      cases hrepo
      exact not_keeps_one h hone hbad hagain (hsame none)
  · rw [if_neg fun hcard => (Finset.card_eq_one.mp hcard).elim (ne_singleton_of_sort hsort)]
    by_contra hbad
    rw [not_or] at hbad
    obtain ⟨hplain, hrefits⟩ := hbad
    push Not at hplain
    obtain ⟨name, hname, hitem⟩ := hplain
    have hread : Scope.parse scope.toStringNormalized = parseRepo (some ('?' ::
        join '&' (scope.collections.sort.map collectionItem ++ scope.actionParams))) := by
      rw [text_many hsort]
      rfl
    rw [hread] at hagain
    obtain ⟨read, rfl, hwell, hnames⟩ := parseRepo_query hagain
    exact hrefits (refits_of_kept h hsort hwell hnames htext (hsame none) hname hitem)

/-! ### Every kind -/

/-- A scope that has been read is kept by its normal text exactly when no part of it is read in another
way there. -/
theorem Scope.kept_iff {scope : Scope} (h : scope.WellFormed) :
  scope.Kept ↔ scope.Keeps
  := by
  cases scope with
  | account scope => exact iff_of_true scope.kept trivial
  | identity scope => exact iff_of_true scope.kept trivial
  | transition scope => exact iff_of_true scope.kept trivial
  | space scope => exact iff_of_true (SpacePermission.kept h.1 h.2) trivial
  | includeSet scope => exact iff_of_true (IncludeScope.kept h) trivial
  | atproto => exact iff_of_true (kept_of_parse rfl) trivial
  | openId => exact iff_of_true (kept_of_parse rfl) trivial
  | profile => exact iff_of_true (kept_of_parse rfl) trivial
  | email => exact iff_of_true (kept_of_parse rfl) trivial
  | blob scope => exact ⟨BlobScope.keeps_of_kept h, BlobScope.kept h⟩
  | repo scope => exact ⟨RepoScope.keeps_of_kept h, RepoScope.kept h⟩
  | rpc scope => exact ⟨RpcScope.keeps_of_kept h, RpcScope.kept h⟩

/-- The normal text of a scope that is read can be read, is the normal text of what is read of it, and as a
scope of a token allows the requests that the text allowed. -/
def NormalTextMeansSame (text : Chars) (scope : Scope) : Prop :=
  ∃ again, Scope.parse scope.toStringNormalized = .ok again ∧
    again.toStringNormalized = scope.toStringNormalized ∧
      ∀ (subject : Option Chars) (request : Request),
        ScopesSet.allows { scopes := [scope.toStringNormalized], subject := subject } request =
          ScopesSet.allows { scopes := [text], subject := subject } request

/-- The normal text of a scope that is read means the same exactly when no part of the scope is read in
another way there. -/
theorem normal_text_iff {text : Chars} {scope : Scope} (h : Scope.parse text = .ok scope) :
  NormalTextMeansSame text scope ↔ scope.Keeps
  := by
  rw [← Scope.kept_iff (Scope.wellFormed_of_parse h)]
  apply exists_congr
  intro again
  apply and_congr_right
  intro hagain
  apply and_congr_right
  intro _
  apply forall_congr'
  intro subject
  apply forall_congr'
  intro request
  rw [Bool.eq_iff_iff, ScopesSet.allows_one_iff hagain, ScopesSet.allows_one_iff h]

/-- The method of a scope for one audience is written in front of the query. -/
theorem normal_text_iff_method :
  ∃ scope, Scope.parse "rpc:a.b?aud=did:web:c".toList = .ok scope ∧
    (NormalTextMeansSame "rpc:a.b?aud=did:web:c".toList scope ↔ scope.Keeps)
  := ⟨_, rfl, normal_text_iff rfl⟩

/-- Every method at one audience is written as the method whose name is a star, and so calls that a token
with the text allows are not allowed with its normal text. -/
theorem normal_text_narrows :
  ∃ scope, Scope.parse "rpc?lxm=*&aud=did:web:c".toList = .ok scope ∧
    ¬NormalTextMeansSame "rpc?lxm=*&aud=did:web:c".toList scope
  := by
  have hparse : Scope.parse "rpc?lxm=*&aud=did:web:c".toList =
      .ok (.rpc { lxm := {.all}, aud := {.only "did:web:c".toList} }) := rfl
  refine ⟨_, hparse, ?_⟩
  rintro ⟨again, hagain, -, hsame⟩
  have hread : Scope.parse (Scope.toStringNormalized (.rpc {
      lxm := {.all}, aud := {.only "did:web:c".toList} })) =
        .ok (.rpc { lxm := {.only ['*']}, aud := {.only "did:web:c".toList} }) := by
    rw [Scope.toStringNormalized, RpcScope.toStringNormalized, Finset.sort_singleton, Finset.sort_singleton]
    rfl
  have hrequest := Bool.eq_iff_iff.mp (hsame none (.rpc "a.b".toList "did:web:c".toList))
  rw [ScopesSet.allows_one_iff hread, ScopesSet.allows_one_iff hparse] at hrequest
  have hall : Scope.Authorizes none (.rpc "a.b".toList "did:web:c".toList)
      (.rpc { lxm := {.all}, aud := {.only "did:web:c".toList} }) :=
    RpcScope.allows_iff.mpr ⟨.inl (Finset.mem_singleton_self _), .inr (Finset.mem_singleton_self _)⟩
  have hallows := RpcScope.allows_iff.mp (hrequest.mpr hall)
  rcases hallows.1 with hmem | hmem
  · cases Finset.mem_singleton.mp hmem
  · cases Finset.mem_singleton.mp hmem

end Atproto.Scopes
