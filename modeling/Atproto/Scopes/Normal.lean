import Atproto.Scopes.Grants
import Atproto.Scopes.WellFormed

/-!
# Normal texts of scopes

A scope that has been read is written in a normal form.  This is read as the same scope where no part of
it stands at a place at which another sign ends it.
-/

namespace Atproto.Scopes

open Wire

/-! ### Percent signs -/

theorem urlDecode_cons {c : Char} (h : c ≠ '%') (text : Chars) :
  urlDecode (c :: text) = c :: urlDecode text
  := by
  cases text with
  | nil => rfl
  | cons a text =>
    cases text with
    | nil => rfl
    | cons b text => exact if_neg h

theorem hexByte_hexUpper :
  ∀ high < 16, ∀ low < 16, hexByte (hexUpper high) (hexUpper low) = some (high * 16 + low)
  := by decide

theorem urlDecode_percent {high low : Nat} (hhigh : high < 16) (hlow : low < 16) (text : Chars) :
  urlDecode ('%' :: hexUpper high :: hexUpper low :: text) =
    Char.ofNat (high * 16 + low) :: urlDecode text
  := by
  rw [urlDecode, if_pos rfl, hexByte_hexUpper high hhigh low hlow]

/-- A character of a scope is one byte. -/
theorem utf8EncodeChar_of_isScopeChar {c : Char} (h : isScopeChar c = true) :
  ∃ byte : UInt8, String.utf8EncodeChar c = [byte] ∧ byte.toNat = c.toNat
  := by
  have hcode : c.toNat ≤ 127 := by
    simp only [isScopeChar, Bool.or_eq_true, beq_iff_eq, Bool.and_eq_true, decide_eq_true_iff] at h
    omega
  refine ⟨c.val.toUInt8, String.utf8EncodeChar_eq_singleton (Char.utf8Size_eq_one_iff.mpr ?_), ?_⟩
  · rw [UInt32.le_iff_toNat_le]
    exact hcode
  · rw [UInt32.toNat_toUInt8]
    apply Nat.mod_eq_of_lt
    change c.toNat < 256
    omega

/-- An audience is decoded as it is encoded. -/
theorem urlDecode_urlEncode {text : Chars} (h : text.all isScopeChar = true) :
  urlDecode (urlEncode text) = text
  := by
  induction text with
  | nil => rfl
  | cons c text ih =>
    obtain ⟨hc, htext⟩ := Bool.and_eq_true_iff.mp h
    rw [urlEncode, List.flatMap_cons]
    split_ifs with hplain
    · have hpercent : c ≠ '%' := by
        rintro rfl
        revert hplain
        decide
      change urlDecode (c :: urlEncode text) = _
      rw [urlDecode_cons hpercent, ih htext]
    · obtain ⟨byte, hbytes, hbyte⟩ := utf8EncodeChar_of_isScopeChar hc
      have hlt := byte.toNat_lt
      rw [hbytes, List.flatMap_singleton]
      change urlDecode
        ('%' :: hexUpper (byte.toNat / 16) :: hexUpper (byte.toNat % 16) :: urlEncode text) = _
      rw [urlDecode_percent (by omega) (by omega), ih htext, Nat.div_add_mod', hbyte, Char.ofNat_toNat]

theorem hexUpper_ne_amp :
  ∀ digit < 16, hexUpper digit ≠ '&'
  := by decide

/-- An audience is encoded without an ampersand. -/
theorem not_mem_urlEncode (text : Chars) :
  '&' ∉ urlEncode text
  := by
  intro h
  obtain ⟨c, -, hc⟩ := List.mem_flatMap.mp h
  split_ifs at hc with hplain
  · rw [← List.mem_singleton.mp hc] at hplain
    revert hplain
    decide
  · obtain ⟨byte, -, hbyte⟩ := List.mem_flatMap.mp hc
    have hlt := byte.toNat_lt
    simp only [List.mem_cons, List.not_mem_nil, or_false] at hbyte
    rcases hbyte with heq | heq | heq
    · cases heq
    · exact hexUpper_ne_amp _ (by omega) heq.symm
    · exact hexUpper_ne_amp _ (by omega) heq.symm

/-! ### Sorted items -/

/-- A pair, as it stands in a query. -/
def itemOf (pair : Chars × Chars) : Chars := item pair.1 pair.2

/-- The items of a query can be read: nothing ends a key or a value. -/
def Readable (pairs : List (Chars × Chars)) : Prop :=
  ∀ pair ∈ pairs, '=' ∉ pair.1 ∧ '&' ∉ pair.1 ∧ '&' ∉ pair.2

theorem parseQueryString_itemOf {pairs : List (Chars × Chars)} (h : Readable pairs) :
  parseQueryString (join '&' (pairs.map itemOf)) = pairs
  := by
  rw [parseQueryString_join]
  induction pairs with
  | nil => rfl
  | cons pair pairs ih =>
    obtain ⟨hequals, hkey, hvalue⟩ := h pair List.mem_cons_self
    rw [List.map_cons, List.flatMap_cons, ih fun other hother => h other (List.mem_cons_of_mem _ hother),
      itemOf, parseQueryString_item hequals hkey hvalue]
    rfl

/-- Sorted items are read as the same pairs in another order. -/
theorem parseQueryString_sortTexts {pairs : List (Chars × Chars)} (h : Readable pairs) :
  (parseQueryString (join '&' (sortTexts (pairs.map itemOf)))).Perm pairs
  := by
  let sorted := pairs.mergeSort fun a b => decide (itemOf a ≤ itemOf b)
  have hperm : sorted.Perm pairs := List.mergeSort_perm pairs _
  have hsorted : sortTexts (pairs.map itemOf) = sorted.map itemOf := by
    rw [sortTexts]
    symm
    apply List.map_mergeSort
    intro a _ b _
    rfl
  rw [hsorted, parseQueryString_itemOf]
  · exact hperm
  · intro pair hpair
    exact h pair (hperm.mem_iff.mp hpair)

theorem queryValues_perm {pairs others : List (Chars × Chars)} (h : pairs.Perm others) (key : Chars) :
  (queryValues key pairs).Perm (queryValues key others)
  := (h.filter _).map _

theorem readable_append {pairs others : List (Chars × Chars)} (h : Readable pairs)
    (h' : Readable others) :
  Readable (pairs ++ others)
  := by
  intro pair hpair
  rcases List.mem_append.mp hpair with hmem | hmem
  · exact h pair hmem
  · exact h' pair hmem

theorem readable_map {key : Chars} (hequals : '=' ∉ key) (hkey : '&' ∉ key) {values : List Chars}
    (h : ∀ value ∈ values, '&' ∉ value) :
  Readable (values.map (Prod.mk key))
  := by
  intro pair hpair
  obtain ⟨value, hvalue, rfl⟩ := List.mem_map.mp hpair
  exact ⟨hequals, hkey, h value hvalue⟩

/-! ### What is kept -/

/-- The normal text of a scope is read as a scope with the same normal text, which authorizes the same
requests. -/
def Scope.Kept (scope : Scope) : Prop :=
  ∃ again, Scope.parse scope.toStringNormalized = .ok again ∧
    again.toStringNormalized = scope.toStringNormalized ∧
      ∀ (subject : Option Chars) (request : Request),
        Authorizes subject request again ↔ Authorizes subject request scope

theorem Scope.kept_of_parse {scope : Scope} (h : Scope.parse scope.toStringNormalized = .ok scope) :
  scope.Kept
  := ⟨scope, h, rfl, fun _ _ => Iff.rfl⟩

theorem AccountScope.kept (scope : AccountScope) :
  (Scope.account scope).Kept
  := by
  apply Scope.kept_of_parse
  obtain ⟨resource, action⟩ := scope
  cases resource <;> cases action <;> rfl

theorem IdentityScope.kept (scope : IdentityScope) :
  (Scope.identity scope).Kept
  := by
  apply Scope.kept_of_parse
  cases scope <;> rfl

theorem TransitionScope.kept (scope : TransitionScope) :
  (Scope.transition scope).Kept
  := by
  apply Scope.kept_of_parse
  cases scope <;> rfl

theorem SpacePermission.kept {permission : SpacePermission} (h : permission.Plain)
    (hreread : permission.reread = permission) :
  (Scope.space permission).Kept
  := by
  apply Scope.kept_of_parse
  apply h.parse_toScopeString.trans
  rw [hreread]

theorem IncludeScope.kept {scope : IncludeScope} (h : scope.WellFormed) :
  (Scope.includeSet scope).Kept
  := by
  apply Scope.kept_of_parse
  have hne : ¬scope.nsid.isEmpty = true := mt List.isEmpty_iff.mp h.nsid_ne_nil
  change Scope.parse scope.toStringNormalized = _
  rw [toStringNormalized]
  cases haud : scope.aud with
  | none =>
    dsimp only
    have hread : Scope.parse ("include:".toList ++ scope.nsid) = parseInclude (some scope.nsid) := rfl
    rw [hread, parseInclude, splitQuery_of_not_mem h.nsid]
    dsimp only
    rw [if_neg hne]
    change Except.ok (Scope.includeSet { nsid := scope.nsid, aud := none }) = _
    rw [← haud]
  | some aud =>
    dsimp only
    have hread : Scope.parse ("include:".toList ++ (scope.nsid ++ ("?aud=".toList ++ urlEncode aud))) =
      parseInclude (some (scope.nsid ++ '?' :: item "aud".toList (urlEncode aud))) := rfl
    have hfirst : (firstValue "aud".toList (some (item "aud".toList (urlEncode aud)))).map urlDecode =
        some aud := by
      change Option.map urlDecode (queryValues "aud".toList
        (parseQueryString (item "aud".toList (urlEncode aud)))).head? = _
      rw [parseQueryString_item (by decide) (by decide) (not_mem_urlEncode aud)]
      change some (urlDecode (urlEncode aud)) = _
      rw [urlDecode_urlEncode (h.aud aud haud)]
    have hcheck : checkAudience (some aud) = .ok () := by
      rw [checkAudience, if_neg]
      rw [isScopeToken, h.aud aud haud]
      cases aud.isEmpty <;> decide
    rw [hread, parseInclude, splitQuery_append h.nsid]
    dsimp only
    rw [if_neg hne, hfirst, hcheck]
    change Except.ok (Scope.includeSet { nsid := scope.nsid, aud := some aud }) = _
    rw [← haud]

/-! ### Sets that are written in order -/

/-- A set has no element, one, or more. -/
theorem sort_cases {α : Type} [LinearOrder α] (s : Finset α) :
  s = ∅ ∨ (∃ a, s = {a}) ∨ ∃ a b rest, s.sort = a :: b :: rest
  := by
  cases h : s.sort with
  | nil =>
    left
    rw [← s.sort_toFinset (fun a b => a ≤ b), h]
    rfl
  | cons a rest =>
    cases rest with
    | nil =>
      right
      left
      use a
      rw [← s.sort_toFinset (fun a b => a ≤ b), h]
      rfl
    | cons b rest => exact .inr (.inr ⟨a, b, rest, rfl⟩)

theorem ne_singleton_of_sort {α : Type} [LinearOrder α] {s : Finset α} {a b : α} {rest : List α}
    (h : s.sort = a :: b :: rest) (c : α) :
  s ≠ {c}
  := by
  rintro rfl
  rw [Finset.sort_singleton] at h
  cases h

/-! ### Patterns of media types -/

/-- One pattern does not look like the start of a query. -/
def BlobScope.Keeps (scope : BlobScope) : Prop :=
  ∀ pattern, scope.accept = {pattern} → pattern.text.head? ≠ some '?'

theorem parseMimePatterns_of_forall {values : List Chars} {accept : Finset MimePattern}
    (hvalues : ∀ value ∈ values, ∃ pattern ∈ accept, MimePattern.fromStr value = .ok pattern)
    (haccept : ∀ pattern ∈ accept, ∃ value ∈ values, MimePattern.fromStr value = .ok pattern) :
  parseMimePatterns values = .ok accept
  := by
  have hread : ∀ values : List Chars,
      (∀ value ∈ values, ∃ pattern, MimePattern.fromStr value = .ok pattern) →
        ∃ read, parseMimePatterns values = .ok read ∧ ∀ value ∈ values, ∀ pattern,
          MimePattern.fromStr value = .ok pattern → pattern ∈ read := by
    intro values hvalues
    induction values with
    | nil =>
      use ∅, rfl
      nofun
    | cons value values ih =>
      obtain ⟨pattern, hpattern⟩ := hvalues value List.mem_cons_self
      obtain ⟨read, hread, hmem⟩ := ih fun other hother => hvalues other (List.mem_cons_of_mem _ hother)
      refine ⟨insert pattern read, ?_, ?_⟩
      · rw [parseMimePatterns, hpattern, hread]
        rfl
      · intro other hother wanted hwanted
        rcases List.mem_cons.mp hother with rfl | hmem'
        · rw [hpattern] at hwanted
          cases hwanted
          exact Finset.mem_insert_self _ _
        · exact Finset.mem_insert_of_mem (hmem other hmem' wanted hwanted)
  obtain ⟨read, hparse, hmem⟩ := hread values fun value hvalue => by
    obtain ⟨pattern, -, hpattern⟩ := hvalues value hvalue
    exact ⟨pattern, hpattern⟩
  rw [hparse]
  apply congrArg
  ext pattern
  constructor
  · intro hpattern
    obtain ⟨value, hvalue, hvalue'⟩ := parseMimePatterns_mem hparse hpattern
    obtain ⟨other, hother, hother'⟩ := hvalues value hvalue
    rw [hvalue'] at hother'
    cases hother'
    exact hother
  · intro hpattern
    obtain ⟨value, hvalue, hvalue'⟩ := haccept pattern hpattern
    exact hmem value hvalue pattern hvalue'

theorem BlobScope.kept {scope : BlobScope} (h : scope.WellFormed) (hkeeps : scope.Keeps) :
  (Scope.blob scope).Kept
  := by
  apply Scope.kept_of_parse
  change Scope.parse scope.toStringNormalized = _
  rw [toStringNormalized]
  obtain hempty | ⟨pattern, hone⟩ | ⟨a, b, rest, hsort⟩ := sort_cases scope.accept
  · exact absurd hempty h.accept
  · rw [hone, Finset.sort_singleton]
    dsimp only
    rw [parse_blob, parseBlob, if_neg (hkeeps pattern hone),
      h.text pattern (hone ▸ Finset.mem_singleton_self pattern)]
    change Except.ok (Scope.blob { accept := {pattern} }) = _
    rw [← hone]
  · rw [hsort]
    dsimp only
    rw [← hsort]
    have hmem : ∀ {pattern}, pattern ∈ scope.accept.sort ↔ pattern ∈ scope.accept :=
      Finset.mem_sort _
    have hplain : ∀ pattern ∈ scope.accept, '&' ∉ pattern.text := by
      rcases h.place with ⟨pattern, hone, -⟩ | hplain
      · exact absurd hone (ne_singleton_of_sort hsort pattern)
      · exact hplain
    let values := scope.accept.sort.map MimePattern.text
    have hreadable : Readable (values.map (Prod.mk "accept".toList)) := by
      apply readable_map (by decide) (by decide)
      intro value hvalue
      obtain ⟨pattern, hpattern, rfl⟩ := List.mem_map.mp hvalue
      exact hplain pattern (hmem.mp hpattern)
    have hitems : (scope.accept.sort.map fun pattern => item "accept".toList pattern.text) =
        (values.map (Prod.mk "accept".toList)).map itemOf := by
      rw [List.map_map, List.map_map]
      rfl
    have hvalues := queryValues_perm (parseQueryString_sortTexts hreadable) "accept".toList
    rw [queryValues_map, if_pos rfl] at hvalues
    have haccept : parseMimePatterns (queryValues "accept".toList (parseQueryString
        (join '&' (sortTexts ((values.map (Prod.mk "accept".toList)).map itemOf))))) =
          .ok scope.accept := by
      apply parseMimePatterns_of_forall
      · intro value hvalue
        obtain ⟨pattern, hpattern, rfl⟩ := List.mem_map.mp (hvalues.mem_iff.mp hvalue)
        exact ⟨pattern, hmem.mp hpattern, h.text pattern (hmem.mp hpattern)⟩
      · intro pattern hpattern
        refine ⟨pattern.text, hvalues.mem_iff.mpr ?_, h.text pattern hpattern⟩
        exact List.mem_map_of_mem (hmem.mpr hpattern)
    rw [hitems]
    have hread : ∀ query : Chars, Scope.parse ("blob?".toList ++ query) =
        parseBlob (some ('?' :: query)) := fun _ => rfl
    rw [hread, parseBlob, if_pos List.head?_cons]
    change (do
      let accept ← parseMimePatterns (queryValues "accept".toList (parseQueryString
        (join '&' (sortTexts ((values.map (Prod.mk "accept".toList)).map itemOf)))))
      .ok (Scope.blob { accept := orAllTypes accept })) = _
    rw [haccept]
    change Except.ok (Scope.blob { accept := orAllTypes scope.accept }) = _
    rw [orAllTypes, if_neg h.accept]

/-! ### Methods and audiences -/

/-- One method with one audience is a name that can stand in front of a query, or both are stars.  A method
with more audiences can stand in the query. -/
def RpcScope.Keeps (scope : RpcScope) : Prop :=
  if scope.lxm.card = 1 ∧ scope.aud.card = 1 then
    scope.lxm = {.all} ∧ scope.aud = {.all} ∨
      ∃ nsid, scope.lxm = {.only nsid} ∧ nsid ≠ [] ∧ '?' ∉ nsid
  else ∀ nsid, .only nsid ∈ scope.lxm → '&' ∉ nsid ∧ nsid ≠ ['*']

theorem RpcScope.text_one {lxm aud : Pattern} (h : lxm ≠ .all) :
  RpcScope.toStringNormalized { lxm := {lxm}, aud := {aud} } =
    "rpc:".toList ++ (lxm.text ++ '?' :: item "aud".toList aud.text)
  := by
  rw [toStringNormalized, Finset.sort_singleton, Finset.sort_singleton]
  cases lxm with
  | all => exact absurd rfl h
  | only nsid => cases aud <;> rfl

theorem RpcScope.text_many {scope : RpcScope} (hlxm : scope.lxm ≠ ∅) (haud : scope.aud ≠ ∅)
    (h : ¬(scope.lxm.card = 1 ∧ scope.aud.card = 1)) :
  scope.toStringNormalized = "rpc?".toList ++ join '&' (sortTexts (scope.pairs.map itemOf))
  := by
  have hitems : ((scope.lxm.sort.map fun lxm => item "lxm".toList lxm.text) ++
      scope.aud.sort.map fun aud => item "aud".toList aud.text) = scope.pairs.map itemOf := by
    rw [pairs, List.map_append, List.map_map, List.map_map, List.map_map, List.map_map]
    rfl
  have hne : ¬(sortTexts (scope.pairs.map itemOf)).isEmpty = true := by
    rw [List.isEmpty_iff_length_eq_zero, sortTexts, List.length_mergeSort, ← hitems, List.length_append,
      List.length_map, List.length_map, Finset.length_sort, Finset.length_sort]
    have := Finset.card_pos.mpr (Finset.nonempty_iff_ne_empty.mpr hlxm)
    omega
  rw [toStringNormalized, ← hitems]
  rw [← hitems] at hne
  obtain hempty | ⟨lxm, hone⟩ | ⟨a, b, rest, hsort⟩ := sort_cases scope.lxm
  · exact absurd hempty hlxm
  · obtain hempty' | ⟨aud, hone'⟩ | ⟨a, b, rest, hsort⟩ := sort_cases scope.aud
    · exact absurd hempty' haud
    · rw [hone, hone'] at h
      exact absurd ⟨Finset.card_singleton _, Finset.card_singleton _⟩ h
    · rw [hone, Finset.sort_singleton, hsort] at hne ⊢
      cases lxm <;> cases a <;> exact if_neg hne
  · rw [hsort] at hne ⊢
    cases a <;> exact if_neg hne

theorem parse_rpc_query (query : Chars) :
  Scope.parse ("rpc?".toList ++ query) = .ok (.rpc {
    lxm := orAll ((valuesOf "lxm".toList (some query)).map Pattern.parse).toFinset
    aud := orAll ((valuesOf "aud".toList (some query)).map Pattern.parse).toFinset })
  := by
  have hread : Scope.parse ("rpc?".toList ++ query) = .ok (parseRpc (some ('?' :: query))) := rfl
  have hstar : ('?' :: query) ≠ ['*'] := by
    intro heq
    cases heq
  rw [hread, parseRpc, if_neg hstar, if_pos List.head?_cons]
  rfl

/-- Patterns that are written in some order are read as they are. -/
theorem orAll_parse_perm {patterns : Finset Pattern} (hne : patterns ≠ ∅) (hstar : .only ['*'] ∉ patterns)
    {values : List Chars} (h : values.Perm (patterns.sort.map Pattern.text)) :
  orAll (values.map Pattern.parse).toFinset = patterns
  := by
  rw [List.toFinset_eq_of_perm _ _ (h.map Pattern.parse), Pattern.toFinset_parse_text hstar, orAll,
    if_neg hne]

theorem RpcScope.kept {scope : RpcScope} (h : scope.WellFormed) (hkeeps : scope.Keeps) :
  (Scope.rpc scope).Kept
  := by
  apply Scope.kept_of_parse
  change Scope.parse scope.toStringNormalized = _
  have hstar : .only ['*'] ∉ scope.aud := fun hmem => (h.did _ hmem).2 rfl
  rw [Keeps] at hkeeps
  split_ifs at hkeeps with hone
  · obtain ⟨aud, haud⟩ := Finset.card_eq_one.mp hone.2
    rcases hkeeps with ⟨hlxm, hall⟩ | ⟨nsid, hlxm, hne, hquery⟩
    · obtain ⟨lxm, aud⟩ := scope
      obtain rfl : lxm = {.all} := hlxm
      obtain rfl : aud = {.all} := hall
      rw [toStringNormalized, Finset.sort_singleton]
      rfl
    · have htext : scope.toStringNormalized =
          "rpc:".toList ++ (nsid ++ '?' :: item "aud".toList aud.text) := by
        obtain ⟨lxm, others⟩ := scope
        obtain rfl : lxm = {.only nsid} := hlxm
        obtain rfl : others = {aud} := haud
        apply text_one
        intro heq
        cases heq
      have hhead : (nsid ++ '?' :: item "aud".toList aud.text).head? ≠ some '?' := by
        cases nsid with
        | nil => exact absurd rfl hne
        | cons c nsid =>
          intro hhead
          cases hhead
          exact hquery List.mem_cons_self
      have hlone : nsid ++ '?' :: item "aud".toList aud.text ≠ ['*'] := by
        intro hlone
        have hmem : '?' ∈ ['*'] := hlone ▸ List.mem_append_right _ List.mem_cons_self
        revert hmem
        decide
      have haudItem : '&' ∉ aud.text := by
        cases aud with
        | all => decide
        | only did => exact (h.did did (haud ▸ Finset.mem_singleton_self _)).1
      have hvalues : valuesOf "aud".toList (some (item "aud".toList aud.text)) = [aud.text] := by
        change queryValues "aud".toList (parseQueryString (item "aud".toList aud.text)) = _
        rw [parseQueryString_item (by decide) (by decide) haudItem]
        rfl
      have hread : aud ≠ .only ['*'] := by
        rintro rfl
        exact hstar (haud ▸ Finset.mem_singleton_self _)
      rw [htext, parse_rpc, parseRpc, if_neg hlone, if_neg hhead, splitQuery_append hquery]
      dsimp only
      rw [hvalues]
      change Except.ok (Scope.rpc {
        lxm := {.only nsid}, aud := orAll {Pattern.parse aud.text} }) = _
      rw [Pattern.parse_text hread, orAll, if_neg (Finset.singleton_ne_empty _), ← hlxm, ← haud]
  · have hstar' : .only ['*'] ∉ scope.lxm := fun hmem => (hkeeps _ hmem).2 rfl
    have hreadable : Readable scope.pairs := by
      apply readable_append
      · apply readable_map (by decide) (by decide)
        intro value hvalue
        obtain ⟨lxm, hlxm, rfl⟩ := List.mem_map.mp hvalue
        cases lxm with
        | all => decide
        | only nsid => exact (hkeeps nsid ((Finset.mem_sort _).mp hlxm)).1
      · apply readable_map (by decide) (by decide)
        intro value hvalue
        obtain ⟨aud, haud, rfl⟩ := List.mem_map.mp hvalue
        cases aud with
        | all => decide
        | only did => exact (h.did did ((Finset.mem_sort _).mp haud)).1
    have hperm := parseQueryString_sortTexts hreadable
    have hlxm := queryValues_perm hperm "lxm".toList
    have haud := queryValues_perm hperm "aud".toList
    rw [pairs, queryValues_append, queryValues_map, queryValues_map, if_pos rfl, if_neg (by decide),
      List.append_nil] at hlxm
    rw [pairs, queryValues_append, queryValues_map, queryValues_map, if_pos rfl, if_neg (by decide),
      List.nil_append] at haud
    rw [text_many h.lxm h.aud hone, parse_rpc_query]
    change Except.ok (Scope.rpc {
      lxm := orAll ((queryValues "lxm".toList (parseQueryString
        (join '&' (sortTexts (scope.pairs.map itemOf))))).map Pattern.parse).toFinset
      aud := orAll ((queryValues "aud".toList (parseQueryString
        (join '&' (sortTexts (scope.pairs.map itemOf))))).map Pattern.parse).toFinset }) = _
    rw [pairs, orAll_parse_perm h.lxm hstar' hlxm, orAll_parse_perm h.aud hstar haud]

/-! ### Collections and actions -/

/-- Every collection is named, and what stands between the ampersands of the items is once more an item for
a collection, where these are in order. -/
def RepoScope.Refits (scope : RepoScope) : Prop :=
  .all ∈ scope.collections ∧ ∃ names : List RepoCollection, names.Pairwise (· < ·) ∧
    .only ['*'] ∉ names ∧
      (scope.collectionItems.flatMap fun text => text.splitOn '&') = names.map collectionItem

/-- One collection can stand in front of the query, and more of them can stand in it, or are once more
items for collections there. -/
def RepoScope.Keeps (scope : RepoScope) : Prop :=
  if scope.collections.card = 1 then
    ∀ collection ∈ scope.collections, collection.text ≠ [] ∧ '?' ∉ collection.text
  else (∀ name, .only name ∈ scope.collections → '&' ∉ name) ∨ scope.Refits

namespace RepoScope

variable {scope : RepoScope}

theorem actionParams_eq (scope : RepoScope) :
  scope.actionParams = (scope.actionTexts.map (Prod.mk "action".toList)).map itemOf
  := by
  rw [actionParams, actionTexts]
  split_ifs
  · rw [List.map_map, List.map_map]
    rfl
  · rfl

theorem not_mem_actionTexts :
  ∀ text ∈ scope.actionTexts, '&' ∉ text
  := by
  intro text htext
  rw [actionTexts] at htext
  split_ifs at htext
  · obtain ⟨action, -, rfl⟩ := List.mem_map.mp htext
    cases action <;> decide
  · cases htext

theorem parseRepoActions_map (actions : List RepoAction) :
  parseRepoActions (actions.map RepoAction.asStr) = .ok actions.toFinset
  := by
  induction actions with
  | nil => rfl
  | cons action actions ih =>
    have hread : RepoAction.fromWire action.asStr = some {action} := by
      cases action <;> rfl
    rw [List.map_cons, parseRepoActions, hread]
    dsimp only
    rw [ih, List.toFinset_cons]
    rfl

/-- The actions are read as they are written. -/
theorem parse_actionTexts (h : scope.actions ≠ ∅) :
  ∃ actions, parseRepoActions scope.actionTexts = .ok actions ∧ orEvery actions = scope.actions
  := by
  rw [actionTexts]
  split_ifs with hcard
  · refine ⟨scope.actions, ?_, if_neg h⟩
    rw [parseRepoActions_map, Finset.sort_toFinset]
  · refine ⟨∅, rfl, ?_⟩
    change RepoAction.every = scope.actions
    have hle : scope.actions.card ≤ 3 := by
      have hsub : scope.actions ⊆ RepoAction.every := by
        intro action _
        cases action <;> decide
      exact Finset.card_le_card hsub
    ext action
    apply iff_of_true
    · cases action <;> decide
    · exact RepoAction.eq_univ_of_card (le_antisymm hle (not_lt.mp hcard)) action

theorem text_one (collection : RepoCollection) (actions : Finset RepoAction) :
  RepoScope.toStringNormalized { collections := {collection}, actions := actions } =
    "repo:".toList ++ withQuery collection.text
      (RepoScope.actionParams { collections := {collection}, actions := actions })
  := by
  rw [toStringNormalized, Finset.sort_singleton]
  exact withQuery_append _ _ _

theorem text_many {a b : RepoCollection} {rest : List RepoCollection}
    (h : scope.collections.sort = a :: b :: rest) :
  scope.toStringNormalized = "repo?".toList ++
    join '&' (scope.collections.sort.map collectionItem ++ scope.actionParams)
  := by
  rw [toStringNormalized, h]
  rfl

/-- What stands behind a collection, or in the query alone, is read as it is written. -/
theorem valuesOf_written {pairs : List (Chars × Chars)} (h : Readable pairs) (key : Chars) :
  valuesOf key (if (pairs.map itemOf).isEmpty then none else some (join '&' (pairs.map itemOf))) =
    queryValues key pairs
  := by
  cases pairs with
  | nil => rfl
  | cons pair pairs =>
    change queryValues key (parseQueryString (join '&' ((pair :: pairs).map itemOf))) = _
    rw [parseQueryString_itemOf h]

theorem readable_actionTexts (scope : RepoScope) :
  Readable (scope.actionTexts.map (Prod.mk "action".toList))
  := readable_map (by decide) (by decide) not_mem_actionTexts

theorem kept_one {collection : RepoCollection} (h : scope.WellFormed)
    (hone : scope.collections = {collection}) (hne : collection.text ≠ []) (hquery : '?' ∉ collection.text) :
  (Scope.repo scope).Kept
  := by
  apply Scope.kept_of_parse
  change Scope.parse scope.toStringNormalized = _
  obtain ⟨collections, actions⟩ := scope
  obtain rfl : collections = {collection} := hone
  obtain ⟨read, hread, hevery⟩ := parse_actionTexts h.actions
  have hstar : collection ≠ .only ['*'] := by
    rintro rfl
    exact (h.name ['*'] (Finset.mem_singleton_self _)).1 rfl
  rw [text_one, parse_repo, parseRepo]
  dsimp only [Option.getD_some]
  rw [splitQuery_withQuery hquery, actionParams_eq]
  dsimp only
  rw [valuesOf_written (readable_actionTexts _), queryValues_map, if_pos rfl, hread, repoCollections,
    valuesOf_written (readable_actionTexts _), queryValues_map, if_neg (by decide), positionalOf,
    if_neg (mt List.isEmpty_iff.mp hne), List.append_nil]
  change Except.ok (Scope.repo {
    collections := orAll {Pattern.parse collection.text}, actions := orEvery read }) = _
  rw [Pattern.parse_text hstar, orAll, if_neg (Finset.singleton_ne_empty _), hevery]

/-- Items that are behind one another are the same text when their parts are the same. -/
theorem join_congr {texts others : List Chars} (hne : texts ≠ []) (hne' : others ≠ [])
    (h : (texts.flatMap fun text => text.splitOn '&') = others.flatMap fun text => text.splitOn '&') :
  join '&' texts = join '&' others
  := by
  rw [← splitOn_join hne, ← splitOn_join hne'] at h
  have hjoin : ['&'].intercalate ((join '&' texts).splitOn '&') =
      ['&'].intercalate ((join '&' others).splitOn '&') := congrArg ['&'].intercalate h
  rw [List.intercalate_splitOn, List.intercalate_splitOn] at hjoin
  exact hjoin

theorem flatMap_splitOn_of_not_mem {texts : List Chars} (h : ∀ text ∈ texts, '&' ∉ text) :
  (texts.flatMap fun text => text.splitOn '&') = texts
  := by
  induction texts with
  | nil => rfl
  | cons text texts ih =>
    rw [List.flatMap_cons, List.splitOn_eq_singleton (h text List.mem_cons_self),
      ih fun other hother => h other (List.mem_cons_of_mem _ hother)]
    rfl

/-- Collections that stand in a query are read as the items that stand there. -/
theorem parse_many {names : List RepoCollection} (h : scope.WellFormed)
    (hnames : (scope.collections.sort.flatMap fun collection =>
      (collectionItem collection).splitOn '&') = names.map collectionItem)
    (hstar : .only ['*'] ∉ names) (hne : names ≠ []) :
  Scope.parse ("repo?".toList ++
      join '&' (scope.collections.sort.map collectionItem ++ scope.actionParams)) =
    .ok (.repo { collections := names.toFinset, actions := scope.actions })
  := by
  let query := join '&' (scope.collections.sort.map collectionItem ++ scope.actionParams)
  have hitems : parseQueryString query = (names.map Pattern.text).map (Prod.mk "collection".toList) ++
      scope.actionTexts.map (Prod.mk "action".toList) := by
    rw [parseQueryString_join, List.flatMap_append]
    congr 1
    · have hparts : (scope.collections.sort.map collectionItem).flatMap parseQueryString =
          (scope.collections.sort.flatMap fun collection =>
            (collectionItem collection).splitOn '&').filterMap (splitFirst '=') := by
        rw [List.flatMap_map, List.filterMap_flatMap]
        rfl
      rw [hparts, hnames, List.filterMap_map, List.map_map]
      rw [← List.filterMap_eq_map]
      apply List.filterMap_congr
      intro name _
      exact splitFirst_item (by decide) _
    · rw [actionParams_eq, ← parseQueryString_join, parseQueryString_itemOf (readable_actionTexts _)]
  obtain ⟨read, hread, hevery⟩ := parse_actionTexts h.actions
  have hsplit : splitQuery ('?' :: query) = ([], some query) :=
    splitQuery_append List.not_mem_nil query
  have hactions : valuesOf "action".toList (some query) = scope.actionTexts := by
    change queryValues "action".toList (parseQueryString query) = _
    rw [hitems, queryValues_append, queryValues_map, queryValues_map, if_neg (by decide), if_pos rfl,
      List.nil_append]
  have hcollections : repoCollections [] (some query) = names.map Pattern.text := by
    change queryValues "collection".toList (parseQueryString query) = _
    rw [hitems, queryValues_append, queryValues_map, queryValues_map, if_pos rfl, if_neg (by decide),
      List.append_nil]
  have hpatterns : (names.map Pattern.text).map Pattern.parse = names := by
    rw [List.map_map]
    apply Eq.trans _ (List.map_id _)
    apply List.map_congr_left
    intro name hname
    apply Pattern.parse_text
    rintro rfl
    exact hstar hname
  have hparse : Scope.parse ("repo?".toList ++ query) = parseRepo (some ('?' :: query)) := rfl
  rw [hparse, parseRepo]
  dsimp only [Option.getD_some]
  rw [hsplit]
  dsimp only
  rw [hactions, hread, hcollections, hpatterns]
  change Except.ok (Scope.repo {
    collections := orAll names.toFinset, actions := orEvery read }) = _
  rw [hevery, orAll, if_neg (mt (List.toFinset_eq_empty_iff names).mp hne)]

/-- More collections are read as the items that stand in the query, if these are in order, and if they are
the collections or every collection is named. -/
theorem kept_many {a b : RepoCollection} {rest names : List RepoCollection} (h : scope.WellFormed)
    (hsort : scope.collections.sort = a :: b :: rest) (hordered : names.Pairwise (· < ·))
    (hstar : .only ['*'] ∉ names)
    (hnames : (scope.collections.sort.flatMap fun collection =>
      (collectionItem collection).splitOn '&') = names.map collectionItem)
    (hsame : names.toFinset = scope.collections ∨ .all ∈ scope.collections) :
  (Scope.repo scope).Kept
  := by
  have hsorted : names.toFinset.sort = names := by
    have hnodup : names.Nodup := hordered.imp fun h => ne_of_lt h
    rw [List.toFinset_sort _ hnodup]
    exact hordered.imp fun h => le_of_lt h
  have hlength : 2 ≤ names.length := by
    have hparts : ∀ text : Chars, 1 ≤ (text.splitOn '&').length := fun text =>
      List.length_pos_iff.mpr (List.splitOn_ne_nil _ _)
    have hcount := congrArg List.length hnames
    rw [hsort, List.flatMap_cons, List.flatMap_cons, List.length_append, List.length_append,
      List.length_map] at hcount
    have ha := hparts (collectionItem a)
    have hb := hparts (collectionItem b)
    omega
  obtain ⟨c, d, others, rfl⟩ : ∃ c d others, names = c :: d :: others := by
    match names, hlength with
    | c :: d :: others, _ => exact ⟨c, d, others, rfl⟩
  let again : RepoScope := { collections := (c :: d :: others).toFinset, actions := scope.actions }
  have htext : again.toStringNormalized = scope.toStringNormalized := by
    have hplain : ∀ text ∈ (c :: d :: others).map collectionItem, '&' ∉ text := by
      intro text htext
      rw [← hnames] at htext
      obtain ⟨collection, -, hpart⟩ := List.mem_flatMap.mp htext
      exact not_mem_of_mem_splitOn hpart
    rw [text_many hsorted, text_many hsort]
    change "repo?".toList ++ join '&' (again.collections.sort.map collectionItem ++ scope.actionParams) = _
    apply congrArg ("repo?".toList ++ ·)
    apply join_congr
    · rw [hsorted]
      exact List.cons_ne_nil _ _
    · rw [hsort]
      exact List.cons_ne_nil _ _
    · rw [List.flatMap_append, List.flatMap_append]
      apply congrArg (· ++ _)
      rw [hsorted, flatMap_splitOn_of_not_mem hplain, List.flatMap_map]
      exact hnames.symm
  refine ⟨.repo again, ?_, htext, ?_⟩
  · change Scope.parse scope.toStringNormalized = _
    rw [text_many hsort]
    exact parse_many h hnames hstar (List.cons_ne_nil _ _)
  · intro subject request
    cases request with
    | repo collection action =>
      change again.allows collection action = true ↔ scope.allows collection action = true
      rw [allows, allows, Bool.and_eq_true, Bool.and_eq_true]
      apply and_congr_left
      intro _
      rw [decide_eq_true_iff, decide_eq_true_iff]
      rcases hsame with hsame | hall
      · change (∃ granted ∈ (c :: d :: others).toFinset, _) ↔ _
        rw [hsame]
      · have hall' : Pattern.all ∈ again.collections := by
          have hpart : collectionItem .all ∈ (c :: d :: others).map collectionItem := by
            rw [← hnames, List.mem_flatMap]
            refine ⟨.all, (Finset.mem_sort _).mpr hall, ?_⟩
            have hsplit : (collectionItem .all).splitOn '&' = [collectionItem .all] :=
              splitOn_item (by decide) (by decide)
            rw [hsplit]
            exact List.mem_singleton_self _
          obtain ⟨name, hname, heq⟩ := List.mem_map.mp hpart
          have htext : name.text = ['*'] :=
            @List.append_cancel_left _ "collection=".toList _ _ heq
          cases name with
          | all => exact List.mem_toFinset.mpr hname
          | only value =>
            obtain rfl : value = ['*'] := htext
            exact absurd hname hstar
        exact iff_of_true ⟨.all, hall', trivial⟩ ⟨.all, hall, trivial⟩
    | _ => exact Iff.rfl

theorem kept (h : scope.WellFormed) (hkeeps : scope.Keeps) :
  (Scope.repo scope).Kept
  := by
  rw [Keeps] at hkeeps
  obtain hempty | ⟨collection, hone⟩ | ⟨a, b, rest, hsort⟩ := sort_cases scope.collections
  · exact absurd hempty h.collections
  · rw [hone, if_pos (Finset.card_singleton _)] at hkeeps
    obtain ⟨hne, hquery⟩ := hkeeps collection (Finset.mem_singleton_self _)
    exact kept_one h hone hne hquery
  · rw [if_neg] at hkeeps
    · rcases hkeeps with hplain | ⟨hall, names, hordered, hstar, hnames⟩
      · apply kept_many h hsort (Finset.sortedLT_sort scope.collections).pairwise
        · intro hmem
          exact (h.name ['*'] ((Finset.mem_sort _).mp hmem)).1 rfl
        · rw [← List.flatMap_map collectionItem fun text => text.splitOn '&']
          apply flatMap_splitOn_of_not_mem
          intro text htext
          obtain ⟨collection, hcollection, rfl⟩ := List.mem_map.mp htext
          have hitem : '&' ∉ collection.text := by
            cases collection with
            | all => decide
            | only name => exact hplain name ((Finset.mem_sort _).mp hcollection)
          have hpart : collectionItem collection ∈ (collectionItem collection).splitOn '&' := by
            rw [collectionItem, splitOn_item (by decide) hitem]
            exact List.mem_singleton_self _
          exact not_mem_of_mem_splitOn hpart
        · exact .inl (Finset.sort_toFinset _ _)
      · rw [collectionItems, List.flatMap_map] at hnames
        exact kept_many h hsort hordered hstar hnames (.inr hall)
    · intro hcard
      obtain ⟨collection, hone⟩ := Finset.card_eq_one.mp hcard
      exact ne_singleton_of_sort hsort collection hone

end RepoScope

end Atproto.Scopes
