import Atproto.Identity.Key
import Atproto.Space.SetHash
import Atproto.Space.Types
import Mathlib.Data.Vector.Basic

/-!
# Reading URIs of spaces and of records in them

A URI is a scheme and a path.  The path of a space has its authority, its type and its key, and
that of a record has in addition an author, a collection and a record key.  After the authority
comes a marker, which the older scheme does not have.
-/

namespace Atproto.Space

open Atproto.Dasl Atproto.Identity Atproto.Lexicon Atproto.Repo Logic

/-- The older scheme of space URIs. -/
def atsScheme : Text := textOf "ats://"

/-- The start of every DID. -/
def didPrefix : Text := textOf "did:"

/-- The type with a name. -/
def SpaceType.new (value : Text) : Except SpaceError SpaceType :=
  if h : isValidNsid value = true then .ok ⟨value, h⟩ else .error (.invalidSpaceType value)

/-- The key with a name. -/
def SpaceKey.new (value : Text) : Except SpaceError SpaceKey :=
  if h : isValidRecordKey value = true then .ok ⟨value, h⟩ else .error (.invalidSpaceKey value)

/-- A path without the marker. -/
def dropMarker : List Text → Option (List Text)
  | [] => none
  | [_] => none
  | did :: marker :: rest => if marker = spaceMarker then some (did :: rest) else none

/-- The segments of the path behind either scheme, without the marker. -/
def pathSegments (s : Text) : Option (List Text) :=
  match Text.stripPrefix atScheme (by decide) s with
  | some rest => dropMarker (rest.split slash (by decide))
  | none => (Text.stripPrefix atsScheme (by decide) s).map (Text.split slash (by decide))

/-- As many segments as expected, none of which is empty. -/
def splitSpacePath (s : Text) (expected : Nat) : Option (List.Vector Text expected) :=
  match pathSegments s with
  | none => none
  | some parts =>
    if h : parts.length = expected then
      if (parts.all fun part => part.bytes ≠ []) = true then some ⟨parts, h⟩ else none
    else none

/-- The space whose authority, type and key stand in a URI. -/
def SpaceUri.fromParts (s did spaceType spaceKey : Text) : Except SpaceError SpaceUri :=
  if startsWith did didPrefix = true then do
    let spaceType ← SpaceType.new spaceType
    let spaceKey ← SpaceKey.new spaceKey
    .ok ⟨did, spaceType, spaceKey⟩
  else .error (.invalidSpaceUri s)

/-- Read the URI of a space. -/
def SpaceUri.parse (s : Text) : Except SpaceError SpaceUri :=
  match splitSpacePath s 3 with
  | none => .error (.invalidSpaceUri s)
  | some parts => SpaceUri.fromParts s (parts.get 0) (parts.get 1) (parts.get 2)

/-- The name of a record in a space. -/
structure RecordUri where
  space : SpaceUri
  authorDid : Text
  collection : Text
  rkey : Text

/-- Read the URI of a record. -/
def RecordUri.parse (s : Text) : Except SpaceError RecordUri :=
  match splitSpacePath s 6 with
  | none => .error (.invalidSpaceUri s)
  | some parts => do
    let space ← SpaceUri.fromParts s (parts.get 0) (parts.get 1) (parts.get 2)
    if startsWith (parts.get 3) didPrefix = true then
      if isValidNsid (parts.get 4) = true then
        .ok ⟨space, parts.get 3, parts.get 4, parts.get 5⟩
      else .error (.invalidSpaceUri s)
    else .error (.invalidSpaceUri s)

/-- The text of the URI of a record. -/
def RecordUri.text (uri : RecordUri) : Text :=
  uri.space.text ++ slashText ++ uri.authorDid ++ slashText ++ uri.collection ++ slashText ++
    uri.rkey

/-! ### The segments of a path -/

/-- Segments, each behind a slash. -/
def tailText : List Text → Text
  | [] => Text.empty
  | part :: parts => slashText ++ part ++ tailText parts

/-- The text of the authority, and the marker if there is one, with the segments behind it. -/
def pathText (scheme did : Text) (parts : List Text) : Text := scheme ++ did ++ tailText parts

/-- Segments that can be told apart. -/
def Segments (parts : List Text) : Prop := ∀ part ∈ parts, part.bytes ≠ [] ∧ slash ∉ part.bytes

theorem append_assoc (a b c : Text) :
  a ++ b ++ c = a ++ (b ++ c)
  := Text.ext (List.append_assoc _ _ _)

theorem append_empty (a : Text) :
  a ++ Text.empty = a
  := Text.ext (List.append_nil _)

theorem intercalate_bytes (did : Text) (parts : List Text) :
  [slash].intercalate ((did :: parts).map Text.bytes) = (did ++ tailText parts).bytes
  := by
  induction parts generalizing did with
  | nil =>
    rw [List.map_cons, List.map_nil, List.intercalate_singleton]
    exact (List.append_nil did.bytes).symm
  | cons part parts ih =>
    rw [List.map_cons, List.map_cons, List.intercalate_cons_cons, ← List.map_cons, ih]
    show did.bytes ++ [slash] ++ _ = did.bytes ++ ([slash] ++ part.bytes ++ _)
    rw [List.append_assoc, List.append_assoc]
    rfl

/-- What stands between or in the parts of a path. -/
theorem mem_intercalate {separator byte : UInt8} {parts : List Bytes} (hne : byte ≠ separator)
    (h : byte ∈ [separator].intercalate parts) :
  ∃ part ∈ parts, byte ∈ part
  := by
  induction parts with
  | nil => cases h
  | cons part parts ih =>
    cases parts with
    | nil =>
      rw [List.intercalate_singleton] at h
      exact ⟨part, List.mem_cons_self, h⟩
    | cons next parts =>
      rw [List.intercalate_cons_cons, List.mem_append, List.mem_append, List.mem_singleton] at h
      rcases h with (h | h) | h
      · exact ⟨part, List.mem_cons_self, h⟩
      · exact absurd h hne
      · obtain ⟨other, hother, hbyte⟩ := ih h
        exact ⟨other, List.mem_cons_of_mem _ hother, hbyte⟩

/-- A path is split into its segments. -/
theorem split_slash_eq_iff {path : Text} {did : Text} {parts : List Text} :
  path.split slash (by decide) = did :: parts ↔
    (∀ part ∈ did :: parts, slash ∉ part.bytes) ∧ path = did ++ tailText parts
  := by
  rw [Text.split_eq_iff, intercalate_bytes]
  constructor
  · rintro ⟨-, hparts, hbytes⟩
    exact ⟨hparts, Text.ext hbytes⟩
  · rintro ⟨hparts, rfl⟩
    exact ⟨List.cons_ne_nil _ _, hparts, rfl⟩

/-- The schemes differ in their third letter. -/
theorem stripPrefix_ats (rest : Text) :
  Text.stripPrefix atScheme (by decide) (atsScheme ++ rest) = none
  := by
  apply Text.stripPrefix_eq_none.mpr
  rintro ⟨behind, hbehind⟩
  have hthird : (atScheme.bytes ++ behind)[2]? = (atsScheme ++ rest).bytes[2]? :=
    congrArg (fun bytes => bytes[2]?) hbehind
  have hat : (atScheme.bytes ++ behind)[2]? = some 0x3a := rfl
  have hats : (atsScheme ++ rest).bytes[2]? = some 0x73 := rfl
  rw [hat, hats] at hthird
  cases hthird

theorem dropMarker_eq_some {all parts : List Text} :
  dropMarker all = some parts ↔
    ∃ did rest, all = did :: spaceMarker :: rest ∧ parts = did :: rest
  := by
  constructor
  · intro h
    cases all with
    | nil => cases h
    | cons did all =>
      cases all with
      | nil => cases h
      | cons marker rest =>
        rw [dropMarker] at h
        split at h
        · rename_i hmarker
          cases h
          exact ⟨did, rest, by rw [hmarker], rfl⟩
        · cases h
  · rintro ⟨did, rest, rfl, rfl⟩
    rw [dropMarker, if_pos rfl]

/-- The segments of a path stand behind the scheme with the marker, or behind the older one. -/
theorem pathSegments_eq_some {s did : Text} {rest : List Text} :
  pathSegments s = some (did :: rest) ↔
    (∀ part ∈ did :: rest, slash ∉ part.bytes) ∧
      (s = pathText atScheme did (spaceMarker :: rest) ∨ s = pathText atsScheme did rest)
  := by
  have hmarker : slash ∉ spaceMarker.bytes := by decide
  rw [pathSegments]
  cases hat : Text.stripPrefix atScheme (by decide) s with
  | some path =>
    obtain rfl := Text.stripPrefix_eq_some.mp hat
    dsimp only
    rw [dropMarker_eq_some]
    constructor
    · rintro ⟨did', rest', hsplit, heq⟩
      obtain ⟨rfl, rfl⟩ := List.cons.inj heq
      obtain ⟨hparts, rfl⟩ := split_slash_eq_iff.mp hsplit
      refine ⟨?_, Or.inl (append_assoc _ _ _).symm⟩
      intro part hpart
      rcases List.mem_cons.mp hpart with rfl | hpart
      · exact hparts _ List.mem_cons_self
      · exact hparts part (List.mem_cons_of_mem _ (List.mem_cons_of_mem _ hpart))
    · rintro ⟨hparts, hs | hs⟩
      · refine ⟨did, rest, ?_, rfl⟩
        apply split_slash_eq_iff.mpr
        constructor
        · intro part hpart
          rcases List.mem_cons.mp hpart with rfl | hpart
          · exact hparts _ List.mem_cons_self
          · rcases List.mem_cons.mp hpart with rfl | hpart
            · exact hmarker
            · exact hparts part (List.mem_cons_of_mem _ hpart)
        · rw [pathText, append_assoc] at hs
          exact Text.ext (List.append_cancel_left (congrArg Text.bytes hs))
      · rw [hs, pathText, append_assoc, stripPrefix_ats] at hat
        cases hat
  | none =>
    dsimp only
    rw [Option.map_eq_some_iff]
    constructor
    · rintro ⟨path, hats, hsplit⟩
      obtain rfl := Text.stripPrefix_eq_some.mp hats
      obtain ⟨hparts, rfl⟩ := split_slash_eq_iff.mp hsplit
      exact ⟨hparts, Or.inr (append_assoc _ _ _).symm⟩
    · rintro ⟨hparts, rfl | rfl⟩
      · rw [pathText, append_assoc, Text.stripPrefix_eq_some.mpr rfl] at hat
        cases hat
      · refine ⟨did ++ tailText rest, Text.stripPrefix_eq_some.mpr (append_assoc _ _ _), ?_⟩
        exact split_slash_eq_iff.mpr ⟨hparts, rfl⟩

/-- The URI has these segments, none of which is empty or has a slash. -/
theorem splitSpacePath_eq_some {n : Nat} {s did : Text} {rest : List.Vector Text n} :
  splitSpacePath s (n + 1) = some (did ::ᵥ rest) ↔
    Segments (did :: rest.toList) ∧
      (s = pathText atScheme did (spaceMarker :: rest.toList) ∨
        s = pathText atsScheme did rest.toList)
  := by
  have hiff : splitSpacePath s (n + 1) = some (did ::ᵥ rest) ↔
      pathSegments s = some (did :: rest.toList) ∧
        ∀ part ∈ did :: rest.toList, part.bytes ≠ [] := by
    rw [splitSpacePath]
    constructor
    · intro h
      split at h
      · cases h
      · rename_i parts hsegments
        split at h
        · split at h
          · rename_i hlength hall
            have hparts : parts = did :: rest.toList := by
              have hval := congrArg (List.Vector.toList) (Option.some.inj h)
              rwa [List.Vector.toList_cons] at hval
            rw [hsegments, hparts]
            refine ⟨rfl, ?_⟩
            intro part hpart
            exact of_decide_eq_true (List.all_eq_true.mp hall part (hparts ▸ hpart))
          · cases h
        · cases h
    · rintro ⟨hsegments, hne⟩
      rw [hsegments]
      dsimp only
      have hlength : (did :: rest.toList).length = n + 1 := by
        rw [List.length_cons, List.Vector.toList_length]
      rw [dif_pos hlength, if_pos (List.all_eq_true.mpr fun part hpart =>
        decide_eq_true (hne part hpart))]
      exact congrArg some (Subtype.ext (List.Vector.toList_cons _ _).symm)
  rw [hiff, pathSegments_eq_some]
  constructor
  · rintro ⟨⟨hslash, hs⟩, hne⟩
    exact ⟨fun part hpart => ⟨hne part hpart, hslash part hpart⟩, hs⟩
  · rintro ⟨hparts, hs⟩
    exact ⟨⟨fun part hpart => (hparts part hpart).2, hs⟩, fun part hpart => (hparts part hpart).1⟩

/-! ### What is accepted -/

/-- The start of a DID, and no slash. -/
def IsDid (did : Text) : Prop := startsWith did didPrefix = true ∧ slash ∉ did.bytes

/-- The text of a space URI in the older scheme. -/
def SpaceUri.legacyText (uri : SpaceUri) : Text :=
  pathText atsScheme uri.spaceDid [uri.spaceType.value, uri.spaceKey.value]

/-- The text of the URI of a record in the older scheme. -/
def RecordUri.legacyText (uri : RecordUri) : Text :=
  pathText atsScheme uri.space.spaceDid
    [uri.space.spaceType.value, uri.space.spaceKey.value, uri.authorDid, uri.collection, uri.rkey]

/-- The parts of the URI of a record are what they should be, its space apart. -/
structure RecordUri.Valid (uri : RecordUri) : Prop where
  space : IsDid uri.space.spaceDid
  author : IsDid uri.authorDid
  collection : isValidNsid uri.collection = true
  rkey : uri.rkey.bytes ≠ [] ∧ slash ∉ uri.rkey.bytes

theorem SpaceUri.text_eq (uri : SpaceUri) :
  uri.text = pathText atScheme uri.spaceDid [spaceMarker, uri.spaceType.value, uri.spaceKey.value]
  := by
  simp only [SpaceUri.text, pathText, tailText, append_assoc, append_empty]

theorem RecordUri.text_eq (uri : RecordUri) :
  uri.text = pathText atScheme uri.space.spaceDid
    [spaceMarker, uri.space.spaceType.value, uri.space.spaceKey.value, uri.authorDid,
      uri.collection, uri.rkey]
  := by
  simp only [RecordUri.text, SpaceUri.text, pathText, tailText, append_assoc, append_empty]

/-- A DID is a segment. -/
theorem IsDid.segment {did : Text} (h : IsDid did) :
  did.bytes ≠ [] ∧ slash ∉ did.bytes
  := by
  refine ⟨?_, h.2⟩
  intro hnil
  have hstart := h.1
  rw [startsWith, hnil] at hstart
  exact absurd hstart (by decide)

/-- A valid NSID is a segment. -/
theorem segment_of_isValidNsid {value : Text} (h : isValidNsid value = true) :
  value.bytes ≠ [] ∧ slash ∉ value.bytes
  := by
  simp only [isValidNsid, Bool.and_eq_true, decide_eq_true_iff] at h
  obtain ⟨⟨hne, -⟩, hall⟩ := h
  refine ⟨hne, ?_⟩
  intro hmem
  rw [← @List.intercalate_splitOn UInt8 value.bytes _ _ dot] at hmem
  obtain ⟨segment, hsegment, hslash⟩ := mem_intercalate (by decide) hmem
  have hvalid := List.all_eq_true.mp hall segment hsegment
  simp only [isValidSegment, Bool.and_eq_true] at hvalid
  exact absurd (List.all_eq_true.mp hvalid.1.1.2 slash hslash) (by decide)

/-- A valid record key is a segment. -/
theorem segment_of_isValidRecordKey {value : Text} (h : isValidRecordKey value = true) :
  value.bytes ≠ [] ∧ slash ∉ value.bytes
  := by
  simp only [isValidRecordKey, Bool.and_eq_true, decide_eq_true_iff] at h
  refine ⟨h.1.1.1.1, ?_⟩
  intro hmem
  exact absurd (List.all_eq_true.mp h.2 slash hmem) (by decide)

/-- A space is made of the parts of a URI when these are what they should be. -/
theorem SpaceUri.fromParts_eq_ok {s did spaceType spaceKey : Text} {uri : SpaceUri} :
  SpaceUri.fromParts s did spaceType spaceKey = .ok uri ↔
    startsWith did didPrefix = true ∧ uri.spaceDid = did ∧ uri.spaceType.value = spaceType ∧
      uri.spaceKey.value = spaceKey
  := by
  constructor
  · intro h
    rw [SpaceUri.fromParts] at h
    split at h
    · rename_i hdid
      obtain ⟨type, htype, h⟩ := bind_eq_ok.mp h
      obtain ⟨key, hkey, h⟩ := bind_eq_ok.mp h
      cases h
      rw [SpaceType.new] at htype
      rw [SpaceKey.new] at hkey
      split at htype
      · cases htype
        split at hkey
        · cases hkey
          exact ⟨hdid, rfl, rfl, rfl⟩
        · cases hkey
      · cases htype
    · cases h
  · rintro ⟨hdid, rfl, rfl, rfl⟩
    rw [SpaceUri.fromParts, if_pos hdid, SpaceType.new, dif_pos uri.spaceType.valid, SpaceKey.new,
      dif_pos uri.spaceKey.valid]
    rfl

/-- What is accepted as the URI of a space. -/
theorem SpaceUri.parse_eq_ok {s : Text} {uri : SpaceUri} :
  SpaceUri.parse s = .ok uri ↔ IsDid uri.spaceDid ∧ (s = uri.text ∨ s = uri.legacyText)
  := by
  have hsplit : splitSpacePath s 3 =
      some (uri.spaceDid ::ᵥ uri.spaceType.value ::ᵥ uri.spaceKey.value ::ᵥ List.Vector.nil) ↔
      Segments [uri.spaceDid, uri.spaceType.value, uri.spaceKey.value] ∧
        (s = uri.text ∨ s = uri.legacyText) := by
    rw [splitSpacePath_eq_some, SpaceUri.text_eq]
    rfl
  constructor
  · intro h
    rw [SpaceUri.parse] at h
    split at h
    · cases h
    · rename_i parts hparts
      obtain ⟨did, parts, rfl⟩ := parts.exists_eq_cons
      obtain ⟨spaceType, parts, rfl⟩ := parts.exists_eq_cons
      obtain ⟨spaceKey, parts, rfl⟩ := parts.exists_eq_cons
      obtain rfl := parts.eq_nil
      obtain ⟨hdid, hdidEq, htype, hkey⟩ := SpaceUri.fromParts_eq_ok.mp h
      have hdidEq : uri.spaceDid = did := hdidEq
      have htype : uri.spaceType.value = spaceType := htype
      have hkey : uri.spaceKey.value = spaceKey := hkey
      rw [← hdidEq, ← htype, ← hkey] at hparts
      obtain ⟨hsegments, hs⟩ := hsplit.mp hparts
      exact ⟨⟨hdidEq ▸ hdid, (hsegments _ List.mem_cons_self).2⟩, hs⟩
  · rintro ⟨hdid, hs⟩
    have hsegments : Segments [uri.spaceDid, uri.spaceType.value, uri.spaceKey.value] := by
      refine List.forall_mem_cons.mpr ⟨hdid.segment, ?_⟩
      refine List.forall_mem_cons.mpr ⟨segment_of_isValidNsid uri.spaceType.valid, ?_⟩
      exact List.forall_mem_singleton.mpr (segment_of_isValidRecordKey uri.spaceKey.valid)
    rw [SpaceUri.parse, hsplit.mpr ⟨hsegments, hs⟩]
    exact SpaceUri.fromParts_eq_ok.mpr ⟨hdid.1, rfl, rfl, rfl⟩

/-- What is accepted as the URI of a record. -/
theorem RecordUri.parse_eq_ok {s : Text} {uri : RecordUri} :
  RecordUri.parse s = .ok uri ↔ uri.Valid ∧ (s = uri.text ∨ s = uri.legacyText)
  := by
  have hsplit : splitSpacePath s 6 =
      some (uri.space.spaceDid ::ᵥ uri.space.spaceType.value ::ᵥ uri.space.spaceKey.value ::ᵥ
        uri.authorDid ::ᵥ uri.collection ::ᵥ uri.rkey ::ᵥ List.Vector.nil) ↔
      Segments [uri.space.spaceDid, uri.space.spaceType.value, uri.space.spaceKey.value,
        uri.authorDid, uri.collection, uri.rkey] ∧ (s = uri.text ∨ s = uri.legacyText) := by
    rw [splitSpacePath_eq_some, RecordUri.text_eq]
    rfl
  constructor
  · intro h
    rw [RecordUri.parse] at h
    split at h
    · cases h
    · rename_i parts hparts
      obtain ⟨did, parts, rfl⟩ := parts.exists_eq_cons
      obtain ⟨spaceType, parts, rfl⟩ := parts.exists_eq_cons
      obtain ⟨spaceKey, parts, rfl⟩ := parts.exists_eq_cons
      obtain ⟨author, parts, rfl⟩ := parts.exists_eq_cons
      obtain ⟨collection, parts, rfl⟩ := parts.exists_eq_cons
      obtain ⟨rkey, parts, rfl⟩ := parts.exists_eq_cons
      obtain rfl := parts.eq_nil
      obtain ⟨space, hspace, h⟩ := bind_eq_ok.mp h
      obtain ⟨hdid, hdidEq, htype, hkey⟩ := SpaceUri.fromParts_eq_ok.mp hspace
      have hdidEq : space.spaceDid = did := hdidEq
      have htype : space.spaceType.value = spaceType := htype
      have hkey : space.spaceKey.value = spaceKey := hkey
      split at h
      · rename_i hauthor
        split at h
        · rename_i hcollection
          cases h
          rw [← hdidEq, ← htype, ← hkey] at hparts
          obtain ⟨hsegments, hs⟩ := hsplit.mp hparts
          refine ⟨⟨⟨hdidEq ▸ hdid, (hsegments _ (by simp)).2⟩, ⟨hauthor, ?_⟩, hcollection, ?_⟩, hs⟩
          · exact (hsegments _ (by simp)).2
          · exact hsegments _ (by simp)
        · cases h
      · cases h
  · rintro ⟨hvalid, hs⟩
    have hsegments : Segments [uri.space.spaceDid, uri.space.spaceType.value,
        uri.space.spaceKey.value, uri.authorDid, uri.collection, uri.rkey] := by
      refine List.forall_mem_cons.mpr ⟨hvalid.space.segment, ?_⟩
      refine List.forall_mem_cons.mpr ⟨segment_of_isValidNsid uri.space.spaceType.valid, ?_⟩
      refine List.forall_mem_cons.mpr ⟨segment_of_isValidRecordKey uri.space.spaceKey.valid, ?_⟩
      refine List.forall_mem_cons.mpr ⟨hvalid.author.segment, ?_⟩
      refine List.forall_mem_cons.mpr ⟨segment_of_isValidNsid hvalid.collection, ?_⟩
      exact List.forall_mem_singleton.mpr hvalid.rkey
    rw [RecordUri.parse, hsplit.mpr ⟨hsegments, hs⟩]
    refine bind_eq_ok.mpr ⟨uri.space, ?_, ?_⟩
    · exact SpaceUri.fromParts_eq_ok.mpr ⟨hvalid.space.1, rfl, rfl, rfl⟩
    · exact (if_pos hvalid.author.1).trans (if_pos hvalid.collection)

/-- What is read from a text of either form is read again from the text that is written for it. -/
theorem SpaceUri.parse_text {s : Text} {uri : SpaceUri} (h : SpaceUri.parse s = .ok uri) :
  SpaceUri.parse uri.text = .ok uri
  := SpaceUri.parse_eq_ok.mpr ⟨(SpaceUri.parse_eq_ok.mp h).1, Or.inl rfl⟩

theorem RecordUri.parse_text {s : Text} {uri : RecordUri} (h : RecordUri.parse s = .ok uri) :
  RecordUri.parse uri.text = .ok uri
  := RecordUri.parse_eq_ok.mpr ⟨(RecordUri.parse_eq_ok.mp h).1, Or.inl rfl⟩

/-- A text is not split in two ways. -/
theorem splitSpacePath_unique {s : Text} {m n : Nat} {a : List.Vector Text m}
    {b : List.Vector Text n} (ha : splitSpacePath s m = some a) (hb : splitSpacePath s n = some b) :
  m = n
  := by
  rw [splitSpacePath] at ha hb
  split at ha
  · cases ha
  · rename_i parts hparts
    rw [hparts] at hb
    dsimp only at hb
    split at ha
    · rename_i hm
      split at hb
      · rename_i hn
        exact hm.symm.trans hn
      · cases hb
    · cases ha

/-- No text is the URI of a space and of a record. -/
theorem parse_unambiguous {s : Text} {space : SpaceUri} {record : RecordUri}
    (hspace : SpaceUri.parse s = .ok space) :
  RecordUri.parse s ≠ .ok record
  := by
  intro hrecord
  rw [SpaceUri.parse] at hspace
  rw [RecordUri.parse] at hrecord
  split at hspace
  · cases hspace
  · rename_i three hthree
    split at hrecord
    · cases hrecord
    · rename_i six hsix
      exact absurd (splitSpacePath_unique hthree hsix) (by decide)

/-- What is read is read again from the text that is written for it, and the same text is written
then.  What is made of valid parts is read from its text.  No text is the URI of a space and of a
record. -/
theorem uri_round_trip :
  (∀ s uri, SpaceUri.parse s = .ok uri → SpaceUri.parse uri.text = .ok uri ∧
      (SpaceUri.parse uri.text).map SpaceUri.text = .ok uri.text) ∧
    (∀ s uri, RecordUri.parse s = .ok uri → RecordUri.parse uri.text = .ok uri ∧
      (RecordUri.parse uri.text).map RecordUri.text = .ok uri.text) ∧
    (∀ uri : SpaceUri, IsDid uri.spaceDid → SpaceUri.parse uri.text = .ok uri) ∧
    (∀ uri : RecordUri, uri.Valid → RecordUri.parse uri.text = .ok uri) ∧
    ∀ s space record, SpaceUri.parse s = .ok space → RecordUri.parse s ≠ .ok record
  := by
  refine ⟨?_, ?_, ?_, ?_, ?_⟩
  · intro s uri h
    have htext := SpaceUri.parse_text h
    rw [htext]
    exact ⟨rfl, rfl⟩
  · intro s uri h
    have htext := RecordUri.parse_text h
    rw [htext]
    exact ⟨rfl, rfl⟩
  · intro uri hdid
    exact SpaceUri.parse_eq_ok.mpr ⟨hdid, Or.inl rfl⟩
  · intro uri hvalid
    exact RecordUri.parse_eq_ok.mpr ⟨hvalid, Or.inl rfl⟩
  · intro s space record
    exact parse_unambiguous

/-- A space that is named in the older scheme. -/
def legacySample : Text := textOf "ats://did:plc:a/app.bsky.group/space"

/-- The space with this name. -/
def sampleUri : SpaceUri where
  spaceDid := textOf "did:plc:a"
  spaceType := ⟨textOf "app.bsky.group", by decide⟩
  spaceKey := ⟨textOf "space", by decide⟩

theorem uri_round_trip_sample :
  SpaceUri.parse legacySample = .ok sampleUri ∧
    sampleUri.text = textOf "at://did:plc:a/space/app.bsky.group/space" ∧
    SpaceUri.parse sampleUri.text = .ok sampleUri
  := by
  have hparse : SpaceUri.parse legacySample = .ok sampleUri := by
    apply SpaceUri.parse_eq_ok.mpr
    exact ⟨⟨by decide, by decide⟩, Or.inr rfl⟩
  exact ⟨hparse, rfl, (uri_round_trip.1 legacySample sampleUri hparse).1⟩

end Atproto.Space
