import Atproto.Json.Value
import Atproto.Logic.Levels
import Atproto.Repo.Codec
import Atproto.SearchTree.Collect

/-!
# The closure of a lexicon

A lexicon is resolved together with the lexicons that it refers to, level by level up to some
depth.  What is resolved is what is within that distance along the references of resolved lexicons,
in whatever order the names of a level are taken.
-/

namespace Atproto.Lexicon.Recursive

open Atproto.Dasl Atproto.Repo Logic SearchTree

/-! ### References -/

def typeKey : Text := textOf "type"

def refKey : Text := textOf "ref"

def refsKey : Text := textOf "refs"

def idKey : Text := textOf "id"

/-- The byte in front of a fragment. -/
def fragmentSign : UInt8 := 0x23

/-- The byte between the parts of a name. -/
def period : UInt8 := 0x2e

/-- Complete a reference that is a fragment only. -/
def absolute (context nsid : Text) : Text :=
  if nsid.bytes.head? = some fragmentSign then context ++ nsid else nsid

/-- What comes before the fragment of a reference. -/
def withoutFragment (reference : Text) : Text :=
  match reference.splitOnce fragmentSign (by decide) with
  | some (nsid, _) => nsid
  | none => reference

/-- A name has a period. -/
def hasPeriod (nsid : Text) : Bool := nsid.bytes.any fun byte => byte = period

/-- The name in a reference. -/
def extractNsidFromReference (reference : Text) : Option Text :=
  if reference.bytes = [] then none
  else if reference.bytes.head? = some fragmentSign then none
  else
    let nsid := withoutFragment reference
    if nsid.bytes = [] || !hasPeriod nsid then none else some nsid

/-- The string of a field, when the object has it. -/
def stringField (key : Text) (fields : List (Text × Json)) : Option Text :=
  (lookup key fields).bind Json.asStr

def isReferenceObject (fields : List (Text × Json)) : Bool :=
  stringField typeKey fields = some refKey && (lookup refKey fields).isSome

/-- The name in an object that is a reference. -/
def extractNsidFromRefObject (fields : List (Text × Json)) : Option Text :=
  if isReferenceObject fields then (stringField refKey fields).bind extractNsidFromReference
  else none

/-- A reference within a lexicon, which has a name or none. -/
def inContext (context : Option Text) (reference : Text) : Text :=
  match context with
  | some name => absolute name reference
  | none => reference

/-- The names in an object of the type of references. -/
def refReferences (context : Option Text) (fields : List (Text × Json)) : List Text :=
  match stringField refKey fields with
  | some reference =>
    (extractNsidFromRefObject
      [(refKey, .string (inContext context reference)), (typeKey, .string refKey)]).toList
  | none => []

/-- The reference in an item of a union. -/
def unionItem : Json → Option Text
  | .string reference => some reference
  | .object fields => stringField refKey fields
  | _ => none

/-- The name in an item of a union. -/
def unionReference (context : Option Text) (item : Json) : Option Text := do
  let reference ← unionItem item
  let nsid := withoutFragment (inContext context reference)
  if hasPeriod nsid && !nsid.bytes.isEmpty then some nsid else none

/-- The names in an object of the type of unions. -/
def unionReferences (context : Option Text) (fields : List (Text × Json)) : List Text :=
  match (lookup refsKey fields).bind Json.asArray with
  | some items => items.filterMap (unionReference context)
  | none => []

/-- The names in an object that is a reference or a union. -/
def ownReferences (context : Option Text) (fields : List (Text × Json)) : Option (List Text) :=
  match stringField typeKey fields with
  | some name =>
    if name = refKey then some (refReferences context fields)
    else if name = textOf "union" then some (unionReferences context fields)
    else none
  | none => none

mutual

/-- The names in a value.  Nothing is looked for within references and unions. -/
def extractReferences (context : Option Text) : Json → List Text
  | .object fields => (ownReferences context fields).getD (extractFields context fields)
  | .array items => extractItems context items
  | .null => []
  | .bool _ => []
  | .number _ => []
  | .string _ => []

def extractItems (context : Option Text) : List Json → List Text
  | [] => []
  | item :: items => extractReferences context item ++ extractItems context items

def extractFields (context : Option Text) : List (Text × Json) → List Text
  | [] => []
  | (_, value) :: fields => extractReferences context value ++ extractFields context fields

end

/-- The names that a lexicon refers to. -/
def extractLexiconReferences (value : Json) : List Text :=
  let context := (value.get idKey).bind Json.asStr
  extend [] (extractReferences context value)

/-! ### Resolving -/

/-- How far lexicons are resolved, and whether the first one is among the results. -/
structure RecursiveResolverConfig where
  maxDepth : ℕ
  includeEntry : Bool

def RecursiveResolverConfig.default : RecursiveResolverConfig where
  maxDepth := 10
  includeEntry := true

/-- The error when nothing is resolved. -/
inductive LexiconRecursiveError where
  | noLexiconsResolved

/-- Lexicons by their names, the names that were not resolved, and what refers to what. -/
structure RecursiveResolutionResult where
  lexicons : List (Text × Json)
  failed : List Text
  dependencies : List (Text × List Text)

variable (resolver : Text → Option Json) (order : ℕ → List Text → List Text)
  (config : RecursiveResolverConfig) (entryNsid : Text)

/-- Take what is resolved, and what it refers to unless it is too deep. -/
def takeLexicon (depth : ℕ) (nsid : Text) (resolved : List (Text × Json)) :
    List (Text × Json) × List Text :=
  if !config.includeEntry && nsid = entryNsid && depth = 0 then
    match resolver nsid with
    | some lexicon => (resolved, extractLexiconReferences lexicon)
    | none => (resolved, [])
  else
    match resolver nsid with
    | some lexicon =>
      (SearchTree.insert nsid lexicon resolved,
        if depth < config.maxDepth then extractLexiconReferences lexicon else [])
    | none => (resolved, [])

/-- The search of `resolveRecursive`. -/
def recursiveSearch : Search Text (List (Text × Json)) :=
  (Search.start [] entryNsid).levels (takeLexicon resolver config entryNsid) order
    (config.maxDepth + 1) 0

/-- Resolve a lexicon and what it refers to. -/
def resolveRecursive : Except LexiconRecursiveError (List (Text × Json)) :=
  let resolved := (recursiveSearch resolver order config entryNsid).found
  if resolved.isEmpty && config.includeEntry then .error .noLexiconsResolved else .ok resolved

/-- Take what is resolved with what it refers to, or note that it is not. -/
def takeDetails (depth : ℕ) (nsid : Text) (result : RecursiveResolutionResult) :
    RecursiveResolutionResult × List Text :=
  match resolver nsid with
  | some lexicon =>
    let refs := extractLexiconReferences lexicon
    ({ result with
        dependencies :=
          if refs.isEmpty then result.dependencies
          else SearchTree.insert nsid refs result.dependencies
        lexicons :=
          if config.includeEntry || nsid ≠ entryNsid || 0 < depth then
            SearchTree.insert nsid lexicon result.lexicons
          else result.lexicons },
      if depth < config.maxDepth then refs else [])
  | none => ({ result with failed := extend result.failed [nsid] }, [])

/-- The search of `resolveWithDetails`. -/
def detailsSearch : Search Text RecursiveResolutionResult :=
  (Search.start ⟨[], [], []⟩ entryNsid).levels (takeDetails resolver config entryNsid) order
    (config.maxDepth + 1) 0

/-- Resolve a lexicon and what it refers to, with what was not resolved. -/
def resolveWithDetails : RecursiveResolutionResult :=
  (detailsSearch resolver order config entryNsid).found

/-! ### The ball -/

/-- A resolved lexicon refers to a name. -/
def Refers (nsid other : Text) : Prop :=
  ∃ lexicon, resolver nsid = some lexicon ∧ other ∈ extractLexiconReferences lexicon

/-- A lexicon is resolved, within the depth, and not the excluded entry. -/
def Wanted (nsid : Text) (lexicon : Json) : Prop :=
  Within (Refers resolver) entryNsid config.maxDepth nsid ∧ resolver nsid = some lexicon ∧
    (config.includeEntry = true ∨ nsid ≠ entryNsid)

variable {resolver order config entryNsid}

/-- Above the depth, what is pending are the references of what is resolved. -/
theorem takeLexicon_refs {depth : ℕ} (hdepth : depth < config.maxDepth) (nsid : Text)
    (resolved : List (Text × Json)) (other : Text) :
  other ∈ (takeLexicon resolver config entryNsid depth nsid resolved).2 ↔
    Refers resolver nsid other
  := by
  rw [takeLexicon, Refers]
  cases hresolve : resolver nsid with
  | none => simp
  | some lexicon => split_ifs <;> simp

theorem takeDetails_refs {depth : ℕ} (hdepth : depth < config.maxDepth) (nsid : Text)
    (result : RecursiveResolutionResult) (other : Text) :
  other ∈ (takeDetails resolver config entryNsid depth nsid result).2 ↔ Refers resolver nsid other
  := by
  rw [takeDetails, Refers]
  cases hresolve : resolver nsid with
  | none => simp
  | some lexicon => simp [hdepth]

/-- The names that were visited are those that were requested, in order. -/
structure Asked (visited requests : List Text) : Prop where
  order : requests = visited.reverse
  nodup : visited.Nodup

theorem Asked.cons {visited requests : List Text} (h : Asked visited requests) {nsid : Text}
    (hnew : nsid ∉ visited) :
  Asked (nsid :: visited) (requests ++ [nsid])
  where
  order := by rw [List.reverse_cons, h.order]
  nodup := List.nodup_cons.mpr ⟨hnew, h.nodup⟩

theorem Asked.requests_nodup {visited requests : List Text} (h : Asked visited requests) :
  requests.Nodup
  := by
  rw [h.order, List.nodup_reverse]
  exact h.nodup

/-- The lexicons are those of the visited names that are resolved, without the excluded entry. -/
def Collected (resolver : Text → Option Json) (config : RecursiveResolverConfig) (entryNsid : Text)
    (lexicons : List (Text × Json)) (visited : List Text) : Prop :=
  ∀ nsid lexicon, lookup nsid lexicons = some lexicon ↔ nsid ∈ visited ∧
    resolver nsid = some lexicon ∧ (config.includeEntry = true ∨ nsid ≠ entryNsid)

section Collecting

variable {lexicons : List (Text × Json)} {visited : List Text} {nsid : Text}

theorem Collected.nil :
  Collected resolver config entryNsid [] []
  := by
  intro nsid lexicon
  simp [lookup]

/-- A name that is not resolved, or is the excluded entry, adds nothing. -/
theorem Collected.skip (h : Collected resolver config entryNsid lexicons visited)
    (hskip : resolver nsid = none ∨ (config.includeEntry = false ∧ nsid = entryNsid)) :
  Collected resolver config entryNsid lexicons (nsid :: visited)
  := by
  intro other lexicon
  rw [h other lexicon, List.mem_cons]
  constructor
  · exact fun ⟨hmem, hrest⟩ => ⟨.inr hmem, hrest⟩
  · rintro ⟨rfl | hmem, hresolve, hinclude⟩
    · rcases hskip with hnone | ⟨hexclude, rfl⟩
      · rw [hnone] at hresolve
        cases hresolve
      · rw [hexclude] at hinclude
        exact absurd rfl (hinclude.resolve_left Bool.false_ne_true)
    · exact ⟨hmem, hresolve, hinclude⟩

/-- Another name that is resolved adds its lexicon. -/
theorem Collected.insert (h : Collected resolver config entryNsid lexicons visited)
    {lexicon : Json} (hresolve : resolver nsid = some lexicon)
    (hinclude : config.includeEntry = true ∨ nsid ≠ entryNsid) :
  Collected resolver config entryNsid (SearchTree.insert nsid lexicon lexicons) (nsid :: visited)
  := by
  intro other found
  rw [lookup_insert, List.mem_cons]
  split_ifs with heq
  · cases heq
    rw [hresolve]
    constructor
    · rintro hfound
      exact ⟨.inl rfl, hfound, hinclude⟩
    · exact fun ⟨_, hfound, _⟩ => hfound
  · rw [h other found]
    simp [heq]

end Collecting

theorem takeLexicon_skip {depth : ℕ} {nsid : Text} {resolved : List (Text × Json)}
    (h : resolver nsid = none ∨ (config.includeEntry = false ∧ nsid = entryNsid ∧ depth = 0)) :
  (takeLexicon resolver config entryNsid depth nsid resolved).1 = resolved
  := by
  rw [takeLexicon]
  rcases h with hnone | ⟨hexclude, rfl, rfl⟩
  · rw [hnone]
    split <;> rfl
  · rw [if_pos (by simp [hexclude])]
    cases resolver nsid <;> rfl

theorem takeLexicon_insert {depth : ℕ} {nsid : Text} {resolved : List (Text × Json)}
    {lexicon : Json} (hresolve : resolver nsid = some lexicon)
    (h : ¬ (config.includeEntry = false ∧ nsid = entryNsid ∧ depth = 0)) :
  (takeLexicon resolver config entryNsid depth nsid resolved).1 =
    SearchTree.insert nsid lexicon resolved
  := by
  have hexclude : ¬ (!config.includeEntry && nsid = entryNsid && depth = 0) = true := by
    rwa [Bool.and_eq_true, Bool.and_eq_true, Bool.not_eq_true', decide_eq_true_iff,
      decide_eq_true_iff, and_assoc]
  rw [takeLexicon, if_neg hexclude, hresolve]

/-- A name that is new is the excluded entry or is not. -/
theorem included_or (config : RecursiveResolverConfig) {depth : ℕ} {nsid : Text}
    (hzero : depth = 0 ↔ nsid = entryNsid) :
  (config.includeEntry = false ∧ nsid = entryNsid ∧ depth = 0) ∨
    (config.includeEntry = true ∨ nsid ≠ entryNsid)
  := by
  by_cases heq : nsid = entryNsid
  · rcases Bool.eq_false_or_eq_true config.includeEntry with hinclude | hexclude
    · exact .inr (.inl hinclude)
    · exact .inl ⟨hexclude, heq, hzero.mpr heq⟩
  · exact .inr (.inr heq)

theorem takeLexicon_keeps :
  Search.Keeps (takeLexicon resolver config entryNsid) entryNsid fun resolved visited requests =>
    Asked visited requests ∧ Collected resolver config entryNsid resolved visited
  := by
  rintro depth nsid resolved visited requests ⟨hasked, hcollected⟩ hnew hzero
  use hasked.cons hnew
  cases hresolve : resolver nsid with
  | none =>
    rw [takeLexicon_skip (.inl hresolve)]
    exact hcollected.skip (.inl hresolve)
  | some lexicon =>
    rcases included_or config hzero with hexclude | hinclude
    · rw [takeLexicon_skip (.inr hexclude)]
      exact hcollected.skip (.inr ⟨hexclude.1, hexclude.2.1⟩)
    · rw [takeLexicon_insert hresolve]
      · exact hcollected.insert hresolve hinclude
      · rintro ⟨hexclude, heq, -⟩
        rcases hinclude with hinclude | hne
        · rw [hexclude] at hinclude
          cases hinclude
        · exact hne heq

/-- The names that failed are those of the visited names that are not resolved. -/
def Failed (resolver : Text → Option Json) (failed visited : List Text) : Prop :=
  ∀ nsid, nsid ∈ failed ↔ nsid ∈ visited ∧ resolver nsid = none

theorem takeDetails_keeps :
  Search.Keeps (takeDetails resolver config entryNsid) entryNsid fun result visited requests =>
    Asked visited requests ∧ Collected resolver config entryNsid result.lexicons visited ∧
      Failed resolver result.failed visited
  := by
  rintro depth nsid result visited requests ⟨hasked, hcollected, hfailed⟩ hnew hzero
  use hasked.cons hnew
  rw [takeDetails]
  cases hresolve : resolver nsid with
  | none =>
    use hcollected.skip (.inl hresolve)
    intro other
    change other ∈ extend result.failed [nsid] ↔ _
    rw [mem_extend, List.mem_singleton, List.mem_cons, hfailed]
    constructor
    · rintro (⟨hmem, hnone⟩ | rfl)
      · exact ⟨.inr hmem, hnone⟩
      · exact ⟨.inl rfl, hresolve⟩
    · rintro ⟨rfl | hmem, hnone⟩
      · exact .inr rfl
      · exact .inl ⟨hmem, hnone⟩
  | some lexicon =>
    constructor
    · rcases included_or config hzero with ⟨hexclude, heq, hdepth⟩ | hinclude
      · dsimp only
        rw [if_neg (by simp [hexclude, heq, hdepth])]
        exact hcollected.skip (.inr ⟨hexclude, heq⟩)
      · dsimp only
        rw [if_pos (by rcases hinclude with h | h <;> simp [h])]
        exact hcollected.insert hresolve hinclude
    · intro other
      dsimp only
      rw [hfailed, List.mem_cons]
      constructor
      · exact fun ⟨hmem, hnone⟩ => ⟨.inr hmem, hnone⟩
      · rintro ⟨rfl | hmem, hnone⟩
        · rw [hresolve] at hnone
          cases hnone
        · exact ⟨hmem, hnone⟩

/-- When the entry is not resolved there is no path to another name. -/
theorem eq_entry_of_pathTo (h : resolver entryNsid = none) {n : ℕ} {nsid : Text}
    (hpath : PathTo (Refers resolver) entryNsid n nsid) :
  nsid = entryNsid
  := by
  induction n generalizing nsid with
  | zero => exact hpath
  | succ n ih =>
    obtain ⟨other, hother, lexicon, hresolve, -⟩ := hpath
    rw [ih hother, h] at hresolve
    cases hresolve

theorem recursiveSearch_spec (horder : ∀ depth nsids, (order depth nsids).Perm nsids) :
  (recursiveSearch resolver order config entryNsid).requests.Nodup ∧
    ∀ nsid lexicon,
      lookup nsid (recursiveSearch resolver order config entryNsid).found = some lexicon ↔
        Wanted resolver config entryNsid nsid lexicon
  := by
  have hkeeps : Search.Keeps (takeLexicon resolver config entryNsid) entryNsid _ :=
    takeLexicon_keeps
  obtain ⟨⟨hasked, hcollected⟩, hvisited⟩ := hkeeps.search horder
    (fun depth hdepth => takeLexicon_refs hdepth) ⟨⟨rfl, List.nodup_nil⟩, Collected.nil⟩
  use hasked.requests_nodup
  intro nsid lexicon
  rw [Wanted, ← hvisited]
  exact hcollected nsid lexicon

theorem detailsSearch_spec (horder : ∀ depth nsids, (order depth nsids).Perm nsids) :
  (detailsSearch resolver order config entryNsid).requests.Nodup ∧
    (∀ nsid lexicon,
      lookup nsid (resolveWithDetails resolver order config entryNsid).lexicons = some lexicon ↔
        Wanted resolver config entryNsid nsid lexicon) ∧
    ∀ nsid, nsid ∈ (resolveWithDetails resolver order config entryNsid).failed ↔
      Within (Refers resolver) entryNsid config.maxDepth nsid ∧ resolver nsid = none
  := by
  have hkeeps : Search.Keeps (takeDetails resolver config entryNsid) entryNsid _ :=
    takeDetails_keeps
  have hstart : Asked [] [] ∧
      Collected resolver config entryNsid (RecursiveResolutionResult.mk [] [] []).lexicons [] ∧
        Failed resolver (RecursiveResolutionResult.mk [] [] []).failed [] :=
    ⟨⟨rfl, List.nodup_nil⟩, Collected.nil, fun nsid => by simp⟩
  obtain ⟨⟨hasked, hcollected, hfailed⟩, hvisited⟩ := hkeeps.search horder
    (fun depth hdepth => takeDetails_refs hdepth) hstart
  refine ⟨hasked.requests_nodup, ?_, ?_⟩
  · intro nsid lexicon
    rw [Wanted, ← hvisited]
    exact hcollected nsid lexicon
  · intro nsid
    rw [← hvisited]
    exact hfailed nsid

/-- Lexicons are resolved recursively exactly within the depth along the references of resolved
lexicons, and each name at most once, whatever the order.  Nothing is returned but an error when
the entry is to be included and is not resolved. -/
theorem recursive_ball (resolver : Text → Option Json) (order : ℕ → List Text → List Text)
    (horder : ∀ depth nsids, (order depth nsids).Perm nsids) (config : RecursiveResolverConfig)
    (entryNsid : Text) :
  (config.includeEntry = true ∧ resolver entryNsid = none →
    resolveRecursive resolver order config entryNsid = .error .noLexiconsResolved) ∧
  (¬ (config.includeEntry = true ∧ resolver entryNsid = none) →
    ∃ lexicons, resolveRecursive resolver order config entryNsid = .ok lexicons ∧
      ∀ nsid lexicon, lookup nsid lexicons = some lexicon ↔
        Wanted resolver config entryNsid nsid lexicon) ∧
  (recursiveSearch resolver order config entryNsid).requests.Nodup ∧
  (∀ nsid lexicon,
    lookup nsid (resolveWithDetails resolver order config entryNsid).lexicons = some lexicon ↔
      Wanted resolver config entryNsid nsid lexicon) ∧
  (∀ nsid, nsid ∈ (resolveWithDetails resolver order config entryNsid).failed ↔
    Within (Refers resolver) entryNsid config.maxDepth nsid ∧ resolver nsid = none) ∧
  (detailsSearch resolver order config entryNsid).requests.Nodup
  := by
  obtain ⟨hasked, hwanted⟩ := @recursiveSearch_spec resolver order config entryNsid horder
  obtain ⟨hasked', hwanted', hfailed⟩ := @detailsSearch_spec resolver order config entryNsid horder
  refine ⟨?_, ?_, hasked, hwanted', hfailed, hasked'⟩
  · rintro ⟨hinclude, hnone⟩
    have hempty : (recursiveSearch resolver order config entryNsid).found = [] := by
      cases hfound : (recursiveSearch resolver order config entryNsid).found with
      | nil => rfl
      | cons entry entries =>
        have hlookup : lookup entry.1 (recursiveSearch resolver order config entryNsid).found =
            some entry.2 := by
          rw [hfound, lookup, if_pos rfl]
        obtain ⟨⟨n, -, hpath⟩, hresolve, -⟩ := (hwanted _ _).mp hlookup
        rw [eq_entry_of_pathTo hnone hpath, hnone] at hresolve
        cases hresolve
    rw [resolveRecursive, hempty, hinclude]
    rfl
  · intro hsome
    refine ⟨_, if_neg ?_, hwanted⟩
    rw [Bool.and_eq_true, List.isEmpty_iff]
    rintro ⟨hempty, hinclude⟩
    obtain ⟨lexicon, hresolve⟩ : ∃ lexicon, resolver entryNsid = some lexicon :=
      Option.ne_none_iff_exists'.mp fun hnone => hsome ⟨hinclude, hnone⟩
    have hlookup := (hwanted entryNsid lexicon).mpr
      ⟨⟨0, Nat.zero_le _, rfl⟩, hresolve, .inl hinclude⟩
    rw [hempty] at hlookup
    cases hlookup

/-- A lexicon with a reference to itself and to another lexicon. -/
def sampleLexicon : Json :=
  .object [(idKey, .string (textOf "a.b.c")), (textOf "main", .object [
    (refsKey, .array [.string (textOf "#x"), .string (textOf "d.e.f#y")]),
    (typeKey, .string (textOf "union"))])]

example : extractLexiconReferences sampleLexicon = [textOf "a.b.c", textOf "d.e.f"] := by decide

/-- One lexicon is resolved, and another is not. -/
def sampleResolver (nsid : Text) : Option Json :=
  if nsid = textOf "a.b.c" then some sampleLexicon else none

theorem recursive_ball_sample :
  ∃ lexicons,
    resolveRecursive sampleResolver (fun _ => List.reverse) .default (textOf "a.b.c") =
      .ok lexicons ∧
    ∀ nsid lexicon, lookup nsid lexicons = some lexicon ↔
      Wanted sampleResolver .default (textOf "a.b.c") nsid lexicon
  := by
  apply (recursive_ball sampleResolver (fun _ => List.reverse)
    (fun _ => List.reverse_perm) .default (textOf "a.b.c")).2.1
  rintro ⟨-, hnone⟩
  cases hnone

/-- Nothing is returned when the entry is not resolved, though no lexicon is within any distance. -/
theorem recursive_entry_failed :
  resolveRecursive (fun _ => none) (fun _ nsids => nsids) .default (textOf "a.b.c") =
      .error .noLexiconsResolved ∧
    ¬ ∃ lexicons, resolveRecursive (fun _ => none) (fun _ nsids => nsids) .default
      (textOf "a.b.c") = .ok lexicons
  := by
  have herror : resolveRecursive (fun _ => none) (fun _ nsids => nsids) .default
      (textOf "a.b.c") = .error .noLexiconsResolved := rfl
  use herror
  rintro ⟨lexicons, hok⟩
  rw [herror] at hok
  cases hok

end Atproto.Lexicon.Recursive
