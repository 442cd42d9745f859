import Atproto.Identity.Webvh.Canonical
import Atproto.Identity.Webvh.Times
import Mathlib.Data.List.Forall2

/-!
# The entries of two logs

The version identifier of an entry has the hash of the entry, and not of the one before it: without
collisions it binds what the entry says, and nothing of the entries before.  Two logs of one identifier
have the same entries exactly when they have the same version identifiers at every place; that the last
ones are the same does not say so.
-/

namespace Atproto.Identity.Webvh

open Atproto.Dasl Atproto.Repo SearchTree

/-- The values of the lines of a log. -/
def entryValues (library : LogLibrary) (body : List Char) : List Json :=
  (entryLines body).filterMap fun line => (library.jsonText.fromStr line).toOption

/-- Two entries have the same version identifier and say the same, apart from their proofs. -/
structure SameEntry (library : WebvhLibrary) (a b : Json) : Prop where
  versionId : stringField "versionId" a = stringField "versionId" b
  content : hashedBytes library a = hashedBytes library b

/-- No two entries of two lists say different things with one hash. -/
def HashesApart (library : WebvhLibrary) (values others : List Json) : Prop :=
  ∀ a ∈ values, ∀ b ∈ others, computeMultihashBase58btc library (hashedBytes library a) =
    computeMultihashBase58btc library (hashedBytes library b) →
      hashedBytes library a = hashedBytes library b

/-! ### What a version identifier binds -/

/-- The version identifier of an entry that is verified has the hash of the entry. -/
theorem hash_of_verified {library : WebvhLibrary} {entry : Json} {number index : Nat}
    (h : verifyVersionId library entry number index = .ok ()) :
  ∃ versionId, stringField "versionId" entry = some versionId ∧
    parseVersionId versionId =
      .ok (number, computeMultihashBase58btc library (hashedBytes library entry))
  := by
  rw [verifyVersionId] at h
  cases hversion : stringField "versionId" entry with
  | none =>
    rw [hversion] at h
    cases h
  | some versionId =>
    rw [hversion] at h
    obtain ⟨⟨parsed, expected⟩, hparse, h⟩ := Logic.bind_eq_ok.mp h
    dsimp only at h
    split_ifs at h with hnumber
    obtain ⟨computed, hcomputed, h⟩ := Logic.bind_eq_ok.mp h
    split_ifs at h with hhash
    obtain rfl := not_not.mp hnumber
    obtain rfl := not_not.mp hhash
    refine ⟨versionId, rfl, ?_⟩
    rw [Logic.mapError_eq_ok.mp hparse]
    rw [computeEntryHash] at hcomputed
    cases hobject : entry.asObject with
    | none =>
      rw [hobject] at hcomputed
      cases hcomputed
    | some fields =>
      rw [hobject] at hcomputed
      cases hcomputed
      rfl

/-- Verified entries with the same version identifier are the same, if their hashes tell them apart. -/
theorem same_of_versionId {library : WebvhLibrary} {a b : Json} {number number' index index' : Nat}
    (ha : verifyVersionId library a number index = .ok ())
    (hb : verifyVersionId library b number' index' = .ok ())
    (hapart : computeMultihashBase58btc library (hashedBytes library a) =
      computeMultihashBase58btc library (hashedBytes library b) →
        hashedBytes library a = hashedBytes library b)
    (hversion : stringField "versionId" a = stringField "versionId" b) :
  SameEntry library a b
  where
  versionId := hversion
  content := by
    obtain ⟨versionId, hversionId, hparse⟩ := hash_of_verified ha
    obtain ⟨versionId', hversionId', hparse'⟩ := hash_of_verified hb
    rw [hversionId, hversionId'] at hversion
    cases hversion
    rw [hparse] at hparse'
    exact hapart (congrArg Prod.snd (Except.ok.inj hparse'))

/-- Fields with distinct keys, without one of them. -/
theorem distinct_erase {fields : List (Text × Json)} (h : Distinct fields) (key : Text) :
  Distinct (erase key fields)
  := by
  rw [Distinct, erase, List.pairwise_append]
  refine ⟨h.filter _, h.filter _, ?_⟩
  intro a ha b hb
  exact ((lt_of_mem_below ha).trans (lt_of_mem_above hb)).ne

/-- A value without one of its fields. -/
theorem IntegerJson.removeField {value : Json} (h : IntegerJson value) (key : String) :
  IntegerJson (Webvh.removeField key value)
  := by
  cases h with
  | object hdistinct hfields =>
    apply IntegerJson.object
    · exact distinct_erase hdistinct _
    · intro field hfield
      exact hfields field (mem_of_mem_erase hfield).1
  | null => exact .null
  | bool value => exact .bool value
  | posInt value => exact .posInt value
  | negInt value negative => exact .negInt value negative
  | string value => exact .string value
  | array hitems => exact .array hitems

/-- Entries without floating-point numbers that say the same are the same values, apart from the order of
fields. -/
theorem SameEntry.byKey_eq {library : WebvhLibrary} {a b : Json} (h : SameEntry library a b)
    (ha : IntegerJson a) (hb : IntegerJson b) :
  byKey (removeField "versionId" (removeField "proof" a)) =
    byKey (removeField "versionId" (removeField "proof" b))
  := by
  have hcontent := h.content
  rw [hashedBytes, hashedBytes] at hcontent
  have hparse := congrArg Atproto.JsonText.parse hcontent
  rw [((ha.removeField "proof").removeField "versionId").parse_canonicalize,
    ((hb.removeField "proof").removeField "versionId").parse_canonicalize] at hparse
  exact Option.some.inj hparse

/-! ### The entries of an accepted log -/

variable {library : LogLibrary} {did scid : Text}
  {witnessProofs : Option (List WitnessProofEntry)} {body : List Char} {now : Int} {index : Nat}
  {entries : List LogEntry} {state : LogState} {progress : Progress}

/-- An entry that is accepted is verified. -/
theorem verified_of_checkEntry {entry activeEntry : LogEntry} {rawEntry : Json} {next : LogState}
    (h : checkEntry library did scid witnessProofs index entry activeEntry rawEntry state = .ok next) :
  verifyVersionId library.webvh rawEntry (index + 1) (index + 1) = .ok ()
  := by
  rw [checkEntry] at h
  split_ifs at h with hindex
  · obtain ⟨params, hgenesis, -⟩ := Logic.bind_eq_ok.mp h
    rw [processGenesisEntry] at hgenesis
    obtain ⟨method, -, h⟩ := Logic.bind_eq_ok.mp hgenesis
    split_ifs at h
    obtain ⟨entryScid, -, h⟩ := Logic.bind_eq_ok.mp h
    split_ifs at h
    obtain ⟨updateKeys, -, h⟩ := Logic.bind_eq_ok.mp h
    split_ifs at h
    obtain ⟨params, -, h⟩ := Logic.bind_eq_ok.mp h
    obtain ⟨-, -, h⟩ := Logic.bind_eq_ok.mp h
    obtain ⟨-, -, h⟩ := Logic.bind_eq_ok.mp h
    obtain ⟨-, -, h⟩ := Logic.bind_eq_ok.mp h
    obtain ⟨u, hversion, -⟩ := Logic.bind_eq_ok.mp h
    rw [hindex]
    exact hversion
  · obtain ⟨params, hsubsequent, -⟩ := Logic.bind_eq_ok.mp h
    rw [processSubsequentEntry] at hsubsequent
    split at hsubsequent
    · cases hsubsequent
    obtain ⟨params, -, h⟩ := Logic.bind_eq_ok.mp hsubsequent
    obtain ⟨u, hversion, -⟩ := Logic.bind_eq_ok.mp h
    exact hversion

/-- In a log without an entry that fails, all lines are values that are verified. -/
theorem lines_verified {doneLines texts : List (List Char)}
    (h : processEntries library did scid witnessProofs body doneLines.length state entries =
      .ok progress)
    (hnone : progress.firstError = none) (hbody : entryLines body = doneLines ++ texts)
    (hlength : texts.length = entries.length) :
  ∀ line ∈ texts, ∃ value number, library.jsonText.fromStr line = .ok value ∧
    verifyVersionId library.webvh value number number = .ok ()
  := by
  induction entries generalizing doneLines texts state with
  | nil =>
    obtain rfl := List.length_eq_zero_iff.mp hlength
    intro line hline
    cases hline
  | cons entry entries ih =>
    cases texts with
    | nil => cases hlength
    | cons text texts =>
      have htext : (entryLines body)[doneLines.length]? = some text := by
        rw [hbody, List.getElem?_append_right (Nat.le_refl _), Nat.sub_self]
        rfl
      obtain ⟨rawEntry, hraw, -, ⟨next, hcheck, hrest⟩ | ⟨error, -, -, rfl⟩⟩ :=
        processEntries_cons.mp h
      · rw [parseRawEntry_eq htext, Logic.mapError_eq_ok] at hraw
        have hlater := @ih next (doneLines ++ [text]) texts
          (by rw [List.length_append, List.length_singleton]; exact hrest)
          (by rw [hbody, List.append_assoc, List.singleton_append]) (Nat.succ.inj hlength)
        rw [List.forall_mem_cons]
        exact ⟨⟨rawEntry, _, hraw, verified_of_checkEntry hcheck⟩, hlater⟩
      · cases hnone

/-- In a log that is accepted no entry fails. -/
theorem unfailed_of_accepted {resolved : ResolvedLog library}
    (h : processLogFull library did scid body witnessProofs none now = .ok resolved) :
  ∃ entries progress, parseLogEntries library body = .ok entries ∧
    processEntries library did scid witnessProofs body 0 .start entries = .ok progress ∧
    progress.firstError = none
  := by
  obtain ⟨entries, hentries, h⟩ := Logic.bind_eq_ok.mp h
  obtain ⟨progress, hprogress, hfinish⟩ := Logic.bind_eq_ok.mp h
  refine ⟨entries, progress, hentries, hprogress, ?_⟩
  rw [finishLog] at hfinish
  cases htake : entries.take progress.valid with
  | nil =>
    rw [htake] at hfinish
    cases hfinish
  | cons first rest =>
    rw [htake] at hfinish
    obtain ⟨-, -, hfinish⟩ := Logic.bind_eq_ok.mp hfinish
    split_ifs at hfinish
    obtain ⟨selected, hselect, -⟩ := Logic.bind_eq_ok.mp hfinish
    rw [selectEntry] at hselect
    split_ifs at hselect
    cases herror : progress.firstError with
    | none => rfl
    | some error =>
      rw [herror] at hselect
      cases hselect

/-- All lines of a log that is accepted are values that are verified. -/
theorem values_verified {resolved : ResolvedLog library}
    (h : processLogFull library did scid body witnessProofs none now = .ok resolved) :
  ∀ value ∈ entryValues library body, ∃ number,
    verifyVersionId library.webvh value number number = .ok ()
  := by
  obtain ⟨entries, progress, hentries, hprogress, hnone⟩ := unfailed_of_accepted h
  have hlength : (entryLines body).length = entries.length := by
    have hmap := congrArg List.length (parseLogEntries_eq_ok.mp hentries)
    rwa [List.length_map, List.length_map] at hmap
  have hlines := @lines_verified library did scid witnessProofs body entries .start progress []
    (entryLines body) hprogress hnone (List.nil_append _).symm hlength
  intro value hvalue
  obtain ⟨line, hline, heq⟩ := List.mem_filterMap.mp hvalue
  obtain ⟨value', number, hfromStr, hverified⟩ := hlines line hline
  rw [hfromStr] at heq
  cases heq
  exact ⟨number, hverified⟩

/-! ### Two logs -/

/-- Lists whose elements are related as their images are equal are related as the images are. -/
theorem forall₂_iff_map_eq {α β : Type} {R : α → α → Prop} {f : α → β} {xs ys : List α}
    (h : ∀ x ∈ xs, ∀ y ∈ ys, R x y ↔ f x = f y) :
  List.Forall₂ R xs ys ↔ xs.map f = ys.map f
  := by
  induction xs generalizing ys with
  | nil =>
    rw [List.forall₂_nil_left_iff, List.map_nil, eq_comm (b := ys.map f), List.map_eq_nil_iff]
  | cons x xs ih =>
    cases ys with
    | nil =>
      constructor
      · nofun
      · nofun
    | cons y ys =>
      have hrest : ∀ x' ∈ xs, ∀ y' ∈ ys, R x' y' ↔ f x' = f y' := fun x' hx' y' hy' =>
        h x' (List.mem_cons_of_mem x hx') y' (List.mem_cons_of_mem y hy')
      rw [List.forall₂_cons, List.map_cons, List.map_cons, List.cons.injEq, ih hrest,
        h x List.mem_cons_self y List.mem_cons_self]

/-- Entries at one place of logs with the same entries have the same version identifier. -/
theorem versionId_of_forall₂ {library : WebvhLibrary} {values others : List Json}
    (h : List.Forall₂ (SameEntry library) values others) (place : Nat) :
  values[place]?.bind (stringField "versionId") = others[place]?.bind (stringField "versionId")
  := by
  induction h generalizing place with
  | nil => rfl
  | cons hentry _ ih =>
    cases place with
    | zero => exact hentry.versionId
    | succ place => exact ih place

/-- Two accepted logs of an identifier have the same entries apart from their proofs exactly when they
have the same version identifiers at every place. -/
theorem same_entries_iff {body' : List Char} {witnessProofs' : Option (List WitnessProofEntry)}
    {now' : Int} {resolved resolved' : ResolvedLog library}
    (h : processLogFull library did scid body witnessProofs none now = .ok resolved)
    (h' : processLogFull library did scid body' witnessProofs' none now' = .ok resolved')
    (hapart : HashesApart library.webvh (entryValues library body) (entryValues library body')) :
  List.Forall₂ (SameEntry library.webvh) (entryValues library body) (entryValues library body') ↔
    (entryValues library body).map (stringField "versionId") =
      (entryValues library body').map (stringField "versionId")
  := by
  apply forall₂_iff_map_eq
  intro a ha b hb
  obtain ⟨number, hverified⟩ := values_verified h a ha
  obtain ⟨number', hverified'⟩ := values_verified h' b hb
  constructor
  · intro hsame
    exact hsame.versionId
  · intro hversion
    exact same_of_versionId hverified hverified' (hapart a ha b hb) hversion

/-! ### A log with another entry in it -/

/-- A second entry at a time. -/
def secondEntry (time : String) : Json :=
  signedEntry "2" (jsonObject []) (shortState (shortScid [])) time "zA" "sA1"

/-- A third entry. -/
def thirdEntry : Json :=
  signedEntry "3" (jsonObject []) (shortState (shortScid [])) "2025-01-03T00:00:00Z" "zA" "sA1"

/-- The logs of these entries. -/
def chainLogs : LogLibrary :=
  shortLogs [placeholderEntry [], genesisEntry [], secondEntry "2025-01-02T00:00:00Z",
    secondEntry "2025-01-02T00:00:05Z", thirdEntry]

/-- A log of three entries, the second of which has this time. -/
def chainBody (time : String) : List Char :=
  shortText (genesisEntry []) ++ '\n' :: (shortText (secondEntry time) ++ '\n' :: shortText thirdEntry)

def chainAnswer (time : String) : Except WebvhDidError (ResolvedLog chainLogs) :=
  processLogFull chainLogs (shortDid (shortScid [])) (shortScid []) (chainBody time) none none 0

instance (library : WebvhLibrary) (values others : List Json) :
    Decidable (HashesApart library values others) :=
  inferInstanceAs (Decidable (∀ a ∈ values, ∀ b ∈ others, _ → _))

theorem chainAnswer_isSome :
  (chainAnswer "2025-01-02T00:00:00Z").toOption.isSome = true ∧
    (chainAnswer "2025-01-02T00:00:05Z").toOption.isSome = true
  := by decide +kernel

/-- What the values of the two logs are compared by. -/
theorem chain_values :
  HashesApart chainLogs.webvh (entryValues chainLogs (chainBody "2025-01-02T00:00:00Z"))
      (entryValues chainLogs (chainBody "2025-01-02T00:00:05Z")) ∧
    (entryValues chainLogs (chainBody "2025-01-02T00:00:00Z")).getLast?.bind
        (stringField "versionId") =
      (entryValues chainLogs (chainBody "2025-01-02T00:00:05Z")).getLast?.bind
        (stringField "versionId") ∧
    (entryValues chainLogs (chainBody "2025-01-02T00:00:00Z"))[1]?.bind (stringField "versionId") ≠
      (entryValues chainLogs (chainBody "2025-01-02T00:00:05Z"))[1]?.bind (stringField "versionId")
  := by decide +kernel

/-- Two logs of three entries. -/
theorem same_entries_iff_sample :
  ∃ resolved resolved', chainAnswer "2025-01-02T00:00:00Z" = .ok resolved ∧
    chainAnswer "2025-01-02T00:00:05Z" = .ok resolved' ∧
    (List.Forall₂ (SameEntry chainLogs.webvh)
        (entryValues chainLogs (chainBody "2025-01-02T00:00:00Z"))
        (entryValues chainLogs (chainBody "2025-01-02T00:00:05Z")) ↔
      (entryValues chainLogs (chainBody "2025-01-02T00:00:00Z")).map (stringField "versionId") =
        (entryValues chainLogs (chainBody "2025-01-02T00:00:05Z")).map (stringField "versionId"))
  := by
  obtain ⟨resolved, h⟩ := Logic.exists_eq_ok chainAnswer_isSome.1
  obtain ⟨resolved', h'⟩ := Logic.exists_eq_ok chainAnswer_isSome.2
  exact ⟨resolved, resolved', h, h', same_entries_iff h h' chain_values.1⟩

/-- The logs are accepted and end with the same version, and their second entries are different. -/
theorem same_entries_replaced :
  (∃ resolved, chainAnswer "2025-01-02T00:00:00Z" = .ok resolved) ∧
    (∃ resolved, chainAnswer "2025-01-02T00:00:05Z" = .ok resolved) ∧
    HashesApart chainLogs.webvh (entryValues chainLogs (chainBody "2025-01-02T00:00:00Z"))
      (entryValues chainLogs (chainBody "2025-01-02T00:00:05Z")) ∧
    (entryValues chainLogs (chainBody "2025-01-02T00:00:00Z")).getLast?.bind
        (stringField "versionId") =
      (entryValues chainLogs (chainBody "2025-01-02T00:00:05Z")).getLast?.bind
        (stringField "versionId") ∧
    ¬ List.Forall₂ (SameEntry chainLogs.webvh)
      (entryValues chainLogs (chainBody "2025-01-02T00:00:00Z"))
      (entryValues chainLogs (chainBody "2025-01-02T00:00:05Z"))
  := by
  refine ⟨Logic.exists_eq_ok chainAnswer_isSome.1, Logic.exists_eq_ok chainAnswer_isSome.2,
    chain_values.1, chain_values.2.1, ?_⟩
  intro hsame
  exact chain_values.2.2 (versionId_of_forall₂ hsame 1)

end Atproto.Identity.Webvh
