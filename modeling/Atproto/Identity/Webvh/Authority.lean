import Atproto.Identity.Webvh.History
import Atproto.Identity.Webvh.Witness

/-!
# Who may change an identity

In a log that is accepted every later entry is signed with a key of the state before it: with
one of the update keys, or, when keys were announced, with a new update key, and then one of the
new keys was announced.  The witnesses that were in force before an entry have approved it.
-/

namespace Atproto.Identity.Webvh

open Atproto.Dasl Atproto.Repo SearchTree

/-! ### Parameters in force -/

/-- The parameters that are in force after some entries. -/
inductive InForce (library : LogLibrary) : List LogEntry → MergedParameters → Prop where
  | first {entry : LogEntry} {method scid : Text} {updateKeys : List Text}
    {params : MergedParameters}
    (hmethod : stringField "method" (normalizeNullParameters entry).parameters = some method)
    (hscid : stringField "scid" (normalizeNullParameters entry).parameters = some scid)
    (hkeys : textsParam "updateKeys" (normalizeNullParameters entry).parameters = some updateKeys)
    (hmerge : mergeOptionalParams library
      { MergedParameters.default with method := method, scid := scid, updateKeys := updateKeys }
      (normalizeNullParameters entry).parameters true = .ok params) :
    InForce library [entry] params
  | next {entries : List LogEntry} {entry : LogEntry} {before params : MergedParameters}
    (h : InForce library entries before)
    (hmerge : mergeEntryParams library before (normalizeNullParameters entry).parameters
      (entries.length + 1) = .ok params) :
    InForce library (entries ++ [entry]) params

variable {library : LogLibrary} {did scid : Text}
  {witnessProofs : Option (List WitnessProofEntry)} {body : List Char} {now : Int} {index : Nat}
  {entry activeEntry : LogEntry} {rawEntry : Json} {state next : LogState}
  {entries earlier later : List LogEntry} {progress : Progress}

/-- After the first entry there are parameters in force. -/
theorem InForce.ne_nil {params : MergedParameters} (h : InForce library entries params) :
  entries ≠ []
  := by
  cases h with
  | first hmethod hscid hkeys hmerge => exact List.cons_ne_nil _ _
  | next h hmerge => exact List.append_ne_nil_of_right_ne_nil _ (List.cons_ne_nil _ _)

/-- The parameters in force are determined by the entries. -/
theorem InForce.unique {a b : MergedParameters} (ha : InForce library entries a)
    (hb : InForce library entries b) :
  a = b
  := by
  induction ha generalizing b with
  | @first entry method scid updateKeys a hmethod hscid hkeys hmerge =>
    generalize hentries : [entry] = entries at hb
    cases hb with
    | first hmethod' hscid' hkeys' hmerge' =>
      obtain rfl := List.singleton_inj.mp hentries
      obtain rfl := Option.some.inj (hmethod.symm.trans hmethod')
      obtain rfl := Option.some.inj (hscid.symm.trans hscid')
      obtain rfl := Option.some.inj (hkeys.symm.trans hkeys')
      exact Except.ok.inj (hmerge.symm.trans hmerge')
    | @next entries' entry' before' b h' hmerge' =>
      have hsplit : [] ++ [entry] = entries' ++ [entry'] := hentries
      exact absurd (List.append_singleton_inj.mp hsplit).1.symm h'.ne_nil
  | @next entries entry before a h hmerge ih =>
    generalize hentries : entries ++ [entry] = all at hb
    cases hb with
    | @first entry' method' scid' updateKeys' b hmethod' hscid' hkeys' hmerge' =>
      have hsplit : entries ++ [entry] = [] ++ [entry'] := hentries
      exact absurd (List.append_singleton_inj.mp hsplit).1 h.ne_nil
    | next h' hmerge' =>
      obtain ⟨rfl, rfl⟩ := List.append_singleton_inj.mp hentries
      obtain rfl := ih h'
      exact Except.ok.inj (hmerge.symm.trans hmerge')

/-! ### What a check that succeeds has found -/

/-- A valid proof of a controller. -/
structure SignedWith (library : WebvhLibrary) (entry : Json) (proof : DataIntegrityProof)
    (key : Text) : Prop where
  type : proof.type = textOf "DataIntegrityProof"
  cryptosuite : proof.cryptosuite = textOf "eddsa-jcs-2022"
  method : extractMultikey proof.verificationMethod = some key
  signed : ∃ publicKeyBytes signatureBytes,
    decodeEd25519Multikey library key = .ok publicKeyBytes ∧
    decodeProofValue library proof.proofValue = .ok signatureBytes ∧
    verifyEd25519Signature library publicKeyBytes (signedBytes library entry) signatureBytes = .ok ()

theorem exists_key_of_verifyProof {webvh : WebvhLibrary} {proof : DataIntegrityProof}
    {updateKeys : List Text} {entryIndex : Nat}
    (h : verifyProof webvh rawEntry proof updateKeys entryIndex = .ok ()) :
  ∃ key ∈ updateKeys, SignedWith webvh rawEntry proof key
  := by
  rw [verifyProof] at h
  split_ifs at h with htype hcryptosuite
  cases hkey : extractMultikey proof.verificationMethod with
  | none =>
    rw [hkey] at h
    cases h
  | some key =>
    rw [hkey] at h
    simp only at h
    split_ifs at h with hmem
    obtain ⟨publicKeyBytes, hpublic, h⟩ := Logic.bind_eq_ok.mp h
    obtain ⟨signatureBytes, hsignature, h⟩ := Logic.bind_eq_ok.mp h
    rw [Text.not_isIn, not_not] at hmem
    exact ⟨key, hmem, not_not.mp htype, not_not.mp hcryptosuite, hkey, publicKeyBytes,
      signatureBytes, Logic.mapError_eq_ok.mp hpublic, Logic.mapError_eq_ok.mp hsignature,
      Logic.mapError_eq_ok.mp h⟩

theorem exists_proof_of_verifyProofs {webvh : WebvhLibrary} {proofs : List DataIntegrityProof}
    {updateKeys : List Text} {entryIndex : Nat} {lastError : WebvhDidError}
    (h : verifyProofs webvh rawEntry updateKeys entryIndex lastError proofs = .ok ()) :
  ∃ proof ∈ proofs, ∃ key ∈ updateKeys, SignedWith webvh rawEntry proof key
  := by
  induction proofs generalizing lastError with
  | nil => cases h
  | cons proof proofs ih =>
    rw [verifyProofs] at h
    cases hproof : verifyProof webvh rawEntry proof updateKeys entryIndex with
    | ok result => exact ⟨proof, List.mem_cons_self, exists_key_of_verifyProof hproof⟩
    | error error =>
      rw [hproof] at h
      obtain ⟨other, hother, hsigned⟩ := ih h
      exact ⟨other, List.mem_cons_of_mem proof hother, hsigned⟩

theorem exists_key_of_verifyPrerotation {webvh : WebvhLibrary}
    {currentUpdateKeys prevNextKeyHashes : List Text} {entryIndex : Nat}
    (h : verifyPrerotation webvh currentUpdateKeys prevNextKeyHashes entryIndex = .ok ())
    (hannounced : prevNextKeyHashes ≠ []) :
  ∃ key ∈ currentUpdateKeys, computeMultihashBase58btc webvh key.bytes ∈ prevNextKeyHashes
  := by
  rw [verifyPrerotation, if_neg (by rwa [List.isEmpty_iff])] at h
  split_ifs at h with hany
  obtain ⟨key, hkey, hhash⟩ := List.any_eq_true.mp hany
  exact ⟨key, hkey, Text.isIn_iff.mp hhash⟩

/-- The witnesses in force have approved the entry, each proof adding its weight. -/
def Approved (library : LogLibrary) (witnessProofs : List WitnessProofEntry) (entry : LogEntry)
    (rawEntry : Json) (witness : Option WitnessConfig) : Prop :=
  ∀ config, witness = some config → ∃ proofs ∈ witnessProofs, proofs.versionId = entry.versionId ∧
    Reaches config.threshold 0 (signedWeights library.webvh rawEntry config proofs.proof)

theorem approved_of_checkWitnesses {proofs : List WitnessProofEntry} {entryNumber : Nat}
    {witness : Option WitnessConfig}
    (h : checkWitnesses library (some proofs) entry rawEntry entryNumber witness = .ok ()) :
  Approved library proofs entry rawEntry witness
  := by
  rintro config rfl
  rw [checkWitnesses] at h
  cases hfind : proofs.find? fun proof => proof.versionId = entry.versionId with
  | none =>
    rw [hfind] at h
    cases h
  | some found =>
    rw [hfind] at h
    have hversion := List.find?_some hfind
    exact ⟨found, List.mem_of_find?_eq_some hfind, of_decide_eq_true hversion,
      verifyWitnessProofs_eq_ok.mp h⟩

/-- Only the parameters are normalized. -/
theorem proof_normalizeNullParameters (entry : LogEntry) :
  (normalizeNullParameters entry).proof = entry.proof
  := by
  rw [normalizeNullParameters]
  cases entry.parameters.asObject with
  | none => rfl
  | some fields => rfl

/-- What was found by the checks of a later entry. -/
structure Authorized (library : LogLibrary) (entry : LogEntry) (rawEntry : Json)
    (before after : MergedParameters) : Prop where
  updated : before.nextKeyHashes = [] →
    ∃ proof ∈ entry.proof, ∃ key ∈ before.updateKeys, SignedWith library.webvh rawEntry proof key
  rotated : before.nextKeyHashes ≠ [] →
    (∃ proof ∈ entry.proof, ∃ key ∈ after.updateKeys,
        SignedWith library.webvh rawEntry proof key) ∧
      ∃ key ∈ after.updateKeys,
        computeMultihashBase58btc library.webvh key.bytes ∈ before.nextKeyHashes

theorem elim_eq_ok {ε α : Type} {value : Option α} {error : ε} {a : α} :
  value.elim (.error error) .ok = (.ok a : Except ε α) ↔ value = some a
  := by
  cases value with
  | none => exact ⟨nofun, nofun⟩
  | some b => exact ⟨fun h => congrArg some (Except.ok.inj h), fun h => congrArg Except.ok (Option.some.inj h)⟩

/-- A first entry that is valid puts its parameters in force, and its witnesses approved it. -/
theorem checkEntry_genesis {proofs : List WitnessProofEntry} (hstate : state.params = .default)
    (h : checkEntry library did scid (some proofs) 0 entry (normalizeNullParameters entry) rawEntry
      state = .ok next) :
  InForce library [entry] next.params ∧ Approved library proofs entry rawEntry next.params.witness
  := by
  rw [checkEntry, if_pos rfl, hstate] at h
  obtain ⟨params, hgenesis, h⟩ := Logic.bind_eq_ok.mp h
  obtain ⟨⟨⟩, hwitnesses, h⟩ := Logic.bind_eq_ok.mp h
  obtain ⟨⟨⟩, -, h⟩ := Logic.bind_eq_ok.mp h
  cases h
  refine ⟨?_, approved_of_checkWitnesses hwitnesses⟩
  rw [processGenesisEntry] at hgenesis
  obtain ⟨method, hmethod, hgenesis⟩ := Logic.bind_eq_ok.mp hgenesis
  split_ifs at hgenesis
  obtain ⟨entryScid, hscid, hgenesis⟩ := Logic.bind_eq_ok.mp hgenesis
  split_ifs at hgenesis with heq
  obtain ⟨updateKeys, hkeys, hgenesis⟩ := Logic.bind_eq_ok.mp hgenesis
  split_ifs at hgenesis
  obtain ⟨merged, hmerge, hgenesis⟩ := Logic.bind_eq_ok.mp hgenesis
  obtain ⟨⟨⟩, -, hgenesis⟩ := Logic.bind_eq_ok.mp hgenesis
  obtain ⟨⟨⟩, -, hgenesis⟩ := Logic.bind_eq_ok.mp hgenesis
  obtain ⟨⟨⟩, -, hgenesis⟩ := Logic.bind_eq_ok.mp hgenesis
  obtain ⟨⟨⟩, -, hgenesis⟩ := Logic.bind_eq_ok.mp hgenesis
  obtain ⟨⟨⟩, -, hgenesis⟩ := Logic.bind_eq_ok.mp hgenesis
  dsimp only at hgenesis
  split_ifs at hgenesis
  cases hgenesis
  obtain rfl : entryScid = scid := by simpa using heq
  apply InForce.first (elim_eq_ok.mp hmethod) (elim_eq_ok.mp hscid) _ hmerge
  rw [textsParam, elim_eq_ok.mp hkeys]
  rfl

/-- A later entry that is valid is authorized by the parameters before it. -/
theorem checkEntry_subsequent {proofs : List WitnessProofEntry} (hindex : index ≠ 0)
    (h : checkEntry library did scid (some proofs) index entry (normalizeNullParameters entry)
      rawEntry state = .ok next) :
  mergeEntryParams library state.params (normalizeNullParameters entry).parameters (index + 1) =
      .ok next.params ∧
    Authorized library entry rawEntry state.params next.params ∧
    Approved library proofs entry rawEntry state.params.witness
  := by
  rw [checkEntry, if_neg hindex] at h
  obtain ⟨params, hsubsequent, h⟩ := Logic.bind_eq_ok.mp h
  obtain ⟨matched, -, h⟩ := Logic.bind_eq_ok.mp h
  obtain ⟨⟨⟩, hwitnesses, h⟩ := Logic.bind_eq_ok.mp h
  obtain ⟨⟨⟩, -, h⟩ := Logic.bind_eq_ok.mp h
  cases h
  rw [processSubsequentEntry, proof_normalizeNullParameters] at hsubsequent
  by_cases hscid : ((normalizeNullParameters entry).parameters.get (textOf "scid")).isSome = true
  · rw [if_pos hscid] at hsubsequent
    cases hsubsequent
  rw [if_neg hscid] at hsubsequent
  obtain ⟨merged, hmerge, hsubsequent⟩ := Logic.bind_eq_ok.mp hsubsequent
  obtain ⟨⟨⟩, -, hsubsequent⟩ := Logic.bind_eq_ok.mp hsubsequent
  obtain ⟨⟨⟩, hprerotation, hsubsequent⟩ := Logic.bind_eq_ok.mp hsubsequent
  obtain ⟨⟨⟩, hproof, hsubsequent⟩ := Logic.bind_eq_ok.mp hsubsequent
  cases hsubsequent
  refine ⟨hmerge, ⟨?_, ?_⟩, approved_of_checkWitnesses hwitnesses⟩
  · intro hnone
    rw [hnone] at hproof
    exact exists_proof_of_verifyProofs hproof
  · intro hannounced
    rw [if_neg (by rwa [List.isEmpty_iff])] at hproof
    exact ⟨exists_proof_of_verifyProofs hproof, exists_key_of_verifyPrerotation hprerotation hannounced⟩

/-! ### Whole logs -/

/-- What holds of an entry among the entries before it. -/
structure EntryAuthorized (library : LogLibrary) (witnessProofs : List WitnessProofEntry)
    (earlier : List LogEntry) (entry : LogEntry) (rawEntry : Json) : Prop where
  first : earlier = [] → ∃ params, InForce library [entry] params ∧
    Approved library witnessProofs entry rawEntry params.witness
  subsequent : earlier ≠ [] → ∃ before after, InForce library earlier before ∧
    InForce library (earlier ++ [entry]) after ∧ Authorized library entry rawEntry before after ∧
    Approved library witnessProofs entry rawEntry before.witness

/-- In a log without an entry that fails every entry is authorized. -/
theorem entryAuthorized_of_processEntries {proofs : List WitnessProofEntry} {done : List LogEntry}
    (hstart : done = [] → state.params = .default)
    (hforce : done ≠ [] → InForce library done state.params)
    (h : processEntries library did scid (some proofs) body done.length state entries =
      .ok progress) (hnone : progress.firstError = none)
    (hentries : entries = earlier ++ entry :: later) :
  ∃ rawEntry, parseRawEntry library body (done.length + earlier.length) = .ok rawEntry ∧
    EntryAuthorized library proofs (done ++ earlier) entry rawEntry
  := by
  induction entries generalizing done state earlier with
  | nil => exact absurd hentries.symm (List.append_ne_nil_of_right_ne_nil _ (List.cons_ne_nil _ _))
  | cons first rest ih =>
    obtain ⟨rawEntry, hraw, -, ⟨next, hcheck, hrest⟩ | ⟨error, -, -, rfl⟩⟩ :=
      processEntries_cons.mp h
    · have hnext : InForce library (done ++ [first]) next.params ∧
          EntryAuthorized library proofs done first rawEntry := by
        by_cases hdone : done = []
        · subst hdone
          obtain ⟨hparams, happroved⟩ := checkEntry_genesis (hstart rfl) hcheck
          exact ⟨hparams, fun _ => ⟨_, hparams, happroved⟩, fun hne => absurd rfl hne⟩
        · have hlength : done.length ≠ 0 := mt List.length_eq_zero_iff.mp hdone
          obtain ⟨hmerge, hauthorized, happroved⟩ := checkEntry_subsequent hlength hcheck
          have hafter := InForce.next (hforce hdone) hmerge
          exact ⟨hafter, fun hnil => absurd hnil hdone,
            fun _ => ⟨_, _, hforce hdone, hafter, hauthorized, happroved⟩⟩
      cases earlier with
      | nil =>
        obtain ⟨rfl, rfl⟩ := List.cons.inj hentries
        rw [List.append_nil]
        exact ⟨rawEntry, hraw, hnext.2⟩
      | cons head earlier =>
        obtain ⟨rfl, hrestEntries⟩ := List.cons.inj hentries
        have hstep := @ih next earlier (done ++ [first])
          (fun hnil => absurd hnil (List.append_ne_nil_of_right_ne_nil _ (List.cons_ne_nil _ _)))
          (fun _ => hnext.1) (by rwa [List.length_append, List.length_singleton]) hrestEntries
        rw [List.length_append, List.length_singleton, List.append_assoc, List.singleton_append]
          at hstep
        rwa [List.length_cons, Nat.add_comm earlier.length 1, ← Nat.add_assoc]
    · cases hnone

/-- Every entry of a log that is accepted is authorized by the state before it. -/
theorem update_authority {proofs : List WitnessProofEntry} {resolved : ResolvedLog library}
    (h : processLogFull library did scid body (some proofs) none now = .ok resolved) :
  ∃ entries, parseLogEntries library body = .ok entries ∧
    ∀ earlier entry later, entries = earlier ++ entry :: later →
      ∃ rawEntry, parseRawEntry library body earlier.length = .ok rawEntry ∧
        EntryAuthorized library proofs earlier entry rawEntry
  := by
  obtain ⟨entries, hentries, h⟩ := Logic.bind_eq_ok.mp h
  obtain ⟨progress, hprogress, hfinish⟩ := Logic.bind_eq_ok.mp h
  refine ⟨entries, hentries, fun earlier entry later hsplit => ?_⟩
  have hnone : progress.firstError = none := by
    rw [finishLog] at hfinish
    cases htake : entries.take progress.valid with
    | nil =>
      rw [htake] at hfinish
      cases hfinish
    | cons first rest =>
      rw [htake] at hfinish
      obtain ⟨⟨⟩, -, hfinish⟩ := Logic.bind_eq_ok.mp hfinish
      split_ifs at hfinish
      obtain ⟨selected, hselect, -⟩ := Logic.bind_eq_ok.mp hfinish
      rw [selectEntry] at hselect
      split_ifs at hselect
      cases herror : progress.firstError with
      | none => rfl
      | some error =>
        rw [herror] at hselect
        cases hselect
  have hall := @entryAuthorized_of_processEntries library did scid body entry .start entries earlier
    later progress proofs [] (fun _ => rfl) (fun hne => absurd rfl hne) hprogress hnone hsplit
  rwa [List.length_nil, Nat.zero_add, List.nil_append] at hall

/-! ### A log that rotates its keys -/

/-- The announced key. -/
def announcedKeys : List Text := [computeMultihashBase58btc shortLibrary (textOf "zB").bytes]

/-- Two witnesses, both of which have to approve. -/
def bothWitnesses : Json :=
  let witness (key : String) : Json :=
    jsonObject [("id", .string (textOf ("did:key:" ++ key))), ("weight", .number (.posInt 1))]
  jsonObject [("threshold", .number (.posInt 2)), ("witnesses", .array [witness "zV", witness "zW"])]

/-- Reading a configuration of witnesses from a JSON value. -/
def witnessConfigFromValue (value : Json) : Except Text WitnessConfig :=
  let number (key : String) (value : Json) : Option Nat := (value.get (textOf key)).bind asU64
  let entry (value : Json) : Option WitnessEntry := do
    let id ← stringField "id" value
    let weight ← number "weight" value
    some { id := id, weight := weight }
  let config : Option WitnessConfig := do
    let threshold ← number "threshold" value
    let witnesses ← ((value.get (textOf "witnesses")).bind Json.asArray).bind fun items =>
      items.mapM entry
    some { threshold := threshold, witnesses := witnesses }
  config.elim (.error (textOf "missing field")) .ok

/-- The parameters of a first entry with an announced key and two witnesses. -/
def rotationParameters (scid : Text) : Json :=
  setField "witness" bothWitnesses (genesisParameters announcedKeys scid)

/-- The first entry with the placeholder. -/
def rotationPlaceholder : Json :=
  unsignedEntry (rotationParameters (textOf scidPlaceholder)) (shortState (textOf scidPlaceholder))
    (textOf scidPlaceholder) (textOf "2025-01-01T00:00:00Z")

/-- The identifier of the log. -/
def rotationScid : Text :=
  computeMultihashBase58btc shortLibrary (canonicalize shortLibrary.floatText rotationPlaceholder)

/-- The first entry. -/
def rotationEntry : Json :=
  signedEntry "1" (rotationParameters rotationScid) (shortState rotationScid) "2025-01-01T00:00:00Z"
    "zA" "sA1"

/-- A second entry with the announced key and another one, which signs it. -/
def rotatedEntry : Json :=
  signedEntry "2" (jsonObject [("updateKeys", .array [.string (textOf "zB"), .string (textOf "zC")])])
    (shortState rotationScid) "2025-01-02T00:00:00Z" "zC" "sC1"

/-- The logs of the two entries. -/
def rotationLogs : LogLibrary :=
  { shortLogs [rotationPlaceholder, rotationEntry, rotatedEntry] with
    witnessFromValue := witnessConfigFromValue }

/-- The log of the two entries. -/
def rotationBody : List Char := shortText rotationEntry ++ '\n' :: shortText rotatedEntry

/-- The proof of a witness. -/
def witnessProof (key proofValue : String) : DataIntegrityProof where
  type := textOf "DataIntegrityProof"
  cryptosuite := textOf "eddsa-jcs-2022"
  verificationMethod := textOf ("did:key:" ++ key)
  created := textOf "2025-01-02T00:00:00Z"
  proofPurpose := textOf "assertionMethod"
  proofValue := textOf proofValue

/-- Both witnesses approve both entries. -/
def rotationProofs : List WitnessProofEntry :=
  [rotationEntry, rotatedEntry].filterMap fun entry =>
    (stringField "versionId" entry).map fun versionId => {
      versionId := versionId
      proof := [witnessProof "zV" "sV1", witnessProof "zW" "sW1"] }

theorem rotation_isSome :
  (processLogFull rotationLogs (shortDid rotationScid) rotationScid rotationBody
    (some rotationProofs) none 0).toOption.isSome = true
  := by decide +kernel

/-- The announced keys and the threshold of the witnesses after the first of two entries, and the
update keys after the second. -/
def rotatedKeys (library : LogLibrary) :
    List LogEntry → Option (List Text × Option Nat × List Text)
  | [first, second] => do
    let entryParams := (normalizeNullParameters first).parameters
    let method ← stringField "method" entryParams
    let scid ← stringField "scid" entryParams
    let updateKeys ← textsParam "updateKeys" entryParams
    let before ← (mergeOptionalParams library
      { MergedParameters.default with method := method, scid := scid, updateKeys := updateKeys }
      entryParams true).toOption
    let after ← (mergeEntryParams library before (normalizeNullParameters second).parameters
      2).toOption
    some (before.nextKeyHashes, before.witness.map WitnessConfig.threshold, after.updateKeys)
  | [] => none
  | [_] => none
  | _ :: _ :: _ :: _ => none

theorem inForce_of_rotatedKeys {announced updateKeys : List Text} {threshold : Option Nat}
    (h : rotatedKeys library entries = some (announced, threshold, updateKeys)) :
  ∃ first second before after, entries = [first, second] ∧ InForce library [first] before ∧
    InForce library [first, second] after ∧ before.nextKeyHashes = announced ∧
    before.witness.map WitnessConfig.threshold = threshold ∧ after.updateKeys = updateKeys
  := by
  match entries with
  | [] => cases h
  | [_] => cases h
  | _ :: _ :: _ :: _ => cases h
  | [first, second] =>
    obtain ⟨method, hmethod, h⟩ := Option.bind_eq_some_iff.mp h
    obtain ⟨scid, hscid, h⟩ := Option.bind_eq_some_iff.mp h
    obtain ⟨keys, hkeys, h⟩ := Option.bind_eq_some_iff.mp h
    obtain ⟨before, hbefore, h⟩ := Option.bind_eq_some_iff.mp h
    obtain ⟨after, hafter, h⟩ := Option.bind_eq_some_iff.mp h
    cases h
    have hfirst : InForce library [first] before :=
      .first hmethod hscid hkeys (Logic.toOption_eq_some.mp hbefore)
    exact ⟨first, second, before, after, rfl, hfirst,
      hfirst.next (Logic.toOption_eq_some.mp hafter), rfl, rfl, rfl⟩

/-- What is in force after each of the two entries. -/
theorem rotation_inForce :
  ∃ first second before after, parseLogEntries rotationLogs rotationBody = .ok [first, second] ∧
    InForce rotationLogs [first] before ∧ InForce rotationLogs [first, second] after ∧
    before.nextKeyHashes = announcedKeys ∧
    before.witness.map WitnessConfig.threshold = some 2 ∧
    after.updateKeys = [textOf "zB", textOf "zC"]
  := by
  have hkeys : (parseLogEntries rotationLogs rotationBody).toOption.bind (rotatedKeys rotationLogs) =
      some (announcedKeys, some 2, [textOf "zB", textOf "zC"]) := by decide +kernel
  obtain ⟨entries, hentries, hrotated⟩ := Option.bind_eq_some_iff.mp hkeys
  obtain ⟨first, second, before, after, rfl, hinForce⟩ := inForce_of_rotatedKeys hrotated
  exact ⟨first, second, before, after, Logic.toOption_eq_some.mp hentries, hinForce⟩

/-- The second entry is signed with a new update key, the announced key is one of them, and the
witnesses of the first entry have approved it. -/
theorem update_authority_sample :
  ∃ first second before after rawEntry config,
    parseLogEntries rotationLogs rotationBody = .ok [first, second] ∧
    parseRawEntry rotationLogs rotationBody 1 = .ok rawEntry ∧
    InForce rotationLogs [first] before ∧ InForce rotationLogs [first, second] after ∧
    before.nextKeyHashes = announcedKeys ∧ before.witness = some config ∧ config.threshold = 2 ∧
    Authorized rotationLogs second rawEntry before after ∧
    Approved rotationLogs rotationProofs second rawEntry (some config)
  := by
  obtain ⟨resolved, hresolved⟩ := Logic.exists_eq_ok rotation_isSome
  obtain ⟨entries, hentries, hall⟩ := update_authority hresolved
  obtain ⟨first, second, before, after, hparsed, hbefore, hafter, hannounced, hthreshold, -⟩ :=
    rotation_inForce
  obtain rfl := Except.ok.inj (hentries.symm.trans hparsed)
  obtain ⟨rawEntry, hraw, hentry⟩ := hall [first] second [] rfl
  obtain ⟨before', after', hbefore', hafter', hauthorized, happroved⟩ :=
    hentry.subsequent (List.cons_ne_nil _ _)
  obtain rfl := hbefore'.unique hbefore
  obtain rfl := hafter'.unique hafter
  obtain ⟨config, hconfig, htwo⟩ := Option.map_eq_some_iff.mp hthreshold
  rw [hconfig] at happroved
  exact ⟨first, second, before', after', rawEntry, config, hparsed, hraw, hbefore, hafter,
    hannounced, hconfig, htwo, hauthorized, happroved⟩

/-- A log is accepted in which an announced key and another key become update keys, and the other
one signs. -/
theorem rotation_accepted :
  (∃ resolved, processLogFull rotationLogs (shortDid rotationScid) rotationScid rotationBody
      (some rotationProofs) none 0 = .ok resolved) ∧
    ∃ first second before after, parseLogEntries rotationLogs rotationBody =
        .ok [first, second] ∧
      InForce rotationLogs [first] before ∧ InForce rotationLogs [first, second] after ∧
      before.nextKeyHashes ≠ [] ∧ ¬ ∀ key ∈ after.updateKeys,
        computeMultihashBase58btc rotationLogs.webvh key.bytes ∈ before.nextKeyHashes
  := by
  refine ⟨Logic.exists_eq_ok rotation_isSome, ?_⟩
  obtain ⟨first, second, before, after, hparsed, hbefore, hafter, hannounced, -, hupdated⟩ :=
    rotation_inForce
  refine ⟨first, second, before, after, hparsed, hbefore, hafter, ?_, ?_⟩
  · rw [hannounced]
    exact List.cons_ne_nil _ _
  · rw [hannounced, hupdated]
    intro h
    have hmem := h (textOf "zC") (List.mem_cons_of_mem _ List.mem_cons_self)
    revert hmem
    decide +kernel

end Atproto.Identity.Webvh
