import Atproto.Identity.Webvh.Scid

/-!
# Logs

A log has one entry on each line that is not blank.  The parameters of the entries are merged
one after another, and an entry is checked against the parameters before it.  A first entry that
fails aborts; the entries before a later one that fails are kept, but some checks abort at
any entry.
-/

namespace Atproto.Identity.Webvh

open Atproto.Dasl Atproto.Repo SearchTree

/-! ### Entries and parameters -/

/-- An entry of a log. -/
structure LogEntry where
  versionId : Text
  versionTime : Text
  parameters : Json
  state : Json
  proof : List DataIntegrityProof

/-- The parameters of all entries so far. -/
structure MergedParameters where
  method : Text
  scid : Text
  updateKeys : List Text
  nextKeyHashes : List Text
  portable : Bool
  deactivated : Bool
  ttl : Nat
  witness : Option WitnessConfig
  watchers : List Text

/-- The parameters before the first entry. -/
def MergedParameters.default : MergedParameters where
  method := Text.empty
  scid := Text.empty
  updateKeys := []
  nextKeyHashes := []
  portable := false
  deactivated := false
  ttl := 3600
  witness := none
  watchers := []

/-- The proofs of the witnesses for one version. -/
structure WitnessProofEntry where
  versionId : Text
  proof : List DataIntegrityProof

/-- Which version is asked for. -/
structure QueryParams where
  versionId : Option Text
  versionTime : Option Text
  versionNumber : Option Nat

/-- What is said about a resolution. -/
structure ResolutionMetadata where
  versionId : Text
  versionTime : Text
  created : Text
  updated : Text
  scid : Text
  portable : Bool
  deactivated : Bool
  ttl : Nat
  witness : Option WitnessConfig
  watchers : List Text

/-- The libraries of a log: how entries, configurations of witnesses, documents and times are
read. -/
structure LogLibrary where
  webvh : WebvhLibrary
  jsonText : JsonText
  entryFromStr : List Char → Except Text LogEntry
  witnessFromValue : Json → Except Text WitnessConfig
  Document : Type
  documentFromValue : Json → Except Text Document
  parseFromRfc3339 : Text → Option Int

variable (library : LogLibrary)

/-- The version of a log that was asked for. -/
structure ResolvedLog where
  document : library.Document
  versionId : Text
  versionNumber : Nat
  versionTime : Text
  parameters : MergedParameters
  entryCount : Nat
  metadata : ResolutionMetadata

/-! ### Lines -/

/-- The lines of a text, whose current line has these characters, the last one first. -/
def linesFrom (current : List Char) : List Char → List (List Char)
  | [] => if current = [] then [] else [current.reverse]
  | c :: rest =>
    if c = '\n' then
      (if current.head? = some '\r' then current.tail else current).reverse :: linesFrom [] rest
    else linesFrom (c :: current) rest

/-- The lines of a text. -/
def lines (body : List Char) : List (List Char) := linesFrom [] body

/-- A character is white space. -/
def isWhitespace (c : Char) : Bool :=
  (0x09 ≤ c.toNat && c.toNat ≤ 0x0d) || c.toNat = 0x20 || c.toNat = 0x85 || c.toNat = 0xa0 ||
    c.toNat = 0x1680 || (0x2000 ≤ c.toNat && c.toNat ≤ 0x200a) || c.toNat = 0x2028 ||
    c.toNat = 0x2029 || c.toNat = 0x202f || c.toNat = 0x205f || c.toNat = 0x3000

/-- A text without white space around it. -/
def trim (text : List Char) : List Char :=
  ((text.dropWhile isWhitespace).reverse.dropWhile isWhitespace).reverse

/-- Read the entries of lines, the first of which has this number. -/
def parseLines (number : Nat) : List (List Char) → Except WebvhDidError (List LogEntry)
  | [] => .ok []
  | line :: rest =>
    if trim line = [] then parseLines (number + 1) rest
    else do
      let entry ← (library.entryFromStr (trim line)).mapError (.logEntryParseFailed number)
      let entries ← parseLines (number + 1) rest
      .ok (entry :: entries)

/-- Read the entries of a log. -/
def parseLogEntries (body : List Char) : Except WebvhDidError (List LogEntry) :=
  parseLines library 1 (lines body)

/-- Read one entry of a log as a JSON value. -/
def parseRawEntry (body : List Char) (index : Nat) : Except WebvhDidError Json :=
  match ((lines body).filter fun line => trim line ≠ [])[index]? with
  | none => .error .emptyLog
  | some line => (library.jsonText.fromStr (trim line)).mapError (.logEntryParseFailed (index + 1))

/-! ### Parameters of an entry -/

/-- The parameters that are known. -/
def knownParameters : List Text :=
  [textOf "method", textOf "scid", textOf "updateKeys", textOf "nextKeyHashes", textOf "portable",
    textOf "deactivated", textOf "ttl", textOf "witness", textOf "watchers"]

/-- The default that stands for null. -/
def nullDefault (key : Text) : Json :=
  if key = textOf "portable" ∨ key = textOf "deactivated" then .bool false
  else if key = textOf "ttl" then .number (.posInt 3600)
  else if key = textOf "updateKeys" ∨ key = textOf "nextKeyHashes" ∨ key = textOf "watchers" then
    .array []
  else .object []

/-- A value is null. -/
def isNull : Json → Bool
  | .null => true
  | .bool _ => false
  | .number _ => false
  | .string _ => false
  | .array _ => false
  | .object _ => false

/-- An entry whose parameters have their defaults in place of null. -/
def normalizeNullParameters (entry : LogEntry) : LogEntry :=
  match entry.parameters.asObject with
  | none => entry
  | some fields =>
    { entry with
      parameters := .object (fields.map fun field =>
        if isNull field.2 then (field.1, nullDefault field.1) else field) }

/-- Check that all parameters are known. -/
def validateKnownParameters (entryParams : Json) (entryNumber : Nat) :
    Except WebvhDidError Unit :=
  match (entryParams.asObject.getD []).find? fun field => !field.1.isIn knownParameters with
  | some field => .error (.unknownParameter entryNumber field.1)
  | none => .ok ()

/-- A parameter that is a list of texts; other items are left out. -/
def textsParam (key : String) (entryParams : Json) : Option (List Text) :=
  ((entryParams.get (textOf key)).bind Json.asArray).map fun items => items.filterMap Json.asStr

/-- The truth value that a value is. -/
def asBool : Json → Option Bool
  | .bool value => some value
  | .null => none
  | .number _ => none
  | .string _ => none
  | .array _ => none
  | .object _ => none

/-- The unsigned number that a value is. -/
def asU64 : Json → Option Nat
  | .number (.posInt value) => some value.toNat
  | .number (.negInt _ _) => none
  | .number (.float _ _) => none
  | .null => none
  | .bool _ => none
  | .string _ => none
  | .array _ => none
  | .object _ => none

/-- A parameter that is a truth value. -/
def boolParam (key : String) (entryParams : Json) : Option Bool :=
  (entryParams.get (textOf key)).bind asBool

/-- Merge the configuration of the witnesses: anything but an object with fields removes it. -/
def mergeWitness (params : MergedParameters) (entryParams : Json) (entryNumber : Nat) :
    Except WebvhDidError MergedParameters :=
  match entryParams.get (textOf "witness") with
  | none => .ok params
  | some witness =>
    if (witness.asObject.getD []).isEmpty then .ok { params with witness := none }
    else do
      let config ← (library.witnessFromValue witness).mapError fun error =>
        .invalidParameters entryNumber (textOf "invalid witness configuration: " ++ error)
      .ok { params with witness := some config }

/-- Merge the parameters that a first entry may have. -/
def mergeOptionalParams (params : MergedParameters) (entryParams : Json) (isGenesis : Bool) :
    Except WebvhDidError MergedParameters := do
  let portable := (boolParam "portable" entryParams).getD params.portable
  if boolParam "portable" entryParams = some true ∧ isGenesis = false then
    .error (.invalidParameters 1 (textOf "portable can only be set to true in genesis entry"))
  else
    let params := { params with
      nextKeyHashes := (textsParam "nextKeyHashes" entryParams).getD params.nextKeyHashes
      portable := portable
      deactivated := (boolParam "deactivated" entryParams).getD params.deactivated
      ttl := ((entryParams.get (textOf "ttl")).bind asU64).getD params.ttl }
    let params ← mergeWitness library params entryParams 1
    .ok { params with watchers := (textsParam "watchers" entryParams).getD params.watchers }

/-- Merge the parameters of a later entry. -/
def mergeEntryParams (params : MergedParameters) (entryParams : Json) (entryNumber : Nat) :
    Except WebvhDidError MergedParameters := do
  let portable := (boolParam "portable" entryParams).getD params.portable
  if boolParam "portable" entryParams = some true ∧ params.portable = false then
    .error (.invalidParameters entryNumber
      (textOf "portable cannot be changed from false to true after genesis"))
  else
    let params := { params with
      method := (stringField "method" entryParams).getD params.method
      updateKeys := (textsParam "updateKeys" entryParams).getD params.updateKeys
      nextKeyHashes := (textsParam "nextKeyHashes" entryParams).getD params.nextKeyHashes
      portable := portable
      deactivated := (boolParam "deactivated" entryParams).getD params.deactivated
      ttl := ((entryParams.get (textOf "ttl")).bind asU64).getD params.ttl }
    let params ← mergeWitness library params entryParams entryNumber
    .ok { params with watchers := (textsParam "watchers" entryParams).getD params.watchers }

/-! ### One entry -/

/-- The error of a first entry without a parameter. -/
def missingParameter (key : String) : WebvhDidError :=
  .invalidParameters 1 (textOf "missing required '" ++ textOf key ++
    textOf "' parameter in genesis entry")

/-- Check a first entry. -/
def processGenesisEntry (did scid : Text) (entry : LogEntry) (rawEntry : Json)
    (params : MergedParameters) : Except WebvhDidError MergedParameters := do
  let entryParams := entry.parameters
  let method ← (stringField "method" entryParams).elim (.error (missingParameter "method")) .ok
  if startsWith method (textOf "did:webvh:") = false then
    .error (.invalidParameters 1 (textOf "invalid method format: " ++ method))
  else
    let entryScid ← (stringField "scid" entryParams).elim (.error (missingParameter "scid")) .ok
    if entryScid ≠ scid then
      .error (.invalidParameters 1 (textOf "SCID mismatch: DID contains '" ++ scid ++
        textOf "', entry has '" ++ entryScid ++ textOf "'"))
    else
      let updateKeys ← ((entryParams.get (textOf "updateKeys")).bind Json.asArray).elim
        (.error (missingParameter "updateKeys")) .ok
      if updateKeys.isEmpty then
        .error (.invalidParameters 1 (textOf "updateKeys must not be empty in genesis entry"))
      else
        let params := { params with
          method := method
          scid := scid
          updateKeys := updateKeys.filterMap Json.asStr }
        let params ← mergeOptionalParams library params entryParams true
        validateScidFormat scid
        verifyScid library.webvh library.jsonText scid rawEntry
        validateHashAlgorithm library.webvh scid method
        verifyVersionId library.webvh rawEntry 1 1
        verifyAnyProof library.webvh rawEntry entry.proof params.updateKeys 1
        let stateId := stringField "id" entry.state
        if stateId ≠ some did then
          .error (.invalidParameters 1 (textOf "state.id '" ++
            stateId.getD (textOf "<missing>") ++ textOf "' does not match DID '" ++ did ++
            textOf "'"))
        else .ok params

/-- Check a later entry. -/
def processSubsequentEntry (entry : LogEntry) (rawEntry : Json) (entryNumber : Nat)
    (params : MergedParameters) (prevNextKeyHashes : List Text) :
    Except WebvhDidError MergedParameters := do
  let entryParams := entry.parameters
  if (entryParams.get (textOf "scid")).isSome then
    .error (.invalidParameters entryNumber
      (textOf "scid parameter must not appear after genesis entry"))
  else
    let prevUpdateKeys := params.updateKeys
    let params ← mergeEntryParams library params entryParams entryNumber
    verifyVersionId library.webvh rawEntry entryNumber entryNumber
    verifyPrerotation library.webvh params.updateKeys prevNextKeyHashes entryNumber
    let verificationKeys := if prevNextKeyHashes.isEmpty then prevUpdateKeys else params.updateKeys
    verifyAnyProof library.webvh rawEntry entry.proof verificationKeys entryNumber
    .ok params

/-- What is known after the entries so far. -/
structure LogState where
  params : MergedParameters
  prevVersionTime : Option Text
  didIdMatched : Bool

/-- Before the first entry. -/
def LogState.start : LogState where
  params := .default
  prevVersionTime := none
  didIdMatched := false

/-- Check the identifier in the document of a later entry. -/
def checkStateId (did : Text) (entry : LogEntry) (entryNumber : Nat) (params : MergedParameters)
    (didIdMatched : Bool) : Except WebvhDidError Bool :=
  match stringField "id" entry.state with
  | none => .ok didIdMatched
  | some id =>
    if id = did then .ok true
    else if params.portable then .ok didIdMatched
    else .error (.didDocIdMismatch entryNumber did id)

/-- Check the proofs of the witnesses of an entry, when there are witnesses and proofs. -/
def checkWitnesses (witnessProofs : Option (List WitnessProofEntry)) (entry : LogEntry)
    (rawEntry : Json) (entryNumber : Nat) (effectiveWitness : Option WitnessConfig) :
    Except WebvhDidError Unit :=
  match effectiveWitness, witnessProofs with
  | some config, some proofs =>
    match proofs.find? fun proof => proof.versionId = entry.versionId with
    | some proof => verifyWitnessProofs library.webvh rawEntry proof.proof config entryNumber
    | none => .error (.witnessVerificationFailed entryNumber
        (textOf "no witness proof found for version " ++ entry.versionId))
  | some _, none => .ok ()
  | none, some _ => .ok ()
  | none, none => .ok ()

/-- Check that an entry is later than the one before. -/
def checkVersionTime (prevVersionTime : Option Text) (entry : LogEntry) (entryNumber : Nat) :
    Except WebvhDidError Unit :=
  match prevVersionTime with
  | some prevTime =>
    if entry.versionTime ≤ prevTime then .error (.versionTimeNotMonotonic entryNumber) else .ok ()
  | none => .ok ()

/-- Check an entry; `activeEntry` is the entry with defaults in place of null. -/
def checkEntry (did scid : Text) (witnessProofs : Option (List WitnessProofEntry)) (index : Nat)
    (entry activeEntry : LogEntry) (rawEntry : Json) (state : LogState) :
    Except WebvhDidError LogState := do
  let entryNumber := index + 1
  if index = 0 then
    let params ← processGenesisEntry library did scid activeEntry rawEntry state.params
    checkWitnesses library witnessProofs entry rawEntry entryNumber params.witness
    checkVersionTime state.prevVersionTime entry entryNumber
    .ok { params := params, prevVersionTime := some entry.versionTime, didIdMatched := true }
  else
    let params ← processSubsequentEntry library activeEntry rawEntry entryNumber state.params
      state.params.nextKeyHashes
    let didIdMatched ← checkStateId did activeEntry entryNumber params state.didIdMatched
    checkWitnesses library witnessProofs entry rawEntry entryNumber state.params.witness
    checkVersionTime state.prevVersionTime entry entryNumber
    .ok {
      params := params
      prevVersionTime := some entry.versionTime
      didIdMatched := didIdMatched }

/-! ### The whole log -/

/-- How far a log is valid: what is known after the last valid entry, how many entries are
valid, and the error of the entry that is not. -/
structure Progress where
  state : LogState
  valid : Nat
  firstError : Option WebvhDidError

/-- Check entries one after another, the first of which has this index.  The errors of this
function are those that abort. -/
def processEntries (did scid : Text) (witnessProofs : Option (List WitnessProofEntry))
    (body : List Char) (index : Nat) (state : LogState) :
    List LogEntry → Except WebvhDidError Progress
  | [] => .ok { state := state, valid := index, firstError := none }
  | entry :: entries => do
    let rawEntry ← parseRawEntry library body index
    let activeEntry := normalizeNullParameters entry
    validateKnownParameters activeEntry.parameters (index + 1)
    match checkEntry library did scid witnessProofs index entry activeEntry rawEntry state with
    | .ok state => processEntries did scid witnessProofs body (index + 1) state entries
    | .error error =>
      if index = 0 then .error error
      else .ok { state := state, valid := index, firstError := some error }

/-- The entry that is asked for, and its number. -/
def selectEntryByQuery (entries : List LogEntry) (queryParams : QueryParams) :
    Except WebvhDidError (LogEntry × Nat) :=
  match queryParams with
  | { versionId := some vid, .. } =>
    match entries.findIdx? fun entry => entry.versionId = vid with
    | some position =>
      match entries[position]? with
      | some entry => .ok (entry, position + 1)
      | none => .error .emptyLog
    | none => .error (.versionNotFound
        (textOf "no entry with versionId '" ++ vid ++ textOf "'"))
  | { versionId := none, versionTime := some vtime, .. } =>
    match entries.reverse.find? fun entry => entry.versionTime ≤ vtime with
    | some found =>
      match entries.findIdx? fun entry => entry.versionId = found.versionId with
      | some position => .ok (found, position + 1)
      | none => .error .emptyLog
    | none => .error (.versionNotFound
        (textOf "no entry active at time '" ++ vtime ++ textOf "'"))
  | { versionId := none, versionTime := none, versionNumber := some vnum } =>
    if vnum = 0 ∨ vnum > entries.length then
      .error (.versionNotFound (textOf "version number " ++ textOf (toString vnum) ++
        textOf " out of range (1.." ++ textOf (toString entries.length) ++ textOf ")"))
    else
      match entries[vnum - 1]? with
      | some entry => .ok (entry, vnum)
      | none => .error .emptyLog
  | { versionId := none, versionTime := none, versionNumber := none } =>
    match entries.getLast? with
    | some entry => .ok (entry, entries.length)
    | none => .error .emptyLog

/-- Check that a time is not in the future. -/
def checkNotInFuture (now : Int) (entry : LogEntry) (entryNumber : Nat) :
    Except WebvhDidError Unit :=
  match library.parseFromRfc3339 entry.versionTime with
  | some lastTime =>
    if lastTime > now then .error (.versionTimeInFuture entryNumber entry.versionTime) else .ok ()
  | none => .ok ()

/-- The version of a log that an entry is, for the parameters after the valid entries. -/
def resolvedLog (params : MergedParameters) (entryCount : Nat)
    (firstEntry lastValidEntry resolvedEntry : LogEntry) (resolvedNumber : Nat) :
    Except WebvhDidError (ResolvedLog library) := do
  let document ← (library.documentFromValue resolvedEntry.state).mapError fun error =>
    .documentExtractionFailed (textOf "failed to deserialize DID document: " ++ error)
  .ok {
    document := document
    versionId := resolvedEntry.versionId
    versionNumber := resolvedNumber
    versionTime := resolvedEntry.versionTime
    parameters := params
    entryCount := entryCount
    metadata := {
      versionId := resolvedEntry.versionId
      versionTime := resolvedEntry.versionTime
      created := firstEntry.versionTime
      updated := lastValidEntry.versionTime
      scid := params.scid
      portable := params.portable
      deactivated := params.deactivated || params.updateKeys.isEmpty
      ttl := params.ttl
      witness := params.witness
      watchers := params.watchers } }

/-- The entry that is asked for among the valid ones, or the last one when no entry failed and
the identifier is active. -/
def selectEntry (did : Text) (validEntries : List LogEntry) (lastValidEntry : LogEntry)
    (progress : Progress) (queryParams : Option QueryParams) :
    Except WebvhDidError (LogEntry × Nat) :=
  match queryParams with
  | some queryParams => selectEntryByQuery validEntries queryParams
  | none =>
    if progress.state.params.deactivated || progress.state.params.updateKeys.isEmpty then
      .error (.deactivatedDid did)
    else
      match progress.firstError with
      | some error => .error error
      | none => .ok (lastValidEntry, progress.valid)

/-- The result of a log whose entries were checked. -/
def finishLog (did : Text) (entries : List LogEntry) (progress : Progress)
    (queryParams : Option QueryParams) (now : Int) :
    Except WebvhDidError (ResolvedLog library) :=
  match entries.take progress.valid with
  | [] => .error .emptyLog
  | firstEntry :: laterEntries => do
    let validEntries := firstEntry :: laterEntries
    let lastValidEntry := validEntries.getLast (List.cons_ne_nil firstEntry laterEntries)
    checkNotInFuture library now lastValidEntry progress.valid
    if progress.state.params.portable ∧ progress.state.didIdMatched = false then
      .error (.didDocIdMismatch 0 did (textOf "no matching DIDDoc id found in any entry"))
    else do
      let (resolvedEntry, resolvedNumber) ←
        selectEntry did validEntries lastValidEntry progress queryParams
      resolvedLog library progress.state.params entries.length firstEntry lastValidEntry
        resolvedEntry resolvedNumber

/-- Process a log at a time. -/
def processLogFull (did scid : Text) (body : List Char)
    (witnessProofs : Option (List WitnessProofEntry)) (queryParams : Option QueryParams)
    (now : Int) : Except WebvhDidError (ResolvedLog library) := do
  let entries ← parseLogEntries library body
  let progress ← processEntries library did scid witnessProofs body 0 .start entries
  finishLog library did entries progress queryParams now

/-- Process a log for a query. -/
def processLogWithParams (did scid : Text) (body : List Char)
    (witnessProofs : Option (List WitnessProofEntry)) (queryParams : QueryParams) (now : Int) :
    Except WebvhDidError (ResolvedLog library) :=
  processLogFull library did scid body witnessProofs (some queryParams) now

end Atproto.Identity.Webvh
