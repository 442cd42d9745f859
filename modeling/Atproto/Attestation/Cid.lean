import Atproto.Identity.Key
import Atproto.Json.Encode

/-!
# The CID of an attestation

An attestation signs the CID of an object made from a record, metadata and the DID of a
repository: the record without its signatures, with the metadata under `$sig`, which are
given the repository and lose their own CID and signature.  Without collisions, the CID binds
the repository and every field that is neither removed nor overwritten.
-/

namespace Atproto.Attestation

open Dasl Repo Identity SearchTree

/-- The fields of an object. -/
abbrev Fields : Type := List (Text × Json)

def typeField : Text := textOf "$type"
def sigField : Text := textOf "$sig"
def bytesField : Text := textOf "$bytes"
def signaturesField : Text := textOf "signatures"
def cidField : Text := textOf "cid"
def signatureField : Text := textOf "signature"
def repositoryField : Text := textOf "repository"
def keyField : Text := textOf "key"
def uriField : Text := textOf "uri"

/-- The type of a reference to a proof record. -/
def strongRefNsid : Text := textOf "com.atproto.repo.strongRef"

/-- Errors of attestations.  What a library says is kept as a string. -/
inductive AttestationError where
  | recordMustBeObject
  | recordMissingType
  | metadataMustBeObject
  | metadataMissingSigType
  | metadataMissingType
  | signaturesFieldInvalid
  | signatureMissingField (field : Text)
  | signatureBytesFormatInvalid
  | recordSerializationFailed (error : EncodeError)
  | sigMetadataMissingType
  | keyResolutionFailed (key : Text) (error : String)
  | unsupportedKeyType (keyType : KeyType)
  | signatureDecodingFailed (error : String)
  | signatureLengthInvalid (expected actual : Nat)
  | signatureValidationFailed (error : KeyError)
  | signatureCreationFailed (error : KeyError)
  | remoteAttestationFetchFailed (uri : Text) (error : String)
  | remoteAttestationCidMismatch (expected actual : Text)

/-- What is given: SHA-256, the forms of CIDs, JSON texts and base 64, the libraries of the
curves, and the normal forms of signatures, which not all bytes have. -/
structure Library where
  sha256 : Bytes → Bytes
  format : CidFormat
  cidToString : Cid → Text
  jsonFromStr : Text → Option Json
  base64Encode : Bytes → Text
  base64Decode : Text → Except String Bytes
  keys : KeyLibrary
  sign : KeyData → Bytes → Except KeyError Bytes
  normalizeP256 : Bytes → Option Bytes
  normalizeK256 : Bytes → Option Bytes

/-- A record or metadata: a JSON text, or what serde makes of a value. -/
inductive AnyInput where
  | string (text : Text)
  | serialize (value : Option Json)

variable (lib : Library)

/-- The fields of an input that is an object. -/
def AnyInput.toObject : AnyInput → Option Fields
  | .string text => (lib.jsonFromStr text).bind Json.asObject
  | .serialize value => value.bind Json.asObject

/-- An input is a JSON value, whose objects are maps. -/
def AnyInput.Ordered (input : AnyInput) : Prop :=
  ∀ fields, input.toObject lib = some fields → (Json.object fields).Ordered

/-- A value or an error in its place. -/
def okOr {ε α : Type} (error : ε) : Option α → Except ε α
  | some a => .ok a
  | none => .error error

/-- The string of a field that has one, and not the empty one. -/
def stringField (key : Text) (fields : Fields) : Option Text :=
  ((lookup key fields).bind Json.asStr).filter fun text => decide (text ≠ Text.empty)

/-- The CID of a JSON value encoded as it is. -/
def createDagborCid (json : Json) : Except AttestationError Cid :=
  match Ipld.toVec lib.format json.asIpld with
  | .ok bytes => .ok (computeCid lib.sha256 bytes)
  | .error error => .error (.recordSerializationFailed error)

/-- The metadata that are signed. -/
def signedMetadata (metadata : Fields) (repository : Text) : Fields :=
  insert repositoryField (.string repository) (erase signatureField (erase cidField metadata))

/-- The object that is signed. -/
def signedObject (record metadata : Fields) (repository : Text) : Fields :=
  insert sigField (.object (signedMetadata metadata repository)) (erase signaturesField record)

/-- The CID that an attestation signs. -/
def createAttestationCid (record metadata : AnyInput) (repository : Text) :
    Except AttestationError Cid := do
  let recordObj ← okOr .recordMustBeObject (record.toObject lib)
  let _ ← okOr .recordMissingType (stringField typeField recordObj)
  let metadataObj ← okOr .metadataMustBeObject (metadata.toObject lib)
  let _ ← okOr .metadataMissingSigType (stringField typeField metadataObj)
  createDagborCid lib (.object (signedObject recordObj metadataObj repository))

/-! ### When it is created -/

variable {lib}

theorem okOr_eq_ok {ε α : Type} {error : ε} {x : Option α} {a : α} :
  okOr error x = .ok a ↔ x = some a
  := by
  cases x with
  | none => exact ⟨nofun, nofun⟩
  | some b => exact Except.ok.injEq b a ▸ (Option.some_inj (a := b) (b := a)).symm

theorem createDagborCid_eq_ok {json : Json} {cid : Cid} :
  createDagborCid lib json = .ok cid ↔
    ∃ bytes, Ipld.toVec lib.format json.asIpld = .ok bytes ∧ cid = computeCid lib.sha256 bytes
  := by
  rw [createDagborCid]
  cases Ipld.toVec lib.format json.asIpld with
  | error e => exact ⟨nofun, nofun⟩
  | ok bytes =>
    constructor
    · intro h
      exact ⟨bytes, rfl, (Except.ok.inj h).symm⟩
    · rintro ⟨other, hother, rfl⟩
      rw [Except.ok.inj hother]

theorem createAttestationCid_eq_ok {record metadata : AnyInput} {repository : Text} {cid : Cid} :
  createAttestationCid lib record metadata repository = .ok cid ↔
    ∃ recordObj metadataObj, record.toObject lib = some recordObj ∧
      metadata.toObject lib = some metadataObj ∧
      (∃ type, stringField typeField recordObj = some type) ∧
      (∃ type, stringField typeField metadataObj = some type) ∧
      createDagborCid lib (.object (signedObject recordObj metadataObj repository)) = .ok cid
  := by
  constructor
  · intro h
    obtain ⟨recordObj, hrecord, h⟩ := Logic.bind_eq_ok.mp h
    obtain ⟨type, htype, h⟩ := Logic.bind_eq_ok.mp h
    obtain ⟨metadataObj, hmetadata, h⟩ := Logic.bind_eq_ok.mp h
    obtain ⟨type', htype', h⟩ := Logic.bind_eq_ok.mp h
    exact ⟨recordObj, metadataObj, okOr_eq_ok.mp hrecord, okOr_eq_ok.mp hmetadata,
      ⟨type, okOr_eq_ok.mp htype⟩, ⟨type', okOr_eq_ok.mp htype'⟩, h⟩
  · rintro ⟨recordObj, metadataObj, hrecord, hmetadata, ⟨type, htype⟩, ⟨type', htype'⟩, hcid⟩
    apply Logic.bind_eq_ok.mpr ⟨recordObj, okOr_eq_ok.mpr hrecord, _⟩
    apply Logic.bind_eq_ok.mpr ⟨type, okOr_eq_ok.mpr htype, _⟩
    apply Logic.bind_eq_ok.mpr ⟨metadataObj, okOr_eq_ok.mpr hmetadata, _⟩
    exact Logic.bind_eq_ok.mpr ⟨type', okOr_eq_ok.mpr htype', hcid⟩

/-! ### What is bound -/

/-- Two objects have the same fields, apart from those with the given names. -/
def SameOff (names : List Text) (a b : Fields) : Prop :=
  ∀ key, key ∉ names → lookup key a = lookup key b

theorem lookup_signedMetadata (metadata : Fields) (repository key : Text) :
  lookup key (signedMetadata metadata repository) =
    if key = repositoryField then some (.string repository)
    else if key = signatureField then none
    else if key = cidField then none
    else lookup key metadata
  := by
  rw [signedMetadata, lookup_insert, lookup_erase, lookup_erase]

theorem lookup_signedObject (record metadata : Fields) (repository key : Text) :
  lookup key (signedObject record metadata repository) =
    if key = sigField then some (.object (signedMetadata metadata repository))
    else if key = signaturesField then none
    else lookup key record
  := by
  rw [signedObject, lookup_insert, lookup_erase]

theorem signedMetadata_ordered {metadata : Fields} (h : (Json.object metadata).Ordered)
    (repository : Text) :
  (Json.object (signedMetadata metadata repository)).Ordered
  := ((h.erase _).erase _).insert _ (.string repository)

theorem signedObject_ordered {record metadata : Fields} (hrecord : (Json.object record).Ordered)
    (hmetadata : (Json.object metadata).Ordered) (repository : Text) :
  (Json.object (signedObject record metadata repository)).Ordered
  := (hrecord.erase _).insert _ (signedMetadata_ordered hmetadata repository)

/-- Without collisions, JSON values with the same CID are the same. -/
theorem eq_of_createDagborCid (hformat : lib.format.Lawful) (hsha : Function.Injective lib.sha256)
    {a b : Json} (ha : a.Ordered) (hb : b.Ordered) {cid : Cid}
    (hcid : createDagborCid lib a = .ok cid) (hcid' : createDagborCid lib b = .ok cid) :
  a = b
  := by
  obtain ⟨bytes, hbytes, rfl⟩ := createDagborCid_eq_ok.mp hcid
  obtain ⟨bytes', hbytes', heq⟩ := createDagborCid_eq_ok.mp hcid'
  rw [computeCid_injective hsha heq] at hbytes
  exact ha.eq_of_toVec hformat hb hbytes hbytes'

/-- Equal objects are signed exactly for equal repositories, records that differ at most in
their signatures and in `$sig`, and metadata that differ at most in the CID, the signature
and the repository. -/
theorem signedObject_eq_iff {r₁ r₂ m₁ m₂ : Fields} {d₁ d₂ : Text}
    (hr₁ : (Json.object r₁).Ordered) (hr₂ : (Json.object r₂).Ordered)
    (hm₁ : (Json.object m₁).Ordered) (hm₂ : (Json.object m₂).Ordered) :
  signedObject r₁ m₁ d₁ = signedObject r₂ m₂ d₂ ↔
    d₁ = d₂ ∧ SameOff [sigField, signaturesField] r₁ r₂ ∧
      SameOff [repositoryField, signatureField, cidField] m₁ m₂
  := by
  have hsorted : ∀ {fields : Fields}, (Json.object fields).Ordered → Sorted fields := by
    intro fields h
    cases h with
    | object hsorted hvalues => exact hsorted
  constructor
  · intro h
    have hlookup : ∀ key, lookup key (signedObject r₁ m₁ d₁) = lookup key (signedObject r₂ m₂ d₂) :=
      fun key => congrArg (lookup key) h
    have hmetadata : signedMetadata m₁ d₁ = signedMetadata m₂ d₂ := by
      have hsig := hlookup sigField
      rw [lookup_signedObject, lookup_signedObject, if_pos rfl, if_pos rfl] at hsig
      exact Json.object.inj (Option.some.inj hsig)
    refine ⟨?_, ?_, ?_⟩
    · have hrepository := congrArg (lookup repositoryField) hmetadata
      rw [lookup_signedMetadata, lookup_signedMetadata, if_pos rfl, if_pos rfl] at hrepository
      exact Json.string.inj (Option.some.inj hrepository)
    · intro key hkey
      simp only [List.mem_cons, List.not_mem_nil, or_false, not_or] at hkey
      have hkeys := hlookup key
      rwa [lookup_signedObject, lookup_signedObject, if_neg hkey.1, if_neg hkey.2, if_neg hkey.1,
        if_neg hkey.2] at hkeys
    · intro key hkey
      simp only [List.mem_cons, List.not_mem_nil, or_false, not_or] at hkey
      have hkeys := congrArg (lookup key) hmetadata
      rwa [lookup_signedMetadata, lookup_signedMetadata, if_neg hkey.1, if_neg hkey.2.1,
        if_neg hkey.2.2, if_neg hkey.1, if_neg hkey.2.1, if_neg hkey.2.2] at hkeys
  · rintro ⟨rfl, hrecord, hmetadata⟩
    have hsame : signedMetadata m₁ d₁ = signedMetadata m₂ d₁ := by
      apply (hsorted (signedMetadata_ordered hm₁ d₁)).ext (hsorted (signedMetadata_ordered hm₂ d₁))
      intro key
      rw [lookup_signedMetadata, lookup_signedMetadata]
      split_ifs with h₁ h₂ h₃
      · rfl
      · rfl
      · rfl
      · exact hmetadata key (by simp [h₁, h₂, h₃])
    apply (hsorted (signedObject_ordered hr₁ hm₁ d₁)).ext (hsorted (signedObject_ordered hr₂ hm₂ d₁))
    intro key
    rw [lookup_signedObject, lookup_signedObject, hsame]
    split_ifs with h₁ h₂
    · rfl
    · rfl
    · exact hrecord key (by simp [h₁, h₂])

end Atproto.Attestation
