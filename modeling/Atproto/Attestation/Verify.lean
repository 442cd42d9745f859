import Atproto.Attestation.Cid

/-!
# Verifying the attestations of a record

Every signature of a record is verified by itself: the CID is computed again from the record
and the metadata, which are the signature itself or, for a reference, the proof record that
is fetched.  The CID in a reference is not looked at.
-/

namespace Atproto.Attestation

open Dasl Repo Identity SearchTree

/-- What a verifier asks: the key that a text names and the record at an address. -/
structure Resolvers where
  key : Text → Except String KeyData
  record : Text → Except String Json

variable (lib : Library) (resolvers : Resolvers)

/-- The signatures of a record. -/
def extractSignatures (record : Fields) : Except AttestationError (List Json) :=
  match lookup signaturesField record with
  | some value => okOr .signaturesFieldInvalid value.asArray
  | none => .ok []

/-- The string of a field of a value that is an object with it, and not the empty one. -/
def stringOf (key : Text) (value : Json) : Option Text :=
  ((value.get key).bind Json.asStr).filter fun text => decide (text ≠ Text.empty)

/-- The text of the bytes of a signature. -/
def signatureText (metadata : Json) : Option Text :=
  (((metadata.get signatureField).bind Json.asObject).bind (lookup bytesField)).bind Json.asStr

/-- Verify a reference: the fetched record is the metadata, and its CID is the computed one. -/
def verifyReference (record : AnyInput) (repository : Text) (signature : Json) :
    Except AttestationError Unit := do
  let uri ← okOr (.signatureMissingField uriField) (stringOf uriField signature)
  let metadata ← (resolvers.record uri).mapError (.remoteAttestationFetchFailed uri)
  let computed ← createAttestationCid lib record (.serialize (some metadata)) repository
  let attested ← okOr (.signatureMissingField cidField) (stringOf cidField metadata)
  if lib.cidToString computed ≠ attested then
    .error (.remoteAttestationCidMismatch attested (lib.cidToString computed))
  else .ok ()

/-- Verify a signature in the record: it is the metadata, and signs the computed CID. -/
def verifyInline (record : AnyInput) (repository : Text) (signature : Json) :
    Except AttestationError Unit := do
  let computed ← createAttestationCid lib record (.serialize (some signature)) repository
  let key ← okOr (.signatureMissingField keyField) (stringOf keyField signature)
  let keyData ← (resolvers.key key).mapError (.keyResolutionFailed key)
  let text ← okOr .signatureBytesFormatInvalid (signatureText signature)
  let bytes ← (lib.base64Decode text).mapError .signatureDecodingFailed
  (lib.keys.validate keyData bytes (lib.format.toBytes computed)).mapError
    .signatureValidationFailed

/-- Verify a signature of a record. -/
def verifySignature (record : AnyInput) (repository : Text) (signature : Json) :
    Except AttestationError Unit := do
  let type ← okOr .sigMetadataMissingType (stringOf typeField signature)
  if type = strongRefNsid then verifyReference lib resolvers record repository signature
  else verifyInline lib resolvers record repository signature

/-- Verify the signatures of a record one after another. -/
def verifySignatures (record : AnyInput) (repository : Text) :
    List Json → Except AttestationError Unit
  | [] => .ok ()
  | signature :: signatures => do
    verifySignature lib resolvers record repository signature
    verifySignatures record repository signatures

/-- Verify all signatures of a record.  A record without signatures is accepted. -/
def verifyRecord (record : AnyInput) (repository : Text) : Except AttestationError Unit := do
  let recordObj ← okOr .recordMustBeObject (record.toObject lib)
  let signatures ← extractSignatures recordObj
  verifySignatures lib resolvers record repository signatures

/-! ### When a record is accepted -/

variable {lib resolvers} {record : AnyInput} {repository : Text}

theorem verifySignatures_eq_ok {signatures : List Json} :
  verifySignatures lib resolvers record repository signatures = .ok () ↔
    ∀ signature ∈ signatures, verifySignature lib resolvers record repository signature = .ok ()
  := by
  induction signatures with
  | nil => exact iff_of_true rfl nofun
  | cons signature signatures ih =>
    rw [List.forall_mem_cons, ← ih]
    constructor
    · intro h
      obtain ⟨_, hfirst, hrest⟩ := Logic.bind_eq_ok.mp h
      exact ⟨hfirst, hrest⟩
    · rintro ⟨hfirst, hrest⟩
      exact Logic.bind_eq_ok.mpr ⟨(), hfirst, hrest⟩

theorem verifyRecord_eq_ok :
  verifyRecord lib resolvers record repository = .ok () ↔
    ∃ recordObj signatures, record.toObject lib = some recordObj ∧
      extractSignatures recordObj = .ok signatures ∧
      ∀ signature ∈ signatures, verifySignature lib resolvers record repository signature = .ok ()
  := by
  constructor
  · intro h
    obtain ⟨recordObj, hrecord, h⟩ := Logic.bind_eq_ok.mp h
    obtain ⟨signatures, hsignatures, h⟩ := Logic.bind_eq_ok.mp h
    exact ⟨recordObj, signatures, okOr_eq_ok.mp hrecord, hsignatures, verifySignatures_eq_ok.mp h⟩
  · rintro ⟨recordObj, signatures, hrecord, hsignatures, h⟩
    apply Logic.bind_eq_ok.mpr ⟨recordObj, okOr_eq_ok.mpr hrecord, _⟩
    exact Logic.bind_eq_ok.mpr ⟨signatures, hsignatures, verifySignatures_eq_ok.mpr h⟩

/-- A record attests another: its CID is that of the attestation it is the metadata of. -/
def Attests (lib : Library) (repository : Text) (record : AnyInput) (proof : Json) : Prop :=
  ∃ cid, createAttestationCid lib record (.serialize (some proof)) repository = .ok cid ∧
    stringOf cidField proof = some (lib.cidToString cid)

theorem verifyReference_eq_ok {signature : Json} :
  verifyReference lib resolvers record repository signature = .ok () ↔
    ∃ uri proof, stringOf uriField signature = some uri ∧ resolvers.record uri = .ok proof ∧
      Attests lib repository record proof
  := by
  constructor
  · intro h
    obtain ⟨uri, huri, h⟩ := Logic.bind_eq_ok.mp h
    obtain ⟨proof, hproof, h⟩ := Logic.bind_eq_ok.mp h
    obtain ⟨cid, hcid, h⟩ := Logic.bind_eq_ok.mp h
    obtain ⟨attested, hattested, h⟩ := Logic.bind_eq_ok.mp h
    refine ⟨uri, proof, okOr_eq_ok.mp huri, Logic.mapError_eq_ok.mp hproof, cid, hcid, ?_⟩
    have heq : lib.cidToString cid = attested := by
      by_contra hne
      rw [if_pos hne] at h
      cases h
    rw [heq]
    exact okOr_eq_ok.mp hattested
  · rintro ⟨uri, proof, huri, hproof, cid, hcid, hattested⟩
    apply Logic.bind_eq_ok.mpr ⟨uri, okOr_eq_ok.mpr huri, _⟩
    apply Logic.bind_eq_ok.mpr ⟨proof, Logic.mapError_eq_ok.mpr hproof, _⟩
    apply Logic.bind_eq_ok.mpr ⟨cid, hcid, _⟩
    apply Logic.bind_eq_ok.mpr ⟨_, okOr_eq_ok.mpr hattested, _⟩
    rw [if_neg (not_not.mpr rfl)]

theorem verifyInline_eq_ok {signature : Json} :
  verifyInline lib resolvers record repository signature = .ok () ↔
    ∃ cid key keyData text bytes,
      createAttestationCid lib record (.serialize (some signature)) repository = .ok cid ∧
      stringOf keyField signature = some key ∧ resolvers.key key = .ok keyData ∧
      signatureText signature = some text ∧ lib.base64Decode text = .ok bytes ∧
      lib.keys.validate keyData bytes (lib.format.toBytes cid) = .ok ()
  := by
  constructor
  · intro h
    obtain ⟨cid, hcid, h⟩ := Logic.bind_eq_ok.mp h
    obtain ⟨key, hkey, h⟩ := Logic.bind_eq_ok.mp h
    obtain ⟨keyData, hkeyData, h⟩ := Logic.bind_eq_ok.mp h
    obtain ⟨text, htext, h⟩ := Logic.bind_eq_ok.mp h
    obtain ⟨bytes, hbytes, h⟩ := Logic.bind_eq_ok.mp h
    exact ⟨cid, key, keyData, text, bytes, hcid, okOr_eq_ok.mp hkey, Logic.mapError_eq_ok.mp hkeyData,
      okOr_eq_ok.mp htext, Logic.mapError_eq_ok.mp hbytes, Logic.mapError_eq_ok.mp h⟩
  · rintro ⟨cid, key, keyData, text, bytes, hcid, hkey, hkeyData, htext, hbytes, hvalid⟩
    apply Logic.bind_eq_ok.mpr ⟨cid, hcid, _⟩
    apply Logic.bind_eq_ok.mpr ⟨key, okOr_eq_ok.mpr hkey, _⟩
    apply Logic.bind_eq_ok.mpr ⟨keyData, Logic.mapError_eq_ok.mpr hkeyData, _⟩
    apply Logic.bind_eq_ok.mpr ⟨text, okOr_eq_ok.mpr htext, _⟩
    exact Logic.bind_eq_ok.mpr ⟨bytes, Logic.mapError_eq_ok.mpr hbytes, Logic.mapError_eq_ok.mpr hvalid⟩

theorem verifySignature_eq {signature : Json} {type : Text}
    (htype : stringOf typeField signature = some type) :
  verifySignature lib resolvers record repository signature =
    if type = strongRefNsid then verifyReference lib resolvers record repository signature
    else verifyInline lib resolvers record repository signature
  := by
  rw [verifySignature, htype]
  rfl

/-- A verified signature has a type. -/
theorem type_of_verifySignature {signature : Json}
    (h : verifySignature lib resolvers record repository signature = .ok ()) :
  ∃ type, stringOf typeField signature = some type
  := by
  obtain ⟨type, htype, -⟩ := Logic.bind_eq_ok.mp h
  exact ⟨type, okOr_eq_ok.mp htype⟩

/-! ### Signatures do not matter to signatures -/

/-- Two records are signed alike: they differ at most in their signatures. -/
structure SignedAlike (lib : Library) (a b : AnyInput) : Prop where
  isSome : (a.toObject lib).isSome = (b.toObject lib).isSome
  fields : ∀ x y, a.toObject lib = some x → b.toObject lib = some y →
    erase signaturesField x = erase signaturesField y

theorem SignedAlike.symm {a b : AnyInput} (h : SignedAlike lib a b) :
  SignedAlike lib b a
  where
  isSome := h.isSome.symm
  fields x y hx hy := (h.fields y x hy hx).symm

theorem stringField_eq_of_erase {x y : Fields}
    (h : erase signaturesField x = erase signaturesField y) :
  stringField typeField x = stringField typeField y
  := by
  have hlookup : lookup typeField x = lookup typeField y := by
    have hkey := congrArg (lookup typeField) h
    rwa [lookup_erase, lookup_erase, if_neg (by decide), if_neg (by decide)] at hkey
  rw [stringField, stringField, hlookup]

theorem SignedAlike.createAttestationCid {a b : AnyInput} (h : SignedAlike lib a b)
    (metadata : AnyInput) (repository : Text) :
  createAttestationCid lib a metadata repository = createAttestationCid lib b metadata repository
  := by
  have hsome := h.isSome
  rw [Attestation.createAttestationCid, Attestation.createAttestationCid]
  cases hx : a.toObject lib with
  | none =>
    cases hy : b.toObject lib with
    | none => rfl
    | some y =>
      rw [hx, hy] at hsome
      cases hsome
  | some x =>
    cases hy : b.toObject lib with
    | none =>
      rw [hx, hy] at hsome
      cases hsome
    | some y =>
      have herase := h.fields x y hx hy
      have hsigned : ∀ metadataObj, signedObject x metadataObj repository =
          signedObject y metadataObj repository := by
        intro metadataObj
        rw [signedObject, signedObject, herase]
      simp only [okOr, stringField_eq_of_erase herase, hsigned, Bind.bind, Except.bind]

theorem SignedAlike.verifySignature {a b : AnyInput} (h : SignedAlike lib a b) (signature : Json) :
  verifySignature lib resolvers a repository signature =
    verifySignature lib resolvers b repository signature
  := by
  simp only [Attestation.verifySignature, verifyReference, verifyInline, h.createAttestationCid]

/-- A record with other signatures. -/
def withSignatures (record : Fields) (signatures : List Json) : AnyInput :=
  .serialize (some (.object (insert signaturesField (.array signatures) record)))

theorem erase_insert (key : Text) (value : Json) (fields : Fields) :
  erase key (insert key value fields) = erase key fields
  := by
  obtain ⟨hbelow, habove⟩ := agreeOff_insert key value fields
  rw [erase, erase, ← hbelow, ← habove]

theorem signedAlike_withSignatures {record : AnyInput} {recordObj : Fields}
    (h : record.toObject lib = some recordObj) (signatures : List Json) :
  SignedAlike lib (withSignatures recordObj signatures) record
  where
  isSome := by
    rw [h]
    rfl
  fields x y hx hy := by
    rw [h] at hy
    cases hy
    cases hx
    exact erase_insert _ _ _

theorem extractSignatures_withSignatures (record : Fields) (signatures : List Json) :
  extractSignatures (insert signaturesField (.array signatures) record) = .ok signatures
  := by
  rw [extractSignatures, lookup_insert, if_pos rfl]
  rfl

/-- A record with other signatures is accepted when each of them is verified. -/
theorem verifyRecord_withSignatures {record : AnyInput} {recordObj : Fields}
    (h : record.toObject lib = some recordObj) {signatures : List Json} :
  verifyRecord lib resolvers (withSignatures recordObj signatures) repository = .ok () ↔
    ∀ signature ∈ signatures, verifySignature lib resolvers record repository signature = .ok ()
  := by
  rw [verifyRecord_eq_ok]
  constructor
  · rintro ⟨fields, verified, hfields, hverified, hall⟩
    cases hfields
    rw [extractSignatures_withSignatures] at hverified
    cases hverified
    intro signature hsignature
    rw [← (signedAlike_withSignatures h signatures).verifySignature]
    exact hall signature hsignature
  · intro hall
    refine ⟨_, signatures, rfl, extractSignatures_withSignatures _ _, ?_⟩
    intro signature hsignature
    rw [(signedAlike_withSignatures h signatures).verifySignature]
    exact hall signature hsignature

end Atproto.Attestation
