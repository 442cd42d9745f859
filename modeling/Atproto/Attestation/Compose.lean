import Atproto.Attestation.Binding
import Atproto.Attestation.Create

/-!
# Attestations compose

Every call that adds an attestation appends one signature to the record, which is verified for
the repository and for no other.  The signatures a record had before are not looked at, so a
record is accepted after any sequence of calls exactly when it was accepted before.
-/

namespace Atproto.Attestation

open Dasl Repo Identity SearchTree

/-- What is relied on: no collisions, texts and bytes that are read back, signatures that are
accepted under the key that made them or its public half, and for one content only. -/
structure Library.Ideal (lib : Library) : Prop where
  format : lib.format.Lawful
  sha256 : Function.Injective lib.sha256
  cidToString : Function.Injective lib.cidToString
  cid_ne_empty : ∀ cid, lib.cidToString cid ≠ Text.empty
  base64 : ∀ data, lib.base64Decode (lib.base64Encode data) = .ok data
  signed : ∀ key keyData content raw signature, keyData = key ∨ toPublic lib.keys key = .ok keyData →
    lib.sign key content = .ok raw → normalizeSignature lib raw key.keyType = .ok signature →
    lib.keys.validate keyData signature content = .ok ()
  unforgeable : ∀ keyData signature content content',
    lib.keys.validate keyData signature content = .ok () →
    lib.keys.validate keyData signature content' = .ok () → content = content'

variable (lib : Library) (resolvers : Resolvers) (repository : Text)

/-- The metadata of an attestation, which are no reference. -/
structure IsMetadata (metadata : AnyInput) : Prop where
  ordered : metadata.Ordered lib
  type : ∀ fields, metadata.toObject lib = some fields →
    stringField typeField fields ≠ some strongRefNsid

/-- A call that succeeds.  The key that the metadata of a new signature name is resolved to the
signing key or its public half, and proof records are fetched unchanged at their addresses. -/
inductive Call : Json → Json → Prop where
  | createInline {record result : Json} {metadata : AnyInput} {key keyData : KeyData}
    {fields : Fields} {name : Text} (hmetadata : IsMetadata lib metadata)
    (hok : createInlineAttestation lib (.serialize (some record)) metadata repository key =
      .ok result)
    (hfields : metadata.toObject lib = some fields)
    (hname : stringField keyField fields = some name) (hkey : resolvers.key name = .ok keyData)
    (hhalf : keyData = key ∨ toPublic lib.keys key = .ok keyData) : Call record result
  | createRemote {record result proof : Json} {metadata : AnyInput}
    {attestationRepository recordKey uri : Text} (hmetadata : IsMetadata lib metadata)
    (hok : createRemoteAttestation lib (.serialize (some record)) metadata repository
      attestationRepository recordKey = .ok (result, uri, proof))
    (hfetch : resolvers.record uri = .ok proof) : Call record result
  | appendInline {record result : Json} {attestation : AnyInput}
    (hmetadata : IsMetadata lib attestation)
    (hok : appendInlineAttestation lib resolvers (.serialize (some record)) attestation repository =
      .ok result) : Call record result
  | appendRemote {record result : Json} {metadata : AnyInput} {fields : Fields} {uri : Text}
    (hmetadata : IsMetadata lib metadata)
    (hok : appendRemoteAttestation lib (.serialize (some record)) metadata repository uri =
      .ok result)
    (hfields : metadata.toObject lib = some fields) (huri : uri ≠ Text.empty)
    (hfetch : resolvers.record uri = .ok (.object fields)) : Call record result

variable {lib resolvers repository}

/-! ### One repository -/

/-- A JSON value as an input. -/
def inputOfJson (json : Json) : AnyInput := .serialize (some json)

theorem inputOfJson_ordered {json : Json} (h : json.Ordered) :
  (inputOfJson json).Ordered lib
  := by
  intro fields hfields
  rw [Json.asObject_eq_some.mp hfields] at h
  exact h

/-- Attestations of one record with the same metadata and CID are for one repository. -/
theorem repository_of_cid (hlib : lib.Ideal) {record metadata : AnyInput} {other : Text} {cid : Cid}
    (hrecord : record.Ordered lib) (hmetadata : metadata.Ordered lib)
    (h : createAttestationCid lib record metadata repository = .ok cid)
    (h' : createAttestationCid lib record metadata other = .ok cid) :
  repository = other
  := by
  obtain ⟨R, M, hR, hM, -⟩ := createAttestationCid_eq_ok.mp h
  exact (attestationCid_binds hlib.format hlib.sha256 hrecord hrecord hmetadata hmetadata hR hR
    hM hM h h').1

/-- A signature is verified for one repository only. -/
theorem verifySignature_repository (hlib : lib.Ideal) {record : AnyInput} {signature : Json}
    {other : Text} (hrecord : record.Ordered lib) (hsignature : signature.Ordered)
    (hfetched : stringOf typeField signature = some strongRefNsid → ∀ uri proof,
      stringOf uriField signature = some uri → resolvers.record uri = .ok proof → proof.Ordered)
    (h : verifySignature lib resolvers record repository signature = .ok ())
    (h' : verifySignature lib resolvers record other signature = .ok ()) :
  repository = other
  := by
  obtain ⟨type, htype⟩ := type_of_verifySignature h
  rw [verifySignature_eq htype] at h h'
  by_cases href : type = strongRefNsid
  · rw [if_pos href] at h h'
    rw [href] at htype
    obtain ⟨uri, proof, huri, hproof, cid, hcid, hattested⟩ := verifyReference_eq_ok.mp h
    obtain ⟨uri', proof', huri', hproof', cid', hcid', hattested'⟩ := verifyReference_eq_ok.mp h'
    cases huri.symm.trans huri'
    cases hproof.symm.trans hproof'
    cases hlib.cidToString (Option.some.inj (hattested.symm.trans hattested'))
    apply repository_of_cid hlib hrecord _ hcid hcid'
    exact inputOfJson_ordered (hfetched htype uri proof huri hproof)
  · rw [if_neg href] at h h'
    obtain ⟨cid, key, keyData, text, bytes, hcid, hkey, hkeyData, htext, hbytes, hvalid⟩ :=
      verifyInline_eq_ok.mp h
    obtain ⟨cid', key', keyData', text', bytes', hcid', hkey', hkeyData', htext', hbytes', hvalid'⟩ :=
      verifyInline_eq_ok.mp h'
    cases hkey.symm.trans hkey'
    cases hkeyData.symm.trans hkeyData'
    cases htext.symm.trans htext'
    cases hbytes.symm.trans hbytes'
    cases hlib.format.injective (hlib.unforgeable _ _ _ _ hvalid hvalid')
    exact repository_of_cid hlib hrecord (inputOfJson_ordered hsignature) hcid hcid'

/-! ### Metadata in their place -/

/-- Metadata with other values at what is removed or overwritten have the same CID. -/
theorem createAttestationCid_congr {record metadata : AnyInput} {fields fields' : Fields}
    {cid : Cid} (hrecord : record.Ordered lib) (hmetadata : metadata.toObject lib = some fields)
    (hordered : (Json.object fields).Ordered) (hordered' : (Json.object fields').Ordered)
    (hsame : SameOff [repositoryField, signatureField, cidField] fields fields')
    (h : createAttestationCid lib record metadata repository = .ok cid) :
  createAttestationCid lib record (inputOfJson (.object fields')) repository = .ok cid
  := by
  obtain ⟨R, M, hR, hM, htype, ⟨type, htype'⟩, hcid⟩ := createAttestationCid_eq_ok.mp h
  cases hmetadata.symm.trans hM
  apply createAttestationCid_eq_ok.mpr
  refine ⟨R, fields', hR, rfl, htype, ⟨type, ?_⟩, ?_⟩
  · rw [stringField, ← hsame typeField (by decide)]
    exact htype'
  · have hsigned : signedObject R fields' repository = signedObject R fields repository :=
      (signedObject_eq_iff (hrecord R hR) (hrecord R hR) hordered' hordered).mpr
        ⟨rfl, fun _ _ => rfl, fun key hkey => (hsame key hkey).symm⟩
    rw [hsigned]
    exact hcid

theorem stringOf_object (key : Text) (fields : Fields) :
  stringOf key (.object fields) = stringField key fields
  := rfl

theorem stringField_insert {key name : Text} (hne : name ≠ key) (value : Json) (fields : Fields) :
  stringField name (insert key value fields) = stringField name fields
  := by
  rw [stringField, lookup_insert, if_neg hne, stringField]

theorem stringField_insert_self {key text : Text} (hne : text ≠ Text.empty) (fields : Fields) :
  stringField key (insert key (.string text) fields) = some text
  := by
  rw [stringField, lookup_insert, if_pos rfl]
  exact Option.filter_some.trans (if_pos (decide_eq_true hne))

theorem sameOff_insert {names : List Text} {key : Text} (hkey : key ∈ names) (value : Json)
    {a b : Fields} (h : SameOff names a b) :
  SameOff names a (insert key value b)
  := by
  intro name hname
  have hne : name ≠ key := by
    rintro rfl
    exact hname hkey
  rw [lookup_insert, if_neg hne]
  exact h name hname

theorem inlineAttestation_ordered {fields : Fields} (h : (Json.object fields).Ordered) (cid : Cid)
    (signature : Bytes) :
  (Json.object (inlineAttestation lib fields cid signature)).Ordered
  := by
  apply (h.insert _ (.string _)).insert
  exact .object (List.pairwise_singleton _ _) (List.forall_mem_singleton.mpr (.string _))

/-- Metadata that a CID was created with have a type. -/
theorem type_of_createAttestationCid {record metadata : AnyInput} {fields : Fields} {cid : Cid}
    (h : createAttestationCid lib record metadata repository = .ok cid)
    (hfields : metadata.toObject lib = some fields) :
  ∃ type, stringField typeField fields = some type
  := by
  obtain ⟨R, M, -, hM, -, htype, -⟩ := createAttestationCid_eq_ok.mp h
  cases hfields.symm.trans hM
  exact htype

/-! ### What a call does -/

/-- A record with one signature more. -/
def Appends (record result signature : Json) : Prop :=
  ∃ fields signatures, record = .object fields ∧ extractSignatures fields = .ok signatures ∧
    result = .object (insert signaturesField (.array (signatures ++ [signature])) fields)

/-- A signature that is verified for the repository and for no other. -/
structure Binds (lib : Library) (resolvers : Resolvers) (repository : Text) (record : AnyInput)
    (signature : Json) : Prop where
  ordered : signature.Ordered
  verified : verifySignature lib resolvers record repository signature = .ok ()
  refused : ∀ other, other ≠ repository →
    verifySignature lib resolvers record other signature ≠ .ok ()

theorem appends_of_appendSignatureToRecord {record : Json} {fields : Fields}
    {signature result : Json} (hfields : (inputOfJson record).toObject lib = some fields)
    (h : appendSignatureToRecord fields signature = .ok result) :
  Appends record result signature
  := by
  obtain ⟨signatures, hsignatures, hresult⟩ := Logic.bind_eq_ok.mp h
  cases hresult
  exact ⟨fields, signatures, Json.asObject_eq_some.mp hfields, hsignatures, rfl⟩

/-- A verified signature binds. -/
theorem binds_of_verified (hlib : lib.Ideal) {record : AnyInput} {signature : Json}
    (hrecord : record.Ordered lib) (hsignature : signature.Ordered)
    (hfetched : stringOf typeField signature = some strongRefNsid → ∀ uri proof,
      stringOf uriField signature = some uri → resolvers.record uri = .ok proof → proof.Ordered)
    (h : verifySignature lib resolvers record repository signature = .ok ()) :
  Binds lib resolvers repository record signature
  where
  ordered := hsignature
  verified := h
  refused _ hother h' :=
    hother (verifySignature_repository hlib hrecord hsignature hfetched h h').symm

/-- A verified signature in the record binds. -/
theorem binds_inline (hlib : lib.Ideal) {record : AnyInput} {fields : Fields}
    (hrecord : record.Ordered lib) (hordered : (Json.object fields).Ordered) {type : Text}
    (htype : stringField typeField fields = some type) (hne : type ≠ strongRefNsid)
    (h : verifyInline lib resolvers record repository (.object fields) = .ok ()) :
  Binds lib resolvers repository record (.object fields)
  := by
  have htypeOf : stringOf typeField (.object fields) = some type := htype
  apply binds_of_verified hlib hrecord hordered
  · intro href
    cases htypeOf.symm.trans href
    exact absurd rfl hne
  · rw [verifySignature_eq htypeOf, if_neg hne]
    exact h

/-- The fields of a reference to a proof record. -/
theorem stringOf_strongRef {uri : Text} (huri : uri ≠ Text.empty) (cid : Cid) :
  stringOf typeField (strongRef lib uri cid) = some strongRefNsid ∧
    stringOf uriField (strongRef lib uri cid) = some uri
  := by
  constructor
  · rfl
  · have hget : ((strongRef lib uri cid).get uriField).bind Json.asStr = some uri := rfl
    rw [stringOf, hget]
    exact Option.filter_some.trans (if_pos (decide_eq_true huri))

theorem strongRef_ordered (uri : Text) (cid : Cid) :
  (strongRef lib uri cid).Ordered
  := by
  apply Json.Ordered.object
  · have htype : typeField < cidField ∧ typeField < uriField ∧ cidField < uriField := by decide
    simp [SearchTree.Sorted, htype]
  · simp [Json.Ordered.string]

theorem proofUri_ne_empty (attestationRepository type recordKey : Text) :
  proofUri attestationRepository type recordKey ≠ Text.empty
  := by
  intro h
  exact List.cons_ne_nil _ _ (congrArg Text.bytes h)

/-- A reference to a record that attests binds. -/
theorem binds_strongRef (hlib : lib.Ideal) {record : AnyInput} {proof : Json} {uri : Text}
    {cid : Cid} (hrecord : record.Ordered lib) (hproof : proof.Ordered) (huri : uri ≠ Text.empty)
    (hfetch : resolvers.record uri = .ok proof) (h : Attests lib repository record proof) :
  Binds lib resolvers repository record (strongRef lib uri cid)
  := by
  obtain ⟨htype, huriOf⟩ := @stringOf_strongRef lib uri huri cid
  apply binds_of_verified hlib hrecord (strongRef_ordered uri cid)
  · intro _ uri' proof' huri' hfetch'
    cases huriOf.symm.trans huri'
    cases hfetch.symm.trans hfetch'
    exact hproof
  · rw [verifySignature_eq htype, if_pos rfl]
    exact verifyReference_eq_ok.mpr ⟨uri, proof, huriOf, hfetch, h⟩

/-- The metadata with their CID and signature are for the repository. -/
theorem verifyInline_inlineAttestation (hlib : lib.Ideal) {record metadata : AnyInput}
    {fields : Fields} {cid : Cid} {name : Text} {key keyData : KeyData} {raw signature : Bytes}
    (hrecord : record.Ordered lib) (hmetadata : metadata.Ordered lib)
    (hfields : metadata.toObject lib = some fields)
    (hcid : createAttestationCid lib record metadata repository = .ok cid)
    (hname : stringField keyField fields = some name) (hkey : resolvers.key name = .ok keyData)
    (hhalf : keyData = key ∨ toPublic lib.keys key = .ok keyData)
    (hraw : lib.sign key (lib.format.toBytes cid) = .ok raw)
    (hsignature : normalizeSignature lib raw key.keyType = .ok signature) :
  verifyInline lib resolvers record repository
    (.object (inlineAttestation lib fields cid signature)) = .ok ()
  := by
  apply verifyInline_eq_ok.mpr
  refine ⟨cid, name, keyData, lib.base64Encode signature, signature, ?_, ?_, hkey, ?_,
    hlib.base64 signature, hlib.signed key keyData _ raw signature hhalf hraw hsignature⟩
  · apply createAttestationCid_congr hrecord hfields (hmetadata fields hfields) _ _ hcid
    · exact inlineAttestation_ordered (hmetadata fields hfields) cid signature
    · apply sameOff_insert (by decide)
      exact sameOff_insert (by decide) _ fun _ _ => rfl
  · rw [stringOf_object, inlineAttestation, stringField_insert (by decide),
      stringField_insert (by decide)]
    exact hname
  · have hget : (Json.object (inlineAttestation lib fields cid signature)).get signatureField =
        some (.object [(bytesField, .string (lib.base64Encode signature))]) := by
      rw [Json.get, Json.asObject, inlineAttestation]
      exact (lookup_insert _ _ _ _).trans (if_pos rfl)
    rw [signatureText, hget]
    rfl

/-- Every call appends a signature that binds. -/
theorem Call.appends (hlib : lib.Ideal) {record result : Json} (hordered : record.Ordered)
    (h : Call lib resolvers repository record result) :
  ∃ signature, Appends record result signature ∧
    Binds lib resolvers repository (inputOfJson record) signature
  := by
  have hrecord : (inputOfJson record).Ordered lib := inputOfJson_ordered hordered
  cases h with
  | createInline hmetadata hok hfields hname hkey hhalf =>
    obtain ⟨cid, hcid, hok⟩ := Logic.bind_eq_ok.mp hok
    obtain ⟨recordObj, hrecordObj, hok⟩ := Logic.bind_eq_ok.mp hok
    obtain ⟨metadataObj, hmetadataObj, hok⟩ := Logic.bind_eq_ok.mp hok
    obtain ⟨raw, hraw, hok⟩ := Logic.bind_eq_ok.mp hok
    obtain ⟨signature, hsignature, hok⟩ := Logic.bind_eq_ok.mp hok
    cases hfields.symm.trans (okOr_eq_ok.mp hmetadataObj)
    obtain ⟨type, htype⟩ := type_of_createAttestationCid hcid hfields
    refine ⟨_, appends_of_appendSignatureToRecord (okOr_eq_ok.mp hrecordObj) hok, ?_⟩
    have hinline : (Json.object (inlineAttestation lib _ cid signature)).Ordered :=
      inlineAttestation_ordered (hmetadata.ordered _ hfields) cid signature
    apply binds_inline hlib hrecord hinline
    · rw [inlineAttestation, stringField_insert (by decide), stringField_insert (by decide)]
      exact htype
    · rintro rfl
      exact hmetadata.type _ hfields htype
    · exact verifyInline_inlineAttestation hlib hrecord hmetadata.ordered hfields hcid hname hkey
        hhalf (Logic.mapError_eq_ok.mp hraw) hsignature
  | createRemote hmetadata hok hfetch =>
    obtain ⟨cid, hcid, hok⟩ := Logic.bind_eq_ok.mp hok
    obtain ⟨recordObj, hrecordObj, hok⟩ := Logic.bind_eq_ok.mp hok
    obtain ⟨metadataObj, hmetadataObj, hok⟩ := Logic.bind_eq_ok.mp hok
    obtain ⟨type, htype, hok⟩ := Logic.bind_eq_ok.mp hok
    obtain ⟨proofCid, hproofCid, hok⟩ := Logic.bind_eq_ok.mp hok
    obtain ⟨attested, hattested, hok⟩ := Logic.bind_eq_ok.mp hok
    cases hok
    have hfields := okOr_eq_ok.mp hmetadataObj
    have hproof := (hmetadata.ordered _ hfields).insert cidField
      (.string (lib.cidToString cid))
    refine ⟨_, appends_of_appendSignatureToRecord (okOr_eq_ok.mp hrecordObj) hattested, ?_⟩
    apply binds_strongRef hlib hrecord hproof (proofUri_ne_empty _ _ _) hfetch
    refine ⟨cid, ?_, stringField_insert_self (hlib.cid_ne_empty cid) _⟩
    apply createAttestationCid_congr hrecord hfields (hmetadata.ordered _ hfields) hproof _ hcid
    exact sameOff_insert (by decide) _ fun _ _ => rfl
  | appendInline hmetadata hok =>
    obtain ⟨cid, hcid, hok⟩ := Logic.bind_eq_ok.mp hok
    obtain ⟨recordObj, hrecordObj, hok⟩ := Logic.bind_eq_ok.mp hok
    obtain ⟨attestationObj, hattestationObj, hok⟩ := Logic.bind_eq_ok.mp hok
    obtain ⟨key, hkey, hok⟩ := Logic.bind_eq_ok.mp hok
    obtain ⟨keyData, hkeyData, hok⟩ := Logic.bind_eq_ok.mp hok
    obtain ⟨text, htext, hok⟩ := Logic.bind_eq_ok.mp hok
    obtain ⟨bytes, hbytes, hok⟩ := Logic.bind_eq_ok.mp hok
    obtain ⟨⟨⟩, hvalid, hok⟩ := Logic.bind_eq_ok.mp hok
    have hfields := okOr_eq_ok.mp hattestationObj
    have hattestation := hmetadata.ordered _ hfields
    obtain ⟨type, htype⟩ := type_of_createAttestationCid hcid hfields
    refine ⟨_, appends_of_appendSignatureToRecord (okOr_eq_ok.mp hrecordObj) hok, ?_⟩
    apply binds_inline hlib hrecord hattestation htype
    · rintro rfl
      exact hmetadata.type _ hfields htype
    · apply verifyInline_eq_ok.mpr
      refine ⟨cid, key, keyData, text, bytes, ?_, okOr_eq_ok.mp hkey, Logic.mapError_eq_ok.mp hkeyData,
        okOr_eq_ok.mp htext, Logic.mapError_eq_ok.mp hbytes, Logic.mapError_eq_ok.mp hvalid⟩
      exact createAttestationCid_congr hrecord hfields hattestation hattestation (fun _ _ => rfl)
        hcid
  | appendRemote hmetadata hok hfields huri hfetch =>
    obtain ⟨cid, hcid, hok⟩ := Logic.bind_eq_ok.mp hok
    obtain ⟨metadataObj, hmetadataObj, hok⟩ := Logic.bind_eq_ok.mp hok
    obtain ⟨claimed, hclaimed, hok⟩ := Logic.bind_eq_ok.mp hok
    cases hfields.symm.trans (okOr_eq_ok.mp hmetadataObj)
    have hsame : lib.cidToString cid = claimed := by
      by_contra hne
      rw [if_pos hne] at hok
      cases hok
    rw [if_neg (not_not.mpr hsame)] at hok
    obtain ⟨proofCid, hproofCid, hok⟩ := Logic.bind_eq_ok.mp hok
    obtain ⟨recordObj, hrecordObj, hok⟩ := Logic.bind_eq_ok.mp hok
    have hproof := hmetadata.ordered _ hfields
    refine ⟨_, appends_of_appendSignatureToRecord (okOr_eq_ok.mp hrecordObj) hok, ?_⟩
    apply binds_strongRef hlib hrecord hproof huri hfetch
    refine ⟨cid, ?_, ?_⟩
    · exact createAttestationCid_congr hrecord hfields hproof hproof (fun _ _ => rfl) hcid
    · rw [hsame]
      exact okOr_eq_ok.mp hclaimed

/-! ### Sequences of calls -/

/-- A record with one signature more is accepted when the record and the signature are. -/
theorem Appends.verifyRecord_iff {record result signature : Json} {other : Text}
    (h : Appends record result signature) :
  verifyRecord lib resolvers (inputOfJson result) other = .ok () ↔
    verifyRecord lib resolvers (inputOfJson record) other = .ok () ∧
      verifySignature lib resolvers (inputOfJson record) other signature = .ok ()
  := by
  obtain ⟨fields, signatures, rfl, hsignatures, rfl⟩ := h
  have hfields : (inputOfJson (.object fields)).toObject lib = some fields := rfl
  have hresult : verifyRecord lib resolvers (inputOfJson (.object
      (insert signaturesField (.array (signatures ++ [signature])) fields))) other = .ok () ↔ _ :=
    verifyRecord_withSignatures hfields
  rw [hresult, List.forall_mem_append, List.forall_mem_singleton]
  apply and_congr_left
  intro _
  constructor
  · intro hall
    exact verifyRecord_eq_ok.mpr ⟨fields, signatures, hfields, hsignatures, hall⟩
  · intro hverify
    obtain ⟨fields', signatures', hfields', hsignatures', hall⟩ := verifyRecord_eq_ok.mp hverify
    cases hfields.symm.trans hfields'
    cases hsignatures.symm.trans hsignatures'
    exact hall

theorem extractSignatures_ordered {fields : Fields} {signatures : List Json}
    (hordered : (Json.object fields).Ordered) (h : extractSignatures fields = .ok signatures) :
  ∀ signature ∈ signatures, signature.Ordered
  := by
  rw [extractSignatures] at h
  cases hlookup : lookup signaturesField fields with
  | none =>
    rw [hlookup] at h
    cases h
    exact List.forall_mem_nil _
  | some value =>
    rw [hlookup] at h
    cases hordered with
    | object hsorted hvalues =>
      have hvalue : value.Ordered := hvalues _ (mem_of_lookup hlookup)
      rw [Json.asArray_eq_some.mp (okOr_eq_ok.mp h)] at hvalue
      cases hvalue with
      | array hitems => exact hitems

theorem Appends.ordered {record result signature : Json} (h : Appends record result signature)
    (hrecord : record.Ordered) (hsignature : signature.Ordered) :
  result.Ordered
  := by
  obtain ⟨fields, signatures, rfl, hsignatures, rfl⟩ := h
  apply hrecord.insert
  apply Json.Ordered.array
  exact List.forall_mem_append.mpr
    ⟨extractSignatures_ordered hrecord hsignatures, List.forall_mem_singleton.mpr hsignature⟩

/-- A call leaves it as it was whether the record is accepted for the repository, and the record
is refused for every other one. -/
theorem Call.verifyRecord (hlib : lib.Ideal) {record result : Json} (hordered : record.Ordered)
    (h : Call lib resolvers repository record result) :
  result.Ordered ∧
    (verifyRecord lib resolvers (inputOfJson result) repository = .ok () ↔
      verifyRecord lib resolvers (inputOfJson record) repository = .ok ()) ∧
    ∀ other, other ≠ repository →
      verifyRecord lib resolvers (inputOfJson result) other ≠ .ok ()
  := by
  obtain ⟨signature, happends, hbinds⟩ := h.appends hlib hordered
  refine ⟨happends.ordered hordered hbinds.ordered, ?_, ?_⟩
  · rw [happends.verifyRecord_iff, and_iff_left hbinds.verified]
  · intro other hother hverify
    exact hbinds.refused other hother (happends.verifyRecord_iff.mp hverify).2

/-- A record without signatures is accepted for every repository. -/
theorem verifyRecord_unsigned {record : AnyInput} {fields : Fields}
    (hrecord : record.toObject lib = some fields) (hnone : lookup signaturesField fields = none) :
  verifyRecord lib resolvers record repository = .ok ()
  := by
  apply verifyRecord_eq_ok.mpr
  refine ⟨fields, [], hrecord, ?_, List.forall_mem_nil _⟩
  rw [extractSignatures, hnone]

/-- After any sequence of calls a record is accepted for the repository exactly when it was
before, and after one call or more it is refused for every other repository. -/
theorem attestations_compose (hlib : lib.Ideal) {record : Json} (hordered : record.Ordered) :
  (∀ result, Relation.ReflTransGen (Call lib resolvers repository) record result →
    (verifyRecord lib resolvers (inputOfJson result) repository = .ok () ↔
      verifyRecord lib resolvers (inputOfJson record) repository = .ok ())) ∧
  ∀ result, Relation.TransGen (Call lib resolvers repository) record result →
    ∀ other, other ≠ repository →
      verifyRecord lib resolvers (inputOfJson result) other ≠ .ok ()
  := by
  have hrun : ∀ result, Relation.ReflTransGen (Call lib resolvers repository) record result →
      result.Ordered ∧ (verifyRecord lib resolvers (inputOfJson result) repository = .ok () ↔
        verifyRecord lib resolvers (inputOfJson record) repository = .ok ()) := by
    intro result hcalls
    induction hcalls with
    | refl => exact ⟨hordered, Iff.rfl⟩
    | tail hcalls hcall ih =>
      obtain ⟨hresult, hverify, -⟩ := hcall.verifyRecord hlib ih.1
      exact ⟨hresult, hverify.trans ih.2⟩
  refine ⟨fun result hcalls => (hrun result hcalls).2, ?_⟩
  intro result hcalls
  obtain ⟨before, hcalls, hcall⟩ := Relation.TransGen.tail'_iff.mp hcalls
  exact (hcall.verifyRecord hlib (hrun before hcalls).1).2.2

/-! ### A call -/

theorem multibaseToString_injective :
  Function.Injective multibaseToString
  := by
  intro a b h
  have hround : multibaseParse (multibaseToString a) = .ok a := multibase_lawful.cid_round a
  rw [h] at hround
  exact (Except.ok.inj ((multibase_lawful.cid_round b).symm.trans hround)).symm

theorem multibaseToString_ne_empty (cid : Cid) :
  multibaseToString cid ≠ Text.empty
  := by
  intro h
  have hround : multibaseParse (multibaseToString cid) = .ok cid := multibase_lawful.cid_round cid
  rw [h] at hround
  cases hround

theorem sampleLibrary_sign (key : KeyData) (content : Bytes) :
  sampleLibrary.sign key content =
    if content = multiformatsToBytes sampleCid then .ok sampleSignature
    else .error (.ecdsaError "signature error")
  := rfl

/-- The one signature that is accepted, of the one content. -/
theorem sampleLibrary_validate {key : KeyData} {signature content : Bytes}
    (h : sampleLibrary.keys.validate key signature content = .ok ()) :
  signature = sampleSignature ∧ content = multiformatsToBytes sampleCid
  := by
  by_contra hne
  cases (if_neg hne).symm.trans h

theorem normalizeBytes_some {raw signature : Bytes} (h : normalizeBytes some raw = .ok signature) :
  signature = raw
  := by
  rw [normalizeBytes] at h
  split_ifs at h with hlength
  exact (Except.ok.inj h).symm

theorem normalizeSignature_sample {raw signature : Bytes} {keyType : KeyType}
    (h : normalizeSignature sampleLibrary raw keyType = .ok signature) :
  signature = raw
  := by
  cases keyType with
  | p256Private => exact normalizeBytes_some h
  | p256Public => exact normalizeBytes_some h
  | k256Private => exact normalizeBytes_some h
  | k256Public => exact normalizeBytes_some h
  | p384Private => cases h
  | p384Public => cases h
  | ed25519Private => cases h
  | ed25519Public => cases h

theorem sampleLibrary_ideal :
  sampleLibrary.Ideal
  where
  format := multiformats_lawful
  sha256 := Function.injective_id
  cidToString := multibaseToString_injective
  cid_ne_empty := multibaseToString_ne_empty
  base64 := base64Decode_base64Encode
  signed key keyData content raw signature _ hsign hnormalize := by
    rw [sampleLibrary_sign] at hsign
    split_ifs at hsign with hcontent
    cases hsign
    exact if_pos ⟨normalizeSignature_sample hnormalize, hcontent⟩
  unforgeable keyData signature content content' h h' :=
    (sampleLibrary_validate h).2.trans (sampleLibrary_validate h').2.symm

theorem sampleMetadata_isMetadata :
  IsMetadata sampleLibrary (inputOf sampleMetadata)
  where
  ordered := inputOf_ordered sampleMetadata_ordered
  type fields hfields := by
    cases hfields
    decide

/-- A record with the sample signature behind the ones it has. -/
def inlined (record : Fields) (signatures : List Json) : Fields :=
  insert signaturesField (.array (signatures ++
    [.object (inlineAttestation sampleLibrary sampleMetadata sampleCid sampleSignature)])) record

/-- A record whose signed object is the sample one is given the sample signature. -/
theorem createInlineAttestation_sample {record : Fields} {signatures : List Json}
    (htype : stringField typeField record = some (textOf "a"))
    (hsigned : signedObject record sampleMetadata sampleRepository = sampleSigned)
    (hsignatures : extractSignatures record = .ok signatures) :
  createInlineAttestation sampleLibrary (inputOf record) (inputOf sampleMetadata) sampleRepository
    sampleKey = .ok (.object (inlined record signatures))
  := by
  have hcid := createAttestationCid_sample htype rfl hsigned
  have happend : appendSignatureToRecord record (.object
      (inlineAttestation sampleLibrary sampleMetadata sampleCid sampleSignature)) =
      .ok (.object (inlined record signatures)) :=
    Logic.bind_eq_ok.mpr ⟨signatures, hsignatures, rfl⟩
  have hsign : sampleLibrary.sign sampleKey (multiformatsToBytes sampleCid) =
      .ok sampleSignature := by
    rw [sampleLibrary_sign, if_pos rfl]
  apply Logic.bind_eq_ok.mpr ⟨sampleCid, hcid, _⟩
  apply Logic.bind_eq_ok.mpr ⟨record, rfl, _⟩
  apply Logic.bind_eq_ok.mpr ⟨sampleMetadata, rfl, _⟩
  apply Logic.bind_eq_ok.mpr ⟨sampleSignature, Logic.mapError_eq_ok.mpr hsign, _⟩
  exact Logic.bind_eq_ok.mpr ⟨sampleSignature, rfl, happend⟩

/-- To create the sample signature is a call, as its key is resolved. -/
theorem call_createInline {record : Fields} {result : Json}
    (hok : createInlineAttestation sampleLibrary (inputOf record) (inputOf sampleMetadata)
      sampleRepository sampleKey = .ok result) :
  Call sampleLibrary sampleResolvers sampleRepository (.object record) result
  := by
  have hkey : sampleKey = sampleKey ∨ toPublic sampleLibrary.keys sampleKey = .ok sampleKey :=
    .inl rfl
  exact Call.createInline sampleMetadata_isMetadata hok rfl rfl rfl hkey

theorem sampleProof_encodable :
  (Json.object sampleProof).asIpld.Encodable multiformats
  := by
  have hlength : (multibaseToString sampleCid).bytes.length < 2 ^ 64 := by decide +kernel
  apply Ipld.Encodable.map (by decide) (by decide)
  · exact List.pairwise_cons.mpr ⟨by decide, List.pairwise_pair.mpr (by decide)⟩
  · intro e he
    rcases List.mem_cons.mp he with rfl | he
    · exact string_encodable (by decide)
    · rcases List.mem_pair.mp he with rfl | rfl
      · exact string_encodable hlength
      · exact string_encodable (by decide)

/-- The proof record has a CID. -/
theorem exists_sampleProofCid :
  ∃ proofCid, createDagborCid sampleLibrary (.object sampleProof) = .ok proofCid
  := ⟨_, createDagborCid_eq_ok.mpr ⟨_, sampleProof_encodable.serialize_ok, rfl⟩⟩

/-- A record with a reference to the sample proof behind its signatures. -/
def referred (record : Fields) (signatures : List Json) (uri : Text) (proofCid : Cid) : Fields :=
  insert signaturesField (.array (signatures ++ [strongRef sampleLibrary uri proofCid])) record

/-- A record whose signed object is the sample one is given a reference to the sample proof. -/
theorem appendRemoteAttestation_sample {record : Fields} {signatures : List Json} (uri : Text)
    {proofCid : Cid} (htype : stringField typeField record = some (textOf "a"))
    (hsigned : signedObject record sampleProof sampleRepository = sampleSigned)
    (hsignatures : extractSignatures record = .ok signatures)
    (hproofCid : createDagborCid sampleLibrary (.object sampleProof) = .ok proofCid) :
  appendRemoteAttestation sampleLibrary (inputOf record) (inputOf sampleProof) sampleRepository uri =
    .ok (.object (referred record signatures uri proofCid))
  := by
  have hcid := createAttestationCid_sample htype rfl hsigned
  have hclaimed : stringField cidField sampleProof = some (multibaseToString sampleCid) :=
    stringField_insert_self (multibaseToString_ne_empty sampleCid) sampleMetadata
  have hmatch : sampleLibrary.cidToString sampleCid = multibaseToString sampleCid := rfl
  apply Logic.bind_eq_ok.mpr ⟨sampleCid, hcid, _⟩
  apply Logic.bind_eq_ok.mpr ⟨sampleProof, rfl, _⟩
  apply Logic.bind_eq_ok.mpr ⟨_, okOr_eq_ok.mpr hclaimed, _⟩
  rw [if_neg (not_not.mpr hmatch)]
  apply Logic.bind_eq_ok.mpr ⟨proofCid, hproofCid, _⟩
  apply Logic.bind_eq_ok.mpr ⟨record, rfl, _⟩
  exact Logic.bind_eq_ok.mpr ⟨signatures, hsignatures, rfl⟩

/-- A signature is created, a reference to a proof is appended and another signature is created.
The record is accepted for the repository and refused for another one. -/
theorem attestations_compose_sample :
  ∃ once twice result,
    createInlineAttestation sampleLibrary (inputOf sampleRecord) (inputOf sampleMetadata)
      sampleRepository sampleKey = .ok (.object once) ∧
    appendRemoteAttestation sampleLibrary (inputOf once) (inputOf sampleProof) sampleRepository
      (textOf "at://") = .ok (.object twice) ∧
    createInlineAttestation sampleLibrary (inputOf twice) (inputOf sampleMetadata)
      sampleRepository sampleKey = .ok result ∧
    verifyRecord sampleLibrary sampleResolvers (inputOfJson result) sampleRepository = .ok () ∧
    verifyRecord sampleLibrary sampleResolvers (inputOfJson result) (textOf "e") ≠ .ok ()
  := by
  obtain ⟨proofCid, hproofCid⟩ := exists_sampleProofCid
  have hfirst := @createInlineAttestation_sample sampleRecord [] rfl rfl rfl
  have hsecond := @appendRemoteAttestation_sample (inlined sampleRecord []) _ (textOf "at://") _
    rfl rfl (extractSignatures_withSignatures _ _) hproofCid
  have hthird := fun signatures => @createInlineAttestation_sample
    (referred (inlined sampleRecord []) signatures (textOf "at://") proofCid) _ rfl rfl
    (extractSignatures_withSignatures _ _)
  have hproof : IsMetadata sampleLibrary (inputOf sampleProof) :=
    ⟨inputOf_ordered (sampleMetadata_ordered.insert _ (.string _)), by
      intro fields hfields
      cases hfields
      decide⟩
  have happend : Call sampleLibrary sampleResolvers sampleRepository _ _ :=
    .appendRemote hproof hsecond rfl (by decide) rfl
  have hcalls := ((Relation.TransGen.single (call_createInline hfirst)).tail happend).tail
    (call_createInline (hthird _))
  obtain ⟨haccept, hrefuse⟩ := attestations_compose sampleLibrary_ideal sampleRecord_ordered
  refine ⟨_, _, _, hfirst, hsecond, hthird _, (haccept _ hcalls.to_reflTransGen).mpr ?_,
    hrefuse _ hcalls (textOf "e") (by decide)⟩
  exact verifyRecord_unsigned rfl rfl

/-- The record with a signature that is none. -/
def malformedRecord : Fields := insert signaturesField (.array [.null]) sampleRecord

theorem malformedRecord_refused (other : Text) :
  verifyRecord sampleLibrary sampleResolvers (inputOf malformedRecord) other ≠ .ok ()
  := by
  intro h
  cases h

/-- A call leaves a malformed signature of the record, and a reference can be appended without
an address, which no verifier follows. -/
theorem attestations_not_compose :
  (∃ result,
    Call sampleLibrary sampleResolvers sampleRepository (.object malformedRecord) result ∧
    verifyRecord sampleLibrary sampleResolvers (inputOfJson result) sampleRepository ≠ .ok ()) ∧
  ∃ result,
    appendRemoteAttestation sampleLibrary (inputOf sampleRecord) (inputOf sampleProof)
      sampleRepository Text.empty = .ok result ∧
    sampleResolvers.record Text.empty = .ok (.object sampleProof) ∧
    verifyRecord sampleLibrary sampleResolvers (inputOfJson result) sampleRepository ≠ .ok ()
  := by
  constructor
  · have hcall := call_createInline (@createInlineAttestation_sample malformedRecord [.null] rfl rfl rfl)
    refine ⟨_, hcall, ?_⟩
    obtain ⟨signature, happends, -⟩ := hcall.appends sampleLibrary_ideal
      (sampleRecord_ordered.insert _ (.array (List.forall_mem_singleton.mpr .null)))
    intro hverify
    exact malformedRecord_refused _ (happends.verifyRecord_iff.mp hverify).1
  · obtain ⟨proofCid, hproofCid⟩ := exists_sampleProofCid
    refine ⟨.object (referred sampleRecord [] Text.empty proofCid),
      appendRemoteAttestation_sample _ rfl rfl rfl hproofCid, rfl, ?_⟩
    intro hverify
    cases hverify

end Atproto.Attestation
