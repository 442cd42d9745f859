import Atproto.Attestation.Verify
import Atproto.Json.TextForms

/-!
# What an attestation binds

Attestations with one CID are for one repository, for records that agree off their signatures
and `$sig`, and for metadata that agree off the CID, the signature and the repository.  A
reference is accepted whatever CID it has, so its CID is that of the fetched record only where
no reference is accepted at all.
-/

namespace Atproto.Attestation

open Dasl Repo Identity SearchTree

variable {lib : Library} {resolvers : Resolvers} {repository : Text}

/-! ### Equal CIDs -/

/-- Without collisions, attestations have the same CID exactly when they are for one repository,
the records agree off their signatures and `$sig`, and the metadata agree off the CID, the
signature and the repository. -/
theorem attestationCid_binds (hformat : lib.format.Lawful) (hsha : Function.Injective lib.sha256)
    {r₁ r₂ m₁ m₂ : AnyInput} {d₁ d₂ : Text} {cid : Cid} {R₁ R₂ M₁ M₂ : Fields}
    (hr₁ : r₁.Ordered lib) (hr₂ : r₂.Ordered lib) (hm₁ : m₁.Ordered lib) (hm₂ : m₂.Ordered lib)
    (hR₁ : r₁.toObject lib = some R₁) (hR₂ : r₂.toObject lib = some R₂)
    (hM₁ : m₁.toObject lib = some M₁) (hM₂ : m₂.toObject lib = some M₂)
    (h₁ : createAttestationCid lib r₁ m₁ d₁ = .ok cid)
    (h₂ : createAttestationCid lib r₂ m₂ d₂ = .ok cid) :
  d₁ = d₂ ∧ SameOff [sigField, signaturesField] R₁ R₂ ∧
    SameOff [repositoryField, signatureField, cidField] M₁ M₂
  := by
  obtain ⟨R, M, hR, hM, -, -, hcid₁⟩ := createAttestationCid_eq_ok.mp h₁
  cases hR₁.symm.trans hR
  cases hM₁.symm.trans hM
  obtain ⟨R, M, hR, hM, -, -, hcid₂⟩ := createAttestationCid_eq_ok.mp h₂
  cases hR₂.symm.trans hR
  cases hM₂.symm.trans hM
  have heq := eq_of_createDagborCid hformat hsha
    (signedObject_ordered (hr₁ _ hR₁) (hm₁ _ hM₁) d₁)
    (signedObject_ordered (hr₂ _ hR₂) (hm₂ _ hM₂) d₂) hcid₁ hcid₂
  exact (signedObject_eq_iff (hr₁ _ hR₁) (hr₂ _ hR₂) (hm₁ _ hM₁) (hm₂ _ hM₂)).mp
    (Json.object.inj heq)

/-- Objects that agree off some names and one more agree off the names when they agree there. -/
theorem sameOff_cons_iff {names : List Text} {name : Text} (hname : name ∉ names) {a b : Fields}
    (h : SameOff (name :: names) a b) :
  SameOff names a b ↔ lookup name a = lookup name b
  := by
  constructor
  · intro hsame
    exact hsame name hname
  · intro heq key hkey
    by_cases hk : key = name
    · rw [hk, heq]
    · exact h key (by simp [hk, hkey])

/-! ### References -/

/-- Every reference among the signatures of a record has the CID of the record that is
fetched for it. -/
def Pinned (lib : Library) (resolvers : Resolvers) (record : AnyInput) : Prop :=
  ∀ recordObj signatures, record.toObject lib = some recordObj →
    extractSignatures recordObj = .ok signatures →
    ∀ signature ∈ signatures, stringOf typeField signature = some strongRefNsid →
      ∃ uri proof cid, stringOf uriField signature = some uri ∧
        resolvers.record uri = .ok proof ∧ createDagborCid lib proof = .ok cid ∧
        signature.get cidField = some (.string (lib.cidToString cid))

/-- A reference without a CID. -/
def bareReference (uri : Text) : Json :=
  .object [(typeField, .string strongRefNsid), (uriField, .string uri)]

theorem stringOf_bareReference (uri : Text) :
  stringOf typeField (bareReference uri) = some strongRefNsid ∧
    (uri ≠ Text.empty → stringOf uriField (bareReference uri) = some uri) ∧
    (bareReference uri).get cidField = none
  := by
  refine ⟨?_, ?_, ?_⟩
  · have hget : ((bareReference uri).get typeField).bind Json.asStr = some strongRefNsid := by
      change (lookup typeField [(typeField, Json.string strongRefNsid),
        (uriField, Json.string uri)]).bind Json.asStr = some strongRefNsid
      rw [lookup, if_pos rfl]
      rfl
    rw [stringOf, hget, Option.filter_some, if_pos (by decide)]
  · intro hne
    have hget : ((bareReference uri).get uriField).bind Json.asStr = some uri := by
      change (lookup uriField [(typeField, Json.string strongRefNsid),
        (uriField, Json.string uri)]).bind Json.asStr = some uri
      rw [lookup, if_neg (show typeField ≠ uriField by decide), lookup, if_pos rfl]
      rfl
    rw [stringOf, hget, Option.filter_some, if_pos (decide_eq_true hne)]
  · change lookup cidField [(typeField, Json.string strongRefNsid), (uriField, Json.string uri)] =
      none
    rw [lookup, if_neg (show typeField ≠ cidField by decide), lookup,
      if_neg (show uriField ≠ cidField by decide), lookup]

/-- A fetched record that attests a record makes a reference without a CID acceptable. -/
theorem verifyRecord_bareReference {record : AnyInput} {recordObj : Fields} {uri : Text}
    {proof : Json} (hrecord : record.toObject lib = some recordObj) (huri : uri ≠ Text.empty)
    (hproof : resolvers.record uri = .ok proof) (hattests : Attests lib repository record proof) :
  verifyRecord lib resolvers (withSignatures recordObj [bareReference uri]) repository = .ok ()
  := by
  obtain ⟨htype, hstring, -⟩ := stringOf_bareReference uri
  rw [verifyRecord_withSignatures hrecord, List.forall_mem_singleton, verifySignature_eq htype,
    if_pos rfl, verifyReference_eq_ok]
  exact ⟨uri, proof, hstring huri, hproof, hattests⟩

theorem bareReference_ordered (uri : Text) :
  (bareReference uri).Ordered
  := by
  have hkeys : typeField < uriField := by decide
  apply Json.Ordered.object (List.pairwise_pair.mpr hkeys)
  exact List.forall_mem_cons.mpr ⟨.string _, List.forall_mem_singleton.mpr (.string _)⟩

theorem withSignatures_ordered {recordObj : Fields} {signatures : List Json}
    (h : (Json.object recordObj).Ordered) (hsignatures : ∀ signature ∈ signatures, signature.Ordered) :
  (withSignatures recordObj signatures).Ordered lib
  := by
  intro other hother
  cases hother
  exact h.insert _ (.array hsignatures)

theorem not_pinned_bareReference (recordObj : Fields) (uri : Text) :
  ¬ Pinned lib resolvers (withSignatures recordObj [bareReference uri])
  := by
  intro hpinned
  obtain ⟨htype, -, hcid⟩ := stringOf_bareReference uri
  obtain ⟨_, _, _, _, _, _, hget⟩ := hpinned _ _ rfl (extractSignatures_withSignatures _ _) _
    (List.mem_singleton.mpr rfl) htype
  rw [hcid] at hget
  cases hget

theorem stringOf_ne_empty {key : Text} {value : Json} {text : Text}
    (h : stringOf key value = some text) :
  text ≠ Text.empty
  := of_decide_eq_true (Option.filter_eq_some_iff.mp h).2

/-- The references of accepted records have the CIDs of the fetched records exactly when no
record that is fetched attests any. -/
theorem pinned_iff :
  (∀ record, record.Ordered lib → verifyRecord lib resolvers record repository = .ok () →
    Pinned lib resolvers record) ↔
  ∀ uri proof record, record.Ordered lib → uri ≠ Text.empty → resolvers.record uri = .ok proof →
    ¬ Attests lib repository record proof
  := by
  constructor
  · intro h uri proof record hordered huri hproof hattests
    obtain ⟨cid, hcid, hfield⟩ := hattests
    obtain ⟨recordObj, -, hrecord, -⟩ := createAttestationCid_eq_ok.mp hcid
    apply not_pinned_bareReference recordObj uri
    apply h
    · exact withSignatures_ordered (hordered _ hrecord)
        (List.forall_mem_singleton.mpr (bareReference_ordered uri))
    · exact verifyRecord_bareReference hrecord huri hproof ⟨cid, hcid, hfield⟩
  · intro h record hordered hverify recordObj signatures hrecord hsignatures signature hsignature
      htype
    obtain ⟨_, _, hrecord', hsignatures', hall⟩ := verifyRecord_eq_ok.mp hverify
    cases hrecord.symm.trans hrecord'
    cases hsignatures.symm.trans hsignatures'
    have hverified := hall signature hsignature
    rw [verifySignature_eq htype, if_pos rfl] at hverified
    obtain ⟨uri, proof, huri, hproof, hattests⟩ := verifyReference_eq_ok.mp hverified
    exact absurd hattests (h uri proof record hordered (stringOf_ne_empty huri) hproof)

/-! ### Both -/

/-- Attestations with one CID are for one repository, for records that agree off their
signatures and for metadata that agree off the CID and the signature, exactly when the records
agree at `$sig` and the metadata at the repository.  The references of accepted records have
the CIDs of the fetched records exactly when no record that is fetched attests any.  The fields of
the records stand in order. -/
theorem attestations_bind_iff (hformat : lib.format.Lawful)
    (hsha : Function.Injective lib.sha256) :
  (∀ (r₁ r₂ m₁ m₂ : AnyInput) (d₁ d₂ : Text) (cid : Cid) (R₁ R₂ M₁ M₂ : Fields),
    r₁.Ordered lib → r₂.Ordered lib → m₁.Ordered lib → m₂.Ordered lib →
    r₁.toObject lib = some R₁ → r₂.toObject lib = some R₂ →
    m₁.toObject lib = some M₁ → m₂.toObject lib = some M₂ →
    createAttestationCid lib r₁ m₁ d₁ = .ok cid → createAttestationCid lib r₂ m₂ d₂ = .ok cid →
    (d₁ = d₂ ∧ SameOff [signaturesField] R₁ R₂ ∧ SameOff [signatureField, cidField] M₁ M₂ ↔
      lookup sigField R₁ = lookup sigField R₂ ∧
        lookup repositoryField M₁ = lookup repositoryField M₂)) ∧
  ∀ (resolvers : Resolvers) (repository : Text),
    (∀ record, record.Ordered lib → verifyRecord lib resolvers record repository = .ok () →
      Pinned lib resolvers record) ↔
    ∀ uri proof record, record.Ordered lib → uri ≠ Text.empty → resolvers.record uri = .ok proof →
      ¬ Attests lib repository record proof
  := by
  refine ⟨?_, fun _ _ => pinned_iff⟩
  intro r₁ r₂ m₁ m₂ d₁ d₂ cid R₁ R₂ M₁ M₂ hr₁ hr₂ hm₁ hm₂ hR₁ hR₂ hM₁ hM₂ h₁ h₂
  obtain ⟨hd, hrecord, hmetadata⟩ :=
    attestationCid_binds hformat hsha hr₁ hr₂ hm₁ hm₂ hR₁ hR₂ hM₁ hM₂ h₁ h₂
  rw [and_iff_right hd, sameOff_cons_iff (by decide) hrecord, sameOff_cons_iff (by decide) hmetadata]

/-! ### An attestation -/

def sampleRepository : Text := textOf "d"

def sampleRecord : Fields := [(typeField, .string (textOf "a"))]

def sampleMetadata : Fields := [(typeField, .string (textOf "m")), (keyField, .string (textOf "k"))]

/-- The object that is signed for the record and the metadata. -/
def sampleSigned : Fields :=
  [(sigField, .object [(typeField, .string (textOf "m")), (keyField, .string (textOf "k")),
      (repositoryField, .string sampleRepository)]),
    (typeField, .string (textOf "a"))]

/-- The CID of the attestation. -/
def sampleCid : Cid := computeCid id ((Json.object sampleSigned).asIpld.tree multiformats).encode

def sampleKey : KeyData where
  keyType := .k256Private
  bytes := []

/-- The one signature that is made and accepted, of the CID of the attestation. -/
def sampleSignature : Bytes := List.replicate 64 0

/-- A library whose key signs the one attestation. -/
def sampleLibrary : Library where
  sha256 := id
  format := multiformats
  cidToString := multibaseToString
  jsonFromStr _ := none
  base64Encode := base64Encode
  base64Decode := base64Decode
  keys := {
    multibaseDecode := .ok
    derivePublic := .ok
    validate := fun _ signature content =>
      if signature = sampleSignature ∧ content = multiformatsToBytes sampleCid then .ok ()
      else .error (.ecdsaError "signature error") }
  sign _ content :=
    if content = multiformatsToBytes sampleCid then .ok sampleSignature
    else .error (.ecdsaError "signature error")
  normalizeP256 := some
  normalizeK256 := some

/-- The proof record of the attestation. -/
def sampleProof : Fields :=
  insert cidField (.string (multibaseToString sampleCid)) sampleMetadata

def sampleResolvers : Resolvers where
  key _ := .ok sampleKey
  record _ := .ok (.object sampleProof)

/-- An object as an input. -/
def inputOf (fields : Fields) : AnyInput := .serialize (some (.object fields))

theorem string_encodable {text : Text} (h : text.bytes.length < 2 ^ 64) :
  Ipld.Encodable multiformats (.string text)
  := .string h

theorem sampleSigned_encodable :
  (Json.object sampleSigned).asIpld.Encodable multiformats
  := by
  apply Ipld.Encodable.map (by decide) (by decide)
  · exact List.pairwise_pair.mpr (by decide)
  · intro e he
    rcases List.mem_cons.mp he with rfl | he
    · apply Ipld.Encodable.map (by decide) (by decide)
      · exact List.pairwise_cons.mpr ⟨by decide, List.pairwise_pair.mpr (by decide)⟩
      · intro e he
        rcases List.mem_cons.mp he with rfl | he
        · exact string_encodable (by decide)
        · rcases List.mem_pair.mp he with rfl | rfl
          · exact string_encodable (by decide)
          · exact string_encodable (by decide)
    · rw [List.mem_singleton.mp he]
      exact string_encodable (by decide)

/-- Inputs for which the sample object is signed have the CID of the attestation. -/
theorem createAttestationCid_sample {record metadata : Fields}
    (hrecord : stringField typeField record = some (textOf "a"))
    (hmetadata : stringField typeField metadata = some (textOf "m"))
    (hsigned : signedObject record metadata sampleRepository = sampleSigned) :
  createAttestationCid sampleLibrary (inputOf record) (inputOf metadata) sampleRepository =
    .ok sampleCid
  := by
  apply createAttestationCid_eq_ok.mpr
  refine ⟨record, metadata, rfl, rfl, ⟨_, hrecord⟩, ⟨_, hmetadata⟩, ?_⟩
  rw [hsigned]
  exact createDagborCid_eq_ok.mpr ⟨_, sampleSigned_encodable.serialize_ok, rfl⟩

theorem sampleCid_ne_empty :
  multibaseToString sampleCid ≠ Text.empty
  := by
  intro h
  exact List.cons_ne_nil _ _ (congrArg Text.bytes h)

/-- The proof record attests the record. -/
theorem sampleProof_attests :
  Attests sampleLibrary sampleRepository (inputOf sampleRecord) (.object sampleProof)
  := by
  refine ⟨sampleCid, createAttestationCid_sample rfl rfl rfl, ?_⟩
  have hget : ((Json.object sampleProof).get cidField).bind Json.asStr =
      some (multibaseToString sampleCid) := rfl
  rw [stringOf, hget, Option.filter_some, if_pos (decide_eq_true sampleCid_ne_empty)]
  rfl

theorem inputOf_ordered {fields : Fields} (h : (Json.object fields).Ordered) :
  (inputOf fields).Ordered sampleLibrary
  := by
  intro other hother
  cases hother
  exact h

theorem sampleRecord_ordered :
  (Json.object sampleRecord).Ordered
  := .object (List.pairwise_singleton _ _) (List.forall_mem_singleton.mpr (.string _))

theorem sampleMetadata_ordered :
  (Json.object sampleMetadata).Ordered
  := by
  apply Json.Ordered.object (List.pairwise_pair.mpr (by decide))
  exact List.forall_mem_cons.mpr ⟨.string _, List.forall_mem_singleton.mpr (.string _)⟩

/-- The record with a signature. -/
def attestedRecord : Fields := insert signaturesField (.array [.object sampleProof]) sampleRecord

theorem attestedRecord_ordered :
  (Json.object attestedRecord).Ordered
  := by
  have hproof : (Json.object sampleProof).Ordered := sampleMetadata_ordered.insert _ (.string _)
  exact sampleRecord_ordered.insert _ (.array (List.forall_mem_singleton.mpr hproof))

/-- The record without and with a signature, and the metadata and its proof, are attested by the
same CID.  The record is accepted with a reference whose record is fetched without its CID. -/
theorem attestations_bind_sample :
  (sampleRepository = sampleRepository ∧ SameOff [signaturesField] sampleRecord attestedRecord ∧
    SameOff [signatureField, cidField] sampleMetadata sampleProof) ∧
  ¬ ∀ record, record.Ordered sampleLibrary →
    verifyRecord sampleLibrary sampleResolvers record sampleRepository = .ok () →
      Pinned sampleLibrary sampleResolvers record
  := by
  have hbind := @attestations_bind_iff sampleLibrary multiformats_lawful Function.injective_id
  constructor
  · apply (hbind.1 (inputOf sampleRecord) (inputOf attestedRecord) (inputOf sampleMetadata)
      (inputOf sampleProof) sampleRepository sampleRepository sampleCid sampleRecord attestedRecord
      sampleMetadata sampleProof (inputOf_ordered sampleRecord_ordered)
      (inputOf_ordered attestedRecord_ordered) (inputOf_ordered sampleMetadata_ordered)
      (inputOf_ordered (sampleMetadata_ordered.insert _ (.string _))) rfl rfl rfl rfl
      (createAttestationCid_sample rfl rfl rfl) (createAttestationCid_sample rfl rfl rfl)).mpr
    exact ⟨rfl, rfl⟩
  · rw [hbind.2]
    intro h
    exact h (textOf "at://") (.object sampleProof) (inputOf sampleRecord)
      (inputOf_ordered sampleRecord_ordered) (by decide) rfl sampleProof_attests

/-- A `$sig` of the record and a repository of the metadata are overwritten before the CID is
computed, and a reference is accepted without a CID. -/
theorem attestations_unbound :
  (createAttestationCid sampleLibrary (inputOf sampleRecord) (inputOf sampleMetadata)
      sampleRepository = .ok sampleCid ∧
    createAttestationCid sampleLibrary (inputOf (insert sigField .null sampleRecord))
      (inputOf sampleMetadata) sampleRepository = .ok sampleCid ∧
    ¬ SameOff [signaturesField] sampleRecord (insert sigField .null sampleRecord)) ∧
  (createAttestationCid sampleLibrary (inputOf sampleRecord)
      (inputOf (insert repositoryField .null sampleMetadata)) sampleRepository = .ok sampleCid ∧
    ¬ SameOff [signatureField, cidField] sampleMetadata
      (insert repositoryField .null sampleMetadata)) ∧
  verifyRecord sampleLibrary sampleResolvers
      (withSignatures sampleRecord [bareReference (textOf "at://")]) sampleRepository = .ok () ∧
    ¬ Pinned sampleLibrary sampleResolvers
      (withSignatures sampleRecord [bareReference (textOf "at://")])
  := by
  refine ⟨⟨createAttestationCid_sample rfl rfl rfl, createAttestationCid_sample rfl rfl rfl, ?_⟩,
    ⟨createAttestationCid_sample rfl rfl rfl, ?_⟩, ?_, not_pinned_bareReference _ _⟩
  · intro h
    exact nomatch h sigField (by decide)
  · intro h
    exact nomatch h repositoryField (by decide)
  · have hrecord : (inputOf sampleRecord).toObject sampleLibrary = some sampleRecord := rfl
    exact verifyRecord_bareReference hrecord (by decide) rfl sampleProof_attests

end Atproto.Attestation
