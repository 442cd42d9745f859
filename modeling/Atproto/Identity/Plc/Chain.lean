import Atproto.Identity.Plc.Operation
import Mathlib.Data.List.Chain

/-!
# Chains of operations

A chain starts with a genesis operation, and each later operation names the CID of the one
before it and is signed under a rotation key of the one before it.  The validator checks
all of this except the signature of the genesis operation, for which no rotation key is in
force yet.
-/

namespace Atproto.Identity.Plc

open Atproto.Dasl Atproto.Repo Logic

/-! ### States -/

/-- The state of a DID. -/
structure PlcState where
  rotationKeys : List Text
  verificationMethods : List (Text × Text)
  alsoKnownAs : List Text
  services : List (Text × ServiceEndpoint)

namespace PlcState

def maxVerificationMethods : Nat := 10

/-- The state of a DID without operations. -/
def new : PlcState where
  rotationKeys := []
  verificationMethods := []
  alsoKnownAs := []
  services := []

/-- The first text of a list that has occurred before. -/
def firstDuplicate (seen : List Text) : List Text → Option Text
  | [] => none
  | text :: texts => if text ∈ seen then some text else firstDuplicate (text :: seen) texts

/-- The check that the keys of a state are few, distinct and written as DIDs. -/
def validate (state : PlcState) : Except PlcDidError Unit :=
  if state.rotationKeys.isEmpty then
    .error (.invalidRotationKeys "At least one rotation key is required")
  else if state.rotationKeys.length > 5 then
    .error (.tooManyEntries "rotation_keys" 5 state.rotationKeys.length)
  else
    match firstDuplicate [] state.rotationKeys with
    | some key => .error (.duplicateEntry "rotation_keys" key)
    | none =>
      match state.rotationKeys.find? fun key => !startsWith key didMethodKeyPrefix with
      | some key => .error (.invalidRotationKeys
          s!"Rotation key must be in did:key format: {string key}")
      | none =>
        if state.verificationMethods.length > maxVerificationMethods then
          .error (.tooManyEntries "verification_methods" maxVerificationMethods
            state.verificationMethods.length)
        else
          match state.verificationMethods.find? fun method =>
            !startsWith method.2 didMethodKeyPrefix with
          | some method => .error (.invalidVerificationMethods
              s!"Verification method '{string method.1}' must be in did:key format: {string method.2}")
          | none => .ok ()

end PlcState

/-! ### The validator -/

variable (library : Library)

/-- Read the public half of a rotation key. -/
def verifyingKey (key : Text) : Except PlcDidError KeyData :=
  match identifyKey library.toKeyLibrary key with
  | .error e => .error (.invalidRotationKeys s!"Failed to parse rotation key: {e.message}")
  | .ok data =>
    match toPublic library.toKeyLibrary data with
    | .error e => .error (.invalidRotationKeys s!"Failed to derive public key: {e.message}")
    | .ok publicKey => .ok publicKey

/-- Check that an operation at index `i` comes after the operation before it. -/
def checkPrev (i : Nat) (prevCid : Option Text) (operation : Operation) : Except PlcDidError Unit :=
  if i = 0 then
    if operation.prev.isSome then .error (.invalidPrev "Genesis operation must have prev = null")
    else .ok ()
  else
    match prevCid with
    | none => .error (.chainValidationFailed "Missing previous CID")
    | some expected =>
      match operation.prev with
      | none => .error (.invalidPrev "Non-genesis operation must have prev field")
      | some actual =>
        if actual ≠ expected then
          .error (.invalidPrev s!"Expected prev = {string expected}, got {string actual}")
        else .ok ()

/-- Check the signature of an operation at index `i` under the keys in force, if any. -/
def checkSignature (i : Nat) (state : PlcState) (operation : Operation) :
    Except PlcDidError Unit :=
  if !state.rotationKeys.isEmpty then do
    let verifyingKeys ← state.rotationKeys.mapM (verifyingKey library)
    operation.verify library verifyingKeys
  else if i > 0 then
    .error (.invalidRotationKeys "No rotation keys available for verification")
  else .ok ()

/-- The state after an operation. -/
def applyOperation : Operation → Except PlcDidError PlcState
  | .plcOperation rotationKeys verificationMethods alsoKnownAs services _ _ => do
    let state : PlcState := { rotationKeys, verificationMethods, alsoKnownAs, services }
    state.validate
    .ok state
  | .plcTombstone _ _ => .ok .new
  | .legacyCreate _ _ _ _ _ _ =>
    .error (.invalidOperationType "Legacy create operations not fully supported")

/-- Go through the operations from index `i` on. -/
def validateFrom (i : Nat) (state : PlcState) (prevCid : Option Text) :
    List Operation → Except PlcDidError PlcState
  | [] => .ok state
  | operation :: operations => do
    checkPrev i prevCid operation
    checkSignature library i state operation
    let state ← applyOperation operation
    let cid ← operation.cid library
    validateFrom (i + 1) state (some cid) operations

/-- Validate a chain; the result is the state after it. -/
def validateChain (operations : List Operation) : Except PlcDidError PlcState :=
  match operations with
  | [] => .error .emptyChain
  | genesis :: _ =>
    if !genesis.isGenesis then .error .firstOperationNotGenesis
    else validateFrom library 0 .new none operations

/-! ### What a valid chain is -/

/-- The operation carries a signature that verifies under one of some rotation keys. -/
def SignedUnder (keys : List Text) (operation : Operation) : Prop :=
  ∃ key ∈ keys, ∃ publicKey data signature, verifyingKey library key = .ok publicKey ∧
    operation.unsignedBytes = .ok data ∧
    library.base64urlDecode operation.signature = .ok signature ∧
    library.validate publicKey signature data = .ok ()

/-- The operation `b` comes right after `a`: it names the CID of `a` and is signed under a
rotation key of `a`, which is no tombstone. -/
structure Follows (a b : Operation) : Prop where
  prev : ∃ cid, a.cid library = .ok cid ∧ b.prev = some cid
  signed : ∃ keys, a.rotationKeys = some keys ∧ SignedUnder library keys b
  alive : a.isTombstone = false

/-- The genesis operation of a list is signed under one of its own rotation keys. -/
def GenesisSigned (operations : List Operation) : Prop :=
  ∃ genesis, operations.head? = some genesis ∧
    ∃ keys, genesis.rotationKeys = some keys ∧ SignedUnder library keys genesis

/-- The operations are a chain from a signed genesis operation on. -/
structure Sound (operations : List Operation) : Prop where
  genesis : ∃ genesis, operations.head? = some genesis ∧ genesis.isGenesis = true
  signed : GenesisSigned library operations
  chain : List.IsChain (Follows library) operations

/-! ### What the validator has checked -/

variable {library}

/-- What a signature check that succeeds has found. -/
theorem verify_eq_ok {operation : Operation} {keys : List KeyData}
    (h : operation.verify library keys = .ok ()) :
  ∃ key ∈ keys, ∃ data signature, operation.unsignedBytes = .ok data ∧
    library.base64urlDecode operation.signature = .ok signature ∧
    library.validate key signature data = .ok ()
  := by
  rw [Operation.verify] at h
  split at h
  · cases h
  · obtain ⟨data, hdata, hrest⟩ := bind_eq_ok.mp h
    obtain ⟨signature, hsignature, hany⟩ := bind_eq_ok.mp hrest
    split at hany
    · next hkeys =>
      obtain ⟨key, hkey, hvalid⟩ := List.any_eq_true.mp hkeys
      exact ⟨key, hkey, data, signature, hdata, mapError_eq_ok.mp hsignature, isOk_iff.mp hvalid⟩
    · cases hany

theorem checkSignature_eq_ok {i : Nat} {state : PlcState} {operation : Operation} (hi : i ≠ 0)
    (h : checkSignature library i state operation = .ok ()) :
  SignedUnder library state.rotationKeys operation
  := by
  rw [checkSignature] at h
  split at h
  · obtain ⟨keys, hkeys, hverify⟩ := bind_eq_ok.mp h
    obtain ⟨publicKey, hmem, data, signature, hdata, hsignature, hvalid⟩ := verify_eq_ok hverify
    obtain ⟨key, hkey, hpublic⟩ := mapM_eq_ok_mem hkeys hmem
    exact ⟨key, hkey, publicKey, data, signature, hpublic, hdata, hsignature, hvalid⟩
  · rw [if_pos (Nat.pos_of_ne_zero hi)] at h
    cases h

theorem checkPrev_eq_ok {i : Nat} {cid : Text} {operation : Operation} (hi : i ≠ 0)
    (h : checkPrev i (some cid) operation = .ok ()) :
  operation.prev = some cid
  := by
  rw [checkPrev, if_neg hi] at h
  cases hprev : operation.prev with
  | none =>
    rw [hprev] at h
    cases h
  | some actual =>
    rw [hprev] at h
    simp only at h
    split at h
    · cases h
    · next heq => rw [not_not.mp heq]

/-- The state after an operation that is no tombstone has the rotation keys of the
operation, and the state after a tombstone has none. -/
theorem applyOperation_eq_ok {operation : Operation} {state : PlcState}
    (h : applyOperation operation = .ok state) :
  operation.isTombstone = false ∧ operation.rotationKeys = some state.rotationKeys ∨
    state.rotationKeys = []
  := by
  cases operation with
  | plcOperation rotationKeys verificationMethods alsoKnownAs services prev sig =>
    obtain ⟨_, _, heq⟩ := bind_eq_ok.mp h
    cases heq
    exact Or.inl ⟨rfl, rfl⟩
  | plcTombstone prev sig =>
    cases h
    exact Or.inr rfl
  | legacyCreate signingKey recoveryKey handle service prev sig => cases h

theorem not_signedUnder_nil (operation : Operation) :
  ¬ SignedUnder library [] operation
  := by
  rintro ⟨key, hkey, -⟩
  cases hkey

/-- The validator goes through a chain, from the operation before the first one on. -/
theorem isChain_of_validateFrom {i : Nat} {state final : PlcState} {cid : Text}
    {last : Operation} {operations : List Operation} (hi : i ≠ 0)
    (hstate : applyOperation last = .ok state) (hcid : last.cid library = .ok cid)
    (h : validateFrom library i state (some cid) operations = .ok final) :
  List.IsChain (Follows library) (last :: operations)
  := by
  induction operations generalizing i state cid last with
  | nil => exact List.isChain_singleton last
  | cons operation operations ih =>
    obtain ⟨_, hprev, hrest⟩ := bind_eq_ok.mp h
    obtain ⟨_, hsigned, hrest⟩ := bind_eq_ok.mp hrest
    obtain ⟨next, happly, hrest⟩ := bind_eq_ok.mp hrest
    obtain ⟨nextCid, hnextCid, hrest⟩ := bind_eq_ok.mp hrest
    apply List.IsChain.cons_cons _ (ih (Nat.succ_ne_zero i) happly hnextCid hrest)
    have hunder := checkSignature_eq_ok hi hsigned
    obtain ⟨halive, hkeys⟩ | hnone := applyOperation_eq_ok hstate
    · exact ⟨⟨cid, hcid, checkPrev_eq_ok hi hprev⟩, ⟨_, hkeys, hunder⟩, halive⟩
    · rw [hnone] at hunder
      exact absurd hunder (not_signedUnder_nil operation)

/-- An accepted list of operations is a chain whose genesis operation is signed exactly if
the genesis operation happens to be signed: nothing checks it. -/
theorem validateChain_sound_iff {operations : List Operation} {state : PlcState}
    (h : validateChain library operations = .ok state) :
  Sound library operations ↔ GenesisSigned library operations
  := by
  constructor
  · exact Sound.signed
  · intro hsigned
    cases operations with
    | nil => cases h
    | cons genesis operations =>
      rw [validateChain] at h
      split at h
      · cases h
      · next hgenesis =>
        have hfirst : genesis.isGenesis = true := by simpa using hgenesis
        obtain ⟨_, _, hrest⟩ := bind_eq_ok.mp h
        obtain ⟨_, _, hrest⟩ := bind_eq_ok.mp hrest
        obtain ⟨next, happly, hrest⟩ := bind_eq_ok.mp hrest
        obtain ⟨cid, hcid, hrest⟩ := bind_eq_ok.mp hrest
        exact ⟨⟨genesis, rfl, hfirst⟩, hsigned,
          isChain_of_validateFrom (Nat.succ_ne_zero 0) happly hcid hrest⟩

/-! ### A chain of three operations -/

/-- A K-256 key. -/
def sampleKey : Text := textOf "did:key:zQ3shwqeRXREoX6NHkrNGgRpaWwW1bdLzCwQGktuHCoSz9SZF"

/-- The compressed point of the key. -/
def samplePoint : Bytes :=
  [3, 255, 139, 116, 27, 19, 236, 65, 240, 23, 89, 77, 235, 184, 223, 183, 160, 108, 164, 144,
   165, 112, 97, 44, 216, 2, 217, 107, 124, 88, 117, 165, 66]

/-- Another K-256 key. -/
def laterKey : Text := textOf "did:key:zQ3shcottJWptnFV7pr5VsuEUU9tjBkqjxXJ3tbAQK6ysvhfP"

/-- The compressed point of the other key. -/
def laterPoint : Bytes :=
  [2, 228, 202, 151, 154, 17, 170, 235, 223, 93, 195, 64, 71, 12, 20, 60, 0, 36, 186, 237, 8, 226,
   221, 70, 29, 18, 23, 70, 228, 60, 18, 101, 250]

/-- The signature of the genesis operation, in base64url. -/
def genesisSig : Text :=
  textOf "BTtSnZLN7vI0to3ywPokO5tMqgMDPK-SsH4jnjhxHiMqLR9yYyGNz3D4NOL7COVEPfsgxSuIOd0zBvRfuROFag"

/-- The bytes of the signature. -/
def genesisSignature : Bytes :=
  [5, 59, 82, 157, 146, 205, 238, 242, 52, 182, 141, 242, 192, 250, 36, 59, 155, 76, 170, 3, 3,
   60, 175, 146, 176, 126, 35, 158, 56, 113, 30, 35, 42, 45, 31, 114, 99, 33, 141, 207, 112, 248,
   52, 226, 251, 8, 229, 68, 61, 251, 32, 197, 43, 136, 57, 221, 51, 6, 244, 95, 185, 19, 133,
   106]

/-- The signature of the operation that hands the DID over to the other key, in base64url. -/
def updateSig : Text :=
  textOf "8nWKpi2jUMM-ANVYUrnkxGblwu7ly3Ezcvtj8pIlW1M4pDx_mr10wyO9UYoSC148RuSST4mLx1FR8cfszxLknw"

/-- The bytes of the signature. -/
def updateSignature : Bytes :=
  [242, 117, 138, 166, 45, 163, 80, 195, 62, 0, 213, 88, 82, 185, 228, 196, 102, 229, 194, 238,
   229, 203, 113, 51, 114, 251, 99, 242, 146, 37, 91, 83, 56, 164, 60, 127, 154, 189, 116, 195,
   35, 189, 81, 138, 18, 11, 94, 60, 70, 228, 146, 79, 137, 139, 199, 81, 81, 241, 199, 236, 207,
   18, 228, 159]

/-- The signature of the operation that takes the DID back, in base64url. -/
def recoverySig : Text :=
  textOf "Dtmr0aZsOAc1XtF-WsNpcuNAXc2fAc1xmFgUDBrpHjFd0MoQ5nGXeIuhFkp9JLLmXuzhXaEjx3fi11iJGsKwBg"

/-- The bytes of the signature. -/
def recoverySignature : Bytes :=
  [14, 217, 171, 209, 166, 108, 56, 7, 53, 94, 209, 126, 90, 195, 105, 114, 227, 64, 93, 205, 159,
   1, 205, 113, 152, 88, 20, 12, 26, 233, 30, 49, 93, 208, 202, 16, 230, 113, 151, 120, 139, 161,
   22, 74, 125, 36, 178, 230, 94, 236, 225, 93, 161, 35, 199, 119, 226, 215, 88, 137, 26, 194,
   176, 6]

/-- The signature of the tombstone, in base64url. -/
def tombstoneSig : Text :=
  textOf "YweHBrxkZyPZD-NTpq4Eh6ZwMPyZDnMbVA7iysxSQLlEqqYertBt2aKRGMf3E7WfwxWuUjVq1CreVS1NQ_mMCA"

/-- The bytes of the signature. -/
def tombstoneSignature : Bytes :=
  [99, 7, 135, 6, 188, 100, 103, 35, 217, 15, 227, 83, 166, 174, 4, 135, 166, 112, 48, 252, 153,
   14, 115, 27, 84, 14, 226, 202, 204, 82, 64, 185, 68, 170, 166, 30, 174, 208, 109, 217, 162,
   145, 24, 199, 247, 19, 181, 159, 195, 21, 174, 82, 53, 106, 212, 42, 222, 85, 45, 77, 67, 249,
   140, 8]

/-- The SHA-256 digest of the genesis operation. -/
def genesisDigest : Bytes :=
  [244, 169, 48, 255, 96, 221, 62, 68, 249, 35, 169, 226, 193, 197, 92, 48, 25, 62, 214, 4, 168,
   143, 58, 97, 13, 127, 30, 54, 67, 194, 27, 205]

/-- The CID of the genesis operation. -/
def genesisCid : Text := textOf "bafyreihuveyp6yg5hzcpsi5j4la4kxbqde7nmbfir45gcdl7dy3ehqq3zu"

/-- The SHA-256 digest of the operation that hands the DID over. -/
def updateDigest : Bytes :=
  [50, 203, 213, 124, 237, 135, 52, 115, 218, 111, 180, 34, 240, 170, 65, 90, 118, 136, 87, 215,
   222, 174, 229, 253, 48, 228, 136, 15, 14, 166, 196, 174]

/-- The CID of the operation that hands the DID over. -/
def updateCid : Text := textOf "bafyreibszpkxz3mhgrz5u35uelykuqk2o2efpv66v3s72mherahq5jwevy"

/-- The SHA-256 digest of the operation that takes the DID back. -/
def recoveryDigest : Bytes :=
  [69, 25, 111, 181, 152, 198, 217, 214, 128, 151, 15, 108, 61, 245, 236, 95, 58, 196, 156, 99,
   177, 242, 43, 207, 84, 67, 85, 150, 255, 203, 165, 138]

/-- The CID of the operation that takes the DID back. -/
def recoveryCid : Text := textOf "bafyreicfdfx3lggg3hlibfypnq67l3c7hlcjyy5r6iv46vcdkwlp7s5fri"

/-- The SHA-256 digest of the tombstone. -/
def tombstoneDigest : Bytes :=
  [63, 153, 153, 96, 184, 93, 141, 195, 122, 190, 7, 71, 244, 172, 7, 145, 97, 106, 190, 227, 246,
   222, 132, 221, 241, 124, 50, 130, 143, 123, 181, 7]

/-- The CID of the tombstone. -/
def tombstoneCid : Text := textOf "bafyreib7tgmwboc5rxbxvpqhi72kyb4rmfvl5y7w32cn34l4gkbi665va4"

/-- The SHA-256 digest of the legacy operation. -/
def legacyDigest : Bytes :=
  [58, 155, 46, 70, 102, 68, 231, 136, 205, 80, 215, 153, 37, 88, 221, 128, 150, 143, 179, 68,
   199, 133, 101, 102, 15, 50, 63, 247, 46, 83, 58, 31]

/-- The CID of the legacy operation. -/
def legacyCid : Text := textOf "bafyreib2tmxemzse46em2ugxtesvrxmas2h3grghqvswmdzsh73s4uz2d4"

/-- The SHA-256 digest of the genesis operation without its signature. -/
def unsignedGenesisDigest : Bytes :=
  [90, 48, 12, 235, 50, 224, 58, 226, 223, 83, 6, 30, 32, 53, 26, 240, 184, 182, 64, 40, 183, 59,
   85, 158, 183, 79, 18, 211, 127, 35, 250, 215]

/-- The CID of the genesis operation without its signature. -/
def unsignedGenesisCid : Text :=
  textOf "bafyreic2gagowmxahlrn6uygdyqdkgxqxc3eakfxhnkz5n2pcljx6i7224"
/-- A signature that the libraries below know: its text and its bytes, the key that it verifies
under, and the length of the bytes that were signed. -/
structure KnownSignature where
  sig : Text
  signature : Bytes
  signer : Bytes
  messageLength : Nat

/-- The signatures of the operations below. -/
def knownSignatures : List KnownSignature :=
  [⟨genesisSig, genesisSignature, samplePoint, 202⟩,
    ⟨updateSig, updateSignature, laterPoint, 222⟩,
    ⟨recoverySig, recoverySignature, samplePoint, 226⟩,
    ⟨tombstoneSig, tombstoneSignature, laterPoint, 86⟩]

/-- The digest and the CID of an operation whose encoding has some length. -/
structure KnownCid where
  length : Nat
  digest : Bytes
  cid : Text

/-- The CIDs of the operations below, whose encodings have different lengths. -/
def knownCids : List KnownCid :=
  [⟨294, genesisDigest, genesisCid⟩,
    ⟨314, updateDigest, updateCid⟩,
    ⟨318, recoveryDigest, recoveryCid⟩,
    ⟨178, tombstoneDigest, tombstoneCid⟩,
    ⟨270, legacyDigest, legacyCid⟩,
    ⟨207, unsignedGenesisDigest, unsignedGenesisCid⟩]

/-- Multibase decoding of the two keys. -/
def sampleMultibase (bytes : Bytes) : Except String Bytes :=
  if bytes = didMethodKeyValue sampleKey then .ok (0xe7 :: 0x01 :: samplePoint)
  else if bytes = didMethodKeyValue laterKey then .ok (0xe7 :: 0x01 :: laterPoint)
  else .error "invalid multibase"

/-- Base64url decoding of the signatures and of the empty text. -/
def sampleBase64 (text : Text) : Except String Bytes :=
  match knownSignatures.find? fun known => decide (known.sig = text) with
  | some known => .ok known.signature
  | none => if text = .empty then .ok [] else .error "invalid base64url"

/-- The check of the signatures under the two keys. -/
def sampleValidate (key : KeyData) (signature message : Bytes) : Except KeyError Unit :=
  if knownSignatures.any fun known => decide (known.signer = key.bytes) &&
      decide (known.signature = signature) && decide (known.messageLength = message.length) then
    .ok ()
  else .error (.signatureError "signature error")

/-- The SHA-256 digests of the operations. -/
def sampleSha256 (bytes : Bytes) : Bytes :=
  ((knownCids.find? fun known => decide (known.length = bytes.length)).map (·.digest)).getD []

/-- The text forms of the CIDs. -/
def sampleCidText (cid : Cid) : Text :=
  ((knownCids.find? fun known => decide (known.digest = cid.digest)).map (·.cid)).getD .empty

/-- Libraries that know these operations. -/
def sampleLibrary : Library where
  multibaseDecode := sampleMultibase
  derivePublic := .ok
  validate := sampleValidate
  sha256 := sampleSha256
  cidText := sampleCidText
  base64urlDecode := sampleBase64

/-- A genesis operation with two rotation keys. -/
def sampleGenesis (sig : Text) : Operation :=
  .plcOperation [sampleKey, laterKey] [] [] [] none sig

/-- The second key alone is in force, by an operation that it has signed. -/
def sampleUpdate : Operation :=
  .plcOperation [laterKey] [] [textOf "at://lower.example"] [] (some genesisCid) updateSig

/-- The tombstone after it. -/
def sampleTombstone : Operation := .plcTombstone updateCid tombstoneSig

/-- The three operations. -/
def sampleChain : List Operation := [sampleGenesis genesisSig, sampleUpdate, sampleTombstone]

/-- An operation that verifies under a key that is in force is signed. -/
theorem signedUnder_of_verify {library : Library} {keys : List Text} {key : Text}
    {publicKey : KeyData} {operation : Operation} (hkey : key ∈ keys)
    (hpublic : verifyingKey library key = .ok publicKey)
    (hverify : operation.verify library [publicKey] = .ok ()) :
  SignedUnder library keys operation
  := by
  obtain ⟨found, hfound, data, signature, hdata, hsignature, hvalid⟩ := verify_eq_ok hverify
  rw [List.mem_singleton.mp hfound] at hvalid
  exact ⟨key, hkey, publicKey, data, signature, hpublic, hdata, hsignature, hvalid⟩

theorem validateChain_sound_iff_sample :
  (∃ state, validateChain sampleLibrary sampleChain = .ok state) ∧ Sound sampleLibrary sampleChain
  := by
  obtain ⟨state, h⟩ := exists_eq_ok (by decide +kernel :
    (validateChain sampleLibrary sampleChain).toOption.isSome = true)
  obtain ⟨publicKey, hpublic, hverify⟩ := bind_eq_ok.mp (by decide +kernel :
    (verifyingKey sampleLibrary sampleKey >>= fun publicKey =>
      (sampleGenesis genesisSig).verify sampleLibrary [publicKey]) = .ok ())
  have hsigned : SignedUnder sampleLibrary [sampleKey, laterKey] (sampleGenesis genesisSig) :=
    signedUnder_of_verify List.mem_cons_self hpublic hverify
  exact ⟨⟨state, h⟩, (validateChain_sound_iff h).mpr ⟨_, rfl, _, rfl, hsigned⟩⟩

/-- A genesis operation without a signature is accepted. -/
theorem validateChain_unsignedGenesis :
  ¬ ∀ (library : Library) (operations : List Operation) (state : PlcState),
    validateChain library operations = .ok state → Sound library operations
  := by
  intro hclaim
  obtain ⟨state, h⟩ := exists_eq_ok (by decide +kernel :
    (validateChain sampleLibrary [sampleGenesis .empty]).toOption.isSome = true)
  obtain ⟨_, hhead, keys, hkeys, key, hkey, publicKey, data, signature, -, -, hsignature, hvalid⟩ :=
    (hclaim _ _ _ h).signed
  cases hhead
  have hempty : sampleLibrary.base64urlDecode Text.empty = .ok [] := by decide +kernel
  obtain rfl : [] = signature := Except.ok.inj (hempty.symm.trans hsignature)
  have hnone : sampleValidate publicKey [] data = .error (.signatureError "signature error") := by
    rw [sampleValidate, if_neg]
    simp [knownSignatures, genesisSignature, updateSignature, recoverySignature,
      tombstoneSignature]
  cases hnone.symm.trans hvalid

end Atproto.Identity.Plc
