import Atproto.Identity.Key
import Atproto.Space.SetHash
import Atproto.Wire.BigEndian

/-!
# Commits of a permissioned repository

A commit holds the hash of a repository, a MAC of the hash and a signature of the context, which
also keys the MAC.  The context is written with the lengths of its fields, of which two bytes
are kept.  Contexts with fields that are not too long are written differently, and what was
signed in one of them is refused in any other.
-/

namespace Atproto.Space

open Dasl Identity Repo Wire

/-- What a commit is bound to. -/
structure SpaceContext where
  space : Text
  author : Text
  rev : Text

/-- The start of every context. -/
def domainPrefix : Bytes := (textOf "atproto-space-v1").bytes

/-- A field behind the last two bytes of its length. -/
def lengthPrefixed (field : Bytes) : Bytes := beBytes 2 field.length ++ field

/-- Write a context with the bytes that are drawn for a commit. -/
def encodeCtx (context : SpaceContext) (ikm : Bytes) : Bytes :=
  domainPrefix ++ [context.space.bytes, context.author.bytes, context.rev.bytes, ikm].flatMap
    lengthPrefixed

/-- The one version of commits. -/
def commitVersion : UInt32 := 1

structure Commit where
  ver : UInt32
  hash : Bytes
  mac : Bytes
  ikm : Bytes
  sig : Bytes
  rev : Text

/-- What is given: the curves, and the key derivation and the MAC on SHA-256. -/
structure CommitLibrary where
  keys : KeyLibrary
  sign : KeyData → Bytes → Except KeyError Bytes
  hkdfExpand : Bytes → Bytes → Bytes
  hmacSha256 : Bytes → Bytes → Bytes

/-- The number of bytes that are drawn for a commit. -/
def ikmLength : Nat := 32

/-- The bytes that are drawn for a commit. -/
abbrev Ikm : Type := { bytes : Bytes // bytes.length = ikmLength }

variable (lib : CommitLibrary)

/-- The key of the MAC. -/
def hmacKey (ikm ctx : Bytes) : Except SpaceError Bytes :=
  if ikm.length < ikmLength then
    .error (.hkdf "invalid prk: invalid pseudorandom key length, too short")
  else .ok (lib.hkdfExpand ikm ctx)

/-- The MAC of a hash. -/
def deriveMac (ikm hash ctx : Bytes) : Except SpaceError Bytes := do
  let key ← hmacKey lib ikm ctx
  .ok (lib.hmacSha256 key hash)

/-- Make a commit for a hash. -/
def createCommitWithIkm (hash : Bytes) (context : SpaceContext) (signingKey : KeyData)
    (ikm : Ikm) : Except SpaceError Commit :=
  if context.rev = Text.empty then .error (.contextEncoding "rev must be non-empty")
  else do
    let ctx := encodeCtx context ikm.val
    let mac ← deriveMac lib ikm.val hash ctx
    let sig ← (lib.sign signingKey ctx).mapError fun error => .signature error.message
    .ok { ver := commitVersion, hash := hash, mac := mac, ikm := ikm.val, sig := sig,
          rev := context.rev }

/-- Make a commit for a set hash, with bytes that are drawn for it. -/
def createCommit {H : Type} (digest : H → Bytes) (setHash : H) (context : SpaceContext)
    (signingKey : KeyData) (ikm : Ikm) : Except SpaceError Commit :=
  createCommitWithIkm lib (digest setHash) context signingKey ikm

/-- Refuse a commit of another version. -/
def checkCommitVersion (commit : Commit) : Except SpaceError Unit :=
  if commit.ver ≠ commitVersion then .error (.unsupportedCommitVersion commit.ver) else .ok ()

/-- Check the MAC of a commit in a context. -/
def verifyCommit (context : SpaceContext) (commit : Commit) : Except SpaceError Unit := do
  checkCommitVersion commit
  if commit.ikm.length ≠ ikmLength then
    .error (.hkdf s!"ikm must be 32 bytes, got {commit.ikm.length}")
  else do
    let ctx := encodeCtx context commit.ikm
    let mac ← deriveMac lib commit.ikm commit.hash ctx
    if mac.length ≠ commit.mac.length then .error .commitTagMismatch
    else do
      let key ← hmacKey lib commit.ikm ctx
      if lib.hmacSha256 key commit.hash = commit.mac then .ok () else .error .commitTagMismatch

/-- Check the signature of a commit in a context. -/
def verifyCommitSignature (context : SpaceContext) (commit : Commit) (verifyingKey : KeyData) :
    Except SpaceError Unit :=
  (lib.keys.validate verifyingKey commit.sig (encodeCtx context commit.ikm)).mapError
    fun _ => .commitSignatureInvalid

/-! ### Contexts that are written differently -/

/-- No field is too long for its length to be written. -/
structure SpaceContext.Bounded (context : SpaceContext) : Prop where
  space : context.space.bytes.length < 2 ^ 16
  author : context.author.bytes.length < 2 ^ 16
  rev : context.rev.bytes.length < 2 ^ 16

theorem lengthPrefixed_append_inj {a b rest rest' : Bytes} (ha : a.length < 2 ^ 16)
    (hb : b.length < 2 ^ 16) (h : lengthPrefixed a ++ rest = lengthPrefixed b ++ rest') :
  a = b ∧ rest = rest'
  := by
  rw [lengthPrefixed, lengthPrefixed, List.append_assoc, List.append_assoc] at h
  obtain ⟨hfront, htail⟩ := List.append_inj h (by simp)
  have hlength : a.length = b.length := by
    rw [← beValue_beBytes (n := 2) ha, ← beValue_beBytes (n := 2) hb, hfront]
  exact List.append_inj htail hlength

theorem encodeCtx_eq (context : SpaceContext) (ikm : Bytes) :
  encodeCtx context ikm = domainPrefix ++ (lengthPrefixed context.space.bytes ++
    (lengthPrefixed context.author.bytes ++ (lengthPrefixed context.rev.bytes ++
      (lengthPrefixed ikm ++ []))))
  := rfl

/-- Contexts whose fields are not too long are written differently. -/
theorem encodeCtx_inj {c₁ c₂ : SpaceContext} {k₁ k₂ : Bytes} (h₁ : c₁.Bounded) (h₂ : c₂.Bounded)
    (hk₁ : k₁.length = ikmLength) (hk₂ : k₂.length = ikmLength)
    (h : encodeCtx c₁ k₁ = encodeCtx c₂ k₂) :
  c₁ = c₂ ∧ k₁ = k₂
  := by
  rw [encodeCtx_eq, encodeCtx_eq] at h
  obtain ⟨hspace, h⟩ := lengthPrefixed_append_inj h₁.space h₂.space (List.append_cancel_left h)
  obtain ⟨hauthor, h⟩ := lengthPrefixed_append_inj h₁.author h₂.author h
  obtain ⟨hrev, h⟩ := lengthPrefixed_append_inj h₁.rev h₂.rev h
  have hlt : ikmLength < 2 ^ 16 := by decide
  obtain ⟨hikm, -⟩ := lengthPrefixed_append_inj (hk₁ ▸ hlt) (hk₂ ▸ hlt) h
  obtain ⟨space, author, rev⟩ := c₁
  cases Text.ext hspace
  cases Text.ext hauthor
  cases Text.ext hrev
  exact ⟨rfl, hikm⟩

/-- In one context, different bytes are written differently. -/
theorem ikm_of_encodeCtx {context : SpaceContext} {k₁ k₂ : Bytes}
    (h : encodeCtx context k₁ = encodeCtx context k₂) :
  k₁ = k₂
  := by
  rw [encodeCtx_eq, encodeCtx_eq] at h
  have hikm := List.append_cancel_left (List.append_cancel_left (List.append_cancel_left
    (List.append_cancel_left h)))
  rw [List.append_nil, List.append_nil, lengthPrefixed, lengthPrefixed] at hikm
  exact (List.append_inj hikm (by simp)).2

/-! ### When a commit is accepted -/

variable {lib}

theorem deriveMac_eq {ikm hash ctx : Bytes} (h : ikm.length = ikmLength) :
  deriveMac lib ikm hash ctx = .ok (lib.hmacSha256 (lib.hkdfExpand ikm ctx) hash)
  := by
  rw [deriveMac, hmacKey, if_neg (by omega)]
  rfl

/-- A commit that is made holds the MAC of the hash and the signature of the context. -/
theorem createCommitWithIkm_eq_ok {hash : Bytes} {context : SpaceContext} {signingKey : KeyData}
    {ikm : Ikm} {commit : Commit} :
  createCommitWithIkm lib hash context signingKey ikm = .ok commit ↔
    context.rev ≠ Text.empty ∧ ∃ sig,
      lib.sign signingKey (encodeCtx context ikm.val) = .ok sig ∧
      commit = { ver := commitVersion, hash := hash,
                 mac := lib.hmacSha256 (lib.hkdfExpand ikm.val (encodeCtx context ikm.val)) hash,
                 ikm := ikm.val, sig := sig, rev := context.rev }
  := by
  rw [createCommitWithIkm]
  by_cases hrev : context.rev = Text.empty
  · rw [if_pos hrev]
    exact ⟨nofun, fun h => absurd hrev h.1⟩
  · rw [if_neg hrev]
    constructor
    · intro h
      obtain ⟨mac, hmac, h⟩ := Logic.bind_eq_ok.mp h
      obtain ⟨sig, hsig, h⟩ := Logic.bind_eq_ok.mp h
      rw [deriveMac_eq ikm.property] at hmac
      cases hmac
      cases h
      exact ⟨hrev, sig, Logic.mapError_eq_ok.mp hsig, rfl⟩
    · rintro ⟨-, sig, hsig, rfl⟩
      apply Logic.bind_eq_ok.mpr ⟨_, deriveMac_eq ikm.property, _⟩
      exact Logic.bind_eq_ok.mpr ⟨sig, Logic.mapError_eq_ok.mpr hsig, rfl⟩

theorem checkCommitVersion_eq_ok {commit : Commit} :
  checkCommitVersion commit = .ok () ↔ commit.ver = commitVersion
  := by
  rw [checkCommitVersion]
  by_cases hver : commit.ver = commitVersion
  · rw [if_neg (not_not.mpr hver)]
    exact iff_of_true rfl hver
  · rw [if_pos hver]
    exact iff_of_false nofun hver

/-- The MAC of a commit is accepted when it is the one of the hash. -/
theorem verifyCommit_eq_ok {context : SpaceContext} {commit : Commit} :
  verifyCommit lib context commit = .ok () ↔
    commit.ver = commitVersion ∧ commit.ikm.length = ikmLength ∧
      commit.mac =
        lib.hmacSha256 (lib.hkdfExpand commit.ikm (encodeCtx context commit.ikm)) commit.hash
  := by
  constructor
  · intro h
    obtain ⟨⟨⟩, hver, h⟩ := Logic.bind_eq_ok.mp h
    split_ifs at h with hlength
    have hikm : commit.ikm.length = ikmLength := not_not.mp hlength
    obtain ⟨mac, hmac, h⟩ := Logic.bind_eq_ok.mp h
    split_ifs at h with hsize
    obtain ⟨key, hkey, h⟩ := Logic.bind_eq_ok.mp h
    split_ifs at h with hequal
    rw [hmacKey, if_neg (by omega)] at hkey
    cases hkey
    exact ⟨checkCommitVersion_eq_ok.mp hver, hikm, hequal.symm⟩
  · rintro ⟨hver, hikm, hmac⟩
    apply Logic.bind_eq_ok.mpr ⟨(), checkCommitVersion_eq_ok.mpr hver, _⟩
    rw [if_neg (not_not.mpr hikm)]
    apply Logic.bind_eq_ok.mpr ⟨_, deriveMac_eq hikm, _⟩
    rw [if_neg (not_not.mpr (congrArg List.length hmac.symm))]
    apply Logic.bind_eq_ok.mpr ⟨_, if_neg (by omega), _⟩
    rw [if_pos hmac.symm]

theorem verifyCommitSignature_eq_ok {context : SpaceContext} {commit : Commit}
    {verifyingKey : KeyData} :
  verifyCommitSignature lib context commit verifyingKey = .ok () ↔
    lib.keys.validate verifyingKey commit.sig (encodeCtx context commit.ikm) = .ok ()
  := Logic.mapError_eq_ok

variable (lib)

/-- A commit is accepted in a context, for its MAC and for its signature. -/
structure Accepts (verifyingKey : KeyData) (context : SpaceContext) (commit : Commit) :
    Prop where
  mac : verifyCommit lib context commit = .ok ()
  signature : verifyCommitSignature lib context commit verifyingKey = .ok ()

/-- A key is derived from the bytes that are drawn for a commit. -/
def CommitLibrary.Derived (key : Bytes) : Prop :=
  ∃ ikm ctx, ikm.length = ikmLength ∧ lib.hkdfExpand ikm ctx = key

/-- What is relied on: a key is derived from its bytes and its context alone, a MAC under such a
key is that of this key and one message, and a signature is accepted under the key that made it or
its public half, for what it was made of and nothing else, and it alone. -/
structure CommitLibrary.Ideal : Prop where
  hkdfExpand : ∀ ikm ikm' ctx ctx', ikm.length = ikmLength → ikm'.length = ikmLength →
    lib.hkdfExpand ikm ctx = lib.hkdfExpand ikm' ctx' → ikm = ikm' ∧ ctx = ctx'
  hmacSha256 : ∀ key key' message message', lib.Derived key → lib.Derived key' →
    lib.hmacSha256 key message = lib.hmacSha256 key' message' → key = key' ∧ message = message'
  signed : ∀ key keyData content sig, keyData = key ∨ toPublic lib.keys key = .ok keyData →
    lib.sign key content = .ok sig → lib.keys.validate keyData sig content = .ok ()
  only : ∀ key keyData content sig other, keyData = key ∨ toPublic lib.keys key = .ok keyData →
    lib.sign key content = .ok sig → lib.keys.validate keyData other content = .ok () →
    other = sig
  unforgeable : ∀ keyData sig content content', lib.keys.validate keyData sig content = .ok () →
    lib.keys.validate keyData sig content' = .ok () → content = content'

variable {lib}

/-! ### Commits are bound to their context -/

/-- Two commits agree in all that is checked. -/
structure Commit.SameChecked (a b : Commit) : Prop where
  ver : a.ver = b.ver
  hash : a.hash = b.hash
  mac : a.mac = b.mac
  ikm : a.ikm = b.ikm
  sig : a.sig = b.sig

/-- A commit differs from another in its hash and the MAC of it, or in the bytes that were drawn,
the signature and the MAC. -/
structure Commit.Remade (changed commit : Commit) : Prop where
  ver : changed.ver = commit.ver
  mac : changed.mac ≠ commit.mac
  together :
    changed.hash ≠ commit.hash ∧ changed.ikm = commit.ikm ∧ changed.sig = commit.sig ∨
      changed.ikm ≠ commit.ikm ∧ changed.sig ≠ commit.sig

/-- A commit that is made is accepted. -/
theorem accepts_of_create (hlib : lib.Ideal) {hash : Bytes} {context : SpaceContext}
    {signingKey verifyingKey : KeyData} {ikm : Ikm} {commit : Commit}
    (hhalf : verifyingKey = signingKey ∨ toPublic lib.keys signingKey = .ok verifyingKey)
    (h : createCommitWithIkm lib hash context signingKey ikm = .ok commit) :
  Accepts lib verifyingKey context commit
  := by
  obtain ⟨-, sig, hsig, rfl⟩ := createCommitWithIkm_eq_ok.mp h
  constructor
  · exact verifyCommit_eq_ok.mpr ⟨rfl, ikm.property, rfl⟩
  · exact verifyCommitSignature_eq_ok.mpr (hlib.signed _ _ _ _ hhalf hsig)

/-- A signature is accepted in one context, apart from those that are written alike. -/
theorem ctx_of_accepts (hlib : lib.Ideal) {verifyingKey : KeyData} {c₁ c₂ : SpaceContext}
    {a b : Commit} (hsig : a.sig = b.sig) (ha : Accepts lib verifyingKey c₁ a)
    (hb : Accepts lib verifyingKey c₂ b) :
  encodeCtx c₁ a.ikm = encodeCtx c₂ b.ikm
  := by
  have hvalid := verifyCommitSignature_eq_ok.mp ha.signature
  rw [hsig] at hvalid
  exact hlib.unforgeable _ _ _ _ hvalid (verifyCommitSignature_eq_ok.mp hb.signature)

/-- A MAC that is accepted is that of one hash, under the key of some bytes in one context. -/
theorem drawn_of_mac (hlib : lib.Ideal) {c₁ c₂ : SpaceContext} {a b : Commit}
    (hmac : a.mac = b.mac) (ha : verifyCommit lib c₁ a = .ok ())
    (hb : verifyCommit lib c₂ b = .ok ()) :
  a.ikm = b.ikm ∧ a.hash = b.hash
  := by
  obtain ⟨-, hlength, heq⟩ := verifyCommit_eq_ok.mp ha
  obtain ⟨-, hlength', heq'⟩ := verifyCommit_eq_ok.mp hb
  rw [heq, heq'] at hmac
  obtain ⟨hkey, hhash⟩ := hlib.hmacSha256 _ _ _ _ ⟨_, _, hlength, rfl⟩ ⟨_, _, hlength', rfl⟩ hmac
  exact ⟨(hlib.hkdfExpand _ _ _ _ hlength hlength' hkey).1, hhash⟩

/-- A commit that is made is refused in other contexts, and in its own with other values, unless
the MAC goes with the hash, or the MAC and the signature with the bytes that are drawn. -/
theorem commit_bound (hlib : lib.Ideal) :
  (∀ (c₁ c₂ : SpaceContext) (k₁ k₂ : Ikm), c₁.Bounded → c₂.Bounded →
    encodeCtx c₁ k₁.val = encodeCtx c₂ k₂.val → c₁ = c₂ ∧ k₁ = k₂) ∧
  ∀ {H : Type} (digest : H → Bytes) (setHash : H) (context : SpaceContext)
    (signingKey verifyingKey : KeyData) (ikm : Ikm) (commit : Commit),
    (verifyingKey = signingKey ∨ toPublic lib.keys signingKey = .ok verifyingKey) →
    createCommit lib digest setHash context signingKey ikm = .ok commit →
    Accepts lib verifyingKey context commit ∧
    (∀ other changed, context.Bounded → other.Bounded → other ≠ context →
      changed.sig = commit.sig → ¬ Accepts lib verifyingKey other changed) ∧
    ∀ changed, Accepts lib verifyingKey context changed →
      changed.SameChecked commit ∨ changed.Remade commit
  := by
  constructor
  · intro c₁ c₂ k₁ k₂ h₁ h₂ h
    obtain ⟨hcontext, hikm⟩ := encodeCtx_inj h₁ h₂ k₁.property k₂.property h
    exact ⟨hcontext, Subtype.ext hikm⟩
  · intro H digest setHash context signingKey verifyingKey ikm commit hhalf hcreate
    have haccepts := accepts_of_create hlib hhalf hcreate
    obtain ⟨hver, hlength, hmac⟩ := verifyCommit_eq_ok.mp haccepts.mac
    refine ⟨haccepts, ?_, ?_⟩
    · intro other changed hbounded hother hne hsig hchanged
      obtain ⟨-, hlength', -⟩ := verifyCommit_eq_ok.mp hchanged.mac
      have hctx := ctx_of_accepts hlib hsig hchanged haccepts
      exact hne (encodeCtx_inj hother hbounded hlength' hlength hctx).1
    · intro changed hchanged
      obtain ⟨hver', hlength', hmac'⟩ := verifyCommit_eq_ok.mp hchanged.mac
      have hdrawn := fun h => drawn_of_mac hlib h hchanged.mac haccepts.mac
      by_cases hikm : changed.ikm = commit.ikm
      · have hsig : changed.sig = commit.sig := by
          have hvalid := verifyCommitSignature_eq_ok.mp hchanged.signature
          obtain ⟨-, sig, hsig, rfl⟩ := createCommitWithIkm_eq_ok.mp hcreate
          rw [hikm] at hvalid
          exact hlib.only _ _ _ _ _ hhalf hsig hvalid
        by_cases hhash : changed.hash = commit.hash
        · refine Or.inl ⟨hver'.trans hver.symm, hhash, ?_, hikm, hsig⟩
          rw [hmac', hmac, hikm, hhash]
        · exact Or.inr ⟨hver'.trans hver.symm, fun h => hhash (hdrawn h).2,
            Or.inl ⟨hhash, hikm, hsig⟩⟩
      · refine Or.inr ⟨hver'.trans hver.symm, fun h => hikm (hdrawn h).1, Or.inr ⟨hikm, ?_⟩⟩
        exact fun hsig => hikm (ikm_of_encodeCtx (ctx_of_accepts hlib hsig hchanged haccepts))

/-! ### Commits that are accepted twice -/

def sampleKey : KeyData where
  keyType := .k256Private
  bytes :=
    [157, 96, 125, 201, 180, 179, 154, 247, 60, 150, 37, 51, 166, 21, 140, 165, 222, 177, 55,
     172, 188, 219, 80, 226, 223, 11, 193, 193, 131, 190, 244, 184]

/-- The public half of the key. -/
def samplePublic : KeyData where
  keyType := .k256Public
  bytes :=
    [3, 255, 139, 116, 27, 19, 236, 65, 240, 23, 89, 77, 235, 184, 223, 183, 160, 108, 164, 144,
     165, 112, 97, 44, 216, 2, 217, 107, 124, 88, 117, 165, 66]

def sampleIkm : Ikm :=
  ⟨[252, 53, 238, 242, 39, 45, 158, 81, 7, 209, 78, 54, 8, 132, 215, 222, 200, 247, 31, 42,
    134, 224, 202, 20, 9, 71, 90, 176, 34, 155, 17, 118], rfl⟩

/-- The hash of the state of a repository. -/
def sampleHash : Bytes :=
  [115, 203, 146, 36, 251, 236, 128, 119, 87, 26, 46, 33, 89, 217, 42, 70, 134, 103, 193, 225,
   220, 41, 227, 229, 144, 66, 125, 77, 74, 14, 216, 171]

def sampleContext : SpaceContext where
  space := textOf "at://did:plc:owner/space/app.bsky.group/default"
  author := textOf "did:plc:author"
  rev := textOf "3jui7kd2z2y2e"

/-- The context of another author. -/
def otherContext : SpaceContext := { sampleContext with author := textOf "did:plc:someoneelse" }

def sampleCtx : Bytes := encodeCtx sampleContext sampleIkm.val

/-- The key that HKDF-Expand derives in the context. -/
def sampleMacKey : Bytes :=
  [136, 165, 25, 201, 75, 249, 103, 249, 109, 187, 23, 176, 5, 120, 86, 208, 179, 47, 67, 40,
   216, 246, 22, 88, 162, 8, 130, 219, 130, 18, 113, 149]

/-- The MAC of the hash under this key. -/
def sampleMac : Bytes :=
  [93, 113, 139, 249, 61, 1, 32, 41, 104, 129, 63, 70, 130, 212, 173, 161, 252, 160, 176, 171,
   175, 123, 35, 148, 21, 151, 68, 37, 89, 76, 252, 217]

/-- The signature of the context. -/
def sampleSig : Bytes :=
  [80, 100, 195, 129, 156, 228, 16, 31, 79, 79, 34, 68, 68, 189, 52, 67, 137, 184, 27, 55,
   102, 144, 190, 132, 105, 218, 221, 206, 41, 117, 162, 132, 127, 47, 241, 35, 241, 190, 10,
   106, 94, 24, 91, 225, 9, 243, 252, 126, 249, 188, 186, 207, 13, 102, 136, 9, 76, 123, 226,
   138, 16, 113, 213, 88]

/-- An input written behind zeros, so that it is longer than any of the values. -/
def padded (input : Bytes) : Bytes := List.replicate 65 0 ++ input

/-- A key and a message written one behind the other: a one stands before each byte of the key. -/
def paired (key message : Bytes) : Bytes := key.flatMap (fun byte => [1, byte]) ++ 0 :: message

/-- The signatures, keys and MACs of a library. -/
def sampleSign : Bytes → Bytes := Function.update padded sampleCtx sampleSig

def sampleExpand : Bytes × Bytes → Bytes :=
  Function.update (fun input => padded (input.1 ++ input.2)) (sampleIkm.val, sampleCtx) sampleMacKey

def sampleHmac : Bytes × Bytes → Bytes :=
  Function.update (fun input => padded (paired input.1 input.2)) (sampleMacKey, sampleHash) sampleMac

/-- A library with the values of the sample, in which every other input is written out. -/
def sampleLibrary : CommitLibrary where
  keys := {
    multibaseDecode := fun _ => .error "invalid multibase"
    derivePublic := fun key =>
      if key = sampleKey then .ok samplePublic else .error (.decodeError "unknown key")
    validate := fun _ sig content =>
      if sig = sampleSign content then .ok () else .error (.ecdsaError "signature error") }
  sign _ content := .ok (sampleSign content)
  hkdfExpand ikm ctx := sampleExpand (ikm, ctx)
  hmacSha256 key message := sampleHmac (key, message)

theorem padded_ne {input value : Bytes} (h : value.length < 65) :
  padded input ≠ value
  := by
  rintro rfl
  rw [padded, List.length_append, List.length_replicate] at h
  omega

theorem padded_inj {a b : Bytes} :
  padded a = padded b ↔ a = b
  := List.append_right_inj _

theorem paired_inj {key key' message message' : Bytes}
    (h : paired key message = paired key' message') :
  key = key' ∧ message = message'
  := by
  induction key generalizing key' with
  | nil =>
    cases key' with
    | nil => exact ⟨rfl, (List.cons.inj h).2⟩
    | cons byte key' => exact absurd (List.cons.inj h).1 (by decide)
  | cons byte key ih =>
    cases key' with
    | nil => exact absurd (List.cons.inj h).1 (by decide)
    | cons byte' key' =>
      obtain ⟨hbyte, hrest⟩ := List.cons.inj (List.cons.inj h).2
      obtain ⟨hkey, hmessage⟩ := ih hrest
      exact ⟨congrArg₂ List.cons hbyte hkey, hmessage⟩

/-- A function with one value changed is as injective as before, if the value is a new one. -/
theorem update_inj {α : Type} [DecidableEq α] {f : α → Bytes} {a x y : α} {value : Bytes}
    (hnew : ∀ x, f x ≠ value) (h : Function.update f a value x = Function.update f a value y) :
  x = y ∨ f x = f y
  := by
  rw [Function.update_apply, Function.update_apply] at h
  split_ifs at h with hx hy hy
  · exact Or.inl (hx.trans hy.symm)
  · exact absurd h.symm (hnew y)
  · exact absurd h (hnew x)
  · exact Or.inr h

theorem sampleSign_inj {content content' : Bytes} (h : sampleSign content = sampleSign content') :
  content = content'
  := by
  rcases update_inj (fun _ => padded_ne (by decide)) h with heq | heq
  · exact heq
  · exact padded_inj.mp heq

theorem sampleExpand_inj {input input' : Bytes × Bytes}
    (h : sampleExpand input = sampleExpand input') :
  input = input' ∨ input.1 ++ input.2 = input'.1 ++ input'.2
  := by
  rcases update_inj (fun _ => padded_ne (by decide)) h with heq | heq
  · exact Or.inl heq
  · exact Or.inr (padded_inj.mp heq)

theorem sampleHmac_inj {input input' : Bytes × Bytes} (h : sampleHmac input = sampleHmac input') :
  input = input'
  := by
  rcases update_inj (fun _ => padded_ne (by decide)) h with heq | heq
  · exact heq
  · obtain ⟨hkey, hmessage⟩ := paired_inj (padded_inj.mp heq)
    exact Prod.ext hkey hmessage

theorem sampleLibrary_validate {key : KeyData} {sig content : Bytes} :
  sampleLibrary.keys.validate key sig content = .ok () ↔ sig = sampleSign content
  := by
  constructor
  · intro h
    by_contra hne
    cases (if_neg hne).symm.trans h
  · intro h
    exact if_pos h

theorem sampleLibrary_ideal :
  sampleLibrary.Ideal
  where
  hkdfExpand ikm ikm' ctx ctx' hikm hikm' h := by
    rcases sampleExpand_inj h with heq | heq
    · exact Prod.mk.inj heq
    · exact List.append_inj heq (hikm.trans hikm'.symm)
  hmacSha256 _ _ _ _ _ _ h := Prod.mk.inj (sampleHmac_inj h)
  signed _ _ _ _ _ hsign := sampleLibrary_validate.mpr (Except.ok.inj hsign).symm
  only _ _ _ _ _ _ hsign hvalid :=
    (sampleLibrary_validate.mp hvalid).trans (Except.ok.inj hsign)
  unforgeable _ _ _ _ h h' :=
    sampleSign_inj ((sampleLibrary_validate.mp h).symm.trans (sampleLibrary_validate.mp h'))

theorem toPublic_sample :
  toPublic sampleLibrary.keys sampleKey = .ok samplePublic
  := rfl

/-- The commit that the library makes. -/
def commitOf (hash : Bytes) (context : SpaceContext) (ikm : Ikm) : Commit where
  ver := commitVersion
  hash := hash
  mac := sampleHmac (sampleExpand (ikm.val, encodeCtx context ikm.val), hash)
  ikm := ikm.val
  sig := sampleSign (encodeCtx context ikm.val)
  rev := context.rev

theorem createCommit_sample (hash : Bytes) {context : SpaceContext} (ikm : Ikm)
    (hrev : context.rev ≠ Text.empty) :
  createCommitWithIkm sampleLibrary hash context sampleKey ikm = .ok (commitOf hash context ikm)
  := createCommitWithIkm_eq_ok.mpr ⟨hrev, _, rfl, rfl⟩

/-- The commit of the sample, and one that says another hash. -/
def sampleCommit : Commit where
  ver := commitVersion
  hash := sampleHash
  mac := sampleMac
  ikm := sampleIkm.val
  sig := sampleSig
  rev := textOf "3jui7kd2z2y2e"

def forgedCommit : Commit := { sampleCommit with hash := [] }

theorem commitOf_sample :
  commitOf sampleHash sampleContext sampleIkm = sampleCommit
  := by
  have hkey : sampleExpand (sampleIkm.val, sampleCtx) = sampleMacKey := Function.update_self ..
  have hmac : sampleHmac (sampleMacKey, sampleHash) = sampleMac := Function.update_self ..
  have hsig : sampleSign sampleCtx = sampleSig := Function.update_self ..
  rw [sampleCtx] at hkey hsig
  rw [commitOf, hkey, hmac, hsig]
  rfl

/-- A commit that the private key makes is accepted under the public key, and refused by another
author or with another hash. -/
theorem commit_bound_sample :
  Accepts sampleLibrary samplePublic sampleContext sampleCommit ∧
    ¬ Accepts sampleLibrary samplePublic otherContext sampleCommit ∧
    ¬ Accepts sampleLibrary samplePublic sampleContext forgedCommit
  := by
  have hcreate := createCommit_sample sampleHash sampleIkm
    (show sampleContext.rev ≠ Text.empty by decide)
  rw [commitOf_sample] at hcreate
  obtain ⟨haccepts, hother, hchanged⟩ := (commit_bound sampleLibrary_ideal).2 id sampleHash
    sampleContext sampleKey samplePublic sampleIkm sampleCommit (Or.inr toPublic_sample) hcreate
  refine ⟨haccepts, hother otherContext _ ?_ ?_ ?_ rfl, ?_⟩
  · exact ⟨by decide, by decide, by decide⟩
  · exact ⟨by decide, by decide, by decide⟩
  · intro h
    exact absurd (congrArg SpaceContext.author h) (by decide)
  · intro hforged
    rcases hchanged forgedCommit hforged with hsame | hremade
    · exact absurd hsame.hash (by decide)
    · exact hremade.mac rfl

/-- A text of as many zeros as no longer fit into two bytes. -/
def longText : Text where
  bytes := List.replicate (2 ^ 16) 0
  utf8 := by
    apply isUtf8_of_ascii
    intro byte hbyte
    rw [List.eq_of_mem_replicate hbyte]
    decide

/-- A context with a long author, and one with a long space. -/
def longAuthor : SpaceContext := { sampleContext with space := Text.empty, author := longText }

def longSpace : SpaceContext := { sampleContext with space := longText, author := Text.empty }

/-- The two contexts are written alike. -/
theorem encodeCtx_long (ikm : Bytes) :
  encodeCtx longAuthor ikm = encodeCtx longSpace ikm
  := by
  have hempty : lengthPrefixed [] = List.replicate 2 0 := rfl
  have hlength : beBytes 2 (2 ^ 16) = List.replicate 2 0 := rfl
  have hlong : lengthPrefixed longText.bytes =
      List.replicate 2 0 ++ List.replicate (2 ^ 16) 0 := by
    rw [lengthPrefixed, longText, List.length_replicate, hlength]
  have hsame : lengthPrefixed [] ++ lengthPrefixed longText.bytes =
      lengthPrefixed longText.bytes ++ lengthPrefixed [] := by
    rw [hlong, hempty, List.replicate_append_replicate, List.replicate_append_replicate,
      List.replicate_append_replicate, Nat.add_comm]
  let rest := lengthPrefixed sampleContext.rev.bytes ++ (lengthPrefixed ikm ++ [])
  calc encodeCtx longAuthor ikm
      = domainPrefix ++ (lengthPrefixed [] ++ (lengthPrefixed longText.bytes ++ rest)) :=
        encodeCtx_eq longAuthor ikm
    _ = domainPrefix ++ (lengthPrefixed longText.bytes ++ (lengthPrefixed [] ++ rest)) := by
        rw [← List.append_assoc (lengthPrefixed []), hsame, List.append_assoc]
    _ = encodeCtx longSpace ikm := (encodeCtx_eq longSpace ikm).symm

/-- The commits that the library makes in the context of the sample are accepted. -/
theorem accepts_commitOf (hash : Bytes) (ikm : Ikm) :
  Accepts sampleLibrary samplePublic sampleContext (commitOf hash sampleContext ikm)
  := accepts_of_create sampleLibrary_ideal (Or.inr toPublic_sample)
      (createCommit_sample hash ikm (by decide))

/-- A commit is accepted in another context when the lengths of the fields do not fit, with another
hash when the MAC is changed as well, and with other bytes, or other bytes and another hash, when
the MAC and the signature are. -/
theorem commit_not_bound :
  (∃ commit, createCommitWithIkm sampleLibrary sampleHash longAuthor sampleKey sampleIkm =
      .ok commit ∧
    longSpace ≠ longAuthor ∧ Accepts sampleLibrary samplePublic longSpace commit) ∧
  ∃ commit, createCommitWithIkm sampleLibrary sampleHash sampleContext sampleKey sampleIkm =
      .ok commit ∧
    (∃ changed, Accepts sampleLibrary samplePublic sampleContext changed ∧
      changed.hash ≠ commit.hash ∧ changed.sig = commit.sig ∧ changed.ikm = commit.ikm) ∧
    (∃ changed, Accepts sampleLibrary samplePublic sampleContext changed ∧
      changed.ikm ≠ commit.ikm ∧ changed.hash = commit.hash) ∧
    ∃ changed, Accepts sampleLibrary samplePublic sampleContext changed ∧
      changed.ikm ≠ commit.ikm ∧ changed.hash ≠ commit.hash
  := by
  have hrev : sampleContext.rev ≠ Text.empty := by decide
  constructor
  · have hcreate := createCommit_sample sampleHash sampleIkm
      (show longAuthor.rev ≠ Text.empty from hrev)
    obtain ⟨hmac, hsig⟩ := accepts_of_create sampleLibrary_ideal (Or.inr toPublic_sample) hcreate
    refine ⟨_, hcreate, ?_, ?_, ?_⟩
    · intro h
      have hspace : (0 : Nat) = 2 ^ 16 := by
        rw [← @List.length_replicate UInt8 (2 ^ 16) 0]
        exact congrArg (fun context => context.space.bytes.length) h.symm
      exact absurd hspace (by decide)
    · rw [verifyCommit_eq_ok] at hmac ⊢
      rw [encodeCtx_long] at hmac
      exact hmac
    · rw [verifyCommitSignature_eq_ok] at hsig ⊢
      rw [← encodeCtx_long]
      exact hsig
  · refine ⟨_, createCommit_sample sampleHash sampleIkm hrev, ?_, ?_, ?_⟩
    · exact ⟨_, accepts_commitOf [] sampleIkm, by decide, rfl, rfl⟩
    · exact ⟨_, accepts_commitOf sampleHash ⟨List.replicate 32 1, rfl⟩, by decide, rfl⟩
    · exact ⟨_, accepts_commitOf [] ⟨List.replicate 32 1, rfl⟩, by decide, by decide⟩

end Atproto.Space
