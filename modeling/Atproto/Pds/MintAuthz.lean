import Atproto.Identity.Endpoint
import Atproto.Identity.Key
import Atproto.Logic.Machine
import Atproto.Pds.JtiReplay

/-!
# Attestations of clients

A client that asks for the credential of a space presents a short-lived token that it has signed.
The claims of the token are checked, its JTI is shown to the replay guard, and then the keys of the
client are fetched and the signature is checked.  Base64, JSON, URLs and the curves are given, and so
are the answers of the client's hosts.  Times are nanoseconds since the epoch, and the guard reads the same clock.
-/

namespace Atproto.Pds.MintAuthz

open Atproto.Dasl Atproto.Identity Atproto.Repo Logic JtiReplay

/-- Why an attestation is not accepted. -/
inductive MintDenial where
  | invalidClientAttestation (reason : String)
  | notAuthorized (reason : String)
deriving DecidableEq

def typClientAttestation : String := "atproto-client-attestation+jwt"

def maxAttestationLifetimeSecs : Nat := 300

/-- The header of an attestation. -/
structure AttestationHeader where
  typ : Option String
  kid : Option String

/-- The payload of an attestation. -/
structure AttestationPayload where
  iss : String
  sub : String
  aud : Option String
  iat : Option Nat
  exp : Option Nat
  jti : Option String

/-- A key of a client with its name. -/
structure WrappedJsonWebKey (Jwk : Type) where
  kid : Option String
  jwk : Jwk

/-- Where the keys of a client are. -/
structure ClientMetadata (Jwk : Type) where
  jwks : Option (List (WrappedJsonWebKey Jwk))
  jwksUri : Option String

/-- The libraries. -/
structure MintLibrary (Jwk : Type) where
  decodeBase64 : Bytes → Except String Bytes
  parseHeader : Bytes → Except String AttestationHeader
  parsePayload : Bytes → Except String AttestationPayload
  parseUrl : UrlLibrary
  toKeyData : Jwk → Except String KeyData
  validate : KeyData → Bytes → Bytes → Except String Unit

/-- What the host of a client answers.  A body that cannot be read was broken off or is another
document. -/
inductive HostAnswer (Document : Type) where
  | unreachable (error : String)
  | answered (status : Nat) (statusText : String) (body : Except (Bool × String) Document)

/-- What is fetched during a call. -/
structure ClientHosts (Jwk : Type) where
  metadata : String → HostAnswer (ClientMetadata Jwk)
  jwks : String → HostAnswer (List (WrappedJsonWebKey Jwk))

/-- Fetch a document of a client. -/
def fetchClientDocument {Document : Type} (url what : String) :
    HostAnswer Document → Except MintDenial Document
  | .unreachable error => .error (.notAuthorized s!"fetch {what} {url}: {error}")
  | .answered status statusText body =>
    if ¬ (200 ≤ status ∧ status < 300) then
      if 500 ≤ status ∧ status < 600 ∨ status = 429 then
        .error (.notAuthorized s!"{what} {url} status: {statusText}")
      else .error (.invalidClientAttestation s!"{what} {url} status: {statusText}")
    else
      match body with
      | .ok document => .ok document
      | .error (isDecode, error) =>
        if isDecode then .error (.invalidClientAttestation s!"parse {what} {url}: {error}")
        else .error (.notAuthorized s!"parse {what} {url}: {error}")

/-- The parts of an attestation. -/
structure Attestation where
  headerPart : Bytes
  payloadPart : Bytes
  signaturePart : Bytes
  header : AttestationHeader
  payload : AttestationPayload

/-- What the check of the claims has found. -/
structure Claims where
  clientId : String
  iat : Nat
  exp : Nat
  jti : String

/-- A call, with what is fetched during it. -/
structure Call (Jwk : Type) where
  attestation : Text
  now : Nat
  hosts : ClientHosts Jwk

/-- How a call ends. -/
inductive Outcome where
  | verified (clientId : String)
  | denied (denial : MintDenial)
  | panicked
deriving DecidableEq

/-- The attestation was accepted. -/
def Outcome.isVerified : Outcome → Bool
  | .verified _ => true
  | .denied _ => false
  | .panicked => false

/-- The seconds of a time. -/
def nowSecs (now : Nat) : Nat := now / 10 ^ 9

/-- The audience of the tokens for a space. -/
def spaceHostAudience (spaceDid : String) : String := s!"{spaceDid}#atproto_space_host"

/-- The server of a space. -/
structure SpaceHost (Jwk : Type) where
  library : MintLibrary Jwk
  spaceDid : String

namespace SpaceHost

variable {Jwk : Type} (host : SpaceHost Jwk)

/-- Take an attestation apart. -/
def readAttestation (attestation : Text) : Except MintDenial Attestation :=
  -- The parts stand between full stops.
  match attestation.bytes.splitOn 0x2e with
  | [headerPart, payloadPart, signaturePart] => do
    let headerBytes ← (host.library.decodeBase64 headerPart).mapError fun e =>
      .invalidClientAttestation s!"header not base64url: {e}"
    let header ← (host.library.parseHeader headerBytes).mapError fun e =>
      .invalidClientAttestation s!"header not JSON: {e}"
    let payloadBytes ← (host.library.decodeBase64 payloadPart).mapError fun e =>
      .invalidClientAttestation s!"payload not base64url: {e}"
    let payload ← (host.library.parsePayload payloadBytes).mapError fun e =>
      .invalidClientAttestation s!"payload not JSON: {e}"
    .ok ⟨headerPart, payloadPart, signaturePart, header, payload⟩
  | _ => .error (.invalidClientAttestation "attestation is not a compact JWS")

/-- The token is an attestation. -/
def checkTyp : Option String → Except MintDenial Unit
  | some typ => failIf (typ ≠ typClientAttestation)
      (.invalidClientAttestation s!"header typ {typ} is not {typClientAttestation}")
  | none => .error (.invalidClientAttestation "attestation header missing typ")

/-- The token is for this server. -/
def checkAudience (expectedAud : String) : Option String → Except MintDenial Unit
  | some aud => failIf (aud ≠ expectedAud) (.invalidClientAttestation
      s!"aud {aud} does not target space host {expectedAud}")
  | none => .error (.invalidClientAttestation "attestation missing aud")

/-- Check what an attestation claims. -/
def checkClaims (now : Nat) (attestation : Attestation) : Except MintDenial Claims := do
  let payload := attestation.payload
  checkTyp attestation.header.typ
  failIf (payload.iss ≠ payload.sub) (.invalidClientAttestation "iss != sub")
  (validateServiceEndpoint host.library.parseUrl payload.iss).mapError fun err =>
    .invalidClientAttestation
      s!"client_id is not a permitted endpoint: {payload.iss}: {err.message}"
  checkAudience (spaceHostAudience host.spaceDid) payload.aud
  let iat ← orFail (.invalidClientAttestation "attestation missing iat") payload.iat
  let exp ← orFail (.invalidClientAttestation "attestation missing exp") payload.exp
  failIf (exp ≤ nowSecs now) (.invalidClientAttestation "attestation expired")
  failIf (exp ≤ iat ∨ exp - iat > maxAttestationLifetimeSecs)
    (.invalidClientAttestation s!"attestation lifetime exceeds {maxAttestationLifetimeSecs}s")
  let jti ← orFail (.invalidClientAttestation "attestation missing jti") payload.jti
  .ok ⟨payload.iss, iat, exp, jti⟩

/-- The keys of a client.  Those in the metadata come before those at an address. -/
def resolveJwks (hosts : ClientHosts Jwk) (metadata : ClientMetadata Jwk) :
    Except MintDenial (List (WrappedJsonWebKey Jwk)) :=
  match metadata.jwks, metadata.jwksUri with
  | some jwks, _ => .ok jwks
  | none, some uri => do
    (validateServiceEndpoint host.library.parseUrl uri).mapError fun err =>
      .invalidClientAttestation s!"jwks_uri is not a permitted endpoint: {uri}: {err.message}"
    fetchClientDocument uri "jwks_uri" (hosts.jwks uri)
  | none, none =>
    .error (.invalidClientAttestation "client-metadata has neither jwks nor jwks_uri")

/-- The key that an attestation names, or the only one. -/
def selectKey (kid : Option String) (jwks : List (WrappedJsonWebKey Jwk)) :
    Except MintDenial (WrappedJsonWebKey Jwk) :=
  match kid, jwks with
  | some kid, jwks => orFail (.invalidClientAttestation s!"no JWK with kid {kid}")
      (jwks.find? fun key => key.kid = some kid)
  | none, [key] => .ok key
  | none, _ => .error (.invalidClientAttestation
      "attestation header has no kid and JWKS has multiple keys")

/-- Fetch the keys of the client and check the signature. -/
def verifySignature (hosts : ClientHosts Jwk) (attestation : Attestation) :
    Except MintDenial Unit := do
  let clientId := attestation.payload.iss
  let metadata ← fetchClientDocument clientId "client-metadata" (hosts.metadata clientId)
  let jwks ← host.resolveJwks hosts metadata
  let wrapped ← selectKey attestation.header.kid jwks
  let key ← (host.library.toKeyData wrapped.jwk).mapError fun e =>
    .invalidClientAttestation s!"JWK is not a usable verifying key: {e}"
  let signature ← (host.library.decodeBase64 attestation.signaturePart).mapError fun e =>
    .invalidClientAttestation s!"signature not base64url: {e}"
  (host.library.validate key signature
    (attestation.headerPart ++ 0x2e :: attestation.payloadPart)).mapError fun e =>
      .invalidClientAttestation s!"attestation signature invalid: {e}"

/-- What is checked before the guard is asked. -/
def beforeGuard (call : Call Jwk) : Except MintDenial (Attestation × Claims) := do
  let attestation ← host.readAttestation call.attestation
  let claims ← host.checkClaims call.now attestation
  .ok (attestation, claims)

/-- How long the guard has to keep a JTI. -/
def ttl (now : Nat) (claims : Claims) : Nat := (claims.exp - nowSecs now) * 10 ^ 9

/-- What follows when the guard has been asked. -/
def afterGuard (hosts : ClientHosts Jwk) (attestation : Attestation) (claims : Claims) :
    JtiReplay.Outcome × MemoryJti → Outcome × MemoryJti
  | (.panicked, state) => (.panicked, state)
  | (.refused _, state) =>
    (.denied (.invalidClientAttestation "attestation jti already used (replay)"), state)
  | (.accepted, state) =>
    match host.verifySignature hosts attestation with
    | .error denial => (.denied denial, state)
    | .ok () => (.verified claims.clientId, state)

/-- Verify the attestation of a client. -/
def verifyClientAttestation (state : MemoryJti) (call : Call Jwk) : Outcome × MemoryJti :=
  match host.beforeGuard call with
  | .error denial => (.denied denial, state)
  | .ok (attestation, claims) =>
    host.afterGuard call.hosts attestation claims
      (state.checkAndInsert call.now (ttl call.now claims) claims.jti)

/-- The guard after a call. -/
def step (state : MemoryJti) (call : Call Jwk) : MemoryJti :=
  (host.verifyClientAttestation state call).2

/-- The calls of a run, each with the decision on it. -/
def trace : MemoryJti → List (Call Jwk) → List (Call Jwk × Bool)
  | _, [] => []
  | state, call :: calls =>
    (call, (host.verifyClientAttestation state call).1.isVerified) ::
      trace (host.step state call) calls

/-! ### What a call asks the guard for -/

/-- The attestation is signed with a key of its client. -/
def isSigned (call : Call Jwk) : Bool :=
  match host.readAttestation call.attestation with
  | .error _ => false
  | .ok attestation => (host.verifySignature call.hosts attestation).isOk

/-- The JTI that a call asks for, and until when. -/
def asks (call : Call Jwk) : Option (String × Nat) :=
  match host.beforeGuard call with
  | .error _ => none
  | .ok (_, claims) =>
    if call.now + ttl call.now claims < instantLimit then
      some (claims.jti, call.now + ttl call.now claims)
    else none

/-- The guard loses no JTI in a call: it evicts none that has not expired, and has room for the one
that is asked for. -/
def GuardHolds (state : MemoryJti) (call : Call Jwk) : Prop :=
  ∀ checked ∈ (host.beforeGuard call).toOption,
    state.EvictsNoneLive ⟨checked.2.jti, call.now, ttl call.now checked.2⟩ () ∧
      state.HasRoom call.now

instance (state : MemoryJti) (call : Call Jwk) : Decidable (host.GuardHolds state call) :=
  inferInstanceAs (Decidable (∀ checked ∈ (host.beforeGuard call).toOption,
    (state.isFree call.now checked.2.jti = true →
      ∀ entry ∈ MemoryJti.expiredFront call.now state.insertionOrder,
        entry.1 ≠ checked.2.jti ∧ state.isFree call.now entry.1 = true) ∧
      state.HasRoom call.now))

/-- An attestation that is shown to the guard is not issued in the future. -/
def IsIssued (call : Call Jwk) : Prop :=
  ∀ checked ∈ (host.beforeGuard call).toOption, checked.2.iat ≤ nowSecs call.now

instance (call : Call Jwk) : Decidable (host.IsIssued call) :=
  inferInstanceAs (Decidable (∀ checked ∈ (host.beforeGuard call).toOption, _ ≤ _))

/-- Two calls do not ask for the same JTI. -/
def Apart (call call' : Call Jwk) : Prop :=
  ∀ asked ∈ host.asks call, ∀ asked' ∈ host.asks call', asked.1 ≠ asked'.1

instance (call call' : Call Jwk) : Decidable (host.Apart call call') :=
  inferInstanceAs (Decidable (∀ asked ∈ host.asks call, ∀ asked' ∈ host.asks call', _ ≠ _))

variable {host} {state : MemoryJti} {call : Call Jwk} {calls : List (Call Jwk)} {since : Nat}
  {history : List (String × Nat)} {attestation : Attestation} {claims : Claims}

theorem beforeGuard_eq_ok :
  host.beforeGuard call = .ok (attestation, claims) ↔
    host.readAttestation call.attestation = .ok attestation ∧
      host.checkClaims call.now attestation = .ok claims
  := by
  rw [beforeGuard, bind_eq_ok]
  constructor
  · rintro ⟨read, hread, h⟩
    obtain ⟨checked, hchecked, hpair⟩ := bind_eq_ok.mp h
    cases hpair
    exact ⟨hread, hchecked⟩
  · rintro ⟨hread, hchecked⟩
    exact ⟨attestation, hread, bind_eq_ok.mpr ⟨claims, hchecked, rfl⟩⟩

/-- Claims that are accepted are those of the payload, and they are in time. -/
theorem checkClaims_ok {now : Nat} (h : host.checkClaims now attestation = .ok claims) :
  attestation.payload.iat = some claims.iat ∧ attestation.payload.exp = some claims.exp ∧
    attestation.payload.jti = some claims.jti ∧ nowSecs now < claims.exp ∧
    claims.exp ≤ claims.iat + maxAttestationLifetimeSecs
  := by
  obtain ⟨u, -, h⟩ := bind_eq_ok.mp h
  obtain ⟨-, h⟩ := failIf_bind_eq_ok.mp h
  obtain ⟨u, -, h⟩ := bind_eq_ok.mp h
  obtain ⟨u, -, h⟩ := bind_eq_ok.mp h
  obtain ⟨iat, hiat, h⟩ := bind_eq_ok.mp h
  obtain ⟨exp, hexp, h⟩ := bind_eq_ok.mp h
  obtain ⟨hexpired, h⟩ := failIf_bind_eq_ok.mp h
  obtain ⟨hlifetime, h⟩ := failIf_bind_eq_ok.mp h
  obtain ⟨jti, hjti, h⟩ := bind_eq_ok.mp h
  cases h
  rw [orFail_eq_ok] at hiat hexp hjti
  refine ⟨hiat, hexp, hjti, Nat.lt_of_not_le hexpired, ?_⟩
  change exp ≤ iat + maxAttestationLifetimeSecs
  omega

/-- What a call does is to ask for its JTI, and then to check the signature. -/
theorem verifyClientAttestation_tracks (h : state.Tracks since history) (hnow : since ≤ call.now)
    (hholds : host.GuardHolds state call) :
  (host.verifyClientAttestation state call).1.isVerified =
      (Once.gives history call.now (host.asks call) && host.isSigned call) ∧
    (host.step state call).Tracks call.now (Once.record history call.now (host.asks call))
  := by
  rw [step, verifyClientAttestation, asks, isSigned]
  cases hbefore : host.beforeGuard call with
  | error denial => exact ⟨rfl, h.later hnow⟩
  | ok checked =>
    obtain ⟨attestation, claims⟩ := checked
    obtain ⟨hevict, hroom⟩ := hholds (attestation, claims) (by rw [hbefore]; rfl)
    rw [(beforeGuard_eq_ok.mp hbefore).1]
    dsimp only
    by_cases hlimit : call.now + ttl call.now claims < instantLimit
    · obtain ⟨hout, htracks⟩ := MemoryJti.checkAndInsert_tracks h hnow hlimit hevict hroom
      rw [if_pos hlimit, Once.gives]
      generalize state.checkAndInsert call.now (ttl call.now claims) claims.jti = result
        at hout htracks
      obtain ⟨out, state'⟩ := result
      cases htaken : Once.isTaken history call.now claims.jti with
      | true =>
        rw [htaken, if_pos rfl] at hout
        subst hout
        exact ⟨rfl, htracks⟩
      | false =>
        rw [htaken, if_neg Bool.false_ne_true] at hout
        subst hout
        rw [afterGuard]
        cases host.verifySignature call.hosts attestation with
        | error denial => exact ⟨rfl, htracks⟩
        | ok u => exact ⟨rfl, htracks⟩
    · rw [if_neg hlimit, MemoryJti.checkAndInsert, if_pos (Nat.not_lt.mp hlimit)]
      exact ⟨rfl, h.later hnow⟩

/-- In a run the attestations are accepted that are signed and get their JTI. -/
theorem trace_eq (htimely : calls.Pairwise fun a b => a.now ≤ b.now)
    (hsince : ∀ call ∈ calls, since ≤ call.now)
    (halong : Machine.Along host.step host.GuardHolds state calls)
    (h : state.Tracks since history) :
  host.trace state calls = (Once.trace Call.now host.asks history calls).map fun entry =>
    (entry.1, entry.2 && host.isSigned entry.1)
  := by
  induction calls generalizing state since history with
  | nil => rfl
  | cons call calls ih =>
    obtain ⟨hle, htimely⟩ := List.pairwise_cons.mp htimely
    obtain ⟨hholds, halong⟩ := halong
    have hnow := hsince call List.mem_cons_self
    obtain ⟨hverified, htracks⟩ := verifyClientAttestation_tracks h hnow hholds
    rw [trace, Once.trace, List.map_cons, hverified, ih htimely hle halong htracks]

theorem asks_eq_some {jti : String} {deadline : Nat} (h : host.asks call = some (jti, deadline)) :
  ∃ attestation claims, host.beforeGuard call = .ok (attestation, claims) ∧ claims.jti = jti ∧
    call.now + ttl call.now claims = deadline
  := by
  rw [asks] at h
  cases hbefore : host.beforeGuard call with
  | error denial =>
    rw [hbefore] at h
    cases h
  | ok checked =>
    obtain ⟨attestation, claims⟩ := checked
    rw [hbefore] at h
    dsimp only at h
    by_cases hlimit : call.now + ttl call.now claims < instantLimit
    · rw [if_pos hlimit, Option.some.injEq, Prod.mk.injEq] at h
      exact ⟨attestation, claims, rfl, h.1, h.2⟩
    · rw [if_neg hlimit] at h
      cases h

/-- The guard keeps a JTI until its attestation has expired. -/
theorem le_deadline {now : Nat} (h : nowSecs now < claims.exp) :
  claims.exp * 10 ^ 9 ≤ now + ttl now claims
  := by
  have hsum : nowSecs now * 10 ^ 9 + ttl now claims = claims.exp * 10 ^ 9 := by
    rw [ttl, ← Nat.add_mul, Nat.add_sub_of_le h.le]
  rw [← hsum]
  exact Nat.add_le_add_right (Nat.div_mul_le_self now _) _

/-- An attestation that has been given its JTI is not given it again. -/
theorem not_asked_again {call' : Call Jwk} {asked asked' : String × Nat}
    (hasked : host.asks call = some asked) (hasked' : host.asks call' = some asked')
    (hsame : call.attestation = call'.attestation)
    (hexpired : asked.1 = asked'.1 → asked.2 < call'.now) :
  False
  := by
  obtain ⟨attestation, claims, hbefore, hjti, hdeadline⟩ := asks_eq_some hasked
  obtain ⟨attestation', claims', hbefore', hjti', -⟩ := asks_eq_some hasked'
  obtain ⟨hread, hchecked⟩ := beforeGuard_eq_ok.mp hbefore
  obtain ⟨hread', hchecked'⟩ := beforeGuard_eq_ok.mp hbefore'
  rw [hsame, hread'] at hread
  cases hread
  obtain ⟨-, hexp, hpayload, hlive, -⟩ := checkClaims_ok hchecked
  obtain ⟨-, hexp', hpayload', hlive', -⟩ := checkClaims_ok hchecked'
  rw [hexp', Option.some.injEq] at hexp
  rw [hpayload', Option.some.injEq] at hpayload
  have hlt := hexpired (by rw [← hjti, ← hjti', hpayload])
  rw [← hdeadline] at hlt
  have hle := le_deadline hlive
  have hnow : call'.now < claims'.exp * 10 ^ 9 :=
    (Nat.div_lt_iff_lt_mul (Nat.pow_pos (by decide))).mp hlive'
  rw [hexp] at hnow
  exact absurd (hle.trans hlt.le) (Nat.not_le.mpr hnow)

/-- Attestations that are not issued in the future are fresh when they are accepted, and they are
accepted once, when forged tokens do not carry their JTIs and the guard loses none.  What is decided
on those that are signed is then what a guard decides that sees nothing else. -/
theorem accepted_once_and_fresh {maxEntries : Nat}
    (htimely : calls.Pairwise fun a b => a.now ≤ b.now)
    (hissued : ∀ call ∈ calls, host.isSigned call = true → host.IsIssued call)
    (hapart : ∀ forged ∈ calls, host.isSigned forged = false →
      ∀ signed ∈ calls, host.isSigned signed = true → host.Apart forged signed)
    (hholds : Machine.Along host.step host.GuardHolds (.new maxEntries) calls) :
  ((host.trace (.new maxEntries) calls).Pairwise fun a b => a.2 = true → b.2 = true →
      a.1.attestation ≠ b.1.attestation) ∧
    (∀ entry ∈ host.trace (.new maxEntries) calls, entry.2 = true →
      ∃ attestation exp, host.readAttestation entry.1.attestation = .ok attestation ∧
        attestation.payload.exp = some exp ∧ nowSecs entry.1.now < exp ∧
        exp ≤ nowSecs entry.1.now + maxAttestationLifetimeSecs ∧
        host.verifySignature entry.1.hosts attestation = .ok ()) ∧
    (host.trace (.new maxEntries) calls).filter (fun entry => host.isSigned entry.1) =
      Once.trace Call.now host.asks [] (calls.filter host.isSigned)
  := by
  have htrace := trace_eq htimely (fun _ _ => Nat.zero_le _) hholds
    (MemoryJti.tracks_new maxEntries 0)
  rw [htrace]
  refine ⟨?_, ?_, ?_⟩
  · rw [List.pairwise_map]
    apply List.Pairwise.imp_of_mem _ Once.pairwise_trace
    intro a b ha hb hexpired haccepted haccepted' hsame
    obtain ⟨hgiven, -⟩ := Bool.and_eq_true_iff.mp haccepted
    obtain ⟨hgiven', -⟩ := Bool.and_eq_true_iff.mp haccepted'
    obtain ⟨asked, hasked⟩ := Once.asked_of_gives a ha hgiven
    obtain ⟨asked', hasked'⟩ := Once.asked_of_gives b hb hgiven'
    apply not_asked_again hasked hasked' hsame
    intro hjti
    obtain ⟨jti, deadline⟩ := asked
    obtain ⟨jti', deadline'⟩ := asked'
    cases hjti
    exact hexpired hgiven hgiven' jti deadline deadline' hasked hasked'
  · intro entry hentry haccepted
    obtain ⟨a, ha, rfl⟩ := List.mem_map.mp hentry
    obtain ⟨hgiven, hsigned⟩ := Bool.and_eq_true_iff.mp haccepted
    obtain ⟨⟨jti, deadline⟩, hasked⟩ := Once.asked_of_gives a ha hgiven
    obtain ⟨attestation, claims, hbefore, -, -⟩ := asks_eq_some hasked
    obtain ⟨hread, hchecked⟩ := beforeGuard_eq_ok.mp hbefore
    obtain ⟨-, hexp, -, hlive, hlifetime⟩ := checkClaims_ok hchecked
    have hcall : a.1 ∈ calls := by
      rw [← @Once.map_fst_trace _ _ _ Call.now host.asks [] calls]
      exact List.mem_map_of_mem ha
    refine ⟨attestation, claims.exp, hread, hexp, hlive, ?_, ?_⟩
    · have hiat := hissued a.1 hcall hsigned (attestation, claims) (by rw [hbefore]; rfl)
      exact hlifetime.trans (Nat.add_le_add_right hiat _)
    · rw [isSigned, hread] at hsigned
      exact isOk_iff.mp hsigned
  · rw [List.filter_map]
    have hfilter := @Once.filter_trace _ _ _ Call.now host.asks [] calls []
      (fun jti => ∃ signed ∈ calls, host.isSigned signed = true ∧
        ∃ asked ∈ host.asks signed, asked.1 = jti) host.isSigned
      (fun signed hmem hsigned asked hasked => ⟨signed, hmem, hsigned, asked, hasked, rfl⟩)
      (fun forged hmem hforged asked hasked hown => by
        obtain ⟨signed, hmem', hsigned, asked', hasked', heq⟩ := hown
        exact hapart forged hmem hforged signed hmem' hsigned asked hasked asked' hasked' heq.symm)
      fun _ _ _ => rfl
    rw [← hfilter]
    have hid : ∀ entry ∈ (Once.trace Call.now host.asks [] calls).filter
        (fun entry => host.isSigned entry.1),
        (entry.1, entry.2 && host.isSigned entry.1) = id entry := by
      intro entry hentry
      rw [(List.mem_filter.mp hentry).2, Bool.and_true, id_eq]
    exact (List.map_congr_left hid).trans (List.map_id _)

end SpaceHost

/-! ### Three tokens of one client -/

/-- The header of an attestation in base64. -/
def headerBase64 : Text := textOf "eyJ0eXAiOiJhdHByb3RvLWNsaWVudC1hdHRlc3RhdGlvbitqd3QifQ"

/-- The header, as JSON. -/
def headerJson : Bytes := (textOf "\x7b\"typ\":\"atproto-client-attestation+jwt\"\x7d").bytes

/-- Claims of an attestation, as JSON. -/
def claimsJson (times jti : Text) : Bytes :=
  (textOf "\x7b\"iss\":\"https://a.example\",\"sub\":\"https://a.example\",\"aud\":" ++
    textOf "\"did:web:s#atproto_space_host\"," ++ times ++ textOf ",\"jti\":\"" ++ jti ++
      textOf "\"\x7d").bytes

/-- What the claims have in common, in base64. -/
def commonBase64 : Text :=
  textOf "eyJpc3MiOiJodHRwczovL2EuZXhhbXBsZSIsInN1YiI6Imh0dHBzOi8vYS5leGFtcGxlIiwiYXVkIjoiZGlk" ++
    textOf "OndlYjpzI2F0cHJvdG9fc3BhY2VfaG9zdCIsImlhdCI6"

/-- Claims that live for a minute. -/
def minuteBase64 : Text := commonBase64 ++ textOf "MTAwLCJleHAiOjE2MCwianRpIjoiaiJ9"

def minuteJson : Bytes := claimsJson (textOf "\"iat\":100,\"exp\":160") (textOf "j")

/-- Claims that have the same JTI and live for some seconds. -/
def briefBase64 : Text := commonBase64 ++ textOf "OTAsImV4cCI6MTAxLCJqdGkiOiJqIn0"

def briefJson : Bytes := claimsJson (textOf "\"iat\":90,\"exp\":101") (textOf "j")

/-- Claims that are issued later than they are used. -/
def futureBase64 : Text :=
  commonBase64 ++ textOf "MTAwMDAwMCwiZXhwIjoxMDAwMDYwLCJqdGkiOiJmIn0"

def futureJson : Bytes := claimsJson (textOf "\"iat\":1000000,\"exp\":1000060") (textOf "f")

/-- The payload of the claims. -/
def samplePayload (iat exp : Nat) (jti : String) : AttestationPayload where
  iss := "https://a.example"
  sub := "https://a.example"
  aud := some "did:web:s#atproto_space_host"
  iat := some iat
  exp := some exp
  jti := some jti

/-- Libraries that know the tokens and one key, and signatures of one byte. -/
def sampleLibrary : MintLibrary Unit where
  decodeBase64 part :=
    if part = headerBase64.bytes then .ok headerJson
    else if part = minuteBase64.bytes then .ok minuteJson
    else if part = briefBase64.bytes then .ok briefJson
    else if part = futureBase64.bytes then .ok futureJson
    else if part = (textOf "AQ").bytes then .ok [1]
    else if part = (textOf "Ag").bytes then .ok [2]
    else if part = (textOf "Aw").bytes then .ok [3]
    else .error "Invalid symbol"
  parseHeader bytes :=
    if bytes = headerJson then .ok ⟨some typClientAttestation, none⟩ else .error "expected value"
  parsePayload bytes :=
    if bytes = minuteJson then .ok (samplePayload 100 160 "j")
    else if bytes = briefJson then .ok (samplePayload 90 101 "j")
    else if bytes = futureJson then .ok (samplePayload 1000000 1000060 "f")
    else .error "expected value"
  parseUrl url :=
    if url = "https://a.example" ∨ url = "https://a.example/" then
      .ok ⟨"https", "", none, some (.domain "a.example"), none, none, none⟩
    else .error "relative URL without a base"
  toKeyData _ := .ok ⟨.p256Public, [4]⟩
  validate _ signature content :=
    if signature = [1] ∧ content = headerBase64.bytes ++ 0x2e :: minuteBase64.bytes ∨
        signature = [2] ∧ content = headerBase64.bytes ++ 0x2e :: futureBase64.bytes then .ok ()
    else .error "signature error"

def sampleHost : SpaceHost Unit := ⟨sampleLibrary, "did:web:s"⟩

/-- A call at a second, where the client publishes one key. -/
def sampleCall (seconds : Nat) (payload : Text) (signature : String) : Call Unit where
  attestation := headerBase64 ++ textOf "." ++ payload ++ textOf "." ++ textOf signature
  now := seconds * 10 ^ 9
  hosts := {
    metadata := fun _ => .answered 200 "200 OK" (.ok ⟨some [⟨none, ()⟩], none⟩)
    jwks := fun _ => .answered 404 "404 Not Found" (.error (true, "")) }

/-- An attestation, the same again, and then a forged one for another JTI. -/
def cleanCalls : List (Call Unit) :=
  [sampleCall 100 minuteBase64 "AQ", sampleCall 101 minuteBase64 "AQ",
    sampleCall 102 futureBase64 "Aw"]

theorem accepted_once_and_fresh_clean :
  (sampleHost.trace (.new 10) cleanCalls).filter (fun entry => sampleHost.isSigned entry.1) =
    Once.trace Call.now sampleHost.asks [] (cleanCalls.filter sampleHost.isSigned)
  := (sampleHost.accepted_once_and_fresh (by decide +kernel) (by decide +kernel)
    (by decide +kernel) (by decide +kernel)).2.2

/-- A forged token makes a signed attestation be refused.  A signed attestation is accepted that
expires in more than a million seconds.  After a forged token has expired, the signed attestation
with its JTI is accepted twice. -/
theorem accepted_once_and_fresh_broken :
  (sampleHost.isSigned (sampleCall 100 minuteBase64 "Aw") = false ∧
    sampleHost.isSigned (sampleCall 101 minuteBase64 "AQ") = true ∧
    (sampleHost.trace (.new 10) [sampleCall 101 minuteBase64 "AQ"]).map Prod.snd = [true] ∧
    (sampleHost.trace (.new 10) [sampleCall 100 minuteBase64 "Aw",
      sampleCall 101 minuteBase64 "AQ"]).map Prod.snd = [false, false]) ∧
    ((sampleHost.trace (.new 10) [sampleCall 100 futureBase64 "Ag"]).map Prod.snd = [true] ∧
      (samplePayload 1000000 1000060 "f").exp = some 1000060 ∧ ¬ 1000060 ≤ 100 + 300) ∧
    sampleHost.isSigned (sampleCall 100 briefBase64 "Aw") = false ∧
    (sampleHost.trace (.new 10) [sampleCall 100 briefBase64 "Aw",
      sampleCall 102 minuteBase64 "AQ", sampleCall 103 minuteBase64 "AQ"]).map Prod.snd =
        [false, true, true]
  := by
  decide +kernel

end Atproto.Pds.MintAuthz
