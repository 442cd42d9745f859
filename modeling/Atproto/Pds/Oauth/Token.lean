import Atproto.Pds.Oauth.State

/-!
# The token endpoint

A request exchanges an authorization code or a refresh token for a pair of tokens.  Its uses of the
storage are steps of their own: it takes the code or rotates the refresh token, and registers the
refresh token that it hands out later.  A code or a token that is presented again has its family
revoked.
-/

namespace Atproto.Pds.Oauth

open Atproto.Dasl Atproto.Repo SearchTree

/-- The server, with the libraries it hashes and encodes with. -/
structure AuthServer where
  backend : OAuthBackend
  sha256 : Bytes → Bytes
  base64url : Bytes → Text
  serviceDid : Text
  accessTtlSecs : Nat
  refreshTtlSecs : Nat

/-! ### Tokens -/

/-- The type of access tokens. -/
def typAccess : Text := textOf "at-oauth-access"

/-- The type of refresh tokens. -/
def typRefresh : Text := textOf "at-oauth-refresh"

/-- The claims of a token.  The thumbprint is the one of its DPoP key. -/
structure OAuthClaims where
  sub : Text
  iss : Text
  aud : Text
  clientId : Text
  scope : Text
  cnf : Option Text
  iat : Nat
  exp : Nat
  jti : Text
  fam : Option Text
  ses : Int
  act : Option Text
deriving DecidableEq

/-- A token, as it is presented: a type and claims with a signature of the server on them, or a text
without one, and what is wrong with it. -/
inductive Jwt where
  | signed (typ : Text) (claims : OAuthClaims)
  | unsigned (reason : Text)

/-- The seconds of an instant. -/
def timestamp (now : Instant) : Nat := (now / 1000000000).toNat

/-- Verify a token of a type. -/
def verifyOauthJwt (token : Jwt) (expectedTyp : Text) (now : Instant) : Except Text OAuthClaims :=
  match token with
  | .unsigned reason => .error reason
  | .signed typ claims =>
    if typ ≠ expectedTyp then
      .error (textOf "expected typ " ++ expectedTyp ++ textOf ", got " ++ typ)
    else if claims.exp ≤ timestamp now then .error (textOf "token expired")
    else .ok claims

/-- A token that verifies is signed, and of the type. -/
theorem verifyOauthJwt_ok {token : Jwt} {typ : Text} {now : Instant} {claims : OAuthClaims}
    (h : verifyOauthJwt token typ now = .ok claims) :
  token = .signed typ claims
  := by
  cases token with
  | unsigned reason => cases h
  | signed signedTyp signedClaims =>
    rw [verifyOauthJwt] at h
    split at h
    · cases h
    · rename_i htyp
      split at h
      · cases h
      · cases h
        rw [not_not.mp htyp]

/-! ### Requests and answers -/

/-- An error of the endpoint. -/
structure XrpcError where
  status : Nat
  name : Text
  message : Text

/-- The inputs of a request, without the assertion that authenticates the client. -/
structure TokenInput where
  grantType : Text
  clientId : Text
  code : Option Text
  refreshToken : Option Jwt
  redirectUri : Option Text
  codeVerifier : Option Text

/-- The tokens that are handed out. -/
structure TokenResponse where
  accessToken : Jwt
  tokenType : Text
  expiresIn : Nat
  refreshToken : Jwt
  scope : Text
  sub : Text

/-- The state of an account. -/
inductive AccountState where
  | active
  | deactivated
  | takendown
  | suspended
  | deleted
deriving DecidableEq

/-- The text of a state. -/
def AccountState.asStr : AccountState → Text
  | .active => textOf "active"
  | .deactivated => textOf "deactivated"
  | .takendown => textOf "takendown"
  | .suspended => textOf "suspended"
  | .deleted => textOf "deleted"

/-- Only an active account can write. -/
def AccountState.allowsWrites (state : AccountState) : Bool := state = .active

/-- What one authorization grants. -/
structure Grant where
  did : Text
  clientId : Text
  scope : Text
  familyId : Text
  clientKid : Option Text
  startedAt : Instant
  actingDid : Option Text

/-- A bad request. -/
def badRequest (name message : String) : XrpcError := ⟨400, textOf name, textOf message⟩

/-- An error of the client's authentication. -/
def unauthorized (name message : String) : XrpcError := ⟨401, textOf name, textOf message⟩

/-- An error of the storage. -/
def storageError : XrpcError := ⟨500, textOf "InternalError", textOf "internal error"⟩

/-! ### Checks -/

/-- The lower-case hexadecimal digit of a number. -/
def hexDigit (n : Nat) : UInt8 := UInt8.ofNat (if n < 10 then 48 + n else 87 + n)

/-- The hexadecimal digits of some bytes. -/
def hexBytes (bytes : Bytes) : Bytes :=
  bytes.flatMap fun byte => [hexDigit (byte.toNat / 16), hexDigit (byte.toNat % 16)]

theorem isUtf8_hexBytes (bytes : Bytes) :
  IsUtf8 (hexBytes bytes)
  := by
  induction bytes with
  | nil => exact Text.empty.utf8
  | cons byte bytes ih =>
    have hdigit : ∀ n : Fin 16, IsUtf8 [hexDigit n] := by decide
    have hlt := byte.toNat_lt
    have hhigh : IsUtf8 [hexDigit (byte.toNat / 16)] := hdigit ⟨byte.toNat / 16, by omega⟩
    have hlow : IsUtf8 [hexDigit (byte.toNat % 16)] := hdigit ⟨byte.toNat % 16, by omega⟩
    exact Text.isUtf8_append (Text.isUtf8_append hhigh hlow) ih

theorem length_hexBytes (bytes : Bytes) :
  (hexBytes bytes).length = 2 * bytes.length
  := by
  induction bytes with
  | nil => rfl
  | cons byte bytes ih =>
    rw [hexBytes, List.flatMap_cons, List.length_append, List.length_cons]
    rw [hexBytes] at ih
    rw [ih]
    simp only [List.length_cons, List.length_nil]
    omega

/-- The hexadecimal text of some bytes. -/
def hexEncode (bytes : Bytes) : Text where
  bytes := hexBytes bytes
  utf8 := isUtf8_hexBytes bytes

/-- The family of the refresh tokens that a code issues. -/
def familyForCode (sha256 : Bytes → Bytes) (code : Text) : Text :=
  hexEncode (sha256 ((textOf "atproto-pds-refresh-family").bytes ++ code.bytes))

/-- The family that the tables in memory move a rotated row to is the one of no code. -/
theorem familyForCode_ne_test (sha256 : Bytes → Bytes) (code : Text) :
  familyForCode sha256 code ≠ textOf "test-family"
  := by
  intro h
  have hlength := congrArg (fun text => text.bytes.length) h
  rw [familyForCode, hexEncode, length_hexBytes] at hlength
  have htest : (textOf "test-family").bytes.length = 11 := by decide +kernel
  omega

/-- The verifier answers the challenge. -/
def verifyPkce (server : AuthServer) (codeChallenge codeVerifier : Text) : Bool :=
  server.base64url (server.sha256 codeVerifier.bytes) = codeChallenge

/-- What is checked of an exchange, after its code was taken. -/
def checkExchange (server : AuthServer) (input : TokenInput) (auth : AuthorizationCode)
    (proofJkt : Text) : Except XrpcError Unit :=
  if auth.request.clientId ≠ input.clientId then
    .error (badRequest "invalid_client" "client_id mismatch")
  else if input.redirectUri ≠ some auth.request.redirectUri then
    .error (badRequest "invalid_grant" "redirect_uri mismatch")
  else
    match input.codeVerifier with
    | none => .error (badRequest "invalid_request" "code_verifier required (PKCE)")
    | some verifier =>
      if !verifyPkce server auth.request.codeChallenge verifier then
        .error (badRequest "invalid_grant" "PKCE verification failed")
      else
        match auth.request.dpopJkt with
        | none => .ok ()
        | some pinned =>
          if pinned ≠ proofJkt then
            .error (badRequest "invalid_grant"
              "DPoP proof key does not match the key bound at authorization")
          else .ok ()

/-- A refresh needs the key that its grant was issued to. -/
def assertSameClientKey (issuedTo presented : Option Text) : Except XrpcError Unit :=
  if issuedTo = presented then .ok ()
  else .error (unauthorized "invalid_client"
    "this refresh token requires the client key the grant was issued to")

/-- A refresh token that has no row. -/
def consumedError : XrpcError :=
  badRequest "invalid_grant" "refresh token already consumed or revoked"

/-! ### Steps -/

/-- What a pair of tokens is issued for. -/
inductive GrantSource where
  | code (code : Text)
  | refresh (oldJti : Text)

/-- What a request does next, with what it has read so far. -/
inductive TokenCall where
  /-- Take the code. -/
  | takeCode (input : TokenInput) (code proofJkt : Text)
  /-- Revoke the family of a code that is not there. -/
  | revokeCode (code : Text)
  /-- Check the exchange and authenticate the client. -/
  | checkCode (input : TokenInput) (code : Text) (auth : AuthorizationCode) (proofJkt : Text)
  /-- Verify the refresh token and read its row. -/
  | peek (input : TokenInput) (token : Jwt) (proofJkt : Text)
  /-- Revoke the family of a token that has no row. -/
  | revokeClaims (claims : OAuthClaims)
  /-- Check the refresh and authenticate the client. -/
  | checkRefresh (oldJti : Text) (handle : RefreshHandle) (proofJkt : Text)
  /-- Revoke the family of a session that has reached its end. -/
  | revokeEnded (oldJti : Text) (handle : RefreshHandle)
  /-- Rotate the refresh token. -/
  | rotate (oldJti : Text) (handle : RefreshHandle) (grantStartedAt : Instant)
  /-- Draw the identifiers and mint the tokens. -/
  | issue (source : GrantSource) (grant : Grant) (dpopJkt : Text)
  /-- Register the refresh token. -/
  | register (source : GrantSource) (jti : Text) (handle : RefreshHandle)
      (response : TokenResponse)
  /-- The request has its answer. -/
  | done (result : Except XrpcError TokenResponse)

/-- How a step goes: whether the storage works, what the clock shows at its readings, what
authenticating the client by its metadata gives, what is known of the account, the session epoch,
and the random identifiers. -/
structure TokenChoice where
  works : Bool
  clock : Nat → Instant
  authenticated : Except XrpcError (Option Text)
  account : Except XrpcError (Option (Text × AccountState))
  epoch : Except XrpcError Int
  rotatedJti : Text
  accessJti : Text
  refreshJti : Text

/-- A request, with the thumbprint that its DPoP proof gives. -/
structure TokenRequest where
  input : TokenInput
  proof : Except XrpcError Text

/-- The grant type of an exchange. -/
def authorizationCodeGrant : Text := textOf "authorization_code"

/-- The grant type of a refresh. -/
def refreshTokenGrant : Text := textOf "refresh_token"

/-- The first step of a request. -/
def TokenRequest.begin (request : TokenRequest) : TokenCall :=
  match request.proof with
  | .error error => .done (.error error)
  | .ok proofJkt =>
    if request.input.grantType = authorizationCodeGrant then
      match request.input.code with
      | none => .done (.error (badRequest "invalid_request" "code required"))
      | some code => .takeCode request.input code proofJkt
    else if request.input.grantType = refreshTokenGrant then
      match request.input.refreshToken with
      | none => .done (.error (badRequest "invalid_request" "refresh_token required"))
      | some token => .peek request.input token proofJkt
    else
      .done (.error ⟨400, textOf "unsupported_grant_type",
        textOf "grant_type " ++ request.input.grantType ++ textOf " not supported"⟩)

/-- A step that needs the storage to work. -/
def onStorage (choice : TokenChoice) (state : OAuthState) (next : TokenCall × OAuthState) :
    TokenCall × OAuthState :=
  if choice.works then next else (.done (.error storageError), state)

/-- The end of the life of a refresh token that is issued now. -/
def tokenExpiresAt (server : AuthServer) (grant : Grant) (now : Instant) : Instant :=
  match grant.clientKid with
  | none =>
    let natural := now + durationSeconds (min server.refreshTtlSecs maxPublicSessionSecs)
    let sessionEnd := grant.startedAt + durationSeconds maxPublicSessionSecs
    if sessionEnd < natural then sessionEnd else natural
  | some _ => now + durationSeconds (min server.refreshTtlSecs maxConfidentialRefreshSecs)

/-- The DID that tokens are issued by. -/
def issuer (server : AuthServer) : Text :=
  let method := textOf "did:web:"
  if method.bytes.isPrefixOf server.serviceDid.bytes then server.serviceDid
  else method ++ server.serviceDid

/-- The claims of the access token that is minted for a grant. -/
def accessClaims (server : AuthServer) (grant : Grant) (dpopJkt : Text) (choice : TokenChoice)
    (epoch : Int) : OAuthClaims where
  sub := grant.did
  iss := issuer server
  aud := server.serviceDid
  clientId := grant.clientId
  scope := grant.scope
  cnf := some dpopJkt
  iat := timestamp (choice.clock 0)
  exp := timestamp (choice.clock 0) + server.accessTtlSecs
  jti := choice.accessJti
  fam := none
  ses := epoch
  act := grant.actingDid

/-- The claims of the refresh token that is minted for a grant. -/
def refreshClaims (server : AuthServer) (grant : Grant) (dpopJkt : Text) (choice : TokenChoice)
    (epoch : Int) : OAuthClaims :=
  { accessClaims server grant dpopJkt choice epoch with
    fam := some grant.familyId
    exp := timestamp (choice.clock 0) +
      timestamp (tokenExpiresAt server grant (choice.clock 1) - choice.clock 2)
    jti := choice.refreshJti }

/-- The row of the refresh token that is minted for a grant. -/
def issuedHandle (server : AuthServer) (grant : Grant) (dpopJkt : Text) (choice : TokenChoice) :
    RefreshHandle where
  did := grant.did
  clientId := grant.clientId
  dpopJkt := dpopJkt
  scope := grant.scope
  issuedAt := choice.clock 3
  familyId := grant.familyId
  clientKid := grant.clientKid
  grantStartedAt := some grant.startedAt
  expiresAt := some (tokenExpiresAt server grant (choice.clock 1))
  actingDid := grant.actingDid

/-- The session of a public client has reached its end. -/
def sessionEnded (handle : RefreshHandle) (now : Instant) : Bool :=
  match handle.clientKid, handle.grantStartedAt with
  | none, some started => now - started > durationSeconds maxPublicSessionSecs
  | none, none => false
  | some _, _ => false

/-- What is checked of a refresh, before its token is rotated. -/
def checkRefresh (choice : TokenChoice) (handle : RefreshHandle) (proofJkt : Text) :
    Except XrpcError Unit := do
  if handle.dpopJkt ≠ proofJkt then
    .error (badRequest "invalid_grant"
      "DPoP proof key does not match the key this refresh token is bound to")
  else .ok ()
  match ← choice.account with
  | none => .ok ()
  | some (did, state) =>
    if !state.allowsWrites then
      .error ⟨400, textOf "invalid_grant",
        textOf "account " ++ did ++ textOf " is " ++ state.asStr⟩
    else .ok ()
  let presentedKid ← choice.authenticated
  assertSameClientKey handle.clientKid presentedKid

/-- One step of a request. -/
def TokenCall.advance (server : AuthServer) (choice : TokenChoice) (call : TokenCall)
    (state : OAuthState) : TokenCall × OAuthState :=
  match call with
  | .takeCode input code proofJkt =>
    onStorage choice state <|
      match state.takeCode server.backend (choice.clock 0) code with
      | (none, state) => (.revokeCode code, state)
      | (some auth, state) => (.checkCode input code auth proofJkt, state)
  | .revokeCode code =>
    onStorage choice state
      (.done (.error (badRequest "invalid_grant" "code unknown or expired")),
        (state.revokeRefreshFamily (familyForCode server.sha256 code)).2)
  | .checkCode input code auth proofJkt =>
    match checkExchange server input auth proofJkt, choice.authenticated with
    | .error error, _ => (.done (.error error), state)
    | .ok (), .error error => (.done (.error error), state)
    | .ok (), .ok clientKid =>
      (.issue (.code code) {
          did := auth.did
          clientId := auth.request.clientId
          scope := auth.request.scope
          familyId := familyForCode server.sha256 code
          clientKid := clientKid
          startedAt := choice.clock 0
          actingDid := auth.actingDid } proofJkt, state)
  | .peek input token proofJkt =>
    match verifyOauthJwt token typRefresh (choice.clock 0) with
    | .error reason => (.done (.error ⟨400, textOf "invalid_grant", reason⟩), state)
    | .ok claims =>
      if claims.clientId ≠ input.clientId then
        (.done (.error (badRequest "invalid_client" "client_id mismatch")), state)
      else
        onStorage choice state <|
          match state.peekRefresh claims.jti with
          | none => (.revokeClaims claims, state)
          | some handle => (.checkRefresh claims.jti handle proofJkt, state)
  | .revokeClaims claims =>
    match claims.fam with
    | none => (.done (.error consumedError), state)
    | some familyId =>
      onStorage choice state
        (.done (.error consumedError), (state.revokeRefreshFamily familyId).2)
  | .checkRefresh oldJti handle proofJkt =>
    match Oauth.checkRefresh choice handle proofJkt with
    | .error error => (.done (.error error), state)
    | .ok () =>
      if sessionEnded handle (choice.clock 1) then (.revokeEnded oldJti handle, state)
      else (.rotate oldJti handle (handle.grantStartedAt.getD (choice.clock 0)), state)
  | .revokeEnded _ handle =>
    onStorage choice state
      (.done (.error (badRequest "invalid_grant"
        "this session has reached its maximum lifetime; sign in again")),
        (state.revokeRefreshFamily handle.familyId).2)
  | .rotate oldJti _ grantStartedAt =>
    onStorage choice state <|
      match state.rotateRefresh server.backend (choice.clock 0) oldJti choice.rotatedJti with
      | .error _ => (.done (.error storageError), state)
      | .ok (none, state) => (.done (.error consumedError), state)
      | .ok (some handle, state) =>
        (.issue (.refresh oldJti) {
            did := handle.did
            clientId := handle.clientId
            scope := handle.scope
            familyId := handle.familyId
            clientKid := handle.clientKid
            startedAt := grantStartedAt
            actingDid := handle.actingDid } handle.dpopJkt, state)
  | .issue source grant dpopJkt =>
    match choice.epoch with
    | .error error => (.done (.error error), state)
    | .ok epoch =>
      (.register source choice.refreshJti (issuedHandle server grant dpopJkt choice) {
          accessToken := .signed typAccess (accessClaims server grant dpopJkt choice epoch)
          tokenType := textOf "DPoP"
          expiresIn := server.accessTtlSecs
          refreshToken := .signed typRefresh (refreshClaims server grant dpopJkt choice epoch)
          scope := grant.scope
          sub := grant.did }, state)
  | .register _ jti handle response =>
    onStorage choice state (.done (.ok response), state.registerRefresh jti handle)
  | .done result => (.done result, state)

/-- A request that has been answered takes no more steps. -/
theorem advance_done (server : AuthServer) (choice : TokenChoice)
    (result : Except XrpcError TokenResponse) (state : OAuthState) :
  (TokenCall.done result).advance server choice state = (.done result, state)
  := by
  rw [TokenCall.advance]

end Atproto.Pds.Oauth
