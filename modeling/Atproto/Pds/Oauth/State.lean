import Atproto.Pds.PublicRealm

/-!
# The state of an authorization server

Authorization codes are taken once.  A refresh token is live while the table has a row for its
identifier, and a rotation replaces the row under another identifier.  The tables are kept in memory
or in SQL.
-/

namespace Atproto.Pds.Oauth

open Atproto.Dasl Atproto.Repo SearchTree

/-- An instant, in nanoseconds. -/
abbrev Instant : Type := Int

/-- A duration of some seconds. -/
def durationSeconds (seconds : Nat) : Int := seconds * 1000000000

/-- The longest session of a public client. -/
def maxPublicSessionSecs : Nat := 14 * 24 * 60 * 60

/-- The longest life of a refresh token of a confidential client. -/
def maxConfidentialRefreshSecs : Nat := 180 * 24 * 60 * 60

/-- The life of an authorization code. -/
def authCodeTtlSecs : Nat := 60

/-- An authorization request. -/
structure OAuthRequest where
  clientId : Text
  redirectUri : Text
  scope : Text
  state : Text
  codeChallenge : Text
  codeChallengeMethod : Text
  dpopJkt : Option Text
  loginHint : Option Text
  createdAt : Instant

/-- An authorization code, as it is issued. -/
structure AuthorizationCode where
  did : Text
  request : OAuthRequest
  issuedAt : Instant
  actingDid : Option Text

/-- The row of a refresh token. -/
structure RefreshHandle where
  did : Text
  clientId : Text
  dpopJkt : Text
  scope : Text
  issuedAt : Instant
  familyId : Text
  clientKid : Option Text
  grantStartedAt : Option Instant
  expiresAt : Option Instant
  actingDid : Option Text

/-- Where the state is kept. -/
inductive OAuthBackend where
  | memory
  | sql
deriving DecidableEq

/-- The authorization codes and the rows of the refresh tokens, by their identifiers. -/
structure OAuthState where
  authCodes : List (Text × AuthorizationCode)
  refreshTokens : List (Text × RefreshHandle)

/-- Nothing is stored. -/
def OAuthState.empty : OAuthState := ⟨[], []⟩

namespace OAuthState

/-! ### Authorization codes -/

/-- The codes that a collection of expired ones leaves.  The tables differ at the very end of a
life. -/
def gc (backend : OAuthBackend) (now : Instant) (codes : List (Text × AuthorizationCode)) :
    List (Text × AuthorizationCode) :=
  match backend with
  | .memory => codes.filter fun code => now - code.2.issuedAt ≤ durationSeconds authCodeTtlSecs
  | .sql => codes.filter fun code => now < code.2.issuedAt + durationSeconds authCodeTtlSecs

/-- Issue a code. -/
def issueCode (backend : OAuthBackend) (now : Instant) (code did : Text) (request : OAuthRequest)
    (actingDid : Option Text) (state : OAuthState) : OAuthState :=
  let codes := insert code ⟨did, request, now, actingDid⟩ state.authCodes
  { state with authCodes := gc backend now codes }

/-- Take a code from the ones that are left.  An expired one is removed and reported absent. -/
def takeFrom (codes : List (Text × AuthorizationCode)) (now : Instant) (code : Text)
    (state : OAuthState) : Option AuthorizationCode × OAuthState :=
  match lookup code codes with
  | none => (none, { state with authCodes := codes })
  | some auth =>
    (if now - auth.issuedAt > durationSeconds authCodeTtlSecs then none else some auth,
      { state with authCodes := erase code codes })

/-- Take a code.  In memory the expired ones are collected before. -/
def takeCode (backend : OAuthBackend) (now : Instant) (code : Text) (state : OAuthState) :
    Option AuthorizationCode × OAuthState :=
  match backend with
  | .memory => takeFrom (gc .memory now state.authCodes) now code state
  | .sql => takeFrom state.authCodes now code state

/-! ### Refresh tokens -/

/-- Register the identifier of a refresh token. -/
def registerRefresh (jti : Text) (handle : RefreshHandle) (state : OAuthState) : OAuthState :=
  { state with refreshTokens := insert jti handle state.refreshTokens }

/-- The row that a rotation leaves under the new identifier. -/
def rotatedHandle (backend : OAuthBackend) (now : Instant) (handle : RefreshHandle) :
    RefreshHandle :=
  match backend with
  | .memory => {
      handle with
      familyId := textOf "test-family"
      clientKid := none
      grantStartedAt := none
      expiresAt := none
      issuedAt := now }
  | .sql => { handle with issuedAt := now }

/-- Replace the row of an identifier by one under a new identifier, and return it.  The SQL table
refuses an identifier that it has already. -/
def rotateRefresh (backend : OAuthBackend) (now : Instant) (oldJti newJti : Text)
    (state : OAuthState) : Except PdsError (Option RefreshHandle × OAuthState) :=
  match lookup oldJti state.refreshTokens with
  | none => .ok (none, state)
  | some handle =>
    let rest := erase oldJti state.refreshTokens
    if backend = .sql ∧ (lookup newJti rest).isSome = true then
      .error (.storage "oauth_refresh insert (rotate)")
    else
      .ok (some handle,
        { state with refreshTokens := insert newJti (rotatedHandle backend now handle) rest })

/-- Read the row of an identifier. -/
def peekRefresh (jti : Text) (state : OAuthState) : Option RefreshHandle :=
  lookup jti state.refreshTokens

/-- Keep the rows that a condition does not select, and count the others. -/
def revokeWhere (doomed : RefreshHandle → Bool) (state : OAuthState) : Nat × OAuthState :=
  ((state.refreshTokens.filter fun row => doomed row.2).length,
    { state with refreshTokens := state.refreshTokens.filter fun row => !doomed row.2 })

/-- Revoke the refresh tokens of a family. -/
def revokeRefreshFamily (familyId : Text) (state : OAuthState) : Nat × OAuthState :=
  state.revokeWhere fun handle => handle.familyId = familyId

/-- Revoke one refresh token. -/
def revokeRefresh (jti : Text) (state : OAuthState) : Bool × OAuthState :=
  ((lookup jti state.refreshTokens).isSome,
    { state with refreshTokens := erase jti state.refreshTokens })

/-- Drop the refresh tokens of an account. -/
def deleteOauthRefreshFor (did : Text) (state : OAuthState) : OAuthState :=
  (state.revokeWhere fun handle => handle.did = did).2

/-- Drop the refresh tokens of an application. -/
def revokeOauthGrantsForClient (did clientId : Text) (state : OAuthState) : Nat × OAuthState :=
  state.revokeWhere fun handle => handle.did = did ∧ handle.clientId = clientId

/-- Drop the refresh tokens that a delegate obtained. -/
def revokeOauthGrantsForDelegate (did delegateDid : Text) (state : OAuthState) :
    Nat × OAuthState :=
  state.revokeWhere fun handle => handle.did = did ∧ handle.actingDid = some delegateDid

end OAuthState

/-! ### What the operations keep -/

theorem mem_of_mem_gc {backend : OAuthBackend} {now : Instant}
    {codes : List (Text × AuthorizationCode)} {x : Text × AuthorizationCode}
    (h : x ∈ OAuthState.gc backend now codes) :
  x ∈ codes
  := by
  cases backend with
  | memory => exact List.mem_of_mem_filter h
  | sql => exact List.mem_of_mem_filter h

variable {backend : OAuthBackend} {now : Instant} {code : Text} {state : OAuthState}

/-- Taking a code leaves the refresh tokens alone, and the code is gone. -/
structure Takes (code : Text) (state : OAuthState) (next : Option AuthorizationCode × OAuthState) :
    Prop where
  refreshTokens : next.2.refreshTokens = state.refreshTokens
  authCodes : ∀ x ∈ next.2.authCodes, x ∈ state.authCodes
  found : ∀ auth, next.1 = some auth → (code, auth) ∈ state.authCodes
  gone : ∀ x ∈ next.2.authCodes, x.1 ≠ code

theorem takes_takeFrom {codes : List (Text × AuthorizationCode)}
    (hcodes : ∀ x ∈ codes, x ∈ state.authCodes) :
  Takes code state (state.takeFrom codes now code)
  := by
  rw [OAuthState.takeFrom]
  cases hlookup : lookup code codes with
  | none =>
    refine ⟨rfl, hcodes, ?_, ?_⟩
    · intro auth hauth
      cases hauth
    · intro x hx heq
      have hsome : (lookup code codes).isSome = true :=
        lookup_isSome_iff.mpr (heq ▸ List.mem_map_of_mem hx)
      rw [hlookup] at hsome
      cases hsome
  | some auth =>
    refine ⟨rfl, ?_, ?_, ?_⟩
    · intro x hx
      exact hcodes x (mem_of_mem_erase hx).1
    · intro found hfound
      dsimp only at hfound
      split at hfound
      · cases hfound
      · cases hfound
        exact hcodes _ (mem_of_lookup hlookup)
    · intro x hx
      exact (mem_of_mem_erase hx).2

theorem rotateRefresh_of_none {oldJti newJti : Text}
    (hrow : lookup oldJti state.refreshTokens = none) :
  state.rotateRefresh backend now oldJti newJti = .ok (none, state)
  := by
  rw [OAuthState.rotateRefresh, hrow]

/-- A row that is there is rotated, unless the storage refuses the new identifier. -/
theorem rotateRefresh_of_some (backend : OAuthBackend) (now : Instant) {oldJti : Text}
    (newJti : Text) {handle : RefreshHandle}
    (hrow : lookup oldJti state.refreshTokens = some handle) :
  state.rotateRefresh backend now oldJti newJti =
    .error (.storage "oauth_refresh insert (rotate)") ∨
  state.rotateRefresh backend now oldJti newJti =
    .ok (some handle, { state with
      refreshTokens := insert newJti (OAuthState.rotatedHandle backend now handle)
        (erase oldJti state.refreshTokens) })
  := by
  rw [OAuthState.rotateRefresh, hrow]
  dsimp only
  split
  · exact .inl rfl
  · exact .inr rfl

theorem takes_takeCode :
  Takes code state (state.takeCode backend now code)
  := by
  cases backend with
  | memory => exact takes_takeFrom fun x hx => mem_of_mem_gc hx
  | sql => exact takes_takeFrom fun x hx => hx

end Atproto.Pds.Oauth
