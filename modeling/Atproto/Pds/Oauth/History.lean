import Atproto.Logic.Pool
import Atproto.Pds.Oauth.Token

/-!
# Runs of the authorization server

Requests to the token endpoint run at the same time, codes are issued and tokens are revoked between
their steps.  What has happened is written down beside the state: the codes that were taken, the
refresh tokens that were handed out and consumed, and the families a code or a token of which was
presented again and refused, whatever the check that refused it.
-/

namespace Atproto.Pds.Oauth

open Atproto.Dasl Atproto.Repo Logic Logic.Machine SearchTree

/-! ### What has happened -/

/-- What the identifier of a row was drawn for: the code that the row descends from, and the family
that it is stored in. -/
structure Descent where
  code : Text
  familyId : Text

/-- What is fixed when a code is exchanged. -/
structure Terms where
  did : Text
  clientId : Text
  dpopJkt : Text
  scope : Text
  clientKid : Option Text
  grantStartedAt : Option Instant
  actingDid : Option Text

/-- The terms that a row carries. -/
def RefreshHandle.terms (handle : RefreshHandle) : Terms where
  did := handle.did
  clientId := handle.clientId
  dpopJkt := handle.dpopJkt
  scope := handle.scope
  clientKid := handle.clientKid
  grantStartedAt := handle.grantStartedAt
  actingDid := handle.actingDid

/-- The codes that were issued and taken, what the identifiers of rows were drawn for, the
identifiers that were rotated away, the claims of the refresh tokens that were handed out, the
latest one first, the terms of each family, and the families a spent code or token of which was
presented again and refused. -/
structure History where
  issued : List Text
  redeemed : List Text
  drawn : Text → Option Descent
  consumed : List Text
  handed : List OAuthClaims
  terms : Text → Option Terms
  replayed : List Text

/-- Nothing has happened. -/
def History.empty : History := ⟨[], [], fun _ => none, [], [], fun _ => none, []⟩

/-- The code that a pair of tokens descends from. -/
def GrantSource.origin (history : History) : GrantSource → Option Text
  | .code taken => some taken
  | .refresh oldJti => (history.drawn oldJti).map Descent.code

/-- An identifier is drawn for a row of a family. -/
def History.draw (history : History) (source : GrantSource) (jti familyId : Text) : History :=
  match source.origin history with
  | none => history
  | some code =>
    { history with drawn := Function.update history.drawn jti (some ⟨code, familyId⟩) }

/-- A refresh token is refused.  If it was consumed, it was presented again. -/
def History.refuse (history : History) (jti : Text) (familyId : Option Text) : History :=
  if history.consumed.contains jti then
    { history with replayed := familyId.toList ++ history.replayed }
  else history

/-- The claims of a refresh token whose life is over. -/
def Jwt.expired (token : Jwt) (now : Instant) : Option OAuthClaims :=
  match token with
  | .unsigned _ => none
  | .signed typ claims =>
    if typ = typRefresh ∧ claims.exp ≤ timestamp now then some claims else none

theorem expired_eq_some {token : Jwt} {now : Instant} {claims : OAuthClaims}
    (h : token.expired now = some claims) :
  token = .signed typRefresh claims
  := by
  cases token with
  | unsigned reason => cases h
  | signed typ signedClaims =>
    rw [Jwt.expired] at h
    split at h
    · rename_i hold
      cases h
      rw [hold.1]
    · cases h

/-- A token that verifies has not reached the end of its life. -/
theorem expired_of_verifyOauthJwt {token : Jwt} {now : Instant} {claims : OAuthClaims}
    (h : verifyOauthJwt token typRefresh now = .ok claims) :
  token.expired now = none
  := by
  cases token with
  | unsigned reason => rfl
  | signed typ signedClaims =>
    rw [verifyOauthJwt] at h
    split at h
    · cases h
    · split at h
      · cases h
      · rename_i halive
        exact if_neg fun hold => halive hold.2

/-- The checks of a refresh answer that the token grants nothing. -/
def refusesGrant (choice : TokenChoice) (handle : RefreshHandle) (proofJkt : Text) : Bool :=
  match Oauth.checkRefresh choice handle proofJkt with
  | .error error => error.name = textOf "invalid_grant"
  | .ok () => false

theorem refusesGrant_of_ok {choice : TokenChoice} {handle : RefreshHandle} {proofJkt : Text}
    (h : Oauth.checkRefresh choice handle proofJkt = .ok ()) :
  refusesGrant choice handle proofJkt = false
  := by
  rw [refusesGrant, h]

/-- What a step of a request adds to the history. -/
def History.after (server : AuthServer) (choice : TokenChoice) (call : TokenCall)
    (state : OAuthState) (history : History) : History :=
  match call with
  | .takeCode _ code _ =>
    if choice.works ∧ (state.takeCode server.backend (choice.clock 0) code).1.isSome then
      { history with redeemed := code :: history.redeemed }
    else history
  | .checkCode _ code auth proofJkt =>
    match choice.authenticated with
    | .error _ => history
    | .ok clientKid =>
      let terms : Terms := {
        did := auth.did
        clientId := auth.request.clientId
        dpopJkt := proofJkt
        scope := auth.request.scope
        clientKid := clientKid
        grantStartedAt := some (choice.clock 0)
        actingDid := auth.actingDid }
      { history with
        terms := Function.update history.terms (familyForCode server.sha256 code) (some terms) }
  | .revokeCode code =>
    if choice.works ∧ history.redeemed.contains code then
      { history with replayed := familyForCode server.sha256 code :: history.replayed }
    else history
  | .peek _ token _ =>
    match token.expired (choice.clock 0) with
    | none => history
    | some claims => history.refuse claims.jti claims.fam
  | .revokeClaims claims =>
    if choice.works then history.refuse claims.jti claims.fam else history
  | .checkRefresh oldJti handle proofJkt =>
    if refusesGrant choice handle proofJkt then history.refuse oldJti handle.familyId else history
  | .revokeEnded oldJti handle =>
    if choice.works then history.refuse oldJti handle.familyId else history
  | .rotate oldJti handle _ =>
    if choice.works then
      match state.rotateRefresh server.backend (choice.clock 0) oldJti choice.rotatedJti with
      | .error _ => history
      | .ok (none, _) => history.refuse oldJti handle.familyId
      | .ok (some handle, _) =>
        let familyId := (OAuthState.rotatedHandle server.backend (choice.clock 0) handle).familyId
        { history.draw (.refresh oldJti) choice.rotatedJti familyId with
          consumed := oldJti :: history.consumed }
    else history
  | .issue source grant _ => history.draw source choice.refreshJti grant.familyId
  | .register _ _ _ response =>
    match response.refreshToken with
    | .unsigned _ => history
    | .signed _ claims =>
      if choice.works then { history with handed := claims :: history.handed } else history
  | .done _ => history

/-- The state of the server with what has happened. -/
structure Observed where
  state : OAuthState
  history : History

/-- Nothing is stored and nothing has happened. -/
def Observed.start : Observed := ⟨OAuthState.empty, History.empty⟩

/-- One step of a request. -/
def TokenCall.observed (server : AuthServer) (choice : TokenChoice) (call : TokenCall)
    (now : Observed) : TokenCall × Observed :=
  let next := call.advance server choice now.state
  (next.1, ⟨next.2, now.history.after server choice call now.state⟩)

theorem observed_done (server : AuthServer) (choice : TokenChoice)
    (result : Except XrpcError TokenResponse) (now : Observed) :
  (TokenCall.done result).observed server choice now = (.done result, now)
  := by
  rw [TokenCall.observed, advance_done, History.after]

/-! ### Events -/

/-- What happens to the state beside the token endpoint.  The portal drops rows of the SQL table
only. -/
inductive OAuthEvent where
  | issueCode (now : Instant) (code did : Text) (request : OAuthRequest) (actingDid : Option Text)
  | revokeRefresh (jti : Text)
  | revokeRefreshFamily (familyId : Text)
  | deleteOauthRefreshFor (did : Text)
  | revokeOauthGrantsForClient (did clientId : Text)
  | revokeOauthGrantsForDelegate (did delegateDid : Text)

/-- A change of the SQL tables. -/
def onSql (backend : OAuthBackend) (change : OAuthState → OAuthState) (state : OAuthState) :
    OAuthState :=
  match backend with
  | .memory => state
  | .sql => change state

/-- The state after an event. -/
def OAuthEvent.apply (backend : OAuthBackend) (event : OAuthEvent) (state : OAuthState) :
    OAuthState :=
  match event with
  | .issueCode now code did request actingDid =>
    state.issueCode backend now code did request actingDid
  | .revokeRefresh jti => (state.revokeRefresh jti).2
  | .revokeRefreshFamily familyId => (state.revokeRefreshFamily familyId).2
  | .deleteOauthRefreshFor did => onSql backend (fun state => state.deleteOauthRefreshFor did) state
  | .revokeOauthGrantsForClient did clientId =>
    onSql backend (fun state => (state.revokeOauthGrantsForClient did clientId).2) state
  | .revokeOauthGrantsForDelegate did delegateDid =>
    onSql backend (fun state => (state.revokeOauthGrantsForDelegate did delegateDid).2) state

/-- An event and what it adds to the history. -/
def OAuthEvent.observed (backend : OAuthBackend) (event : OAuthEvent) (now : Observed) :
    Observed where
  state := event.apply backend now.state
  history :=
    match event with
    | .issueCode _ code _ _ _ => { now.history with issued := code :: now.history.issued }
    | .revokeRefresh _ => now.history
    | .revokeRefreshFamily _ => now.history
    | .deleteOauthRefreshFor _ => now.history
    | .revokeOauthGrantsForClient _ _ => now.history
    | .revokeOauthGrantsForDelegate _ _ => now.history

/-! ### What is random -/

/-- The identifiers that a step can draw were not drawn before. -/
structure History.Fresh (history : History) (choice : TokenChoice) : Prop where
  rotatedJti : history.drawn choice.rotatedJti = none
  refreshJti : history.drawn choice.refreshJti = none

/-- A code that is issued has a family of its own. -/
def History.FreshEvent (server : AuthServer) (history : History) : OAuthEvent → Prop
  | .issueCode _ code _ _ _ =>
    ∀ earlier ∈ history.issued,
      familyForCode server.sha256 earlier ≠ familyForCode server.sha256 code
  | .revokeRefresh _ => True
  | .revokeRefreshFamily _ => True
  | .deleteOauthRefreshFor _ => True
  | .revokeOauthGrantsForClient _ _ => True
  | .revokeOauthGrantsForDelegate _ _ => True

instance {history : History} {choice : TokenChoice} : Decidable (history.Fresh choice) :=
  decidable_of_iff
    (history.drawn choice.rotatedJti = none ∧ history.drawn choice.refreshJti = none)
    ⟨fun h => ⟨h.1, h.2⟩, fun h => ⟨h.rotatedJti, h.refreshJti⟩⟩

instance {server : AuthServer} {history : History} :
    DecidablePred (history.FreshEvent server)
  | .issueCode _ code _ _ _ =>
    inferInstanceAs (Decidable (∀ earlier ∈ history.issued,
      familyForCode server.sha256 earlier ≠ familyForCode server.sha256 code))
  | .revokeRefresh _ => inferInstanceAs (Decidable True)
  | .revokeRefreshFamily _ => inferInstanceAs (Decidable True)
  | .deleteOauthRefreshFor _ => inferInstanceAs (Decidable True)
  | .revokeOauthGrantsForClient _ _ => inferInstanceAs (Decidable True)
  | .revokeOauthGrantsForDelegate _ _ => inferInstanceAs (Decidable True)

/-! ### The codes -/

variable {server : AuthServer} {now : Observed}

/-- The codes that can be taken were issued and not taken before, and each one has a family of its
own. -/
structure SoundCodes (server : AuthServer) (now : Observed) : Prop where
  issued : ∀ x ∈ now.state.authCodes, x.1 ∈ now.history.issued
  unspent : ∀ x ∈ now.state.authCodes, x.1 ∉ now.history.redeemed
  redeemed : ∀ code ∈ now.history.redeemed, code ∈ now.history.issued
  apart : ∀ a ∈ now.history.issued, ∀ b ∈ now.history.issued,
    familyForCode server.sha256 a = familyForCode server.sha256 b → a = b

/-- A family whose code was taken. -/
def History.Spent (server : AuthServer) (history : History) (familyId : Text) : Prop :=
  ∃ code ∈ history.redeemed, familyForCode server.sha256 code = familyId

theorem soundCodes_start :
  SoundCodes server Observed.start
  where
  issued := fun _ h => absurd h List.not_mem_nil
  unspent := fun _ h => absurd h List.not_mem_nil
  redeemed := fun _ h => absurd h List.not_mem_nil
  apart := fun _ h => absurd h List.not_mem_nil

/-- A code is issued that has a family of its own. -/
theorem SoundCodes.issueCode (h : SoundCodes server now) {backend : OAuthBackend}
    {instant : Instant} {code did : Text} {request : OAuthRequest} {actingDid : Option Text}
    (hfresh : ∀ earlier ∈ now.history.issued,
      familyForCode server.sha256 earlier ≠ familyForCode server.sha256 code) :
  SoundCodes server
    ((OAuthEvent.issueCode instant code did request actingDid).observed backend now)
  := by
  have hnew : code ∉ now.history.issued := fun hmem => hfresh code hmem rfl
  refine ⟨?_, ?_, ?_, ?_⟩
  · intro x hx
    rcases mem_insert.mp (mem_of_mem_gc hx) with rfl | hx
    · exact List.mem_cons_self
    · exact List.mem_cons_of_mem _ (h.issued x (mem_of_mem_erase hx).1)
  · intro x hx hmem
    rcases mem_insert.mp (mem_of_mem_gc hx) with rfl | hx
    · exact hnew (h.redeemed _ hmem)
    · exact h.unspent x (mem_of_mem_erase hx).1 hmem
  · intro spent hmem
    exact List.mem_cons_of_mem _ (h.redeemed spent hmem)
  · intro a ha b hb hfamily
    rcases List.mem_cons.mp ha with hcode | hearlier
    · rcases List.mem_cons.mp hb with hcode' | hearlier'
      · rw [hcode, hcode']
      · rw [hcode] at hfamily
        exact absurd hfamily.symm (hfresh b hearlier')
    · rcases List.mem_cons.mp hb with hcode' | hearlier'
      · rw [hcode'] at hfamily
        exact absurd hfamily (hfresh a hearlier)
      · exact h.apart a hearlier b hearlier' hfamily

end Atproto.Pds.Oauth
