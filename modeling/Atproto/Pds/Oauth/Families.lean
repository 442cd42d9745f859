import Atproto.Pds.Oauth.Reuse

/-!
# The rows of a family

Requests are answered one after the other.  An exchange leaves one row in the family of its code, and
the row belongs to the refresh token that was handed out.  A refresh rotates the row under one
identifier and registers another one, and the row that it rotated stays without a token.
-/

namespace Atproto.Pds.Oauth

open Atproto.Dasl Atproto.Repo Logic Logic.Machine SearchTree

variable (server : AuthServer)

/-! ### Runs -/

/-- A request that is answered, or an event. -/
inductive TokenOp where
  | token (request : TokenRequest) (choices : List TokenChoice)
  | event (event : OAuthEvent)

/-- A step of a request on its own. -/
def callStep (x : TokenCall × Observed) (choice : TokenChoice) : TokenCall × Observed :=
  x.1.observed server choice x.2

/-- The state after an operation. -/
def opStep (now : Observed) : TokenOp → Observed
  | .token request choices => (run (callStep server) (request.begin, now) choices).2
  | .event event => event.observed server.backend now

/-- The request hands out tokens. -/
def TokenCall.handsOut : TokenCall → Bool
  | .done (.ok _) => true
  | .done (.error _) => false
  | .takeCode _ _ _ => false
  | .revokeCode _ => false
  | .checkCode _ _ _ _ => false
  | .peek _ _ _ => false
  | .revokeClaims _ => false
  | .checkRefresh _ _ _ => false
  | .revokeEnded _ _ => false
  | .rotate _ _ _ => false
  | .issue _ _ _ => false
  | .register _ _ _ _ => false

/-- The operation succeeds. -/
def Succeeds (now : Observed) : TokenOp → Prop
  | .token request choices =>
    (run (callStep server) (request.begin, now) choices).1.handsOut = true
  | .event _ => True

/-- What the operation draws at random is fresh. -/
def FreshOp (now : Observed) : TokenOp → Prop
  | .token request choices =>
    Along (callStep server) (fun x choice => x.2.history.Fresh choice) (request.begin, now) choices
  | .event event => now.history.FreshEvent server event

/-- The operation exchanges a refresh token. -/
def TokenOp.isRefresh : TokenOp → Bool
  | .token request _ => request.input.grantType = refreshTokenGrant
  | .event _ => false

instance {now : Observed} : DecidablePred (Succeeds server now)
  | .token request choices =>
    inferInstanceAs (Decidable
      ((run (callStep server) (request.begin, now) choices).1.handsOut = true))
  | .event _ => inferInstanceAs (Decidable True)

instance {now : Observed} : DecidablePred (FreshOp server now)
  | .token request choices =>
    inferInstanceAs (Decidable (Along (callStep server)
      (fun x choice => x.2.history.Fresh choice) (request.begin, now) choices))
  | .event event => inferInstanceAs (Decidable (now.history.FreshEvent server event))

/-! ### The invariant -/

/-- The identifier of the refresh token of a family that was handed out last. -/
def History.lastHanded (history : History) (familyId : Text) : Option Text :=
  (history.handed.find? fun claims => claims.fam = some familyId).map OAuthClaims.jti

/-- A family has at most one row, and the row belongs to the refresh token that was handed out last.
The rows of a family carry the terms of its exchange.  When the family of a code is revoked, no row
is left that descends from the code. -/
structure OneRowEach (now : Observed) : Prop where
  single : ∀ a ∈ now.state.refreshTokens, ∀ b ∈ now.state.refreshTokens,
    a.2.familyId = b.2.familyId → a.1 = b.1
  last : ∀ row ∈ now.state.refreshTokens, now.history.lastHanded row.2.familyId = some row.1
  terms : ∀ row ∈ now.state.refreshTokens, now.history.terms row.2.familyId = some row.2.terms
  revoked : ∀ code,
    ∀ row ∈ (now.state.revokeRefreshFamily (familyForCode server.sha256 code)).2.refreshTokens,
      ∀ descent, now.history.drawn row.1 = some descent → descent.code ≠ code

/-- The rows are stored in the families of the codes that they descend from. -/
structure RegularRows (now : Observed) : Prop where
  codes : SoundCodes server now
  rows : ∀ row ∈ now.state.refreshTokens, ∃ code ∈ now.history.redeemed,
    row.2.familyId = familyForCode server.sha256 code ∧
      now.history.drawn row.1 = some ⟨code, familyForCode server.sha256 code⟩
  handed : ∀ claims ∈ now.history.handed, now.history.drawn claims.jti ≠ none
  each : OneRowEach server now

variable {server} {now next : Observed} {choices : List TokenChoice} {choice : TokenChoice}
  {response : TokenResponse} {source : GrantSource} {grant : Grant} {dpopJkt : Text}

theorem regularRows_start :
  RegularRows server Observed.start
  := by
  refine ⟨soundCodes_start, ?_, ?_, ?_, ?_, ?_, ?_⟩
  · intro row hrow
    cases hrow
  · intro claims hclaims
    cases hclaims
  · intro a ha
    cases ha
  · intro row hrow
    cases hrow
  · intro row hrow
    cases hrow
  · intro code row hrow
    cases hrow

/-! ### What a request that succeeds has done -/

/-- A request that has its answer stays. -/
theorem run_done {result : Except XrpcError TokenResponse} :
  run (callStep server) (.done result, now) choices = (.done result, now)
  := by
  induction choices with
  | nil => rfl
  | cons choice choices ih => exact ih

/-- A request that was refused hands out nothing. -/
theorem not_handsOut_refused {error : XrpcError} :
  (run (callStep server) (.done (.error error), now) choices).1.handsOut ≠ true
  := by
  rw [run_done]
  exact Bool.false_ne_true

/-- Steps of a call that are fresh and hand out tokens. -/
structure Ends (server : AuthServer) (call : TokenCall) (now next : Observed)
    (choices : List TokenChoice) : Prop where
  fresh : Along (callStep server) (fun x choice => x.2.history.Fresh choice) (call, now) choices
  handsOut : (run (callStep server) (call, now) choices).1.handsOut = true
  state : (run (callStep server) (call, now) choices).2 = next

/-- The steps of a call that hand out tokens begin with a step. -/
theorem Ends.step {call : TokenCall} (h : Ends server call now next choices)
    (hcall : call.handsOut = false) :
  ∃ choice rest, choices = choice :: rest ∧ now.history.Fresh choice ∧
    Ends server (call.observed server choice now).1 (call.observed server choice now).2 next rest
  := by
  cases choices with
  | nil =>
    have hnot : call.handsOut = true := h.handsOut
    rw [hcall] at hnot
    cases hnot
  | cons choice rest => exact ⟨choice, rest, rfl, h.fresh.1, h.fresh.2, h.handsOut, h.state⟩

theorem Ends.not_refused {error : XrpcError}
    (h : Ends server (.done (.error error)) now next choices) :
  False
  := not_handsOut_refused h.handsOut

/-- A pair of tokens that is issued. -/
theorem Ends.issue (h : Ends server (.issue source grant dpopJkt) now next choices) :
  ∃ choice epoch, now.history.Fresh choice ∧
    next.state = now.state.registerRefresh choice.refreshJti
      (issuedHandle server grant dpopJkt choice) ∧
    next.history =
      { now.history.draw source choice.refreshJti grant.familyId with
        handed := refreshClaims server grant dpopJkt choice epoch :: now.history.handed }
  := by
  obtain ⟨choice, rest, -, hfresh, h⟩ := h.step rfl
  rw [TokenCall.observed, TokenCall.advance, History.after] at h
  cases hepoch : choice.epoch with
  | error error =>
    rw [hepoch] at h
    exact h.not_refused.elim
  | ok epoch =>
    rw [hepoch] at h
    obtain ⟨later, rest', -, -, h⟩ := h.step rfl
    rw [TokenCall.observed, TokenCall.advance, onStorage, History.after] at h
    cases hworks : later.works with
    | false =>
      rw [hworks] at h
      exact h.not_refused.elim
    | true =>
      rw [hworks] at h
      have hstate := h.state
      dsimp only at hstate
      rw [if_pos rfl, if_pos rfl, run_done] at hstate
      have hhanded : (now.history.draw source choice.refreshJti grant.familyId).handed =
          now.history.handed := draw_handed
      refine ⟨choice, epoch, hfresh, ?_, ?_⟩
      · rw [← hstate]
      · rw [← hstate, ← hhanded]

/-- What an exchange that succeeds has done: the code is taken, a row is registered in its family,
and the token of the row is handed out. -/
structure Exchanged (server : AuthServer) (now next : Observed) (code jti : Text)
    (handle : RefreshHandle) (claims : OAuthClaims) : Prop where
  taken : ∃ auth, (code, auth) ∈ now.state.authCodes
  authCodes : ∀ x ∈ next.state.authCodes, x ∈ now.state.authCodes ∧ x.1 ≠ code
  rows : next.state.refreshTokens = insert jti handle now.state.refreshTokens
  family : handle.familyId = familyForCode server.sha256 code
  fresh : now.history.drawn jti = none
  history : next.history = { now.history with
    redeemed := code :: now.history.redeemed
    drawn := Function.update now.history.drawn jti (some ⟨code, familyForCode server.sha256 code⟩)
    handed := claims :: now.history.handed
    terms := Function.update now.history.terms (familyForCode server.sha256 code)
      (some handle.terms) }
  jti : claims.jti = jti
  fam : claims.fam = some handle.familyId

theorem Ends.checkCode {input : TokenInput} {code proofJkt : Text} {auth : AuthorizationCode}
    (h : Ends server (.checkCode input code auth proofJkt) now next choices) :
  ∃ jti handle claims, next.state = now.state.registerRefresh jti handle ∧
    handle.familyId = familyForCode server.sha256 code ∧ now.history.drawn jti = none ∧
    next.history = { now.history with
      drawn := Function.update now.history.drawn jti (some ⟨code, familyForCode server.sha256 code⟩)
      handed := claims :: now.history.handed
      terms := Function.update now.history.terms (familyForCode server.sha256 code)
        (some handle.terms) } ∧
    claims.jti = jti ∧ claims.fam = some handle.familyId
  := by
  obtain ⟨first, rest, -, -, h⟩ := h.step rfl
  rw [TokenCall.observed, TokenCall.advance, History.after] at h
  cases hchecked : checkExchange server input auth proofJkt with
  | error error =>
    rw [hchecked] at h
    exact h.not_refused.elim
  | ok checked =>
    cases hauthenticated : first.authenticated with
    | error error =>
      rw [hchecked, hauthenticated] at h
      exact h.not_refused.elim
    | ok clientKid =>
      rw [hchecked, hauthenticated] at h
      obtain ⟨choice, epoch, hfresh, hstate, hhistory⟩ := h.issue
      let grant : Grant := {
        did := auth.did
        clientId := auth.request.clientId
        scope := auth.request.scope
        familyId := familyForCode server.sha256 code
        clientKid := clientKid
        startedAt := first.clock 0
        actingDid := auth.actingDid }
      exact ⟨choice.refreshJti, issuedHandle server grant proofJkt choice,
        refreshClaims server grant proofJkt choice epoch, hstate, rfl, hfresh.refreshJti, hhistory,
        rfl, rfl⟩

theorem Ends.takeCode {input : TokenInput} {code proofJkt : Text}
    (h : Ends server (.takeCode input code proofJkt) now next choices) :
  ∃ jti handle claims, Exchanged server now next code jti handle claims
  := by
  obtain ⟨first, rest, -, -, h⟩ := h.step rfl
  rw [TokenCall.observed, TokenCall.advance, onStorage, History.after] at h
  cases hworks : first.works with
  | false =>
    rw [hworks] at h
    exact h.not_refused.elim
  | true =>
    rw [hworks, if_pos rfl] at h
    have htakes : Takes code now.state
        (now.state.takeCode server.backend (first.clock 0) code) := takes_takeCode
    cases htake : now.state.takeCode server.backend (first.clock 0) code with
    | mk found state =>
      rw [htake] at h htakes
      cases found with
      | none =>
        obtain ⟨second, rest', -, -, h⟩ := h.step rfl
        rw [TokenCall.observed, TokenCall.advance, onStorage] at h
        split at h
        · exact h.not_refused.elim
        · exact h.not_refused.elim
      | some auth =>
        have htaken : true = true ∧ (some auth).isSome = true := ⟨rfl, rfl⟩
        rw [if_pos htaken] at h
        obtain ⟨jti, handle, claims, hstate, hfamily, hfresh, hhistory, hjti, hfam⟩ := h.checkCode
        refine ⟨jti, handle, claims, ⟨auth, htakes.found auth rfl⟩, ?_, ?_, hfamily, hfresh,
          hhistory, hjti, hfam⟩
        · intro x hx
          rw [hstate] at hx
          exact ⟨htakes.authCodes x hx, htakes.gone x hx⟩
        · have hrows : state.refreshTokens = now.state.refreshTokens := htakes.refreshTokens
          rw [hstate, ← hrows]
          rfl

/-- What a refresh that succeeds has done: a row is rotated under an identifier, and another row is
registered whose token is handed out. -/
structure Refreshed (now next : Observed) (oldJti rotatedJti refreshJti : Text)
    (rotated handle : RefreshHandle) (claims : OAuthClaims) : Prop where
  found : ∃ old, (oldJti, old) ∈ now.state.refreshTokens
  rows : next.state.refreshTokens =
    insert refreshJti handle (insert rotatedJti rotated (erase oldJti now.state.refreshTokens))
  rotatedFresh : now.history.drawn rotatedJti = none
  refreshFresh : now.history.drawn oldJti ≠ none → refreshJti ≠ rotatedJti
  handed : next.history.handed = claims :: now.history.handed
  jti : claims.jti = refreshJti

theorem Ends.rotate {oldJti : Text} {handle : RefreshHandle} {grantStartedAt : Instant}
    (h : Ends server (.rotate oldJti handle grantStartedAt) now next choices) :
  ∃ rotatedJti refreshJti rotated handle claims,
    Refreshed now next oldJti rotatedJti refreshJti rotated handle claims
  := by
  obtain ⟨first, rest, -, hfirst, h⟩ := h.step rfl
  rw [TokenCall.observed, TokenCall.advance, onStorage, History.after] at h
  cases hworks : first.works with
  | false =>
    rw [hworks] at h
    exact h.not_refused.elim
  | true =>
    rw [hworks, if_pos rfl, if_pos rfl] at h
    cases hrow : lookup oldJti now.state.refreshTokens with
    | none =>
      rw [rotateRefresh_of_none hrow] at h
      exact h.not_refused.elim
    | some old =>
      rcases rotateRefresh_of_some server.backend (first.clock 0) first.rotatedJti hrow with
        hfails | hrotates
      · rw [hfails] at h
        exact h.not_refused.elim
      · rw [hrotates] at h
        obtain ⟨choice, epoch, hfresh, hstate, hhistory⟩ := h.issue
        let grant : Grant := {
          did := old.did
          clientId := old.clientId
          scope := old.scope
          familyId := old.familyId
          clientKid := old.clientKid
          startedAt := grantStartedAt
          actingDid := old.actingDid }
        refine ⟨first.rotatedJti, choice.refreshJti,
          OAuthState.rotatedHandle server.backend (first.clock 0) old,
          issuedHandle server grant old.dpopJkt choice,
          refreshClaims server grant old.dpopJkt choice epoch,
          ⟨old, mem_of_lookup hrow⟩, ?_, hfirst.rotatedJti, ?_, ?_, rfl⟩
        · rw [hstate]
          rfl
        · intro hdrawn heq
          obtain ⟨descent, hdescent⟩ := Option.ne_none_iff_exists'.mp hdrawn
          have horigin : (GrantSource.origin now.history (.refresh oldJti)).isSome = true := by
            rw [GrantSource.origin, hdescent]
            rfl
          obtain ⟨rotated, hrotated, -⟩ := @draw_drawn
            (OAuthState.rotatedHandle server.backend (first.clock 0) old).familyId now.history
            (.refresh oldJti) first.rotatedJti horigin
          have hnone := hfresh.refreshJti
          dsimp only at hnone
          rw [heq, hrotated] at hnone
          cases hnone
        · rw [hhistory]
          dsimp only
          rw [draw_handed]

theorem Ends.peek {input : TokenInput} {token : Jwt} {proofJkt : Text}
    (h : Ends server (.peek input token proofJkt) now next choices) :
  ∃ oldJti rotatedJti refreshJti rotated handle claims,
    Refreshed now next oldJti rotatedJti refreshJti rotated handle claims
  := by
  obtain ⟨first, rest, -, -, h⟩ := h.step rfl
  rw [TokenCall.observed, TokenCall.advance, History.after] at h
  cases hverify : verifyOauthJwt token typRefresh (first.clock 0) with
  | error reason =>
    rw [hverify] at h
    exact h.not_refused.elim
  | ok claims =>
    rw [hverify, expired_of_verifyOauthJwt hverify] at h
    dsimp only at h
    split at h
    · exact h.not_refused.elim
    · rw [onStorage] at h
      split at h
      · cases hpeek : now.state.peekRefresh claims.jti with
        | none =>
          rw [hpeek] at h
          obtain ⟨second, rest', -, -, h⟩ := h.step rfl
          rw [TokenCall.observed, TokenCall.advance] at h
          cases hfam : claims.fam with
          | none =>
            rw [hfam] at h
            exact h.not_refused.elim
          | some familyId =>
            rw [hfam] at h
            dsimp only at h
            rw [onStorage] at h
            split at h
            · exact h.not_refused.elim
            · exact h.not_refused.elim
        | some handle =>
          rw [hpeek] at h
          obtain ⟨second, rest', -, -, h⟩ := h.step rfl
          rw [TokenCall.observed, TokenCall.advance, History.after] at h
          cases hchecked : checkRefresh second handle proofJkt with
          | error error =>
            rw [hchecked] at h
            exact h.not_refused.elim
          | ok checked =>
            rw [hchecked, refusesGrant_of_ok hchecked, if_neg Bool.false_ne_true] at h
            dsimp only at h
            split at h
            · obtain ⟨third, rest'', -, -, h⟩ := h.step rfl
              rw [TokenCall.observed, TokenCall.advance, onStorage] at h
              split at h
              · exact h.not_refused.elim
              · exact h.not_refused.elim
            · exact ⟨claims.jti, h.rotate⟩
      · exact h.not_refused.elim

/-! ### Exchanges, refreshes and events -/

/-- The row of an exchange is the only one of its family. -/
theorem RegularRows.exchange (h : RegularRows server now) {code jti : Text}
    {handle : RefreshHandle} {claims : OAuthClaims}
    (hdone : Exchanged server now next code jti handle claims) :
  RegularRows server next
  := by
  obtain ⟨state, history⟩ := next
  obtain ⟨⟨auth, htaken⟩, hcodes, hrows, hfamily, hfresh, hhistory, hjti, hfam⟩ := hdone
  dsimp only at hcodes hrows hhistory
  subst hhistory
  have hunspent : code ∉ now.history.redeemed := h.codes.unspent _ htaken
  have hother : ∀ row ∈ now.state.refreshTokens,
      row.2.familyId ≠ familyForCode server.sha256 code := by
    intro row hrow heq
    obtain ⟨spent, hspent, hfamily, -⟩ := h.rows row hrow
    have hsame := h.codes.apart spent (h.codes.redeemed spent hspent) code
      (h.codes.issued _ htaken) (hfamily.symm.trans heq)
    exact hunspent (hsame ▸ hspent)
  have hmem : ∀ row ∈ state.refreshTokens,
      row = (jti, handle) ∨ row ∈ now.state.refreshTokens := by
    intro row hrow
    rw [hrows] at hrow
    exact (mem_insert.mp hrow).imp_right fun hmem => (mem_of_mem_erase hmem).1
  have hdrawn : ∀ row ∈ now.state.refreshTokens, row.1 ≠ jti := by
    intro row hrow heq
    obtain ⟨spent, -, -, hspent⟩ := h.rows row hrow
    rw [heq, hfresh] at hspent
    cases hspent
  refine ⟨⟨?_, ?_, ?_, h.codes.apart⟩, ?_, ?_, ?_, ?_, ?_, ?_⟩
  · intro x hx
    exact h.codes.issued x (hcodes x hx).1
  · intro x hx hspent
    rcases List.mem_cons.mp hspent with heq | hspent
    · exact (hcodes x hx).2 heq
    · exact h.codes.unspent x (hcodes x hx).1 hspent
  · intro spent hspent
    rcases List.mem_cons.mp hspent with rfl | hspent
    · exact h.codes.issued _ htaken
    · exact h.codes.redeemed spent hspent
  · intro row hrow
    rcases hmem row hrow with rfl | hrow
    · exact ⟨code, List.mem_cons_self, hfamily, Function.update_self ..⟩
    · obtain ⟨spent, hspent, hrowFamily, hrowDrawn⟩ := h.rows row hrow
      refine ⟨spent, List.mem_cons_of_mem _ hspent, hrowFamily, ?_⟩
      dsimp only
      rw [Function.update_of_ne (hdrawn row hrow)]
      exact hrowDrawn
  · intro other hother
    dsimp only
    rcases List.mem_cons.mp hother with rfl | hother
    · rw [hjti, Function.update_self]
      exact Option.some_ne_none _
    · have hsome := h.handed other hother
      rw [Function.update_of_ne]
      · exact hsome
      · intro heq
        rw [heq] at hsome
        exact hsome hfresh
  · intro a ha b hb hsame
    rcases hmem a ha with rfl | ha
    · rcases hmem b hb with rfl | hb
      · rfl
      · exact absurd (hsame.symm.trans hfamily) (hother b hb)
    · rcases hmem b hb with rfl | hb
      · exact absurd (hsame.trans hfamily) (hother a ha)
      · exact h.each.single a ha b hb hsame
  · intro row hrow
    rw [History.lastHanded]
    dsimp only
    rcases hmem row hrow with rfl | hrow
    · rw [List.find?_cons_of_pos (by simpa using hfam), Option.map_some, hjti]
    · have hskip : ¬ claims.fam = some row.2.familyId := by
        rw [hfam, Option.some.injEq, hfamily]
        exact (hother row hrow).symm
      rw [List.find?_cons_of_neg (by simpa using hskip)]
      exact h.each.last row hrow
  · intro row hrow
    dsimp only
    rcases hmem row hrow with rfl | hrow
    · rw [hfamily, Function.update_self]
    · rw [Function.update_of_ne (hother row hrow)]
      exact h.each.terms row hrow
  · intro descended row hrow descent hdescent heq
    have hgone := revokeRefreshFamily_gone row hrow
    dsimp only at hdescent
    rcases hmem row (mem_of_mem_revokeRefreshFamily hrow) with rfl | hrow
    · rw [Function.update_self] at hdescent
      obtain rfl := Option.some.inj hdescent
      dsimp only at heq
      rw [← heq] at hgone
      exact hgone hfamily
    · obtain ⟨spent, -, hrowFamily, hrowDrawn⟩ := h.rows row hrow
      rw [Function.update_of_ne (hdrawn row hrow), hrowDrawn] at hdescent
      obtain rfl := Option.some.inj hdescent
      dsimp only at heq
      rw [← heq] at hgone
      exact hgone hrowFamily

/-- The row that a refresh has rotated belongs to no token. -/
theorem RegularRows.not_refresh (h : RegularRows server now)
    {oldJti rotatedJti refreshJti : Text} {rotated handle : RefreshHandle} {claims : OAuthClaims}
    (hdone : Refreshed now next oldJti rotatedJti refreshJti rotated handle claims) :
  ¬ OneRowEach server next
  := by
  intro heach
  obtain ⟨⟨old, hold⟩, hrows, hrotatedFresh, hrefreshFresh, hhanded, hjti⟩ := hdone
  have hne : refreshJti ≠ rotatedJti := by
    apply hrefreshFresh
    obtain ⟨code, -, -, hdrawn⟩ := h.rows _ hold
    dsimp only at hdrawn
    rw [hdrawn]
    exact Option.some_ne_none _
  have hlookup : lookup rotatedJti next.state.refreshTokens = some rotated := by
    rw [hrows, lookup_insert, if_neg hne.symm, lookup_insert, if_pos rfl]
  have hlast := heach.last _ (mem_of_lookup hlookup)
  obtain ⟨found, hfound, hfoundJti⟩ := Option.map_eq_some_iff.mp hlast
  have hmem := List.mem_of_find?_eq_some hfound
  rw [hhanded] at hmem
  rcases List.mem_cons.mp hmem with rfl | hmem
  · exact hne (hjti.symm.trans hfoundJti)
  · apply h.handed found hmem
    rw [hfoundJti]
    exact hrotatedFresh

/-- Rows can be dropped. -/
theorem RegularRows.shrink (h : RegularRows server now) {state : OAuthState}
    (hcodes : state.authCodes = now.state.authCodes)
    (hrows : ∀ row ∈ state.refreshTokens, row ∈ now.state.refreshTokens) :
  RegularRows server ⟨state, now.history⟩
  := by
  refine ⟨⟨?_, ?_, h.codes.redeemed, h.codes.apart⟩, ?_, h.handed, ?_, ?_, ?_, ?_⟩
  · intro x hx
    exact h.codes.issued x (hcodes ▸ hx)
  · intro x hx
    exact h.codes.unspent x (hcodes ▸ hx)
  · intro row hrow
    exact h.rows row (hrows row hrow)
  · intro a ha b hb
    exact h.each.single a (hrows a ha) b (hrows b hb)
  · intro row hrow
    exact h.each.last row (hrows row hrow)
  · intro row hrow
    exact h.each.terms row (hrows row hrow)
  · intro code row hrow descent hdescent heq
    have hgone := revokeRefreshFamily_gone row hrow
    obtain ⟨spent, -, hfamily, hdrawn⟩ := h.rows row
      (hrows row (mem_of_mem_revokeRefreshFamily hrow))
    rw [hdrawn] at hdescent
    obtain rfl := Option.some.inj hdescent
    dsimp only at heq
    rw [← heq] at hgone
    exact hgone hfamily

/-- Events keep the rows. -/
theorem RegularRows.event (h : RegularRows server now) {event : OAuthEvent}
    (hfresh : now.history.FreshEvent server event) :
  RegularRows server (event.observed server.backend now)
  := by
  cases event with
  | revokeRefresh jti => exact h.shrink rfl fun _ hrow => (mem_of_mem_erase hrow).1
  | revokeRefreshFamily familyId =>
    exact h.shrink rfl fun _ hrow => mem_of_mem_revokeRefreshFamily hrow
  | deleteOauthRefreshFor did => exact h.shrink onSql_revokeWhere.1 onSql_revokeWhere.2
  | revokeOauthGrantsForClient did clientId =>
    exact h.shrink onSql_revokeWhere.1 onSql_revokeWhere.2
  | revokeOauthGrantsForDelegate did delegateDid =>
    exact h.shrink onSql_revokeWhere.1 onSql_revokeWhere.2
  | issueCode instant code did request actingDid =>
    exact ⟨h.codes.issueCode hfresh, h.rows, h.handed,
      ⟨h.each.single, h.each.last, h.each.terms, h.each.revoked⟩⟩

/-! ### Runs -/

/-- What a request that succeeds has done. -/
theorem Ends.begin {request : TokenRequest} (h : Ends server request.begin now next choices) :
  (request.input.grantType ≠ refreshTokenGrant ∧
    ∃ code jti handle claims, Exchanged server now next code jti handle claims) ∨
  (request.input.grantType = refreshTokenGrant ∧
    ∃ oldJti rotatedJti refreshJti rotated handle claims,
      Refreshed now next oldJti rotatedJti refreshJti rotated handle claims)
  := by
  have hgrants : authorizationCodeGrant ≠ refreshTokenGrant := by decide +kernel
  rw [TokenRequest.begin] at h
  split at h
  · exact h.not_refused.elim
  · split at h
    · rename_i hgrant
      split at h
      · exact h.not_refused.elim
      · refine .inl ⟨?_, _, h.takeCode⟩
        rw [hgrant]
        exact hgrants
    · split at h
      · rename_i hgrant
        split at h
        · exact h.not_refused.elim
        · exact .inr ⟨hgrant, h.peek⟩
      · exact h.not_refused.elim

/-- An operation that succeeds keeps one row in each family just when it is no refresh. -/
theorem oneRowEach_step {op : TokenOp} (h : RegularRows server now) (hfresh : FreshOp server now op)
    (hsucceeds : Succeeds server now op) :
  (op.isRefresh = true → ¬ OneRowEach server (opStep server now op)) ∧
  (op.isRefresh = false → RegularRows server (opStep server now op))
  := by
  cases op with
  | event event =>
    refine ⟨?_, fun _ => h.event hfresh⟩
    intro hrefresh
    cases hrefresh
  | token request choices =>
    have hends : Ends server request.begin now (opStep server now (.token request choices)) choices :=
      ⟨hfresh, hsucceeds, rfl⟩
    rcases hends.begin with ⟨hgrant, code, jti, handle, claims, hdone⟩ |
      ⟨hgrant, oldJti, rotatedJti, refreshJti, rotated, handle, claims, hdone⟩
    · refine ⟨?_, fun _ => h.exchange hdone⟩
      intro hrefresh
      exact absurd (of_decide_eq_true hrefresh) hgrant
    · refine ⟨fun _ => h.not_refresh hdone, ?_⟩
      intro hrefresh
      exact absurd hgrant (of_decide_eq_false hrefresh)

theorem oneRowEach_along {ops : List TokenOp} (h : RegularRows server now)
    (hfresh : Along (opStep server) (FreshOp server) now ops)
    (hsucceeds : Along (opStep server) (Succeeds server) now ops) :
  Along (opStep server) (fun now op => OneRowEach server (opStep server now op)) now ops ↔
    ∀ op ∈ ops, op.isRefresh = false
  := by
  induction ops generalizing now with
  | nil =>
    constructor
    · intro _ op hop
      cases hop
    · intro _
      trivial
  | cons op ops ih =>
    obtain ⟨hrefresh, hkept⟩ := oneRowEach_step h hfresh.1 hsucceeds.1
    rw [List.forall_mem_cons]
    cases hop : op.isRefresh with
    | true =>
      constructor
      · intro halong
        exact absurd halong.1 (hrefresh hop)
      · rintro ⟨hnot, -⟩
        cases hnot
    | false =>
      have hnext := hkept hop
      constructor
      · intro halong
        exact ⟨rfl, (ih hnext hfresh.2 hsucceeds.2).mp halong.2⟩
      · rintro ⟨-, hrest⟩
        exact ⟨hnext.each, (ih hnext hfresh.2 hsucceeds.2).mpr hrest⟩

/-- Along a run of operations that succeed, the families are as they should be after each of them
just when none is a refresh. -/
theorem oneRowEach_iff (server : AuthServer) {ops : List TokenOp}
    (hfresh : Along (opStep server) (FreshOp server) Observed.start ops)
    (hsucceeds : Along (opStep server) (Succeeds server) Observed.start ops) :
  Along (opStep server) (fun now op => OneRowEach server (opStep server now op)) Observed.start
      ops ↔
    ∀ op ∈ ops, op.isRefresh = false
  := oneRowEach_along regularRows_start hfresh hsucceeds

/-! ### A refresh -/

/-- The exchange of the code. -/
def exchangeOp : TokenOp :=
  .token sampleExchange [sampleChoice "a", sampleChoice "b", sampleChoice "c", sampleChoice "d"]

/-- The refresh with the token of the exchange. -/
def refreshOp (server : AuthServer) : TokenOp :=
  .token (sampleRefresh (sampleClaims server))
    [sampleChoice "e", sampleChoice "f", sampleChoice "g", sampleChoice "h", sampleChoice "i"]

/-- An exchange and then a refresh. -/
def refreshedRun (server : AuthServer) : List TokenOp :=
  [.event sampleCode, exchangeOp, refreshOp server]

theorem oneRowEach_iff_sample :
  Along (opStep sampleServer) (fun now op => OneRowEach sampleServer (opStep sampleServer now op))
      Observed.start (refreshedRun sampleServer) ↔
    ∀ op ∈ refreshedRun sampleServer, op.isRefresh = false
  := oneRowEach_iff sampleServer (by decide +kernel) (by decide +kernel)

/-- The server with its tables in memory. -/
def memoryServer : AuthServer := { sampleServer with backend := .memory }

/-- The state after the exchange and the refresh. -/
def refreshed (server : AuthServer) : Observed :=
  run (opStep server) Observed.start (refreshedRun server)

/-- A refresh leaves two rows in the SQL table, of which one belongs to no token.  In memory the
other row is in another family. -/
theorem not_oneRowEach :
  (refreshed sampleServer).state.refreshTokens.map (fun row => (row.1, row.2.familyId)) =
    [(textOf "refreshh", familyForCode id (textOf "code")),
      (textOf "rotatedg", familyForCode id (textOf "code"))] ∧
  (refreshed memoryServer).state.refreshTokens.map (fun row => (row.1, row.2.familyId)) =
    [(textOf "refreshh", familyForCode id (textOf "code")),
      (textOf "rotatedg", textOf "test-family")] ∧
  ∀ server ∈ [sampleServer, memoryServer],
    Along (opStep server) (FreshOp server) Observed.start (refreshedRun server) ∧
    Along (opStep server) (Succeeds server) Observed.start (refreshedRun server) ∧
    ¬ OneRowEach server (refreshed server)
  := by
  have hlast : ∀ server ∈ [sampleServer, memoryServer],
      ¬ ∀ row ∈ (refreshed server).state.refreshTokens,
        (refreshed server).history.lastHanded row.2.familyId = some row.1 := by
    decide +kernel
  refine ⟨by decide +kernel, by decide +kernel, ?_⟩
  intro server hserver
  have hruns : ∀ server ∈ [sampleServer, memoryServer],
      Along (opStep server) (FreshOp server) Observed.start (refreshedRun server) ∧
      Along (opStep server) (Succeeds server) Observed.start (refreshedRun server) := by
    decide +kernel
  obtain ⟨hfresh, hsucceeds⟩ := hruns server hserver
  exact ⟨hfresh, hsucceeds, fun heach => hlast server hserver heach.last⟩

end Atproto.Pds.Oauth
