import Atproto.Pds.Oauth.History

/-!
# Tokens that are presented again

A code or a refresh token that is presented again ends its grant: the family is revoked.  Between the
step that consumes a grant and the one that registers the next refresh token, the family has no row,
and a revocation that runs there finds nothing.  Along a run in which none runs there, a family that
was presented again never has a row.
-/

namespace Atproto.Pds.Oauth

open Atproto.Dasl Atproto.Repo Logic Logic.Machine SearchTree

variable (server : AuthServer)

/-! ### Runs -/

/-- The requests in flight and what they share. -/
abbrev TokenPool : Type := Pool Observed TokenCall

/-- What happens next. -/
abbrev TokenTurn : Type := Turn TokenRequest TokenChoice OAuthEvent

/-- One turn. -/
def tokenStep (pool : TokenPool) (turn : TokenTurn) : TokenPool :=
  pool.turn TokenRequest.begin (TokenCall.observed server) (OAuthEvent.observed server.backend) turn

/-- Nothing is stored and no request is in flight. -/
def tokenStart : TokenPool := ⟨Observed.start, []⟩

/-- A signed refresh token was handed out. -/
def Genuine (history : History) : Jwt → Prop
  | .signed typ claims => typ = typRefresh → claims ∈ history.handed
  | .unsigned _ => True

/-- What a turn can be: random identifiers and codes are fresh, and signatures are not forged. -/
def Possible (pool : TokenPool) : TokenTurn → Prop
  | .begin request =>
    ∀ token ∈ request.input.refreshToken, Genuine pool.shared.history token
  | .advance _ choice => pool.shared.history.Fresh choice
  | .outside event => pool.shared.history.FreshEvent server event

/-- A request that has consumed a grant of a family and has not registered the next refresh token
yet. -/
def TokenCall.Holds (familyId : Text) : TokenCall → Prop
  | .checkCode _ code _ _ => familyForCode server.sha256 code = familyId
  | .issue _ grant _ => grant.familyId = familyId
  | .register _ _ handle _ => handle.familyId = familyId
  | .takeCode _ _ _ => False
  | .revokeCode _ => False
  | .peek _ _ _ => False
  | .revokeClaims _ => False
  | .checkRefresh _ _ _ => False
  | .revokeEnded _ _ => False
  | .rotate _ _ _ => False
  | .done _ => False

instance {familyId : Text} : DecidablePred (TokenCall.Holds server familyId)
  | .checkCode _ code _ _ =>
    inferInstanceAs (Decidable (familyForCode server.sha256 code = familyId))
  | .issue _ grant _ => inferInstanceAs (Decidable (grant.familyId = familyId))
  | .register _ _ handle _ => inferInstanceAs (Decidable (handle.familyId = familyId))
  | .takeCode _ _ _ => inferInstanceAs (Decidable False)
  | .revokeCode _ => inferInstanceAs (Decidable False)
  | .peek _ _ _ => inferInstanceAs (Decidable False)
  | .revokeClaims _ => inferInstanceAs (Decidable False)
  | .checkRefresh _ _ _ => inferInstanceAs (Decidable False)
  | .revokeEnded _ _ => inferInstanceAs (Decidable False)
  | .rotate _ _ _ => inferInstanceAs (Decidable False)
  | .done _ => inferInstanceAs (Decidable False)

/-- No request in flight holds a grant of a family. -/
def Unheld (pool : TokenPool) (familyId : Text) : Prop :=
  ∀ call ∈ pool.calls, ¬ call.Holds server familyId

/-- No request in flight holds a grant of a family, and no row of it is left. -/
def Ended (pool : TokenPool) (familyId : Text) : Prop :=
  Unheld server pool familyId ∧ ∀ row ∈ pool.shared.state.refreshTokens, row.2.familyId ≠ familyId

/-- What a turn has to meet.  While a code or a refresh token is presented again and its family is
revoked, no request holds a grant of the family.  When a refresh token is presented again and
refused by a check that revokes nothing, or loses the race for its row, the family has ended
already. -/
def CarefulStep (pool : TokenPool) (choice : TokenChoice) : TokenCall → Prop
  | .revokeCode code =>
    choice.works = true → code ∈ pool.shared.history.redeemed →
      Unheld server pool (familyForCode server.sha256 code)
  | .peek _ token _ =>
    ∀ claims ∈ token.expired (choice.clock 0), claims.jti ∈ pool.shared.history.consumed →
      ∀ familyId ∈ claims.fam, Ended server pool familyId
  | .revokeClaims claims =>
    choice.works = true → claims.jti ∈ pool.shared.history.consumed →
      ∀ familyId ∈ claims.fam, Unheld server pool familyId
  | .checkRefresh oldJti handle proofJkt =>
    refusesGrant choice handle proofJkt = true → oldJti ∈ pool.shared.history.consumed →
      Ended server pool handle.familyId
  | .revokeEnded oldJti handle =>
    choice.works = true → oldJti ∈ pool.shared.history.consumed →
      Unheld server pool handle.familyId
  | .rotate oldJti handle _ =>
    choice.works = true → oldJti ∈ pool.shared.history.consumed →
      pool.shared.state.peekRefresh oldJti = none → Ended server pool handle.familyId
  | .takeCode _ _ _ => True
  | .checkCode _ _ _ _ => True
  | .issue _ _ _ => True
  | .register _ _ _ _ => True
  | .done _ => True

/-- The step of a request meets its condition, if the turn is one. -/
def CarefulPresentation (pool : TokenPool) : TokenTurn → Prop
  | .advance i choice => ∀ call ∈ pool.calls[i]?, CarefulStep server pool choice call
  | .begin _ => True
  | .outside _ => True

instance {history : History} : DecidablePred (Genuine history)
  | .signed typ claims => inferInstanceAs (Decidable (typ = typRefresh → claims ∈ history.handed))
  | .unsigned _ => inferInstanceAs (Decidable True)

instance {pool : TokenPool} : DecidablePred (Possible server pool)
  | .begin request =>
    inferInstanceAs (Decidable
      (∀ token ∈ request.input.refreshToken, Genuine pool.shared.history token))
  | .advance _ choice => inferInstanceAs (Decidable (pool.shared.history.Fresh choice))
  | .outside event => inferInstanceAs (Decidable (pool.shared.history.FreshEvent server event))

instance {pool : TokenPool} {familyId : Text} : Decidable (Unheld server pool familyId) :=
  inferInstanceAs (Decidable (∀ call ∈ pool.calls, ¬ call.Holds server familyId))

instance {pool : TokenPool} {familyId : Text} : Decidable (Ended server pool familyId) :=
  inferInstanceAs (Decidable (Unheld server pool familyId ∧
    ∀ row ∈ pool.shared.state.refreshTokens, row.2.familyId ≠ familyId))

instance {pool : TokenPool} {choice : TokenChoice} :
    DecidablePred (CarefulStep server pool choice)
  | .revokeCode code =>
    inferInstanceAs (Decidable (choice.works = true → code ∈ pool.shared.history.redeemed →
      Unheld server pool (familyForCode server.sha256 code)))
  | .revokeClaims claims =>
    inferInstanceAs (Decidable (choice.works = true → claims.jti ∈ pool.shared.history.consumed →
      ∀ familyId ∈ claims.fam, Unheld server pool familyId))
  | .peek _ token _ =>
    inferInstanceAs (Decidable (∀ claims ∈ token.expired (choice.clock 0),
      claims.jti ∈ pool.shared.history.consumed →
        ∀ familyId ∈ claims.fam, Ended server pool familyId))
  | .checkRefresh oldJti handle proofJkt =>
    inferInstanceAs (Decidable (refusesGrant choice handle proofJkt = true →
      oldJti ∈ pool.shared.history.consumed → Ended server pool handle.familyId))
  | .revokeEnded oldJti handle =>
    inferInstanceAs (Decidable (choice.works = true → oldJti ∈ pool.shared.history.consumed →
      Unheld server pool handle.familyId))
  | .rotate oldJti handle _ =>
    inferInstanceAs (Decidable (choice.works = true → oldJti ∈ pool.shared.history.consumed →
      pool.shared.state.peekRefresh oldJti = none → Ended server pool handle.familyId))
  | .takeCode _ _ _ => inferInstanceAs (Decidable True)
  | .checkCode _ _ _ _ => inferInstanceAs (Decidable True)
  | .issue _ _ _ => inferInstanceAs (Decidable True)
  | .register _ _ _ _ => inferInstanceAs (Decidable True)
  | .done _ => inferInstanceAs (Decidable True)

instance {pool : TokenPool} : DecidablePred (CarefulPresentation server pool)
  | .advance i choice =>
    inferInstanceAs (Decidable (∀ call ∈ pool.calls[i]?, CarefulStep server pool choice call))
  | .begin _ => inferInstanceAs (Decidable True)
  | .outside _ => inferInstanceAs (Decidable True)

/-! ### The invariant -/

/-- A family whose code was taken and that was not presented again. -/
def OpenFamily (history : History) (familyId : Text) : Prop :=
  history.Spent server familyId ∧ familyId ∉ history.replayed

/-- A row that was read under the identifier of a refresh token that was handed out, in the family
of the token. -/
def ReadFor (history : History) (oldJti : Text) (handle : RefreshHandle) : Prop :=
  ∃ claims ∈ history.handed, claims.jti = oldJti ∧ claims.fam = some handle.familyId

/-- The rows are stored in the families that their identifiers were drawn for, and so are the
tokens that were handed out.  A family that was presented again has no row. -/
structure SoundTokens (now : Observed) : Prop where
  codes : SoundCodes server now
  drawn : ∀ row ∈ now.state.refreshTokens,
    ∃ descent, now.history.drawn row.1 = some descent ∧ descent.familyId = row.2.familyId
  handed : ∀ claims ∈ now.history.handed,
    ∃ descent, now.history.drawn claims.jti = some descent ∧
      claims.fam = some descent.familyId ∧ now.history.Spent server descent.familyId
  replayed : ∀ familyId ∈ now.history.replayed,
    now.history.Spent server familyId ∧
      ∀ row ∈ now.state.refreshTokens, row.2.familyId ≠ familyId

/-- What a request in flight knows.  A grant that it holds is of an open family. -/
def SoundCall (now : Observed) : TokenCall → Prop
  | .checkCode _ code _ _ => OpenFamily server now.history (familyForCode server.sha256 code)
  | .peek _ token _ => Genuine now.history token
  | .revokeClaims claims => claims ∈ now.history.handed
  | .checkRefresh oldJti handle _ => ReadFor now.history oldJti handle
  | .revokeEnded oldJti handle => ReadFor now.history oldJti handle
  | .rotate oldJti handle _ => ReadFor now.history oldJti handle
  | .issue source grant _ =>
    OpenFamily server now.history grant.familyId ∧ (source.origin now.history).isSome = true
  | .register _ jti handle response =>
    OpenFamily server now.history handle.familyId ∧
      (∃ descent, now.history.drawn jti = some descent ∧ descent.familyId = handle.familyId) ∧
      ∃ claims, response.refreshToken = .signed typRefresh claims ∧ claims.jti = jti ∧
        claims.fam = some handle.familyId
  | .takeCode _ _ _ => True
  | .revokeCode _ => True
  | .done _ => True

variable {server} {choice : TokenChoice} {call : TokenCall} {now next : Observed}
  {event : OAuthEvent} {familyId : Text}

/-! ### What a step keeps -/

/-- The history has gone on. -/
structure Continues (before after : History) : Prop where
  redeemed : ∀ code ∈ before.redeemed, code ∈ after.redeemed
  handed : ∀ claims ∈ before.handed, claims ∈ after.handed
  drawn : ∀ jti descent, before.drawn jti = some descent → after.drawn jti = some descent

theorem Continues.refl (history : History) :
  Continues history history
  := ⟨fun _ h => h, fun _ h => h, fun _ _ h => h⟩

theorem Continues.spent {before after : History} (h : Continues before after)
    (hspent : before.Spent server familyId) :
  after.Spent server familyId
  := by
  obtain ⟨code, hcode, hfamily⟩ := hspent
  exact ⟨code, h.redeemed code hcode, hfamily⟩

theorem Continues.openFamily {before after : History} (h : Continues before after)
    (hreplayed : familyId ∈ after.replayed → familyId ∈ before.replayed)
    (hopen : OpenFamily server before familyId) :
  OpenFamily server after familyId
  := ⟨h.spent hopen.1, fun hmem => hopen.2 (hreplayed hmem)⟩

/-- What a request knows stays true while the families that it holds are not presented again. -/
theorem SoundCall.stable (hcall : SoundCall server now call)
    (h : Continues now.history next.history)
    (hreplayed : ∀ familyId, call.Holds server familyId → familyId ∈ next.history.replayed →
      familyId ∈ now.history.replayed) :
  SoundCall server next call
  := by
  cases call with
  | takeCode input code proofJkt => trivial
  | revokeCode code => trivial
  | checkCode input code auth proofJkt => exact h.openFamily (hreplayed _ rfl) hcall
  | peek input token proofJkt =>
    cases token with
    | unsigned reason => trivial
    | signed typ claims =>
      intro htyp
      exact h.handed claims (hcall htyp)
  | revokeClaims claims => exact h.handed claims hcall
  | checkRefresh oldJti handle proofJkt =>
    obtain ⟨claims, hmem, hclaims⟩ := hcall
    exact ⟨claims, h.handed claims hmem, hclaims⟩
  | revokeEnded oldJti handle =>
    obtain ⟨claims, hmem, hclaims⟩ := hcall
    exact ⟨claims, h.handed claims hmem, hclaims⟩
  | rotate oldJti handle grantStartedAt =>
    obtain ⟨claims, hmem, hclaims⟩ := hcall
    exact ⟨claims, h.handed claims hmem, hclaims⟩
  | issue source grant dpopJkt =>
    obtain ⟨hopen, horigin⟩ := hcall
    refine ⟨h.openFamily (hreplayed _ rfl) hopen, ?_⟩
    cases source with
    | code code => rfl
    | refresh oldJti =>
      rw [GrantSource.origin, Option.isSome_map] at horigin ⊢
      obtain ⟨descent, hdescent⟩ := Option.isSome_iff_exists.mp horigin
      rw [h.drawn oldJti descent hdescent]
      rfl
  | register source jti handle response =>
    obtain ⟨hopen, ⟨descent, hdrawn, hfamily⟩, htoken⟩ := hcall
    exact ⟨h.openFamily (hreplayed _ rfl) hopen, ⟨descent, h.drawn jti descent hdrawn, hfamily⟩, htoken⟩
  | done result => trivial

/-- Rows and codes can be dropped. -/
theorem SoundTokens.shrink (h : SoundTokens server now)
    (hcodes : ∀ x ∈ next.state.authCodes, x ∈ now.state.authCodes)
    (hrows : ∀ row ∈ next.state.refreshTokens, row ∈ now.state.refreshTokens)
    (hhistory : next.history = now.history) :
  SoundTokens server next
  := by
  obtain ⟨state, history⟩ := next
  subst hhistory
  refine ⟨⟨?_, ?_, h.codes.redeemed, h.codes.apart⟩, ?_, h.handed, ?_⟩
  · intro x hx
    exact h.codes.issued x (hcodes x hx)
  · intro x hx
    exact h.codes.unspent x (hcodes x hx)
  · intro row hrow
    exact h.drawn row (hrows row hrow)
  · intro familyId hmem
    obtain ⟨hspent, hnone⟩ := h.replayed familyId hmem
    exact ⟨hspent, fun row hrow => hnone row (hrows row hrow)⟩

/-- A family without rows is presented again. -/
theorem SoundTokens.replay (h : SoundTokens server now)
    (hspent : now.history.Spent server familyId)
    (hnone : ∀ row ∈ now.state.refreshTokens, row.2.familyId ≠ familyId) :
  SoundTokens server ⟨now.state,
    { now.history with replayed := familyId :: now.history.replayed }⟩
  := by
  refine ⟨⟨h.codes.issued, h.codes.unspent, h.codes.redeemed, h.codes.apart⟩, h.drawn, h.handed, ?_⟩
  intro other hmem
  rcases List.mem_cons.mp hmem with rfl | hmem
  · exact ⟨hspent, hnone⟩
  · exact h.replayed other hmem

/-- The rows of a family are revoked, and none is left. -/
theorem revokeRefreshFamily_gone {state : OAuthState} :
  ∀ row ∈ (state.revokeRefreshFamily familyId).2.refreshTokens, row.2.familyId ≠ familyId
  := by
  intro row hrow heq
  have hkept := (List.mem_filter.mp hrow).2
  simp [heq] at hkept

theorem mem_of_mem_revokeWhere {state : OAuthState} {doomed : RefreshHandle → Bool}
    {row : Text × RefreshHandle} (h : row ∈ (state.revokeWhere doomed).2.refreshTokens) :
  row ∈ state.refreshTokens
  := List.mem_of_mem_filter h

theorem mem_of_mem_revokeRefreshFamily {state : OAuthState} {row : Text × RefreshHandle}
    (h : row ∈ (state.revokeRefreshFamily familyId).2.refreshTokens) :
  row ∈ state.refreshTokens
  := mem_of_mem_revokeWhere h

/-- Revoking a family leaves a sound state. -/
theorem SoundTokens.revoke (h : SoundTokens server now) (familyId : Text) :
  SoundTokens server ⟨(now.state.revokeRefreshFamily familyId).2, now.history⟩
  := h.shrink (fun _ hx => hx) (fun _ hrow => mem_of_mem_revokeRefreshFamily hrow) rfl

/-- A code that can be taken is of a family that was not presented again. -/
theorem SoundTokens.not_replayed (h : SoundTokens server now) {code : Text}
    {auth : AuthorizationCode} (hcode : (code, auth) ∈ now.state.authCodes) :
  familyForCode server.sha256 code ∉ now.history.replayed
  := by
  intro hmem
  obtain ⟨⟨spent, hspent, hfamily⟩, -⟩ := h.replayed _ hmem
  have heq := h.codes.apart spent (h.codes.redeemed spent hspent) code (h.codes.issued _ hcode)
    hfamily
  exact h.codes.unspent _ hcode (heq ▸ hspent)

/-- A code is taken, and its family is open from now on. -/
theorem SoundTokens.take (h : SoundTokens server now) {code : Text} {auth : AuthorizationCode}
    {state : OAuthState} (htakes : Takes code now.state (some auth, state)) :
  SoundTokens server
    ⟨state, { now.history with redeemed := code :: now.history.redeemed }⟩ ∧
  OpenFamily server { now.history with redeemed := code :: now.history.redeemed }
    (familyForCode server.sha256 code)
  := by
  have hcode := htakes.found auth rfl
  have hmono : ∀ familyId, now.history.Spent server familyId →
      History.Spent server { now.history with redeemed := code :: now.history.redeemed } familyId := by
    rintro familyId ⟨spent, hspent, hfamily⟩
    exact ⟨spent, List.mem_cons_of_mem _ hspent, hfamily⟩
  constructor
  · refine ⟨⟨?_, ?_, ?_, h.codes.apart⟩, ?_, ?_, ?_⟩
    · intro x hx
      exact h.codes.issued x (htakes.authCodes x hx)
    · intro x hx hmem
      rcases List.mem_cons.mp hmem with heq | hmem
      · exact htakes.gone x hx heq
      · exact h.codes.unspent x (htakes.authCodes x hx) hmem
    · intro other hmem
      rcases List.mem_cons.mp hmem with rfl | hmem
      · exact h.codes.issued _ hcode
      · exact h.codes.redeemed other hmem
    · intro row hrow
      have hrows : state.refreshTokens = now.state.refreshTokens := htakes.refreshTokens
      exact h.drawn row (hrows ▸ hrow)
    · intro claims hclaims
      obtain ⟨descent, hdrawn, hfam, hspent⟩ := h.handed claims hclaims
      exact ⟨descent, hdrawn, hfam, hmono _ hspent⟩
    · intro familyId hmem
      obtain ⟨hspent, hnone⟩ := h.replayed familyId hmem
      have hrows : state.refreshTokens = now.state.refreshTokens := htakes.refreshTokens
      exact ⟨hmono _ hspent, fun row hrow => hnone row (hrows ▸ hrow)⟩
  · exact ⟨⟨code, List.mem_cons_self, rfl⟩, h.not_replayed hcode⟩

/-! ### Drawing identifiers -/

section Draw

variable {history : History} {source : GrantSource} {jti : Text}

/-- An identifier that was not drawn before is drawn. -/
theorem draw_continues (hfresh : history.drawn jti = none) :
  Continues history (history.draw source jti familyId)
  := by
  rw [History.draw]
  cases source.origin history with
  | none => exact Continues.refl history
  | some code =>
    refine ⟨fun _ h => h, fun _ h => h, ?_⟩
    intro other descent hother
    have hne : other ≠ jti := by
      rintro rfl
      rw [hfresh] at hother
      cases hother
    dsimp only
    rw [Function.update_of_ne hne]
    exact hother

theorem draw_replayed :
  (history.draw source jti familyId).replayed = history.replayed
  := by
  rw [History.draw]
  cases source.origin history with
  | none => rfl
  | some code => rfl

theorem draw_handed :
  (history.draw source jti familyId).handed = history.handed
  := by
  rw [History.draw]
  cases source.origin history with
  | none => rfl
  | some code => rfl

theorem draw_drawn (horigin : (source.origin history).isSome = true) :
  ∃ descent, (history.draw source jti familyId).drawn jti = some descent ∧
    descent.familyId = familyId
  := by
  obtain ⟨code, hcode⟩ := Option.isSome_iff_exists.mp horigin
  refine ⟨⟨code, familyId⟩, ?_, rfl⟩
  rw [History.draw, hcode]
  exact Function.update_self ..

/-- The state is sound whatever is drawn. -/
theorem SoundTokens.draw (h : SoundTokens server now) (hfresh : now.history.drawn jti = none) :
  SoundTokens server ⟨now.state, now.history.draw source jti familyId⟩
  := by
  have hcontinues : Continues now.history (now.history.draw source jti familyId) :=
    draw_continues hfresh
  have hcodes : SoundCodes server ⟨now.state, now.history.draw source jti familyId⟩ := by
    rw [History.draw]
    cases source.origin now.history with
    | none => exact h.codes
    | some code => exact ⟨h.codes.issued, h.codes.unspent, h.codes.redeemed, h.codes.apart⟩
  refine ⟨hcodes, ?_, ?_, ?_⟩
  · intro row hrow
    obtain ⟨descent, hdrawn, hfamily⟩ := h.drawn row hrow
    exact ⟨descent, hcontinues.drawn _ _ hdrawn, hfamily⟩
  · intro claims hclaims
    dsimp only at hclaims
    rw [draw_handed] at hclaims
    obtain ⟨descent, hdrawn, hfam, hspent⟩ := h.handed claims hclaims
    exact ⟨descent, hcontinues.drawn _ _ hdrawn, hfam, hcontinues.spent hspent⟩
  · intro familyId hmem
    dsimp only at hmem
    rw [draw_replayed] at hmem
    obtain ⟨hspent, hnone⟩ := h.replayed familyId hmem
    exact ⟨hcontinues.spent hspent, hnone⟩

end Draw

/-! ### Rotating and registering -/

/-- A row is stored under an identifier that was drawn for its family, which was not presented
again.  Other rows may be dropped. -/
theorem SoundTokens.store (h : SoundTokens server now) {jti : Text} {handle : RefreshHandle}
    {rows : List (Text × RefreshHandle)} (hrows : ∀ row ∈ rows, row ∈ now.state.refreshTokens)
    (hdrawn : ∃ descent, now.history.drawn jti = some descent ∧
      descent.familyId = handle.familyId)
    (hreplayed : handle.familyId ∉ now.history.replayed) :
  SoundTokens server
    ⟨{ now.state with refreshTokens := insert jti handle rows }, now.history⟩
  := by
  have hmem : ∀ row ∈ insert jti handle rows, row = (jti, handle) ∨
      row ∈ now.state.refreshTokens := by
    intro row hrow
    rcases mem_insert.mp hrow with heq | hmem
    · exact .inl heq
    · exact .inr (hrows row (mem_of_mem_erase hmem).1)
  refine ⟨⟨h.codes.issued, h.codes.unspent, h.codes.redeemed, h.codes.apart⟩, ?_, h.handed, ?_⟩
  · intro row hrow
    rcases hmem row hrow with rfl | hrow
    · exact hdrawn
    · exact h.drawn row hrow
  · intro familyId hfamily
    obtain ⟨hspent, hnone⟩ := h.replayed familyId hfamily
    refine ⟨hspent, ?_⟩
    intro row hrow
    rcases hmem row hrow with rfl | hrow
    · rintro rfl
      exact hreplayed hfamily
    · exact hnone row hrow

/-- A token is handed out whose identifier was drawn for its family. -/
theorem SoundTokens.handOut (h : SoundTokens server now) {claims : OAuthClaims}
    (hdrawn : ∃ descent, now.history.drawn claims.jti = some descent ∧
      descent.familyId = familyId)
    (hfam : claims.fam = some familyId) (hspent : now.history.Spent server familyId) :
  SoundTokens server
    ⟨now.state, { now.history with handed := claims :: now.history.handed }⟩
  := by
  refine ⟨⟨h.codes.issued, h.codes.unspent, h.codes.redeemed, h.codes.apart⟩, h.drawn, ?_,
    h.replayed⟩
  intro other hmem
  rcases List.mem_cons.mp hmem with rfl | hmem
  · obtain ⟨descent, hdescent, rfl⟩ := hdrawn
    exact ⟨descent, hdescent, hfam, hspent⟩
  · exact h.handed other hmem

/-- The state is sound whatever is consumed. -/
theorem SoundTokens.consume (h : SoundTokens server now) (consumed : List Text) :
  SoundTokens server ⟨now.state, { now.history with consumed := consumed }⟩
  := ⟨⟨h.codes.issued, h.codes.unspent, h.codes.redeemed, h.codes.apart⟩, h.drawn, h.handed,
    h.replayed⟩

/-- A rotated row is stored in a family that was not presented again. -/
theorem SoundTokens.rotated_not_replayed (h : SoundTokens server now) {jti : Text}
    {handle : RefreshHandle} (hrow : (jti, handle) ∈ now.state.refreshTokens)
    {backend : OAuthBackend} {instant : Instant} :
  (OAuthState.rotatedHandle backend instant handle).familyId ∉ now.history.replayed
  := by
  intro hmem
  obtain ⟨⟨code, -, hfamily⟩, hnone⟩ := h.replayed _ hmem
  cases backend with
  | memory => exact familyForCode_ne_test server.sha256 code hfamily
  | sql => exact hnone _ hrow rfl

/-- The row of a token that was handed out is in an open family. -/
theorem SoundTokens.open_of_row (h : SoundTokens server now) {jti : Text} {handle : RefreshHandle}
    (hrow : (jti, handle) ∈ now.state.refreshTokens)
    (hhanded : ∃ claims ∈ now.history.handed, claims.jti = jti) :
  OpenFamily server now.history handle.familyId
  := by
  obtain ⟨claims, hclaims, rfl⟩ := hhanded
  obtain ⟨descent, hdrawn, -, hspent⟩ := h.handed claims hclaims
  obtain ⟨descent', hdrawn', hfamily⟩ := h.drawn _ hrow
  obtain rfl : descent' = descent := by
    rw [hdrawn] at hdrawn'
    exact (Option.some.inj hdrawn').symm
  rw [hfamily] at hspent
  exact ⟨hspent, fun hmem => (h.replayed _ hmem).2 _ hrow rfl⟩

/-- The family of a row that was read is one whose code was taken. -/
theorem ReadFor.spent {oldJti : Text} {handle : RefreshHandle}
    (hread : ReadFor now.history oldJti handle) (h : SoundTokens server now) :
  now.history.Spent server handle.familyId
  := by
  obtain ⟨claims, hclaims, -, hfam⟩ := hread
  obtain ⟨descent, -, hdescent, hspent⟩ := h.handed claims hclaims
  rw [hdescent, Option.some.injEq] at hfam
  rwa [hfam] at hspent

/-! ### Steps -/

/-- A step of a request leaves a sound state, and presents no family again that another request
holds. -/
structure SoundStep (server : AuthServer) (pool : TokenPool) (next : TokenCall × Observed) :
    Prop where
  sound : SoundTokens server next.2
  call : SoundCall server next.2 next.1
  continues : Continues pool.shared.history next.2.history
  replayed : ∀ familyId ∈ next.2.history.replayed,
    familyId ∈ pool.shared.history.replayed ∨ Unheld server pool familyId

section Steps

variable {pool : TokenPool}

/-- A step that only drops rows or codes. -/
theorem SoundStep.shrink (h : SoundTokens server pool.shared) {state : OAuthState}
    (hcodes : ∀ x ∈ state.authCodes, x ∈ pool.shared.state.authCodes)
    (hrows : ∀ row ∈ state.refreshTokens, row ∈ pool.shared.state.refreshTokens)
    (hcall : SoundCall server ⟨state, pool.shared.history⟩ call) :
  SoundStep server pool (call, ⟨state, pool.shared.history⟩)
  := ⟨h.shrink hcodes hrows rfl, hcall, Continues.refl _, fun _ hmem => .inl hmem⟩

/-- A step that changes nothing. -/
theorem SoundStep.stay (h : SoundTokens server pool.shared)
    (hcall : SoundCall server pool.shared call) :
  SoundStep server pool (call, pool.shared)
  := SoundStep.shrink h (fun _ hx => hx) (fun _ hrow => hrow) hcall

/-- A step that presents a family without rows again, while no other request holds it. -/
theorem SoundStep.replay {state : OAuthState} {result : Except XrpcError TokenResponse}
    (h : SoundTokens server ⟨state, pool.shared.history⟩)
    (hspent : pool.shared.history.Spent server familyId)
    (hnone : ∀ row ∈ state.refreshTokens, row.2.familyId ≠ familyId)
    (hunheld : Unheld server pool familyId) :
  SoundStep server pool (.done result, ⟨state,
    { pool.shared.history with replayed := familyId :: pool.shared.history.replayed }⟩)
  := by
  refine ⟨h.replay hspent hnone, trivial,
    ⟨fun _ hmem => hmem, fun _ hmem => hmem, fun _ _ hdrawn => hdrawn⟩, ?_⟩
  intro other hmem
  rcases List.mem_cons.mp hmem with rfl | hmem
  · exact .inr hunheld
  · exact .inl hmem

/-- A step that refuses a refresh token.  If the token was consumed, its family has no row and no
other request holds it. -/
theorem SoundStep.refuse {state : OAuthState} {result : Except XrpcError TokenResponse}
    {jti : Text} {family : Option Text} (h : SoundTokens server ⟨state, pool.shared.history⟩)
    (hspent : ∀ familyId ∈ family, pool.shared.history.Spent server familyId)
    (hended : jti ∈ pool.shared.history.consumed → ∀ familyId ∈ family,
      Unheld server pool familyId ∧ ∀ row ∈ state.refreshTokens, row.2.familyId ≠ familyId) :
  SoundStep server pool (.done result, ⟨state, pool.shared.history.refuse jti family⟩)
  := by
  have hstay : SoundStep server pool (.done result, ⟨state, pool.shared.history⟩) :=
    ⟨h, trivial, Continues.refl _, fun _ hmem => .inl hmem⟩
  rw [History.refuse]
  split
  · rename_i hconsumed
    cases family with
    | none => exact hstay
    | some familyId =>
      obtain ⟨hunheld, hnone⟩ := hended (List.contains_iff_mem.mp hconsumed) familyId rfl
      exact SoundStep.replay h (hspent familyId rfl) hnone hunheld
  · exact hstay

theorem step_takeCode (h : SoundTokens server pool.shared) {input : TokenInput}
    {code proofJkt : Text} :
  SoundStep server pool ((TokenCall.takeCode input code proofJkt).observed server choice pool.shared)
  := by
  rw [TokenCall.observed, TokenCall.advance, onStorage, History.after]
  cases hworks : choice.works with
  | false => exact SoundStep.stay h trivial
  | true =>
    have htakes : Takes code pool.shared.state
        (pool.shared.state.takeCode server.backend (choice.clock 0) code) := takes_takeCode
    cases htake : pool.shared.state.takeCode server.backend (choice.clock 0) code with
    | mk found state =>
      rw [htake] at htakes
      cases found with
      | none =>
        have hrows : state.refreshTokens = pool.shared.state.refreshTokens := htakes.refreshTokens
        exact SoundStep.shrink h htakes.authCodes (fun row hrow => hrows ▸ hrow) trivial
      | some auth =>
        obtain ⟨hsound, hopen⟩ := h.take htakes
        refine ⟨hsound, hopen, ⟨?_, fun _ hmem => hmem, fun _ _ hdrawn => hdrawn⟩,
          fun _ hmem => .inl hmem⟩
        intro other hmem
        exact List.mem_cons_of_mem _ hmem

theorem step_checkCode (h : SoundTokens server pool.shared) {input : TokenInput}
    {code proofJkt : Text} {auth : AuthorizationCode}
    (hopen : OpenFamily server pool.shared.history (familyForCode server.sha256 code)) :
  SoundStep server pool
    ((TokenCall.checkCode input code auth proofJkt).observed server choice pool.shared)
  := by
  rw [TokenCall.observed, TokenCall.advance, History.after]
  have hsound : ∀ terms, SoundTokens server
      ⟨pool.shared.state, { pool.shared.history with terms := terms }⟩ := by
    intro terms
    exact ⟨⟨h.codes.issued, h.codes.unspent, h.codes.redeemed, h.codes.apart⟩, h.drawn, h.handed,
      h.replayed⟩
  have hcontinues : ∀ terms, Continues pool.shared.history
      { pool.shared.history with terms := terms } := by
    intro terms
    exact ⟨fun _ hmem => hmem, fun _ hmem => hmem, fun _ _ hdrawn => hdrawn⟩
  cases checkExchange server input auth proofJkt with
  | error error =>
    cases choice.authenticated with
    | error refused => exact SoundStep.stay h trivial
    | ok clientKid => exact ⟨hsound _, trivial, hcontinues _, fun _ hmem => .inl hmem⟩
  | ok checked =>
    cases choice.authenticated with
    | error refused => exact SoundStep.stay h trivial
    | ok clientKid =>
      refine ⟨hsound _, ⟨?_, rfl⟩, hcontinues _, fun _ hmem => .inl hmem⟩
      exact (hcontinues _).openFamily (fun hmem => hmem) hopen

theorem step_peek (h : SoundTokens server pool.shared) {input : TokenInput} {token : Jwt}
    {proofJkt : Text} (htoken : Genuine pool.shared.history token)
    (hcareful : CarefulStep server pool choice (.peek input token proofJkt)) :
  SoundStep server pool ((TokenCall.peek input token proofJkt).observed server choice pool.shared)
  := by
  rw [TokenCall.observed, TokenCall.advance, History.after]
  cases hverify : verifyOauthJwt token typRefresh (choice.clock 0) with
  | error reason =>
    dsimp only
    cases hexpired : token.expired (choice.clock 0) with
    | none => exact SoundStep.stay h trivial
    | some claims =>
      obtain rfl := expired_eq_some hexpired
      apply SoundStep.refuse h
      · intro familyId hfamily
        obtain ⟨descent, -, hfam, hspent⟩ := h.handed claims (htoken rfl)
        rw [hfam] at hfamily
        rwa [Option.some.inj hfamily] at hspent
      · exact hcareful claims hexpired
  | ok claims =>
    have hexpired : token.expired (choice.clock 0) = none := expired_of_verifyOauthJwt hverify
    obtain rfl := verifyOauthJwt_ok hverify
    have hclaims : claims ∈ pool.shared.history.handed := htoken rfl
    rw [hexpired]
    dsimp only
    split
    · exact SoundStep.stay h trivial
    · rw [onStorage]
      split
      · cases hpeek : pool.shared.state.peekRefresh claims.jti with
        | none => exact SoundStep.stay h hclaims
        | some handle =>
          apply SoundStep.stay h
          refine ⟨claims, hclaims, rfl, ?_⟩
          obtain ⟨descent, hdrawn, hfam, -⟩ := h.handed claims hclaims
          obtain ⟨descent', hdrawn', hfamily⟩ := h.drawn _ (mem_of_lookup hpeek)
          obtain rfl : descent' = descent := by
            rw [hdrawn] at hdrawn'
            exact (Option.some.inj hdrawn').symm
          rw [hfam, hfamily]
      · exact SoundStep.stay h trivial

theorem step_checkRefresh (h : SoundTokens server pool.shared) {oldJti proofJkt : Text}
    {handle : RefreshHandle} (hread : ReadFor pool.shared.history oldJti handle)
    (hcareful : CarefulStep server pool choice (.checkRefresh oldJti handle proofJkt)) :
  SoundStep server pool
    ((TokenCall.checkRefresh oldJti handle proofJkt).observed server choice pool.shared)
  := by
  rw [TokenCall.observed, TokenCall.advance, History.after]
  cases hchecked : checkRefresh choice handle proofJkt with
  | error error =>
    dsimp only
    split
    · rename_i hrefuses
      apply SoundStep.refuse h
      · rintro familyId ⟨⟩
        exact hread.spent h
      · rintro hconsumed familyId ⟨⟩
        exact hcareful hrefuses hconsumed
    · exact SoundStep.stay h trivial
  | ok checked =>
    rw [refusesGrant_of_ok hchecked, if_neg Bool.false_ne_true]
    dsimp only
    split
    · exact SoundStep.stay h hread
    · exact SoundStep.stay h hread

theorem step_revokeCode (h : SoundTokens server pool.shared) {code : Text}
    (hcareful : CarefulStep server pool choice (.revokeCode code)) :
  SoundStep server pool ((TokenCall.revokeCode code).observed server choice pool.shared)
  := by
  rw [TokenCall.observed, TokenCall.advance, onStorage, History.after]
  cases hworks : choice.works with
  | false => exact SoundStep.stay h trivial
  | true =>
    by_cases hcode : code ∈ pool.shared.history.redeemed
    · have hboth : true = true ∧ pool.shared.history.redeemed.contains code = true :=
        ⟨rfl, List.contains_iff_mem.mpr hcode⟩
      rw [if_pos rfl, if_pos hboth]
      exact SoundStep.replay (h.revoke _) ⟨code, hcode, rfl⟩ revokeRefreshFamily_gone
        (hcareful hworks hcode)
    · have hnot : ¬ (true = true ∧ pool.shared.history.redeemed.contains code = true) :=
        fun hboth => hcode (List.contains_iff_mem.mp hboth.2)
      rw [if_pos rfl, if_neg hnot]
      exact SoundStep.shrink h (fun _ hx => hx) (fun _ hrow => mem_of_mem_revokeRefreshFamily hrow)
        trivial

theorem step_revokeClaims (h : SoundTokens server pool.shared) {claims : OAuthClaims}
    (hclaims : claims ∈ pool.shared.history.handed)
    (hcareful : CarefulStep server pool choice (.revokeClaims claims)) :
  SoundStep server pool ((TokenCall.revokeClaims claims).observed server choice pool.shared)
  := by
  obtain ⟨descent, hdrawn, hfam, hspent⟩ := h.handed claims hclaims
  rw [TokenCall.observed, TokenCall.advance, History.after, hfam]
  dsimp only
  rw [onStorage]
  cases hworks : choice.works with
  | false => exact SoundStep.stay h trivial
  | true =>
    apply SoundStep.refuse (h.revoke _)
    · rintro familyId ⟨⟩
      exact hspent
    · rintro hconsumed familyId ⟨⟩
      exact ⟨hcareful hworks hconsumed _ hfam, revokeRefreshFamily_gone⟩

theorem step_revokeEnded (h : SoundTokens server pool.shared) {oldJti : Text}
    {handle : RefreshHandle} (hread : ReadFor pool.shared.history oldJti handle)
    (hcareful : CarefulStep server pool choice (.revokeEnded oldJti handle)) :
  SoundStep server pool ((TokenCall.revokeEnded oldJti handle).observed server choice pool.shared)
  := by
  rw [TokenCall.observed, TokenCall.advance, onStorage, History.after]
  cases hworks : choice.works with
  | false => exact SoundStep.stay h trivial
  | true =>
    apply SoundStep.refuse (h.revoke _)
    · rintro familyId ⟨⟩
      exact hread.spent h
    · rintro hconsumed familyId ⟨⟩
      exact ⟨hcareful hworks hconsumed, revokeRefreshFamily_gone⟩

theorem step_rotate (h : SoundTokens server pool.shared) (hfresh : pool.shared.history.Fresh choice)
    {oldJti : Text} {handle : RefreshHandle} {grantStartedAt : Instant}
    (hread : ReadFor pool.shared.history oldJti handle)
    (hcareful : CarefulStep server pool choice (.rotate oldJti handle grantStartedAt)) :
  SoundStep server pool
    ((TokenCall.rotate oldJti handle grantStartedAt).observed server choice pool.shared)
  := by
  obtain ⟨claims, hclaims, rfl, hfam⟩ := hread
  obtain ⟨descent, hdrawn, hclaimsFam, hspent⟩ := h.handed claims hclaims
  rw [hclaimsFam, Option.some.injEq] at hfam
  rw [TokenCall.observed, TokenCall.advance, onStorage, History.after]
  cases hworks : choice.works with
  | false => exact SoundStep.stay h trivial
  | true =>
    rw [if_pos rfl, if_pos rfl]
    cases hrow : lookup claims.jti pool.shared.state.refreshTokens with
    | none =>
      rw [rotateRefresh_of_none hrow]
      apply SoundStep.refuse h
      · rintro familyId ⟨⟩
        exact hfam ▸ hspent
      · rintro hconsumed familyId ⟨⟩
        exact hcareful hworks hconsumed hrow
    | some old =>
      rcases rotateRefresh_of_some server.backend (choice.clock 0) choice.rotatedJti hrow with
        hfails | hrotates
      · rw [hfails]
        exact SoundStep.stay h trivial
      · rw [hrotates]
        let familyId :=
          (OAuthState.rotatedHandle server.backend (choice.clock 0) old).familyId
        have hmem := mem_of_lookup hrow
        have horigin : (GrantSource.origin pool.shared.history (.refresh claims.jti)).isSome =
            true := by
          rw [GrantSource.origin, hdrawn]
          rfl
        have hcontinues : Continues pool.shared.history
            (pool.shared.history.draw (.refresh claims.jti) choice.rotatedJti familyId) :=
          draw_continues hfresh.rotatedJti
        have hstored : SoundTokens server ⟨{ pool.shared.state with
              refreshTokens := insert choice.rotatedJti
                (OAuthState.rotatedHandle server.backend (choice.clock 0) old)
                (erase claims.jti pool.shared.state.refreshTokens) },
            pool.shared.history.draw (.refresh claims.jti) choice.rotatedJti familyId⟩ := by
          apply (h.draw hfresh.rotatedJti).store
          · intro row hrow
            exact (mem_of_mem_erase hrow).1
          · exact draw_drawn horigin
          · rw [draw_replayed]
            exact h.rotated_not_replayed hmem
        refine ⟨hstored.consume _, ⟨?_, ?_⟩,
          ⟨hcontinues.redeemed, hcontinues.handed, hcontinues.drawn⟩, ?_⟩
        · apply hcontinues.openFamily
          · intro hreplayed
            rwa [draw_replayed] at hreplayed
          · exact h.open_of_row hmem ⟨claims, hclaims, rfl⟩
        · rw [GrantSource.origin, hcontinues.drawn _ _ hdrawn]
          rfl
        · intro other hreplayed
          rw [draw_replayed] at hreplayed
          exact .inl hreplayed

theorem step_issue (h : SoundTokens server pool.shared) (hfresh : pool.shared.history.Fresh choice)
    {source : GrantSource} {grant : Grant} {dpopJkt : Text}
    (hopen : OpenFamily server pool.shared.history grant.familyId)
    (horigin : (source.origin pool.shared.history).isSome = true) :
  SoundStep server pool ((TokenCall.issue source grant dpopJkt).observed server choice pool.shared)
  := by
  rw [TokenCall.observed, TokenCall.advance, History.after]
  have hcontinues : Continues pool.shared.history
      (pool.shared.history.draw source choice.refreshJti grant.familyId) :=
    draw_continues hfresh.refreshJti
  have hreplayed : ∀ other ∈ (pool.shared.history.draw source choice.refreshJti
      grant.familyId).replayed, other ∈ pool.shared.history.replayed := by
    intro other hmem
    rwa [draw_replayed] at hmem
  cases choice.epoch with
  | error error =>
    exact ⟨h.draw hfresh.refreshJti, trivial, hcontinues, fun other hmem => .inl (hreplayed other hmem)⟩
  | ok epoch =>
    refine ⟨h.draw hfresh.refreshJti, ⟨?_, draw_drawn horigin, ?_⟩, hcontinues,
      fun other hmem => .inl (hreplayed other hmem)⟩
    · exact hcontinues.openFamily (hreplayed _) hopen
    · exact ⟨_, rfl, rfl, rfl⟩

theorem step_register (h : SoundTokens server pool.shared) {source : GrantSource} {jti : Text}
    {handle : RefreshHandle} {response : TokenResponse}
    (hcall : SoundCall server pool.shared (.register source jti handle response)) :
  SoundStep server pool
    ((TokenCall.register source jti handle response).observed server choice pool.shared)
  := by
  obtain ⟨hopen, hdrawn, claims, htoken, rfl, hfam⟩ := hcall
  rw [TokenCall.observed, TokenCall.advance, onStorage, History.after, htoken]
  cases choice.works with
  | false => exact SoundStep.stay h trivial
  | true =>
    have hstored := h.store (fun _ hrow => hrow) hdrawn hopen.2
    refine ⟨hstored.handOut hdrawn hfam hopen.1, trivial,
      ⟨fun _ hmem => hmem, ?_, fun _ _ hdrawn => hdrawn⟩, fun _ hmem => .inl hmem⟩
    intro other hmem
    exact List.mem_cons_of_mem _ hmem

/-- A step of a request. -/
theorem step_advance (h : SoundTokens server pool.shared)
    (hfresh : pool.shared.history.Fresh choice) (hcall : SoundCall server pool.shared call)
    (hcareful : CarefulStep server pool choice call) :
  SoundStep server pool (call.observed server choice pool.shared)
  := by
  cases call with
  | takeCode input code proofJkt => exact step_takeCode h
  | revokeCode code => exact step_revokeCode h hcareful
  | checkCode input code auth proofJkt => exact step_checkCode h hcall
  | peek input token proofJkt => exact step_peek h hcall hcareful
  | revokeClaims claims => exact step_revokeClaims h hcall hcareful
  | checkRefresh oldJti handle proofJkt => exact step_checkRefresh h hcall hcareful
  | revokeEnded oldJti handle => exact step_revokeEnded h hcall hcareful
  | rotate oldJti handle grantStartedAt => exact step_rotate h hfresh hcall hcareful
  | issue source grant dpopJkt => exact step_issue h hfresh hcall.1 hcall.2
  | register source jti handle response => exact step_register h hcall
  | done result =>
    rw [observed_done]
    exact SoundStep.stay h trivial

/-- Dropping rows of the SQL table. -/
theorem onSql_revokeWhere {backend : OAuthBackend} {doomed : RefreshHandle → Bool}
    {state : OAuthState} :
  (onSql backend (fun state => (state.revokeWhere doomed).2) state).authCodes = state.authCodes ∧
    ∀ row ∈ (onSql backend (fun state => (state.revokeWhere doomed).2) state).refreshTokens,
      row ∈ state.refreshTokens
  := by
  cases backend with
  | memory => exact ⟨rfl, fun _ hrow => hrow⟩
  | sql => exact ⟨rfl, fun _ hrow => mem_of_mem_revokeWhere hrow⟩

/-- An event. -/
theorem SoundTokens.outside (h : SoundTokens server now)
    (hfresh : now.history.FreshEvent server event) :
  SoundTokens server (event.observed server.backend now) ∧
    Continues now.history (event.observed server.backend now).history ∧
    (event.observed server.backend now).history.replayed = now.history.replayed
  := by
  have hrows : ∀ state : OAuthState, state.authCodes = now.state.authCodes →
      (∀ row ∈ state.refreshTokens, row ∈ now.state.refreshTokens) →
      SoundTokens server ⟨state, now.history⟩ ∧ Continues now.history now.history ∧
        now.history.replayed = now.history.replayed := by
    intro state hcodes hrows
    exact ⟨h.shrink (fun _ hx => hcodes ▸ hx) hrows rfl, Continues.refl _, rfl⟩
  cases event with
  | revokeRefresh jti => exact hrows _ rfl fun _ hrow => (mem_of_mem_erase hrow).1
  | revokeRefreshFamily familyId =>
    exact hrows _ rfl fun _ hrow => mem_of_mem_revokeRefreshFamily hrow
  | deleteOauthRefreshFor did => exact hrows _ onSql_revokeWhere.1 onSql_revokeWhere.2
  | revokeOauthGrantsForClient did clientId => exact hrows _ onSql_revokeWhere.1 onSql_revokeWhere.2
  | revokeOauthGrantsForDelegate did delegateDid => exact hrows _ onSql_revokeWhere.1 onSql_revokeWhere.2
  | issueCode instant code did request actingDid =>
    exact ⟨⟨h.codes.issueCode hfresh, h.drawn, h.handed, h.replayed⟩,
      ⟨fun _ hmem => hmem, fun _ hmem => hmem, fun _ _ hdrawn => hdrawn⟩, rfl⟩

end Steps

/-! ### Runs -/

theorem soundTokens_start :
  SoundTokens server Observed.start
  := by
  refine ⟨soundCodes_start, ?_, ?_, ?_⟩
  · intro row hrow
    cases hrow
  · intro claims hclaims
    cases hclaims
  · intro familyId hmem
    cases hmem

/-- The invariant of the requests in flight. -/
theorem sound_turn {pool : TokenPool} {turn : TokenTurn}
    (h : Pool.Holds (SoundTokens server) (SoundCall server) pool)
    (hturn : Possible server pool turn ∧ CarefulPresentation server pool turn) :
  Pool.Holds (SoundTokens server) (SoundCall server) (tokenStep server pool turn)
  := by
  obtain ⟨hpossible, hcareful⟩ := hturn
  cases turn with
  | begin request =>
    apply h.turn_begin
    rw [TokenRequest.begin]
    split
    · trivial
    · split
      · split
        · trivial
        · trivial
      · split
        · split
          · trivial
          · rename_i token htoken
            exact hpossible token htoken
        · trivial
  | advance i choice =>
    apply h.turn_advance
    intro call hi hcall
    have hstep := step_advance h.shared hpossible hcall (hcareful call hi)
    refine ⟨hstep.sound, hstep.call, ?_⟩
    intro other hother hsound
    apply hsound.stable hstep.continues
    intro familyId hholds hmem
    rcases hstep.replayed familyId hmem with hbefore | hunheld
    · exact hbefore
    · exact absurd hholds (hunheld other hother)
  | outside event =>
    apply h.turn_outside
    obtain ⟨hsound, hcontinues, hreplayed⟩ := h.shared.outside hpossible
    refine ⟨hsound, ?_⟩
    intro call _ hcall
    apply hcall.stable hcontinues
    intro familyId _ hmem
    rwa [hreplayed] at hmem

/-- Along a run in which no presentation is refused while a request holds a grant of its family, a
family that was presented again has no row. -/
theorem replay_ends_grant (server : AuthServer) {turns : List TokenTurn}
    (hpossible : Along (tokenStep server) (Possible server) tokenStart turns)
    (hcareful : Along (tokenStep server) (CarefulPresentation server) tokenStart turns) :
  let after := (run (tokenStep server) tokenStart turns).shared
  ∀ familyId ∈ after.history.replayed, ∀ row ∈ after.state.refreshTokens,
    row.2.familyId ≠ familyId
  := by
  intro after familyId hmem
  have hstart : Pool.Holds (SoundTokens server) (SoundCall server) tokenStart := by
    refine ⟨soundTokens_start, ?_⟩
    intro call hcall
    cases hcall
  have hafter := invariant_run (fun _ _ h hturn => sound_turn h hturn)
    (along_and hpossible hcareful) hstart
  exact (hafter.shared.replayed familyId hmem).2

/-! ### A code and a token that are presented twice -/

/-- A server with a hash that changes nothing. -/
def sampleServer : AuthServer where
  backend := .sql
  sha256 := id
  base64url := hexEncode
  serviceDid := textOf "did:web:pds"
  accessTtlSecs := 900
  refreshTtlSecs := 2592000

/-- A code is issued. -/
def sampleCode : OAuthEvent :=
  .issueCode 0 (textOf "code") (textOf "did:plc:a") {
    clientId := textOf "client"
    redirectUri := textOf "redirect"
    scope := textOf "atproto"
    state := textOf "state"
    codeChallenge := hexEncode (textOf "verifier").bytes
    codeChallengeMethod := textOf "S256"
    dpopJkt := none
    loginHint := none
    createdAt := 0 } none

/-- The code is presented. -/
def sampleExchange : TokenRequest where
  input := {
    grantType := authorizationCodeGrant
    clientId := textOf "client"
    code := textOf "code"
    refreshToken := none
    redirectUri := textOf "redirect"
    codeVerifier := textOf "verifier" }
  proof := .ok (textOf "jkt")

/-- A step that works, with identifiers of a name. -/
def sampleChoice (name : String) : TokenChoice where
  works := true
  clock := fun _ => 0
  authenticated := .ok none
  account := .ok none
  epoch := .ok 0
  rotatedJti := textOf ("rotated" ++ name)
  accessJti := textOf ("access" ++ name)
  refreshJti := textOf ("refresh" ++ name)

/-- Two requests present the code, and the first one takes it. -/
def codeTaken : List TokenTurn :=
  [.outside sampleCode, .begin sampleExchange, .begin sampleExchange, .advance 0 (sampleChoice "a")]

/-- The first request is answered. -/
def firstAnswered : List TokenTurn :=
  [.advance 0 (sampleChoice "b"), .advance 0 (sampleChoice "c"), .advance 0 (sampleChoice "d")]

/-- The second request is answered. -/
def secondAnswered : List TokenTurn :=
  [.advance 1 (sampleChoice "e"), .advance 1 (sampleChoice "f")]

/-- The request has its answer. -/
def TokenCall.isDone : TokenCall → Bool
  | .done _ => true
  | .takeCode _ _ _ => false
  | .revokeCode _ => false
  | .checkCode _ _ _ _ => false
  | .peek _ _ _ => false
  | .revokeClaims _ => false
  | .checkRefresh _ _ _ => false
  | .revokeEnded _ _ => false
  | .rotate _ _ _ => false
  | .issue _ _ _ => false
  | .register _ _ _ _ => false

/-- The claims of the refresh token that the exchange hands out. -/
def sampleClaims (server : AuthServer) : OAuthClaims where
  sub := textOf "did:plc:a"
  iss := textOf "did:web:pds"
  aud := textOf "did:web:pds"
  clientId := textOf "client"
  scope := textOf "atproto"
  cnf := textOf "jkt"
  iat := 0
  exp := 1209600
  jti := textOf "refreshc"
  fam := familyForCode server.sha256 (textOf "code")
  ses := 0
  act := none

/-- A refresh token is presented. -/
def sampleRefresh (claims : OAuthClaims) : TokenRequest where
  input := {
    grantType := refreshTokenGrant
    clientId := textOf "client"
    code := none
    refreshToken := some (.signed typRefresh claims)
    redirectUri := none
    codeVerifier := none }
  proof := .ok (textOf "jkt")

/-- A step on a day that authenticates the client by a key. -/
def keyedChoice (name : String) (day : Nat) : TokenChoice :=
  { sampleChoice name with
    clock := fun _ => durationSeconds (day * 86400)
    authenticated := .ok (some (textOf "key")) }

/-- The claims of the refresh token of a client with a key, which lives for thirty days. -/
def keyedClaims : OAuthClaims := { sampleClaims sampleServer with exp := 2592000 }

/-- A client with a key exchanges the code. -/
def keyedExchange : List TokenTurn :=
  [.outside sampleCode, .begin sampleExchange, .advance 0 (keyedChoice "a" 0),
    .advance 0 (keyedChoice "b" 0), .advance 0 (keyedChoice "c" 0), .advance 0 (keyedChoice "d" 0)]

/-- Two requests present the refresh token.  The second one finds it consumed, and revokes the family
after the first one was answered. -/
def tokenReplayed : List TokenTurn :=
  [.begin (sampleRefresh keyedClaims), .begin (sampleRefresh keyedClaims),
    .advance 1 (keyedChoice "e" 10), .advance 1 (keyedChoice "f" 10), .advance 1 (keyedChoice "g" 10),
    .advance 2 (keyedChoice "h" 10), .advance 1 (keyedChoice "i" 10), .advance 1 (keyedChoice "j" 10),
    .advance 2 (keyedChoice "k" 10)]

/-- The refresh token is presented again when its life is over. -/
def presentedLate (i : Nat) : List TokenTurn :=
  [.begin (sampleRefresh keyedClaims), .advance i (keyedChoice "l" 31)]

/-- A consumed refresh token is presented while it lives and after that. -/
theorem replay_ends_grant_sample :
  let after := (run (tokenStep sampleServer) tokenStart
    (keyedExchange ++ tokenReplayed ++ presentedLate 3)).shared
  (after.history.consumed = [textOf "refreshc"] ∧
    after.history.handed.map OAuthClaims.jti = [textOf "refreshi", textOf "refreshc"] ∧
    after.history.replayed =
      [familyForCode id (textOf "code"), familyForCode id (textOf "code")]) ∧
    ∀ familyId ∈ after.history.replayed, ∀ row ∈ after.state.refreshTokens,
      row.2.familyId ≠ familyId
  := ⟨by decide +kernel, replay_ends_grant sampleServer (by decide +kernel) (by decide +kernel)⟩

/-- The refresh token is refreshed. -/
def tokenRefreshed : List TokenTurn :=
  [.begin (sampleRefresh keyedClaims), .advance 1 (keyedChoice "e" 10),
    .advance 1 (keyedChoice "f" 10), .advance 1 (keyedChoice "g" 10), .advance 1 (keyedChoice "i" 10),
    .advance 1 (keyedChoice "j" 10)]

/-- A family is presented again, and when all requests are answered its rows live until some days. -/
def Spares (turns : List TokenTurn) (days : List Nat) : Prop :=
  let after := run (tokenStep sampleServer) tokenStart turns
  Along (tokenStep sampleServer) (Possible sampleServer) tokenStart turns ∧
  after.calls.all TokenCall.isDone = true ∧
  familyForCode id (textOf "code") ∈ after.shared.history.replayed ∧
  after.shared.state.refreshTokens.map (fun row => (row.2.familyId, row.2.expiresAt)) =
    days.map fun day => (familyForCode id (textOf "code"), some (durationSeconds (day * 86400)))

/-- A code is presented again while the first request is about to register the refresh token that it
hands out, and a consumed refresh token is presented again when its own life is over and that of its
successor is not. -/
theorem replay_spares_grant :
  Spares (codeTaken ++ secondAnswered ++ firstAnswered) [14] ∧
    Spares (keyedExchange ++ tokenRefreshed ++ presentedLate 2) [40, 30]
  := by
  unfold Spares
  decide +kernel

end Atproto.Pds.Oauth
