import Atproto.Scopes.Scope

/-!
# Requests

A token has scopes, and the subject it was issued to.  A request is allowed when one of the scopes
allows it.  Scopes that cannot be read allow nothing.
-/

namespace Atproto.Scopes

open Wire

/-- One pattern covers every media type that another one does. -/
def MimePattern.grants : MimePattern → MimePattern → Bool
  | .all, _ => true
  | .typeWildcard type, .typeWildcard other => decide (type = other)
  | .typeWildcard type, .exact mime => (type ++ ['/']).isPrefixOf mime
  | .exact mime, .exact other => decide (mime = other)
  | _, _ => false

/-- A record in a space that a request is about. -/
structure SpaceTarget where
  spaceType : Chars
  did : Chars
  skey : Chars
  action : SpaceAction
  collection : Option Chars

/-- A space that a request is about. -/
structure SpaceManageTarget where
  spaceType : Chars
  did : Chars
  skey : Chars
  verb : SpaceManageVerb

/-! ### What one scope allows -/

/-- Records in a collection may be changed so. -/
def RepoScope.allows (scope : RepoScope) (collection : Chars) (action : RepoAction) : Bool :=
  decide (∃ granted ∈ scope.collections, granted.Covers collection) &&
    decide (action ∈ scope.actions)

/-- Blobs of a media type, or of all that a pattern covers, may be uploaded. -/
def BlobScope.allows (scope : BlobScope) (requested : MimePattern) : Bool :=
  decide (∃ pattern ∈ scope.accept, pattern.grants requested = true)

/-- A method may be called at an audience. -/
def RpcScope.allows (scope : RpcScope) (lxm aud : Chars) : Bool :=
  decide (∃ granted ∈ scope.lxm, granted.Covers lxm) &&
    decide (∃ granted ∈ scope.aud, granted.Covers aud)

namespace SpacePermission

/-- The authority of a grant that was issued to a subject is the one of a space. -/
def didOverlaps (did : Chars) (subject : Option Chars) : SpaceDid → Bool
  | .all => true
  | .did granted => decide (granted = did)
  | .selfDid => decide (subject = some did)

/-- A grant is for a space. -/
def tupleOverlaps (permission : SpacePermission) (spaceType did skey : Chars)
    (subject : Option Chars) : Bool :=
  decide (permission.spaceType.Covers spaceType) && didOverlaps did subject permission.did &&
    decide (permission.skey.Covers skey)

/-- The collections of a grant, which are those that the type of the space declares by default. -/
def collectionsResolvedWith (permission : SpacePermission) (declared : List Chars) :
    Finset SpaceCollection :=
  match permission.collection with
  | .explicit collections => collections
  | .default => (declared.map Pattern.only).toFinset

/-- A grant is for a collection. -/
def collectionCovers (permission : SpacePermission) (target : Option Chars)
    (declared : List Chars) : Bool :=
  let resolved := permission.collectionsResolvedWith declared
  decide (.all ∈ resolved) ||
    match target with
    | some collection => decide (.only collection ∈ resolved)
    | none => false

/-- A grant is for what a request does to a record. -/
def matchesWith (permission : SpacePermission) (target : SpaceTarget) (declared : List Chars)
    (subject : Option Chars) : Bool :=
  permission.tupleOverlaps target.spaceType target.did target.skey subject &&
    match target.action with
    | .read => decide (.read ∈ permission.action)
    | .readSelf => decide (.readSelf ∈ permission.action) || decide (.read ∈ permission.action)
    | .create | .update | .delete =>
      decide (target.action ∈ permission.action) &&
        permission.collectionCovers target.collection declared

/-- A grant is for what a request does to a space. -/
def matchesManage (permission : SpacePermission) (target : SpaceManageTarget)
    (subject : Option Chars) : Bool :=
  permission.tupleOverlaps target.spaceType target.did target.skey subject &&
    decide (target.verb ∈ permission.manage)

end SpacePermission

/-! ### What a token allows -/

/-- The scopes of a token, and the subject that it was issued to. -/
structure ScopesSet where
  scopes : List Chars
  subject : Option Chars

namespace ScopesSet

variable (set : ScopesSet)

/-- One of the scopes can be read and satisfies a condition. -/
def anyScope (p : Scope → Bool) : Bool :=
  set.scopes.any fun text =>
    match Scope.parse text with
    | .ok scope => p scope
    | .error _ => false

/-- Add a scope. -/
def insert (text : Chars) : ScopesSet := { set with scopes := set.scopes ++ [text] }

def hasLegacyGeneric : Bool := set.anyScope fun scope => scope = .transition .generic

def hasLegacyChat : Bool := set.anyScope fun scope => scope = .transition .chatBsky

def allowsRepo (collection : Chars) (action : RepoAction) : Bool :=
  set.hasLegacyGeneric || set.anyScope fun
    | .repo repo => repo.allows collection action
    | _ => false

def allowsBlob (mime : Chars) : Bool :=
  match MimePattern.fromStr mime with
  | .error _ => false
  | .ok requested => set.hasLegacyGeneric || set.anyScope fun
    | .blob blob => blob.allows requested
    | _ => false

/-- A method is one of the chat. -/
def isChat (lxm : Chars) : Bool := "chat.bsky.".toList.isPrefixOf lxm

def allowsRpc (lxm aud : Chars) : Bool :=
  if set.hasLegacyGeneric && (lxm = ['*'] || !isChat lxm) then true
  else if isChat lxm && set.hasLegacyChat then true
  else set.anyScope fun
    | .rpc rpc => rpc.allows lxm aud
    | _ => false

def allowsSpaceWith (target : SpaceTarget) (declared : List Chars) : Bool :=
  set.anyScope fun
    | .space permission => permission.matchesWith target declared set.subject
    | _ => false

def allowsSpaceManage (target : SpaceManageTarget) : Bool :=
  set.anyScope fun
    | .space permission => permission.matchesManage target set.subject
    | _ => false

end ScopesSet

/-! ### Requests -/

/-- What a request asks for. -/
inductive Request where
  | repo (collection : Chars) (action : RepoAction)
  | blob (mime : Chars)
  | rpc (lxm aud : Chars)
  | space (target : SpaceTarget) (declared : List Chars)
  | spaceManage (target : SpaceManageTarget)

/-- The token allows a request. -/
def ScopesSet.allows (set : ScopesSet) : Request → Bool
  | .repo collection action => set.allowsRepo collection action
  | .blob mime => set.allowsBlob mime
  | .rpc lxm aud => set.allowsRpc lxm aud
  | .space target declared => set.allowsSpaceWith target declared
  | .spaceManage target => set.allowsSpaceManage target

/-- One scope of a token that was issued to a subject authorizes a request. -/
def Scope.Authorizes (subject : Option Chars) : Request → Scope → Prop
  | .repo _ _, .transition legacy => legacy = .generic
  | .repo collection action, .repo granted => granted.allows collection action = true
  | .blob mime, .transition legacy =>
    legacy = .generic ∧ ∃ requested, MimePattern.fromStr mime = .ok requested
  | .blob mime, .blob granted =>
    ∃ requested, MimePattern.fromStr mime = .ok requested ∧ granted.allows requested = true
  | .rpc lxm _, .transition legacy =>
    legacy = .generic ∧ (lxm = ['*'] ∨ ScopesSet.isChat lxm = false) ∨
      legacy = .chatBsky ∧ ScopesSet.isChat lxm = true
  | .rpc lxm aud, .rpc granted => granted.allows lxm aud = true
  | .space target declared, .space granted => granted.matchesWith target declared subject = true
  | .spaceManage target, .space granted => granted.matchesManage target subject = true
  | _, _ => False

/-- The scopes of a token that can be read. -/
def ScopesSet.parsed (set : ScopesSet) : List Scope :=
  set.scopes.filterMap fun text => (Scope.parse text).toOption

theorem ScopesSet.anyScope_iff {set : ScopesSet} {p : Scope → Bool} :
  set.anyScope p = true ↔ ∃ scope ∈ set.parsed, p scope = true
  := by
  rw [anyScope, List.any_eq_true]
  constructor
  · rintro ⟨text, htext, hp⟩
    cases hparse : Scope.parse text with
    | error error =>
      rw [hparse] at hp
      cases hp
    | ok scope =>
      rw [hparse] at hp
      refine ⟨scope, List.mem_filterMap.mpr ⟨text, htext, ?_⟩, hp⟩
      rw [hparse]
      rfl
  · rintro ⟨scope, hscope, hp⟩
    obtain ⟨text, htext, hparse⟩ := List.mem_filterMap.mp hscope
    refine ⟨text, htext, ?_⟩
    cases hresult : Scope.parse text with
    | error error =>
      rw [hresult] at hparse
      cases hparse
    | ok scope' =>
      rw [hresult] at hparse
      cases hparse
      exact hp

theorem ScopesSet.anyScope_or_iff {set : ScopesSet} {p q : Scope → Bool} :
  (set.anyScope p || set.anyScope q) = true ↔ ∃ scope ∈ set.parsed, p scope = true ∨ q scope = true
  := by
  rw [Bool.or_eq_true, anyScope_iff, anyScope_iff, ← exists_or]
  apply exists_congr
  intro scope
  rw [and_or_left]

theorem allowsRepo_iff {set : ScopesSet} {collection : Chars} {action : RepoAction} :
  set.allowsRepo collection action = true ↔
    ∃ scope ∈ set.parsed, Scope.Authorizes set.subject (.repo collection action) scope
  := by
  rw [ScopesSet.allowsRepo, ScopesSet.hasLegacyGeneric, ScopesSet.anyScope_or_iff]
  apply exists_congr
  intro scope
  apply and_congr_right
  intro _
  cases scope with
  | transition legacy => simp [Scope.Authorizes]
  | repo granted => simp [Scope.Authorizes]
  | _ => simp [Scope.Authorizes]

theorem allowsBlob_iff {set : ScopesSet} {mime : Chars} :
  set.allowsBlob mime = true ↔
    ∃ scope ∈ set.parsed, Scope.Authorizes set.subject (.blob mime) scope
  := by
  rw [ScopesSet.allowsBlob]
  cases hmime : MimePattern.fromStr mime with
  | error error =>
    constructor
    · nofun
    · rintro ⟨scope, -, h⟩
      cases scope with
      | transition legacy => simp [Scope.Authorizes, hmime] at h
      | blob granted => simp [Scope.Authorizes, hmime] at h
      | _ => exact h.elim
  | ok requested =>
    dsimp only
    rw [ScopesSet.hasLegacyGeneric, ScopesSet.anyScope_or_iff]
    apply exists_congr
    intro scope
    apply and_congr_right
    intro _
    cases scope with
    | transition legacy => simp [Scope.Authorizes, hmime]
    | blob granted => simp [Scope.Authorizes, hmime]
    | _ => simp [Scope.Authorizes]

theorem allowsRpc_iff {set : ScopesSet} {lxm aud : Chars} :
  set.allowsRpc lxm aud = true ↔
    ∃ scope ∈ set.parsed, Scope.Authorizes set.subject (.rpc lxm aud) scope
  := by
  have hallows : set.allowsRpc lxm aud = true ↔ ∃ scope ∈ set.parsed,
      scope = .transition .generic ∧ (lxm = ['*'] ∨ ScopesSet.isChat lxm = false) ∨
      scope = .transition .chatBsky ∧ ScopesSet.isChat lxm = true ∨
      (match scope with
        | .rpc rpc => rpc.allows lxm aud
        | _ => false) = true := by
    rw [ScopesSet.allowsRpc]
    constructor
    · intro h
      split_ifs at h with hgeneric hchat
      · rw [Bool.and_eq_true, ScopesSet.hasLegacyGeneric, ScopesSet.anyScope_iff, Bool.or_eq_true,
          decide_eq_true_iff, Bool.not_eq_true'] at hgeneric
        obtain ⟨⟨scope, hscope, hlegacy⟩, hlxm⟩ := hgeneric
        exact ⟨scope, hscope, .inl ⟨of_decide_eq_true hlegacy, hlxm⟩⟩
      · rw [Bool.and_eq_true, ScopesSet.hasLegacyChat, ScopesSet.anyScope_iff] at hchat
        obtain ⟨hchat, scope, hscope, hlegacy⟩ := hchat
        exact ⟨scope, hscope, .inr (.inl ⟨of_decide_eq_true hlegacy, hchat⟩)⟩
      · obtain ⟨scope, hscope, hrpc⟩ := ScopesSet.anyScope_iff.mp h
        exact ⟨scope, hscope, .inr (.inr hrpc)⟩
    · rintro ⟨scope, hscope, h⟩
      split_ifs with hgeneric hchat
      · rfl
      · rfl
      · rcases h with ⟨rfl, hlxm⟩ | ⟨rfl, hlxm⟩ | hrpc
        · refine absurd ?_ hgeneric
          rw [Bool.and_eq_true, ScopesSet.hasLegacyGeneric, ScopesSet.anyScope_iff, Bool.or_eq_true,
            decide_eq_true_iff, Bool.not_eq_true']
          exact ⟨⟨_, hscope, decide_eq_true rfl⟩, hlxm⟩
        · refine absurd ?_ hchat
          rw [Bool.and_eq_true, ScopesSet.hasLegacyChat, ScopesSet.anyScope_iff]
          exact ⟨hlxm, _, hscope, decide_eq_true rfl⟩
        · exact ScopesSet.anyScope_iff.mpr ⟨scope, hscope, hrpc⟩
  rw [hallows]
  apply exists_congr
  intro scope
  apply and_congr_right
  intro _
  cases scope with
  | transition legacy => simp [Scope.Authorizes]
  | rpc granted => simp [Scope.Authorizes]
  | _ => simp [Scope.Authorizes]

/-- A token allows a request exactly when one of its scopes that can be read authorizes it. -/
theorem ScopesSet.allows_iff {set : ScopesSet} {request : Request} :
  set.allows request = true ↔ ∃ scope ∈ set.parsed, Scope.Authorizes set.subject request scope
  := by
  cases request with
  | repo collection action => exact allowsRepo_iff
  | blob mime => exact allowsBlob_iff
  | rpc lxm aud => exact allowsRpc_iff
  | space target declared =>
    rw [allows, allowsSpaceWith, anyScope_iff]
    apply exists_congr
    intro scope
    apply and_congr_right
    intro _
    cases scope with
    | space granted => exact Iff.rfl
    | _ => exact iff_of_false Bool.false_ne_true id
  | spaceManage target =>
    rw [allows, allowsSpaceManage, anyScope_iff]
    apply exists_congr
    intro scope
    apply and_congr_right
    intro _
    cases scope with
    | space granted => exact Iff.rfl
    | _ => exact iff_of_false Bool.false_ne_true id

end Atproto.Scopes
