import Atproto.Logic.Action
import Atproto.Logic.Reduce
import Atproto.Scopes.Requests

/-!
# Scopes that grant others

A scope grants another one when it authorizes all that the other one does.  The scopes of a text are
reduced: one that another one grants is left out.
-/

namespace Atproto.Scopes

open Logic Wire

/-! ### Scopes of one kind -/

def AccountScope.grants (scope other : AccountScope) : Bool :=
  decide (scope.resource = other.resource) &&
    match scope.action, other.action with
    | .manage, _ => true
    | .read, .read => true
    | .read, .manage => false

def IdentityScope.grants : IdentityScope → IdentityScope → Bool
  | .all, _ => true
  | .handle, .handle => true
  | .handle, .all => false

/-- Every pattern of the other scope is one that a pattern of this one covers. -/
def BlobScope.grants (scope other : BlobScope) : Bool :=
  decide (∀ wanted ∈ other.accept, ∃ pattern ∈ scope.accept, pattern.grants wanted = true)

def RepoScope.grants (scope other : RepoScope) : Bool :=
  (decide (.all ∈ scope.collections) || decide (other.collections ⊆ scope.collections)) &&
    (decide (other.actions ⊆ scope.actions) || decide (scope.actions.card = 3))

/-- Every name is granted, or each of the others is one of these. -/
def grantsPatterns (patterns others : Finset Pattern) : Bool :=
  if .all ∈ patterns then true else decide (∀ wanted ∈ others, wanted ≠ .all ∧ wanted ∈ patterns)

def RpcScope.grants (scope other : RpcScope) : Bool :=
  grantsPatterns scope.lxm other.lxm && grantsPatterns scope.aud other.aud

/-! ### The order of each kind -/

theorem AccountScope.grants_refl (a : AccountScope) :
  a.grants a = true
  := by
  rw [grants, decide_eq_true rfl, Bool.true_and]
  cases a.action with
  | read => rfl
  | manage => rfl

theorem AccountScope.grants_trans {a b c : AccountScope} (hab : a.grants b = true)
    (hbc : b.grants c = true) :
  a.grants c = true
  := by
  rw [grants, Bool.and_eq_true, decide_eq_true_iff] at hab hbc ⊢
  refine ⟨hab.1.trans hbc.1, ?_⟩
  replace hab := hab.2
  replace hbc := hbc.2
  revert hab hbc
  cases a.action with
  | manage => exact fun _ _ => rfl
  | read =>
    cases b.action with
    | manage => nofun
    | read => exact fun _ h => h

theorem IdentityScope.grants_refl (a : IdentityScope) :
  a.grants a = true
  := by
  cases a with
  | handle => rfl
  | all => rfl

theorem IdentityScope.grants_trans {a b c : IdentityScope} (hab : a.grants b = true)
    (hbc : b.grants c = true) :
  a.grants c = true
  := by
  cases a with
  | all => rfl
  | handle =>
    cases b with
    | all => cases hab
    | handle => exact hbc

theorem MimePattern.grants_refl (a : MimePattern) :
  a.grants a = true
  := by
  cases a with
  | all => rfl
  | typeWildcard type => exact decide_eq_true rfl
  | exact mime => exact decide_eq_true rfl

theorem MimePattern.grants_trans {a b c : MimePattern} (hab : a.grants b = true)
    (hbc : b.grants c = true) :
  a.grants c = true
  := by
  cases a with
  | all => rfl
  | typeWildcard type =>
    cases b with
    | all => cases hab
    | typeWildcard other =>
      obtain rfl := of_decide_eq_true hab
      exact hbc
    | exact mime =>
      cases c with
      | all => cases hbc
      | typeWildcard type => cases hbc
      | exact other =>
        obtain rfl := of_decide_eq_true hbc
        exact hab
  | exact mime =>
    cases b with
    | all => cases hab
    | typeWildcard other => cases hab
    | exact other =>
      obtain rfl := of_decide_eq_true hab
      exact hbc

theorem BlobScope.grants_refl (a : BlobScope) :
  a.grants a = true
  := by
  rw [grants, decide_eq_true_iff]
  intro pattern hpattern
  exact ⟨pattern, hpattern, pattern.grants_refl⟩

theorem BlobScope.grants_trans {a b c : BlobScope} (hab : a.grants b = true)
    (hbc : b.grants c = true) :
  a.grants c = true
  := by
  rw [grants, decide_eq_true_iff] at hab hbc ⊢
  intro wanted hwanted
  obtain ⟨pattern, hpattern, hcovers⟩ := hbc wanted hwanted
  obtain ⟨wide, hwide, hwider⟩ := hab pattern hpattern
  exact ⟨wide, hwide, MimePattern.grants_trans hwider hcovers⟩

theorem RepoAction.eq_univ_of_card {actions : Finset RepoAction} (h : actions.card = 3)
    (action : RepoAction) :
  action ∈ actions
  := by
  by_contra hmem
  have hsub : actions ⊆ RepoAction.every.erase action := by
    intro other hother
    rw [Finset.mem_erase]
    refine ⟨?_, ?_⟩
    · rintro rfl
      exact hmem hother
    · cases other <;> decide
  have hcard := Finset.card_le_card hsub
  rw [h] at hcard
  revert hcard
  cases action <;> decide

/-- What a repository scope grants, as sets of what it is for. -/
theorem RepoScope.grants_iff {a b : RepoScope} :
  a.grants b = true ↔
    (.all ∈ a.collections ∨ b.collections ⊆ a.collections) ∧ b.actions ⊆ a.actions
  := by
  rw [grants, Bool.and_eq_true, Bool.or_eq_true, Bool.or_eq_true, decide_eq_true_iff,
    decide_eq_true_iff, decide_eq_true_iff, decide_eq_true_iff]
  apply and_congr_right
  intro _
  apply or_iff_left_of_imp
  intro hcard action _
  exact RepoAction.eq_univ_of_card hcard action

theorem RepoScope.grants_refl (a : RepoScope) :
  a.grants a = true
  := grants_iff.mpr ⟨.inr (Finset.Subset.refl _), Finset.Subset.refl _⟩

theorem RepoScope.grants_trans {a b c : RepoScope} (hab : a.grants b = true)
    (hbc : b.grants c = true) :
  a.grants c = true
  := by
  obtain ⟨hcollections, hactions⟩ := grants_iff.mp hab
  obtain ⟨hcollections', hactions'⟩ := grants_iff.mp hbc
  refine grants_iff.mpr ⟨?_, hactions'.trans hactions⟩
  rcases hcollections with hall | hsub
  · exact .inl hall
  · rcases hcollections' with hall | hsub'
    · exact .inl (hsub hall)
    · exact .inr (hsub'.trans hsub)

/-- Every name is granted, or names only, each of which is. -/
theorem grantsPatterns_iff {patterns others : Finset Pattern} :
  grantsPatterns patterns others = true ↔ .all ∈ patterns ∨ others ⊆ patterns
  := by
  rw [grantsPatterns]
  split_ifs with hall
  · exact iff_of_true rfl (.inl hall)
  · rw [decide_eq_true_iff, or_iff_right hall]
    constructor
    · intro h wanted hwanted
      exact (h wanted hwanted).2
    · intro h wanted hwanted
      refine ⟨?_, h hwanted⟩
      rintro rfl
      exact hall (h hwanted)

theorem grantsPatterns_trans {a b c : Finset Pattern} (hab : grantsPatterns a b = true)
    (hbc : grantsPatterns b c = true) :
  grantsPatterns a c = true
  := by
  rw [grantsPatterns_iff] at hab hbc ⊢
  rcases hab with hall | hsub
  · exact .inl hall
  · rcases hbc with hall | hsub'
    · exact .inl (hsub hall)
    · exact .inr (hsub'.trans hsub)

theorem RpcScope.grants_refl (a : RpcScope) :
  a.grants a = true
  := by
  rw [grants, Bool.and_eq_true, grantsPatterns_iff, grantsPatterns_iff]
  exact ⟨.inr (Finset.Subset.refl _), .inr (Finset.Subset.refl _)⟩

theorem RpcScope.grants_trans {a b c : RpcScope} (hab : a.grants b = true)
    (hbc : b.grants c = true) :
  a.grants c = true
  := by
  rw [grants, Bool.and_eq_true] at hab hbc ⊢
  exact ⟨grantsPatterns_trans hab.1 hbc.1, grantsPatterns_trans hab.2 hbc.2⟩

/-! ### Scopes of any kind -/

/-- One scope grants all that another one does. -/
def Scope.grants : Scope → Scope → Bool
  | .atproto, .atproto => true
  | .atproto, _ => false
  | _, .atproto => false
  | .transition a, .transition b => decide (a = b)
  | _, .transition _ => false
  | .transition _, _ => false
  | .includeSet a, .includeSet b => decide (a = b)
  | _, .includeSet _ => false
  | .includeSet _, _ => false
  | .openId, .openId => true
  | .openId, _ => false
  | _, .openId => false
  | .profile, .profile => true
  | .profile, _ => false
  | _, .profile => false
  | .email, .email => true
  | .email, _ => false
  | _, .email => false
  | .account a, .account b => a.grants b
  | .identity a, .identity b => a.grants b
  | .blob a, .blob b => a.grants b
  | .repo a, .repo b => a.grants b
  | .rpc a, .rpc b => a.grants b
  | .space a, .space b => decide (a = b)
  | _, _ => false

/-- Scopes of one kind, the first of which grants the second. -/
inductive Grants : Scope → Scope → Prop where
  | account {a b : AccountScope} (h : a.grants b = true) : Grants (.account a) (.account b)
  | identity {a b : IdentityScope} (h : a.grants b = true) : Grants (.identity a) (.identity b)
  | blob {a b : BlobScope} (h : a.grants b = true) : Grants (.blob a) (.blob b)
  | repo {a b : RepoScope} (h : a.grants b = true) : Grants (.repo a) (.repo b)
  | rpc {a b : RpcScope} (h : a.grants b = true) : Grants (.rpc a) (.rpc b)
  | same (a : Scope) : Grants a a

theorem grants_iff {a b : Scope} :
  a.grants b = true ↔ Grants a b
  := by
  constructor
  · intro h
    cases a with
    | account scope =>
      cases b with
      | account other => exact .account h
      | _ => cases h
    | identity scope =>
      cases b with
      | identity other => exact .identity h
      | _ => cases h
    | blob scope =>
      cases b with
      | blob other => exact .blob h
      | _ => cases h
    | repo scope =>
      cases b with
      | repo other => exact .repo h
      | _ => cases h
    | rpc scope =>
      cases b with
      | rpc other => exact .rpc h
      | _ => cases h
    | space scope =>
      cases b with
      | space other =>
        obtain rfl := of_decide_eq_true h
        exact .same _
      | _ => cases h
    | transition scope =>
      cases b with
      | transition other =>
        obtain rfl := of_decide_eq_true h
        exact .same _
      | _ => cases h
    | includeSet scope =>
      cases b with
      | includeSet other =>
        obtain rfl := of_decide_eq_true h
        exact .same _
      | _ => cases h
    | atproto =>
      cases b with
      | atproto => exact .same _
      | _ => cases h
    | openId =>
      cases b with
      | openId => exact .same _
      | _ => cases h
    | profile =>
      cases b with
      | profile => exact .same _
      | _ => cases h
    | email =>
      cases b with
      | email => exact .same _
      | _ => cases h
  · intro h
    cases h with
    | account h => exact h
    | identity h => exact h
    | blob h => exact h
    | repo h => exact h
    | rpc h => exact h
    | same a =>
      cases a with
      | account scope => exact scope.grants_refl
      | identity scope => exact scope.grants_refl
      | blob scope => exact scope.grants_refl
      | repo scope => exact scope.grants_refl
      | rpc scope => exact scope.grants_refl
      | space scope => exact decide_eq_true rfl
      | transition scope => exact decide_eq_true rfl
      | includeSet scope => exact decide_eq_true rfl
      | _ => rfl

theorem Scope.grants_refl (a : Scope) :
  a.grants a = true
  := grants_iff.mpr (.same a)

theorem Scope.grants_trans {a b c : Scope} (hab : a.grants b = true) (hbc : b.grants c = true) :
  a.grants c = true
  := by
  rw [grants_iff] at hab hbc ⊢
  cases hab with
  | same => exact hbc
  | account hab =>
    cases hbc with
    | same => exact .account hab
    | account hbc => exact .account (AccountScope.grants_trans hab hbc)
  | identity hab =>
    cases hbc with
    | same => exact .identity hab
    | identity hbc => exact .identity (IdentityScope.grants_trans hab hbc)
  | blob hab =>
    cases hbc with
    | same => exact .blob hab
    | blob hbc => exact .blob (BlobScope.grants_trans hab hbc)
  | repo hab =>
    cases hbc with
    | same => exact .repo hab
    | repo hbc => exact .repo (RepoScope.grants_trans hab hbc)
  | rpc hab =>
    cases hbc with
    | same => exact .rpc hab
    | rpc hbc => exact .rpc (RpcScope.grants_trans hab hbc)

/-! ### What is granted is allowed -/

theorem RepoScope.allows_of_grants {a b : RepoScope} (h : a.grants b = true) {collection : Chars}
    {action : RepoAction} (hb : b.allows collection action = true) :
  a.allows collection action = true
  := by
  rw [allows, Bool.and_eq_true, decide_eq_true_iff, decide_eq_true_iff] at hb ⊢
  obtain ⟨hcollections, hactions⟩ := grants_iff.mp h
  refine ⟨?_, hactions hb.2⟩
  rcases hcollections with hall | hsub
  · exact ⟨.all, hall, trivial⟩
  · obtain ⟨granted, hgranted, hcovers⟩ := hb.1
    exact ⟨granted, hsub hgranted, hcovers⟩

theorem BlobScope.allows_of_grants {a b : BlobScope} (h : a.grants b = true)
    {requested : MimePattern} (hb : b.allows requested = true) :
  a.allows requested = true
  := by
  rw [grants, decide_eq_true_iff] at h
  rw [allows, decide_eq_true_iff] at hb ⊢
  obtain ⟨pattern, hpattern, hcovers⟩ := hb
  obtain ⟨wide, hwide, hwider⟩ := h pattern hpattern
  exact ⟨wide, hwide, MimePattern.grants_trans hwider hcovers⟩

/-- Patterns that grant others cover each name that these do. -/
theorem covers_of_grantsPatterns {patterns others : Finset Pattern}
    (h : grantsPatterns patterns others = true) {name : Chars}
    (hname : ∃ granted ∈ others, granted.Covers name) :
  ∃ granted ∈ patterns, granted.Covers name
  := by
  rcases grantsPatterns_iff.mp h with hall | hsub
  · exact ⟨.all, hall, trivial⟩
  · obtain ⟨granted, hgranted, hcovers⟩ := hname
    exact ⟨granted, hsub hgranted, hcovers⟩

theorem RpcScope.allows_of_grants {a b : RpcScope} (h : a.grants b = true) {lxm aud : Chars}
    (hb : b.allows lxm aud = true) :
  a.allows lxm aud = true
  := by
  rw [grants, Bool.and_eq_true] at h
  rw [allows, Bool.and_eq_true, decide_eq_true_iff, decide_eq_true_iff] at hb ⊢
  exact ⟨covers_of_grantsPatterns h.1 hb.1, covers_of_grantsPatterns h.2 hb.2⟩

/-- A scope authorizes each request that a scope it grants does. -/
theorem Scope.Authorizes.of_grants {a b : Scope} (h : a.grants b = true) {subject : Option Chars}
    {request : Request} (hb : Authorizes subject request b) :
  Authorizes subject request a
  := by
  rw [grants_iff] at h
  cases h with
  | same => exact hb
  | account => cases request <;> exact hb.elim
  | identity => cases request <;> exact hb.elim
  | blob h =>
    cases request with
    | blob mime =>
      obtain ⟨requested, hmime, hallows⟩ := hb
      exact ⟨requested, hmime, BlobScope.allows_of_grants h hallows⟩
    | _ => exact hb.elim
  | repo h =>
    cases request with
    | repo collection action => exact RepoScope.allows_of_grants h hb
    | _ => exact hb.elim
  | rpc h =>
    cases request with
    | rpc lxm aud => exact RpcScope.allows_of_grants h hb
    | _ => exact hb.elim

/-! ### The scopes of a text -/

/-- Read scopes one after another. -/
def parseScopes : List Chars → Except ParseError (List Scope)
  | [] => .ok []
  | text :: texts => do
    let scope ← Scope.parse text
    let rest ← parseScopes texts
    .ok (scope :: rest)

/-- Read the scopes of a text, which white space separates. -/
def Scope.parseMultiple (text : Chars) : Except ParseError (List Scope) :=
  if text.all isWhitespace then .ok [] else parseScopes (splitWhitespace text)

/-- Read the scopes of a text without those that another one grants. -/
def Scope.parseMultipleReduced (text : Chars) : Except ParseError (List Scope) := do
  let scopes ← parseMultiple text
  if scopes.isEmpty then .ok [] else .ok (reduce Scope.grants scopes)

theorem parseMultipleReduced_eq (text : Chars) :
  Scope.parseMultipleReduced text = (Scope.parseMultiple text).map (reduce Scope.grants)
  := by
  rw [Scope.parseMultipleReduced]
  cases Scope.parseMultiple text with
  | error error => rfl
  | ok scopes =>
    cases scopes with
    | nil => rfl
    | cons scope scopes => rfl

/-- The scopes that are read are those that a token with the texts has. -/
theorem parsed_eq_of_parseScopes {texts : List Chars} {scopes : List Scope}
    (h : parseScopes texts = .ok scopes) (subject : Option Chars) :
  ScopesSet.parsed { scopes := texts, subject := subject } = scopes
  := by
  induction texts generalizing scopes with
  | nil =>
    cases h
    rfl
  | cons text texts ih =>
    rw [parseScopes] at h
    cases hparse : Scope.parse text with
    | error error =>
      rw [hparse] at h
      cases h
    | ok scope =>
      rw [hparse] at h
      cases hrest : parseScopes texts with
      | error error =>
        rw [hrest] at h
        cases h
      | ok rest =>
        rw [hrest] at h
        cases h
        have htail := ih hrest
        rw [ScopesSet.parsed] at htail ⊢
        rw [List.filterMap_cons, hparse]
        exact congrArg (scope :: ·) htail

/-- A text that is blank has no parts. -/
theorem splitWhitespace_of_blank {text : Chars} (h : text.all isWhitespace = true) :
  splitWhitespace text = []
  := by
  rw [splitWhitespace, List.filter_eq_nil_iff]
  intro part hpart hempty
  induction text with
  | nil =>
    rw [List.splitOnP_nil, List.mem_singleton] at hpart
    rw [hpart] at hempty
    cases hempty
  | cons c text ih =>
    rw [List.all_cons, Bool.and_eq_true] at h
    rw [List.splitOnP_cons_eq_if_modifyHead, if_pos h.1] at hpart
    rcases List.mem_cons.mp hpart with rfl | hmem
    · cases hempty
    · exact ih h.2 hmem

/-- The scopes that are read of a text are those that a token with it has. -/
theorem parsed_eq_of_parseMultiple {text : Chars} {scopes : List Scope}
    (h : Scope.parseMultiple text = .ok scopes) (subject : Option Chars) :
  ScopesSet.parsed { scopes := splitWhitespace text, subject := subject } = scopes
  := by
  rw [Scope.parseMultiple] at h
  split_ifs at h with hblank
  · cases h
    rw [splitWhitespace_of_blank hblank]
    rfl
  · exact parsed_eq_of_parseScopes h subject

/-- Grants are an order that is sound for what tokens allow, and the reduced scopes of a text, none of
which grants another, authorize the requests that a token with the text allows. -/
theorem grants_sound_and_reduced :
  (∀ (text other : Chars) (a b : Scope), Scope.parse text = .ok a → Scope.parse other = .ok b →
    a.grants b = true → ∀ (subject : Option Chars) (request : Request),
      ScopesSet.allows { scopes := [other], subject := subject } request = true →
        ScopesSet.allows { scopes := [text], subject := subject } request = true) ∧
  (∀ a : Scope, a.grants a = true) ∧
  (∀ a b c : Scope, a.grants b = true → b.grants c = true → a.grants c = true) ∧
  ∀ (text : Chars) (scopes : List Scope), Scope.parseMultiple text = .ok scopes →
    ∃ reduced, Scope.parseMultipleReduced text = .ok reduced ∧
      reduced.Pairwise (fun a b => a ≠ b ∧ a.grants b = false ∧ b.grants a = false) ∧
      ∀ (subject : Option Chars) (request : Request),
        ((∃ scope ∈ reduced, Scope.Authorizes subject request scope) ↔
          ∃ scope ∈ scopes, Scope.Authorizes subject request scope) ∧
        ((∃ scope ∈ scopes, Scope.Authorizes subject request scope) ↔
          ScopesSet.allows { scopes := splitWhitespace text, subject := subject } request = true)
  := by
  refine ⟨?_, Scope.grants_refl, fun a b c => Scope.grants_trans, ?_⟩
  · intro text other a b ha hb hgrants subject request hallows
    have hparsed : ∀ {text : Chars} {scope : Scope}, Scope.parse text = .ok scope →
        ScopesSet.parsed { scopes := [text], subject := subject } = [scope] := by
      intro text scope hscope
      rw [ScopesSet.parsed, List.filterMap_cons, hscope]
      rfl
    rw [ScopesSet.allows_iff, hparsed hb] at hallows
    obtain ⟨scope, hscope, hauthorizes⟩ := hallows
    obtain rfl := List.mem_singleton.mp hscope
    rw [ScopesSet.allows_iff, hparsed ha]
    exact ⟨a, List.mem_singleton_self a, hauthorizes.of_grants hgrants⟩
  · intro text scopes hscopes
    refine ⟨reduce Scope.grants scopes, ?_, apart_reduce scopes, ?_⟩
    · rw [parseMultipleReduced_eq, hscopes]
      rfl
    · intro subject request
      constructor
      · apply exists_reduce_iff Scope.grants_refl
        intro b a hgrants hauthorizes
        exact hauthorizes.of_grants hgrants
      · rw [ScopesSet.allows_iff, parsed_eq_of_parseMultiple hscopes]

/-- The scopes for all changes to posts, and for new posts. -/
def allPosts : Chars := "repo:app.bsky.feed.post".toList

def newPosts : Chars := "repo:app.bsky.feed.post?action=create".toList

/-- A text in which the last scope grants the first one. -/
def repeatedScopes : Chars := newPosts ++ ' ' :: ("account:email ".toList ++ allPosts)

/-- The scope for all changes to posts allows a new post, and of the three scopes two are left, one of
which authorizes the deletion of a post. -/
theorem grants_sound_and_reduced_sample :
  ScopesSet.allows { scopes := [allPosts], subject := none }
      (.repo "app.bsky.feed.post".toList .create) = true ∧
    ∃ scopes reduced, Scope.parseMultiple repeatedScopes = .ok scopes ∧ scopes.length = 3 ∧
      Scope.parseMultipleReduced repeatedScopes = .ok reduced ∧ reduced.length = 2 ∧
      reduced.Pairwise (fun a b => a ≠ b ∧ a.grants b = false ∧ b.grants a = false) ∧
      ∃ scope ∈ reduced,
        Scope.Authorizes none (.repo "app.bsky.feed.post".toList .delete) scope
  := by
  obtain ⟨hsound, -, -, hreduced⟩ := grants_sound_and_reduced
  constructor
  · have hgrants : ((Scope.parse allPosts).toOption.bind fun a =>
        (Scope.parse newPosts).toOption.map a.grants) = some true := by decide +kernel
    obtain ⟨a, ha, hgrants⟩ := Option.bind_eq_some_iff.mp hgrants
    obtain ⟨b, hb, hgrants⟩ := Option.map_eq_some_iff.mp hgrants
    exact hsound _ _ a b (toOption_eq_some.mp ha) (toOption_eq_some.mp hb) hgrants none _
      (by decide +kernel)
  · have hlengths : (Scope.parseMultiple repeatedScopes).toOption.map List.length = some 3 ∧
        (Scope.parseMultipleReduced repeatedScopes).toOption.map List.length = some 2 := by
      decide +kernel
    obtain ⟨scopes, hscopes, hlength⟩ := Option.map_eq_some_iff.mp hlengths.1
    obtain ⟨reduced, hparsed, hapart, hauthorizes⟩ :=
      hreduced repeatedScopes scopes (toOption_eq_some.mp hscopes)
    have hshort := hlengths.2
    rw [hparsed] at hshort
    refine ⟨scopes, reduced, toOption_eq_some.mp hscopes, hlength, hparsed, Option.some.inj hshort,
      hapart, ?_⟩
    obtain ⟨hreducedIff, hallows⟩ := hauthorizes none (.repo "app.bsky.feed.post".toList .delete)
    exact hreducedIff.mpr (hallows.mpr (by decide +kernel))

end Atproto.Scopes
