import Atproto.Logic.Pool
import Atproto.Repo.Codec
import Atproto.Scopes.Query
import Mathlib.Data.List.DropRight
import Mathlib.Logic.Function.Basic

/-!
# Mailed codes

A code is mailed to the holder of an account for one purpose, and is spent when it is presented
before it expires.  A call looks the code up and deletes it in two statements, and the statements of
different calls come in any order.  The codes are spent once along a run in which no code is looked
up while another call is about to delete it.
-/

namespace Atproto.Pds.EmailToken

open Atproto.Dasl Atproto.Repo Atproto.Scopes Logic Logic.Machine

/-! ### Spellings -/

/-- The letters of a code. -/
def codeAlphabet : Chars := "ABCDEFGHIJKLMNOPQRSTUVWXYZ234567".toList

/-- An ASCII letter in upper case, and any other character as it is. -/
def toAsciiUppercase (c : Char) : Char :=
  if 97 ≤ c.toNat ∧ c.toNat ≤ 122 then Char.ofNat (c.toNat - 32) else c

/-- The character is an ASCII letter or digit. -/
def isAsciiAlphanumericChar (c : Char) : Bool :=
  (48 ≤ c.toNat && c.toNat ≤ 57) || (65 ≤ c.toNat && c.toNat ≤ 90) ||
    (97 ≤ c.toNat && c.toNat ≤ 122)

/-- A text without the white space around it. -/
def trim (text : Chars) : Chars := (text.dropWhile isWhitespace).rdropWhile isWhitespace

/-- The character stands between the letters of a code only. -/
def isFiller (c : Char) : Bool := c == '-' || isWhitespace c

/-- The number of bytes of a text. -/
def byteLength (text : Chars) : Nat := (text.map Char.utf8Size).sum

/-- A code as it was mailed, from what was typed for it, and any other text without the white space
around it. -/
def normalizeCode (input : Chars) : Chars :=
  let trimmed := trim input
  let stripped := trimmed.filter fun c => !isFiller c
  if byteLength stripped = 10 ∧ stripped.all isAsciiAlphanumericChar = true then
    let upper := stripped.map toAsciiUppercase
    if upper.all codeAlphabet.contains = true then upper.take 5 ++ '-' :: upper.drop 5 else trimmed
  else trimmed

/-- Two groups of five letters, with a hyphen between them. -/
def IsCode (code : Chars) : Prop :=
  ∃ letters : Chars, letters.length = 10 ∧ letters.all codeAlphabet.contains = true ∧
    code = letters.take 5 ++ '-' :: letters.drop 5

/-- A text is a code but for the case of letters, for white space and for hyphens. -/
def Spells (code input : Chars) : Prop :=
  (input.filter fun c => !isFiller c).map toAsciiUppercase = code.filter fun c => !isFiller c

theorem filter_trim (input : Chars) :
  ((trim input).filter fun c => !isFiller c) = input.filter fun c => !isFiller c
  := by
  have hfront : ∀ text : Chars, ((text.dropWhile isWhitespace).filter fun c => !isFiller c) =
      text.filter fun c => !isFiller c := by
    intro text
    induction text with
    | nil => rfl
    | cons c text ih =>
      rw [List.dropWhile_cons]
      split
      · rename_i hspace
        rw [ih, List.filter_cons_of_neg]
        rw [isFiller, hspace, Bool.or_true]
        decide
      · rfl
  rw [trim, List.rdropWhile, List.filter_reverse, hfront, ← List.filter_reverse,
    List.reverse_reverse, hfront]

theorem codeAlphabet_alphanumeric {c : Char} (h : codeAlphabet.contains c = true) :
  isAsciiAlphanumericChar c = true ∧ isFiller c = false ∧ toAsciiUppercase c = c
  := by
  have hall : (codeAlphabet.all fun c => isAsciiAlphanumericChar c && !isFiller c &&
      toAsciiUppercase c == c) = true := by decide
  have hc := List.all_eq_true.mp hall c (List.contains_iff_mem.mp h)
  simp only [Bool.and_eq_true, beq_iff_eq, Bool.not_eq_true'] at hc
  exact ⟨hc.1.1, hc.1.2, hc.2⟩

/-- A character is alphanumeric when its upper case is a letter of a code. -/
theorem alphanumeric_of_uppercase {c : Char}
    (h : codeAlphabet.contains (toAsciiUppercase c) = true) :
  isAsciiAlphanumericChar c = true
  := by
  rw [toAsciiUppercase] at h
  split at h
  · rename_i hlower
    rw [isAsciiAlphanumericChar, decide_eq_true hlower.1, decide_eq_true hlower.2, Bool.and_self,
      Bool.or_true]
  · exact (codeAlphabet_alphanumeric h).1

theorem utf8Size_of_alphanumeric {c : Char} (h : isAsciiAlphanumericChar c = true) :
  c.utf8Size = 1
  := by
  simp only [isAsciiAlphanumericChar, Bool.or_eq_true, Bool.and_eq_true, decide_eq_true_iff] at h
  apply Char.utf8Size_eq_one_iff.mpr
  apply UInt32.le_iff_toNat_le.mpr
  show c.toNat ≤ 127
  omega

theorem byteLength_of_alphanumeric {text : Chars} (h : text.all isAsciiAlphanumericChar = true) :
  byteLength text = text.length
  := by
  induction text with
  | nil => rfl
  | cons c text ih =>
    rw [List.all_cons, Bool.and_eq_true] at h
    rw [byteLength, List.map_cons, List.sum_cons, utf8Size_of_alphanumeric h.1, List.length_cons,
      Nat.add_comm, ← ih h.2, byteLength]

/-- The letters of a code are its characters apart from the hyphen. -/
theorem filter_code {letters : Chars} (h : letters.all codeAlphabet.contains = true) :
  ((letters.take 5 ++ '-' :: letters.drop 5).filter fun c => !isFiller c) = letters
  := by
  have hkeep : ∀ text : Chars, (∀ c ∈ text, c ∈ letters) →
      (text.filter fun c => !isFiller c) = text := by
    intro text hmem
    apply List.filter_eq_self.mpr
    intro c hc
    rw [(codeAlphabet_alphanumeric (List.all_eq_true.mp h c (hmem c hc))).2.1]
    rfl
  rw [List.filter_append, List.filter_cons_of_neg (by decide),
    hkeep _ fun c hc => List.mem_of_mem_take hc, hkeep _ fun c hc => List.mem_of_mem_drop hc,
    List.take_append_drop]

/-- What is typed for a code is taken for it exactly when it is one of its spellings. -/
theorem normalizeCode_eq_iff {code : Chars} (hcode : IsCode code) {input : Chars} :
  normalizeCode input = code ↔ Spells code input
  := by
  obtain ⟨letters, hlength, hletters, rfl⟩ := hcode
  rw [Spells, filter_code hletters, normalizeCode, filter_trim]
  dsimp only
  constructor
  · intro h
    have hletter : ∀ c ∈ letters, toAsciiUppercase c = c := by
      intro c hc
      exact (codeAlphabet_alphanumeric (List.all_eq_true.mp hletters c hc)).2.2
    -- a text that is left alone is the code itself
    have halone : trim input = letters.take 5 ++ '-' :: letters.drop 5 →
        (input.filter fun c => !isFiller c).map toAsciiUppercase = letters := by
      intro htrim
      rw [← filter_trim, htrim, filter_code hletters]
      exact (List.map_congr_left hletter).trans (List.map_id letters)
    split at h
    · split at h
      · rename_i hupper
        have hfilter := congrArg (List.filter fun c => !isFiller c) h
        rwa [filter_code hupper, filter_code hletters] at hfilter
      · exact halone h
    · exact halone h
  · intro hspells
    have hstripped : ((input.filter fun c => !isFiller c).all isAsciiAlphanumericChar) = true := by
      apply List.all_eq_true.mpr
      intro c hc
      apply alphanumeric_of_uppercase
      apply List.all_eq_true.mp hletters
      rw [← hspells]
      exact List.mem_map_of_mem hc
    have hten : byteLength (input.filter fun c => !isFiller c) = 10 := by
      rw [byteLength_of_alphanumeric hstripped, ← hlength, ← hspells, List.length_map]
    rw [if_pos ⟨hten, hstripped⟩, hspells, if_pos hletters]

/-! ### Calls -/

/-- A row of the table of codes. -/
structure EmailTokenRow where
  did : Text
  purpose : Text
  expiresAt : Text
  newEmail : Option Text
deriving DecidableEq

/-- The table of codes, by code. -/
abbrev EmailTokens : Type := Chars → Option EmailTokenRow

/-- The row of a code as it was typed. -/
def lookup (tokens : EmailTokens) (token : Chars) : Option EmailTokenRow :=
  tokens (normalizeCode token)

/-- Delete the row of a code as it was typed, if there is one. -/
def delete (tokens : EmailTokens) (token : Chars) : EmailTokens :=
  Function.update tokens (normalizeCode token) none

/-- Insert a code.  The table has one row for each code at most. -/
def insert (tokens : EmailTokens) (token : Chars) (row : EmailTokenRow) : EmailTokens :=
  match tokens token with
  | some _ => tokens
  | none => Function.update tokens token (some row)

/-- Delete the codes of an account for a purpose. -/
def deleteFor (tokens : EmailTokens) (did purpose : Text) : EmailTokens := fun token =>
  (tokens token).filter fun row => !(row.did = did && row.purpose = purpose)

/-- Why a code is refused. -/
inductive TokenRejected where
  | invalid
  | expired
  | storage (reason : String)
deriving DecidableEq

/-- A request to spend a code for a purpose, of an account if one is signed in. -/
structure ConsumeRequest where
  token : Chars
  purpose : Text
  did : Option Text

/-- Spend a code that names its account itself. -/
def consumeAny (token : Chars) (purpose : Text) : ConsumeRequest := ⟨token, purpose, none⟩

/-- Spend a code of an account. -/
def consume (token : Chars) (purpose did : Text) : ConsumeRequest := ⟨token, purpose, some did⟩

/-- The row is for the purpose and the account of the request. -/
def ConsumeRequest.matches (request : ConsumeRequest) (row : EmailTokenRow) : Bool :=
  row.purpose = request.purpose && request.did.all fun did => row.did = did

/-- How far a call is. -/
inductive ConsumeCall where
  /-- The code is about to be looked up. -/
  | look (request : ConsumeRequest)
  /-- The code was found and is about to be deleted. -/
  | spend (request : ConsumeRequest) (row : EmailTokenRow)
  /-- The code was found to be expired and is about to be deleted. -/
  | expire (request : ConsumeRequest)
  | done (request : ConsumeRequest) (result : Except TokenRejected EmailTokenRow)

/-- What a step of a call depends on: the time, and why the storage fails if it does. -/
structure StepChoice where
  now : Int
  failure : Option String

/-- What happens to the table besides. -/
inductive TableEvent where
  | insert (token : Chars) (row : EmailTokenRow)
  | delete (token : Chars)
  | deleteFor (did purpose : Text)

/-- The table after an event. -/
def TableEvent.apply : TableEvent → EmailTokens → EmailTokens
  | .insert token row, tokens => EmailToken.insert tokens token row
  | .delete token, tokens => EmailToken.delete tokens token
  | .deleteFor did purpose, tokens => EmailToken.deleteFor tokens did purpose

variable (parseRfc3339 : Text → Except String Int)

/-- What a call does next with the row it has found. -/
def checkRow (now : Int) (request : ConsumeRequest) (row : EmailTokenRow) : ConsumeCall :=
  if request.matches row = false then .done request (.error .invalid)
  else
    match parseRfc3339 row.expiresAt with
    | .error error =>
      .done request (.error (.storage s!"email_token expires_at is not RFC-3339: {error}"))
    | .ok expires => if expires ≤ now then .expire request else .spend request row

/-- The next statement of a call. -/
def ConsumeCall.advance (choice : StepChoice) (call : ConsumeCall) (tokens : EmailTokens) :
    ConsumeCall × EmailTokens :=
  match call, choice.failure with
  | .look request, some error =>
    (.done request (.error (.storage s!"email_token lookup: {error}")), tokens)
  | .look request, none =>
    match lookup tokens request.token with
    | none => (.done request (.error .invalid), tokens)
    | some row => (checkRow parseRfc3339 choice.now request row, tokens)
  | .spend request _, some error =>
    (.done request (.error (.storage s!"email_token delete: {error}")), tokens)
  | .spend request row, none => (.done request (.ok row), delete tokens request.token)
  | .expire request, some error =>
    (.done request (.error (.storage s!"email_token delete: {error}")), tokens)
  | .expire request, none => (.done request (.error .expired), delete tokens request.token)
  | .done request result, _ => (.done request result, tokens)

/-! ### Runs -/

/-- The calls in flight and the table. -/
abbrev CodePool : Type := Pool EmailTokens ConsumeCall

/-- What happens next. -/
abbrev CodeTurn : Type := Turn ConsumeRequest StepChoice TableEvent

/-- One turn. -/
def codeStep (pool : CodePool) (turn : CodeTurn) : CodePool :=
  pool.turn ConsumeCall.look (ConsumeCall.advance parseRfc3339) TableEvent.apply turn

/-- The table before the first call. -/
def codeStart (tokens : EmailTokens) : CodePool := ⟨tokens, []⟩

/-- The turn issues a code anew. -/
def Reissues (code : Chars) : CodeTurn → Prop
  | .outside (.insert token _) => token = code
  | .outside (.delete _) => False
  | .outside (.deleteFor _ _) => False
  | .begin _ => False
  | .advance _ _ => False

/-- A call is about to delete a code that it has found. -/
def ConsumeCall.Spending (code : Chars) : ConsumeCall → Prop
  | .spend request _ => Spells code request.token
  | .look _ => False
  | .expire _ => False
  | .done _ _ => False

/-- A call has spent a code. -/
def ConsumeCall.Spent (code : Chars) : ConsumeCall → Prop
  | .done request (.ok _) => Spells code request.token
  | .done _ (.error _) => False
  | .look _ => False
  | .spend _ _ => False
  | .expire _ => False

/-- The code is there for the purpose and the account of a request, and has not expired. -/
def Redeemable (tokens : EmailTokens) (now : Int) (request : ConsumeRequest) (row : EmailTokenRow) :
    Prop :=
  lookup tokens request.token = some row ∧ request.matches row = true ∧
    ∃ expires, parseRfc3339 row.expiresAt = .ok expires ∧ now < expires

/-- A code is not looked up by a request that it can be spent for while another call is about to
delete it. -/
def CarefulLookup (code : Chars) (pool : CodePool) : CodeTurn → Prop
  | .advance i choice =>
    ∀ request row, pool.calls[i]? = some (.look request) → Spells code request.token →
      choice.failure = none → Redeemable parseRfc3339 pool.shared choice.now request row →
      ∀ other ∈ pool.calls, ¬ other.Spending code
  | .begin _ => True
  | .outside _ => True

/-- One call at most has spent a code. -/
def SpentOnce (code : Chars) (pool : CodePool) : Prop :=
  ∀ (i j : Nat) (a b : ConsumeCall), pool.calls[i]? = some a → pool.calls[j]? = some b →
    a.Spent code → b.Spent code → i = j

/-- A call has spent a code or is about to. -/
def ConsumeCall.Engaged (code : Chars) (call : ConsumeCall) : Prop :=
  call.Spending code ∨ call.Spent code

/-- One call at most has spent a code or is about to, and a code that was spent is gone. -/
structure Exclusive (code : Chars) (pool : CodePool) : Prop where
  unique : ∀ (i j : Nat) (a b : ConsumeCall), pool.calls[i]? = some a →
    pool.calls[j]? = some b → a.Engaged code → b.Engaged code → i = j
  gone : ∀ call ∈ pool.calls, call.Spent code → pool.shared code = none

variable {parseRfc3339} {code : Chars}

/-- The row of a code is as it was, or gone. -/
def Kept (code : Chars) (before after : EmailTokens) : Prop :=
  after code = none ∨ after code = before code

theorem Kept.none {before after : EmailTokens} (h : Kept code before after)
    (hnone : before code = none) :
  after code = none
  := by
  rcases h with h | h
  · exact h
  · rw [h, hnone]

theorem Kept.row {before after : EmailTokens} (h : Kept code before after) {row : EmailTokenRow}
    (hrow : after code = some row) :
  before code = some row
  := by
  rcases h with h | h
  · rw [h] at hrow
    cases hrow
  · rw [← h, hrow]

theorem Kept.trans {first second third : EmailTokens} (h : Kept code first second)
    (h' : Kept code second third) :
  Kept code first third
  := by
  rcases h' with h' | h'
  · exact Or.inl h'
  · rcases h with h | h
    · exact Or.inl (h'.trans h)
    · exact Or.inr (h'.trans h)

theorem delete_kept {tokens : EmailTokens} {token : Chars} :
  Kept code tokens (delete tokens token)
  := by
  by_cases heq : code = normalizeCode token
  · left
    rw [heq]
    exact Function.update_self _ _ _
  · right
    exact Function.update_of_ne heq _ _

/-- A code is kept or deleted unless it is issued anew. -/
theorem apply_kept {tokens : EmailTokens} {event : TableEvent}
    (hissue : ¬ Reissues code (.outside event)) :
  Kept code tokens (event.apply tokens)
  := by
  cases event with
  | insert token row =>
    right
    show EmailToken.insert tokens token row code = tokens code
    rw [EmailToken.insert]
    cases tokens token with
    | some _ => rfl
    | none => exact Function.update_of_ne (fun heq => hissue heq.symm) _ _
  | delete token => exact delete_kept
  | deleteFor did purpose =>
    show (tokens code).filter _ = none ∨ (tokens code).filter _ = tokens code
    cases tokens code with
    | none => exact Or.inl rfl
    | some row =>
      rw [Option.filter_some]
      split
      · exact Or.inr rfl
      · exact Or.inl rfl

/-- A row is checked with success when it can be spent. -/
theorem checkRow_eq_spend {now : Int} {request request' : ConsumeRequest} {row row' : EmailTokenRow} :
  checkRow parseRfc3339 now request row = .spend request' row' ↔
    request = request' ∧ row = row' ∧ request.matches row = true ∧
      ∃ expires, parseRfc3339 row.expiresAt = .ok expires ∧ now < expires
  := by
  rw [checkRow]
  split
  · rename_i hfalse
    constructor
    · intro h
      cases h
    · rintro ⟨-, -, htrue, -⟩
      rw [hfalse] at htrue
      cases htrue
  · rename_i htrue
    have htrue := Bool.eq_true_of_not_eq_false htrue
    split
    · rename_i error herror
      constructor
      · intro h
        cases h
      · rintro ⟨-, -, -, expires, hexpires, -⟩
        rw [herror] at hexpires
        cases hexpires
    · rename_i expires hexpires
      constructor
      · intro h
        split at h
        · cases h
        · rename_i hlt
          cases h
          exact ⟨rfl, rfl, htrue, expires, hexpires, not_le.mp hlt⟩
      · rintro ⟨rfl, rfl, -, expires', hexpires', hlt⟩
        rw [hexpires] at hexpires'
        cases hexpires'
        exact if_neg (not_le.mpr hlt)

/-- A row that is checked is not spent yet. -/
theorem checkRow_not_ok {now : Int} {request request' : ConsumeRequest} {row row' : EmailTokenRow} :
  checkRow parseRfc3339 now request row ≠ .done request' (.ok row')
  := by
  rw [checkRow]
  intro h
  split at h
  · cases h
  · split at h
    · cases h
    · split at h
      · cases h
      · cases h

/-- What a step of a call does to the code it is about.  A call is about to delete a code when it
has found it, and has spent it when it has deleted it. -/
theorem advance_engaged (hcode : IsCode code) {choice : StepChoice} {call : ConsumeCall}
    {tokens : EmailTokens}
    (h : (call.advance parseRfc3339 choice tokens).1.Engaged code) :
  (∃ request row, call = .look request ∧ Spells code request.token ∧ choice.failure = none ∧
      Redeemable parseRfc3339 tokens choice.now request row ∧ tokens code = some row ∧
      call.advance parseRfc3339 choice tokens = (.spend request row, tokens)) ∨
    (call.Spending code ∧ (call.advance parseRfc3339 choice tokens).2 code = none) ∨
    (call.Spent code ∧ (call.advance parseRfc3339 choice tokens).2 = tokens)
  := by
  obtain ⟨now, failure⟩ := choice
  cases call with
  | look request =>
    left
    cases failure with
    | some error => exact (h.elim id id).elim
    | none =>
      cases hlookup : lookup tokens request.token with
      | none =>
        simp only [ConsumeCall.advance, hlookup] at h
        exact (h.elim id id).elim
      | some row =>
        have hadvance : (ConsumeCall.look request).advance parseRfc3339 ⟨now, none⟩ tokens =
            (checkRow parseRfc3339 now request row, tokens) := by
          simp only [ConsumeCall.advance, hlookup]
        rw [hadvance] at h ⊢
        cases hcheck : checkRow parseRfc3339 now request row with
        | spend request' row' =>
          obtain ⟨rfl, rfl, hmatches, hexpires⟩ := checkRow_eq_spend.mp hcheck
          rw [hcheck] at h
          have hspells : Spells code request.token := h.elim id False.elim
          refine ⟨request, row, rfl, hspells, rfl, ⟨hlookup, hmatches, hexpires⟩, ?_, rfl⟩
          rw [← (normalizeCode_eq_iff hcode).mpr hspells]
          exact hlookup
        | look request' =>
          rw [hcheck] at h
          exact (h.elim id id).elim
        | expire request' =>
          rw [hcheck] at h
          exact (h.elim id id).elim
        | done request' result =>
          rw [hcheck] at h
          cases result with
          | ok row' => exact absurd hcheck checkRow_not_ok
          | error error => exact (h.elim id id).elim
  | spend request row =>
    right
    left
    cases failure with
    | some error => exact (h.elim id id).elim
    | none =>
      have hspells : Spells code request.token := h.elim False.elim id
      refine ⟨hspells, ?_⟩
      show delete tokens request.token code = none
      rw [delete, (normalizeCode_eq_iff hcode).mpr hspells]
      exact Function.update_self _ _ _
  | expire request =>
    cases failure with
    | some error => exact (h.elim id id).elim
    | none => exact (h.elim id id).elim
  | done request result => exact Or.inr (Or.inr ⟨h.elim False.elim id, rfl⟩)

/-- A step of a call does not bring a code back. -/
theorem advance_kept {choice : StepChoice} {call : ConsumeCall} {tokens : EmailTokens} :
  Kept code tokens (call.advance parseRfc3339 choice tokens).2
  := by
  obtain ⟨now, failure⟩ := choice
  cases call with
  | look request =>
    right
    cases failure with
    | some error => rfl
    | none =>
      cases hlookup : lookup tokens request.token with
      | none => simp only [ConsumeCall.advance, hlookup]
      | some row => simp only [ConsumeCall.advance, hlookup]
  | spend request row =>
    cases failure with
    | some error => exact Or.inr rfl
    | none => exact delete_kept
  | expire request =>
    cases failure with
    | some error => exact Or.inr rfl
    | none => exact delete_kept
  | done request result => exact Or.inr rfl

/-- A call that was there before a call began is at the same place. -/
theorem getElem?_append_look {calls : List ConsumeCall} {request : ConsumeRequest} {i : Nat}
    {call : ConsumeCall} (h : (calls ++ [.look request])[i]? = some call)
    (hengaged : call.Engaged code) :
  calls[i]? = some call
  := by
  rcases Nat.lt_or_ge i calls.length with hlt | hge
  · rwa [List.getElem?_append_left hlt] at h
  · rw [List.getElem?_append_right hge] at h
    have hlook := List.mem_singleton.mp (List.mem_of_getElem? h)
    rw [hlook] at hengaged
    exact (hengaged.elim id id).elim

/-- What a careful turn keeps. -/
theorem Exclusive.codeStep (hcode : IsCode code) {pool : CodePool} {turn : CodeTurn}
    (h : Exclusive code pool) (hissue : ¬ Reissues code turn)
    (hcareful : CarefulLookup parseRfc3339 code pool turn) :
  Exclusive code (codeStep parseRfc3339 pool turn)
  := by
  cases turn with
  | begin request =>
    constructor
    · intro i j a b ha hb hengaged hengaged'
      exact h.unique i j a b (getElem?_append_look ha hengaged) (getElem?_append_look hb hengaged')
        hengaged hengaged'
    · intro call hmem hspent
      rcases List.mem_append.mp hmem with hmem | hmem
      · exact h.gone call hmem hspent
      · rw [List.mem_singleton.mp hmem] at hspent
        exact hspent.elim
  | outside event =>
    refine ⟨h.unique, ?_⟩
    intro call hmem hspent
    exact (apply_kept hissue).none (h.gone call hmem hspent)
  | advance i choice =>
    cases hcall : pool.calls[i]? with
    | none =>
      rw [EmailToken.codeStep, Pool.turn_advance_of_none hcall]
      exact h
    | some call =>
      rw [EmailToken.codeStep, Pool.turn_advance_of_some hcall]
      have hmem : call ∈ pool.calls := List.mem_of_getElem? hcall
      have hset : ∀ (j : Nat) (other : ConsumeCall),
          (pool.calls.set i (call.advance parseRfc3339 choice pool.shared).1)[j]? = some other →
          (j = i ∧ other = (call.advance parseRfc3339 choice pool.shared).1) ∨
            j ≠ i ∧ pool.calls[j]? = some other := by
        intro j other hother
        by_cases hj : j = i
        · rw [hj, List.getElem?_set_self (List.getElem?_eq_some_iff.mp hcall).1] at hother
          exact Or.inl ⟨hj, (Option.some.inj hother).symm⟩
        · rw [List.getElem?_set_ne (Ne.symm hj)] at hother
          exact Or.inr ⟨hj, hother⟩
      -- a call that is engaged after its step is the only one
      have halone : (call.advance parseRfc3339 choice pool.shared).1.Engaged code →
          ∀ (j : Nat) (other : ConsumeCall), j ≠ i → pool.calls[j]? = some other →
            ¬ other.Engaged code := by
        intro hengaged j other hj hother hengaged'
        rcases advance_engaged hcode hengaged with
          ⟨request, row, rfl, hspells, hworks, hredeem, hrow, -⟩ | ⟨hspending, -⟩ | ⟨hspent, -⟩
        · rcases hengaged' with hspending | hspent
          · exact hcareful request row hcall hspells hworks hredeem other
              (List.mem_of_getElem? hother) hspending
          · rw [h.gone other (List.mem_of_getElem? hother) hspent] at hrow
            cases hrow
        · exact hj (h.unique j i other call hother hcall hengaged' (Or.inl hspending))
        · exact hj (h.unique j i other call hother hcall hengaged' (Or.inr hspent))
      constructor
      · intro j k a b ha hb hengaged hengaged'
        rcases hset j a ha with ⟨hji, hcallA⟩ | ⟨hji, hold⟩
        · rcases hset k b hb with ⟨hki, -⟩ | ⟨hki, hold⟩
          · rw [hji, hki]
          · exact absurd hengaged' (halone (hcallA ▸ hengaged) k b hki hold)
        · rcases hset k b hb with ⟨hki, hcallB⟩ | ⟨hki, hold'⟩
          · exact absurd hengaged (halone (hcallB ▸ hengaged') j a hji hold)
          · exact h.unique j k a b hold hold' hengaged hengaged'
      · intro other hother hspent
        rcases List.mem_or_eq_of_mem_set hother with hother | rfl
        · exact advance_kept.none (h.gone other hother hspent)
        · rcases advance_engaged hcode (Or.inr hspent) with
            ⟨request, row, -, -, -, -, -, hadvance⟩ | ⟨-, hnone⟩ | ⟨hcallSpent, hsame⟩
          · rw [hadvance] at hspent
            exact hspent.elim
          · exact hnone
          · show (call.advance parseRfc3339 choice pool.shared).2 code = none
            rw [hsame]
            exact h.gone call hmem hcallSpent

/-- A code is spent once along a careful run. -/
theorem spentOnce_of_careful (hcode : IsCode code) {tokens : EmailTokens} {turns : List CodeTurn}
    (hissue : ∀ turn ∈ turns, ¬ Reissues code turn)
    (hcareful : Along (codeStep parseRfc3339) (CarefulLookup parseRfc3339 code) (codeStart tokens)
      turns) :
  SpentOnce code (run (codeStep parseRfc3339) (codeStart tokens) turns)
  := by
  have hinv : ∀ (turns : List CodeTurn) (pool : CodePool), Exclusive code pool →
      (∀ turn ∈ turns, ¬ Reissues code turn) →
      Along (codeStep parseRfc3339) (CarefulLookup parseRfc3339 code) pool turns →
      Exclusive code (run (codeStep parseRfc3339) pool turns) := by
    intro turns
    induction turns with
    | nil =>
      intro pool h _ _
      exact h
    | cons turn turns ih =>
      intro pool h hissue hcareful
      obtain ⟨hturn, hturns⟩ := List.forall_mem_cons.mp hissue
      exact ih _ (h.codeStep hcode hturn hcareful.1) hturns hcareful.2
  have hstart : Exclusive code (codeStart tokens) := by
    constructor
    · intro i j a b ha
      cases ha
    · intro call hmem
      cases hmem
  intro i j a b ha hb hspent hspent'
  exact (hinv turns _ hstart hissue hcareful).unique i j a b ha hb (Or.inr hspent) (Or.inr hspent')

/-! ### What a code is spent for -/

/-- A call has found a row for its request, and is about to spend it or has spent it. -/
def ConsumeCall.Took (request : ConsumeRequest) (row : EmailTokenRow) (call : ConsumeCall) : Prop :=
  call = .spend request row ∨ call = .done request (.ok row)

/-- A call that has found a row has looked it up in this step or had found it before. -/
theorem advance_took {choice : StepChoice} {call : ConsumeCall} {tokens : EmailTokens}
    {request : ConsumeRequest} {row : EmailTokenRow}
    (h : (call.advance parseRfc3339 choice tokens).1.Took request row) :
  (call = .look request ∧ Redeemable parseRfc3339 tokens choice.now request row) ∨
    call.Took request row
  := by
  obtain ⟨now, failure⟩ := choice
  cases call with
  | look asked =>
    left
    cases failure with
    | some error => rcases h with h | h <;> cases h
    | none =>
      cases hlookup : lookup tokens asked.token with
      | none =>
        simp only [ConsumeCall.advance, hlookup] at h
        rcases h with h | h <;> cases h
      | some found =>
        simp only [ConsumeCall.advance, hlookup] at h
        rcases h with h | h
        · obtain ⟨rfl, rfl, hmatches, hexpires⟩ := checkRow_eq_spend.mp h
          exact ⟨rfl, hlookup, hmatches, hexpires⟩
        · exact absurd h checkRow_not_ok
  | spend asked found =>
    right
    left
    cases failure with
    | some error => rcases h with h | h <;> cases h
    | none =>
      rcases h with h | h
      · cases h
      · cases h
        rfl
  | expire asked =>
    cases failure with
    | some error => rcases h with h | h <;> cases h
    | none => rcases h with h | h <;> cases h
  | done asked result => exact Or.inr h

/-- A call that has found a row keeps it while the storage works. -/
theorem took_advance {choice : StepChoice} {call : ConsumeCall} {tokens : EmailTokens}
    {request : ConsumeRequest} {row : EmailTokenRow} (hworks : choice.failure = none)
    (h : call.Took request row) :
  (call.advance parseRfc3339 choice tokens).1.Took request row
  := by
  obtain ⟨now, failure⟩ := choice
  cases hworks
  rcases h with rfl | rfl
  · exact Or.inr rfl
  · exact Or.inr rfl

/-- What was checked before a code was spent: the row is the one that the code was issued with, it
is for the purpose and the account of the request, and it had not expired. -/
def Checked (parseRfc3339 : Text → Except String Int) (code : Chars) (tokens : EmailTokens)
    (turns : List CodeTurn) (i : Nat) (request : ConsumeRequest) (row : EmailTokenRow) : Prop :=
  tokens code = some row ∧ request.matches row = true ∧
    ∃ choice expires, Turn.advance i choice ∈ turns ∧
      parseRfc3339 row.expiresAt = .ok expires ∧ choice.now < expires

/-- A turn does not bring a code back unless it issues it anew. -/
theorem codeStep_kept {pool : CodePool} {turn : CodeTurn} (hissue : ¬ Reissues code turn) :
  Kept code pool.shared (codeStep parseRfc3339 pool turn).shared
  := by
  cases turn with
  | begin request => exact Or.inr rfl
  | outside event => exact apply_kept hissue
  | advance i choice =>
    cases hcall : pool.calls[i]? with
    | none =>
      rw [codeStep, Pool.turn_advance_of_none hcall]
      exact Or.inr rfl
    | some call =>
      rw [codeStep, Pool.turn_advance_of_some hcall]
      exact advance_kept

theorem run_kept {pool : CodePool} {turns : List CodeTurn}
    (hissue : ∀ turn ∈ turns, ¬ Reissues code turn) :
  Kept code pool.shared (run (codeStep parseRfc3339) pool turns).shared
  := by
  induction turns generalizing pool with
  | nil => exact Or.inr rfl
  | cons turn turns ih =>
    obtain ⟨hturn, hturns⟩ := List.forall_mem_cons.mp hissue
    exact (codeStep_kept hturn).trans (ih hturns)

/-- A call at a place after a turn is the one that was there, one that begins, or the one that takes
its step. -/
theorem codeStep_call {pool : CodePool} {turn : CodeTurn} {i : Nat} {call : ConsumeCall}
    (h : (codeStep parseRfc3339 pool turn).calls[i]? = some call) :
  pool.calls[i]? = some call ∨ (∃ request, call = .look request) ∨
    ∃ choice before, turn = .advance i choice ∧ pool.calls[i]? = some before ∧
      call = (before.advance parseRfc3339 choice pool.shared).1
  := by
  cases turn with
  | begin request =>
    rcases Nat.lt_or_ge i pool.calls.length with hlt | hge
    · left
      rwa [codeStep, Pool.turn, List.getElem?_append_left hlt] at h
    · right
      left
      rw [codeStep, Pool.turn, List.getElem?_append_right hge] at h
      exact ⟨request, List.mem_singleton.mp (List.mem_of_getElem? h)⟩
  | outside event => exact Or.inl h
  | advance j choice =>
    cases hcall : pool.calls[j]? with
    | none =>
      rw [codeStep, Pool.turn_advance_of_none hcall] at h
      exact Or.inl h
    | some before =>
      rw [codeStep, Pool.turn_advance_of_some hcall] at h
      by_cases hj : i = j
      · rw [hj, List.getElem?_set_self (List.getElem?_eq_some_iff.mp hcall).1] at h
        exact Or.inr (Or.inr ⟨choice, before, by rw [hj], hj ▸ hcall, (Option.some.inj h).symm⟩)
      · rw [List.getElem?_set_ne (Ne.symm hj)] at h
        exact Or.inl h

/-- A call has found a row that was checked, in every run that does not issue the code anew. -/
theorem checked_of_took (hcode : IsCode code) {tokens : EmailTokens} {turns : List CodeTurn}
    (hissue : ∀ turn ∈ turns, ¬ Reissues code turn) {i : Nat} {call : ConsumeCall}
    {request : ConsumeRequest} {row : EmailTokenRow}
    (hcall : (run (codeStep parseRfc3339) (codeStart tokens) turns).calls[i]? = some call)
    (htook : call.Took request row) (hspells : Spells code request.token) :
  Checked parseRfc3339 code tokens turns i request row
  := by
  induction turns using List.reverseRecOn generalizing i call with
  | nil => cases hcall
  | append_singleton turns turn ih =>
    have hissueTurns : ∀ turn ∈ turns, ¬ Reissues code turn :=
      fun turn hturn => hissue turn (List.mem_append_left _ hturn)
    have hbefore : ∀ before : ConsumeCall,
        (run (codeStep parseRfc3339) (codeStart tokens) turns).calls[i]? = some before →
        before.Took request row →
        Checked parseRfc3339 code tokens (turns ++ [turn]) i request row := by
      intro before hbefore htook
      obtain ⟨hrow, hmatches, choice, expires, hmem, htimes⟩ := ih hissueTurns hbefore htook
      exact ⟨hrow, hmatches, choice, expires, List.mem_append_left _ hmem, htimes⟩
    rw [run, List.foldl_append] at hcall
    rcases codeStep_call hcall with hold | ⟨asked, rfl⟩ | ⟨choice, before, hturn, hold, rfl⟩
    · exact hbefore call hold htook
    · rcases htook with h | h <;> cases h
    · rcases advance_took htook with ⟨rfl, hlookup, hmatches, expires, hexpires, hlt⟩ | htook
      · refine ⟨?_, hmatches, choice, expires, ?_, hexpires, hlt⟩
        · rw [lookup, (normalizeCode_eq_iff hcode).mpr hspells] at hlookup
          exact (run_kept hissueTurns).row hlookup
        · rw [hturn]
          exact List.mem_append_right _ (List.mem_singleton_self _)
      · exact hbefore before hold htook

/-! ### Runs in which every call is answered -/

/-- Every call is done. -/
def Complete (pool : CodePool) : Prop :=
  ∀ call ∈ pool.calls, ∃ request result, call = .done request result

/-- The storage works in a turn. -/
def Works : CodeTurn → Prop
  | .advance _ choice => choice.failure = none
  | .begin _ => True
  | .outside _ => True

/-- A call that has found a row spends it while the storage works. -/
theorem took_run {pool : CodePool} {turns : List CodeTurn} (hworks : ∀ turn ∈ turns, Works turn)
    {i : Nat} {call : ConsumeCall} {request : ConsumeRequest} {row : EmailTokenRow}
    (hcall : pool.calls[i]? = some call) (htook : call.Took request row) :
  ∃ after, (run (codeStep parseRfc3339) pool turns).calls[i]? = some after ∧
    after.Took request row
  := by
  induction turns generalizing pool call with
  | nil => exact ⟨call, hcall, htook⟩
  | cons turn turns ih =>
    obtain ⟨hturn, hturns⟩ := List.forall_mem_cons.mp hworks
    have hnext : ∃ next, (codeStep parseRfc3339 pool turn).calls[i]? = some next ∧
        next.Took request row := by
      cases turn with
      | begin asked =>
        refine ⟨call, ?_, htook⟩
        rw [codeStep, Pool.turn,
          List.getElem?_append_left (List.getElem?_eq_some_iff.mp hcall).1]
        exact hcall
      | outside event => exact ⟨call, hcall, htook⟩
      | advance j choice =>
        cases hj : pool.calls[j]? with
        | none =>
          rw [codeStep, Pool.turn_advance_of_none hj]
          exact ⟨call, hcall, htook⟩
        | some stepping =>
          rw [codeStep, Pool.turn_advance_of_some hj]
          by_cases heq : j = i
          · rw [heq, hcall] at hj
            obtain rfl := Option.some.inj hj
            refine ⟨(call.advance parseRfc3339 choice pool.shared).1, ?_,
              took_advance hturn htook⟩
            rw [heq]
            exact List.getElem?_set_self (List.getElem?_eq_some_iff.mp hcall).1
          · refine ⟨call, ?_, htook⟩
            rw [List.getElem?_set_ne heq]
            exact hcall
    obtain ⟨next, hnext, htook⟩ := hnext
    exact ih hturns hnext htook

/-- A run in which every call is answered is careful when a code is spent once in it. -/
theorem careful_of_spentOnce {pool : CodePool} {turns : List CodeTurn}
    (hworks : ∀ turn ∈ turns, Works turn)
    (hdone : Complete (run (codeStep parseRfc3339) pool turns))
    (hspent : SpentOnce code (run (codeStep parseRfc3339) pool turns)) :
  Along (codeStep parseRfc3339) (CarefulLookup parseRfc3339 code) pool turns
  := by
  induction turns generalizing pool with
  | nil => trivial
  | cons turn turns ih =>
    obtain ⟨-, hturns⟩ := List.forall_mem_cons.mp hworks
    refine ⟨?_, ih hturns hdone hspent⟩
    have hends : ∀ (i : Nat) (call : ConsumeCall) (request : ConsumeRequest) (row : EmailTokenRow),
        (codeStep parseRfc3339 pool turn).calls[i]? = some call → call.Took request row →
        (run (codeStep parseRfc3339) pool (turn :: turns)).calls[i]? =
          some (.done request (.ok row)) := by
      intro i call request row hcall htook
      obtain ⟨after, hafter, htook⟩ := took_run hturns hcall htook
      obtain ⟨request', result, rfl⟩ := hdone after (List.mem_of_getElem? hafter)
      rcases htook with h | h
      · cases h
      · rw [← h]
        exact hafter
    cases turn with
    | begin asked => trivial
    | outside event => trivial
    | advance i choice =>
      intro request row hlook hspells hchoice hredeem other hother hspending
      obtain ⟨j, hj⟩ := List.getElem?_of_mem hother
      cases other with
      | look asked => exact hspending
      | expire asked => exact hspending
      | done asked result => exact hspending
      | spend asked found =>
        have hne : i ≠ j := by
          rintro rfl
          rw [hlook] at hj
          cases hj
        -- both calls spend the code in the end
        have hfirst : (codeStep parseRfc3339 pool (.advance i choice)).calls[i]? =
            some (.spend request row) := by
          have hadvance : ((ConsumeCall.look request).advance parseRfc3339 choice pool.shared).1 =
              .spend request row := by
            obtain ⟨now, failure⟩ := choice
            cases hchoice
            simp only [ConsumeCall.advance, hredeem.1]
            exact checkRow_eq_spend.mpr ⟨rfl, rfl, hredeem.2⟩
          rw [codeStep, Pool.turn_advance_of_some hlook, hadvance]
          exact List.getElem?_set_self (List.getElem?_eq_some_iff.mp hlook).1
        have hsecond : (codeStep parseRfc3339 pool (.advance i choice)).calls[j]? =
            some (.spend asked found) := by
          rw [codeStep, Pool.turn_advance_of_some hlook]
          exact (List.getElem?_set_ne hne).trans hj
        exact hne (hspent i j _ _ (hends i _ request row hfirst (Or.inl rfl))
          (hends j _ asked found hsecond (Or.inl rfl)) hspells hspending)

/-- Along a run that does not issue a code anew, the code is spent once if no call that it can be
spent for looks it up while another call is about to delete it.  Where the storage works and every
call is answered, it is spent once in no other run.  A call that spends it has found the row it was
issued with, for its purpose and its account, before it expired. -/
theorem code_spent_once_iff (hcode : IsCode code) {tokens : EmailTokens} {turns : List CodeTurn}
    (hissue : ∀ turn ∈ turns, ¬ Reissues code turn) :
  (Along (codeStep parseRfc3339) (CarefulLookup parseRfc3339 code) (codeStart tokens) turns →
      SpentOnce code (run (codeStep parseRfc3339) (codeStart tokens) turns)) ∧
    ((∀ turn ∈ turns, Works turn) →
      Complete (run (codeStep parseRfc3339) (codeStart tokens) turns) →
      SpentOnce code (run (codeStep parseRfc3339) (codeStart tokens) turns) →
      Along (codeStep parseRfc3339) (CarefulLookup parseRfc3339 code) (codeStart tokens) turns) ∧
    ∀ i request row, (run (codeStep parseRfc3339) (codeStart tokens) turns).calls[i]? =
        some (.done request (.ok row)) →
      Spells code request.token → Checked parseRfc3339 code tokens turns i request row
  := by
  refine ⟨spentOnce_of_careful hcode hissue, ?_, ?_⟩
  · intro hworks hdone hspent
    exact careful_of_spentOnce hworks hdone hspent
  · intro i request row hcall hspells
    exact checked_of_took hcode hissue hcall (Or.inr rfl) hspells

/-- A code. -/
def sampleCode : Chars := "ABCDE-FGH23".toList

/-- The row of the code. -/
def sampleRow : EmailTokenRow where
  did := textOf "did:plc:a"
  purpose := textOf "reset_password"
  expiresAt := textOf "1970-01-01T00:01:40Z"
  newEmail := none

/-- The table with the code. -/
def sampleTokens : EmailTokens := fun token => if token = sampleCode then some sampleRow else none

/-- The seconds of one time. -/
def sampleTime (text : Text) : Except String Int :=
  if text = textOf "1970-01-01T00:01:40Z" then .ok 100
  else .error "input contains invalid characters"

/-- A request with the code, in lower case and without its hyphen. -/
def sampleRequest : ConsumeRequest := consumeAny "abcdefgh23 ".toList (textOf "reset_password")

/-- A statement at one time. -/
def sampleChoice : StepChoice := ⟨7, none⟩

/-- A request with the code for another purpose of the same account. -/
def otherPurposeRequest : ConsumeRequest :=
  consume "ABCDE-FGH23".toList (textOf "delete_account") (textOf "did:plc:a")

/-- A request of the account with the code in another spelling. -/
def accountRequest : ConsumeRequest :=
  consume " abcde fgh-23".toList (textOf "reset_password") (textOf "did:plc:a")

/-- A call finds the code.  Before it deletes it, another one looks it up for another purpose, and
codes of the account for that purpose are deleted; a third call and a fourth one look the code up
after it is deleted. -/
def interleavedTurns : List CodeTurn :=
  [.begin sampleRequest, .begin otherPurposeRequest, .begin accountRequest,
    .advance 0 sampleChoice, .advance 1 sampleChoice,
    .outside (.deleteFor (textOf "did:plc:a") (textOf "delete_account")),
    .advance 0 sampleChoice, .advance 2 sampleChoice, .begin sampleRequest, .advance 3 sampleChoice]

/-- Two calls look the code up, and then both delete it. -/
def raceTurns : List CodeTurn :=
  [.begin sampleRequest, .begin sampleRequest, .advance 0 sampleChoice, .advance 1 sampleChoice,
    .advance 0 sampleChoice, .advance 1 sampleChoice]

theorem isCode_sampleCode :
  IsCode sampleCode
  := ⟨"ABCDEFGH23".toList, rfl, by decide, rfl⟩

theorem not_redeemable_otherPurpose {now : Int} {row : EmailTokenRow} :
  ¬ Redeemable sampleTime sampleTokens now otherPurposeRequest row
  := by
  rintro ⟨hlookup, hmatches, -⟩
  have hsample : lookup sampleTokens otherPurposeRequest.token = some sampleRow := rfl
  obtain rfl : sampleRow = row := Option.some.inj (hsample.symm.trans hlookup)
  exact absurd hmatches (by decide)

/-- The code is spent by the first call only.  The call for another purpose is refused while the
first one is about to delete the code, and the later ones do not find it. -/
theorem code_spent_once_interleaved :
  (run (codeStep sampleTime) (codeStart sampleTokens) interleavedTurns).calls =
      [.done sampleRequest (.ok sampleRow), .done otherPurposeRequest (.error .invalid),
        .done accountRequest (.error .invalid), .done sampleRequest (.error .invalid)] ∧
    SpentOnce sampleCode (run (codeStep sampleTime) (codeStart sampleTokens) interleavedTurns) ∧
    Along (codeStep sampleTime) (CarefulLookup sampleTime sampleCode) (codeStart sampleTokens)
      interleavedTurns ∧
    Checked sampleTime sampleCode sampleTokens interleavedTurns 0 sampleRequest sampleRow
  := by
  have hissue : ∀ turn ∈ interleavedTurns, ¬ Reissues sampleCode turn := by
    simp only [interleavedTurns, List.forall_mem_cons, Reissues, not_false_eq_true, true_and]
    exact fun turn hturn => absurd hturn List.not_mem_nil
  have hworks : ∀ turn ∈ interleavedTurns, Works turn := by
    simp only [interleavedTurns, List.forall_mem_cons, Works, sampleChoice, true_and]
    exact fun turn hturn => absurd hturn List.not_mem_nil
  have hcalls : (run (codeStep sampleTime) (codeStart sampleTokens) interleavedTurns).calls =
      [.done sampleRequest (.ok sampleRow), .done otherPurposeRequest (.error .invalid),
        .done accountRequest (.error .invalid), .done sampleRequest (.error .invalid)] := rfl
  obtain ⟨honce, hcareful, hchecked⟩ := @code_spent_once_iff sampleTime sampleCode
    isCode_sampleCode sampleTokens interleavedTurns hissue
  have hcalm : ∀ call ∈ [ConsumeCall.look sampleRequest, .look otherPurposeRequest,
      .look accountRequest], ¬ call.Spending sampleCode := by
    simp only [List.forall_mem_cons, ConsumeCall.Spending, not_false_eq_true, true_and]
    exact fun call hcall => absurd hcall List.not_mem_nil
  have hdone : Complete (run (codeStep sampleTime) (codeStart sampleTokens) interleavedTurns) := by
    intro call hcall
    rw [hcalls] at hcall
    simp only [List.mem_cons, List.not_mem_nil, or_false] at hcall
    rcases hcall with rfl | rfl | rfl | rfl
    · exact ⟨_, _, rfl⟩
    · exact ⟨_, _, rfl⟩
    · exact ⟨_, _, rfl⟩
    · exact ⟨_, _, rfl⟩
  have hspent : SpentOnce sampleCode
      (run (codeStep sampleTime) (codeStart sampleTokens) interleavedTurns) := by
    apply honce
    refine ⟨trivial, trivial, trivial, ?_, ?_, trivial, ?_, ?_, trivial, ?_, trivial⟩
    · intro request row _ _ _ _ other hother
      exact hcalm other hother
    · intro request row hlook _ _ hredeem
      obtain rfl : otherPurposeRequest = request := ConsumeCall.look.inj (Option.some.inj hlook)
      exact absurd hredeem not_redeemable_otherPurpose
    · intro request row hlook
      cases hlook
    · intro request row hlook _ _ hredeem
      obtain rfl : accountRequest = request := ConsumeCall.look.inj (Option.some.inj hlook)
      cases hredeem.1
    · intro request row hlook _ _ hredeem
      obtain rfl : sampleRequest = request := ConsumeCall.look.inj (Option.some.inj hlook)
      cases hredeem.1
  exact ⟨hcalls, hspent, hcareful hworks hdone hspent, hchecked 0 sampleRequest sampleRow rfl rfl⟩

theorem code_spent_twice :
  IsCode sampleCode ∧
    (run (codeStep sampleTime) (codeStart sampleTokens) raceTurns).calls =
      [.done sampleRequest (.ok sampleRow), .done sampleRequest (.ok sampleRow)] ∧
    ¬ SpentOnce sampleCode (run (codeStep sampleTime) (codeStart sampleTokens) raceTurns)
  := by
  have hcalls : (run (codeStep sampleTime) (codeStart sampleTokens) raceTurns).calls =
      [.done sampleRequest (.ok sampleRow), .done sampleRequest (.ok sampleRow)] := rfl
  have hspells : Spells sampleCode sampleRequest.token := rfl
  refine ⟨isCode_sampleCode, hcalls, ?_⟩
  intro hspent
  have h : 0 = 1 := hspent 0 1 (.done sampleRequest (.ok sampleRow))
    (.done sampleRequest (.ok sampleRow)) (by rw [hcalls]; rfl) (by rw [hcalls]; rfl) hspells hspells
  exact absurd h (by decide)

end Atproto.Pds.EmailToken
