import Atproto.Wire.Split
import Mathlib.Data.Finset.Sort
import Mathlib.Data.Prod.Lex
import Mathlib.Data.String.Basic

/-!
# The syntax of OAuth scopes

A scope is a kind, a positional value behind a colon and a query behind a question mark.  A value
is a name or a star, which stands for every name.  Texts are lists of characters.
-/

namespace Atproto.Scopes

open Wire

/-- A text, as its characters. -/
abbrev Chars : Type := List Char

/-- What is wrong with a scope. -/
inductive ParseError where
  | unknownPrefix (text : Chars)
  | missingResource
  | invalidResource (message : Chars)
  | invalidAction (action : Chars)
  | invalidMimeType (mime : Chars)

/-! ### Values -/

/-- Every name, or one. -/
inductive Pattern where
  | all
  | only (name : Chars)
deriving DecidableEq

namespace Pattern

/-- The star stands before all names. -/
def rank : Pattern → ℕ ×ₗ Chars
  | .all => toLex (0, [])
  | .only name => toLex (1, name)

theorem rank_injective :
  Function.Injective rank
  := by
  intro a b h
  cases a with
  | all =>
    cases b with
    | all => rfl
    | only name => cases h
  | only name =>
    cases b with
    | all => cases h
    | only other => exact congrArg only (Prod.mk.inj (toLex.injective h)).2

instance : LinearOrder Pattern := LinearOrder.lift' rank rank_injective

/-- Read a value, whose star stands for every name. -/
def parse (value : Chars) : Pattern := if value = ['*'] then .all else .only value

/-- Write a value. -/
def text : Pattern → Chars
  | .all => ['*']
  | .only name => name

/-- Whether a name is meant. -/
def Covers (name : Chars) : Pattern → Prop
  | .all => True
  | .only other => other = name

instance (name : Chars) : DecidablePred (Covers name) := fun pattern =>
  match pattern with
  | .all => isTrue trivial
  | .only other => inferInstanceAs (Decidable (other = name))

theorem text_parse (value : Chars) :
  (parse value).text = value
  := by
  rw [parse]
  split_ifs with h
  · exact h.symm
  · rfl

end Pattern

/-! ### Queries -/

/-- The items of a query that have a sign of equality, in order. -/
def parseQueryString (query : Chars) : List (Chars × Chars) :=
  (query.splitOn '&').filterMap (splitFirst '=')

/-- The values that a key has among items. -/
def queryValues (key : Chars) (params : List (Chars × Chars)) : List Chars :=
  (params.filter fun item => decide (item.1 = key)).map Prod.snd

/-- The text before the first question mark, and the query behind it. -/
def splitQuery (suffix : Chars) : Chars × Option Chars :=
  match splitFirst '?' suffix with
  | some (text, query) => (text, some query)
  | none => (suffix, none)

/-! ### White space -/

/-- The characters that Unicode calls white space. -/
def isWhitespace (c : Char) : Bool :=
  let code := c.toNat
  (9 ≤ code && code ≤ 13) || code == 0x20 || code == 0x85 || code == 0xa0 || code == 0x1680 ||
    (0x2000 ≤ code && code ≤ 0x200a) || code == 0x2028 || code == 0x2029 || code == 0x202f ||
    code == 0x205f || code == 0x3000

/-- The parts of a text between white space. -/
def splitWhitespace (text : Chars) : List Chars :=
  (text.splitOnP isWhitespace).filter fun part => !part.isEmpty

/-- The characters of a scope. -/
def isScopeChar (c : Char) : Bool :=
  let code := c.toNat
  code == 0x21 || (0x23 ≤ code && code ≤ 0x5b) || (0x5d ≤ code && code ≤ 0x7e)

/-- A text is one scope of a list that is separated by blanks. -/
def isScopeToken (text : Chars) : Bool := !text.isEmpty && text.all isScopeChar

/-- Texts behind one another, with a separator between them. -/
def join (separator : Char) (texts : List Chars) : Chars := [separator].intercalate texts

theorem join_singleton (separator : Char) (text : Chars) :
  join separator [text] = text
  := List.append_nil text

theorem join_cons_cons (separator : Char) (text other : Chars) (texts : List Chars) :
  join separator (text :: other :: texts) = text ++ separator :: join separator (other :: texts)
  := rfl

end Atproto.Scopes
