import Atproto.Scopes.Query

/-!
# The authority of a permission set

A permission set may grant what lies in its own namespace: names that begin with its NSID up to
the last dot.
-/

namespace Atproto.Lexicon

open Scopes Wire

/-- The NSID up to its last dot. -/
def extractNamespace (nsid : Chars) : Chars :=
  match splitFirst '.' nsid.reverse with
  | some (_, front) => front.reverse
  | none => nsid

/-- The NSID begins with the namespace and a dot. -/
def nsidInNamespace (nsid namesp : Chars) : Bool :=
  namesp.isPrefixOf nsid && decide (namesp.length < nsid.length) &&
    decide (nsid[namesp.length]? = some '.')

/-- A permission set may grant a name. -/
def permissionWithinAuthority (nsid lexiconNsid : Chars) : Bool :=
  nsidInNamespace nsid (extractNamespace lexiconNsid)

end Atproto.Lexicon
