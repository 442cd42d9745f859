import Atproto.Logic.Checks
import Mathlib.Algebra.BigOperators.Group.List.Basic
import Mathlib.Algebra.Order.Ring.Nat
import Mathlib.Data.List.Basic
import Mathlib.Data.List.TakeWhile

/-!
# Endpoints of services

An address that somebody else has chosen is checked before it is asked for anything.  The check looks
at the address only, it does not resolve names.  The library of URLs is given.
-/

namespace Atproto.Identity

open Logic

/-- The host of a URL. -/
inductive UrlHost where
  | domain (domain : String)
  | address (address : String)

/-- A URL, as the library reads it. -/
structure ParsedUrl where
  scheme : String
  username : String
  password : Option String
  host : Option UrlHost
  port : Option Nat
  query : Option String
  fragment : Option String

/-- The library of URLs. -/
def UrlLibrary : Type := String → Except String ParsedUrl

/-- Errors of endpoints. -/
inductive EndpointError where
  | notAbsoluteUrl (endpoint details : String)
  | invalidScheme (scheme : String)
  | missingHost (endpoint : String)
  | ipLiteralHost (host : String)
  | invalidHostname (host : String)
  | embeddedCredentials (endpoint : String)
  | nonDefaultPort (port : Nat)
  | queryOrFragment (endpoint : String)

/-- The text of an error. -/
def EndpointError.message : EndpointError → String
  | .notAbsoluteUrl endpoint details =>
    s!"error-atproto-identity-endpoint-1 Endpoint is not an absolute URL: {endpoint} {details}"
  | .invalidScheme scheme =>
    s!"error-atproto-identity-endpoint-2 Endpoint scheme must be https: {scheme}"
  | .missingHost endpoint =>
    s!"error-atproto-identity-endpoint-3 Endpoint is missing a host: {endpoint}"
  | .ipLiteralHost host =>
    s!"error-atproto-identity-endpoint-4 Endpoint host is a network address literal: {host}"
  | .invalidHostname host =>
    s!"error-atproto-identity-endpoint-5 Endpoint hostname is invalid: {host}"
  | .embeddedCredentials endpoint =>
    s!"error-atproto-identity-endpoint-6 Endpoint contains embedded credentials: {endpoint}"
  | .nonDefaultPort port =>
    s!"error-atproto-identity-endpoint-7 Endpoint uses a non-default port: {port}"
  | .queryOrFragment endpoint =>
    s!"error-atproto-identity-endpoint-8 Endpoint contains a query string or fragment: {endpoint}"

/-! ### Hosts -/

def maxHostnameLength : Nat := 253

def maxLabelLength : Nat := 63

/-- Top-level domains that no service has. -/
def reservedTlds : List (List Char) :=
  [".localhost".toList, ".internal".toList, ".arpa".toList, ".local".toList]

def isHexDigit (c : Char) : Bool :=
  c.isDigit || 'a' ≤ c && c ≤ 'f' || 'A' ≤ c && c ≤ 'F'

def isAllDigits (label : List Char) : Bool := !label.isEmpty && label.all Char.isDigit

/-- A hexadecimal number.  Without digits it is read as zero. -/
def isHexLiteral : List Char → Bool
  | '0' :: 'x' :: rest => rest.all isHexDigit
  | '0' :: 'X' :: rest => rest.all isHexDigit
  | _ => false

/-- The digits of a number, without a plus sign in front of them. -/
def withoutPlus : List Char → List Char
  | '+' :: digit :: digits => digit :: digits
  | digits => digits

/-- A text is read as a number of eight bits. -/
def isU8 (part : List Char) : Bool :=
  isAllDigits (withoutPlus part) &&
    (withoutPlus part).foldl (fun value digit => value * 10 + (digit.toNat - 48)) 0 ≤ 255

def isIpv4 (host : List Char) : Bool :=
  let parts := host.splitOn '.'
  parts.length = 4 && parts.all isU8

/-- How often two colons stand next to each other. -/
def doubleColons : List Char → Nat
  | ':' :: ':' :: rest => doubleColons rest + 1
  | _ :: rest => doubleColons rest
  | [] => 0

/-- The length of a text in bytes. -/
def byteLength (text : List Char) : Nat := (text.map Char.utf8Size).sum

def withoutBrackets (host : List Char) : List Char :=
  if host.head? = some '[' && host.getLast? = some ']' then (host.drop 1).dropLast else host

def isIpv6 (host : List Char) : Bool :=
  let segments := ((withoutBrackets host).splitOn ':').filter fun segment => !segment.isEmpty
  host.contains ':' && doubleColons (withoutBrackets host) ≤ 1 && segments.length ≤ 8 &&
    segments.all fun segment => byteLength segment ≤ 4 && segment.all isHexDigit

/-- A host is a number rather than a name. -/
def isIpLiteral (host : List Char) : Bool :=
  !host.isEmpty && (isIpv4 host || isIpv6 host ||
    (host.splitOn '.').all fun label => isAllDigits label || isHexLiteral label)

/-- The library takes a host for an address. -/
def urlParsesAsAddress (parse : UrlLibrary) (hostname : List Char) : Bool :=
  match parse s!"https://{String.ofList hostname}/" with
  | .ok ⟨_, _, _, some (.domain _), _, _, _⟩ => false
  | .ok _ => true
  | .error _ => false

def isValidHostnameChar (c : Char) : Bool := c.isAlphanum || c = '-' || c = '.'

def isValidDnsLabel (label : List Char) : Bool :=
  !(label.isEmpty || byteLength label > maxLabelLength || label.head? = some '-' ||
    label.getLast? = some '-')

/-- A host is the name of a server. -/
def isValidHostname (parse : UrlLibrary) (hostname : List Char) : Bool :=
  let normalized := hostname.map Char.toLower
  !(hostname.isEmpty || byteLength hostname > maxHostnameLength) &&
    !reservedTlds.any (fun tld => tld.isSuffixOf normalized) && !isIpLiteral normalized &&
    normalized.all isValidHostnameChar && (normalized.splitOn '.').all isValidDnsLabel &&
    !(normalized.splitOn '.').getLast?.any isAllDigits && !urlParsesAsAddress parse normalized

/-! ### Endpoints -/

/-- A host is given by a name, and the name is not an address in disguise. -/
def checkHost (parse : UrlLibrary) (endpoint : String) :
    Option UrlHost → Except EndpointError Unit
  | none => .error (.missingHost endpoint)
  | some (.address address) => .error (.ipLiteralHost address)
  | some (.domain domain) => do
    failIf (isIpLiteral domain.toList = true) (.ipLiteralHost domain)
    failIf (isValidHostname parse domain.toList = false) (.invalidHostname domain)

def checkPort : Option Nat → Except EndpointError Unit
  | none => .ok ()
  | some port => failIf (port ≠ 443) (.nonDefaultPort port)

/-- Check the address of a service. -/
def validateServiceEndpoint (parse : UrlLibrary) (endpoint : String) : Except EndpointError Unit := do
  let parsed ← (parse endpoint).mapError (.notAbsoluteUrl endpoint)
  failIf (parsed.scheme ≠ "https") (.invalidScheme parsed.scheme)
  failIf (parsed.username ≠ "" ∨ parsed.password.isSome = true) (.embeddedCredentials endpoint)
  checkHost parse endpoint parsed.host
  checkPort parsed.port
  failIf (parsed.query.isSome = true ∨ parsed.fragment.isSome = true) (.queryOrFragment endpoint)

/-! ### Addresses

The function `inet_aton` reads one to four numbers with dots between them, each of them decimal, octal
or hexadecimal, and takes no notice of what stands behind white space.
-/

def isSpace (c : Char) : Bool := c = ' ' || 9 ≤ c.toNat && c.toNat ≤ 13

def isOctalDigit (c : Char) : Bool := '0' ≤ c && c ≤ '7'

/-- The value of a digit. -/
def digitValue (c : Char) : Nat :=
  if c.isDigit then c.toNat - 48 else if 'a' ≤ c then c.toNat - 87 else c.toNat - 55

/-- The number that digits are read as. -/
def digitsValue (base : Nat) (digits : List Char) : Nat :=
  digits.foldl (fun value digit => value * base + digitValue digit) 0

/-- One of the numbers of an address. -/
def inetAtonNumber : List Char → Option Nat
  | [] => none
  | '0' :: 'x' :: digits => if digits.all isHexDigit then some (digitsValue 16 digits) else none
  | '0' :: 'X' :: digits => if digits.all isHexDigit then some (digitsValue 16 digits) else none
  | '0' :: digits => if digits.all isOctalDigit then some (digitsValue 8 digits) else none
  | digits => if digits.all Char.isDigit then some (digitsValue 10 digits) else none

/-- The address that a text is read as. -/
def inetAton (text : List Char) : Option Nat :=
  match ((text.takeWhile fun c => !isSpace c).splitOn '.').mapM inetAtonNumber with
  | some [a] => if a < 2 ^ 32 then some a else none
  | some [a, b] => if a < 2 ^ 8 ∧ b < 2 ^ 24 then some (a * 2 ^ 24 + b) else none
  | some [a, b, c] =>
    if a < 2 ^ 8 ∧ b < 2 ^ 8 ∧ c < 2 ^ 16 then some (a * 2 ^ 24 + b * 2 ^ 16 + c) else none
  | some [a, b, c, d] =>
    if a < 2 ^ 8 ∧ b < 2 ^ 8 ∧ c < 2 ^ 8 ∧ d < 2 ^ 8 then
      some (a * 2 ^ 24 + b * 2 ^ 16 + c * 2 ^ 8 + d)
    else none
  | _ => none

example : inetAton "0x7f.1".toList = some 0x7f000001 := by decide

theorem isDigit_of_isOctalDigit {c : Char} (h : isOctalDigit c = true) :
  c.isDigit = true
  := by
  rw [isOctalDigit, Bool.and_eq_true, decide_eq_true_eq, decide_eq_true_eq] at h
  rw [Char.isDigit, Bool.and_eq_true, decide_eq_true_eq, decide_eq_true_eq]
  have hseven : '7'.val ≤ 57 := by decide
  exact ⟨h.1, UInt32.le_trans h.2 hseven⟩

/-- A number of an address is a literal. -/
theorem literal_of_inetAtonNumber {label : List Char} {value : Nat}
    (h : inetAtonNumber label = some value) :
  (isAllDigits label || isHexLiteral label) = true
  := by
  rw [Bool.or_eq_true]
  unfold inetAtonNumber at h
  split at h
  · cases h
  · right
    split_ifs at h with hdigits
    exact hdigits
  · right
    split_ifs at h with hdigits
    exact hdigits
  · left
    split_ifs at h with hdigits
    rw [isAllDigits, List.isEmpty_cons, Bool.not_false, Bool.true_and, List.all_cons]
    rw [Bool.and_eq_true]
    refine ⟨by decide, ?_⟩
    apply List.all_eq_true.mpr
    exact fun c hc => isDigit_of_isOctalDigit (List.all_eq_true.mp hdigits c hc)
  · left
    rename_i hne _ _ _
    split_ifs at h with hdigits
    rw [isAllDigits, hdigits, Bool.and_true, Bool.not_eq_true']
    cases label with
    | nil => exact absurd rfl hne
    | cons c label => rfl

/-- Numbers that are read from labels are read from each of them. -/
theorem exists_number {labels : List (List Char)} {numbers : List Nat}
    (h : labels.mapM inetAtonNumber = some numbers) :
  ∀ label ∈ labels, ∃ value, inetAtonNumber label = some value
  := by
  induction labels generalizing numbers with
  | nil => exact fun label hlabel => absurd hlabel List.not_mem_nil
  | cons first labels ih =>
    rw [List.mapM_cons] at h
    obtain ⟨value, hvalue, hrest⟩ := Option.bind_eq_some_iff.mp h
    obtain ⟨values, hvalues, -⟩ := Option.bind_eq_some_iff.mp hrest
    intro label hlabel
    rcases List.mem_cons.mp hlabel with rfl | hlabel
    · exact ⟨value, hvalue⟩
    · exact ih hvalues label hlabel

/-- A host that `inet_aton` reads as an address is a literal, if there is no white space in it. -/
theorem isIpLiteral_of_inetAton {host : List Char} {address : Nat} (h : inetAton host = some address)
    (hne : host ≠ []) (hspace : ∀ c ∈ host, isSpace c = false) :
  isIpLiteral host = true
  := by
  have hwhole : (host.takeWhile fun c => !isSpace c) = host := by
    apply List.takeWhile_eq_self_iff.mpr
    intro c hc
    rw [hspace c hc]
    rfl
  have hlabels : ∃ numbers, (host.splitOn '.').mapM inetAtonNumber = some numbers := by
    rw [inetAton, hwhole] at h
    cases hnumbers : (host.splitOn '.').mapM inetAtonNumber with
    | none =>
      rw [hnumbers] at h
      cases h
    | some numbers => exact ⟨numbers, rfl⟩
  obtain ⟨numbers, hnumbers⟩ := hlabels
  have hall : ((host.splitOn '.').all fun label => isAllDigits label || isHexLiteral label) =
      true := by
    apply List.all_eq_true.mpr
    intro label hlabel
    obtain ⟨value, hvalue⟩ := exists_number hnumbers label hlabel
    exact literal_of_inetAtonNumber hvalue
  rw [isIpLiteral, hall, Bool.or_true, Bool.and_true, Bool.not_eq_true']
  cases host with
  | nil => exact absurd rfl hne
  | cons c host => rfl

/-! ### Names in any letter case -/

/-- A letter in lower case is the letter itself, or it was a capital. -/
theorem toLower_cases (c : Char) :
  c.toLower = c ∨ 65 ≤ c.toNat ∧ c.toNat ≤ 90 ∧ c.toLower.toNat = c.toNat + 32
  := by
  by_cases h : c.val ≥ 'A'.val ∧ c.val ≤ 'Z'.val
  · right
    obtain ⟨hA, hZ⟩ := h
    have hlow : 65 ≤ c.val.toNat := UInt32.le_iff_toNat_le.mp hA
    have hhigh : c.val.toNat ≤ 90 := UInt32.le_iff_toNat_le.mp hZ
    have hval : c.toLower.val = c.val + ('a'.val - 'A'.val) :=
      congrArg Char.val (dif_pos (c := c.val ≥ 'A'.val ∧ c.val ≤ 'Z'.val) ⟨hA, hZ⟩)
    refine ⟨hlow, hhigh, ?_⟩
    rw [Char.toNat, hval, UInt32.toNat_add]
    change (c.val.toNat + 32) % 2 ^ 32 = c.val.toNat + 32
    omega
  · left
    exact dif_neg h

theorem toLower_eq_dot {c : Char} :
  c.toLower = '.' ↔ c = '.'
  := by
  rcases toLower_cases c with h | ⟨hlow, -, h⟩
  · rw [h]
  · constructor
    · intro hdot
      rw [hdot] at h
      change 46 = _ at h
      omega
    · rintro rfl
      exact absurd hlow (by decide)

theorem splitOn_map_toLower (host : List Char) :
  (host.map Char.toLower).splitOn '.' = (host.splitOn '.').map (List.map Char.toLower)
  := by
  rw [List.splitOn, List.splitOn]
  induction host with
  | nil => rfl
  | cons c host ih =>
    rw [List.map_cons, List.splitOnP_cons_eq_if_modifyHead, List.splitOnP_cons_eq_if_modifyHead, ih]
    by_cases hdot : c = '.'
    · rw [if_pos (beq_iff_eq.mpr (toLower_eq_dot.mpr hdot)), if_pos (beq_iff_eq.mpr hdot),
        List.map_cons, List.map_nil]
    · rw [if_neg (fun h => hdot (toLower_eq_dot.mp (beq_iff_eq.mp h))),
        if_neg (fun h => hdot (beq_iff_eq.mp h))]
      cases host.splitOnP fun x => x == '.' with
      | nil => rfl
      | cons label labels => rfl

theorem utf8Size_of_lt {c : Char} (h : c.toNat < 128) :
  c.utf8Size = 1
  := by
  apply Char.utf8Size_eq_one_iff.mpr
  exact UInt32.le_iff_toNat_le.mpr (Nat.le_of_lt_succ h)

/-- A letter has as many bytes in lower case. -/
theorem byteLength_map_toLower (text : List Char) :
  byteLength (text.map Char.toLower) = byteLength text
  := by
  rw [byteLength, byteLength, List.map_map]
  congr 1
  apply List.map_congr_left
  intro c _
  rw [Function.comp_apply]
  rcases toLower_cases c with h | ⟨-, hhigh, h⟩
  · rw [h]
  · rw [utf8Size_of_lt (show c.toLower.toNat < 128 by omega),
      utf8Size_of_lt (show c.toNat < 128 by omega)]

/-! ### What is accepted -/

/-- The names that hosts inside of a network have. -/
def reservedNames : List (List Char) :=
  ["localhost".toList, "internal".toList, "arpa".toList, "local".toList]

theorem reservedTlds_eq :
  reservedTlds = reservedNames.map ('.' :: ·)
  := by
  decide

/-- The port of a URL.  The library leaves out the port that the scheme stands for. -/
def ParsedUrl.effectivePort (url : ParsedUrl) : Option Nat :=
  if url.scheme = "https" then some (url.port.getD 443) else url.port

/-- A URL is that of a page on a server that is named by its domain. -/
structure IsPlainHttps (url : ParsedUrl) (domain : String) : Prop where
  scheme : url.scheme = "https"
  effectivePort : url.effectivePort = some 443
  username : url.username = ""
  password : url.password = none
  query : url.query = none
  fragment : url.fragment = none
  host : url.host = some (.domain domain)

/-- A host is a name in the DNS, and no address. -/
structure IsDnsName (host : List Char) : Prop where
  characters : ∀ c ∈ host, isValidHostnameChar c.toLower = true
  labels : ∀ label ∈ host.splitOn '.', label ≠ [] ∧ byteLength label ≤ maxLabelLength
  length : byteLength host ≤ maxHostnameLength
  address : inetAton host = none

theorem le_of_isValidHostnameChar {c : Char} (h : isValidHostnameChar c = true) :
  45 ≤ c.toNat
  := by
  rw [isValidHostnameChar] at h
  change ((((decide ('A'.val ≤ c.val ∧ c.val ≤ 'Z'.val) ||
    (decide ('a'.val ≤ c.val) && decide (c.val ≤ 'z'.val))) ||
    (decide (48 ≤ c.val) && decide (c.val ≤ 57))) || decide (c = '-')) || decide (c = '.')) = true at h
  simp only [Bool.or_eq_true, Bool.and_eq_true, decide_eq_true_eq, UInt32.le_iff_toNat_le] at h
  rcases h with ((((⟨hupper, -⟩ | ⟨hlower, -⟩) | ⟨hdigit, -⟩) | rfl) | rfl)
  · exact le_trans (by decide) hupper
  · exact le_trans (by decide) hlower
  · exact le_trans (by decide) hdigit
  · decide
  · decide

theorem isSpace_of_hostnameChar {c : Char} (h : isValidHostnameChar c.toLower = true) :
  isSpace c = false
  := by
  have hle := le_of_isValidHostnameChar h
  rw [isSpace, Bool.or_eq_false_iff, Bool.and_eq_false_iff, decide_eq_false_iff_not,
    decide_eq_false_iff_not, decide_eq_false_iff_not]
  rcases toLower_cases c with heq | ⟨hlow, -, -⟩
  · rw [heq] at hle
    refine ⟨?_, Or.inr (by omega)⟩
    rintro rfl
    exact absurd hle (by decide)
  · refine ⟨?_, Or.inr (by omega)⟩
    rintro rfl
    exact absurd hlow (by decide)

theorem isValidHostname_eq_true {parse : UrlLibrary} {host : List Char}
    (h : isValidHostname parse host = true) (hliteral : isIpLiteral host = false) :
  IsDnsName host ∧ ∀ tld ∈ reservedTlds, ¬ tld <:+ host.map Char.toLower
  := by
  simp only [isValidHostname, Bool.and_eq_true, Bool.not_eq_true', Bool.or_eq_false_iff,
    decide_eq_false_iff_not, not_lt, List.all_eq_true, List.any_eq_false] at h
  obtain ⟨⟨⟨⟨⟨⟨⟨hempty, hlength⟩, htld⟩, -⟩, hchars⟩, hlabels⟩, -⟩, -⟩ := h
  have hchars' : ∀ c ∈ host, isValidHostnameChar c.toLower = true :=
    fun c hc => hchars c.toLower (List.mem_map_of_mem hc)
  constructor
  · refine ⟨hchars', ?_, hlength, ?_⟩
    · intro label hlabel
      rw [splitOn_map_toLower] at hlabels
      have hvalid := hlabels _ (List.mem_map_of_mem hlabel)
      rw [isValidDnsLabel, Bool.not_eq_true', Bool.or_eq_false_iff, Bool.or_eq_false_iff,
        Bool.or_eq_false_iff, byteLength_map_toLower, decide_eq_false_iff_not, not_lt] at hvalid
      refine ⟨?_, hvalid.1.1.2⟩
      rintro rfl
      exact absurd hvalid.1.1.1 (by decide)
    · cases haddress : inetAton host with
      | none => rfl
      | some address =>
        have hne : host ≠ [] := by
          rintro rfl
          cases hempty
        rw [isIpLiteral_of_inetAton haddress hne fun c hc => isSpace_of_hostnameChar (hchars' c hc)]
          at hliteral
        cases hliteral
  · intro tld hmem hsuffix
    exact htld tld hmem (List.isSuffixOf_iff_suffix.mpr hsuffix)

/-- A host is none of the reserved names, and no name within one of them, in any letter case. -/
structure IsOutside (host : List Char) : Prop where
  itself : host.map Char.toLower ∉ reservedNames
  within : ∀ name ∈ reservedNames, ¬ ('.' :: name) <:+ host.map Char.toLower

/-- An endpoint is that of a server in the DNS, on the port of the web, outside of every internal
network. -/
def PointsOutside (parse : UrlLibrary) (endpoint : String) : Prop :=
  ∃ parsed domain, parse endpoint = .ok parsed ∧ IsPlainHttps parsed domain ∧
    IsDnsName domain.toList ∧ IsOutside domain.toList

/-- The host of an endpoint is itself one of the reserved names. -/
def NamesReserved (parse : UrlLibrary) (endpoint : String) : Prop :=
  ∃ parsed domain, parse endpoint = .ok parsed ∧ parsed.host = some (.domain domain) ∧
    domain.toList.map Char.toLower ∈ reservedNames

/-- A host that is checked is a name in the DNS, and no name within one of the reserved names. -/
theorem checkHost_eq_ok {parse : UrlLibrary} {endpoint : String} {host : Option UrlHost}
    (h : checkHost parse endpoint host = .ok ()) :
  ∃ domain, host = some (.domain domain) ∧ IsDnsName domain.toList ∧
    ∀ name ∈ reservedNames, ¬ ('.' :: name) <:+ domain.toList.map Char.toLower
  := by
  cases host with
  | none => cases h
  | some host =>
    cases host with
    | address address => cases h
    | domain domain =>
      obtain ⟨hliteral, hname⟩ := failIf_bind_eq_ok.mp h
      rw [failIf_eq_ok, Bool.not_eq_false] at hname
      obtain ⟨hdns, htlds⟩ := isValidHostname_eq_true hname (Bool.eq_false_iff.mpr hliteral)
      refine ⟨domain, rfl, hdns, fun name hmem => htlds _ ?_⟩
      rw [reservedTlds_eq]
      exact List.mem_map_of_mem hmem

/-- Without a reserved name itself, an endpoint that is accepted is as it should be. -/
theorem accepted_endpoint {parse : UrlLibrary} {endpoint : String}
    (h : validateServiceEndpoint parse endpoint = .ok ()) :
  ∃ parsed domain, parse endpoint = .ok parsed ∧ IsPlainHttps parsed domain ∧
    IsDnsName domain.toList ∧
    ∀ name ∈ reservedNames, ¬ ('.' :: name) <:+ domain.toList.map Char.toLower
  := by
  obtain ⟨parsed, hparsed, h⟩ := bind_eq_ok.mp h
  obtain ⟨hscheme, h⟩ := failIf_bind_eq_ok.mp h
  obtain ⟨hcredentials, h⟩ := failIf_bind_eq_ok.mp h
  obtain ⟨u, hhost, h⟩ := bind_eq_ok.mp h
  obtain ⟨u, hport, h⟩ := bind_eq_ok.mp h
  rw [failIf_eq_ok, not_or, Option.not_isSome_iff_eq_none, Option.not_isSome_iff_eq_none] at h
  rw [not_or, not_not, Option.not_isSome_iff_eq_none] at hcredentials
  rw [mapError_eq_ok] at hparsed
  have hscheme' : parsed.scheme = "https" := not_not.mp hscheme
  have heffective : parsed.effectivePort = some 443 := by
    rw [ParsedUrl.effectivePort, if_pos hscheme']
    cases hgiven : parsed.port with
    | none => rfl
    | some port =>
      rw [hgiven] at hport
      rw [Option.getD_some, not_not.mp (failIf_eq_ok.mp hport)]
  obtain ⟨domain, hdomain, hdns, hwithin⟩ := checkHost_eq_ok hhost
  exact ⟨parsed, domain, hparsed, ⟨hscheme', heffective, hcredentials.1, hcredentials.2, h.1, h.2,
    hdomain⟩, hdns, hwithin⟩

/-- An endpoint that is accepted points outside of every internal network exactly when its host is
not itself a reserved name. -/
theorem accepted_endpoint_outside {parse : UrlLibrary} {endpoint : String}
    (h : validateServiceEndpoint parse endpoint = .ok ()) :
  PointsOutside parse endpoint ↔ ¬ NamesReserved parse endpoint
  := by
  obtain ⟨parsed, domain, hparsed, hplain, hdns, hwithin⟩ := accepted_endpoint h
  constructor
  · rintro ⟨parsed', domain', hparsed', hplain', -, houtside⟩ ⟨other, name, hother, hname, hreserved⟩
    cases hparsed'.symm.trans hother
    cases hplain'.host.symm.trans hname
    exact houtside.itself hreserved
  · intro hnot
    refine ⟨parsed, domain, hparsed, hplain, hdns, ?_, hwithin⟩
    exact fun hreserved => hnot ⟨parsed, domain, hparsed, hplain.host, hreserved⟩

/-- The library on the endpoints of three servers. -/
def sampleUrls : UrlLibrary := fun url =>
  if url = "https://PDS.example.com:443/xrpc" then
    .ok ⟨"https", "", none, some (.domain "pds.example.com"), none, none, none⟩
  else if url = "https://pds.example.com/" then
    .ok ⟨"https", "", none, some (.domain "pds.example.com"), none, none, none⟩
  else if url = "https://localhost" ∨ url = "https://localhost/" then
    .ok ⟨"https", "", none, some (.domain "localhost"), none, none, none⟩
  else .error "relative URL without a base"

/-- A server in the DNS, with a port and a path. -/
theorem accepted_endpoint_outside_pds :
  PointsOutside sampleUrls "https://PDS.example.com:443/xrpc"
  := by
  refine (accepted_endpoint_outside (isOk_iff.mp (by decide +kernel))).mpr ?_
  rintro ⟨parsed, domain, hparsed, hdomain, hreserved⟩
  cases hparsed
  cases hdomain
  revert hreserved
  decide

/-- A reserved name itself is accepted. -/
theorem accepted_endpoint_inside :
  validateServiceEndpoint sampleUrls "https://localhost" = .ok () ∧
    ¬ PointsOutside sampleUrls "https://localhost"
  := by
  refine ⟨isOk_iff.mp (by decide +kernel), ?_⟩
  rintro ⟨parsed, domain, hparsed, hplain, -, houtside⟩
  cases hparsed
  cases hplain.host
  exact houtside.itself List.mem_cons_self

end Atproto.Identity
