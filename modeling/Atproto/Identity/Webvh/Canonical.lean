import Atproto.Identity.Webvh.Jcs
import Atproto.Json.Parse

/-!
# Canonical JSON is canonical

What is written in canonical form is read as the value that was written, so two values have the
same canonical form exactly when they differ in nothing but the order of the fields of objects.
The fields are written in the order of the UTF-16 code units of their keys.
-/

namespace Atproto.Identity.Webvh

open Atproto.Dasl Atproto.Repo JsonText SearchTree

/-! ### Strings -/

theorem hexValue_hexDigit {value : Nat} (h : value < 16) :
  hexValue (hexDigit value) = some value
  := by
  revert value
  decide

/-- A control character is read from its code unit. -/
theorem readUnicode_control {byte : UInt8} (h : byte < 0x20) (rest : Bytes) :
  readUnicode (0x30 :: 0x30 :: hexDigit (byte.toNat / 16) :: hexDigit (byte.toNat % 16) :: rest) =
    some ([byte], rest)
  := by
  have hlt : byte.toNat < 32 := UInt8.lt_iff_toNat_lt.mp h
  have hunit : readUnit (0x30 :: 0x30 :: hexDigit (byte.toNat / 16) ::
      hexDigit (byte.toNat % 16) :: rest) = some (byte.toNat, rest) := by
    have hzero : hexValue 0x30 = some 0 := by decide
    rw [readUnit, hzero, hexValue_hexDigit (by omega), hexValue_hexDigit (Nat.mod_lt _ (by decide))]
    change some (((0 * 16 + 0) * 16 + byte.toNat / 16) * 16 + byte.toNat % 16, rest) = _
    congr 2
    omega
  rw [readUnicode, hunit]
  change (if 0xd800 ≤ byte.toNat ∧ byte.toNat < 0xdc00 then _
    else if 0xdc00 ≤ byte.toNat ∧ byte.toNat < 0xe000 then none
    else some (String.utf8EncodeChar (Char.ofNat byte.toNat), rest)) = _
  rw [if_neg (by omega), if_neg (by omega), utf8EncodeChar_ofNat (by omega)]

/-- What is read of a byte of a text as it stands in a JSON string. -/
theorem readChars_escapeByte (byte : UInt8) (fuel : Nat) (rest : Bytes) :
  readChars (fuel + 1) (escapeByte byte ++ rest) =
    (readChars fuel rest).map fun p => (byte :: p.1, p.2)
  := by
  have hescape : ∀ (escaped : Bytes), readEscape (escaped ++ rest) = some ([byte], rest) →
      readChars (fuel + 1) (0x5c :: escaped ++ rest) =
        (readChars fuel rest).map fun p => (byte :: p.1, p.2) := by
    intro escaped h
    rw [List.cons_append, readChars, if_neg (by decide), if_pos rfl, h]
    change (readChars fuel rest).bind (fun p => some ([byte] ++ p.1, p.2)) = _
    rw [Option.map_eq_bind]
    rfl
  rw [escapeByte]
  split_ifs with h1 h2 h3 h4 h5 h6 h7 h8
  · subst h1
    exact hescape [0x22] rfl
  · subst h2
    exact hescape [0x5c] rfl
  · subst h3
    exact hescape [0x62] rfl
  · subst h4
    exact hescape [0x66] rfl
  · subst h5
    exact hescape [0x6e] rfl
  · subst h6
    exact hescape [0x72] rfl
  · subst h7
    exact hescape [0x74] rfl
  · apply hescape
    exact readUnicode_control h8 rest
  · rw [List.singleton_append, readChars, if_neg h1, if_neg h2, if_neg h8]
    change (readChars fuel rest).bind (fun p => some (byte :: p.1, p.2)) = _
    rw [Option.map_eq_bind]
    rfl

theorem readChars_escaped (bytes rest : Bytes) {fuel : Nat}
    (h : (bytes.flatMap escapeByte).length < fuel) :
  readChars fuel (bytes.flatMap escapeByte ++ 0x22 :: rest) = some (bytes, rest)
  := by
  induction bytes generalizing fuel with
  | nil =>
    obtain ⟨fuel, rfl⟩ := Nat.exists_eq_succ_of_ne_zero (Nat.ne_of_gt h)
    rw [List.flatMap_nil, List.nil_append, readChars, if_pos rfl]
  | cons byte bytes ih =>
    obtain ⟨fuel, rfl⟩ := Nat.exists_eq_succ_of_ne_zero (Nat.ne_of_gt (Nat.zero_lt_of_lt h))
    have hpos : 0 < (escapeByte byte).length := by
      rw [escapeByte]
      split_ifs <;> exact Nat.succ_pos _
    rw [List.flatMap_cons, List.length_append] at h
    rw [List.flatMap_cons, List.append_assoc, readChars_escapeByte, ih (by omega)]
    rfl

/-- A text is read from its JSON string. -/
theorem readQuoted_written (text : Text) (rest : Bytes) :
  readQuoted (text.bytes.flatMap escapeByte ++ 0x22 :: rest) = some (text, rest)
  := by
  have hfuel : (text.bytes.flatMap escapeByte).length <
      (text.bytes.flatMap escapeByte ++ 0x22 :: rest).length := by
    rw [List.length_append, List.length_cons]
    omega
  rw [readQuoted, readChars_escaped _ _ hfuel]
  change (Text.fromUtf8 text.bytes).bind (fun text => some (text, rest)) = _
  rw [Text.fromUtf8_bytes]
  rfl

/-! ### Numbers -/

/-- The decimal digits of a number. -/
structure Decimal (value : Nat) (digits : List Nat) : Prop where
  chars : Nat.toDigits 10 value = digits.map Nat.digitChar
  small : ∀ digit ∈ digits, digit < 10
  nonempty : digits ≠ []
  lead : digits.head? = some 0 → digits.length = 1
  sum : digits.foldl (fun value digit => 10 * value + digit) 0 = value

theorem exists_decimal (value : Nat) :
  ∃ digits, Decimal value digits ∧ (0 < value → digits.head? ≠ some 0)
  := by
  induction value using Nat.strong_induction_on with
  | _ value ih =>
    rcases Nat.lt_or_ge value 10 with hsmall | hlarge
    · refine ⟨[value], ⟨Nat.toDigits_of_lt_base hsmall, by simpa using hsmall, by simp, by simp,
        by simp⟩, ?_⟩
      intro hpos hzero
      cases Option.some.inj hzero
      exact absurd hpos (Nat.lt_irrefl 0)
    · obtain ⟨digits, hdigits, hlead⟩ := ih (value / 10) (by omega)
      have hhead : (digits ++ [value % 10]).head? ≠ some 0 := by
        rw [List.head?_append_of_ne_nil _ hdigits.nonempty]
        exact hlead (by omega)
      refine ⟨digits ++ [value % 10], ⟨?_, ?_, by simp, fun h => absurd h hhead, ?_⟩, fun _ => hhead⟩
      · rw [Nat.toDigits_of_base_le (by decide) hlarge, hdigits.chars, List.map_append]
        rfl
      · intro digit hdigit
        rcases List.mem_append.mp hdigit with h | h
        · exact hdigits.small digit h
        · rw [List.mem_singleton.mp h]
          omega
      · rw [List.foldl_append, hdigits.sum]
        change 10 * (value / 10) + value % 10 = value
        omega

/-- The byte of a digit. -/
def digitByte (digit : Nat) : UInt8 := UInt8.ofNat (0x30 + digit)

theorem bytes_textOf (string : String) :
  (textOf string).bytes = string.toList.flatMap String.utf8EncodeChar
  := by
  have h := congrArg (fun bytes => bytes.data.toList) (String.utf8Encode_toList (b := string))
  rw [List.utf8Encode] at h
  change string.toByteArray.data.toList = _
  rw [← h, List.data_toByteArray]

theorem Decimal.bytes {value : Nat} {digits : List Nat} (h : Decimal value digits) :
  (textOf (toString value)).bytes = digits.map digitByte
  := by
  have hchars : (toString value).toList = digits.map Nat.digitChar := by
    rw [← h.chars]
    change (String.ofList (Nat.toDigits 10 value)).toList = _
    exact String.toList_ofList
  rw [bytes_textOf, hchars, List.flatMap_map, ← List.flatMap_pure_eq_map]
  apply List.flatMap_congr
  intro digit hdigit
  have hbyte : ∀ digit < 10, String.utf8EncodeChar (Nat.digitChar digit) = [digitByte digit] := by
    decide
  exact hbyte digit (h.small digit hdigit)

/-- A number ends here: neither a digit nor a fraction follows. -/
def Ended (rest : Bytes) : Prop :=
  ∀ byte ∈ rest.head?, isDigit byte = false ∧ isFraction byte = false

theorem takeWhile_digits {digits : List Nat} (h : ∀ digit ∈ digits, digit < 10) {rest : Bytes}
    (hrest : Ended rest) :
  (digits.map digitByte ++ rest).takeWhile isDigit = digits.map digitByte ∧
    (digits.map digitByte ++ rest).dropWhile isDigit = rest
  := by
  have hdigit : ∀ digit < 10, isDigit (digitByte digit) = true := by decide
  have hall : ∀ byte ∈ digits.map digitByte, isDigit byte = true := by
    rw [List.forall_mem_map]
    exact fun digit hmem => hdigit digit (h digit hmem)
  have hnone : rest.takeWhile isDigit = [] ∧ rest.dropWhile isDigit = rest := by
    cases rest with
    | nil => exact ⟨rfl, rfl⟩
    | cons byte rest =>
      have hbyte : ¬ isDigit byte = true := by
        rw [(hrest byte rfl).1]
        exact Bool.false_ne_true
      exact ⟨List.takeWhile_cons_of_neg hbyte, List.dropWhile_cons_of_neg hbyte⟩
  rw [List.takeWhile_append_of_pos hall, List.dropWhile_append_of_pos hall, hnone.1, hnone.2,
    List.append_nil]
  exact ⟨rfl, rfl⟩

theorem decimalValue_digits {digits : List Nat} (h : ∀ digit ∈ digits, digit < 10) :
  decimalValue (digits.map digitByte) = digits.foldl (fun value digit => 10 * value + digit) 0
  := by
  have hbyte : ∀ digit < 10, (digitByte digit).toNat - 0x30 = digit := by decide
  rw [decimalValue, List.foldl_map]
  apply List.foldl_ext
  intro value digit hdigit
  rw [hbyte digit (h digit hdigit)]

/-- A number is read from its decimal digits. -/
theorem readNatural_written (value : Nat) {rest : Bytes} (hrest : Ended rest) :
  readNatural ((textOf (toString value)).bytes ++ rest) = some (value, rest)
  := by
  obtain ⟨digits, h, -⟩ := exists_decimal value
  obtain ⟨htake, hdrop⟩ := takeWhile_digits h.small hrest
  have hlead : ¬ ((digits.map digitByte).head? = some 0x30 ∧ 1 < (digits.map digitByte).length) := by
    rw [List.length_map]
    rintro ⟨hzero, hlong⟩
    have hinj : ∀ digit < 10, digitByte digit = 0x30 → digit = 0 := by decide
    rw [List.head?_map, Option.map_eq_some_iff] at hzero
    obtain ⟨digit, hhead, heq⟩ := hzero
    have hdigit := hinj digit (h.small digit (List.mem_of_mem_head? hhead)) heq
    rw [h.lead (hdigit ▸ hhead)] at hlong
    exact absurd hlong (Nat.lt_irrefl 1)
  have hfraction : ¬ rest.head?.any isFraction = true := by
    cases rest with
    | nil => exact Bool.false_ne_true
    | cons byte rest =>
      rw [List.head?_cons, Option.any_some, (hrest byte rfl).2]
      exact Bool.false_ne_true
  rw [h.bytes, readNatural, htake, hdrop, if_neg (by simpa using h.nonempty), if_neg hlead,
    if_neg hfraction, decimalValue_digits h.small, h.sum]

/-- The first byte of a decimal number is a digit. -/
theorem exists_digit (value : Nat) :
  ∃ digit rest, (textOf (toString value)).bytes = digitByte digit :: rest ∧ digit < 10
  := by
  obtain ⟨digits, h, -⟩ := exists_decimal value
  cases digits with
  | nil => exact absurd rfl h.nonempty
  | cons digit digits =>
    exact ⟨digit, digits.map digitByte, h.bytes, h.small digit List.mem_cons_self⟩

theorem textOf_negative {value : Int} (h : value < 0) :
  (textOf (toString value)).bytes = 0x2d :: (textOf (toString value.natAbs)).bytes
  := by
  obtain ⟨n, rfl⟩ := Int.eq_negSucc_of_lt_zero h
  have hrepr : (toString (Int.negSucc n)).toList = '-' :: (toString (n + 1)).toList :=
    String.toList_append
  rw [bytes_textOf, hrepr, List.flatMap_cons, ← bytes_textOf]
  rfl

theorem readNumeral_posInt (value : UInt64) {rest : Bytes} (hrest : Ended rest) :
  readNumeral ((textOf (toString value.toNat)).bytes ++ rest) = some (.posInt value, rest)
  := by
  have hread := readNatural_written value.toNat hrest
  obtain ⟨digit, digits, hbytes, hdigit⟩ := exists_digit value.toNat
  have hminus : ∀ digit < 10, digitByte digit ≠ 0x2d := by decide
  rw [hbytes, List.cons_append] at hread ⊢
  rw [readNumeral, if_neg (hminus digit hdigit), hread]
  change (if value.toNat < 2 ^ 64 then some (JsonNumber.posInt (UInt64.ofNat value.toNat), rest)
    else none) = _
  rw [if_pos value.toNat_lt, UInt64.ofNat_toNat]

theorem readNumeral_negInt (value : Int64) (h : value < 0) {rest : Bytes} (hrest : Ended rest) :
  readNumeral ((textOf (toString value.toInt)).bytes ++ rest) = some (.negInt value h, rest)
  := by
  have hneg : value.toInt < 0 := Int64.lt_iff_toInt_lt.mp h
  have hlow : -2 ^ 63 ≤ value.toInt := value.le_toInt
  have hread := readNatural_written value.toInt.natAbs hrest
  have hvalue : Int64.ofInt (-value.toInt.natAbs) = value := by
    rw [show -(value.toInt.natAbs : Int) = value.toInt by omega]
    exact Int64.ofInt_toInt value
  have hbound : value.toInt.natAbs ≤ 2 ^ 63 := by omega
  rw [textOf_negative hneg, List.cons_append, readNumeral, if_pos rfl, hread]
  change (if h : Int64.ofInt (-value.toInt.natAbs) < 0 ∧ value.toInt.natAbs ≤ 2 ^ 63 then
    some (JsonNumber.negInt (Int64.ofInt (-value.toInt.natAbs)) h.1, rest) else none) = _
  rw [dif_pos ⟨hvalue.symm ▸ h, hbound⟩]
  congr 3

/-! ### Separated elements -/

/-- An element is read from its bytes. -/
def ReadsAs {α : Type} (one : Nat → Bytes → Option (α × Bytes)) (part : Bytes) (value : α) : Prop :=
  ∀ fuel rest, Ended rest → 2 * part.length ≤ fuel → one fuel (part ++ rest) = some (value, rest)

theorem ended_of {byte : UInt8} (hdigit : isDigit byte = false) (hfraction : isFraction byte = false)
    (rest : Bytes) :
  Ended (byte :: rest)
  := by
  intro other hother
  cases Option.some.inj hother
  exact ⟨hdigit, hfraction⟩

/-- What closes a list is neither white space nor a comma, and no number goes on with it. -/
structure Closes (close : UInt8) : Prop where
  blank : isBlank close = false
  comma : close ≠ 0x2c
  digit : isDigit close = false
  fraction : isFraction close = false

/-- The first byte of separated parts is that of the first part. -/
theorem separated_cons (byte : UInt8) (bytes : Bytes) (parts : List Bytes) :
  ∃ rest, separated ((byte :: bytes) :: parts) = byte :: rest
  := by
  cases parts with
  | nil => exact ⟨bytes, rfl⟩
  | cons part parts => exact ⟨_, rfl⟩

section Elements

variable {α β : Type} {one : Nat → Bytes → Option (α × Bytes)}
  {elements : Nat → Bytes → Option (List α × Bytes)} {close : UInt8} {part : β → Bytes}
  {value : β → α} {xs : List β} {fuel : Nat}

theorem readElements_written (hclose : Closes close)
    (helements : ∀ fuel input, elements (fuel + 1) input =
      (one fuel input).bind fun p => readMore close p.1 (elements fuel) p.2)
    (hne : xs ≠ []) (hxs : ∀ x ∈ xs, ReadsAs one (part x) (value x)) (rest : Bytes)
    (hfuel : 2 * (separated (xs.map part)).length < fuel) :
  elements fuel (separated (xs.map part) ++ close :: rest) = some (xs.map value, rest)
  := by
  induction xs generalizing fuel with
  | nil => exact absurd rfl hne
  | cons x xs ih =>
    obtain ⟨hx, hrest⟩ := List.forall_mem_cons.mp hxs
    obtain ⟨fuel, rfl⟩ := Nat.exists_eq_succ_of_ne_zero (Nat.ne_of_gt (Nat.zero_lt_of_lt hfuel))
    cases xs with
    | nil =>
      change elements (fuel + 1) (part x ++ close :: rest) = some ([value x], rest)
      have hlength : 2 * (part x).length < fuel + 1 := hfuel
      rw [helements, hx fuel _ (ended_of hclose.digit hclose.fraction rest) (by omega)]
      exact readMore_close hclose.blank hclose.comma
    | cons next xs =>
      have hsep : separated ((x :: next :: xs).map part) =
          part x ++ 0x2c :: separated ((next :: xs).map part) := rfl
      rw [hsep, List.length_append, List.length_cons] at hfuel
      rw [hsep, List.append_assoc, List.cons_append, helements,
        hx fuel _ (ended_of (by decide) (by decide) _) (by omega)]
      change readMore close (value x) (elements fuel) (0x2c :: _) = _
      rw [readMore_comma, ih (List.cons_ne_nil _ _) hrest (by omega)]
      rfl

/-- Elements between brackets are read. -/
theorem readEnclosed_written (hclose : Closes close)
    (helements : ∀ fuel input, elements (fuel + 1) input =
      (one fuel input).bind fun p => readMore close p.1 (elements fuel) p.2)
    (hfirst : ∀ x ∈ xs, ∃ byte bytes, part x = byte :: bytes ∧ isBlank byte = false ∧ byte ≠ close)
    (hxs : ∀ x ∈ xs, ReadsAs one (part x) (value x)) (rest : Bytes)
    (hfuel : 2 * (separated (xs.map part)).length < fuel) :
  readEnclosed close (elements fuel) (separated (xs.map part) ++ close :: rest) =
    some (xs.map value, rest)
  := by
  cases xs with
  | nil => exact readEnclosed_close hclose.blank
  | cons x xs =>
    have hread := readElements_written hclose helements (List.cons_ne_nil x xs) hxs rest hfuel
    obtain ⟨byte, bytes, hbytes, hblank, hne⟩ := hfirst x List.mem_cons_self
    obtain ⟨tail, htail⟩ := separated_cons byte bytes (xs.map part)
    rw [← hbytes, ← List.map_cons] at htail
    rw [htail, List.cons_append] at hread ⊢
    rw [readEnclosed_elements hblank hne, hread]

end Elements

/-! ### The order of fields -/

/-- A character is not a surrogate. -/
theorem toNat_lt_or (c : Char) :
  c.toNat < 0xd800 ∨ 0xdfff < c.toNat ∧ c.toNat < 0x110000
  := c.valid

theorem utf16Units_append_injective {c d : Char} {cs ds : List Nat}
    (h : utf16Units c ++ cs = utf16Units d ++ ds) :
  c = d ∧ cs = ds
  := by
  have hc := toNat_lt_or c
  have hd := toNat_lt_or d
  have heq : c.toNat = d.toNat → c = d := fun heq => Char.ext (UInt32.toNat_inj.mp heq)
  rw [utf16Units, utf16Units] at h
  split_ifs at h with hsmall hsmall' hsmall'
  · rw [List.singleton_append, List.singleton_append, List.cons.injEq] at h
    exact ⟨heq h.1, h.2⟩
  · rw [List.singleton_append, List.cons_append, List.cons.injEq] at h
    omega
  · rw [List.singleton_append, List.cons_append, List.cons.injEq] at h
    omega
  · rw [List.cons_append, List.cons_append, List.cons_append, List.cons_append, List.cons.injEq,
      List.cons.injEq] at h
    exact ⟨heq (by omega), h.2.2⟩

/-- Texts with the same code units are the same. -/
theorem encodeUtf16_injective :
  Function.Injective encodeUtf16
  := by
  have hchars : Function.Injective fun chars : List Char => chars.flatMap utf16Units := by
    intro cs ds h
    have hne : ∀ c : Char, utf16Units c ≠ [] := by
      intro c
      rw [utf16Units]
      split_ifs <;> exact List.cons_ne_nil _ _
    induction cs generalizing ds with
    | nil =>
      cases ds with
      | nil => rfl
      | cons d ds => exact absurd (List.append_eq_nil_iff.mp h.symm).1 (hne d)
    | cons c cs ih =>
      cases ds with
      | nil => exact absurd (List.append_eq_nil_iff.mp h).1 (hne c)
      | cons d ds =>
        obtain ⟨rfl, hrest⟩ := utf16Units_append_injective h
        rw [ih hrest]
  intro a b h
  have hstring := String.toList_inj.mp (hchars h)
  have hbytes := congrArg (fun string => string.toByteArray.data.toList) hstring
  exact Text.ext hbytes

/-- Fields in the order of the code units of their keys. -/
def utf16Ordered {V : Type} (fields : List (Text × V)) : List (Text × V) :=
  fields.insertionSort fun a b => encodeUtf16 a.1 ≤ encodeUtf16 b.1

section Ordered

variable {V W : Type} {fields : List (Text × V)}

theorem utf16Ordered_perm (fields : List (Text × V)) :
  (utf16Ordered fields).Perm fields
  := List.perm_insertionSort _ fields

theorem utf16Ordered_le (fields : List (Text × V)) :
  (utf16Ordered fields).Pairwise fun a b => encodeUtf16 a.1 ≤ encodeUtf16 b.1
  := by
  have htotal : Std.Total fun a b : Text × V => encodeUtf16 a.1 ≤ encodeUtf16 b.1 :=
    ⟨fun a b => le_total _ _⟩
  have htrans : IsTrans (Text × V) fun a b => encodeUtf16 a.1 ≤ encodeUtf16 b.1 :=
    ⟨fun a b c => le_trans⟩
  exact List.pairwise_insertionSort _ fields

/-- Fields with distinct keys are in strict order. -/
theorem utf16Ordered_lt (h : Distinct fields) :
  (utf16Ordered fields).Pairwise fun a b => encodeUtf16 a.1 < encodeUtf16 b.1
  := by
  have hne := h.perm (utf16Ordered_perm fields).symm
  apply (utf16Ordered_le fields).imp₂ _ hne
  exact fun a b hle hne => lt_of_le_of_ne hle fun heq => hne (encodeUtf16_injective heq)

/-- The order in which fields stand does not matter. -/
theorem utf16Ordered_eq {others : List (Text × V)} (h : Distinct fields)
    (hperm : others.Perm fields) :
  utf16Ordered others = utf16Ordered fields
  := by
  apply ((utf16Ordered_perm others).trans (hperm.trans
    (utf16Ordered_perm fields).symm)).eq_of_pairwise _ (utf16Ordered_lt (h.perm hperm.symm))
    (utf16Ordered_lt h)
  exact fun a b _ _ hab hba => absurd hba hab.asymm

theorem utf16Ordered_map (f : V → W) (fields : List (Text × V)) :
  utf16Ordered (fields.map fun field => (field.1, f field.2)) =
    (utf16Ordered fields).map fun field => (field.1, f field.2)
  := (List.map_insertionSort _ _ (fun field : Text × V => (field.1, f field.2)) fields
    fun _ _ _ _ => Iff.rfl).symm

end Ordered

/-! ### Values -/

/-- The values whose numbers are integers of 64 bits and whose objects have no key twice. -/
inductive IntegerJson : Json → Prop where
  | null : IntegerJson .null
  | bool (value : Bool) : IntegerJson (.bool value)
  | posInt (value : UInt64) : IntegerJson (.number (.posInt value))
  | negInt (value : Int64) (negative : value < 0) : IntegerJson (.number (.negInt value negative))
  | string (value : Text) : IntegerJson (.string value)
  | array {items : List Json} (h : ∀ item ∈ items, IntegerJson item) : IntegerJson (.array items)
  | object {fields : List (Text × Json)} (hdistinct : Distinct fields)
    (h : ∀ field ∈ fields, IntegerJson field.2) : IntegerJson (.object fields)

mutual

/-- A value with the fields of all objects in the order of their keys. -/
def byKey : Json → Json
  | .null => .null
  | .bool value => .bool value
  | .number value => .number value
  | .string value => .string value
  | .array items => .array (itemsByKey items)
  | .object fields => .object (collect (fieldsByKey fields))

def itemsByKey : List Json → List Json
  | [] => []
  | item :: items => byKey item :: itemsByKey items

def fieldsByKey : List (Text × Json) → List (Text × Json)
  | [] => []
  | (key, value) :: fields => (key, byKey value) :: fieldsByKey fields

end

theorem itemsByKey_eq (items : List Json) :
  itemsByKey items = items.map byKey
  := by
  induction items with
  | nil => rfl
  | cons item items ih => rw [itemsByKey, ih, List.map_cons]

theorem fieldsByKey_eq (fields : List (Text × Json)) :
  fieldsByKey fields = fields.map fun field => (field.1, byKey field.2)
  := by
  induction fields with
  | nil => rfl
  | cons field fields ih => rw [fieldsByKey, ih, List.map_cons]

theorem byKey_array (items : List Json) :
  byKey (.array items) = .array (items.map byKey)
  := by rw [byKey, itemsByKey_eq]

theorem byKey_object (fields : List (Text × Json)) :
  byKey (.object fields) = .object (collect (fields.map fun field => (field.1, byKey field.2)))
  := by rw [byKey, fieldsByKey_eq]

variable {floatText : UInt64 → Bytes}

theorem canonicalizeItems_eq (items : List Json) :
  canonicalizeItems floatText items = items.map (canonicalize floatText)
  := by
  induction items with
  | nil => rfl
  | cons item items ih => rw [canonicalizeItems, ih, List.map_cons]

theorem canonicalizeFields_eq (fields : List (Text × Json)) :
  canonicalizeFields floatText fields =
    fields.map fun field => (field.1, canonicalize floatText field.2)
  := by
  induction fields with
  | nil => rfl
  | cons field fields ih => rw [canonicalizeFields, ih, List.map_cons]

/-- A field as it stands in an object. -/
def member (floatText : UInt64 → Bytes) (field : Text × Json) : Bytes :=
  writeJsonString field.1 ++ 0x3a :: canonicalize floatText field.2

theorem canonicalize_array (items : List Json) :
  canonicalize floatText (.array items) =
    0x5b :: separated (items.map (canonicalize floatText)) ++ [0x5d]
  := by rw [canonicalize, canonicalizeItems_eq]

/-- The fields of an object are written in the order of the code units of their keys. -/
theorem canonicalize_object (fields : List (Text × Json)) :
  canonicalize floatText (.object fields) =
    0x7b :: separated ((utf16Ordered fields).map (member floatText)) ++ [0x7d]
  := by
  have hsort : sortFields (canonicalizeFields floatText fields) =
      (utf16Ordered fields).map fun field => (field.1, canonicalize floatText field.2) := by
    rw [canonicalizeFields_eq]
    exact utf16Ordered_map _ fields
  rw [canonicalize, hsort, List.map_map]
  rfl

/-- The first byte is neither white space nor a closing bracket. -/
theorem IntegerJson.exists_first {value : Json} (h : IntegerJson value) :
  ∃ byte rest, canonicalize floatText value = byte :: rest ∧ isBlank byte = false ∧ byte ≠ 0x5d
  := by
  have hdigit : ∀ digit < 10, isBlank (digitByte digit) = false ∧ digitByte digit ≠ 0x5d := by
    decide
  cases h with
  | null => exact ⟨0x6e, [0x75, 0x6c, 0x6c], rfl, rfl, by decide⟩
  | bool value =>
    cases value with
    | false => exact ⟨0x66, [0x61, 0x6c, 0x73, 0x65], rfl, rfl, by decide⟩
    | true => exact ⟨0x74, [0x72, 0x75, 0x65], rfl, rfl, by decide⟩
  | posInt value =>
    obtain ⟨digit, rest, hbytes, hlt⟩ := exists_digit value.toNat
    exact ⟨digitByte digit, rest, hbytes, hdigit digit hlt⟩
  | negInt value negative =>
    exact ⟨0x2d, _, textOf_negative (Int64.lt_iff_toInt_lt.mp negative), rfl, by decide⟩
  | string value => exact ⟨0x22, _, rfl, rfl, by decide⟩
  | array h => exact ⟨0x5b, _, canonicalize_array _, rfl, by decide⟩
  | object hdistinct h => exact ⟨0x7b, _, canonicalize_object _, rfl, by decide⟩

theorem reads_number {number : JsonNumber} {first : UInt8} {digits : Bytes}
    (hbytes : writeNumber floatText number = first :: digits) (hblank : isBlank first = false)
    (hfirst : isDigit first = true ∨ first = 0x2d)
    (hread : ∀ rest, Ended rest →
      readNumeral (writeNumber floatText number ++ rest) = some (number, rest)) :
  ReadsAs readValue (canonicalize floatText (.number number)) (.number number)
  := by
  intro fuel rest hrest hfuel
  have hcanonical : canonicalize floatText (.number number) = writeNumber floatText number := rfl
  rw [hcanonical] at hfuel ⊢
  have hread := hread rest hrest
  rw [hbytes] at hfuel hread ⊢
  rw [List.length_cons] at hfuel
  obtain ⟨fuel, rfl⟩ := Nat.exists_eq_succ_of_ne_zero (show fuel ≠ 0 by omega)
  have hother : ∀ byte : UInt8, isDigit byte = true ∨ byte = 0x2d →
      byte ≠ 0x22 ∧ byte ≠ 0x5b ∧ byte ≠ 0x7b ∧ byte ≠ 0x6e ∧ byte ≠ 0x74 ∧ byte ≠ 0x66 := by
    rintro byte (hdigit | rfl)
    · refine ⟨?_, ?_, ?_, ?_, ?_, ?_⟩ <;> rintro rfl <;> exact absurd hdigit (by decide)
    · decide
  obtain ⟨h1, h2, h3, h4, h5, h6⟩ := hother first hfirst
  rw [List.cons_append] at hread ⊢
  rw [readValue_cons hblank, if_neg h1, if_neg h2, if_neg h3, if_neg h4, if_neg h5, if_neg h6,
    hread]
  rfl

theorem reads_string (text : Text) :
  ReadsAs readValue (canonicalize floatText (.string text)) (.string text)
  := by
  intro fuel rest _ hfuel
  have hcanonical : canonicalize floatText (.string text) ++ rest =
      0x22 :: (text.bytes.flatMap escapeByte ++ 0x22 :: rest) := by
    rw [canonicalize, writeJsonString, List.cons_append, List.cons_append, List.append_assoc]
    rfl
  have hpos : 0 < (canonicalize floatText (.string text)).length := Nat.succ_pos _
  obtain ⟨fuel, rfl⟩ := Nat.exists_eq_succ_of_ne_zero (show fuel ≠ 0 by omega)
  rw [hcanonical, readValue_cons (by decide), if_pos rfl, readQuoted_written]
  rfl

theorem closes_bracket :
  Closes 0x5d
  := ⟨rfl, by decide, rfl, rfl⟩

theorem closes_brace :
  Closes 0x7d
  := ⟨rfl, by decide, rfl, rfl⟩

theorem reads_array {items : List Json} (hitems : ∀ item ∈ items, IntegerJson item)
    (h : ∀ item ∈ items, ReadsAs readValue (canonicalize floatText item) (byKey item)) :
  ReadsAs readValue (canonicalize floatText (.array items)) (byKey (.array items))
  := by
  intro fuel rest _ hfuel
  rw [canonicalize_array, List.cons_append, List.length_cons, List.length_append,
    List.length_singleton] at hfuel
  obtain ⟨fuel, rfl⟩ := Nat.exists_eq_succ_of_ne_zero (show fuel ≠ 0 by omega)
  have hfirst : ∀ item ∈ items, ∃ byte bytes,
      canonicalize floatText item = byte :: bytes ∧ isBlank byte = false ∧ byte ≠ 0x5d :=
    fun item hitem => (hitems item hitem).exists_first
  have henclosed := readEnclosed_written closes_bracket (fun _ _ => readItems_succ) hfirst h rest
    (show _ < fuel by omega)
  rw [canonicalize_array, List.cons_append, List.cons_append, List.append_assoc,
    readValue_cons (by decide), if_neg (by decide), if_pos rfl]
  change (readEnclosed 0x5d (readItems fuel)
    (separated (items.map (canonicalize floatText)) ++ 0x5d :: rest)).map _ = _
  rw [henclosed, byKey_array]
  rfl

theorem reads_member {field : Text × Json}
    (h : ReadsAs readValue (canonicalize floatText field.2) (byKey field.2)) :
  ReadsAs readField (member floatText field) (field.1, byKey field.2)
  := by
  intro fuel rest hrest hfuel
  have hmember : member floatText field ++ rest = 0x22 :: (field.1.bytes.flatMap escapeByte ++
      0x22 :: 0x3a :: (canonicalize floatText field.2 ++ rest)) := by
    rw [member, writeJsonString]
    simp only [List.append_assoc, List.cons_append, List.nil_append]
  have hlength : (canonicalize floatText field.2).length ≤ (member floatText field).length := by
    rw [member, List.length_append, List.length_cons]
    omega
  have hkey : readKey (0x22 :: (field.1.bytes.flatMap escapeByte ++
      0x22 :: 0x3a :: (canonicalize floatText field.2 ++ rest))) =
        some (field.1, canonicalize floatText field.2 ++ rest) := by
    rw [readKey, if_pos rfl, readQuoted_written, Option.bind_eq_bind, Option.bind_some]
    dsimp only
    rw [skipSpace_cons (by decide)]
    rfl
  rw [hmember, readField, skipSpace_cons (by decide), hkey]
  change (readValue fuel (canonicalize floatText field.2 ++ rest)).map _ = _
  rw [h fuel rest hrest (by omega)]
  rfl

/-- Fields in another order are the same map. -/
theorem collect_perm {V : Type} {fields others : List (Text × V)} (h : Distinct fields)
    (hperm : others.Perm fields) :
  collect others = collect fields
  := by
  obtain ⟨hsorted, hcollect⟩ := collect_spec h
  exact collect_eq hsorted (hperm.trans hcollect.symm)

theorem distinct_map {V W : Type} {fields : List (Text × V)} (h : Distinct fields) (f : V → W) :
  Distinct (fields.map fun field => (field.1, f field.2))
  := List.pairwise_map.mpr (h.imp fun hne => hne)

theorem reads_object {fields : List (Text × Json)} (hdistinct : Distinct fields)
    (h : ∀ field ∈ fields, ReadsAs readValue (canonicalize floatText field.2) (byKey field.2)) :
  ReadsAs readValue (canonicalize floatText (.object fields)) (byKey (.object fields))
  := by
  intro fuel rest _ hfuel
  rw [canonicalize_object, List.cons_append, List.length_cons, List.length_append,
    List.length_singleton] at hfuel
  obtain ⟨fuel, rfl⟩ := Nat.exists_eq_succ_of_ne_zero (show fuel ≠ 0 by omega)
  have hfirst : ∀ field ∈ utf16Ordered fields, ∃ byte bytes,
      member floatText field = byte :: bytes ∧ isBlank byte = false ∧ byte ≠ 0x7d :=
    fun field _ => ⟨0x22, _, rfl, rfl, by decide⟩
  have hmembers : ∀ field ∈ utf16Ordered fields,
      ReadsAs readField (member floatText field) (field.1, byKey field.2) :=
    fun field hfield => reads_member (h field ((utf16Ordered_perm fields).subset hfield))
  have henclosed := readEnclosed_written closes_brace (fun _ _ => readFields_succ) hfirst hmembers
    rest (show _ < fuel by omega)
  have hcollect : collect ((utf16Ordered fields).map fun field => (field.1, byKey field.2)) =
      collect (fields.map fun field => (field.1, byKey field.2)) :=
    collect_perm (distinct_map hdistinct byKey) ((utf16Ordered_perm fields).map _)
  rw [canonicalize_object, List.cons_append, List.cons_append, List.append_assoc,
    readValue_cons (by decide), if_neg (by decide), if_neg (by decide), if_pos rfl]
  change (readEnclosed 0x7d (readFields fuel)
    (separated ((utf16Ordered fields).map (member floatText)) ++ 0x7d :: rest)).map _ = _
  rw [henclosed, byKey_object, ← hcollect]
  rfl

theorem reads_word {value : Json} {first : UInt8} {word : Bytes}
    (hbytes : canonicalize floatText value = first :: word)
    (hread : ∀ fuel rest, readValue (fuel + 1) (first :: word ++ rest) = some (value, rest)) :
  ReadsAs readValue (canonicalize floatText value) value
  := by
  intro fuel rest _ hfuel
  rw [hbytes, List.length_cons] at hfuel
  obtain ⟨fuel, rfl⟩ := Nat.exists_eq_succ_of_ne_zero (show fuel ≠ 0 by omega)
  rw [hbytes]
  exact hread fuel rest

/-- What is written in canonical form is read. -/
theorem IntegerJson.reads {value : Json} (h : IntegerJson value) :
  ReadsAs readValue (canonicalize floatText value) (byKey value)
  := by
  induction h with
  | null =>
    refine @reads_word _ .null 0x6e [0x75, 0x6c, 0x6c] rfl fun fuel rest => ?_
    rw [List.cons_append, readValue_cons (by decide)]
    rfl
  | bool value =>
    cases value with
    | false =>
      refine @reads_word _ (.bool false) 0x66 [0x61, 0x6c, 0x73, 0x65] rfl fun fuel rest => ?_
      rw [List.cons_append, readValue_cons (by decide)]
      rfl
    | true =>
      refine @reads_word _ (.bool true) 0x74 [0x72, 0x75, 0x65] rfl fun fuel rest => ?_
      rw [List.cons_append, readValue_cons (by decide)]
      rfl
  | posInt value =>
    obtain ⟨digit, digits, hbytes, hlt⟩ := exists_digit value.toNat
    have hdigit : ∀ digit < 10, isBlank (digitByte digit) = false ∧
        isDigit (digitByte digit) = true := by decide
    exact reads_number hbytes (hdigit digit hlt).1 (.inl (hdigit digit hlt).2)
      fun rest hrest => readNumeral_posInt value hrest
  | negInt value negative =>
    exact reads_number (textOf_negative (Int64.lt_iff_toInt_lt.mp negative)) rfl (.inr rfl)
      fun rest hrest => readNumeral_negInt value negative hrest
  | string text => exact reads_string text
  | array hitems ih => exact reads_array hitems ih
  | object hdistinct _ ih => exact reads_object hdistinct ih

/-- The canonical form of a value is read as the value. -/
theorem IntegerJson.parse_canonicalize {value : Json} (h : IntegerJson value) :
  parse (canonicalize floatText value) = some (byKey value)
  := by
  have hread := @IntegerJson.reads floatText value h (2 * (canonicalize floatText value).length) []
    (by intro byte hbyte; cases hbyte) (le_refl _)
  rw [List.append_nil] at hread
  rw [parse, hread]
  rfl

/-! ### The order of fields does not matter -/

/-- Values that differ in the order of the fields of objects only. -/
inductive Reordered : Json → Json → Prop where
  | refl (value : Json) : Reordered value value
  | trans {a b c : Json} (hab : Reordered a b) (hbc : Reordered b c) : Reordered a c
  | fields {fields others : List (Text × Json)} (h : others.Perm fields) :
    Reordered (.object fields) (.object others)
  | item (before after : List Json) {a b : Json} (h : Reordered a b) :
    Reordered (.array (before ++ a :: after)) (.array (before ++ b :: after))
  | value (before after : List (Text × Json)) (key : Text) {a b : Json} (h : Reordered a b) :
    Reordered (.object (before ++ (key, a) :: after)) (.object (before ++ (key, b) :: after))

theorem Reordered.symm {a b : Json} (h : Reordered a b) :
  Reordered b a
  := by
  induction h with
  | refl value => exact .refl value
  | trans _ _ ihab ihbc => exact .trans ihbc ihab
  | fields h => exact .fields h.symm
  | item before after _ ih => exact .item before after ih
  | value before after key _ ih => exact .value before after key ih

theorem distinct_iff_nodup {V : Type} {fields : List (Text × V)} :
  Distinct fields ↔ (fields.map Prod.fst).Nodup
  := List.pairwise_map.symm

/-- The canonical form does not depend on the order of fields. -/
theorem Reordered.canonicalize_eq {a b : Json} (h : Reordered a b) (ha : IntegerJson a) :
  IntegerJson b ∧ canonicalize floatText a = canonicalize floatText b
  := by
  induction h with
  | refl value => exact ⟨ha, rfl⟩
  | trans _ _ ihab ihbc =>
    obtain ⟨hb, hab⟩ := ihab ha
    obtain ⟨hc, hbc⟩ := ihbc hb
    exact ⟨hc, hab.trans hbc⟩
  | fields hperm =>
    cases ha with
    | object hdistinct hvalues =>
      constructor
      · exact .object (hdistinct.perm hperm.symm) fun field hfield =>
          hvalues field (hperm.subset hfield)
      · rw [canonicalize_object, canonicalize_object, utf16Ordered_eq hdistinct hperm]
  | item before after _ ih =>
    cases ha with
    | array hitems =>
      rw [List.forall_mem_append, List.forall_mem_cons] at hitems
      obtain ⟨hb, hab⟩ := ih hitems.2.1
      constructor
      · apply IntegerJson.array
        rw [List.forall_mem_append, List.forall_mem_cons]
        exact ⟨hitems.1, hb, hitems.2.2⟩
      · rw [canonicalize_array, canonicalize_array, List.map_append, List.map_append,
          List.map_cons, List.map_cons, hab]
  | value before after key _ ih =>
    cases ha with
    | object hdistinct hvalues =>
      rw [List.forall_mem_append, List.forall_mem_cons] at hvalues
      obtain ⟨hb, hab⟩ := ih hvalues.2.1
      constructor
      · apply IntegerJson.object
        · rw [distinct_iff_nodup, List.map_append, List.map_cons] at hdistinct ⊢
          exact hdistinct
        · rw [List.forall_mem_append, List.forall_mem_cons]
          exact ⟨hvalues.1, hb, hvalues.2.2⟩
      · rw [canonicalize, canonicalize, canonicalizeFields_eq, canonicalizeFields_eq,
          List.map_append, List.map_append, List.map_cons, List.map_cons, hab]

theorem Reordered.items {items : List Json} (h : ∀ item ∈ items, Reordered item (byKey item))
    (before : List Json) :
  Reordered (.array (before ++ items)) (.array (before ++ items.map byKey))
  := by
  induction items generalizing before with
  | nil => exact .refl _
  | cons item items ih =>
    obtain ⟨hitem, hitems⟩ := List.forall_mem_cons.mp h
    have hrest := ih hitems (before ++ [byKey item])
    rw [List.append_assoc, List.append_assoc] at hrest
    exact .trans (.item before items hitem) hrest

theorem Reordered.values {fields : List (Text × Json)}
    (h : ∀ field ∈ fields, Reordered field.2 (byKey field.2)) (before : List (Text × Json)) :
  Reordered (.object (before ++ fields))
    (.object (before ++ fields.map fun field => (field.1, byKey field.2)))
  := by
  induction fields generalizing before with
  | nil => exact .refl _
  | cons field fields ih =>
    obtain ⟨hfield, hfields⟩ := List.forall_mem_cons.mp h
    have hrest := ih hfields (before ++ [(field.1, byKey field.2)])
    rw [List.append_assoc, List.append_assoc] at hrest
    exact .trans (.value before fields field.1 hfield) hrest

theorem IntegerJson.reordered_byKey {value : Json} (h : IntegerJson value) :
  Reordered value (byKey value)
  := by
  induction h with
  | null => exact .refl _
  | bool value => exact .refl _
  | posInt value => exact .refl _
  | negInt value negative => exact .refl _
  | string text => exact .refl _
  | array _ ih =>
    rw [byKey_array]
    exact Reordered.items ih []
  | object hdistinct _ ih =>
    rw [byKey_object]
    exact .trans (Reordered.values ih [])
      (.fields (collect_spec (distinct_map hdistinct byKey)).2)

theorem IntegerJson.nodes {value : Json} (h : IntegerJson value) :
  ∀ node ∈ value.nodes, IntegerJson node
  := by
  induction h with
  | null => simpa [Json.nodes] using IntegerJson.null
  | bool value => simpa [Json.nodes] using IntegerJson.bool value
  | posInt value => simpa [Json.nodes] using IntegerJson.posInt value
  | negInt value negative => simpa [Json.nodes] using IntegerJson.negInt value negative
  | string text => simpa [Json.nodes] using IntegerJson.string text
  | array hitems ih =>
    rw [Json.nodes, List.forall_mem_cons, Json.forall_nodesOfItems]
    exact ⟨.array hitems, ih⟩
  | object hdistinct hvalues ih =>
    rw [Json.nodes, List.forall_mem_cons, Json.forall_nodesOfFields]
    exact ⟨.object hdistinct hvalues, ih⟩

/-- The canonical form of a value whose numbers are integers is read as the value, and it is that
of the values that differ in the order of fields and of no others.  At every level the fields of an
object are written in the order of the UTF-16 code units of their keys. -/
theorem canonicalize_canonical (floatText : UInt64 → Bytes) {value : Json}
    (h : IntegerJson value) :
  (parse (canonicalize floatText value) = some (byKey value) ∧ Reordered value (byKey value)) ∧
  (∀ other, Reordered value other →
    canonicalize floatText other = canonicalize floatText value) ∧
  (∀ other, IntegerJson other → canonicalize floatText value = canonicalize floatText other →
    Reordered value other) ∧
  ∀ fields, .object fields ∈ value.nodes → ∃ ordered : List (Text × Json), ordered.Perm fields ∧
    (ordered.Pairwise fun a b => encodeUtf16 a.1 < encodeUtf16 b.1) ∧
    canonicalize floatText (.object fields) =
      0x7b :: separated (ordered.map fun field =>
        writeJsonString field.1 ++ 0x3a :: canonicalize floatText field.2) ++ [0x7d]
  := by
  refine ⟨⟨h.parse_canonicalize, h.reordered_byKey⟩, ?_, ?_, ?_⟩
  · exact fun other hother => (hother.canonicalize_eq h).2.symm
  · intro other hother heq
    have hparse := @IntegerJson.parse_canonicalize floatText value h
    rw [heq, hother.parse_canonicalize, Option.some.injEq] at hparse
    exact .trans h.reordered_byKey (hparse ▸ hother.reordered_byKey.symm)
  · intro fields hfields
    cases h.nodes _ hfields with
    | object hdistinct _ =>
      exact ⟨utf16Ordered fields, utf16Ordered_perm fields, utf16Ordered_lt hdistinct,
        canonicalize_object fields⟩

/-- An object whose fields do not stand in the order of their keys.  The last key comes before the
first one in UTF-16, and after it as bytes. -/
def sampleObject : Json :=
  .object [(textOf "\uff41", .array [.number (.posInt 7), .null]), (textOf "a", .string (textOf "\n")),
    (textOf "𐀀", .object [(textOf "d", .bool true), (textOf "c", .number (.posInt 12))])]

theorem sampleObject_integer :
  IntegerJson sampleObject
  := by
  apply IntegerJson.object
  · exact List.pairwise_cons.mpr ⟨by decide, List.pairwise_pair.mpr (by decide)⟩
  · rw [List.forall_mem_cons, List.forall_mem_cons, List.forall_mem_singleton]
    refine ⟨.array ?_, .string _, .object (List.pairwise_pair.mpr (by decide)) ?_⟩
    · rw [List.forall_mem_cons, List.forall_mem_singleton]
      exact ⟨.posInt 7, .null⟩
    · rw [List.forall_mem_cons, List.forall_mem_singleton]
      exact ⟨.bool true, .posInt 12⟩

example : canonicalize (fun _ => []) sampleObject =
    (textOf "\x7b\"a\":\"\\n\",\"𐀀\":\x7b\"c\":12,\"d\":true\x7d,\"\uff41\":[7,null]\x7d").bytes
  := by
  decide +kernel

theorem canonicalize_sample :
  (parse (canonicalize (fun _ => []) sampleObject) = some (byKey sampleObject) ∧
    Reordered sampleObject (byKey sampleObject)) ∧
  (∀ other, Reordered sampleObject other →
    canonicalize (fun _ => []) other = canonicalize (fun _ => []) sampleObject) ∧
  (∀ other, IntegerJson other →
    canonicalize (fun _ => []) sampleObject = canonicalize (fun _ => []) other →
      Reordered sampleObject other) ∧
  ∀ fields, .object fields ∈ sampleObject.nodes → ∃ ordered : List (Text × Json),
    ordered.Perm fields ∧
    (ordered.Pairwise fun a b => encodeUtf16 a.1 < encodeUtf16 b.1) ∧
    canonicalize (fun _ => []) (.object fields) =
      0x7b :: separated (ordered.map fun field =>
        writeJsonString field.1 ++ 0x3a :: canonicalize (fun _ => []) field.2) ++ [0x7d]
  := canonicalize_canonical _ sampleObject_integer

end Atproto.Identity.Webvh
