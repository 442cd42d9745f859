import Atproto.Dasl.Multiformats
import Atproto.Json.Convert
import Atproto.Wire.Base
import Mathlib.Data.List.DropRight

/-!
# Text forms

Version 0 of a CID is written in base 58 and version 1 in base 32 with the letter `b` in
front.  Byte strings are written in base 64 without padding, and padding is accepted.  These
forms have what is relied on in the text forms of CIDs and byte strings.
-/

namespace Atproto

open Dasl Repo Wire

/-! ### Alphabets -/

/-- The letters of base 32. -/
def base32Letters : Bytes := (textOf "abcdefghijklmnopqrstuvwxyz234567").bytes

/-- The letters of base 58. -/
def base58Letters : Bytes :=
  (textOf "123456789ABCDEFGHJKLMNPQRSTUVWXYZabcdefghijkmnopqrstuvwxyz").bytes

/-- The letters of base 64. -/
def base64Letters : Bytes :=
  (textOf "ABCDEFGHIJKLMNOPQRSTUVWXYZabcdefghijklmnopqrstuvwxyz0123456789+/").bytes

/-- Letters with distinct ASCII codes. -/
theorem letters_spec {letters : Bytes} {codes : List Nat} {n : Nat}
    (hcodes : letters.map UInt8.toNat = codes) (hnodup : codes.Nodup) (hlength : codes.length = n)
    (hascii : (codes.all fun code => decide (code < 0x80)) = true) :
  letters.Nodup ∧ letters.length = n ∧ ∀ byte ∈ letters, byte.toNat < 0x80
  := by
  subst hcodes
  rw [List.length_map] at hlength
  refine ⟨hnodup.of_map _, hlength, ?_⟩
  intro byte hbyte
  exact of_decide_eq_true (List.all_eq_true.mp hascii _ (List.mem_map_of_mem hbyte))

theorem base32Letters_spec :
  base32Letters.Nodup ∧ base32Letters.length = 2 ^ 5 ∧ ∀ byte ∈ base32Letters, byte.toNat < 0x80
  := by
  apply @letters_spec _ (List.range' 0x61 26 ++ List.range' 0x32 6)
  · rfl
  · decide
  · rfl
  · rfl

theorem base58Letters_spec :
  base58Letters.Nodup ∧ base58Letters.length = 58 ∧ ∀ byte ∈ base58Letters, byte.toNat < 0x80
  := by
  apply @letters_spec _ (List.range' 0x31 9 ++ List.range' 0x41 8 ++ List.range' 0x4a 5 ++
    List.range' 0x50 11 ++ List.range' 0x61 11 ++ List.range' 0x6d 14)
  · rfl
  · decide
  · rfl
  · rfl

theorem base64Letters_spec :
  base64Letters.Nodup ∧ base64Letters.length = 2 ^ 6 ∧ ∀ byte ∈ base64Letters, byte.toNat < 0x80
  := by
  apply @letters_spec _ (List.range' 0x41 26 ++ List.range' 0x61 26 ++ List.range' 0x30 10 ++
    [0x2b, 0x2f])
  · rfl
  · decide
  · rfl
  · rfl

/-- The letters of some digits are ASCII. -/
theorem isUtf8_spell {letters : Bytes} (hascii : ∀ byte ∈ letters, byte.toNat < 0x80)
    {digits : List Nat} (hdigits : ∀ digit ∈ digits, digit < letters.length) :
  IsUtf8 (spell letters digits)
  := isUtf8_of_ascii fun _ h => hascii _ (mem_of_mem_spell hdigits h)

/-! ### Byte strings -/

/-- The padding of base 64. -/
def base64Padding : UInt8 := 0x3d

theorem base64_digits {data : Bytes} {digit : Nat} (h : digit ∈ toDigits 6 data) :
  digit < base64Letters.length
  := by
  rw [base64Letters_spec.2.1]
  exact lt_of_mem_toDigits h

/-- Write a byte string in base 64 without padding. -/
def base64Encode (data : Bytes) : Text where
  bytes := spell base64Letters (toDigits 6 data)
  utf8 := isUtf8_spell base64Letters_spec.2.2 fun _ => base64_digits

/-- Read a byte string in base 64.  Padding may be left out, and fills at most the last four letters. -/
def base64Decode (text : Text) : Except String Bytes :=
  let letters := text.bytes.rdropWhile (· = base64Padding)
  let padding := text.bytes.length - letters.length
  match unspell base64Letters letters with
  | some digits =>
    if digits.length % 4 = 1 then .error "Invalid input length"
    else if 0 < padding ∧ (digits.length % 4 = 0 ∨ 4 < digits.length % 4 + padding) then
      .error "Invalid symbol"
    else .ok (ofDigits 6 digits)
  | none => .error "Invalid symbol"

theorem base64Decode_base64Encode (data : Bytes) :
  base64Decode (base64Encode data) = .ok data
  := by
  have hpadding : (spell base64Letters (toDigits 6 data)).rdropWhile (· = base64Padding) =
      spell base64Letters (toDigits 6 data) := by
    rw [List.rdropWhile_eq_self_iff]
    intro hne hlast
    have hmem := mem_of_mem_spell (fun _ => base64_digits) (List.getLast_mem hne)
    rw [of_decide_eq_true hlast] at hmem
    exact absurd hmem (by decide)
  have hlength : (toDigits 6 data).length % 4 ≠ 1 := by
    rw [toDigits, List.length_map, groups_length_count]
    omega
  rw [base64Decode, base64Encode, hpadding,
    unspell_spell base64Letters_spec.1 fun _ => base64_digits]
  simp only [Nat.sub_self, Nat.lt_irrefl, false_and, if_false]
  rw [if_neg hlength, ofDigits_toDigits (by decide) (by decide)]

/-! ### Content identifiers -/

theorem base32_digits {data : Bytes} {digit : Nat} (h : digit ∈ toDigits 5 data) :
  digit < base32Letters.length
  := by
  rw [base32Letters_spec.2.1]
  exact lt_of_mem_toDigits h

/-- Write bytes in base 32, with its letter in front. -/
def base32Text (data : Bytes) : Text where
  bytes := base32Lower :: spell base32Letters (toDigits 5 data)
  utf8 := by
    have hletter : IsUtf8 [base32Lower] :=
      isUtf8_of_ascii (List.forall_mem_singleton.mpr (by decide))
    exact Text.isUtf8_append hletter (isUtf8_spell base32Letters_spec.2.2 fun _ => base32_digits)

/-- The number of letters of version 0. -/
def v0Letters : Nat := 46

theorem base58_digits {value digit : Nat} (h : digit ∈ digitsOf 58 v0Letters value) :
  digit < base58Letters.length
  := by
  rw [base58Letters_spec.2.1]
  exact lt_of_mem_digitsOf (by decide) h

/-- Write the bytes of version 0 in base 58. -/
def base58Text (data : Bytes) : Text where
  bytes := spell base58Letters (digitsOf 58 v0Letters (beValue data))
  utf8 := isUtf8_spell base58Letters_spec.2.2 fun _ => base58_digits

/-- Write a CID. -/
def multibaseToString (cid : Cid) : Text :=
  match cid.version with
  | .v0 => base58Text (multiformatsToBytes cid)
  | .v1 => base32Text (multiformatsToBytes cid)

/-- Read a CID: the bytes are in base 32 after its letter, and otherwise in base 58. -/
def multibaseParse (text : Text) : Except String Cid :=
  match text.bytes with
  | [] => .error "Input too short"
  | letter :: letters =>
    if letter = base32Lower then
      match unspell base32Letters letters with
      | some digits => multiformatsParse (ofDigits 5 digits)
      | none => .error "Failed to parse multibase"
    else
      match unspell base58Letters (letter :: letters) with
      | some digits => multiformatsParse (beBytes 34 (valueOf 58 digits))
      | none => .error "Failed to parse multibase"

/-- The bytes of version 0 begin with two known ones. -/
theorem v0_value {digest : Bytes} (h : digest.length = 32) :
  (v0Prefix ++ digest).length = 34 ∧ beValue (v0Prefix ++ digest) / 58 ^ 45 = 23
  := by
  have hlt := beValue_lt digest
  rw [h] at hlt
  have hvalue : beValue (v0Prefix ++ digest) =
      0x12 * 256 ^ 33 + (0x20 * 256 ^ 32 + beValue digest) := by
    change beValue (0x12 :: 0x20 :: digest) = _
    rw [beValue, beValue, List.length_cons, h]
    rfl
  refine ⟨by simp [v0Prefix, h], ?_⟩
  rw [hvalue]
  omega

theorem base58_head {digest : Bytes} (h : digest.length = 32) :
  (base58Text (v0Prefix ++ digest)).bytes.head? = some 0x51
  := by
  have hlead : beValue (v0Prefix ++ digest) / 58 ^ 45 % 58 = 23 := by rw [(v0_value h).2]
  change (spell base58Letters (digitsOf 58 (45 + 1) (beValue (v0Prefix ++ digest)))).head? = _
  rw [digitsOf, hlead, spell, List.map_cons, List.head?_cons]
  rfl

/-- Version 0 is read back. -/
theorem multibaseParse_base58 {digest : Bytes} (h : digest.length = 32) :
  multibaseParse (base58Text (v0Prefix ++ digest)) = multiformatsParse (v0Prefix ++ digest)
  := by
  have hdigits : unspell base58Letters (base58Text (v0Prefix ++ digest)).bytes =
      some (digitsOf 58 v0Letters (beValue (v0Prefix ++ digest))) :=
    unspell_spell base58Letters_spec.1 fun _ => base58_digits
  have hhead := base58_head h
  obtain ⟨hlength, hquotient⟩ := v0_value h
  have hlt : beValue (v0Prefix ++ digest) < 58 ^ v0Letters := by
    change _ < 58 ^ 46
    omega
  have hround : beBytes 34 (valueOf 58 (digitsOf 58 v0Letters (beValue (v0Prefix ++ digest)))) =
      v0Prefix ++ digest := by
    rw [valueOf_digitsOf, Nat.mod_eq_of_lt hlt, ← hlength, beBytes_beValue]
  rw [multibaseParse]
  cases hbytes : (base58Text (v0Prefix ++ digest)).bytes with
  | nil =>
    rw [hbytes] at hhead
    cases hhead
  | cons letter letters =>
    rw [hbytes, List.head?_cons] at hhead
    cases hhead
    rw [hbytes] at hdigits
    simp only
    rw [if_neg (by decide), hdigits]
    simp only
    rw [hround]

/-- Version 1 is read back. -/
theorem multibaseParse_base32 (data : Bytes) :
  multibaseParse (base32Text data) = multiformatsParse data
  := by
  rw [multibaseParse, base32Text]
  simp only
  rw [if_pos trivial, unspell_spell base32Letters_spec.1 fun _ => base32_digits]
  simp only
  rw [ofDigits_toDigits (by decide) (by decide)]

/-- The text forms.  A floating-point number is shown by its bits. -/
def multibase : TextForms where
  cidToString := multibaseToString
  cidParse := multibaseParse
  base64Encode := base64Encode
  base64Decode := base64Decode
  floatToString bits := toString bits.toNat

theorem multibase_lawful :
  multibase.Lawful
  where
  cid_round cid := by
    have hround := multiformats_lawful.round cid
    change multiformatsParse (multiformatsToBytes cid) = _ at hround
    change multibaseParse (multibaseToString cid) = _
    obtain ⟨version, codec, hashCode, digest, hv0⟩ := cid
    cases version with
    | v0 => exact (multibaseParse_base58 (hv0 rfl).2.2).trans hround
    | v1 => exact (multibaseParse_base32 _).trans hround
  cid_base cid := by
    change startsWithBase32 (multibaseToString cid) = true ↔ _
    obtain ⟨version, codec, hashCode, digest, hv0⟩ := cid
    cases version with
    | v0 =>
      have hhead := base58_head (hv0 rfl).2.2
      have hfalse : startsWithBase32 (base58Text (v0Prefix ++ digest)) = false := by
        rw [startsWithBase32, hhead]
        decide
      change startsWithBase32 (base58Text (v0Prefix ++ digest)) = true ↔ _
      rw [hfalse]
      exact ⟨nofun, nofun⟩
    | v1 => exact ⟨fun _ => rfl, fun _ => decide_eq_true rfl⟩
  base64_round := base64Decode_base64Encode

end Atproto
