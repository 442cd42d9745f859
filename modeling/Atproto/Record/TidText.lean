import Atproto.Repo.Commit
import Atproto.Wire.Base
import Mathlib.Tactic.NormNum

/-!
# Reading timestamp identifiers

The text of a TID has 13 digits of five bits, one bit more than a TID has, so the first digit
is below 16.  Reading and writing are inverse to each other, and the bytes of texts are
ordered as the TIDs.
-/

namespace Atproto.Record

open Atproto.Repo Wire

/-- Errors of reading a TID. -/
inductive TidError where
  | invalidLength (expected actual : Nat)
  | invalidCharacter (character : Char) (position : Nat)
  | invalidFormat (reason : String)
deriving DecidableEq

namespace Tid

/-- The digit of a byte, or 0xFF. -/
def base32Decode (byte : UInt8) : Nat :=
  if 0x32 ≤ byte.toNat ∧ byte.toNat ≤ 0x37 then byte.toNat - 0x32
  else if 0x61 ≤ byte.toNat ∧ byte.toNat ≤ 0x7a then byte.toNat - 0x61 + 6
  else 0xff

/-- Put a digit behind a number of 64 bits. -/
def push (t : Tid) (decoded : Nat) : Tid where
  value := (t.value <<< 5 ||| decoded) % 2 ^ 64
  value_lt := Nat.mod_lt _ (Nat.two_pow_pos 64)

/-- Read digits, from a position on. -/
@[grind =]
def decodeLoop : List UInt8 → Nat → Tid → Except TidError Tid
  | [], _, t => .ok t
  | byte :: bytes, i, t =>
    let decoded := base32Decode byte
    if decoded = 0xff then .error (.invalidCharacter (Char.ofNat byte.toNat) i)
    else decodeLoop bytes (i + 1) (t.push decoded)

/-- Read the text of a TID. -/
def decode (s : List UInt8) : Except TidError Tid :=
  if s.length ≠ length then .error (.invalidLength length s.length)
  else
    match decodeLoop s 0 ⟨0, Nat.two_pow_pos 64⟩ with
    | .error e => .error e
    | .ok t =>
      let first := s.headD 0
      let c := Char.ofNat first.toNat
      if base32Decode first ≥ 16 then
        .error (.invalidFormat s!"first character '{c}' sets the top bit; a TID's first character must be one of 234567abcdefghij")
      else .ok t

/-! ### Digits and their bytes -/

/-- The byte of a digit. -/
def digitByte (d : Nat) : UInt8 := UInt8.ofNat (digitChar d).toNat

theorem base32Decode_digitByte {d : Nat} (h : d < 32) :
  base32Decode (digitByte d) = d
  := by
  have hdigit : ∀ d : Fin 32, base32Decode (digitByte d) = d := by decide
  exact hdigit ⟨d, h⟩

theorem digitByte_base32Decode {byte : UInt8} (h : base32Decode byte ≠ 0xff) :
  base32Decode byte < 32 ∧ digitByte (base32Decode byte) = byte
  := by
  have hbytes : ∀ n : Fin 256, base32Decode (UInt8.ofNat n) ≠ 0xff →
      base32Decode (UInt8.ofNat n) < 32 ∧
        digitByte (base32Decode (UInt8.ofNat n)) = UInt8.ofNat n := by decide +kernel
  have hbyte := hbytes ⟨byte.toNat, byte.toNat_lt⟩
  rw [UInt8.ofNat_toNat] at hbyte
  exact hbyte h

/-- The digits of a TID are those of its number. -/
theorem encodeLoop_eq (i value : Nat) (chars : List Char) :
  encodeLoop i value chars = (digitsOf 32 i value).map digitChar ++ chars
  := by
  induction i generalizing value chars with
  | zero => rfl
  | succ i ih =>
    have hlow : value &&& 0x1f = value % 32 := Nat.and_two_pow_sub_one_eq_mod value 5
    have hhigh : value >>> 5 = value / 32 := Nat.shiftRight_eq_div_pow value 5
    rw [encodeLoop, ih, hlow, hhigh, digitsOf_succ, List.map_append, List.append_assoc]
    rfl

theorem tidBytes_eq (t : Tid) :
  tidBytes t = (digitsOf 32 length t.value).map digitByte
  := by
  rw [tidBytes, encode, encodeLoop_eq, List.append_nil, List.map_map]
  rfl

/-! ### Reading digits -/

theorem value_push (t : Tid) {d : Nat} (h : d < 32) :
  (t.push d).value = (t.value * 32 + d) % 2 ^ 64
  := by
  have hor := Nat.shiftLeft_add_eq_or_of_lt (show d < 2 ^ 5 from h) t.value
  change (t.value <<< 5 ||| d) % 2 ^ 64 = _
  rw [← hor, Nat.shiftLeft_eq]

theorem value_foldl_push {ds : List Nat} (h : ∀ d ∈ ds, d < 32) (t : Tid) :
  (ds.foldl push t).value = (t.value * 32 ^ ds.length + valueOf 32 ds) % 2 ^ 64
  := by
  induction ds generalizing t with
  | nil =>
    rw [List.foldl_nil, List.length_nil, Nat.pow_zero, Nat.mul_one, valueOf, Nat.add_zero,
      Nat.mod_eq_of_lt t.value_lt]
  | cons d ds ih =>
    obtain ⟨hd, hds⟩ := List.forall_mem_cons.mp h
    rw [List.foldl_cons, ih hds, value_push t hd, List.length_cons, valueOf]
    have hsum : t.value * 32 ^ (ds.length + 1) + (d * 32 ^ ds.length + valueOf 32 ds) =
        (t.value * 32 + d) * 32 ^ ds.length + valueOf 32 ds := by ring
    rw [hsum, Nat.add_mod, Nat.mul_mod, Nat.mod_mod, ← Nat.mul_mod, ← Nat.add_mod]

/-- What is read is digits. -/
theorem decodeLoop_eq_ok {s : List UInt8} {i : Nat} {t t' : Tid} :
  decodeLoop s i t = .ok t' ↔
    ∃ ds : List Nat, (∀ d ∈ ds, d < 32) ∧ s = ds.map digitByte ∧ t' = ds.foldl push t
  := by
  induction s generalizing i t with
  | nil =>
    constructor
    · intro h
      cases h
      exact ⟨[], nofun, rfl, rfl⟩
    · rintro ⟨ds, -, hs, rfl⟩
      obtain rfl := List.map_eq_nil_iff.mp hs.symm
      rfl
  | cons byte s ih =>
    rw [decodeLoop]
    constructor
    · intro h
      split_ifs at h with hbad
      obtain ⟨hdigit, hbyte⟩ := digitByte_base32Decode hbad
      obtain ⟨ds, hds, rfl, rfl⟩ := ih.mp h
      use base32Decode byte :: ds, List.forall_mem_cons.mpr ⟨hdigit, hds⟩
      rw [List.map_cons, hbyte]
      exact ⟨rfl, rfl⟩
    · rintro ⟨ds, hds, hs, rfl⟩
      cases ds with
      | nil => cases hs
      | cons d ds =>
        obtain ⟨hd, hds⟩ := List.forall_mem_cons.mp hds
        rw [List.map_cons, List.cons.injEq] at hs
        obtain ⟨rfl, rfl⟩ := hs
        have hdigit := base32Decode_digitByte hd
        rw [hdigit, if_neg (by omega)]
        exact ih.mpr ⟨ds, hds, rfl, rfl⟩

/-- The texts that are read. -/
theorem decode_eq_ok {s : List UInt8} {t : Tid} :
  decode s = .ok t ↔ ∃ d ds, (d :: ds).length = length ∧ d < 16 ∧ (∀ d ∈ ds, d < 32) ∧
    s = (d :: ds).map digitByte ∧ t.value = valueOf 32 (d :: ds)
  := by
  have hfold : ∀ d ds, (d :: ds).length = length → d < 16 → (∀ d ∈ ds, d < 32) →
      ((d :: ds).foldl push ⟨0, Nat.two_pow_pos 64⟩).value = valueOf 32 (d :: ds) := by
    intro d ds hlength hd hds
    have hdigits : ∀ d' ∈ d :: ds, d' < 32 :=
      List.forall_mem_cons.mpr ⟨hd.trans (by decide), hds⟩
    have htail : ds.length = 12 := Nat.succ.inj hlength
    have hlow : valueOf 32 ds < 32 ^ ds.length := valueOf_lt hds
    rw [value_foldl_push hdigits, Nat.zero_mul, Nat.zero_add, valueOf]
    rw [htail] at hlow ⊢
    apply Nat.mod_eq_of_lt
    norm_num at hlow ⊢
    omega
  constructor
  · intro h
    rw [decode] at h
    split_ifs at h with hlength
    cases hloop : decodeLoop s 0 ⟨0, Nat.two_pow_pos 64⟩ with
    | error e =>
      rw [hloop] at h
      cases h
    | ok t' =>
      rw [hloop] at h
      simp only at h
      split_ifs at h with hfirst
      cases h
      obtain ⟨ds, hds, rfl, rfl⟩ := decodeLoop_eq_ok.mp hloop
      rw [not_not, List.length_map] at hlength
      cases ds with
      | nil => cases hlength
      | cons d ds =>
        obtain ⟨hd, hds⟩ := List.forall_mem_cons.mp hds
        have hhead : ((d :: ds).map digitByte).headD 0 = digitByte d := rfl
        rw [hhead, base32Decode_digitByte hd] at hfirst
        exact ⟨d, ds, hlength, Nat.not_le.mp hfirst, hds, rfl,
          hfold d ds hlength (Nat.not_le.mp hfirst) hds⟩
  · rintro ⟨d, ds, hlength, hd, hds, rfl, hvalue⟩
    have hdigit : d < 32 := hd.trans (by decide)
    have hloop := (@decodeLoop_eq_ok _ 0 ⟨0, Nat.two_pow_pos 64⟩ _).mpr
      ⟨d :: ds, List.forall_mem_cons.mpr ⟨hdigit, hds⟩, rfl, rfl⟩
    have hhead : ((d :: ds).map digitByte).headD 0 = digitByte d := rfl
    have hlength' : ¬ ((d :: ds).map digitByte).length ≠ length := by
      rw [List.length_map, not_not]
      exact hlength
    have hfirst : ¬ base32Decode (((d :: ds).map digitByte).headD 0) ≥ 16 := by
      rw [hhead, base32Decode_digitByte hdigit]
      exact Nat.not_le.mpr hd
    rw [decode, if_neg hlength', hloop]
    simp only
    rw [if_neg hfirst, Except.ok.injEq]
    exact ext ((hfold d ds hlength hd hds).trans hvalue.symm)

/-! ### The text of a TID -/

theorem decode_tidBytes (t : Tid) :
  decode (tidBytes t) = .ok t
  := by
  have hvalue := t.value_lt
  apply decode_eq_ok.mpr
  use t.value / 32 ^ 12 % 32, digitsOf 32 12 t.value
  refine ⟨?_, ?_, fun d hd => lt_of_mem_digitsOf (by decide) hd, tidBytes_eq t, ?_⟩
  · rw [List.length_cons, length_digitsOf]
    rfl
  · norm_num
    omega
  · change t.value = valueOf 32 (digitsOf 32 13 t.value)
    rw [valueOf_digitsOf, Nat.mod_eq_of_lt]
    norm_num
    omega

theorem tidBytes_of_decode {s : List UInt8} {t : Tid} (h : decode s = .ok t) :
  tidBytes t = s
  := by
  obtain ⟨d, ds, hlength, hd, hds, rfl, hvalue⟩ := decode_eq_ok.mp h
  have hdigits : ∀ d' ∈ d :: ds, d' < 32 :=
    List.forall_mem_cons.mpr ⟨hd.trans (by decide), hds⟩
  rw [tidBytes_eq, hvalue, ← hlength, digitsOf_valueOf hdigits]

theorem codes_tidBytes_lt {a b : Tid} :
  codes (tidBytes a) < codes (tidBytes b) ↔ a.value < b.value
  := by
  have hlt : ∀ {a b : Tid}, a.value < b.value → codes (tidBytes a) < codes (tidBytes b) :=
    fun h => revOf_lt_revOf h
  refine ⟨fun h => ?_, hlt⟩
  by_contra hle
  rcases Nat.lt_or_eq_of_le (Nat.not_lt.mp hle) with hgt | heq
  · exact lt_asymm h (hlt hgt)
  · rw [ext heq] at h
    exact lt_irrefl _ h

/-- Texts and TIDs correspond, in order. -/
theorem tid_text :
  (∀ t : Tid, decode (tidBytes t) = .ok t) ∧
    (∀ s t, decode s = .ok t → tidBytes t = s) ∧
    ∀ a b : Tid, a.value < b.value ↔ codes (tidBytes a) < codes (tidBytes b)
  := ⟨decode_tidBytes, fun _ _ => tidBytes_of_decode, fun _ _ => codes_tidBytes_lt.symm⟩

end Tid

end Atproto.Record
