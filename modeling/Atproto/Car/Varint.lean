import Atproto.Dasl.Cid
import Atproto.Wire.Source
import Atproto.Wire.Varint
import Mathlib.Tactic.Ring

/-!
# Lengths

A length is written in groups of seven bits, the lowest first, and all bytes but the last
have their high bit set.  It is read a byte at a time, from any source.
-/

namespace Atproto.Car

open Dasl Wire

/-- Errors of reading a length. -/
inductive VarintError where
  | overflow
  | unexpectedEof
  | nonMinimal
deriving DecidableEq

/-- Write a length. -/
def writeVarint (value : Nat) : Bytes :=
  if value >>> 7 ≠ 0 then UInt8.ofNat (value &&& 0x7f ||| 0x80) :: writeVarint (value >>> 7)
  else [UInt8.ofNat (value &&& 0x7f)]
termination_by value
decreasing_by
  rw [Nat.shiftRight_eq_div_pow] at *
  omega

section Reading

variable {σ : Type} (source : Source σ)

/-- Read a byte. -/
def readByte (s : σ) : Except VarintError (UInt8 × σ) :=
  match source.readExact 1 s with
  | none => .error .unexpectedEof
  | some (bytes, s) => .ok (bytes.headD 0, s)

/-- Read the groups of a length, from the one at a shift on. -/
@[grind =]
def readVarintFrom (result shift : Nat) : StateT σ (Except VarintError) Nat := do
  let byte ← readByte source
  let value := (byte &&& 0x7f).toNat
  if shift ≥ 63 ∧ value > 1 then throw .overflow
  else if byte &&& 0x80 = 0 then pure (result ||| value <<< shift)
  else if _h : shift + 7 ≥ 64 then throw .overflow
  else readVarintFrom (result ||| value <<< shift) (shift + 7)
termination_by 64 - shift

/-- Read a length. -/
def readVarint : StateT σ (Except VarintError) Nat := readVarintFrom source 0 0

end Reading

/-! ### Bits of a byte -/

theorem toNat_low (byte : UInt8) :
  (byte &&& 0x7f).toNat = byte.toNat % 128
  := by
  rw [UInt8.toNat_and]
  exact Nat.and_two_pow_sub_one_eq_mod byte.toNat 7

theorem high_eq_zero (byte : UInt8) :
  byte &&& 0x80 = 0 ↔ byte.toNat < 128
  := by
  have hbits : ∀ n : Fin 256, n.val &&& 128 = 0 ↔ n.val < 128 := by decide +kernel
  rw [← UInt8.toNat_inj, UInt8.toNat_and]
  exact hbits ⟨byte.toNat, byte.toNat_lt⟩

theorem toNat_ofNat_lt {value : Nat} (h : value < 256) :
  (UInt8.ofNat value).toNat = value
  := UInt8.toNat_ofNat'.trans (Nat.mod_eq_of_lt h)

theorem or_shiftLeft {result shift : Nat} (h : result < 2 ^ shift) (value : Nat) :
  result ||| value <<< shift = result + value * 2 ^ shift
  := by
  rw [Nat.or_comm, ← Nat.shiftLeft_add_eq_or_of_lt h, Nat.shiftLeft_eq, Nat.add_comm]

/-! ### What is written -/

/-- The form of numbers of varying length is used. -/
theorem writeVarint_eq (value : Nat) :
  writeVarint value = varint value
  := by
  induction value using Nat.strong_induction_on with
  | h value ih =>
    have hshift : value >>> 7 = value / 128 := Nat.shiftRight_eq_div_pow value 7
    have hlow : value &&& 0x7f = value % 128 := Nat.and_two_pow_sub_one_eq_mod value 7
    rw [writeVarint, hshift, hlow]
    split_ifs with hmore
    · have hhigh : value % 128 ||| 0x80 = 128 + value % 128 := by
        rw [Nat.or_comm]
        exact (Nat.two_pow_add_eq_or_of_lt (i := 7) (Nat.mod_lt value (by decide)) 1).symm
      rw [varint_of_ge (by omega), ih _ (by omega), hhigh]
    · rw [varint_of_lt (by omega), Nat.mod_eq_of_lt (by omega)]

theorem writeVarint_ne_nil (value : Nat) :
  writeVarint value ≠ []
  := by
  rw [writeVarint]
  split_ifs <;> exact List.cons_ne_nil _ _

/-- A length of less than seven bits takes one byte. -/
theorem length_writeVarint_of_lt {value : Nat} (h : value < 128) :
  (writeVarint value).length = 1
  := by
  rw [writeVarint_eq, varint_of_lt h]
  rfl

theorem length_writeVarint_of_ge {value : Nat} (h : 128 ≤ value) :
  1 < (writeVarint value).length
  := by
  rw [writeVarint_eq, varint_of_ge h, List.length_cons, ← writeVarint_eq]
  exact Nat.succ_lt_succ (List.length_pos_iff.mpr (writeVarint_ne_nil _))

/-! ### What is read -/

theorem readByte_cons (byte : UInt8) (rest : Bytes) :
  readByte slice (byte :: rest) = .ok (byte, rest)
  := by
  have hread : slice.readExact 1 (byte :: rest) = some ([byte], rest) := readSlice_append [byte] rest
  rw [readByte, hread]
  rfl

theorem readVarintFrom_cons (result shift : Nat) (byte : UInt8) (rest : Bytes) :
  readVarintFrom slice result shift (byte :: rest) =
    if shift ≥ 63 ∧ byte.toNat % 128 > 1 then .error .overflow
    else if byte.toNat < 128 then .ok (result ||| (byte.toNat % 128) <<< shift, rest)
    else if shift + 7 ≥ 64 then .error .overflow
    else readVarintFrom slice (result ||| (byte.toNat % 128) <<< shift) (shift + 7) rest
  := by
  rw [readVarintFrom, bind_apply, readByte_cons]
  simp only [toNat_low, high_eq_zero]
  split_ifs <;> rfl

/-- The groups of a length are read back. -/
theorem readVarintFrom_varint {value result shift : Nat} (hshift : shift ≤ 63)
    (hresult : result < 2 ^ shift) (hvalue : value < 2 ^ (64 - shift)) (rest : Bytes) :
  readVarintFrom slice result shift (varint value ++ rest) = .ok (result + value * 2 ^ shift, rest)
  := by
  induction value using Nat.strong_induction_on generalizing result shift with
  | h value ih =>
    by_cases hsmall : value < 128
    · have hguard : ¬ (shift ≥ 63 ∧ value > 1) := by
        rintro ⟨hlast, hmany⟩
        obtain rfl : shift = 63 := by omega
        exact absurd hvalue (Nat.not_lt.mpr hmany)
      rw [varint_of_lt hsmall, List.singleton_append, readVarintFrom_cons,
        toNat_ofNat_lt (by omega), Nat.mod_eq_of_lt hsmall, if_neg hguard, if_pos hsmall,
        or_shiftLeft hresult]
    · have hroom : shift + 7 < 64 := by
        by_contra hfull
        have hpow : 2 ^ (64 - shift) ≤ 2 ^ 7 := Nat.pow_le_pow_right (by decide) (by omega)
        omega
      have hpow : 2 ^ (64 - shift) = 128 * 2 ^ (64 - (shift + 7)) := by
        rw [← Nat.pow_add 2 7]
        congr 1
        omega
      have hlow : value % 128 < 2 ^ 7 := Nat.mod_lt value (by decide)
      have hnext : result + value % 128 * 2 ^ shift < 2 ^ (shift + 7) := by
        rw [Nat.pow_add, Nat.mul_comm (2 ^ shift)]
        have hle : (value % 128 + 1) * 2 ^ shift ≤ 2 ^ 7 * 2 ^ shift :=
          Nat.mul_le_mul_right _ hlow
        rw [Nat.add_mul] at hle
        omega
      rw [varint_of_ge (Nat.not_lt.mp hsmall), List.cons_append, readVarintFrom_cons,
        toNat_ofNat_lt (by omega), if_neg (by omega), if_neg (by omega), if_neg (by omega)]
      have hmod : (128 + value % 128) % 128 = value % 128 := by omega
      rw [hmod, or_shiftLeft hresult, ih _ (by omega) (by omega) hnext (by omega)]
      congr 2
      rw [Nat.pow_add]
      have hdiv := Nat.div_add_mod value 128
      calc result + value % 128 * 2 ^ shift + value / 128 * (2 ^ shift * 2 ^ 7)
          = result + (128 * (value / 128) + value % 128) * 2 ^ shift := by ring
        _ = result + value * 2 ^ shift := by rw [hdiv]

/-- A length of 64 bits is read back. -/
theorem readVarint_writeVarint {value : Nat} (h : value < 2 ^ 64) (rest : Bytes) :
  readVarint slice (writeVarint value ++ rest) = .ok (value, rest)
  := by
  rw [readVarint, writeVarint_eq, readVarintFrom_varint (by decide) (by decide) h]
  simp

/-- Inside a length the input ends unexpectedly. -/
theorem readVarintFrom_part {value result shift : Nat} (hvalue : value < 2 ^ (64 - shift))
    {part rest : Bytes} (hrest : rest ≠ []) (hpart : part ++ rest = varint value) :
  readVarintFrom slice result shift part = .error .unexpectedEof
  := by
  induction value using Nat.strong_induction_on generalizing result shift part with
  | h value ih =>
    cases part with
    | nil =>
      rw [readVarintFrom]
      rfl
    | cons byte part =>
      have hlarge : ¬ value < 128 := by
        intro hsmall
        rw [varint_of_lt hsmall, List.cons_append, List.cons.injEq, List.append_eq_nil_iff] at hpart
        exact hrest hpart.2.2
      have hroom : shift + 7 < 64 := by
        by_contra hfull
        have hpow : 2 ^ (64 - shift) ≤ 2 ^ 7 := Nat.pow_le_pow_right (by decide) (by omega)
        omega
      have hpow : 2 ^ (64 - shift) = 128 * 2 ^ (64 - (shift + 7)) := by
        rw [← Nat.pow_add 2 7]
        congr 1
        omega
      rw [varint_of_ge (Nat.not_lt.mp hlarge), List.cons_append, List.cons.injEq] at hpart
      rw [readVarintFrom_cons, hpart.1, toNat_ofNat_lt (by omega), if_neg (by omega),
        if_neg (by omega), if_neg (by omega)]
      exact ih _ (by omega) (by omega) hpart.2

theorem readVarint_part {value : Nat} (h : value < 2 ^ 64) {part rest : Bytes} (hrest : rest ≠ [])
    (hpart : part ++ rest = writeVarint value) :
  readVarint slice part = .error .unexpectedEof
  := by
  rw [writeVarint_eq] at hpart
  exact readVarintFrom_part h hrest hpart

/-! ### Any source -/

variable {σ : Type} (source : Source σ)

theorem readByte_follows :
  Follows source (readByte source) (readByte slice)
  := by
  intro s
  by_cases h : 1 ≤ (source.contents s).length
  · obtain ⟨s', hread, hcontents⟩ := source.exact h
    have hslice : slice.readExact 1 (source.contents s) = _ := if_pos h
    rw [readByte, readByte, hread, hslice, ← hcontents]
    rfl
  · have hread := source.short (Nat.not_le.mp h)
    have hslice : slice.readExact 1 (source.contents s) = none := if_neg h
    rw [readByte, readByte, hread, hslice]
    rfl

theorem readVarintFrom_follows (result shift : Nat) :
  Follows source (readVarintFrom source result shift) (readVarintFrom slice result shift)
  := by
  induction hfuel : 64 - shift using Nat.strong_induction_on generalizing result shift with
  | h fuel ih =>
    rw [readVarintFrom, readVarintFrom]
    apply (readByte_follows source).bind
    intro byte
    apply Follows.ite (Follows.throw _)
    apply Follows.ite (Follows.pure _)
    split_ifs with hend
    · exact Follows.throw _
    · exact ih _ (by omega) _ _ rfl

/-- A length is read from a source as from its contents. -/
theorem readVarint_follows :
  Follows source (readVarint source) (readVarint slice)
  := readVarintFrom_follows source 0 0

end Atproto.Car
