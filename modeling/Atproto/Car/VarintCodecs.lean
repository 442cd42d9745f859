import Atproto.Car.Varint
import Mathlib.Data.Nat.Size

/-!
# The codecs of lengths

Lengths of 64 bits are written to a writer or into a buffer, and read from a slice or from a source.
The reader of a slice stops after nine bytes, the readers of sources after ten.  All of them are
compared with what the groups of seven bits say.
-/

namespace Atproto.Car.Codecs

open Dasl Wire

/-! ### Machine words -/

theorem toNat_shiftRight_seven (value : UInt64) :
  (value >>> 7).toNat = value.toNat / 128
  := by
  rw [UInt64.toNat_shiftRight]
  exact Nat.shiftRight_eq_div_pow value.toNat 7

theorem shiftRight_seven_eq_zero (value : UInt64) :
  value >>> 7 = 0 ↔ value.toNat < 128
  := by
  rw [← UInt64.toNat_inj, toNat_shiftRight_seven]
  change value.toNat / 128 = 0 ↔ _
  omega

theorem toNat_lowByte (value : UInt64) :
  (value &&& 0x7f).toUInt8.toNat = value.toNat % 128
  := by
  rw [UInt64.toNat_toUInt8, UInt64.toNat_and]
  change (value.toNat &&& 127) % 2 ^ 8 = _
  rw [show value.toNat &&& 127 = value.toNat % 128 from Nat.and_two_pow_sub_one_eq_mod value.toNat 7]
  omega

theorem lowByte_eq (value : UInt64) :
  (value &&& 0x7f).toUInt8 = UInt8.ofNat (value.toNat % 128)
  := by
  rw [← UInt8.toNat_inj, toNat_lowByte, toNat_ofNat_lt (by omega)]

theorem highByte_eq (value : UInt64) :
  (value &&& 0x7f).toUInt8 ||| 0x80 = UInt8.ofNat (128 + value.toNat % 128)
  := by
  rw [← UInt8.toNat_inj, UInt8.toNat_or, toNat_lowByte, toNat_ofNat_lt (by omega), Nat.or_comm]
  exact (Nat.two_pow_add_eq_or_of_lt (i := 7) (Nat.mod_lt _ (by decide)) 1).symm

/-! ### Writing -/

/-- Write a length, and count the bytes. -/
def writeVarint (value : UInt64) : Bytes × Nat :=
  let byte := (value &&& 0x7f).toUInt8
  if value >>> 7 ≠ 0 then
    let (bytes, written) := writeVarint (value >>> 7)
    ((byte ||| 0x80) :: bytes, written + 1)
  else ([byte], 1)
termination_by value.toNat
decreasing_by
  rename_i h
  rw [ne_eq, shiftRight_seven_eq_zero] at h
  rw [toNat_shiftRight_seven]
  omega

/-- Write a length to a writer that does not block. -/
def asyncWriteVarint (value : UInt64) : Bytes × Nat := writeVarint value

/-- Write a length into a buffer, from a position on. -/
def encodeVarintFrom (pos : Nat) (buffer : Bytes) (value : UInt64) :
    Except VarintError Nat × Bytes :=
  if buffer.length ≤ pos then (.error .overflow, buffer)
  else
    let byte := (value &&& 0x7f).toUInt8
    if value >>> 7 ≠ 0 then encodeVarintFrom (pos + 1) (buffer.set pos (byte ||| 0x80)) (value >>> 7)
    else (.ok (pos + 1), buffer.set pos byte)
termination_by value.toNat
decreasing_by
  rename_i h
  rw [ne_eq, shiftRight_seven_eq_zero] at h
  rw [toNat_shiftRight_seven]
  omega

/-- Write a length into a buffer, and count the bytes. -/
def encodeVarint (buffer : Bytes) (value : UInt64) : Except VarintError Nat × Bytes :=
  encodeVarintFrom 0 buffer value

/-- The number of bits before the first that is set. -/
def leadingZeros (value : UInt64) : Nat := 64 - value.toNat.size

/-- The number of bytes of a length. -/
def varintSize (value : UInt64) : Nat :=
  if value = 0 then 1 else (64 - leadingZeros value + 6) / 7

/-! ### Reading -/

/-- The most bytes that are read from a slice. -/
def maxVarintBytes : Nat := 9

/-- Read the groups of a length from a slice, from the one at an index and a shift on. -/
def decodeVarintFrom (result : UInt64) (shift i : Nat) :
    Bytes → Except VarintError (UInt64 × Nat)
  | [] => .error .unexpectedEof
  | byte :: bytes =>
    if maxVarintBytes ≤ i then .error .overflow
    else
      let value := (byte &&& 0x7f).toUInt64
      if 63 ≤ shift ∧ 1 < value then .error .overflow
      else
        let result := result ||| value <<< UInt64.ofNat shift
        if byte &&& 0x80 = 0 then .ok (result, i + 1)
        else decodeVarintFrom result (shift + 7) (i + 1) bytes

/-- Read a length from a slice, and count the bytes. -/
def decodeVarint (bytes : Bytes) : Except VarintError (UInt64 × Nat) := decodeVarintFrom 0 0 0 bytes

/-- Read a length from a slice that has no more bytes than it needs. -/
def decodeVarintStrict (bytes : Bytes) : Except VarintError (UInt64 × Nat) := do
  let (value, consumed) ← decodeVarint bytes
  if consumed ≠ varintSize value then .error .nonMinimal else .ok (value, consumed)

section Sources

variable {σ : Type} (source : Source σ)

/-- Read the groups of a length from a source, from the one at a shift on. -/
def readVarintFrom (result : UInt64) (shift : Nat) : StateT σ (Except VarintError) UInt64 := do
  let byte ← readByte source
  let value := (byte &&& 0x7f).toUInt64
  if 63 ≤ shift ∧ 1 < value then throw .overflow
  else if byte &&& 0x80 = 0 then pure (result ||| value <<< UInt64.ofNat shift)
  else if _h : 64 ≤ shift + 7 then throw .overflow
  else readVarintFrom (result ||| value <<< UInt64.ofNat shift) (shift + 7)
termination_by 64 - shift

/-- Read a length from a source. -/
def readVarint : StateT σ (Except VarintError) UInt64 := readVarintFrom source 0 0

/-- Read a length from a source that does not block. -/
def asyncReadVarint : StateT σ (Except VarintError) UInt64 := readVarint source

end Sources

/-! ### What is written -/

theorem writeVarint_eq (value : UInt64) :
  writeVarint value = (varint value.toNat, (varint value.toNat).length)
  := by
  induction hn : value.toNat using Nat.strong_induction_on generalizing value with
  | h n ih =>
    subst hn
    rw [writeVarint]
    split_ifs with hmore
    · rw [ne_eq, shiftRight_seven_eq_zero, Nat.not_lt] at hmore
      have hshift := toNat_shiftRight_seven value
      have hnext := ih (value >>> 7).toNat (by omega) (value >>> 7) rfl
      rw [hnext, hshift, highByte_eq, varint_of_ge hmore]
      rfl
    · rw [not_not, shiftRight_seven_eq_zero] at hmore
      rw [lowByte_eq, varint_of_lt hmore, Nat.mod_eq_of_lt hmore]
      rfl

/-- A buffer that is long enough holds the bytes from the position on, and no other byte of it
changes. -/
theorem encodeVarintFrom_eq {done rest : Bytes} {value : UInt64} :
  encodeVarintFrom done.length (done ++ rest) value =
    if (varint value.toNat).length ≤ rest.length then
      (.ok (done.length + (varint value.toNat).length),
        done ++ varint value.toNat ++ rest.drop (varint value.toNat).length)
    else (.error .overflow, done ++ (varint value.toNat).take rest.length)
  := by
  induction hn : value.toNat using Nat.strong_induction_on generalizing value done rest with
  | h n ih =>
    subst hn
    rw [encodeVarintFrom]
    cases rest with
    | nil =>
      have hpos := (parseGroups_bounds (parseGroups_varint value.toNat [])).1
      rw [if_pos (by simp), if_neg (by rw [List.length_nil]; omega)]
      rfl
    | cons byte rest =>
      rw [if_neg (by simp)]
      have hset : ∀ b, (done ++ byte :: rest).set done.length b = (done ++ [b]) ++ rest := by
        intro b
        rw [List.set_append_right _ _ (Nat.le_refl _), Nat.sub_self, List.set_cons_zero,
          List.append_assoc]
        rfl
      have hlength : ∀ b : UInt8, done.length + 1 = (done ++ [b]).length := by
        intro b
        rw [List.length_append, List.length_singleton]
      simp only [hset]
      rcases Nat.lt_or_ge value.toNat 128 with hsmall | hlarge
      · have hlast : ¬ value >>> 7 ≠ 0 := by rw [not_not, shiftRight_seven_eq_zero]; exact hsmall
        rw [if_neg hlast, lowByte_eq, Nat.mod_eq_of_lt hsmall, varint_of_lt hsmall,
          if_pos (by rw [List.length_singleton, List.length_cons]; omega)]
        rfl
      · have hmore : value >>> 7 ≠ 0 := by rw [ne_eq, shiftRight_seven_eq_zero]; omega
        have hshift := toNat_shiftRight_seven value
        rw [if_pos hmore, hlength, ih (value >>> 7).toNat (by omega) rfl, hshift,
          highByte_eq, varint_of_ge hlarge, ← hlength]
        simp only [List.length_cons, Nat.succ_le_succ_iff]
        split_ifs with hfits
        · rw [Prod.mk.injEq, Except.ok.injEq]
          refine ⟨by omega, ?_⟩
          simp
        · rw [List.take_succ_cons, List.append_assoc]
          rfl

theorem encodeVarint_eq (buffer : Bytes) (value : UInt64) :
  encodeVarint buffer value =
    if (varint value.toNat).length ≤ buffer.length then
      (.ok (varint value.toNat).length,
        varint value.toNat ++ buffer.drop (varint value.toNat).length)
    else (.error .overflow, (varint value.toNat).take buffer.length)
  := by
  rw [encodeVarint]
  have h := @encodeVarintFrom_eq [] buffer value
  simpa using h

theorem varintSize_eq (value : UInt64) :
  varintSize value = (varint value.toNat).length
  := by
  have hsize : value.toNat.size ≤ 64 := Nat.size_le.mpr value.toNat_lt
  have hpos := (parseGroups_bounds (parseGroups_varint value.toNat [])).1
  have hle : ∀ n, varintSize value ≤ n + 1 ↔ (varint value.toNat).length ≤ n + 1 := by
    intro n
    have hpow : (128 : Nat) ^ (n + 1) = 2 ^ (7 * (n + 1)) := (Nat.pow_mul 2 7 (n + 1)).symm
    rw [length_varint_le, hpow, ← Nat.size_le, varintSize, leadingZeros]
    split_ifs with hzero
    · subst hzero
      exact iff_of_true (Nat.succ_le_succ (Nat.zero_le _)) (Nat.zero_le _)
    · omega
  have hone : 1 ≤ varintSize value := by
    rw [varintSize, leadingZeros]
    split_ifs with hzero
    · exact Nat.le_refl 1
    · have hnat : value.toNat ≠ 0 := fun h => hzero (UInt64.toNat_inj.mp h)
      have hbits : 0 < value.toNat.size := Nat.size_pos.mpr (Nat.pos_of_ne_zero hnat)
      omega
  have h1 := hle (varintSize value - 1)
  have h2 := hle ((varint value.toNat).length - 1)
  omega

/-! ### What is read -/

/-- A group is added above the ones before it. -/
theorem toNat_addGroup {result value : UInt64} {shift : Nat} (hshift : shift < 64)
    (hresult : result.toNat < 2 ^ shift) (hvalue : value.toNat * 2 ^ shift < 2 ^ 64) :
  (result ||| value <<< UInt64.ofNat shift).toNat = result.toNat + value.toNat * 2 ^ shift
  := by
  have hof : (UInt64.ofNat shift).toNat % 64 = shift := by
    rw [UInt64.toNat_ofNat']
    omega
  have hshifted : value.toNat <<< shift < 2 ^ 64 := by rwa [Nat.shiftLeft_eq]
  rw [UInt64.toNat_or, UInt64.toNat_shiftLeft, hof, Nat.mod_eq_of_lt hshifted,
    or_shiftLeft hresult]

theorem toNat_group (byte : UInt8) :
  (byte &&& 0x7f).toUInt64.toNat = byte.toNat % 128
  := by
  rw [UInt8.toNat_toUInt64, toNat_low]

theorem one_lt_group (byte : UInt8) :
  1 < (byte &&& 0x7f).toUInt64 ↔ 1 < byte.toNat % 128
  := by
  rw [← toNat_group]
  exact UInt64.lt_iff_toNat_lt

/-- A group of a number of less than 64 bits does not reach beyond them. -/
theorem group_lt {value shift : Nat} (hvalue : value < 128) (hshift : shift + 7 ≤ 64) :
  value * 2 ^ shift < 2 ^ 64
  := by
  calc
    value * 2 ^ shift < 2 ^ 7 * 2 ^ shift := Nat.mul_lt_mul_of_pos_right hvalue (Nat.two_pow_pos _)
    _ = 2 ^ (7 + shift) := (Nat.pow_add 2 7 shift).symm
    _ ≤ 2 ^ 64 := Nat.pow_le_pow_right (by decide) (by omega)

theorem toNat_addByte {result : UInt64} {byte : UInt8} {i : Nat} (hi : i < 9)
    (hresult : result.toNat < 2 ^ (7 * i)) :
  (result ||| (byte &&& 0x7f).toUInt64 <<< UInt64.ofNat (7 * i)).toNat =
    result.toNat + byte.toNat % 128 * 2 ^ (7 * i)
  := by
  rw [← toNat_group]
  apply toNat_addGroup (by omega) hresult
  rw [toNat_group]
  exact group_lt (Nat.mod_lt _ (by decide)) (by omega)

theorem addByte_lt {result byte i : Nat} (hresult : result < 2 ^ (7 * i)) :
  result + byte % 128 * 2 ^ (7 * i) < 2 ^ (7 * (i + 1))
  := by
  have hlow : byte % 128 < 2 ^ 7 := Nat.mod_lt _ (by decide)
  have hle : (byte % 128 + 1) * 2 ^ (7 * i) ≤ 2 ^ 7 * 2 ^ (7 * i) := Nat.mul_le_mul_right _ hlow
  rw [Nat.add_mul] at hle
  rw [Nat.mul_succ, Nat.pow_add, Nat.mul_comm (2 ^ (7 * i))]
  omega

/-- The groups above a byte count for 128 times as much. -/
theorem addByte_high {result byte i high : Nat} (hlarge : 128 ≤ byte) (hbyte : byte < 2 ^ 8) :
  result + byte % 128 * 2 ^ (7 * i) + high * 2 ^ (7 * (i + 1)) =
    result + (byte - 128 + 128 * high) * 2 ^ (7 * i)
  := by
  rw [Nat.mul_succ, Nat.pow_add, show byte % 128 = byte - 128 by omega]
  ring

theorem decodeVarintFrom_cons (result : UInt64) (shift i : Nat) (byte : UInt8) (bytes : Bytes) :
  decodeVarintFrom result shift i (byte :: bytes) =
    if 9 ≤ i then .error .overflow
    else if 63 ≤ shift ∧ 1 < byte.toNat % 128 then .error .overflow
    else if byte.toNat < 128 then
      .ok (result ||| (byte &&& 0x7f).toUInt64 <<< UInt64.ofNat shift, i + 1)
    else decodeVarintFrom (result ||| (byte &&& 0x7f).toUInt64 <<< UInt64.ofNat shift) (shift + 7)
      (i + 1) bytes
  := by
  rw [decodeVarintFrom]
  simp only [maxVarintBytes, one_lt_group, high_eq_zero]

/-- The reader of a slice reads what the groups say, up to nine bytes. -/
theorem decodeVarintFrom_eq_ok {bytes : Bytes} {result : UInt64} {i : Nat}
    (hresult : result.toNat < 2 ^ (7 * i)) {value : UInt64} {consumed : Nat} :
  decodeVarintFrom result (7 * i) i bytes = .ok (value, consumed) ↔
    ∃ v n, parseGroups bytes = some (v, n) ∧ consumed = i + n ∧ i + n ≤ 9 ∧
      value.toNat = result.toNat + v * 2 ^ (7 * i)
  := by
  induction bytes generalizing result i with
  | nil =>
    apply iff_of_false
    · intro h
      cases h
    · rintro ⟨v, n, h, -⟩
      cases h
  | cons byte bytes ih =>
    have hbyte := byte.toNat_lt
    rw [decodeVarintFrom_cons]
    rcases Nat.lt_or_ge i 9 with hroom | hfull
    · have hadd := @toNat_addByte result byte i hroom hresult
      rw [if_neg (by omega), if_neg (by omega), parseGroups]
      split_ifs with hsmall
      · rw [Nat.mod_eq_of_lt hsmall] at hadd
        constructor
        · intro h
          cases h
          exact ⟨_, 1, rfl, rfl, hroom, hadd⟩
        · rintro ⟨v, n, h, rfl, hn, hvalue⟩
          cases h
          rw [← hadd, UInt64.toNat_inj] at hvalue
          rw [hvalue]
      · rw [← Nat.mul_succ, ih (hadd ▸ addByte_lt hresult), hadd]
        constructor
        · rintro ⟨high, n, hparse, rfl, hn, hvalue⟩
          rw [addByte_high (by omega) hbyte] at hvalue
          refine ⟨_, n + 1, ?_, by omega, by omega, hvalue⟩
          rw [hparse]
          rfl
        · rintro ⟨v, n, h, rfl, hn, hvalue⟩
          obtain ⟨⟨high, count⟩, hparse, heq⟩ := Option.map_eq_some_iff.mp h
          cases heq
          refine ⟨high, count, hparse, by simp only; omega, by simp only at hn; omega, ?_⟩
          rw [addByte_high (by omega) hbyte]
          exact hvalue
    · rw [if_pos hfull]
      apply iff_of_false
      · intro h
        cases h
      · rintro ⟨v, n, h, -, hn, -⟩
        have hpos := (parseGroups_bounds h).1
        omega

theorem readVarintFrom_cons (result : UInt64) (shift : Nat) (byte : UInt8) (bytes : Bytes) :
  readVarintFrom slice result shift (byte :: bytes) =
    if 63 ≤ shift ∧ 1 < byte.toNat % 128 then .error .overflow
    else if byte.toNat < 128 then
      .ok (result ||| (byte &&& 0x7f).toUInt64 <<< UInt64.ofNat shift, bytes)
    else if 64 ≤ shift + 7 then .error .overflow
    else readVarintFrom slice (result ||| (byte &&& 0x7f).toUInt64 <<< UInt64.ofNat shift)
      (shift + 7) bytes
  := by
  rw [readVarintFrom, bind_apply, readByte_cons]
  simp only [one_lt_group, high_eq_zero]
  split_ifs <;> rfl

/-- The reader of a source reads what the groups say, up to ten bytes and 64 bits. -/
theorem readVarintFrom_eq_ok {bytes : Bytes} {result : UInt64} {i : Nat} (hi : i ≤ 9)
    (hresult : result.toNat < 2 ^ (7 * i)) {value : UInt64} {rest : Bytes} :
  readVarintFrom slice result (7 * i) bytes = .ok (value, rest) ↔
    ∃ v n, parseGroups bytes = some (v, n) ∧ rest = bytes.drop n ∧ i + n ≤ 10 ∧
      value.toNat = result.toNat + v * 2 ^ (7 * i)
  := by
  induction bytes generalizing result i with
  | nil =>
    apply iff_of_false
    · intro h
      rw [readVarintFrom] at h
      cases h
    · rintro ⟨v, n, h, -⟩
      cases h
  | cons byte bytes ih =>
    have hbyte := byte.toNat_lt
    rw [readVarintFrom_cons]
    rcases Nat.lt_or_ge i 9 with hroom | hfull
    · have hadd := @toNat_addByte result byte i hroom hresult
      rw [if_neg (by omega), parseGroups]
      split_ifs with hsmall hend
      · rw [Nat.mod_eq_of_lt hsmall] at hadd
        constructor
        · intro h
          cases h
          exact ⟨_, 1, rfl, rfl, by omega, hadd⟩
        · rintro ⟨v, n, h, rfl, hn, hvalue⟩
          cases h
          rw [← hadd, UInt64.toNat_inj] at hvalue
          rw [hvalue]
          rfl
      · omega
      · rw [← Nat.mul_succ, ih hroom (hadd ▸ addByte_lt hresult), hadd]
        constructor
        · rintro ⟨high, n, hparse, rfl, hn, hvalue⟩
          rw [addByte_high (by omega) hbyte] at hvalue
          refine ⟨_, n + 1, ?_, rfl, by omega, hvalue⟩
          rw [hparse]
          rfl
        · rintro ⟨v, n, h, rfl, hn, hvalue⟩
          obtain ⟨⟨high, count⟩, hparse, heq⟩ := Option.map_eq_some_iff.mp h
          cases heq
          refine ⟨high, count, hparse, rfl, by simp only at hn; omega, ?_⟩
          rw [addByte_high (by omega) hbyte]
          exact hvalue
    · obtain rfl : i = 9 := Nat.le_antisymm hi hfull
      have hword := value.toNat_lt
      rw [parseGroups]
      by_cases hsmall : byte.toNat < 128
      · rw [if_pos hsmall, if_pos hsmall, Nat.mod_eq_of_lt hsmall]
        by_cases hone : 1 < byte.toNat
        · rw [if_pos ⟨by omega, hone⟩]
          apply iff_of_false
          · intro h
            cases h
          · rintro ⟨v, n, h, -, -, hvalue⟩
            cases h
            have hle : 2 * 2 ^ (7 * 9) ≤ byte.toNat * 2 ^ (7 * 9) := Nat.mul_le_mul_right _ hone
            omega
        · have hgroup : (byte &&& 0x7f).toUInt64.toNat * 2 ^ (7 * 9) < 2 ^ 64 := by
            rw [toNat_group]
            omega
          have hadd := toNat_addGroup (by decide) hresult hgroup
          rw [toNat_group, Nat.mod_eq_of_lt hsmall] at hadd
          rw [if_neg (by omega)]
          constructor
          · intro h
            cases h
            exact ⟨_, 1, rfl, rfl, Nat.le_refl _, hadd⟩
          · rintro ⟨v, n, h, rfl, hn, hvalue⟩
            cases h
            rw [← hadd, UInt64.toNat_inj] at hvalue
            rw [hvalue]
            rfl
      · have hend : 64 ≤ 7 * 9 + 7 := by decide
        rw [if_neg hsmall, if_neg hsmall, if_pos hend, ite_self]
        apply iff_of_false
        · intro h
          cases h
        · rintro ⟨v, n, h, -, hn, -⟩
          obtain ⟨⟨high, count⟩, hparse, heq⟩ := Option.map_eq_some_iff.mp h
          cases heq
          have hpos := (parseGroups_bounds hparse).1
          simp only at hn hpos
          omega

theorem decodeVarint_eq_ok {bytes : Bytes} {value : UInt64} {consumed : Nat} :
  decodeVarint bytes = .ok (value, consumed) ↔
    parseGroups bytes = some (value.toNat, consumed) ∧ consumed ≤ 9
  := by
  have h := @decodeVarintFrom_eq_ok bytes 0 0 (by decide) value consumed
  rw [decodeVarint]
  refine h.trans ?_
  constructor
  · rintro ⟨v, n, hparse, rfl, hn, hvalue⟩
    rw [hvalue, Nat.zero_add]
    refine ⟨?_, by omega⟩
    simpa using hparse
  · rintro ⟨hparse, hconsumed⟩
    exact ⟨_, _, hparse, (Nat.zero_add _).symm, by omega, by simp⟩

theorem readVarint_slice_eq_ok {bytes rest : Bytes} {value : UInt64} :
  readVarint slice bytes = .ok (value, rest) ↔
    ∃ n, parseGroups bytes = some (value.toNat, n) ∧ rest = bytes.drop n ∧ n ≤ 10
  := by
  have h := @readVarintFrom_eq_ok bytes 0 0 (by decide) (by decide) value rest
  rw [readVarint]
  refine h.trans ?_
  constructor
  · rintro ⟨v, n, hparse, rfl, hn, hvalue⟩
    refine ⟨n, ?_, rfl, by omega⟩
    rw [hparse, hvalue]
    simp
  · rintro ⟨n, hparse, rfl, hn⟩
    exact ⟨_, n, hparse, rfl, by omega, by simp⟩

/-! ### Any source -/

section Sources

variable {σ : Type} (source : Source σ)

theorem readVarintFrom_follows (result : UInt64) (shift : Nat) :
  Follows source (readVarintFrom source result shift) (readVarintFrom slice result shift)
  := by
  induction hfuel : 64 - shift using Nat.strong_induction_on generalizing result shift with
  | h fuel ih =>
    rw [readVarintFrom, readVarintFrom]
    apply (readByte_follows source).bind
    intro byte
    apply Follows.ite (Follows.throw _)
    apply Follows.ite (Follows.pure _)
    split_ifs with hend
    · exact Follows.throw _
    · exact ih _ (by omega) _ _ rfl

/-- A length is read from a source: its value, and how many bytes it had. -/
def readFrom (program : StateT σ (Except VarintError) UInt64) (s : σ) :
    Except VarintError (UInt64 × Nat) :=
  (program s).map fun p => (p.1, (source.contents s).length - (source.contents p.2).length)

/-- From any source is read what the groups say, up to ten bytes and 64 bits. -/
theorem readFrom_eq_ok {s : σ} {value : UInt64} {consumed : Nat} :
  readFrom source (readVarint source) s = .ok (value, consumed) ↔
    parseGroups (source.contents s) = some (value.toNat, consumed) ∧ consumed ≤ 10
  := by
  have hfollows := readVarintFrom_follows source 0 0 s
  have hslice := @readVarint_slice_eq_ok (source.contents s)
  rw [readVarint, ← hfollows] at hslice
  rw [readFrom, readVarint]
  cases hrun : readVarintFrom source 0 0 s with
  | error e =>
    rw [hrun] at hslice
    apply iff_of_false
    · intro h
      cases h
    · rintro ⟨hparse, hconsumed⟩
      have h := hslice.mpr ⟨consumed, hparse, rfl, hconsumed⟩
      cases h
  | ok p =>
    obtain ⟨read, s'⟩ := p
    rw [hrun] at hslice
    obtain ⟨n, hparse, hrest, hn⟩ := (@hslice (source.contents s') read).mp rfl
    have hlength := (parseGroups_bounds hparse).2.1
    change Except.ok (read, (source.contents s).length - (source.contents s').length) = _ ↔ _
    rw [hrest, List.length_drop, Nat.sub_sub_self hlength, hparse, Except.ok.injEq, Option.some.injEq,
      Prod.mk.injEq, Prod.mk.injEq, UInt64.toNat_inj]
    constructor
    · rintro ⟨rfl, rfl⟩
      exact ⟨⟨rfl, rfl⟩, hn⟩
    · rintro ⟨h, -⟩
      exact h

end Sources

/-! ### All codecs -/

/-- The writers, the encoder and the size function give the same bytes and the same length. -/
def Written (n : UInt64) : Prop :=
  asyncWriteVarint n = writeVarint n ∧ (writeVarint n).2 = varintSize n ∧
    (writeVarint n).1.length = varintSize n ∧
    ∀ buffer : Bytes, varintSize n ≤ buffer.length →
      encodeVarint buffer n = (.ok (varintSize n), (writeVarint n).1 ++ buffer.drop (varintSize n))

/-- Every decoder reads the number back with its length, whatever comes after it. -/
def ReadBack (n : UInt64) : Prop :=
  ∀ rest : Bytes,
    decodeVarint ((writeVarint n).1 ++ rest) = .ok (n, varintSize n) ∧
    decodeVarintStrict ((writeVarint n).1 ++ rest) = .ok (n, varintSize n) ∧
    ∀ (σ : Type) (source : Source σ) (s : σ), source.contents s = (writeVarint n).1 ++ rest →
      readFrom source (readVarint source) s = .ok (n, varintSize n) ∧
      readFrom source (asyncReadVarint source) s = .ok (n, varintSize n)

/-- The decoders other than the strict one accept the bytes with the same value and length, or all of
them refuse them. -/
def DecodersAgree (bytes : Bytes) : Prop :=
  ∀ (σ : Type) (source : Source σ) (s : σ), source.contents s = bytes → ∀ value consumed,
    (readFrom source (readVarint source) s = .ok (value, consumed) ↔
      decodeVarint bytes = .ok (value, consumed)) ∧
    (readFrom source (asyncReadVarint source) s = .ok (value, consumed) ↔
      decodeVarint bytes = .ok (value, consumed))

/-- What a decoder accepts has the value of its groups, so that no bit is lost. -/
def NotTruncated (bytes : Bytes) : Prop :=
  (∀ value consumed, decodeVarint bytes = .ok (value, consumed) →
    parseGroups bytes = some (value.toNat, consumed)) ∧
  ∀ (σ : Type) (source : Source σ) (s : σ), source.contents s = bytes → ∀ value consumed,
    readFrom source (readVarint source) s = .ok (value, consumed) ∨
      readFrom source (asyncReadVarint source) s = .ok (value, consumed) →
    parseGroups bytes = some (value.toNat, consumed)

/-- The strict decoder accepts exactly what begins with a number as it is written. -/
def StrictMinimal (bytes : Bytes) : Prop :=
  (∃ value consumed, decodeVarintStrict bytes = .ok (value, consumed)) ↔
    ∃ n rest, bytes = (writeVarint n).1 ++ rest

/-- The bytes begin with a number of ten bytes that fits into 64 bits. -/
def HasTenBytes (bytes : Bytes) : Prop :=
  ∃ front last rest, bytes = front ++ last :: rest ∧ front.length = 9 ∧
    (∀ byte ∈ front, 128 ≤ byte.toNat) ∧ last.toNat ≤ 1

theorem hasTenBytes_iff {bytes : Bytes} :
  HasTenBytes bytes ↔ ∃ value : UInt64, parseGroups bytes = some (value.toNat, 10)
  := by
  constructor
  · rintro ⟨front, last, rest, rfl, hfront, hall, hlast⟩
    obtain ⟨low, hlow, hparse⟩ := exists_low hall
    have hvalue := hparse last rest (by omega)
    rw [hfront] at hlow hvalue
    refine ⟨UInt64.ofNat (low + last.toNat * 128 ^ 9), ?_⟩
    rw [UInt64.toNat_ofNat', Nat.mod_eq_of_lt (by omega), hvalue]
  · rintro ⟨value, hparse⟩
    obtain ⟨front, last, rest, rfl, hfront, hall, hlast⟩ := exists_front hparse
    obtain ⟨low, -, hvalue⟩ := exists_low hall
    have hword := value.toNat_lt
    rw [hvalue last rest hlast, hfront, Option.some.injEq, Prod.mk.injEq] at hparse
    exact ⟨front, last, rest, rfl, hfront, hall, by omega⟩

theorem written (n : UInt64) :
  Written n
  := by
  have hsize := varintSize_eq n
  refine ⟨rfl, ?_, ?_, ?_⟩
  · rw [writeVarint_eq, hsize]
  · rw [writeVarint_eq, hsize]
  · intro buffer hbuffer
    rw [hsize] at hbuffer
    rw [encodeVarint_eq, if_pos hbuffer, writeVarint_eq, hsize]

theorem notTruncated (bytes : Bytes) :
  NotTruncated bytes
  := by
  refine ⟨fun value consumed h => (decodeVarint_eq_ok.mp h).1, ?_⟩
  rintro σ source s rfl value consumed (h | h)
  · exact ((readFrom_eq_ok source).mp h).1
  · exact ((readFrom_eq_ok source).mp h).1

theorem decodeVarintStrict_eq_ok {bytes : Bytes} {value : UInt64} {consumed : Nat} :
  decodeVarintStrict bytes = .ok (value, consumed) ↔
    decodeVarint bytes = .ok (value, consumed) ∧ consumed = varintSize value
  := by
  rw [decodeVarintStrict]
  cases hdecode : decodeVarint bytes with
  | error e =>
    apply iff_of_false
    · intro h
      cases h
    · rintro ⟨h, -⟩
      cases h
  | ok p =>
    obtain ⟨value', consumed'⟩ := p
    change (if consumed' ≠ varintSize value' then _ else _) = _ ↔ _
    split_ifs with hsize
    · apply iff_of_false
      · intro h
        cases h
      · rintro ⟨h, heq⟩
        cases h
        exact hsize heq
    · rw [not_not] at hsize
      constructor
      · intro h
        cases h
        exact ⟨rfl, hsize⟩
      · rintro ⟨h, -⟩
        exact h

/-- A number takes at most nine bytes exactly when it has 63 bits. -/
theorem varintSize_le_nine {n : UInt64} :
  varintSize n ≤ 9 ↔ n.toNat < 2 ^ 63
  := by
  have hpow : (128 : Nat) ^ (8 + 1) = 2 ^ 63 := by decide
  rw [varintSize_eq, length_varint_le, hpow]

theorem varintSize_le_ten (n : UInt64) :
  varintSize n ≤ 10
  := by
  have hword := n.toNat_lt
  rw [varintSize_eq, length_varint_le]
  omega

theorem parseGroups_writeVarint (n : UInt64) (rest : Bytes) :
  parseGroups ((writeVarint n).1 ++ rest) = some (n.toNat, varintSize n)
  := by
  rw [writeVarint_eq, varintSize_eq]
  exact parseGroups_varint n.toNat rest

/-- A number is read back by every decoder exactly when it has 63 bits. -/
theorem readBack_iff {n : UInt64} :
  ReadBack n ↔ n.toNat < 2 ^ 63
  := by
  rw [← varintSize_le_nine]
  constructor
  · intro h
    exact (decodeVarint_eq_ok.mp (h []).1).2
  · intro hsize rest
    have hparse := parseGroups_writeVarint n rest
    have hdecode := decodeVarint_eq_ok.mpr ⟨hparse, hsize⟩
    refine ⟨hdecode, decodeVarintStrict_eq_ok.mpr ⟨hdecode, rfl⟩, ?_⟩
    intro σ source s hs
    rw [← hs] at hparse
    have hread := (readFrom_eq_ok source).mpr ⟨hparse, varintSize_le_ten n⟩
    exact ⟨hread, hread⟩

/-- The decoders agree exactly when there is no number of ten bytes that fits into 64 bits. -/
theorem decodersAgree_iff {bytes : Bytes} :
  DecodersAgree bytes ↔ ¬ HasTenBytes bytes
  := by
  constructor
  · rintro h hten
    obtain ⟨value, hparse⟩ := hasTenBytes_iff.mp hten
    have hread := (readFrom_eq_ok slice).mpr ⟨hparse, Nat.le_refl 10⟩
    have hdecode := ((h _ slice bytes rfl value 10).1).mp hread
    exact absurd (decodeVarint_eq_ok.mp hdecode).2 (by decide)
  · rintro hten σ source s rfl value consumed
    have hagree : readFrom source (readVarint source) s = .ok (value, consumed) ↔
        decodeVarint (source.contents s) = .ok (value, consumed) := by
      rw [readFrom_eq_ok, decodeVarint_eq_ok]
      apply and_congr_right
      intro hparse
      constructor
      · intro hle
        by_contra hnine
        obtain rfl : consumed = 10 := by omega
        exact hten (hasTenBytes_iff.mpr ⟨value, hparse⟩)
      · intro hle
        exact Nat.le_succ_of_le hle
    exact ⟨hagree, hagree⟩

/-- Without such a number the strict decoder accepts what begins with a number as it is written. -/
theorem strictMinimal {bytes : Bytes} (h : ¬ HasTenBytes bytes) :
  StrictMinimal bytes
  := by
  constructor
  · rintro ⟨value, consumed, hok⟩
    obtain ⟨hdecode, rfl⟩ := decodeVarintStrict_eq_ok.mp hok
    have hparse := (decodeVarint_eq_ok.mp hdecode).1
    rw [varintSize_eq] at hparse
    obtain ⟨rest, hrest⟩ := eq_varint_of_parseGroups hparse
    refine ⟨value, rest, ?_⟩
    rw [writeVarint_eq]
    exact hrest
  · rintro ⟨n, rest, rfl⟩
    have hparse := parseGroups_writeVarint n rest
    have hsize : varintSize n ≤ 9 := by
      by_contra hnine
      have hten := varintSize_le_ten n
      rw [show varintSize n = 10 by omega] at hparse
      exact h (hasTenBytes_iff.mpr ⟨n, hparse⟩)
    exact ⟨n, _, decodeVarintStrict_eq_ok.mpr ⟨decodeVarint_eq_ok.mpr ⟨hparse, hsize⟩, rfl⟩⟩

/-- The writers, the encoder and the size function always agree, and no decoder loses a bit.  A number
is read back by every decoder exactly when it has 63 bits, and the decoders accept the same, the strict
one what is minimal, exactly when the bytes do not begin with a number of ten bytes that fits into 64
bits. -/
theorem codecs_agree_iff (n : UInt64) (bytes : Bytes) :
  (Written n ∧ NotTruncated bytes) ∧ (ReadBack n ↔ n.toNat < 2 ^ 63) ∧
    (DecodersAgree bytes ∧ StrictMinimal bytes ↔ ¬ HasTenBytes bytes)
  := by
  refine ⟨⟨written n, notTruncated bytes⟩, readBack_iff, ?_⟩
  constructor
  · rintro ⟨hagree, -⟩
    exact decodersAgree_iff.mp hagree
  · intro h
    exact ⟨decodersAgree_iff.mpr h, strictMinimal h⟩

/-- The number 2 ^ 63 as it is written. -/
def tenBytes : Bytes := List.replicate 9 0x80 ++ [0x01]

/-- The readers of sources read the number 2 ^ 63, and the reader of a slice refuses it. -/
theorem codecs_differ :
  decodeVarint tenBytes = .error .overflow ∧
    readFrom slice (readVarint slice) tenBytes = .ok (9223372036854775808, 10) ∧
    ¬ ReadBack 9223372036854775808 ∧ ¬ DecodersAgree tenBytes
  := by
  have hread : readFrom slice (readVarint slice) tenBytes = .ok (9223372036854775808, 10) :=
    (readFrom_eq_ok slice).mpr ⟨by decide, Nat.le_refl 10⟩
  refine ⟨by decide, hread, ?_, ?_⟩
  · rw [readBack_iff]
    decide
  · rw [decodersAgree_iff, not_not]
    refine ⟨List.replicate 9 0x80, 0x01, [], rfl, rfl, ?_, Nat.le_refl 1⟩
    intro byte hbyte
    rw [List.eq_of_mem_replicate hbyte]
    decide

end Atproto.Car.Codecs
