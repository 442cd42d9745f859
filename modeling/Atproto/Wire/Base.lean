import Mathlib.Data.List.GetD
import Mathlib.Tactic.Ring

/-!
# Digits of `w` bits

A byte string is written in digits of `w` bits: its bits, filled up with zeros, in groups
of `w`.  Reading takes the groups of eight bits and leaves out what is left over, so what
was written is read back when a digit has at most eight bits.
-/

namespace Wire

/-! ### Bits of a number -/

/-- The last `w` bits of a number, the highest first. -/
@[grind =]
def bits : Nat → Nat → List Bool
  | 0, _ => []
  | w + 1, value => decide (value / 2 ^ w % 2 = 1) :: bits w value

/-- The number of some bits, the highest first. -/
@[grind =]
def ofBits : List Bool → Nat
  | [] => 0
  | bit :: rest => bit.toNat * 2 ^ rest.length + ofBits rest

@[simp]
theorem length_bits (w value : Nat) :
  (bits w value).length = w
  := by
  induction w with
  | zero => rfl
  | succ w ih => rw [bits, List.length_cons, ih]

theorem ofBits_lt (xs : List Bool) :
  ofBits xs < 2 ^ xs.length
  := by
  induction xs with
  | nil => exact Nat.zero_lt_one
  | cons bit rest ih =>
    rw [ofBits, List.length_cons, Nat.pow_succ]
    cases bit <;> simp only [Bool.toNat_true, Bool.toNat_false] <;> omega

theorem ofBits_bits (w value : Nat) :
  ofBits (bits w value) = value % 2 ^ w
  := by
  induction w with
  | zero => rw [bits, ofBits, Nat.pow_zero, Nat.mod_one]
  | succ w ih =>
    have hbit : (decide (value / 2 ^ w % 2 = 1)).toNat = value / 2 ^ w % 2 := by
      rcases Nat.mod_two_eq_zero_or_one (value / 2 ^ w) with h | h <;> rw [h] <;> rfl
    rw [bits, ofBits, length_bits, ih, hbit, Nat.pow_succ, Nat.mod_mul]
    ring

theorem bits_add_mul (w value : Nat) (high : Nat) :
  bits w (high * 2 ^ w + value) = bits w value
  := by
  induction w generalizing high with
  | zero => rfl
  | succ w ih =>
    have hhigh : high * 2 ^ (w + 1) = 2 * high * 2 ^ w := by ring
    have hbit : (2 * high * 2 ^ w + value) / 2 ^ w % 2 = value / 2 ^ w % 2 := by
      rw [Nat.mul_comm _ (2 ^ w), Nat.mul_add_div (Nat.two_pow_pos w), Nat.mul_add_mod]
    rw [hhigh, bits, bits, hbit, ih]

theorem bits_ofBits (xs : List Bool) :
  bits xs.length (ofBits xs) = xs
  := by
  induction xs with
  | nil => rfl
  | cons bit rest ih =>
    have hdiv : (bit.toNat * 2 ^ rest.length + ofBits rest) / 2 ^ rest.length = bit.toNat := by
      rw [Nat.mul_comm, Nat.mul_add_div (Nat.two_pow_pos _), Nat.div_eq_of_lt (ofBits_lt rest),
        Nat.add_zero]
    rw [List.length_cons, ofBits, bits, hdiv, bits_add_mul, ih]
    cases bit <;> rfl

/-! ### Groups -/

/-- The first `count` groups of `w` elements. -/
@[grind =]
def groups {α : Type} (w : Nat) : Nat → List α → List (List α)
  | 0, _ => []
  | count + 1, xs => xs.take w :: groups w count (xs.drop w)

variable {α : Type}

theorem length_of_mem_groups {w count : Nat} {xs : List α} (hlength : w * count ≤ xs.length)
    {g : List α} (hg : g ∈ groups w count xs) :
  g.length = w
  := by
  induction count generalizing xs with
  | zero => cases hg
  | succ count ih =>
    rw [Nat.mul_succ] at hlength
    rcases List.mem_cons.mp hg with rfl | hg
    · rw [List.length_take]
      omega
    · apply ih _ hg
      rw [List.length_drop]
      omega

theorem flatten_groups (w count : Nat) (xs : List α) :
  (groups w count xs).flatten = xs.take (w * count)
  := by
  induction count generalizing xs with
  | zero => rfl
  | succ count ih =>
    rw [groups, List.flatten_cons, ih, Nat.mul_succ, Nat.add_comm, List.take_add]

/-- The groups of a list that was put together from groups. -/
theorem groups_flatten {w : Nat} {gs : List (List α)} (hgs : ∀ g ∈ gs, g.length = w)
    (rest : List α) :
  groups w gs.length (gs.flatten ++ rest) = gs
  := by
  induction gs with
  | nil => rfl
  | cons g gs ih =>
    have hg : g.length = w := hgs g List.mem_cons_self
    rw [List.flatten_cons, List.append_assoc, List.length_cons, groups,
      List.take_left' hg, List.drop_left' hg, ih fun g' hg' => hgs g' (List.mem_cons_of_mem g hg')]

/-! ### Digits -/

/-- The bits of some bytes. -/
def byteBits (data : List UInt8) : List Bool := (data.map fun byte => bits 8 byte.toNat).flatten

/-- The digits of some bytes. -/
def toDigits (w : Nat) (data : List UInt8) : List Nat :=
  (groups w ((8 * data.length + w - 1) / w) (byteBits data ++ List.replicate w false)).map ofBits

/-- The bytes of some digits. -/
def ofDigits (w : Nat) (digits : List Nat) : List UInt8 :=
  (groups 8 (w * digits.length / 8) (digits.map (bits w)).flatten).map
    fun g => UInt8.ofNat (ofBits g)

theorem length_byteBits (data : List UInt8) :
  (byteBits data).length = 8 * data.length
  := by
  induction data with
  | nil => rfl
  | cons byte data ih =>
    rw [byteBits, List.map_cons, List.flatten_cons, List.length_append, length_bits, ← byteBits,
      ih, List.length_cons]
    ring

theorem groups_length_count (w count : Nat) (xs : List α) :
  (groups w count xs).length = count
  := by
  induction count generalizing xs with
  | zero => rfl
  | succ count ih => rw [groups, List.length_cons, ih]

theorem lt_of_mem_toDigits {w : Nat} {data : List UInt8} {digit : Nat}
    (hdigit : digit ∈ toDigits w data) :
  digit < 2 ^ w
  := by
  obtain ⟨g, hg, rfl⟩ := List.mem_map.mp hdigit
  have hlength : g.length = w := by
    apply length_of_mem_groups _ hg
    rw [List.length_append, length_byteBits, List.length_replicate]
    exact (Nat.mul_div_le _ w).trans (Nat.sub_le _ 1)
  rw [← hlength]
  exact ofBits_lt g

theorem ofNat_ofBits_bits (byte : UInt8) :
  UInt8.ofNat (ofBits (bits 8 byte.toNat)) = byte
  := by
  rw [ofBits_bits, Nat.mod_eq_of_lt byte.toNat_lt, UInt8.ofNat_toNat]

/-- Bytes that were written are read back. -/
theorem ofDigits_toDigits {w : Nat} (hpos : 0 < w) (hw : w ≤ 8) (data : List UInt8) :
  ofDigits w (toDigits w data) = data
  := by
  let count := (8 * data.length + w - 1) / w
  let filled := byteBits data ++ List.replicate w false
  have hdiv : w * count ≤ 8 * data.length + w - 1 := Nat.mul_div_le _ w
  have hmod : 8 * data.length + w - 1 < w * (count + 1) := Nat.lt_mul_div_succ _ hpos
  rw [Nat.mul_succ] at hmod
  have hfilled : filled.length = 8 * data.length + w := by
    rw [List.length_append, length_byteBits, List.length_replicate]
  have hback : ((toDigits w data).map (bits w)).flatten = filled.take (w * count) := by
    have hbits : ∀ g ∈ groups w count filled, bits w (ofBits g) = g := by
      intro g hg
      have hlength : g.length = w := length_of_mem_groups (by omega) hg
      calc bits w (ofBits g) = bits g.length (ofBits g) := by rw [hlength]
        _ = g := bits_ofBits g
    rw [toDigits, List.map_map, ← flatten_groups]
    congr 1
    exact (List.map_congr_left hbits).trans (List.map_id _)
  have hcount : w * (toDigits w data).length / 8 = data.length := by
    rw [toDigits, List.length_map, groups_length_count]
    change w * count / 8 = data.length
    omega
  have htake : filled.take (w * count) =
      byteBits data ++ (List.replicate w false).take (w * count - 8 * data.length) := by
    rw [List.take_append, length_byteBits, List.take_of_length_le]
    rw [length_byteBits]
    omega
  have hgroups : groups 8 data.length (filled.take (w * count)) =
      data.map fun byte => bits 8 byte.toNat := by
    have hlengths : ∀ g ∈ data.map fun byte => bits 8 byte.toNat, g.length = 8 := by
      intro g hg
      obtain ⟨byte, _, rfl⟩ := List.mem_map.mp hg
      exact length_bits 8 byte.toNat
    have h := groups_flatten hlengths ((List.replicate w false).take (w * count - 8 * data.length))
    rw [List.length_map] at h
    rw [htake, byteBits, h]
  rw [ofDigits, hback, hcount, hgroups, List.map_map]
  exact (List.map_congr_left fun byte _ => ofNat_ofBits_bits byte).trans (List.map_id _)

/-! ### Numbers -/

/-- The last `n` digits of a number in base `b`, the highest first. -/
@[grind =]
def digitsOf (b : Nat) : Nat → Nat → List Nat
  | 0, _ => []
  | n + 1, value => value / b ^ n % b :: digitsOf b n value

/-- The number of some digits in base `b`, the highest first. -/
@[grind =]
def valueOf (b : Nat) : List Nat → Nat
  | [] => 0
  | digit :: digits => digit * b ^ digits.length + valueOf b digits

theorem length_digitsOf (b n value : Nat) :
  (digitsOf b n value).length = n
  := by
  induction n with
  | zero => rfl
  | succ n ih => rw [digitsOf, List.length_cons, ih]

theorem lt_of_mem_digitsOf {b n value digit : Nat} (hb : 0 < b) (h : digit ∈ digitsOf b n value) :
  digit < b
  := by
  induction n with
  | zero => cases h
  | succ n ih =>
    rcases List.mem_cons.mp h with rfl | h
    · exact Nat.mod_lt _ hb
    · exact ih h

theorem valueOf_digitsOf (b n value : Nat) :
  valueOf b (digitsOf b n value) = value % b ^ n
  := by
  induction n with
  | zero => rw [digitsOf, valueOf, Nat.pow_zero, Nat.mod_one]
  | succ n ih =>
    rw [digitsOf, valueOf, length_digitsOf, ih, Nat.pow_succ, Nat.mod_mul]
    ring

/-- The digits of a number are those of its quotient, and its remainder. -/
theorem digitsOf_succ (b n value : Nat) :
  digitsOf b (n + 1) value = digitsOf b n (value / b) ++ [value % b]
  := by
  induction n with
  | zero => simp [digitsOf]
  | succ n ih =>
    rw [digitsOf, ih, digitsOf, List.cons_append, Nat.div_div_eq_div_mul, Nat.pow_succ,
      Nat.mul_comm b]

theorem valueOf_lt {b : Nat} {digits : List Nat} (h : ∀ digit ∈ digits, digit < b) :
  valueOf b digits < b ^ digits.length
  := by
  induction digits with
  | nil => exact Nat.zero_lt_one
  | cons digit digits ih =>
    obtain ⟨hdigit, hdigits⟩ := List.forall_mem_cons.mp h
    have hlow := ih hdigits
    have hle : (digit + 1) * b ^ digits.length ≤ b * b ^ digits.length :=
      Nat.mul_le_mul_right _ hdigit
    rw [Nat.add_mul, Nat.one_mul] at hle
    rw [valueOf, List.length_cons, Nat.pow_succ, Nat.mul_comm (b ^ digits.length)]
    omega

theorem digitsOf_add_mul {b : Nat} (hb : 0 < b) (n value high : Nat) :
  digitsOf b n (high * b ^ n + value) = digitsOf b n value
  := by
  induction n generalizing high with
  | zero => rfl
  | succ n ih =>
    have hhigh : high * b ^ (n + 1) = high * b * b ^ n := by ring
    have hdigit : (high * b * b ^ n + value) / b ^ n % b = value / b ^ n % b := by
      rw [Nat.mul_comm _ (b ^ n), Nat.mul_add_div (Nat.pow_pos hb), Nat.mul_comm high,
        Nat.mul_add_mod]
    rw [hhigh, digitsOf, digitsOf, hdigit, ih]

/-- Digits are those of their number. -/
theorem digitsOf_valueOf {b : Nat} {digits : List Nat} (h : ∀ digit ∈ digits, digit < b) :
  digitsOf b digits.length (valueOf b digits) = digits
  := by
  induction digits with
  | nil => rfl
  | cons digit digits ih =>
    obtain ⟨hdigit, hdigits⟩ := List.forall_mem_cons.mp h
    have hb : 0 < b := Nat.zero_lt_of_lt hdigit
    have hfirst : (digit * b ^ digits.length + valueOf b digits) / b ^ digits.length = digit := by
      rw [Nat.mul_comm, Nat.mul_add_div (Nat.pow_pos hb), Nat.div_eq_of_lt (valueOf_lt hdigits),
        Nat.add_zero]
    rw [List.length_cons, valueOf, digitsOf, hfirst, Nat.mod_eq_of_lt hdigit,
      digitsOf_add_mul hb, ih hdigits]

/-! ### Alphabets -/

/-- Write digits in the letters of an alphabet. -/
def spell (alphabet : List UInt8) (digits : List Nat) : List UInt8 :=
  digits.map fun digit => alphabet.getD digit 0

/-- Read digits in the letters of an alphabet. -/
def unspell (alphabet : List UInt8) : List UInt8 → Option (List Nat)
  | [] => some []
  | letter :: letters =>
    if alphabet.contains letter then
      (unspell alphabet letters).map fun digits => alphabet.idxOf letter :: digits
    else none

theorem mem_of_mem_spell {alphabet : List UInt8} {digits : List Nat}
    (hdigits : ∀ digit ∈ digits, digit < alphabet.length) {letter : UInt8}
    (h : letter ∈ spell alphabet digits) :
  letter ∈ alphabet
  := by
  obtain ⟨digit, hdigit, rfl⟩ := List.mem_map.mp h
  rw [List.getD_eq_getElem _ _ (hdigits digit hdigit)]
  exact List.getElem_mem _

/-- Digits that were written are read back. -/
theorem unspell_spell {alphabet : List UInt8} (hnodup : alphabet.Nodup) {digits : List Nat}
    (hdigits : ∀ digit ∈ digits, digit < alphabet.length) :
  unspell alphabet (spell alphabet digits) = some digits
  := by
  induction digits with
  | nil => rfl
  | cons digit digits ih =>
    obtain ⟨hdigit, hrest⟩ := List.forall_mem_cons.mp hdigits
    have hletter : alphabet.getD digit 0 = alphabet[digit] := List.getD_eq_getElem _ _ hdigit
    have hmem : alphabet.contains (alphabet.getD digit 0) = true := by
      rw [hletter, List.contains_iff_mem]
      exact List.getElem_mem _
    rw [spell, List.map_cons, unspell, if_pos hmem, ← spell, ih hrest, hletter,
      hnodup.idxOf_getElem]
    rfl

end Wire
