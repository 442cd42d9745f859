import Mathlib.Data.List.Lex
import Mathlib.Data.Nat.Basic
import Mathlib.Tactic.Ring

/-!
# Big-endian numbers

A number below `256 ^ n` has one form of `n` bytes, and the order of numbers is the
lexicographic order of their bytes.
-/

namespace Wire

/-- The numbers of some bytes, whose lexicographic order is the order of byte strings. -/
def codes (bytes : List UInt8) : List Nat := bytes.map UInt8.toNat

theorem codes_injective :
  Function.Injective codes
  := by
  apply List.map_injective_iff.mpr
  intro x y hxy
  exact UInt8.toNat_inj.mp hxy

theorem codes_append (a b : List UInt8) :
  codes (a ++ b) = codes a ++ codes b
  := List.map_append

/-- Byte strings of one length are ordered as they are in front of others. -/
theorem append_lt_append_of_lt {a b : List Nat} (hlength : a.length = b.length) (h : a < b)
    (x y : List Nat) :
  a ++ x < b ++ y
  := by
  induction a generalizing b with
  | nil =>
    rw [List.length_eq_zero_iff.mp hlength.symm] at h
    exact absurd h (lt_irrefl [])
  | cons m a ih =>
    cases b with
    | nil => cases hlength
    | cons n b =>
      rw [List.cons_append, List.cons_append, List.cons_lt_cons_iff]
      apply (List.cons_lt_cons_iff.mp h).imp_right
      rintro ⟨rfl, hlt⟩
      exact ⟨rfl, ih (Nat.succ.inj hlength) hlt⟩

theorem append_lt_append_left {x y : List Nat} (h : x < y) (a : List Nat) :
  a ++ x < a ++ y
  := by
  induction a with
  | nil => exact h
  | cons m a ih => exact List.cons_lt_cons_iff.mpr (Or.inr ⟨rfl, ih⟩)

/-- The last `n` bytes of a number, the highest first. -/
@[grind =]
def beBytes : Nat → Nat → List UInt8
  | 0, _ => []
  | n + 1, value => UInt8.ofNat (value / 256 ^ n) :: beBytes n value

/-- The number of some bytes, the highest first. -/
@[grind =]
def beValue : List UInt8 → Nat
  | [] => 0
  | byte :: bytes => byte.toNat * 256 ^ bytes.length + beValue bytes

@[simp]
theorem length_beBytes (n value : Nat) :
  (beBytes n value).length = n
  := by
  induction n with
  | zero => rfl
  | succ n ih => rw [beBytes, List.length_cons, ih]

theorem beValue_lt (bytes : List UInt8) :
  beValue bytes < 256 ^ bytes.length
  := by
  induction bytes with
  | nil => exact Nat.zero_lt_one
  | cons byte bytes ih =>
    have hbyte := byte.toNat_lt
    rw [beValue, List.length_cons, Nat.pow_succ]
    calc byte.toNat * 256 ^ bytes.length + beValue bytes
        < byte.toNat * 256 ^ bytes.length + 256 ^ bytes.length := Nat.add_lt_add_left ih _
      _ = (byte.toNat + 1) * 256 ^ bytes.length := by ring
      _ ≤ 256 * 256 ^ bytes.length := Nat.mul_le_mul_right _ hbyte
      _ = 256 ^ bytes.length * 256 := Nat.mul_comm _ _

theorem beValue_beBytes_mod (n value : Nat) :
  beValue (beBytes n value) = value % 256 ^ n
  := by
  induction n with
  | zero =>
    rw [Nat.pow_zero, Nat.mod_one]
    rfl
  | succ n ih =>
    have hbyte : (UInt8.ofNat (value / 256 ^ n)).toNat = value / 256 ^ n % 256 :=
      UInt8.toNat_ofNat'
    rw [beBytes, beValue, length_beBytes, ih, hbyte, Nat.mod_pow_succ, Nat.mul_comm, Nat.add_comm]

theorem beValue_beBytes {n value : Nat} (h : value < 256 ^ n) :
  beValue (beBytes n value) = value
  := by
  rw [beValue_beBytes_mod, Nat.mod_eq_of_lt h]

theorem beBytes_add_mul (n value k : Nat) :
  beBytes n (k * 256 ^ n + value) = beBytes n value
  := by
  induction n generalizing k with
  | zero => rfl
  | succ n ih =>
    have hsplit : k * 256 ^ (n + 1) + value = k * 256 * 256 ^ n + value := by
      rw [Nat.pow_succ]
      ring
    have hhigh : (k * 256 * 256 ^ n + value) / 256 ^ n = k * 256 + value / 256 ^ n := by
      rw [Nat.add_comm, Nat.add_mul_div_right _ _ (Nat.pow_pos (by omega)), Nat.add_comm]
    have hbyte : UInt8.ofNat (k * 256 + value / 256 ^ n) = UInt8.ofNat (value / 256 ^ n) := by
      apply UInt8.toNat_inj.mp
      simp
    rw [hsplit, beBytes, beBytes, hhigh, hbyte, ih]

theorem beBytes_beValue (bytes : List UInt8) :
  beBytes bytes.length (beValue bytes) = bytes
  := by
  induction bytes with
  | nil => rfl
  | cons byte bytes ih =>
    have hlt := beValue_lt bytes
    have hhigh : (byte.toNat * 256 ^ bytes.length + beValue bytes) / 256 ^ bytes.length =
        byte.toNat := by
      rw [Nat.add_comm, Nat.add_mul_div_right _ _ (Nat.pow_pos (by omega)),
        Nat.div_eq_of_lt hlt, Nat.zero_add]
    rw [List.length_cons, beBytes, beValue, hhigh, beBytes_add_mul, ih, UInt8.ofNat_toNat]

/-- Numbers are ordered as their bytes are. -/
theorem codes_beBytes_lt {n a b : Nat} (h : a < b) (hb : b < 256 ^ n) :
  codes (beBytes n a) < codes (beBytes n b)
  := by
  induction n generalizing a b with
  | zero =>
    rw [Nat.pow_zero] at hb
    omega
  | succ n ih =>
    have hpos : 0 < 256 ^ n := Nat.pow_pos (by omega)
    have hbhigh : b / 256 ^ n < 256 := by
      rw [Nat.div_lt_iff_lt_mul hpos, Nat.mul_comm]
      rwa [Nat.pow_succ] at hb
    have hle : a / 256 ^ n ≤ b / 256 ^ n := Nat.div_le_div_right h.le
    have hahigh := hle.trans_lt hbhigh
    have ha' : (UInt8.ofNat (a / 256 ^ n)).toNat = a / 256 ^ n := by
      rw [UInt8.toNat_ofNat', Nat.mod_eq_of_lt hahigh]
    have hb' : (UInt8.ofNat (b / 256 ^ n)).toNat = b / 256 ^ n := by
      rw [UInt8.toNat_ofNat', Nat.mod_eq_of_lt hbhigh]
    rw [beBytes, beBytes, codes, codes, List.map_cons, List.map_cons, ha', hb',
      List.cons_lt_cons_iff]
    obtain hlt | heq := Nat.lt_or_eq_of_le hle
    · exact Or.inl hlt
    · right
      use heq
      have ha := Nat.div_add_mod' a (256 ^ n)
      have hb := Nat.div_add_mod' b (256 ^ n)
      have hmod : a % 256 ^ n < b % 256 ^ n := by
        rw [heq] at ha
        omega
      have hrec := ih hmod (Nat.mod_lt b hpos)
      rwa [← beBytes_add_mul n (a % 256 ^ n) (a / 256 ^ n), ha,
        ← beBytes_add_mul n (b % 256 ^ n) (b / 256 ^ n), hb] at hrec

end Wire
