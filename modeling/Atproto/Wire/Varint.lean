import Atproto.Wire.Reader
import Mathlib.Data.Nat.Basic
import Mathlib.Tactic.Ring

/-!
# Numbers of varying length

A number is written in groups of seven bits, the lowest first, and all bytes but the last
have their high bit set.  The last byte is zero for the number zero only, so a number has
one form.
-/

namespace Wire

/-- The groups of a number, of which there are at most `fuel + 1`. -/
@[grind =]
def varintGroups : Nat → Nat → List UInt8
  | 0, value => [UInt8.ofNat value]
  | fuel + 1, value =>
    if value < 128 then [UInt8.ofNat value]
    else UInt8.ofNat (128 + value % 128) :: varintGroups fuel (value / 128)

/-- The bytes of a number. -/
def varint (value : Nat) : List UInt8 := varintGroups value value

variable {ε : Type}

/-- Read a number. -/
def readVarint (error : ε) : Reader ε Nat
  | [] => .error error
  | byte :: rest =>
    if byte.toNat < 128 then .ok (byte.toNat, rest)
    else
      match readVarint error rest with
      | .error e => .error e
      | .ok (high, rest) =>
        if high = 0 then .error error else .ok (byte.toNat - 128 + 128 * high, rest)

theorem readVarint_varintGroups {error : ε} {fuel value : Nat} (h : value < 128 * (fuel + 1))
    (rest : List UInt8) :
  readVarint error (varintGroups fuel value ++ rest) = .ok (value, rest)
  := by
  induction fuel generalizing value with
  | zero =>
    have hbyte : (UInt8.ofNat value).toNat = value :=
      UInt8.toNat_ofNat'.trans (Nat.mod_eq_of_lt (by omega))
    rw [varintGroups, List.singleton_append, readVarint, hbyte, if_pos (by omega)]
  | succ fuel ih =>
    rw [varintGroups]
    split_ifs with hsmall
    · have hbyte : (UInt8.ofNat value).toNat = value :=
        UInt8.toNat_ofNat'.trans (Nat.mod_eq_of_lt (by omega))
      rw [List.singleton_append, readVarint, hbyte, if_pos hsmall]
    · have hbyte : (UInt8.ofNat (128 + value % 128)).toNat = 128 + value % 128 :=
        UInt8.toNat_ofNat'.trans (Nat.mod_eq_of_lt (by omega))
      rw [List.cons_append, readVarint, hbyte, if_neg (by omega), ih (by omega)]
      simp only
      rw [if_neg (by omega)]
      congr 2
      omega

theorem readVarint_varint {error : ε} (value : Nat) (rest : List UInt8) :
  readVarint error (varint value ++ rest) = .ok (value, rest)
  := readVarint_varintGroups (by omega) rest

/-- More fuel than needed changes nothing. -/
theorem varintGroups_eq {fuel fuel' value : Nat} (h : value < 128 * (fuel + 1))
    (h' : value < 128 * (fuel' + 1)) :
  varintGroups fuel value = varintGroups fuel' value
  := by
  induction fuel generalizing fuel' value with
  | zero =>
    cases fuel' with
    | zero => rfl
    | succ fuel' => rw [varintGroups, varintGroups, if_pos (by omega)]
  | succ fuel ih =>
    cases fuel' with
    | zero => rw [varintGroups, varintGroups, if_pos (by omega)]
    | succ fuel' =>
      rw [varintGroups, varintGroups]
      split_ifs with hsmall
      · rfl
      · rw [@ih fuel' (value / 128) (by omega) (by omega)]

theorem varint_of_lt {value : Nat} (h : value < 128) :
  varint value = [UInt8.ofNat value]
  := @varintGroups_eq value 0 value (by omega) (by omega)

theorem varint_of_ge {value : Nat} (h : 128 ≤ value) :
  varint value = UInt8.ofNat (128 + value % 128) :: varint (value / 128)
  := by
  have hgroups : varint value = varintGroups (value / 128 + 1) value :=
    varintGroups_eq (by omega) (by omega)
  rw [hgroups, varintGroups, if_neg (by omega)]
  rfl

theorem readVarint_parses {error : ε} :
  Parses (readVarint error) fun value bytes => bytes = varint value
  := by
  intro input
  induction input with
  | nil => nofun
  | cons byte input ih =>
    intro value rest hok
    have hbyte := byte.toNat_lt
    rw [readVarint] at hok
    split_ifs at hok with hsmall
    · cases hok
      use [byte], rfl
      change [byte] = varint byte.toNat
      rw [varint_of_lt hsmall, UInt8.ofNat_toNat]
    · cases hread : readVarint error input with
      | error e =>
        rw [hread] at hok
        cases hok
      | ok p =>
        obtain ⟨high, rest'⟩ := p
        obtain ⟨bytes, rfl, rfl⟩ := ih high rest' hread
        rw [hread] at hok
        simp only at hok
        split_ifs at hok with hzero
        cases hok
        use byte :: varint high, rfl
        change byte :: varint high = varint (byte.toNat - 128 + 128 * high)
        have hhigh : (byte.toNat - 128 + 128 * high) / 128 = high := by omega
        have hlow : 128 + (byte.toNat - 128 + 128 * high) % 128 = byte.toNat := by omega
        have hge : 128 ≤ byte.toNat - 128 + 128 * high := by omega
        rw [varint_of_ge hge, hhigh, hlow, UInt8.ofNat_toNat]

/-! ### Groups in any form -/

/-- The number at the front of some bytes and how many bytes it has, in its one form or a longer
one. -/
@[grind =]
def parseGroups : List UInt8 → Option (Nat × Nat)
  | [] => none
  | byte :: rest =>
    if byte.toNat < 128 then some (byte.toNat, 1)
    else (parseGroups rest).map fun p => (byte.toNat - 128 + 128 * p.1, p.2 + 1)

theorem parseGroups_bounds {bytes : List UInt8} {value length : Nat}
    (h : parseGroups bytes = some (value, length)) :
  1 ≤ length ∧ length ≤ bytes.length ∧ value < 128 ^ length
  := by
  induction bytes generalizing value length with
  | nil => cases h
  | cons byte bytes ih =>
    rw [parseGroups] at h
    have hbyte := byte.toNat_lt
    split_ifs at h with hsmall
    · cases h
      exact ⟨Nat.le_refl 1, Nat.succ_le_succ (Nat.zero_le _), hsmall⟩
    · obtain ⟨⟨high, count⟩, hparse, heq⟩ := Option.map_eq_some_iff.mp h
      cases heq
      obtain ⟨-, hcount, hhigh⟩ := ih hparse
      refine ⟨Nat.succ_pos _, Nat.succ_le_succ hcount, ?_⟩
      rw [Nat.pow_succ]
      simp only at hhigh ⊢
      omega

theorem parseGroups_varint (value : Nat) (rest : List UInt8) :
  parseGroups (varint value ++ rest) = some (value, (varint value).length)
  := by
  induction value using Nat.strong_induction_on with
  | h value ih =>
    rcases Nat.lt_or_ge value 128 with hsmall | hlarge
    · have hbyte : (UInt8.ofNat value).toNat = value :=
        UInt8.toNat_ofNat'.trans (Nat.mod_eq_of_lt (by omega))
      rw [varint_of_lt hsmall, List.singleton_append, parseGroups, hbyte, if_pos hsmall]
      rfl
    · have hbyte : (UInt8.ofNat (128 + value % 128)).toNat = 128 + value % 128 :=
        UInt8.toNat_ofNat'.trans (Nat.mod_eq_of_lt (by omega))
      rw [varint_of_ge hlarge, List.cons_append, parseGroups, hbyte, if_neg (by omega),
        ih _ (by omega), Option.map_some, List.length_cons]
      congr 2
      simp only
      omega

/-- A number that has as many bytes as its one form is in this form. -/
theorem eq_varint_of_parseGroups {bytes : List UInt8} {value : Nat}
    (h : parseGroups bytes = some (value, (varint value).length)) :
  ∃ rest, bytes = varint value ++ rest
  := by
  induction bytes generalizing value with
  | nil => cases h
  | cons byte bytes ih =>
    have hbyte := byte.toNat_lt
    rw [parseGroups] at h
    split_ifs at h with hsmall
    · obtain ⟨rfl, -⟩ := Prod.mk.injEq _ _ _ _ ▸ Option.some.inj h
      refine ⟨bytes, ?_⟩
      rw [varint_of_lt hsmall, UInt8.ofNat_toNat]
      rfl
    · obtain ⟨⟨high, count⟩, hparse, heq⟩ := Option.map_eq_some_iff.mp h
      rw [Prod.mk.injEq] at heq
      obtain ⟨rfl, hcount⟩ := heq
      have hpos := (parseGroups_bounds hparse).1
      simp only at hcount hparse ⊢
      have hge : 128 ≤ byte.toNat - 128 + 128 * high := by
        by_contra hlt
        rw [varint_of_lt (by omega), List.length_singleton] at hcount
        omega
      have hhigh : (byte.toNat - 128 + 128 * high) / 128 = high := by omega
      have hlow : 128 + (byte.toNat - 128 + 128 * high) % 128 = byte.toNat := by omega
      rw [varint_of_ge hge, hhigh, List.length_cons] at hcount
      obtain rfl : count = (varint high).length := by omega
      obtain ⟨rest, rfl⟩ := ih hparse
      refine ⟨rest, ?_⟩
      rw [varint_of_ge hge, hhigh, hlow, UInt8.ofNat_toNat]
      rfl

theorem length_varint_le {value n : Nat} :
  (varint value).length ≤ n + 1 ↔ value < 128 ^ (n + 1)
  := by
  induction n generalizing value with
  | zero =>
    rcases Nat.lt_or_ge value 128 with hsmall | hlarge
    · rw [varint_of_lt hsmall]
      exact iff_of_true (Nat.le_refl 1) hsmall
    · rw [varint_of_ge hlarge, List.length_cons]
      apply iff_of_false
      · have hpos := (parseGroups_bounds (parseGroups_varint (value / 128) [])).1
        omega
      · omega
  | succ n ih =>
    rcases Nat.lt_or_ge value 128 with hsmall | hlarge
    · rw [varint_of_lt hsmall]
      apply iff_of_true
      · exact Nat.succ_le_succ (Nat.zero_le _)
      · exact Nat.lt_of_lt_of_le hsmall (Nat.le_self_pow (Nat.succ_ne_zero _) 128)
    · rw [varint_of_ge hlarge, List.length_cons, Nat.succ_le_succ_iff, ih, Nat.pow_succ 128 (n + 1),
        Nat.div_lt_iff_lt_mul (by decide)]

/-- Bytes with their high bit set are the lower groups of a number, whatever its last group is. -/
theorem exists_low {front : List UInt8} (hfront : ∀ byte ∈ front, 128 ≤ byte.toNat) :
  ∃ low, low < 128 ^ front.length ∧ ∀ last rest, last.toNat < 128 →
    parseGroups (front ++ last :: rest) =
      some (low + last.toNat * 128 ^ front.length, front.length + 1)
  := by
  induction front with
  | nil =>
    refine ⟨0, Nat.one_pos, ?_⟩
    intro last rest hlast
    rw [List.nil_append, parseGroups, if_pos hlast]
    simp
  | cons byte front ih =>
    obtain ⟨hbyte, hall⟩ := List.forall_mem_cons.mp hfront
    obtain ⟨low, hlow, hparse⟩ := ih hall
    have hlt := byte.toNat_lt
    refine ⟨byte.toNat - 128 + 128 * low, ?_, ?_⟩
    · rw [List.length_cons, Nat.pow_succ]
      omega
    · intro last rest hlast
      have hvalue : byte.toNat - 128 + 128 * (low + last.toNat * 128 ^ front.length) =
          byte.toNat - 128 + 128 * low + last.toNat * (128 ^ front.length * 128) := by ring
      rw [List.cons_append, parseGroups, if_neg (Nat.not_lt.mpr hbyte), hparse last rest hlast,
        Option.map_some, List.length_cons, Nat.pow_succ]
      exact congrArg (fun v => some (v, front.length + 1 + 1)) hvalue

/-- All bytes of a number but the last have their high bit set. -/
theorem exists_front {bytes : List UInt8} {value n : Nat}
    (h : parseGroups bytes = some (value, n + 1)) :
  ∃ front last rest, bytes = front ++ last :: rest ∧ front.length = n ∧
    (∀ byte ∈ front, 128 ≤ byte.toNat) ∧ last.toNat < 128
  := by
  induction bytes generalizing value n with
  | nil => cases h
  | cons byte bytes ih =>
    by_cases hsmall : byte.toNat < 128
    · rw [parseGroups, if_pos hsmall] at h
      cases h
      exact ⟨[], byte, bytes, rfl, rfl, by simp, hsmall⟩
    · rw [parseGroups, if_neg hsmall] at h
      obtain ⟨⟨high, count⟩, hparse, heq⟩ := Option.map_eq_some_iff.mp h
      obtain ⟨hpos, -, -⟩ := parseGroups_bounds hparse
      obtain ⟨m, rfl⟩ := Nat.exists_eq_add_of_lt hpos
      rw [Nat.zero_add] at hparse heq
      obtain ⟨front, last, rest, rfl, hfront, hall, hlast⟩ := ih hparse
      rw [Prod.mk.injEq] at heq
      refine ⟨byte :: front, last, rest, rfl, ?_, ?_, hlast⟩
      · rw [List.length_cons, hfront]
        exact Nat.succ.inj heq.2
      · rw [List.forall_mem_cons]
        exact ⟨Nat.not_lt.mp hsmall, hall⟩

end Wire
