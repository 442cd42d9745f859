import Mathlib.Data.List.Lex
import Mathlib.Tactic.IntervalCases
import Mathlib.Tactic.Ring

/-!
# Timestamp identifiers

A `Tid` is a 64-bit number made of a timestamp in microseconds and a 10-bit clock
identifier, written with 13 characters of a base-32 alphabet whose order is the order of
the characters.  The generator keeps the last timestamp and clock identifier it issued in
a cell shared by the whole process, here a state passed from call to call.  Texts are
lists of characters, compared lexicographically.
-/

namespace Atproto.Record

/-- The base32-sortable character set. -/
def base32Sortable : List Char :=
  ['2', '3', '4', '5', '6', '7', 'a', 'b', 'c', 'd', 'e', 'f', 'g', 'h', 'i', 'j',
   'k', 'l', 'm', 'n', 'o', 'p', 'q', 'r', 's', 't', 'u', 'v', 'w', 'x', 'y', 'z']

/-- A timestamp identifier, an unsigned 64-bit number. -/
structure Tid where
  /-- The number itself. -/
  value : Nat
  /-- It fits in 64 bits. -/
  value_lt : value < 2 ^ 64
deriving DecidableEq

namespace Tid

/-- The length of the text of a TID. -/
def length : Nat := 13

/-- The largest timestamp, of 53 bits. -/
def maxTimestamp : Nat := 2 ^ 53 - 1

/-- The largest clock identifier, of 10 bits. -/
def clockIdMask : Nat := 0x3FF

@[ext]
theorem ext {a b : Tid} (h : a.value = b.value) :
  a = b
  := by
  cases a
  cases b
  cases h
  rfl

/-- The TID of a timestamp and a clock identifier, unless one of them is too large. -/
def fromParts (timestampMicros clockId : Nat) : Option Tid :=
  if ht : timestampMicros ≤ maxTimestamp then
    if hc : clockId ≤ clockIdMask then
      some ⟨timestampMicros <<< 10 ||| clockId, by
        have ht' : timestampMicros <<< 10 < 2 ^ 64 := by
          rw [Nat.shiftLeft_eq]
          simp only [maxTimestamp] at ht
          omega
        have hc' : clockId < 2 ^ 64 := by
          simp only [clockIdMask] at hc
          omega
        exact Nat.or_lt_two_pow ht' hc'⟩
    else none
  else none

/-- The timestamp of a TID, in microseconds. -/
def timestampMicros (t : Tid) : Nat := t.value >>> 10

/-- The clock identifier of a TID. -/
def clockId (t : Tid) : Nat := t.value &&& clockIdMask

theorem clockId_lt (t : Tid) :
  t.clockId < 1024
  := by
  have h := @Nat.and_le_right t.value clockIdMask
  simp only [clockId, clockIdMask] at h ⊢
  omega

/-- A TID is its timestamp followed by its clock identifier. -/
theorem value_eq (t : Tid) :
  t.value = t.timestampMicros * 1024 + t.clockId
  := by
  have h : t.clockId = t.value % 1024 := Nat.and_two_pow_sub_one_eq_mod t.value 10
  rw [h, timestampMicros, Nat.shiftRight_eq_div_pow]
  omega

theorem value_of_fromParts {timestampMicros clockId : Nat} {t : Tid}
    (h : fromParts timestampMicros clockId = some t) :
  t.value = timestampMicros * 1024 + clockId
  := by
  unfold fromParts at h
  split at h
  case isFalse => cases h
  split at h
  case isFalse => cases h
  next hc =>
    cases h
    have hlt : clockId < 2 ^ 10 := by
      simp only [clockIdMask] at hc
      omega
    have hor := Nat.shiftLeft_add_eq_or_of_lt hlt timestampMicros
    rw [Nat.shiftLeft_eq] at hor
    simp only [Nat.shiftLeft_eq, ← hor]

/-! ### The text of a TID -/

/-- The character of a digit below 32. -/
def digitChar (d : Nat) : Char := base32Sortable.getD d '2'

/-- The last `i` digits of a number, most significant first, before the text `chars`. -/
@[grind =]
def encodeLoop : Nat → Nat → List Char → List Char
  | 0, _, chars => chars
  | i + 1, value, chars => encodeLoop i (value >>> 5) (digitChar (value &&& 0x1F) :: chars)

/-- The 13-character text of a TID. -/
def encode (t : Tid) : List Char := encodeLoop length t.value []

theorem digitChar_lt {d e : Nat} (hd : d < 32) (he : e < 32) :
  digitChar d < digitChar e ↔ d < e
  := by
  have h : ∀ d e : Fin 32, digitChar d < digitChar e ↔ d.val < e.val := by decide
  exact h ⟨d, hd⟩ ⟨e, he⟩

theorem digitChar_inj {d e : Nat} (hd : d < 32) (he : e < 32) (h : digitChar d = digitChar e) :
  d = e
  := by
  have hinj : ∀ d e : Fin 32, digitChar d = digitChar e → d.val = e.val := by decide
  exact hinj ⟨d, hd⟩ ⟨e, he⟩ h

theorem length_encodeLoop (i value : Nat) (chars : List Char) :
  (encodeLoop i value chars).length = i + chars.length
  := by
  induction i generalizing value chars with
  | zero => simp [encodeLoop]
  | succ i ih =>
    rw [encodeLoop, ih, List.length_cons]
    omega

theorem encodeLoop_append (i value : Nat) (chars : List Char) :
  encodeLoop i value chars = encodeLoop i value [] ++ chars
  := by
  induction i generalizing value chars with
  | zero => rfl
  | succ i ih =>
    rw [encodeLoop, ih, encodeLoop, ih (value >>> 5) [_]]
    simp

theorem lt_append_singleton_iff {a b : List Char} (h : a.length = b.length) (x y : Char) :
  a ++ [x] < b ++ [y] ↔ a < b ∨ a = b ∧ x < y
  := by
  induction a generalizing b with
  | nil =>
    cases List.length_eq_zero_iff.mp h.symm
    simp [List.cons_lt_cons_iff]
  | cons c a ih =>
    cases b with
    | nil => simp at h
    | cons d b =>
      have hlen : a.length = b.length := by simpa using h
      simp only [List.cons_append, List.cons_lt_cons_iff, ih hlen, List.cons.injEq]
      tauto

/-- Digits of equal number compare as the numbers they write. -/
theorem encodeLoop_spec (i : Nat) (v w : Nat) :
  (encodeLoop i v [] < encodeLoop i w [] ↔ v % 32 ^ i < w % 32 ^ i) ∧
    (encodeLoop i v [] = encodeLoop i w [] ↔ v % 32 ^ i = w % 32 ^ i)
  := by
  induction i generalizing v w with
  | zero => simp [encodeLoop, Nat.mod_one]
  | succ i ih =>
    have hstep : ∀ u, encodeLoop (i + 1) u [] =
        encodeLoop i (u / 32) [] ++ [digitChar (u % 32)] := by
      intro u
      have hand : u &&& 0x1F = u % 32 := Nat.and_two_pow_sub_one_eq_mod u 5
      rw [encodeLoop, encodeLoop_append, hand, Nat.shiftRight_eq_div_pow]
    have hmod : ∀ u, u % 32 ^ (i + 1) = u / 32 % 32 ^ i * 32 + u % 32 := by
      intro u
      rw [pow_succ, mul_comm, Nat.mod_mul]
      ring
    have hv : v % 32 < 32 := Nat.mod_lt _ (by decide)
    have hw : w % 32 < 32 := Nat.mod_lt _ (by decide)
    have hlen : (encodeLoop i (v / 32) []).length = (encodeLoop i (w / 32) []).length := by
      rw [length_encodeLoop, length_encodeLoop]
    obtain ⟨ihlt, iheq⟩ := ih (v / 32) (w / 32)
    constructor
    · rw [hstep, hstep, lt_append_singleton_iff hlen, ihlt, iheq, digitChar_lt hv hw,
        hmod, hmod]
      omega
    · constructor
      · intro h
        rw [hstep, hstep] at h
        obtain ⟨hinit, hlast⟩ := List.append_inj' h rfl
        have hdigit := digitChar_inj hv hw (List.cons.inj hlast).1
        rw [hmod, hmod, iheq.mp hinit, hdigit]
      · intro h
        rw [hmod, hmod] at h
        have hinit : v / 32 % 32 ^ i = w / 32 % 32 ^ i := by omega
        have hdigit : v % 32 = w % 32 := by omega
        rw [hstep, hstep, iheq.mpr hinit, hdigit]

/-- The texts of TIDs sort as the TIDs. -/
theorem encode_lt_encode {a b : Tid} :
  a.encode < b.encode ↔ a.value < b.value
  := by
  have ha : a.value % 32 ^ length = a.value := Nat.mod_eq_of_lt (by
    have h := a.value_lt
    simp only [length]
    omega)
  have hb : b.value % 32 ^ length = b.value := Nat.mod_eq_of_lt (by
    have h := b.value_lt
    simp only [length]
    omega)
  have h := (encodeLoop_spec length a.value b.value).1
  rwa [ha, hb] at h

/-! ### The generator -/

/-- The timestamp and clock identifier issued last, if the process has issued any. -/
abbrev LastTid : Type := Option (Nat × Nat)

/-- A clock identifier drawn from 32 random bits. -/
def randomClockId (random : Nat) : Nat := (random % 2 ^ 16) &&& clockIdMask

theorem randomClockId_le (random : Nat) :
  randomClockId random ≤ clockIdMask
  := Nat.and_le_right

/-- Issue a TID for a timestamp: the new TID and the new contents of the cell, or nothing
when the call panics. -/
def newWithTime (last : LastTid) (timestampMicros random : Nat) : Option (Tid × LastTid) :=
  if timestampMicros ≤ maxTimestamp then
    match last with
    | some (lastTimestamp, lastClock) =>
      if timestampMicros > lastTimestamp then
        issue timestampMicros (randomClockId random)
      else if timestampMicros = lastTimestamp then
        if lastClock = clockIdMask then
          issue timestampMicros (randomClockId random)
        else
          issue timestampMicros (lastClock + 1)
      else
        issue (lastTimestamp + 1) (randomClockId random)
    | none => issue timestampMicros (randomClockId random)
  else none
where
  /-- Store the parts in the cell and put them together. -/
  issue (timestamp clock : Nat) : Option (Tid × LastTid) :=
    (fromParts timestamp clock).map fun t => (t, some (timestamp, clock))

/-- The cell after a sequence of calls, each with a timestamp and random bits, none of
which panics. -/
def issueAll : LastTid → List (Nat × Nat) → Option LastTid
  | last, [] => some last
  | last, (timestampMicros, random) :: calls =>
    (newWithTime last timestampMicros random).bind fun (_, last') => issueAll last' calls

/-- The parts that a call issues, when it does not panic. -/
def nextParts (last : LastTid) (timestampMicros random : Nat) : Nat × Nat :=
  match last with
  | none => (timestampMicros, randomClockId random)
  | some (lastTimestamp, lastClock) =>
    if lastTimestamp < timestampMicros then (timestampMicros, randomClockId random)
    else if timestampMicros < lastTimestamp then (lastTimestamp + 1, randomClockId random)
    else if lastClock = clockIdMask then (timestampMicros, randomClockId random)
    else (timestampMicros, lastClock + 1)

/-- The clock identifier in the cell fits in 10 bits. -/
def ClockBounded (last : LastTid) : Prop :=
  ∀ timestamp clock, last = some (timestamp, clock) → clock ≤ clockIdMask

theorem newWithTime_eq (last : LastTid) (timestampMicros random : Nat) :
  newWithTime last timestampMicros random =
    if timestampMicros ≤ maxTimestamp then
      newWithTime.issue (nextParts last timestampMicros random).1
        (nextParts last timestampMicros random).2
    else none
  := by
  unfold newWithTime nextParts
  split
  case isFalse => rfl
  cases last with
  | none => rfl
  | some parts =>
    obtain ⟨lastTimestamp, lastClock⟩ := parts
    simp only
    split_ifs <;> first | rfl | omega

theorem nextParts_clock_le {last : LastTid} (h : ClockBounded last) (timestampMicros random : Nat) :
  (nextParts last timestampMicros random).2 ≤ clockIdMask
  := by
  have hrandom := randomClockId_le random
  cases last with
  | none => exact hrandom
  | some parts =>
    obtain ⟨lastTimestamp, lastClock⟩ := parts
    have hlast := h lastTimestamp lastClock rfl
    simp only [nextParts]
    split_ifs <;> simp only <;> omega

/-- A call succeeds exactly when both the timestamp asked for and the one issued fit in
53 bits, and it then issues the next parts. -/
theorem newWithTime_spec {last : LastTid} (h : ClockBounded last) {timestampMicros random : Nat} :
  (newWithTime last timestampMicros random = none ↔
      maxTimestamp < timestampMicros ∨
        maxTimestamp < (nextParts last timestampMicros random).1) ∧
    ∀ t last', newWithTime last timestampMicros random = some (t, last') →
      t.value = (nextParts last timestampMicros random).1 * 1024 +
          (nextParts last timestampMicros random).2 ∧
        last' = some (nextParts last timestampMicros random)
  := by
  rw [newWithTime_eq]
  have hclock := nextParts_clock_le h timestampMicros random
  generalize nextParts last timestampMicros random = parts at hclock ⊢
  obtain ⟨timestamp, clock⟩ := parts
  simp only at hclock
  constructor
  · simp only [newWithTime.issue, fromParts, hclock, dite_true]
    split_ifs with hasked hissued
    · simp
      omega
    · simp
      omega
    · simp
      omega
  · intro t last' hsome
    split_ifs at hsome
    simp only [newWithTime.issue, Option.map_eq_some_iff, Prod.mk.injEq] at hsome
    obtain ⟨t', hparts, rfl, rfl⟩ := hsome
    exact ⟨value_of_fromParts hparts, rfl⟩

theorem clockBounded_newWithTime {last last' : LastTid} {timestampMicros random : Nat} {t : Tid}
    (h : ClockBounded last) (hnew : newWithTime last timestampMicros random = some (t, last')) :
  ClockBounded last'
  := by
  obtain ⟨-, rfl⟩ := (newWithTime_spec h).2 t last' hnew
  intro timestamp clock heq
  have hclock := nextParts_clock_le h timestampMicros random
  rw [Option.some.injEq] at heq
  rwa [heq] at hclock

/-- Every run of the generator keeps the clock identifier in range. -/
theorem clockBounded_issueAll {calls : List (Nat × Nat)} {last last' : LastTid}
    (h : ClockBounded last) (hrun : issueAll last calls = some last') :
  ClockBounded last'
  := by
  induction calls generalizing last with
  | nil =>
    cases hrun
    exact h
  | cons call calls ih =>
    obtain ⟨timestampMicros, random⟩ := call
    simp only [issueAll, Option.bind_eq_some_iff] at hrun
    obtain ⟨⟨t, mid⟩, hnew, hrest⟩ := hrun
    exact ih (clockBounded_newWithTime h hnew) hrest

/-- Each call issues a TID above the one in the cell, as long as the timestamp is not
repeated with the last clock identifier. -/
theorem newWithTime_mono {timestamp clock : Nat} {last' : LastTid} {timestampMicros random : Nat}
    {t : Tid} (h : clock ≤ clockIdMask)
    (hrepeat : timestampMicros ≠ timestamp ∨ clock ≠ clockIdMask)
    (hnew : newWithTime (some (timestamp, clock)) timestampMicros random = some (t, last')) :
  timestamp * 1024 + clock < t.value
  := by
  have hbound : ClockBounded (some (timestamp, clock)) := by
    intro timestamp' clock' heq
    cases heq
    exact h
  obtain ⟨hvalue, -⟩ := (newWithTime_spec hbound).2 t last' hnew
  simp only [clockIdMask] at h hrepeat
  obtain hlt | rfl | hgt := Nat.lt_trichotomy timestamp timestampMicros
  · simp only [nextParts, hlt, if_true] at hvalue
    omega
  · have hclock : clock ≠ 1023 := by
      simpa using hrepeat
    simp only [nextParts, clockIdMask, lt_irrefl, if_false, hclock] at hvalue
    omega
  · simp only [nextParts, hgt, Nat.lt_asymm hgt, if_true, if_false] at hvalue
    omega

end Tid

end Atproto.Record
