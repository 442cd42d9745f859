import Atproto.Logic.Machine
import Atproto.Record.Tid
import Mathlib.Tactic.Linarith

/-!
# The order of the identifiers

The generator has a larger identifier left as long as the clock identifiers of a microsecond are
not used up and the clock does not move back from the last timestamp there is.  Otherwise it draws
a clock identifier again, which is not larger, or asks for a timestamp that does not fit.
-/

namespace Atproto.Record.Tid

open Logic.Machine

/-- The TIDs that a sequence of calls returns, unless one of the calls panics.  A panic leaves the
lock of the cell poisoned, so that no later call returns either. -/
def issueTids : LastTid → List (Nat × Nat) → Option (List Tid)
  | _, [] => some []
  | last, (timestampMicros, random) :: calls =>
    (newWithTime last timestampMicros random).bind fun (t, last') =>
      (issueTids last' calls).map (t :: ·)

/-- Each TID is greater than every TID before it, and so is its text. -/
def Increasing (tids : List Tid) : Prop :=
  tids.Pairwise (fun a b => a.value < b.value) ∧ (tids.map encode).Pairwise (· < ·)

/-- The calls of a process all return, and they return greater and greater TIDs. -/
def Increases (calls : List (Nat × Nat)) : Prop :=
  ∃ tids, issueTids none calls = some tids ∧ Increasing tids

/-- The cell has no larger TID for a timestamp: the clock identifiers of its microsecond are used
up, or the clock has moved back from the largest timestamp. -/
def Exhausted (last : LastTid) (timestampMicros : Nat) : Prop :=
  last = some (timestampMicros, clockIdMask) ∨
    ∃ clock, last = some (maxTimestamp, clock) ∧ timestampMicros < maxTimestamp

/-- The cell after a call. -/
def advance (last : LastTid) (call : Nat × Nat) : LastTid := some (nextParts last call.1 call.2)

/-- No call finds the cell exhausted. -/
def NeverExhausted (calls : List (Nat × Nat)) : Prop :=
  Along advance (fun last call => ¬ Exhausted last call.1) none calls

/-- The parts in the cell are in range. -/
def Bounded (last : LastTid) : Prop :=
  ∀ parts, last = some parts → parts.1 ≤ maxTimestamp ∧ parts.2 ≤ clockIdMask

/-- A TID is greater than the one in the cell. -/
def Above (last : LastTid) (t : Tid) : Prop :=
  ∀ parts, last = some parts → parts.1 * 1024 + parts.2 < t.value

variable {last : LastTid} {timestampMicros random : Nat} {t : Tid}

theorem Bounded.clockBounded (h : Bounded last) :
  ClockBounded last
  := fun timestamp clock heq => (h (timestamp, clock) heq).2

/-- A call succeeds unless the clock has moved back from the largest timestamp. -/
theorem Bounded.nextParts_le_iff (h : Bounded last) (htime : timestampMicros ≤ maxTimestamp) :
  (nextParts last timestampMicros random).1 ≤ maxTimestamp ↔
    ¬ ∃ clock, last = some (maxTimestamp, clock) ∧ timestampMicros < maxTimestamp
  := by
  rcases last with _ | ⟨timestamp, clock⟩
  · apply iff_of_true htime
    rintro ⟨clock, heq, -⟩
    cases heq
  · obtain ⟨hlast, -⟩ := h (timestamp, clock) rfl
    simp only [nextParts]
    split_ifs with hlater hearlier
    · apply iff_of_true htime
      rintro ⟨clock', heq, hlt⟩
      cases heq
      omega
    · constructor
      · rintro hle ⟨clock', heq, -⟩
        cases heq
        exact absurd hle (Nat.not_succ_le_self maxTimestamp)
      · intro hnot
        apply Nat.lt_of_le_of_ne hlast
        rintro rfl
        exact hnot ⟨clock, rfl, hearlier⟩
    · apply iff_of_true htime
      rintro ⟨clock', heq, hlt⟩
      cases heq
      omega
    · apply iff_of_true htime
      rintro ⟨clock', heq, hlt⟩
      cases heq
      omega

theorem Bounded.advance_of_free {call : Nat × Nat} (h : Bounded last)
    (htime : call.1 ≤ maxTimestamp) (hfree : ¬ Exhausted last call.1) :
  Bounded (advance last call)
  := by
  intro parts heq
  cases heq
  refine ⟨?_, nextParts_clock_le h.clockBounded call.1 call.2⟩
  apply (h.nextParts_le_iff htime).mpr
  intro hback
  exact hfree (Or.inr hback)

/-- A call issues a greater TID just when the cell is not exhausted. -/
theorem Bounded.above_iff (h : Bounded last) (htime : timestampMicros ≤ maxTimestamp) :
  (∃ t, newWithTime last timestampMicros random = some (t, advance last (timestampMicros, random)) ∧
      Above last t) ↔
    ¬ Exhausted last timestampMicros
  := by
  obtain ⟨hnone, hsome⟩ := @newWithTime_spec last h.clockBounded timestampMicros random
  have hle := @Bounded.nextParts_le_iff last timestampMicros random h htime
  constructor
  · rintro ⟨t, hnew, habove⟩ (rfl | hback)
    · obtain ⟨hvalue, -⟩ := hsome t _ hnew
      have hlt := habove (timestampMicros, clockIdMask) rfl
      have hrandom := randomClockId_le random
      simp only [nextParts, lt_irrefl, if_false, if_true] at hvalue
      omega
    · have hfail : newWithTime last timestampMicros random = none := by
        apply hnone.mpr
        right
        apply Nat.lt_of_not_le
        intro hfits
        exact hle.mp hfits hback
      rw [hfail] at hnew
      cases hnew
  · intro hfree
    have hfits : (nextParts last timestampMicros random).1 ≤ maxTimestamp :=
      hle.mpr fun hback => hfree (Or.inr hback)
    have hne : newWithTime last timestampMicros random ≠ none := by
      intro hfail
      rcases hnone.mp hfail with hlt | hlt
      · omega
      · omega
    obtain ⟨⟨t, last'⟩, hnew⟩ := Option.ne_none_iff_exists'.mp hne
    obtain ⟨-, rfl⟩ := hsome t last' hnew
    refine ⟨t, hnew, ?_⟩
    rintro ⟨timestamp, clock⟩ rfl
    apply newWithTime_mono (h (timestamp, clock) rfl).2 _ hnew
    by_contra hrepeat
    push Not at hrepeat
    obtain ⟨rfl, rfl⟩ := hrepeat
    exact hfree (Or.inl rfl)

theorem above_advance {call : Nat × Nat} {t t' : Tid} (h : Bounded last)
    (hnew : newWithTime last call.1 call.2 = some (t, advance last call)) :
  Above (advance last call) t' ↔ t.value < t'.value
  := by
  obtain ⟨hvalue, -⟩ := (newWithTime_spec h.clockBounded).2 t _ hnew
  rw [hvalue]
  constructor
  · intro habove
    apply habove _ rfl
  · rintro hlt parts heq
    cases heq
    exact hlt

/-- From any cell, a run issues greater and greater TIDs, all above the one in the cell, just when
no call finds the cell exhausted.  The induction is along the calls. -/
theorem issueTids_above_iff {calls : List (Nat × Nat)} (h : Bounded last)
    (htime : ∀ call ∈ calls, call.1 ≤ maxTimestamp) :
  (∃ tids, issueTids last calls = some tids ∧ (∀ t ∈ tids, Above last t) ∧
      tids.Pairwise (fun a b => a.value < b.value)) ↔
    Along advance (fun last call => ¬ Exhausted last call.1) last calls
  := by
  induction calls generalizing last with
  | nil =>
    apply iff_of_true _ trivial
    exact ⟨[], rfl, List.forall_mem_nil _, List.Pairwise.nil⟩
  | cons call calls ih =>
    obtain ⟨hcall, hcalls⟩ := List.forall_mem_cons.mp htime
    have hstep := @Bounded.above_iff last call.1 call.2 h hcall
    constructor
    · rintro ⟨tids, hissue, habove, hpairs⟩
      obtain ⟨⟨t, last'⟩, hnew, hmap⟩ := Option.bind_eq_some_iff.mp hissue
      obtain ⟨rest, hrest, rfl⟩ := Option.map_eq_some_iff.mp hmap
      obtain ⟨-, rfl⟩ := (newWithTime_spec h.clockBounded).2 t last' hnew
      obtain ⟨ht, -⟩ := List.forall_mem_cons.mp habove
      obtain ⟨hfirst, hlater⟩ := List.pairwise_cons.mp hpairs
      have hfree : ¬ Exhausted last call.1 := hstep.mp ⟨t, hnew, ht⟩
      refine ⟨hfree, ?_⟩
      apply (ih (h.advance_of_free hcall hfree) hcalls).mp
      refine ⟨rest, hrest, ?_, hlater⟩
      intro t' ht'
      exact (above_advance h hnew).mpr (hfirst t' ht')
    · rintro ⟨hfree, halong⟩
      obtain ⟨t, hnew, ht⟩ := hstep.mpr hfree
      obtain ⟨rest, hrest, habove, hpairs⟩ := (ih (h.advance_of_free hcall hfree) hcalls).mpr halong
      have hfirst : ∀ t' ∈ rest, t.value < t'.value :=
        fun t' ht' => (above_advance h hnew).mp (habove t' ht')
      refine ⟨t :: rest, ?_, ?_, List.pairwise_cons.mpr ⟨hfirst, hpairs⟩⟩
      · apply Option.bind_eq_some_iff.mpr
        exact ⟨_, hnew, Option.map_eq_some_iff.mpr ⟨rest, hrest, rfl⟩⟩
      · have hrest : ∀ t' ∈ rest, Above last t' := by
          intro t' ht' parts heq
          exact lt_trans (ht parts heq) (hfirst t' ht')
        exact List.forall_mem_cons.mpr ⟨ht, hrest⟩

theorem increasing_iff (tids : List Tid) :
  Increasing tids ↔ tids.Pairwise (fun a b => a.value < b.value)
  := by
  rw [Increasing, List.pairwise_map]
  simp only [encode_lt_encode, and_self]

/-- The calls of a process return greater and greater TIDs just when none of them finds the cell
exhausted. -/
theorem increases_iff (calls : List (Nat × Nat)) (h : ∀ call ∈ calls, call.1 ≤ maxTimestamp) :
  Increases calls ↔ NeverExhausted calls
  := by
  have hbounded : Bounded none := by
    intro parts heq
    cases heq
  rw [NeverExhausted, ← issueTids_above_iff hbounded h]
  apply exists_congr
  intro tids
  rw [increasing_iff]
  apply and_congr_right
  intro _
  constructor
  · intro hpairs
    refine ⟨?_, hpairs⟩
    intro t _ parts heq
    cases heq
  · rintro ⟨-, hpairs⟩
    exact hpairs

theorem increases_iff_sample :
  Increases [(5, 7), (5, 0), (4, 9)] ↔ NeverExhausted [(5, 7), (5, 0), (4, 9)]
  := increases_iff [(5, 7), (5, 0), (4, 9)] (by decide)

/-- The second call of the microsecond after its last clock identifier draws a smaller one, and a
clock that moves back from the largest timestamp makes the call panic. -/
theorem not_increases :
  ¬ Increases [(5, 1023), (5, 0)] ∧ ¬ Increases [(maxTimestamp, 0), (5, 0)]
  := by
  constructor
  · rintro ⟨tids, hissue, hpairs, -⟩
    have hvalues : (issueTids none [(5, 1023), (5, 0)]).map (·.map value) = some [6143, 5120] := by
      decide +kernel
    rw [hissue, Option.map_some, Option.some.injEq] at hvalues
    rw [← List.pairwise_map, hvalues] at hpairs
    exact absurd hpairs (by decide)
  · rintro ⟨tids, hissue, -⟩
    have hpanics : issueTids none [(maxTimestamp, 0), (5, 0)] = none := by
      decide +kernel
    rw [hpanics] at hissue
    cases hissue

end Atproto.Record.Tid
