import Atproto.Dasl.Text
import Atproto.Logic.Cursor

/-!
# The sequencer

One log of events for the whole server.  The database numbers an event when it is inserted,
and never gives out a number twice; numbers may be left out.  Old events are deleted, all but
the newest.  Beside the rows we keep every row there ever was.
-/

namespace Atproto.Pds

open Atproto.Dasl Logic

/-- A row of the stream. -/
structure StreamRow where
  seq : Int
  did : Text
  eventType : Text
  payload : Bytes
  createdAt : Text
deriving DecidableEq

/-- The rows of the stream, the highest number given out, and the rows there ever were. -/
structure Sequencer where
  rows : List StreamRow
  last : Int
  history : List StreamRow
  ordered : Ordered StreamRow.seq history
  retained : rows.Sublist history
  nonneg : 0 ≤ last
  bounded : ∀ row ∈ history, row.seq ≤ last
  newest : ∀ row ∈ history, row ∉ rows → ∃ kept ∈ rows, row.seq < kept.seq

namespace Sequencer

/-- A log without rows. -/
def empty : Sequencer where
  rows := []
  last := 0
  history := []
  ordered := List.Pairwise.nil
  retained := List.Sublist.refl []
  nonneg := Int.le_refl 0
  bounded := nofun
  newest := nofun

/-- The row of a new event, after some numbers that are left out. -/
def newRow (stream : Sequencer) (skipped : Nat) (did eventType : Text) (payload : Bytes)
    (now : Text) : StreamRow :=
  ⟨stream.last + 1 + skipped, did, eventType, payload, now⟩

theorem newRow_last (stream : Sequencer) (skipped : Nat) (did eventType : Text) (payload : Bytes)
    (now : Text) :
  stream.last < (stream.newRow skipped did eventType payload now).seq
  := by
  rw [newRow]
  dsimp only
  omega

/-- Record an event. -/
def append (stream : Sequencer) (skipped : Nat) (did eventType : Text) (payload : Bytes)
    (now : Text) : Sequencer where
  rows := stream.rows ++ [stream.newRow skipped did eventType payload now]
  last := (stream.newRow skipped did eventType payload now).seq
  history := stream.history ++ [stream.newRow skipped did eventType payload now]
  ordered := by
    apply List.pairwise_append.mpr
    refine ⟨stream.ordered, List.pairwise_singleton _ _, ?_⟩
    intro row hrow new hnew
    rw [List.mem_singleton.mp hnew]
    exact Int.lt_of_le_of_lt (stream.bounded row hrow) (stream.newRow_last ..)
  retained := stream.retained.append (List.Sublist.refl _)
  nonneg := Int.le_trans stream.nonneg (Int.le_of_lt (stream.newRow_last ..))
  bounded := by
    intro row hrow
    obtain hrow | hrow := List.mem_append.mp hrow
    · exact Int.le_trans (stream.bounded row hrow) (Int.le_of_lt (stream.newRow_last ..))
    · rw [List.mem_singleton.mp hrow]
  newest := by
    intro row hrow hnot
    rw [List.mem_append, not_or] at hnot
    have hold : row ∈ stream.history := (List.mem_append.mp hrow).resolve_right hnot.2
    obtain ⟨kept, hkept, hlt⟩ := stream.newest row hold hnot.1
    exact ⟨kept, List.mem_append_left _ hkept, hlt⟩

/-- The lowest number still in the log. -/
def earliestSeq (stream : Sequencer) : Option Int := (stream.rows.map StreamRow.seq).min?

/-- The highest number in the log. -/
def latestSeq (stream : Sequencer) : Option Int := (stream.rows.map StreamRow.seq).max?

/-- A row is deleted when it is older than the cutoff and not the newest. -/
def prunes (stream : Sequencer) (cutoff : Text) (row : StreamRow) : Bool :=
  decide (row.createdAt < cutoff) && stream.latestSeq.any (row.seq < ·)

theorem latestSeq_eq_some {stream : Sequencer} {head : Int} :
  stream.latestSeq = some head ↔
    (∃ row ∈ stream.rows, row.seq = head) ∧ ∀ row ∈ stream.rows, row.seq ≤ head
  := by
  rw [latestSeq, List.max?_eq_some_iff, List.mem_map, List.forall_mem_map]

theorem earliestSeq_eq_some {stream : Sequencer} {floor : Int} :
  stream.earliestSeq = some floor ↔
    (∃ row ∈ stream.rows, row.seq = floor) ∧ ∀ row ∈ stream.rows, floor ≤ row.seq
  := by
  rw [earliestSeq, List.min?_eq_some_iff, List.mem_map, List.forall_mem_map]

/-- A log with rows has a head. -/
theorem exists_latestSeq {stream : Sequencer} {row : StreamRow} (h : row ∈ stream.rows) :
  ∃ head, stream.latestSeq = some head
  := by
  cases hhead : stream.latestSeq with
  | some head => exact ⟨head, rfl⟩
  | none =>
    rw [latestSeq, List.max?_eq_none_iff, List.map_eq_nil_iff] at hhead
    rw [hhead] at h
    cases h

theorem prunes_eq_true {stream : Sequencer} {cutoff : Text} {row : StreamRow} :
  stream.prunes cutoff row = true ↔
    row.createdAt < cutoff ∧ ∃ head, stream.latestSeq = some head ∧ row.seq < head
  := by
  rw [prunes, Bool.and_eq_true, decide_eq_true_iff, Option.any_eq_true]
  simp only [decide_eq_true_iff]

/-- The newest row is never deleted. -/
theorem exists_kept {stream : Sequencer} (cutoff : Text) {row : StreamRow}
    (h : row ∈ stream.rows) :
  ∃ kept ∈ stream.rows, stream.latestSeq = some kept.seq ∧ stream.prunes cutoff kept = false ∧
    row.seq ≤ kept.seq
  := by
  obtain ⟨head, hhead⟩ := exists_latestSeq h
  obtain ⟨⟨newest, hnewest, rfl⟩, hle⟩ := latestSeq_eq_some.mp hhead
  refine ⟨newest, hnewest, hhead, ?_, hle row h⟩
  rw [Bool.eq_false_iff]
  intro hprunes
  obtain ⟨-, other, hother, hlt⟩ := prunes_eq_true.mp hprunes
  rw [hhead] at hother
  cases hother
  exact Int.lt_irrefl _ hlt

/-- Delete the rows older than a cutoff. -/
def pruneStreamEvent (stream : Sequencer) (cutoff : Text) : Sequencer where
  rows := stream.rows.filter fun row => !stream.prunes cutoff row
  last := stream.last
  history := stream.history
  ordered := stream.ordered
  retained := List.filter_sublist.trans stream.retained
  nonneg := stream.nonneg
  bounded := stream.bounded
  newest := by
    intro row hrow hnot
    have hkept : ∀ kept, kept ∈ stream.rows → stream.prunes cutoff kept = false →
        kept ∈ stream.rows.filter fun row => !stream.prunes cutoff row := by
      intro kept hkept hprunes
      rw [List.mem_filter, hprunes]
      exact ⟨hkept, rfl⟩
    by_cases hmem : row ∈ stream.rows
    · obtain ⟨kept, hrows, hhead, hprunes, -⟩ := exists_kept cutoff hmem
      refine ⟨kept, hkept kept hrows hprunes, ?_⟩
      have hpruned : stream.prunes cutoff row = true := by
        apply Bool.of_not_eq_false
        exact fun hfalse => hnot (hkept row hmem hfalse)
      obtain ⟨-, head, hhead', hlt⟩ := prunes_eq_true.mp hpruned
      rw [hhead] at hhead'
      cases hhead'
      exact hlt
    · obtain ⟨other, hother, hlt⟩ := stream.newest row hrow hmem
      obtain ⟨kept, hrows, -, hprunes, hle⟩ := exists_kept cutoff hother
      exact ⟨kept, hkept kept hrows hprunes, Int.lt_of_lt_of_le hlt hle⟩

/-- The row belongs to the repository that is asked for, if one is. -/
def matchesDid (did : Option Text) (row : StreamRow) : Bool := did.all (· = row.did)

/-- The rows after a cursor, a page of them.  Without a cursor they start at the
beginning. -/
def readAfter (stream : Sequencer) (cursor : Option Int) (did : Option Text) (limit : Nat) :
    List StreamRow :=
  (after StreamRow.seq (cursor.getD 0) (stream.rows.filter (matchesDid did))).take
    (max 1 (min limit 1000))

end Sequencer

end Atproto.Pds
