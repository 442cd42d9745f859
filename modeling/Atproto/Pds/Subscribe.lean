import Atproto.Logic.Machine
import Atproto.Pds.Sequencer
import Atproto.Repo.Codec

/-!
# Subscribers of the firehose

A subscriber reads the head of the stream and the oldest event still held, tells a client
whose cursor is too old or too new, and then sends what comes after the cursor, page after
page.  Between two drains it waits: for a signal that the stream moved, which may be missed
or may concern another repository, or for the poll.  Events are appended and old events
deleted at any time.

What is sent is compared with every event there ever was.  A deletion that leaves an older
event behind makes a hole that the subscriber is not told about.
-/

namespace Atproto.Pds.Subscribe

open Atproto.Dasl Atproto.Repo Logic Logic.Machine

/-- What became of a frame. -/
inductive SendOutcome where
  | sent
  | closed
  | tooSlow
deriving DecidableEq

/-- A frame for the client. -/
inductive Frame where
  | event (row : StreamRow) (bytes : Bytes) (isText : Bool)
  | info (name message : String)
  | error (name message : String)
deriving DecidableEq

/-- The query parameters. -/
structure Params where
  cursor : Option Int
  did : Option Text

/-- Where a subscriber is: before it reads the head, before it reads the oldest number, in a
drain, between two drains, or at its end. -/
inductive Phase where
  | connecting
  | checking
  | draining
  | waiting
  | ended
deriving DecidableEq

/-- A subscriber.  The cursor it is served from at first is no part of the program. -/
structure Subscriber where
  phase : Phase
  cursor : Option Int
  sent : List Frame
  asked : Int

/-- The position of a cursor, the beginning of the stream when there is none. -/
def Subscriber.position (sub : Subscriber) : Int := sub.cursor.getD 0

/-- End a subscription, with a last frame. -/
def Subscriber.close (sub : Subscriber) (frame : Frame) : Subscriber :=
  { sub with phase := .ended, sent := sub.sent ++ [frame] }

def futureCursor : Frame := .error "FutureCursor" "cursor is ahead of the stream head"

def outdatedCursor : Frame :=
  .info "OutdatedCursor" <|
    "the requested cursor is older than this server's firehose retention; " ++
      "resuming from the oldest event still held"

def internalServerError : Frame :=
  .error "InternalServerError" "an event in the stream could not be encoded"

def consumerTooSlow : Frame :=
  .error "ConsumerTooSlow" "the stream moved faster than this connection could take it"

variable (encodeEvent : StreamRow → Option (Bytes × Bool)) (params : Params)

/-- Read the head of the stream.  A cursor beyond it ends the subscription, and without a
cursor the subscription starts there. -/
def readHead (stream : Sequencer) (reads : Bool) (sub : Subscriber) : Subscriber :=
  let head := if reads then stream.latestSeq else none
  match params.cursor with
  | some requested =>
    if head.getD 0 < requested then
      { sub with asked := requested, cursor := some requested }.close futureCursor
    else { sub with phase := .checking, asked := requested, cursor := some requested }
  | none =>
    { sub with phase := .checking, asked := stream.latestSeq.getD 0, cursor := head }

/-- Read the oldest number.  When the cursor is older the client is told, and the
subscription resumes at the oldest event. -/
def readFloor (stream : Sequencer) (reads : Bool) (outcome : SendOutcome) (sub : Subscriber) :
    Subscriber :=
  match params.cursor, if reads then stream.earliestSeq else none with
  | some requested, some earliest =>
    if requested + 1 < earliest then
      if outcome = .sent then
        { sub with
          phase := .draining
          sent := sub.sent ++ [outdatedCursor]
          cursor := some (earliest - 1) }
      else { sub with phase := .ended }
    else { sub with phase := .draining }
  | _, _ => { sub with phase := .draining }

/-- Send the rows of a page. -/
def sendRows (send : StreamRow → SendOutcome) (sub : Subscriber) : List StreamRow → Subscriber
  | [] => sub
  | row :: rows =>
    match encodeEvent row with
    | none => sub.close internalServerError
    | some (bytes, isText) =>
      match send row with
      | .sent =>
        sendRows send
          { sub with cursor := some row.seq, sent := sub.sent ++ [.event row bytes isText] } rows
      | .closed => { sub with phase := .ended }
      | .tooSlow => sub.close consumerTooSlow

/-- The length of a page. -/
def pageLimit : Nat := 100

/-- One pass of a drain: read a page and send it.  A short page ends the drain. -/
def drainPage (stream : Sequencer) (reads : Bool) (send : StreamRow → SendOutcome)
    (sub : Subscriber) : Subscriber :=
  if reads then
    let rows := stream.readAfter sub.cursor params.did pageLimit
    let after := sendRows encodeEvent send sub rows
    if after.phase = .draining ∧ rows.length < pageLimit then { after with phase := .waiting }
    else after
  else { sub with phase := .waiting }

/-- The stream and one subscriber. -/
structure State where
  stream : Sequencer
  sub : Subscriber

/-- What happens to the stream and to the subscriber. -/
inductive Input where
  | append (skipped : Nat) (did eventType : Text) (payload : Bytes) (now : Text)
  | prune (cutoff : Text)
  | readHead (reads : Bool)
  | readFloor (reads : Bool) (outcome : SendOutcome)
  | drainPage (reads : Bool) (send : StreamRow → SendOutcome)
  | wake (did : Text)
  | lagged
  | poll
  | inbound (closes : Bool)
  | busClosed
  | shutdown

/-- A subscriber that waits goes on to a phase. -/
def State.resume (state : State) (phase : Phase) : State :=
  if state.sub.phase = .waiting then { state with sub := { state.sub with phase := phase } }
  else state

/-- One step. -/
def step (state : State) : Input → State
  | .append skipped did eventType payload now =>
    { state with stream := state.stream.append skipped did eventType payload now }
  | .prune cutoff => { state with stream := state.stream.pruneStreamEvent cutoff }
  | .readHead reads =>
    if state.sub.phase = .connecting then
      { state with sub := readHead params state.stream reads state.sub }
    else state
  | .readFloor reads outcome =>
    if state.sub.phase = .checking then
      { state with sub := readFloor params state.stream reads outcome state.sub }
    else state
  | .drainPage reads send =>
    if state.sub.phase = .draining then
      { state with sub := drainPage encodeEvent params state.stream reads send state.sub }
    else state
  | .wake did => if params.did.all (· = did) then state.resume .draining else state
  | .lagged => state.resume .draining
  | .poll => state.resume .draining
  | .inbound closes => if closes then state.resume .ended else state
  | .busClosed => state.resume .ended
  | .shutdown => state.resume .ended

/-! ### What is sent -/

/-- The events among the frames. -/
def events (frames : List Frame) : List StreamRow :=
  frames.filterMap fun frame =>
    match frame with
    | .event row _ _ => some row
    | _ => none

theorem events_append_event (frames : List Frame) (row : StreamRow) (bytes : Bytes)
    (isText : Bool) :
  events (frames ++ [.event row bytes isText]) = events frames ++ [row]
  := List.filterMap_append

theorem events_close (sub : Subscriber) {frame : Frame} (h : events [frame] = []) :
  events (sub.close frame).sent = events sub.sent
  := by
  rw [Subscriber.close, events, List.filterMap_append]
  exact (congrArg _ h).trans (List.append_nil _)

/-- The events that the filter lets through, of all there ever were. -/
def wanted (stream : Sequencer) : List StreamRow :=
  stream.history.filter (Sequencer.matchesDid params.did)

/-- The wanted events after the position of the subscriber. -/
def pending (state : State) : List StreamRow :=
  after StreamRow.seq state.sub.position (wanted params state.stream)

theorem ordered_wanted (stream : Sequencer) :
  Ordered StreamRow.seq (wanted params stream)
  := stream.ordered.filter _

/-- What sending rows does, when they are the first that are wanted after the position. -/
structure Sends (rows xs more : List StreamRow) (send : StreamRow → SendOutcome)
    (sub result : Subscriber) : Prop where
  sent : sub.sent <+: result.sent
  asked : result.asked = sub.asked
  forward : sub.position ≤ result.position
  accounted : events result.sent ++ after StreamRow.seq result.position xs =
    events sub.sent ++ after StreamRow.seq sub.position xs
  bounded : ∀ last, (∀ row ∈ xs, row.seq ≤ last) → result.position ≤ last ∨
    events result.sent = events sub.sent ∧ result.position = sub.position
  ends : result.phase = .ended ∧ (∃ row ∈ rows, encodeEvent row = none ∨ send row ≠ .sent) ∨
    result.phase = sub.phase ∧ after StreamRow.seq result.position xs = more ∧
      (events result.sent).length = (events sub.sent).length + rows.length

variable {encodeEvent params}

/-- A subscriber that is closed has sent nothing more. -/
theorem Sends.of_ended {rows xs more : List StreamRow} {send : StreamRow → SendOutcome}
    {sub result : Subscriber} (hphase : result.phase = .ended)
    (hrow : ∃ row ∈ rows, encodeEvent row = none ∨ send row ≠ .sent)
    (hsent : sub.sent <+: result.sent) (hevents : events result.sent = events sub.sent)
    (hasked : result.asked = sub.asked) (hcursor : result.cursor = sub.cursor) :
  Sends encodeEvent rows xs more send sub result
  := by
  have hposition : result.position = sub.position := congrArg (Option.getD · 0) hcursor
  constructor
  · exact hsent
  · exact hasked
  · exact Int.le_of_eq hposition.symm
  · rw [hevents, hposition]
  · exact fun _ _ => Or.inr ⟨hevents, hposition⟩
  · exact Or.inl ⟨hphase, hrow⟩

theorem sendRows_sends {xs more : List StreamRow} (hxs : Ordered StreamRow.seq xs)
    (send : StreamRow → SendOutcome) (rows : List StreamRow) (sub : Subscriber)
    (h : after StreamRow.seq sub.position xs = rows ++ more) :
  Sends encodeEvent rows xs more send sub (sendRows encodeEvent send sub rows)
  := by
  induction rows generalizing sub with
  | nil =>
    constructor
    · exact List.prefix_rfl
    · rfl
    · exact Int.le_refl _
    · rfl
    · exact fun _ _ => Or.inr ⟨rfl, rfl⟩
    · exact Or.inr ⟨rfl, h, rfl⟩
  | cons row rows ih =>
    rw [sendRows]
    cases hencode : encodeEvent row with
    | none =>
      apply Sends.of_ended rfl ⟨row, List.mem_cons_self, Or.inl hencode⟩
      · exact List.prefix_append _ _
      · exact events_close sub rfl
      · rfl
      · rfl
    | some frame =>
      obtain ⟨bytes, isText⟩ := frame
      dsimp only
      cases hsend : send row with
      | closed =>
        have hrow : send row ≠ .sent := by
          rw [hsend]
          exact nofun
        apply Sends.of_ended rfl ⟨row, List.mem_cons_self, Or.inr hrow⟩
        · exact List.prefix_rfl
        · rfl
        · rfl
        · rfl
      | tooSlow =>
        have hrow : send row ≠ .sent := by
          rw [hsend]
          exact nofun
        apply Sends.of_ended rfl ⟨row, List.mem_cons_self, Or.inr hrow⟩
        · exact List.prefix_append _ _
        · exact events_close sub rfl
        · rfl
        · rfl
      | sent =>
        have hrest := hxs.after_of_cons h
        have hmem : row ∈ after StreamRow.seq sub.position xs := by
          rw [h]
          exact List.mem_cons_self
        specialize ih
          { sub with cursor := some row.seq, sent := sub.sent ++ [.event row bytes isText] } hrest
        constructor
        · exact (List.prefix_append _ _).trans ih.sent
        · exact ih.asked
        · exact Int.le_trans (Int.le_of_lt (mem_after.mp hmem).2) ih.forward
        · rw [ih.accounted, events_append_event, List.append_assoc, h]
          exact congrArg _ (congrArg _ hrest)
        · intro last hlast
          obtain hle | ⟨-, hposition⟩ := ih.bounded last hlast
          · exact Or.inl hle
          · left
            rw [hposition]
            exact hlast row (mem_after.mp hmem).1
        · obtain ⟨hended, other, hother, hfails⟩ | ⟨hphase, hmore, hlength⟩ := ih.ends
          · exact Or.inl ⟨hended, other, List.mem_cons_of_mem _ hother, hfails⟩
          · refine Or.inr ⟨hphase, hmore, ?_⟩
            rw [hlength, events_append_event, List.length_append, List.length_cons]
            exact Nat.add_right_comm _ 1 _

/-! ### Exact delivery -/

/-- The client was told that its cursor is outdated, and no event up to the start is held. -/
def Told (state : State) (start : Int) : Prop :=
  state.sub.sent.head? = some outdatedCursor ∧ state.sub.asked < start ∧
    ∀ row ∈ state.stream.rows, start < row.seq

variable (params) in
/-- What was sent, and after it what comes after the position, are the wanted events after
the cursor that was asked for, each once and in order.  They may start later when the
client was told and the events before are gone. -/
def Delivered (state : State) : Prop :=
  ∃ start ≤ state.sub.position,
    events state.sub.sent ++ pending params state =
      after StreamRow.seq start (wanted params state.stream) ∧
    (start = state.sub.asked ∨ Told state start)

variable (params) in
/-- The subscriber no longer looks for missing events. -/
def Serving (sub : Subscriber) : Prop :=
  sub.phase = .draining ∨ sub.phase = .waiting ∨ sub.phase = .checking ∧ params.cursor = none

variable (params) in
/-- What holds of a subscriber between steps. -/
structure Invariant (state : State) : Prop where
  delivered : Delivered params state
  position : state.sub.position ≤ state.stream.last ∨
    events state.sub.sent = [] ∧ state.sub.position = state.sub.asked
  fresh : state.sub.phase = .connecting ∨ state.sub.phase = .checking → state.sub.sent = []
  checking : state.sub.phase = .checking → state.sub.position = state.sub.asked ∧
    ∀ requested, params.cursor = some requested → state.sub.cursor = some requested
  /-- What is still to be sent is held. -/
  served : Serving params state.sub → ∀ row ∈ pending params state, row ∈ state.stream.rows

/-- A subscriber that was sent nothing is owed everything after its position. -/
theorem delivered_of_fresh {state : State} (hevents : events state.sub.sent = [])
    (hposition : state.sub.position = state.sub.asked) :
  Delivered params state
  := by
  refine ⟨state.sub.position, Int.le_refl _, ?_, Or.inl hposition⟩
  rw [hevents]
  exact List.nil_append _

/-- A new event is wanted when the filter lets it through. -/
theorem wanted_append (stream : Sequencer) (skipped : Nat) (did eventType : Text)
    (payload : Bytes) (now : Text) :
  ∃ new, (∀ row ∈ new, stream.last < row.seq ∧
      row ∈ (stream.append skipped did eventType payload now).rows) ∧
    wanted params (stream.append skipped did eventType payload now) = wanted params stream ++ new
  := by
  use [stream.newRow skipped did eventType payload now].filter (Sequencer.matchesDid params.did)
  constructor
  · intro row hrow
    rw [List.mem_singleton.mp (List.mem_filter.mp hrow).1]
    exact ⟨stream.newRow_last .., List.mem_append_right _ List.mem_cons_self⟩
  · exact List.filter_append _ _

/-- New events come after every position up to the last number. -/
theorem after_append_new {xs new : List StreamRow} {last position : Int}
    (hnew : ∀ row ∈ new, last < row.seq) (h : position ≤ last) :
  after StreamRow.seq position (xs ++ new) = after StreamRow.seq position xs ++ new
  := by
  rw [after, List.filter_append]
  congr 1
  apply List.filter_eq_self.mpr
  exact fun row hrow => decide_eq_true (Int.lt_of_le_of_lt h (hnew row hrow))

variable {state : State}

/-- An event is recorded. -/
theorem Invariant.append (h : Invariant params state) (skipped : Nat) (did eventType : Text)
    (payload : Bytes) (now : Text) :
  Invariant params
    { state with stream := state.stream.append skipped did eventType payload now }
  := by
  obtain ⟨new, hnew, hwanted⟩ := @wanted_append params state.stream skipped did eventType payload now
  have hlater := state.stream.newRow_last skipped did eventType payload now
  constructor
  · obtain hle | ⟨hevents, hposition⟩ := h.position
    · obtain ⟨start, hstart, haccounted, htold⟩ := h.delivered
      refine ⟨start, hstart, ?_, ?_⟩
      · have hlast := fun row hrow => (hnew row hrow).1
        rw [hwanted, after_append_new hlast (Int.le_trans hstart hle), ← haccounted, pending,
          hwanted, List.append_assoc]
        exact congrArg _ (after_append_new hlast hle)
      · obtain hasked | ⟨hnotice, hlt, hrows⟩ := htold
        · exact Or.inl hasked
        · refine Or.inr ⟨hnotice, hlt, ?_⟩
          intro row hrow
          obtain hrow | hrow := List.mem_append.mp hrow
          · exact hrows row hrow
          · rw [List.mem_singleton.mp hrow]
            exact Int.lt_of_le_of_lt (Int.le_trans hstart hle) hlater
    · exact delivered_of_fresh hevents hposition
  · apply h.position.imp_left
    exact fun hle => Int.le_trans hle (Int.le_of_lt hlater)
  · exact h.fresh
  · exact h.checking
  · intro hserving row hrow
    rw [pending, hwanted] at hrow
    obtain ⟨hrow, hlt⟩ := mem_after.mp hrow
    obtain hrow | hrow := List.mem_append.mp hrow
    · exact List.mem_append_left _ (h.served hserving row (mem_after.mpr ⟨hrow, hlt⟩))
    · exact (hnew row hrow).2

/-- Old events are deleted, none that is still to be sent. -/
theorem Invariant.prune (h : Invariant params state) (cutoff : Text)
    (hserved : Serving params state.sub → ∀ row ∈ pending params state,
      state.stream.prunes cutoff row = false) :
  Invariant params { state with stream := state.stream.pruneStreamEvent cutoff }
  := by
  have hmem : ∀ row, row ∈ (state.stream.pruneStreamEvent cutoff).rows ↔
      row ∈ state.stream.rows ∧ state.stream.prunes cutoff row = false := by
    intro row
    exact List.mem_filter.trans (and_congr_right fun _ => Iff.of_eq (Bool.not_eq_true' _))
  constructor
  · obtain ⟨start, hstart, haccounted, htold⟩ := h.delivered
    refine ⟨start, hstart, haccounted, htold.imp_right ?_⟩
    rintro ⟨hnotice, hlt, hrows⟩
    exact ⟨hnotice, hlt, fun row hrow => hrows row ((hmem row).mp hrow).1⟩
  · exact h.position
  · exact h.fresh
  · exact h.checking
  · exact fun hserving row hrow =>
      (hmem row).mpr ⟨h.served hserving row hrow, hserved hserving row hrow⟩

/-- A subscriber that was sent no event and is at the position it asked for. -/
theorem Invariant.of_fresh {stream : Sequencer} {sub : Subscriber}
    (hevents : events sub.sent = []) (hposition : sub.position = sub.asked)
    (hfresh : sub.phase = .connecting ∨ sub.phase = .checking → sub.sent = [])
    (hchecking : ∀ requested, params.cursor = some requested → sub.phase = .checking →
      sub.cursor = some requested)
    (hserved : Serving params sub → ∀ row ∈ pending params ⟨stream, sub⟩, row ∈ stream.rows) :
  Invariant params ⟨stream, sub⟩
  := by
  constructor
  · exact delivered_of_fresh hevents hposition
  · exact Or.inr ⟨hevents, hposition⟩
  · exact hfresh
  · intro hphase
    exact ⟨hposition, fun requested hcursor => hchecking requested hcursor hphase⟩
  · exact hserved

/-- Nothing comes after the head. -/
theorem after_latestSeq {stream : Sequencer} :
  after StreamRow.seq (stream.latestSeq.getD 0) (wanted params stream) = []
  := by
  apply List.eq_nil_iff_forall_not_mem.mpr
  intro row hrow
  obtain ⟨hrow, hlt⟩ := mem_after.mp hrow
  have hhistory := (List.mem_filter.mp hrow).1
  have hle : ∃ kept ∈ stream.rows, row.seq ≤ kept.seq := by
    by_cases hheld : row ∈ stream.rows
    · exact ⟨row, hheld, Int.le_refl _⟩
    · obtain ⟨kept, hkept, hlt⟩ := stream.newest row hhistory hheld
      exact ⟨kept, hkept, Int.le_of_lt hlt⟩
  obtain ⟨kept, hkept, hle⟩ := hle
  obtain ⟨head, hhead⟩ := Sequencer.exists_latestSeq hkept
  rw [hhead] at hlt
  have hlast := (Sequencer.latestSeq_eq_some.mp hhead).2 kept hkept
  exact Int.lt_irrefl _ (Int.lt_of_lt_of_le hlt (Int.le_trans hle hlast))

/-- The head is read.  It has to be readable when there is no cursor. -/
theorem Invariant.readHead (h : Invariant params state) (hphase : state.sub.phase = .connecting)
    {reads : Bool}
    (hreads : params.cursor = none → reads = false → state.stream.latestSeq = none) :
  Invariant params { state with sub := readHead params state.stream reads state.sub }
  := by
  have hsent := h.fresh (Or.inl hphase)
  rw [Subscribe.readHead]
  cases hcursor : params.cursor with
  | some requested =>
    dsimp only
    generalize (if reads = true then state.stream.latestSeq else none).getD 0 = head
    split
    · apply Invariant.of_fresh
      · rw [events_close _ rfl]
        exact congrArg events hsent
      · rfl
      · rintro (hphase | hphase)
        · cases hphase
        · cases hphase
      · intro _ _ hphase
        cases hphase
      · rintro (hphase | hphase | ⟨hphase, -⟩)
        · cases hphase
        · cases hphase
        · cases hphase
    · apply Invariant.of_fresh
      · exact congrArg events hsent
      · rfl
      · exact fun _ => hsent
      · intro other hother _
        exact hcursor.symm.trans hother
      · rintro (hphase | hphase | ⟨-, hnone⟩)
        · cases hphase
        · cases hphase
        · rw [hcursor] at hnone
          cases hnone
  | none =>
    have hhead : (if reads = true then state.stream.latestSeq else none) =
        state.stream.latestSeq := by
      cases hread : reads with
      | true => rfl
      | false => exact (hreads hcursor hread).symm
    dsimp only
    rw [hhead]
    apply Invariant.of_fresh
    · exact congrArg events hsent
    · rfl
    · exact fun _ => hsent
    · intro requested hrequested
      rw [hcursor] at hrequested
      cases hrequested
    · intro _ row hrow
      rw [pending, show Subscriber.position _ = state.stream.latestSeq.getD 0 from rfl,
        after_latestSeq] at hrow
      cases hrow

/-- The oldest number is read.  It has to be readable when an event that is to be sent is gone,
and that event has to be older than all that are held. -/
theorem Invariant.readFloor (h : Invariant params state) (hphase : state.sub.phase = .checking)
    {reads : Bool} (outcome : SendOutcome)
    (hreads : params.cursor.isSome = true → ∀ row ∈ pending params state,
      row ∈ state.stream.rows ∨ reads = true ∧ ∀ kept ∈ state.stream.rows, row.seq < kept.seq) :
  Invariant params { state with sub := readFloor params state.stream reads outcome state.sub }
  := by
  have hsent := h.fresh (Or.inr hphase)
  obtain ⟨hposition, hcursor⟩ := h.checking hphase
  have hdrain (hheld : ∀ row ∈ pending params state, row ∈ state.stream.rows) :
      Invariant params { state with sub := { state.sub with phase := .draining } } := by
    apply Invariant.of_fresh
    · exact congrArg events hsent
    · exact hposition
    · exact fun _ => hsent
    · intro _ _ hchecking
      cases hchecking
    · exact fun _ => hheld
  rw [Subscribe.readFloor]
  cases hparams : params.cursor with
  | none => exact hdrain (h.served (Or.inr (Or.inr ⟨hphase, hparams⟩)))
  | some requested =>
    have hrequested : state.sub.position = requested := by
      rw [Subscriber.position, hcursor requested hparams]
      rfl
    have hcursorSome : params.cursor.isSome = true := by
      rw [hparams]
      rfl
    specialize hreads hcursorSome
    cases reads with
    | false =>
      apply hdrain
      intro row hrow
      exact (hreads row hrow).resolve_right fun hread => Bool.false_ne_true hread.1
    | true =>
      rw [if_pos rfl]
      cases hfloor : state.stream.earliestSeq with
      | none =>
        apply hdrain
        intro row hrow
        by_contra hnot
        have hhistory := (List.mem_filter.mp (mem_after.mp hrow).1).1
        obtain ⟨kept, hkept, -⟩ := state.stream.newest row hhistory hnot
        rw [Sequencer.earliestSeq, List.min?_eq_none_iff, List.map_eq_nil_iff] at hfloor
        rw [hfloor] at hkept
        cases hkept
      | some earliest =>
        obtain ⟨⟨oldest, holdest, rfl⟩, hle⟩ := Sequencer.earliestSeq_eq_some.mp hfloor
        have hheld : ∀ row ∈ pending params state, oldest.seq ≤ row.seq →
            row ∈ state.stream.rows := by
          intro row hrow hge
          obtain hrows | ⟨-, holder⟩ := hreads row hrow
          · exact hrows
          · exact absurd (holder oldest holdest) (Int.not_lt.mpr hge)
        dsimp only
        split
        · rename_i hlt
          split
          · constructor
            · refine ⟨oldest.seq - 1, Int.le_refl _, ?_, Or.inr ⟨?_, ?_, ?_⟩⟩
              · rw [hsent]
                rfl
              · rw [hsent]
                rfl
              · show state.sub.asked < oldest.seq - 1
                omega
              · intro row hrow
                have hge := hle row hrow
                omega
            · left
              have hlast := state.stream.bounded oldest (state.stream.retained.subset holdest)
              show oldest.seq - 1 ≤ state.stream.last
              omega
            · rintro (hfresh | hfresh)
              · cases hfresh
              · cases hfresh
            · intro hchecking
              cases hchecking
            · intro _ row hrow
              obtain ⟨hwanted, hgt⟩ := mem_after.mp hrow
              have hgt' : oldest.seq - 1 < row.seq := hgt
              apply hheld row (mem_after.mpr ⟨hwanted, _⟩) _
              · omega
              · omega
          · apply Invariant.of_fresh
            · exact congrArg events hsent
            · exact hposition
            · exact fun _ => hsent
            · intro _ _ hchecking
              cases hchecking
            · rintro (hphase | hphase | ⟨hphase, -⟩)
              · cases hphase
              · cases hphase
              · cases hphase
        · rename_i hnot
          apply hdrain
          intro row hrow
          have hlt := (mem_after.mp hrow).2
          apply hheld row hrow
          omega

/-- A page starts with what is still to be sent. -/
theorem readAfter_eq (hheld : ∀ row ∈ pending params state, row ∈ state.stream.rows) :
  state.stream.readAfter state.sub.cursor params.did pageLimit =
    (pending params state).take pageLimit
  := by
  have hrows : after StreamRow.seq state.sub.position
      (state.stream.rows.filter (Sequencer.matchesDid params.did)) = pending params state := by
    have hordered : Ordered StreamRow.seq state.stream.rows :=
      state.stream.ordered.sublist state.stream.retained
    apply @Ordered.ext _ _ _ StreamRow.seq
    · exact (hordered.filter _).filter _
    · exact (ordered_wanted params state.stream).filter _
    · intro row
      constructor
      · intro hrow
        obtain ⟨hrow, hlt⟩ := mem_after.mp hrow
        obtain ⟨hrow, hmatches⟩ := List.mem_filter.mp hrow
        have hhistory := state.stream.retained.subset hrow
        exact mem_after.mpr ⟨List.mem_filter.mpr ⟨hhistory, hmatches⟩, hlt⟩
      · intro hrow
        obtain ⟨hwanted, hlt⟩ := mem_after.mp hrow
        have hmatches := (List.mem_filter.mp hwanted).2
        exact mem_after.mpr ⟨List.mem_filter.mpr ⟨hheld row hrow, hmatches⟩, hlt⟩
  exact congrArg (List.take pageLimit) hrows

/-- The result of a drain: it has sent everything, or it has sent a page, or it ended at a
row that could not be encoded or sent. -/
def Drains (encodeEvent : StreamRow → Option (Bytes × Bool)) (params : Params)
    (send : StreamRow → SendOutcome) (state result : State) : Prop :=
  result.sub.phase = .waiting ∧ pending params result = [] ∨
    result.sub.phase = .draining ∧
      (events result.sub.sent).length = (events state.sub.sent).length + pageLimit ∨
    result.sub.phase = .ended ∧
      ∃ row ∈ pending params state, encodeEvent row = none ∨ send row ≠ .sent

/-- A subscriber in a drain or between two drains starts or ends a drain, or ends. -/
theorem Invariant.turn (h : Invariant params state)
    (hphase : state.sub.phase = .draining ∨ state.sub.phase = .waiting) {phase : Phase}
    (hconnecting : phase ≠ .connecting) (hchecking : phase ≠ .checking) :
  Invariant params { state with sub := { state.sub with phase := phase } }
  := by
  constructor
  · exact h.delivered
  · exact h.position
  · rintro (hfresh | hfresh)
    · exact absurd hfresh hconnecting
    · exact absurd hfresh hchecking
  · exact fun hphase => absurd hphase hchecking
  · intro _
    apply h.served
    exact hphase.imp_right Or.inl

/-- Rows are sent from the start of what is still to be sent. -/
theorem Invariant.of_sends (h : Invariant params state) (hphase : state.sub.phase = .draining)
    {rows more : List StreamRow} {send : StreamRow → SendOutcome} {result : Subscriber}
    (hpending : pending params state = rows ++ more)
    (hs : Sends encodeEvent rows (wanted params state.stream) more send state.sub result) :
  Invariant params { state with sub := result }
  := by
  have hresult : result.phase = .ended ∨
      result.phase = .draining ∧ pending params { state with sub := result } = more := by
    obtain ⟨hended, -⟩ | ⟨hsame, hmore, -⟩ := hs.ends
    · exact Or.inl hended
    · exact Or.inr ⟨hsame.trans hphase, hmore⟩
  have hphases : result.phase ≠ .connecting ∧ result.phase ≠ .checking := by
    obtain hended | ⟨hdraining, -⟩ := hresult
    · rw [hended]
      exact ⟨nofun, nofun⟩
    · rw [hdraining]
      exact ⟨nofun, nofun⟩
  constructor
  · obtain ⟨start, hstart, haccounted, htold⟩ := h.delivered
    refine ⟨start, Int.le_trans hstart hs.forward, hs.accounted.trans haccounted, ?_⟩
    obtain hasked | ⟨hnotice, hlt, hrows⟩ := htold
    · exact Or.inl (hasked.trans hs.asked.symm)
    · refine Or.inr ⟨?_, hs.asked.symm ▸ hlt, hrows⟩
      obtain ⟨more, hmore⟩ := hs.sent
      show result.sent.head? = some outdatedCursor
      rw [← hmore, List.head?_append, hnotice]
      rfl
  · obtain hle | ⟨hevents, hposition⟩ := hs.bounded state.stream.last fun row hrow =>
      state.stream.bounded row (List.mem_filter.mp hrow).1
    · exact Or.inl hle
    · show result.position ≤ state.stream.last ∨
        events result.sent = [] ∧ result.position = result.asked
      rw [hevents, hposition, hs.asked]
      exact h.position
  · rintro (hfresh | hfresh)
    · exact absurd hfresh hphases.1
    · exact absurd hfresh hphases.2
  · exact fun hphase => absurd hphase hphases.2
  · intro hserving row hrow
    obtain hended | ⟨-, hmore⟩ := hresult
    · obtain hserving | hserving | ⟨hserving, -⟩ := hserving
      · cases hended.symm.trans hserving
      · cases hended.symm.trans hserving
      · cases hended.symm.trans hserving
    · apply h.served (Or.inl hphase)
      rw [hpending]
      exact List.mem_append_right _ (hmore ▸ hrow)

/-- One pass of a drain. -/
theorem Invariant.drainPage (h : Invariant params state) (hphase : state.sub.phase = .draining)
    (send : StreamRow → SendOutcome) :
  Invariant params
      { state with sub := drainPage encodeEvent params state.stream true send state.sub } ∧
    Drains encodeEvent params send state
      { state with sub := drainPage encodeEvent params state.stream true send state.sub }
  := by
  have hheld := h.served (Or.inl hphase)
  have hpending := (List.take_append_drop pageLimit (pending params state)).symm
  have hs := @sendRows_sends encodeEvent _ _ (ordered_wanted params state.stream) send
    ((pending params state).take pageLimit) state.sub hpending
  have hinvariant := h.of_sends hphase hpending hs
  rw [Subscribe.drainPage, if_pos rfl, readAfter_eq hheld]
  dsimp only
  split
  · rename_i hshort
    have hlength : (pending params state).length ≤ pageLimit := by
      have hlt := hshort.2
      rw [List.length_take] at hlt
      omega
    constructor
    · exact hinvariant.turn (Or.inl hshort.1) nofun nofun
    · left
      refine ⟨rfl, ?_⟩
      obtain ⟨hended, -⟩ | ⟨-, hmore, -⟩ := hs.ends
      · cases hshort.1.symm.trans hended
      · exact hmore.trans (List.drop_eq_nil_of_le hlength)
  · rename_i hlong
    refine ⟨hinvariant, ?_⟩
    obtain ⟨hended, row, hrow, hfails⟩ | ⟨hsame, hmore, hcount⟩ := hs.ends
    · exact Or.inr (Or.inr ⟨hended, row, List.mem_of_mem_take hrow, hfails⟩)
    · right
      left
      have hdraining := hsame.trans hphase
      have hge : pageLimit ≤ ((pending params state).take pageLimit).length := by
        by_contra hlt
        exact hlong ⟨hdraining, Nat.lt_of_not_le hlt⟩
      have hle := List.length_take_le pageLimit (pending params state)
      refine ⟨hdraining, ?_⟩
      rw [hcount, Nat.le_antisymm hle hge]

/-! ### Runs -/

/-- A stream without events and a subscriber that connects. -/
def start : State := ⟨Sequencer.empty, ⟨.connecting, none, [], 0⟩⟩

theorem start_invariant :
  Invariant params start
  := by
  apply Invariant.of_fresh
  · rfl
  · rfl
  · exact fun _ => rfl
  · nofun
  · intro _ row hrow
    cases (mem_after.mp hrow).1

variable (params) in
/-- What a step has to meet.  A deletion leaves what a subscriber that is served is still to be
sent.  Without a cursor the head has to be readable.  With a cursor, an event after it that the
filter lets through is held when the oldest number is read, or that number can be read and the
event is older than all that are held. -/
def Careful (state : State) : Input → Prop
  | .prune cutoff =>
    Serving params state.sub → ∀ row ∈ pending params state,
      state.stream.prunes cutoff row = false
  | .readHead reads =>
    state.sub.phase = .connecting → params.cursor = none → reads = false →
      state.stream.latestSeq = none
  | .readFloor reads _ =>
    state.sub.phase = .checking → params.cursor.isSome = true → ∀ row ∈ pending params state,
      row ∈ state.stream.rows ∨ reads = true ∧ ∀ kept ∈ state.stream.rows, row.seq < kept.seq
  | _ => True

variable (encodeEvent params)

/-- What a step does for the subscriber.  A wakeup, a lagged signal and the poll start a
drain, and a drain goes on until everything is sent. -/
def Serves (state : State) (input : Input) : Prop :=
  match input with
  | .drainPage true send =>
    state.sub.phase = .draining →
      Drains encodeEvent params send state (step encodeEvent params state input)
  | .wake did =>
    params.did.all (· = did) = true → state.sub.phase = .waiting →
      (step encodeEvent params state input).sub.phase = .draining
  | .lagged | .poll =>
    state.sub.phase = .waiting → (step encodeEvent params state input).sub.phase = .draining
  | _ => True

/-- The subscriber is sent what it should be after a step, and the step serves it. -/
def Exact (state : State) (input : Input) : Prop :=
  Delivered params (step encodeEvent params state input) ∧ Serves encodeEvent params state input

variable {encodeEvent params}

theorem Invariant.resume (h : Invariant params state) {phase : Phase}
    (hconnecting : phase ≠ .connecting) (hchecking : phase ≠ .checking) :
  Invariant params (state.resume phase)
  := by
  rw [State.resume]
  split
  · rename_i hwaiting
    exact h.turn (Or.inr hwaiting) hconnecting hchecking
  · exact h

theorem resume_phase {phase : Phase} (hwaiting : state.sub.phase = .waiting) :
  (state.resume phase).sub.phase = phase
  := by
  rw [State.resume, if_pos hwaiting]

/-- A step that meets its condition keeps the invariant and serves the subscriber. -/
theorem Invariant.step (h : Invariant params state) (input : Input)
    (hcareful : Careful params state input) :
  Invariant params (step encodeEvent params state input) ∧ Serves encodeEvent params state input
  := by
  cases input with
  | append skipped did eventType payload now =>
    exact ⟨h.append skipped did eventType payload now, trivial⟩
  | prune cutoff => exact ⟨h.prune cutoff hcareful, trivial⟩
  | readHead reads =>
    refine ⟨?_, trivial⟩
    rw [Subscribe.step]
    split
    · rename_i hphase
      exact h.readHead hphase (hcareful hphase)
    · exact h
  | readFloor reads outcome =>
    refine ⟨?_, trivial⟩
    rw [Subscribe.step]
    split
    · rename_i hphase
      exact h.readFloor hphase outcome (hcareful hphase)
    · exact h
  | drainPage reads send =>
    cases reads with
    | true =>
      by_cases hphase : state.sub.phase = .draining
      · have hdrain := @Invariant.drainPage encodeEvent params state h hphase send
        rw [Serves, Subscribe.step, if_pos hphase]
        exact ⟨hdrain.1, fun _ => hdrain.2⟩
      · rw [Serves, Subscribe.step, if_neg hphase]
        exact ⟨h, fun hdraining => absurd hdraining hphase⟩
    | false =>
      refine ⟨?_, trivial⟩
      rw [Subscribe.step]
      split
      · rename_i hphase
        exact h.turn (Or.inl hphase) nofun nofun
      · exact h
  | wake did =>
    rw [Serves, Subscribe.step]
    split
    · exact ⟨h.resume nofun nofun, fun _ hwaiting => resume_phase hwaiting⟩
    · rename_i hother
      exact ⟨h, fun hmatches => absurd hmatches hother⟩
  | lagged => exact ⟨h.resume nofun nofun, fun hwaiting => resume_phase hwaiting⟩
  | poll => exact ⟨h.resume nofun nofun, fun hwaiting => resume_phase hwaiting⟩
  | inbound closes =>
    refine ⟨?_, trivial⟩
    rw [Subscribe.step]
    split
    · exact h.resume nofun nofun
    · exact h
  | busClosed => exact ⟨h.resume nofun nofun, trivial⟩
  | shutdown => exact ⟨h.resume nofun nofun, trivial⟩

/-- In a run whose steps meet their conditions the subscriber is sent, at every moment, the
wanted events after its cursor up to its position, each once and in order, and each drain
that is not cut short sends all of them. -/
theorem along_exact (inputs : List Input)
    (h : Along (step encodeEvent params) (Careful params) start inputs) :
  Along (step encodeEvent params) (Exact encodeEvent params) start inputs
  := by
  apply @along_imp _ _ _ _ _ (Invariant params) _ _ _ _ start_invariant h
  · intro state input hinvariant hcareful
    obtain ⟨hstep, hserves⟩ := @Invariant.step encodeEvent params state hinvariant input hcareful
    exact ⟨hstep.delivered, hserves⟩
  · intro state input hinvariant hcareful
    exact (hinvariant.step input hcareful).1

/-! ### Sample runs -/

/-- The payload of an identity event of `did:web:a.b`. -/
def identityPayload : Bytes :=
  [0xa1, 0x63, 0x64, 0x69, 0x64, 0x6b, 0x64, 0x69, 0x64, 0x3a, 0x77, 0x65, 0x62, 0x3a, 0x61, 0x2e,
    0x62]

/-- The header of an identity event. -/
def identityHeader : Bytes :=
  [0xa2, 0x61, 0x74, 0x69, 0x23, 0x69, 0x64, 0x65, 0x6e, 0x74, 0x69, 0x74, 0x79, 0x62, 0x6f, 0x70,
    0x01]

/-- The frame of such an event with a small number and a time of 25 characters: the header
and the payload with the two more fields `seq` and `time`. -/
def encodeIdentity (row : StreamRow) : Option (Bytes × Bool) :=
  some (identityHeader ++ 0xa3 :: row.payload.drop 1 ++
    [0x63, 0x73, 0x65, 0x71, UInt8.ofNat row.seq.toNat] ++
    [0x64, 0x74, 0x69, 0x6d, 0x65, 0x78, 0x19] ++ row.createdAt.bytes, false)

/-- The time at some second of a minute. -/
def second (text : String) : Text := textOf ("2026-01-01T00:00:0" ++ text ++ "+00:00")

/-- An identity event is recorded, with the time read before. -/
def appendIdentity (time : String) : Input :=
  .append 0 (textOf "did:web:a.b") (textOf "identity") identityPayload (second time)

/-- The subscriber connects and drains the stream. -/
def connectAndDrain : List Input :=
  [.readHead true, .readFloor true .sent, .drainPage true fun _ => .sent]

/-- Three events, of which the oldest is deleted before a client connects with cursor 0. -/
def prunedRun : List Input :=
  [appendIdentity "1", appendIdentity "2", appendIdentity "3", .prune (second "2")] ++
    connectAndDrain

/-- The client of that run is told that its cursor is outdated and gets the other two. -/
theorem along_exact_prunedRun :
  Along (step encodeIdentity ⟨some 0, none⟩) (Careful ⟨some 0, none⟩) start prunedRun ∧
    Along (step encodeIdentity ⟨some 0, none⟩) (Exact encodeIdentity ⟨some 0, none⟩) start
      prunedRun
  := by
  have hcareful : Along (step encodeIdentity ⟨some 0, none⟩) (Careful ⟨some 0, none⟩) start
      prunedRun := by
    refine ⟨trivial, trivial, trivial, ?_, nofun, ?_, trivial, trivial⟩
    · rintro (hphase | hphase | ⟨hphase, -⟩)
      · cases hphase
      · cases hphase
      · cases hphase
    · intro _ _
      decide +kernel
  exact ⟨hcareful, along_exact prunedRun hcareful⟩

/-- Four events.  The time of the third was read before that of the second, and it is deleted
while the second stays.  Then a client connects. -/
def holeRun : List Input :=
  [appendIdentity "1", appendIdentity "3", appendIdentity "2", appendIdentity "5",
    .prune (second "3")] ++ connectAndDrain

/-- A client that connects with cursor 2 is not sent the third event, and is not told. -/
theorem hole_not_exact :
  ¬ Along (step encodeIdentity ⟨some 2, none⟩) (Exact encodeIdentity ⟨some 2, none⟩) start holeRun
  := by
  rintro ⟨-, -, -, -, -, -, -, ⟨hdelivered, -⟩, -⟩
  change Delivered _ (run (step encodeIdentity ⟨some 2, none⟩) start holeRun) at hdelivered
  obtain ⟨origin, -, haccounted, hasked | ⟨htold, -⟩⟩ := hdelivered
  · rw [hasked] at haccounted
    revert haccounted
    decide +kernel
  · revert htold
    decide +kernel

end Atproto.Pds.Subscribe
