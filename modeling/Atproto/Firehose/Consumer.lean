import Atproto.Firehose.Wire
import Atproto.Logic.Machine
import Mathlib.Data.List.Basic

/-!
# The consumer of the firehose

The consumer connects with the stored cursor, hands each event it wants to a sink and moves
the cursor.  Sequence numbers of frames that are skipped wait in a pending slot and are
stored now and then, and a message the sink refuses empties the slot.

Besides the state of the consumer we keep the sequence numbers of the events the sink
refused and has not accepted since.  The cursor has to stay below each of them, so that the
server sends them again.  A frame after a refused event fills the slot again, and we
characterise the runs in which the cursor does not pass a refused event.
-/

namespace Atproto.Firehose

open Atproto.Dasl Atproto.Repo Logic.Machine

/-! ### One frame -/

/-- A message for the sink. -/
inductive IngestMessage where
  | commit (envelope : CommitEnvelope) (blocks : Bytes)
  | resync (payload : SyncPayload)
  | identity (payload : IdentityPayload)
  | account (payload : AccountPayload)
  | cursorLost (refused : Option Int) (info : InfoPayload)

/-- The server ended the subscription. -/
structure ServerError where
  error : Text
  message : Text

/-- What one frame did to the stream. -/
inductive FrameOutcome where
  | delivered (seq : Int)
  | skipped (seq : Option Int)
  | held (seq : Option Int)
  | terminal (error : ServerError)
  | cursorCleared

/-- What the environment does during a step: whether a commit verifies, whether the sink
acknowledges a message, whether the store of the cursor can be read, written and cleared,
and whether it is time to write a pending cursor. -/
structure Answers where
  verifies : CommitEnvelope → Bytes → Bool
  acknowledges : IngestMessage → Bool
  loads : Bool
  stores : Bool
  clears : Bool
  flushDue : Bool

/-- What became of a frame: the outcome, the message the sink was given, and the stored
cursor, which changes when the server refused it. -/
structure Handled where
  outcome : FrameOutcome
  message : Option IngestMessage
  stored : Option Int

/-- The cursor that the store returns, none when it fails. -/
def loadCursor (answers : Answers) (stored : Option Int) : Option Int :=
  if answers.loads then stored else none

/-- Hand a message to the sink. -/
def deliver (answers : Answers) (stored : Option Int) (message : IngestMessage)
    (seq : Option Int) : Handled where
  outcome :=
    if answers.acknowledges message then
      match seq with
      | some seq => .delivered seq
      | none => .skipped none
    else .held seq
  message := message
  stored := stored

variable (decoder : FrameDecoder) (collections : List Text)

/-- Verify a commit when it is tracked and hand it to the sink. -/
def handleCommit (answers : Answers) (stored : Option Int) (frame : Frame)
    (envelope : CommitEnvelope) : Handled :=
  if matchesTracked envelope collections then
    match frame.commitBlocks decoder with
    | .error _ => ⟨.skipped envelope.seq, none, stored⟩
    | .ok blocks =>
      if answers.verifies envelope blocks then
        deliver answers stored (.commit envelope blocks) envelope.seq
      else ⟨.skipped envelope.seq, none, stored⟩
  else ⟨.skipped envelope.seq, none, stored⟩

/-- Clear the stored cursor and tell the sink, whose answer does not matter. -/
def handleOutdated (answers : Answers) (stored : Option Int) (info : InfoPayload) : Handled where
  outcome := .cursorCleared
  message := some (.cursorLost (loadCursor answers stored) info)
  stored := if answers.clears then none else stored

/-- Do what an event asks for. -/
def handleEvent (answers : Answers) (stored : Option Int) (frame : Frame) : Event → Handled
  | .commit envelope => handleCommit decoder collections answers stored frame envelope
  | .sync payload => deliver answers stored (.resync payload) payload.seq
  | .identity payload => deliver answers stored (.identity payload) payload.seq
  | .account payload => deliver answers stored (.account payload) payload.seq
  | .info info =>
    if info.isOutdatedCursor then handleOutdated answers stored info
    else ⟨.skipped none, none, stored⟩
  | .error payload => ⟨.terminal ⟨payload.error, payload.message.getD Text.empty⟩, none, stored⟩
  | .unknown _ => ⟨.skipped none, none, stored⟩

/-- Decode a frame, verify it if it is wanted and hand it to the sink. -/
def handleFrame (answers : Answers) (stored : Option Int) (bytes : Bytes) : Handled :=
  match splitFrame decoder bytes with
  | .error _ => ⟨.skipped none, none, stored⟩
  | .ok frame =>
    match frame.event decoder with
    | .error _ => ⟨.skipped none, none, stored⟩
    | .ok event => handleEvent decoder collections answers stored frame event

/-! ### Connections -/

/-- A connection, the cursor it was opened with and the pending cursor. -/
structure Connection where
  cursor : Option Int
  pending : Option Int

/-- The stored cursor, the connection, and the events that the sink refused and has not
accepted since.  The last field is not part of the program. -/
structure State where
  stored : Option Int
  connection : Option Connection
  refused : List Int

/-- What happens to a consumer.  A crash loses everything but the stored cursor. -/
inductive Input where
  | connect (answers : Answers) (succeeds : Bool)
  | frame (answers : Answers) (bytes : Bytes)
  | text
  | closed (answers : Answers)
  | failed
  | shutdown (answers : Answers)
  | crash

/-- Write the pending cursor, if there is one. -/
def flush (answers : Answers) (pending stored : Option Int) : Option Int :=
  match pending with
  | none => stored
  | some seq => if answers.stores then some seq else stored

/-- What the loop does with the outcome of a frame. -/
def State.settle (answers : Answers) (state : State) (connection : Connection)
    (handled : Handled) : State :=
  match handled.outcome with
  | .delivered seq =>
    { stored := flush answers (some seq) handled.stored
      connection := some { connection with pending := none }
      refused := state.refused.filter (· ≠ seq) }
  | .skipped seq =>
    let pending := seq <|> connection.pending
    if answers.flushDue then
      { stored := flush answers pending handled.stored
        connection := some { connection with pending := none }
        refused := state.refused }
    else
      { stored := handled.stored
        connection := some { connection with pending := pending }
        refused := state.refused }
  | .held seq =>
    { stored := handled.stored
      connection := some { connection with pending := none }
      refused := seq.toList ++ state.refused }
  | .cursorCleared =>
    { stored := handled.stored, connection := none, refused := state.refused }
  | .terminal _ =>
    { stored := flush answers connection.pending handled.stored
      connection := none
      refused := state.refused }

/-- The end of the stream: the pending cursor is written. -/
def State.finish (answers : Answers) (state : State) : State :=
  match state.connection with
  | none => state
  | some connection =>
    { state with
      stored := flush answers connection.pending state.stored
      connection := none }

/-- One step of the loop. -/
def step (state : State) : Input → State
  | .connect answers succeeds =>
    match state.connection with
    | some _ => state
    | none =>
      if succeeds then
        { state with connection := some ⟨loadCursor answers state.stored, none⟩ }
      else state
  | .frame answers bytes =>
    match state.connection with
    | none => state
    | some connection =>
      state.settle answers connection (handleFrame decoder collections answers state.stored bytes)
  | .text => state
  | .closed answers | .shutdown answers => state.finish answers
  | .failed | .crash => { state with connection := none }

/-! ### What a frame asks for -/

/-- What a frame asks for before the sink is asked: an event is offered to the sink, a
sequence number or nothing is passed over, the cursor is outdated, or the server ends the
subscription. -/
inductive Request where
  | offered (message : IngestMessage) (seq : Int)
  | passed (seq : Option Int)
  | outdated (info : InfoPayload)
  | ended (error : ServerError)

/-- What an event asks for.  A commit is offered when it is tracked and verifies. -/
def Event.request (verifies : CommitEnvelope → Bytes → Bool) (frame : Frame) : Event → Request
  | .commit envelope =>
    match frame.commitBlocks decoder with
    | .error _ => .passed envelope.seq
    | .ok blocks =>
      if matchesTracked envelope collections && verifies envelope blocks then
        .offered (.commit envelope blocks) envelope.seq
      else .passed envelope.seq
  | .sync payload => .offered (.resync payload) payload.seq
  | .identity payload => .offered (.identity payload) payload.seq
  | .account payload => .offered (.account payload) payload.seq
  | .info notice => if notice.isOutdatedCursor then .outdated notice else .passed none
  | .error payload => .ended ⟨payload.error, payload.message.getD Text.empty⟩
  | .unknown _ => .passed none

/-- What a frame asks for.  A frame that cannot be decoded is passed over. -/
def request (verifies : CommitEnvelope → Bytes → Bool) (bytes : Bytes) : Request :=
  match splitFrame decoder bytes with
  | .error _ => .passed none
  | .ok frame =>
    match frame.event decoder with
    | .error _ => .passed none
    | .ok event => event.request decoder collections verifies frame

/-- The answer to a request. -/
def Request.handled (answers : Answers) (stored : Option Int) : Request → Handled
  | .offered message seq => deliver answers stored message seq
  | .passed seq => ⟨.skipped seq, none, stored⟩
  | .outdated info => handleOutdated answers stored info
  | .ended error => ⟨.terminal error, none, stored⟩

variable {decoder collections}

theorem handleCommit_eq (answers : Answers) (stored : Option Int) (frame : Frame)
    (envelope : CommitEnvelope) :
  handleCommit decoder collections answers stored frame envelope =
    ((Event.commit envelope).request decoder collections answers.verifies frame).handled
      answers stored
  := by
  rw [handleCommit, Event.request]
  cases frame.commitBlocks decoder with
  | error error =>
    dsimp only [Request.handled]
    exact ite_self _
  | ok blocks =>
    dsimp only
    cases matchesTracked envelope collections with
    | false => rfl
    | true =>
      cases answers.verifies envelope blocks with
      | false => rfl
      | true => rfl

theorem handleEvent_eq (answers : Answers) (stored : Option Int) (frame : Frame) (event : Event) :
  handleEvent decoder collections answers stored frame event =
    (event.request decoder collections answers.verifies frame).handled answers stored
  := by
  cases event with
  | commit envelope => exact handleCommit_eq answers stored frame envelope
  | sync payload => rfl
  | identity payload => rfl
  | account payload => rfl
  | info info =>
    rw [handleEvent, Event.request]
    split
    · rfl
    · rfl
  | error payload => rfl
  | unknown tag => rfl

/-- A frame is handled as what it asks for. -/
theorem handleFrame_eq (answers : Answers) (stored : Option Int) (bytes : Bytes) :
  handleFrame decoder collections answers stored bytes =
    (request decoder collections answers.verifies bytes).handled answers stored
  := by
  rw [handleFrame, request]
  cases splitFrame decoder bytes with
  | error error => rfl
  | ok frame =>
    dsimp only
    cases frame.event decoder with
    | error error => rfl
    | ok event => exact handleEvent_eq answers stored frame event

/-! ### The cursor stays below refused events -/

/-- A cursor makes the server send all the given events.  Without a cursor the server starts
at its live edge. -/
def Below : Option Int → List Int → Prop
  | none, refused => refused = []
  | some cursor, refused => ∀ seq ∈ refused, cursor < seq

instance : (cursor : Option Int) → (refused : List Int) → Decidable (Below cursor refused)
  | none, refused => inferInstanceAs (Decidable (refused = []))
  | some cursor, refused => inferInstanceAs (Decidable (∀ seq ∈ refused, cursor < seq))

/-- Nothing is below every event when there are none. -/
theorem below_nil (cursor : Option Int) :
  Below cursor []
  := by
  cases cursor with
  | none => rfl
  | some cursor => nofun

theorem Below.mono {cursor : Option Int} {xs ys : List Int} (h : Below cursor xs)
    (hsub : ∀ seq ∈ ys, seq ∈ xs) :
  Below cursor ys
  := by
  cases cursor with
  | none =>
    apply List.eq_nil_iff_forall_not_mem.mpr
    intro seq hseq
    have hmem := hsub seq hseq
    rw [show xs = [] from h] at hmem
    cases hmem
  | some cursor => exact fun seq hseq => h seq (hsub seq hseq)

/-- One more event needs a cursor below it. -/
theorem below_cons {cursor : Option Int} {seq : Int} {xs : List Int} (h : Below cursor xs) :
  Below cursor (seq :: xs) ↔ ∃ c, cursor = some c ∧ c < seq
  := by
  cases cursor with
  | none =>
    constructor
    · nofun
    · nofun
  | some cursor =>
    constructor
    · intro hbelow
      use cursor
      exact ⟨rfl, hbelow seq List.mem_cons_self⟩
    · rintro ⟨c, hc, hlt⟩
      cases hc
      exact List.forall_mem_cons.mpr ⟨hlt, h⟩

/-- A pending cursor that will be written is below the given events. -/
def WritesBelow (answers : Answers) (pending : Option Int) (refused : List Int) : Prop :=
  answers.stores = true → ∀ cursor, pending = some cursor → Below (some cursor) refused

theorem below_flush {answers : Answers} {stored pending : Option Int} {refused : List Int}
    (h : Below stored refused) :
  Below (flush answers pending stored) refused ↔ WritesBelow answers pending refused
  := by
  cases pending with
  | none =>
    constructor
    · intro _ _
      nofun
    · exact fun _ => h
  | some seq =>
    rw [flush, WritesBelow]
    cases answers.stores with
    | false =>
      constructor
      · nofun
      · exact fun _ => h
    | true =>
      constructor
      · rintro hbelow - cursor hcursor
        cases hcursor
        exact hbelow
      · exact fun hwrites => hwrites rfl seq rfl

variable (decoder collections)

/-- The cursor that a step connects with, when it connects. -/
def cursorUsed (state : State) : Input → Option (Option Int)
  | .connect answers _ =>
    match state.connection with
    | some _ => none
    | none => some (loadCursor answers state.stored)
  | _ => none

/-- The cursor that is stored after a step, and the one that the step connects with, are
below every event that was refused and not accepted since. -/
def CursorBelow (state : State) (input : Input) : Prop :=
  Below (step decoder collections state input).stored
      (step decoder collections state input).refused ∧
    ∀ cursor, cursorUsed state input = some cursor → Below cursor state.refused

/-- What a request has to meet.  An event is acknowledged, and a pending cursor written, only
below the refused events; an event is refused only above the stored cursor; and the cursor
is not cleared while there are refused events. -/
def Request.Careful (answers : Answers) (state : State) (connection : Connection) :
    Request → Prop
  | .offered message seq =>
    if answers.acknowledges message then
      WritesBelow answers (some seq) (state.refused.filter (· ≠ seq))
    else ∃ cursor, state.stored = some cursor ∧ cursor < seq
  | .passed seq =>
    answers.flushDue = true → WritesBelow answers (seq <|> connection.pending) state.refused
  | .outdated _ => answers.clears = true → state.refused = []
  | .ended _ => WritesBelow answers connection.pending state.refused

/-- What a step has to meet.  Besides the requests, the cursor is loaded on a reconnect while
there are refused events, and a pending cursor is below them when the stream ends. -/
def Careful (state : State) : Input → Prop
  | .connect answers _ =>
    state.connection = none → state.refused ≠ [] → answers.loads = true
  | .frame answers bytes =>
    ∀ connection, state.connection = some connection →
      (request decoder collections answers.verifies bytes).Careful answers state connection
  | .closed answers | .shutdown answers =>
    ∀ connection, state.connection = some connection →
      WritesBelow answers connection.pending state.refused
  | .text | .failed | .crash => True

variable {decoder collections} {state : State} {answers : Answers}

/-- The answer to a request keeps the stored cursor below the refused events exactly when the
request meets its condition. -/
theorem Request.below_settle_iff {connection : Connection} (h : Below state.stored state.refused)
    (request : Request) :
  Below (state.settle answers connection (request.handled answers state.stored)).stored
      (state.settle answers connection (request.handled answers state.stored)).refused ↔
    request.Careful answers state connection
  := by
  cases request with
  | offered message seq =>
    rw [Request.handled, deliver, Request.Careful]
    cases answers.acknowledges message with
    | true =>
      rw [if_pos rfl, if_pos rfl]
      have hothers : Below state.stored (state.refused.filter (· ≠ seq)) :=
        h.mono fun other hother => (List.mem_filter.mp hother).1
      exact @below_flush answers _ (some seq) _ hothers
    | false =>
      rw [if_neg Bool.false_ne_true, if_neg Bool.false_ne_true]
      exact below_cons h
  | passed seq =>
    rw [Request.handled, State.settle, Request.Careful]
    cases answers.flushDue with
    | true =>
      constructor
      · exact fun hbelow _ => (below_flush h).mp hbelow
      · exact fun hwrites => (below_flush h).mpr (hwrites rfl)
    | false => exact iff_of_true h nofun
  | outdated info =>
    rw [Request.handled, handleOutdated, Request.Careful]
    cases answers.clears with
    | true =>
      constructor
      · exact fun hnil _ => hnil
      · exact fun hnil => hnil rfl
    | false => exact iff_of_true h nofun
  | ended error => exact below_flush h

/-- The cursor loaded for a reconnect is below the refused events when it could be read. -/
theorem below_loadCursor_iff (h : Below state.stored state.refused) :
  Below (loadCursor answers state.stored) state.refused ↔
    (state.refused ≠ [] → answers.loads = true)
  := by
  rw [loadCursor]
  cases answers.loads with
  | true => exact iff_of_true h fun _ => rfl
  | false =>
    constructor
    · exact fun hnil hne => absurd hnil hne
    · intro hne
      by_contra hnil
      exact Bool.false_ne_true (hne hnil)

/-- At the end of the stream the pending cursor counts. -/
theorem below_finish_iff (h : Below state.stored state.refused) :
  Below (state.finish answers).stored (state.finish answers).refused ↔
    ∀ connection, state.connection = some connection →
      WritesBelow answers connection.pending state.refused
  := by
  rw [State.finish]
  cases state.connection with
  | none => exact iff_of_true h nofun
  | some connection =>
    dsimp only
    rw [below_flush h]
    constructor
    · rintro hwrites _ ⟨⟩
      exact hwrites
    · exact fun hwrites => hwrites connection rfl

/-- From a state whose cursor is below the refused events, a step keeps the cursor below them
exactly when it meets its condition. -/
theorem cursorBelow_iff_careful (h : Below state.stored state.refused) (input : Input) :
  CursorBelow decoder collections state input ↔ Careful decoder collections state input
  := by
  cases input with
  | connect answers succeeds =>
    rw [CursorBelow, cursorUsed, Careful, step]
    cases hconnection : state.connection with
    | some connection => exact iff_of_true ⟨h, nofun⟩ nofun
    | none =>
      dsimp only
      have hstored : Below (if succeeds = true then
          { state with connection := some ⟨loadCursor answers state.stored, none⟩ }
        else state).stored (if succeeds = true then
          { state with connection := some ⟨loadCursor answers state.stored, none⟩ }
        else state).refused := by
        cases succeeds with
        | true => exact h
        | false => exact h
      constructor
      · rintro ⟨-, hcursor⟩ -
        exact (below_loadCursor_iff h).mp (hcursor _ rfl)
      · intro hcareful
        apply And.intro hstored
        rintro cursor ⟨⟩
        exact (below_loadCursor_iff h).mpr (hcareful rfl)
  | frame answers bytes =>
    rw [CursorBelow, Careful, step]
    cases hconnection : state.connection with
    | none => exact iff_of_true ⟨h, nofun⟩ nofun
    | some connection =>
      dsimp only
      rw [handleFrame_eq]
      constructor
      · rintro ⟨hbelow, -⟩ other hother
        cases hother
        exact (Request.below_settle_iff h _).mp hbelow
      · intro hcareful
        exact ⟨(Request.below_settle_iff h _).mpr (hcareful connection rfl), nofun⟩
  | text => exact iff_of_true ⟨h, nofun⟩ trivial
  | closed answers =>
    rw [CursorBelow, Careful, step, and_iff_left nofun]
    exact below_finish_iff h
  | failed => exact iff_of_true ⟨h, nofun⟩ trivial
  | shutdown answers =>
    rw [CursorBelow, Careful, step, and_iff_left nofun]
    exact below_finish_iff h
  | crash => exact iff_of_true ⟨h, nofun⟩ trivial

/-- A consumer that starts with a stored cursor. -/
def start (stored : Option Int) : State := ⟨stored, none, []⟩

/-- During a run the cursor stays below every event that was refused and not accepted since
exactly when every step of the run meets its condition. -/
theorem along_cursorBelow_iff (stored : Option Int) (inputs : List Input) :
  Along (step decoder collections) (CursorBelow decoder collections) (start stored) inputs ↔
    Along (step decoder collections) (Careful decoder collections) (start stored) inputs
  := by
  apply @along_congr _ _ _ _ _ fun state => Below state.stored state.refused
  · exact fun state input h => cursorBelow_iff_careful h input
  · intro state input h hcareful
    exact ((cursorBelow_iff_careful h input).mpr hcareful).1
  · exact below_nil stored

/-! ### A cursor that passes a refused event -/

/-- The header with the tag `#identity`. -/
def identityHeader : Bytes :=
  [0xa2, 0x61, 0x74, 0x69, 0x23, 0x69, 0x64, 0x65, 0x6e, 0x74, 0x69, 0x74, 0x79, 0x62, 0x6f, 0x70,
    0x01]

/-- The body of an identity event of `did:web:a.b` up to its sequence number. -/
def identityBody : Bytes :=
  [0xa2, 0x63, 0x64, 0x69, 0x64, 0x6b, 0x64, 0x69, 0x64, 0x3a, 0x77, 0x65, 0x62, 0x3a, 0x61, 0x2e,
    0x62, 0x63, 0x73, 0x65, 0x71]

/-- The deserializer of that header. -/
def readIdentityHeader (bytes : Bytes) : Except DecodeError (FrameHeader × Nat) :=
  if bytes.take 17 = identityHeader then .ok (⟨1, some (textOf "#identity")⟩, 17)
  else .error .unexpectedEof

/-- The deserializer of those bodies with a small sequence number. -/
def readIdentityBody (bytes : Bytes) : Except DecodeError IdentityPayload :=
  match bytes.drop 21 with
  | [seq] =>
    if bytes.take 21 = identityBody ∧ seq.toNat < 24 then
      .ok ⟨seq.toNat, textOf "did:web:a.b", none, none⟩
    else .error .unexpectedEof
  | _ => .error .unexpectedEof

/-- A decoder of identity events. -/
def identityDecoder : FrameDecoder where
  header := readIdentityHeader
  commit := fun _ => .error .unexpectedEof
  blocks := fun _ => .error .unexpectedEof
  sync := fun _ => .error .unexpectedEof
  identity := readIdentityBody
  account := fun _ => .error .unexpectedEof
  info := fun _ => .error .unexpectedEof
  error := fun _ => .error .unexpectedEof

/-- An environment in which only the sink can fail. -/
def sinkAnswers (acknowledges : Bool) : Answers where
  verifies := fun _ _ => true
  acknowledges := fun _ => acknowledges
  loads := true
  stores := true
  clears := true
  flushDue := false

/-- The consumer connects with the cursor 4, the sink refuses event 5 and accepts event 6. -/
def refusedThenAccepted : List Input :=
  [.connect (sinkAnswers true) true,
    .frame (sinkAnswers false) (identityHeader ++ identityBody ++ [5]),
    .frame (sinkAnswers true) (identityHeader ++ identityBody ++ [6])]

/-- An event accepted after a refused one moves the cursor past the refused one. -/
theorem cursor_passes_refused :
  ¬ Along (step identityDecoder []) (CursorBelow identityDecoder []) (start (some 4))
    refusedThenAccepted
  := by
  rintro ⟨-, -, ⟨hbelow, -⟩, -⟩
  revert hbelow
  decide +kernel

end Atproto.Firehose
